/-!
Lists gone through with a test that may fail.
-/

namespace ModuleCompiler

/-- The elements that pass a test; the first failure of the test ends the pass. -/
def filterChecked {α ε : Type} (test : α → Except ε Bool) : List α → Except ε (List α)
  | [] => .ok []
  | a :: rest => do
    let keep ← test a
    let kept ← filterChecked test rest
    return if keep then a :: kept else kept

/-- Whether every element passes; the elements after the first that does not are not tested. -/
def allChecked {α ε : Type} (test : α → Except ε Bool) : List α → Except ε Bool
  | [] => .ok true
  | a :: rest => do
    if ← test a then allChecked test rest else return false

/-- The results for all elements, in order; the first failure ends the pass. -/
def mapChecked {α β ε : Type} (f : α → Except ε β) : List α → Except ε (List β)
  | [] => .ok []
  | a :: rest => do
    let b ← f a
    let bs ← mapChecked f rest
    return b :: bs

end ModuleCompiler
