import ModuleCompiler.Proofs.Operation

/-!
Observers that cause each other to be told. A run is given a number of levels for them and may run
out of these. A run that does not is the run of any larger number of levels: its answers and the
tree it leaves are those of observers that nothing holds back.
-/

namespace ModuleCompiler

/-- Whether an answer says no more than that a run had too few levels. -/
def ranOut {α : Type} : Except Fault α → Bool
  | .ok _ => false
  | .error e => e = .observersTooDeep

/-- Where a request does not run out of levels, another one does the same. -/
def Outlasts {α : Type} (more action : Ast.Action α) : Prop :=
  ∀ ast, ranOut (reply (action ast)) = false → more ast = action ast

namespace Outlasts

variable {α β : Type}

theorem refl (action : Ast.Action α) : Outlasts action action := fun _ _ => rfl

theorem bind {more action : Ast.Action α} {moreNext next : α → Ast.Action β}
    (h : Outlasts more action) (hnext : ∀ a, Outlasts (moreNext a) (next a)) :
    Outlasts (more >>= moreNext) (action >>= next) := by
  intro ast hran
  cases hrun : action ast with
  | ok a after =>
    have hmore : more ast = .ok a after := (h ast (by rw [hrun]; rfl)).trans hrun
    rw [bind_run_ok hrun] at hran ⊢
    rw [bind_run_ok hmore]
    exact hnext a after hran
  | error e after =>
    rw [bind_run_error hrun] at hran ⊢
    have hmore : more ast = .error e after := (h ast (by rw [hrun]; exact hran)).trans hrun
    exact bind_run_error hmore

theorem get_bind {moreNext next : Ast → Ast.Action β}
    (h : ∀ ast, Outlasts (moreNext ast) (next ast)) :
    Outlasts (get >>= moreNext) (get >>= next) := fun ast hran => h ast ast hran

theorem discard {more action : Ast.Action α} (h : Outlasts more action) :
    Outlasts (Functor.discard more) (Functor.discard action) := by
  intro ast hran
  rw [discard_run] at hran ⊢
  rw [discard_run, h ast]
  cases hrun : action ast with
  | ok a after => rfl
  | error e after =>
    rw [hrun] at hran
    exact hran

theorem forM {items : List α} {more action : α → Ast.Action Unit}
    (h : ∀ a ∈ items, Outlasts (more a) (action a)) :
    Outlasts (items.forM more) (items.forM action) := by
  induction items with
  | nil => exact refl _
  | cons a rest ih =>
    have hrest := ih fun b hb => h b (by simp [hb])
    exact (h a (by simp)).bind fun _ => hrest

section Telling

variable {moreTell tell : Kind → Entity → Ast.Action Unit}
  (htell : ∀ k id, Outlasts (moreTell k id) (tell k id))
include htell

theorem insertTelling (k : Kind) (id : Entity) (v : k.Value) :
    Outlasts (Ast.insertTelling moreTell k id v) (Ast.insertTelling tell k id v) :=
  (refl _).bind fun _ => (refl _).bind fun _ => (htell k id).bind fun _ => refl _

theorem getOrInsertTelling (k : Kind) (id : Entity) (v : k.Value) :
    Outlasts (Ast.getOrInsertTelling moreTell k id v) (Ast.getOrInsertTelling tell k id v) := by
  refine (refl _).bind fun held => ?_
  cases held with
  | true => exact refl _
  | false => exact (insertTelling htell k id v).discard.bind fun _ => refl _

/-- By induction on the script. -/
theorem perform (script : Script) :
    Outlasts (Ast.perform moreTell script) (Ast.perform tell script) := by
  induction script with
  | done => exact refl _
  | fail fault => exact refl _
  | read next ih => exact get_bind fun ast => ih ast.store
  | create next ih => exact (refl _).bind ih
  | insert k id v next ih => exact (insertTelling htell k id v).discard.bind fun _ => ih
  | edit change next ih => exact (refl _).bind fun _ => ih
  | observe k observer next _ ih => exact (refl _).bind fun _ => ih

theorem runTelling (op : Operation) : Outlasts (op.runTelling moreTell) (op.runTelling tell) := by
  cases op with
  | insert k id v => exact insertTelling htell k id v
  | getOrInsert k id v => exact getOrInsertTelling htell k id v
  | _ => exact refl _

end Telling

/-- One more level. Without any left nobody is told, so there was nobody to tell. -/
theorem tell_succ (levels : Nat) (k : Kind) (id : Entity) :
    Outlasts (Ast.tell (levels + 1) k id) (Ast.tell levels k id) := by
  induction levels generalizing k id with
  | zero =>
    intro ast hran
    cases hobservers : ast.observersOf k with
    | nil => rw [Ast.tell_of_unobserved hobservers, Ast.tell_of_unobserved hobservers]
    | cons observer rest =>
      rw [Ast.tell_zero, hobservers] at hran
      cases hran
  | succ levels ih => exact get_bind fun ast => forM fun observer _ => perform ih (observer id)

theorem tell {levels more : Nat} (h : levels ≤ more) (k : Kind) (id : Entity) :
    Outlasts (Ast.tell more k id) (Ast.tell levels k id) := by
  induction more, h using Nat.le_induction with
  | base => exact refl _
  | succ more _ ih =>
    intro ast hran
    have hsame := ih ast hran
    rw [tell_succ more k id ast (by rw [hsame]; exact hran), hsame]

/-- What an operation does does not depend on its levels, if they are enough. -/
theorem run {levels more : Nat} (h : levels ≤ more) (op : Operation) :
    Outlasts (op.run more) (op.run levels) := runTelling (tell h) op

end Outlasts

end ModuleCompiler
