import ModuleCompiler.Fault

/-!
Indented text, line by line.
-/

namespace ModuleCompiler

structure Writer where
  level : Nat
  text : String
  deriving DecidableEq

namespace Writer

def empty : Writer := ⟨0, ""⟩

instance : Inhabited Writer := ⟨empty⟩

/-- The white space in front of a line. -/
def margin (level : Nat) : String := String.join (List.replicate level "    ")

def line (w : Writer) (s : String) : Writer :=
  { w with text := w.text ++ margin w.level ++ s ++ "\n" }

/-- An empty line, which has no margin. -/
def blank (w : Writer) : Writer := { w with text := w.text ++ "\n" }

def comment (w : Writer) (s : String) : Writer := w.line ("// " ++ s)

/-- The line that includes a header. -/
def includeLine (w : Writer) (header : String) : Writer := w.line ("#include <" ++ header ++ ">")

def indent (w : Writer) : Writer := { w with level := w.level + 1 }

/-- One level back; there is none at the margin. -/
def dedent (w : Writer) : Except Fault Writer :=
  if w.level = 0 then .error .dedentAtMargin else .ok { w with level := w.level - 1 }

def lines (w : Writer) (ls : List String) : Writer := ls.foldl line w

/-- The writer with its text taken out. -/
def cleared (w : Writer) : Writer := { w with text := "" }

end Writer

end ModuleCompiler
