import ModuleCompiler.Checked
import ModuleCompiler.Store

/-!
Questions for the entities that hold every component of a set. One kind of the set leads: its table
is gone through by slot, and the entities that hold the rest are kept.
-/

namespace ModuleCompiler

structure Query where
  lead : Kind
  rest : List Kind

namespace Query

def kinds (q : Query) : List Kind := q.lead :: q.rest

/-- Whether a living entity holds the whole set. -/
def holdsAll (q : Query) (s : Store) (id : Entity) : Except Fault Bool :=
  allChecked (s.has · id) q.kinds

/-- The matching entities, by slot. -/
def ids (q : Query) (s : Store) : Except Fault (List Entity) :=
  filterChecked (q.holdsAll s) (s.holders q.lead)

/-- Whether an entity matches. A handle that is not alive does not. -/
def has (q : Query) (s : Store) (id : Entity) : Except Fault Bool :=
  if s.isValid id then q.holdsAll s id else .ok false

/-- The entities of a list that match, in the order of the list. -/
def retain (q : Query) (s : Store) (ids : List Entity) : Except Fault (List Entity) :=
  filterChecked (q.has s) ids

/-- A component of an entity that matches. -/
def get? (q : Query) (s : Store) (k : Kind) (id : Entity) : Except Fault (Option k.Value) := do
  if ← q.has s id then s.get? k id else return none

def count (q : Query) (s : Store) : Except Fault Nat := do return (← q.ids s).length

def isEmpty (q : Query) (s : Store) : Except Fault Bool := do return (← q.ids s).isEmpty

end Query

end ModuleCompiler
