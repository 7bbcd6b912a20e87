/-!
Finite maps whose keys decide the type of their values.
-/

namespace ModuleCompiler

structure KeyedMap (κ : Type) (β : κ → Type) where
  entries : List ((k : κ) × β k)

namespace KeyedMap

variable {κ : Type} {β : κ → Type} [DecidableEq κ]

def empty : KeyedMap κ β := ⟨[]⟩

def lookup (k : κ) : List ((k : κ) × β k) → Option (β k)
  | [] => none
  | ⟨k', v⟩ :: rest => if h : k' = k then some (h ▸ v) else lookup k rest

def find? (m : KeyedMap κ β) (k : κ) : Option (β k) := lookup k m.entries

def place (k : κ) (v : β k) : List ((k : κ) × β k) → List ((k : κ) × β k)
  | [] => [⟨k, v⟩]
  | ⟨k', v'⟩ :: rest => if k' = k then ⟨k, v⟩ :: rest else ⟨k', v'⟩ :: place k v rest

/-- The map with a value added or replaced. -/
def insert (m : KeyedMap κ β) (k : κ) (v : β k) : KeyedMap κ β := ⟨place k v m.entries⟩

/-- The map with every value changed by its own function. -/
def map (m : KeyedMap κ β) (f : (k : κ) → β k → β k) : KeyedMap κ β :=
  ⟨m.entries.map fun ⟨k, v⟩ => ⟨k, f k v⟩⟩

@[simp] theorem find?_empty (k : κ) : (empty : KeyedMap κ β).find? k = none := rfl

@[simp] theorem find?_insert_self (m : KeyedMap κ β) (k : κ) (v : β k) :
    (m.insert k v).find? k = some v := by
  unfold insert find?
  induction m.entries with
  | nil => simp [place, lookup]
  | cons e rest ih =>
    obtain ⟨k', v'⟩ := e
    by_cases h : k' = k
    · simp [place, lookup, h]
    · simpa [place, lookup, h] using ih

theorem find?_insert_of_ne (m : KeyedMap κ β) {k k' : κ} (v : β k) (hne : k ≠ k') :
    (m.insert k v).find? k' = m.find? k' := by
  unfold insert find?
  induction m.entries with
  | nil => simp [place, lookup, hne]
  | cons e rest ih =>
    obtain ⟨j, w⟩ := e
    by_cases h : j = k
    · subst h
      simp [place, lookup, hne]
    · by_cases hj : j = k'
      · subst hj
        simp [place, lookup, h]
      · simpa [place, lookup, h, hj] using ih

/-- A value put where it already is changes nothing. -/
theorem insert_of_find? {m : KeyedMap κ β} {k : κ} {v : β k} (h : m.find? k = some v) :
    m.insert k v = m := by
  obtain ⟨entries⟩ := m
  refine congrArg mk ?_
  unfold find? at h
  induction entries with
  | nil => cases h
  | cons e rest ih =>
    obtain ⟨j, w⟩ := e
    by_cases hj : j = k
    · subst hj
      simp only [lookup, dite_true, Option.some.injEq] at h
      simp [place, h]
    · simp only [lookup, hj, dite_false] at h
      simp [place, hj, ih h]

theorem find?_map (m : KeyedMap κ β) (f : (k : κ) → β k → β k) (k : κ) :
    (m.map f).find? k = (m.find? k).map (f k) := by
  unfold map find?
  induction m.entries with
  | nil => rfl
  | cons e rest ih =>
    obtain ⟨j, w⟩ := e
    by_cases h : j = k
    · subst h
      simp [lookup]
    · simpa [lookup, h] using ih

end KeyedMap

end ModuleCompiler
