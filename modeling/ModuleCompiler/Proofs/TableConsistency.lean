import Mathlib.Data.Set.Card
import ModuleCompiler.Proofs.Hierarchy

/-!
Every run leaves a sound store, whichever of its requests were refused part way. So the tables stay
well formed, they never hold anything of an entity that has ended, no look-up leaves the bounds of
a table, and a table has one entry for each living entity with a component of its kind.
-/

namespace ModuleCompiler.Store

variable {s : Store}

theorem sound_attach (k : Kind) (id : Entity) (v : k.Value) :
    Keeps Sound Sound (attach k id v) := by
  intro s hs
  by_cases hid : s.isValid id
  · rw [attach_run v hid]
    exact hs.withComponent hid
  · rw [attach_run_stale v hid]
    exact hs

theorem sound_detach (k : Kind) (id : Entity) : Keeps Sound Sound (detach k id) := by
  intro s hs
  by_cases hid : s.isValid id
  · rw [detach_run hid]
    exact hs.withoutComponent
  · rw [detach_run_stale hid]
    exact hs

theorem sound_create : Keeps Sound Sound create :=
  Keeps.of_left fun s hs => hs.grown (grown_create s)

theorem sound_destroy (id : Entity) : Keeps Sound Sound (destroy id) := by
  intro s hs
  rcases destroy_cases hs id with ⟨hid, _, _, hrun⟩ | ⟨e, hrun⟩
  · rw [hrun]
    exact hs.ended hid
  · rw [hrun]
    exact hs

theorem pointwise_sound : Pointwise Sound := ⟨sound_attach, sound_detach⟩

theorem sound_addChildren (parent : Entity) (added : List Entity) :
    Keeps Sound Sound (addChildren parent added) :=
  pointwise_sound.links.addChildren parent added

theorem sound_removeChild (child : Entity) : Keeps Sound Sound (removeChild child) :=
  pointwise_sound.links.removeChild child

theorem sound_removeAllChildren (parent : Entity) :
    Keeps Sound Sound (removeAllChildren parent) :=
  pointwise_sound.links.removeAllChildren parent

theorem stable_sound : Stable Sound Sound where
  weaken _ hs := hs
  create := sound_create
  attach k id v _ := sound_attach k id v
  detach k id _ := sound_detach k id
  destroy := sound_destroy
  addChildren := sound_addChildren
  removeChild := sound_removeChild
  removeAllChildren := sound_removeAllChildren
  uniques _ _ hs := ⟨hs.slots_le, hs.wellFormed, hs.alive⟩

theorem sound_reached (requests : List Request) : (Ast.reached requests).store.Sound :=
  stable_sound.reached sound_empty requests

/-- A table has at most one entry for each slot. -/
theorem Sound.size_le (h : s.Sound) {k : Kind} {t : Table k.Value} (ht : s.table? k = some t) :
    t.ids.length ≤ s.slots.length :=
  length_le_slots (h.wellFormed k t ht).nodup (h.alive k t ht)

theorem has_eq_true (s : Store) (k : Kind) (id : Entity) :
    s.has k id = .ok true ↔ s.isValid id ∧ s.holds k id = true := by
  by_cases hid : s.isValid id
  · simp [has_of_isValid hid, hid]
  · simp [has_of_not_isValid hid, hid]

theorem Sound.count_eq_card (h : s.Sound) (k : Kind) :
    Set.encard {id | s.has k id = .ok true} = s.count k := by
  simp only [has_eq_true]
  unfold count holds
  cases ht : s.table? k with
  | none => simp
  | some t =>
    have hform := h.wellFormed k t ht
    have hset : {id | s.isValid id = true ∧ t.contains id = true} =
        (t.ids.toFinset : Set Entity) := by
      ext id
      simp only [Set.mem_ofPred_eq, hform.contains_iff, List.coe_toFinset, and_iff_right_iff_imp]
      exact h.alive k t ht id
    simp only [Option.map_some, Option.getD_some]
    rw [hset, Set.encard_coe_eq_coe_finsetCard, List.toFinset_card_of_nodup hform.nodup]
    rfl

/-- After any run, refused requests included, the lists of each table agree with each other and all
their entries are alive. Hence a slot has at most one entry, a position never lies outside the
lists or at the mark of an empty slot, and the size of a table is the number of its holders. -/
theorem tables_consistent (requests : List Request) (k : Kind) :
    (∀ t, (Ast.reached requests).store.table? k = some t →
      t.WellFormed ∧
      (∀ id ∈ t.ids, (Ast.reached requests).store.isValid id) ∧
      (t.ids.map Entity.index).Nodup ∧
      ∀ i position : Nat, t.sparse[i]? = some (some position) →
        position < t.ids.length ∧ position < t.data.length ∧ position < Entity.slotLimit) ∧
    Set.encard {id | (Ast.reached requests).store.has k id = .ok true} =
      (Ast.reached requests).store.count k := by
  have hsound := sound_reached requests
  refine ⟨?_, hsound.count_eq_card k⟩
  intro t ht
  have hform := hsound.wellFormed k t ht
  refine ⟨hform, hsound.alive k t ht, hform.nodup_index, ?_⟩
  intro i position hposition
  obtain ⟨hids, hdata⟩ := hform.position_lt hposition
  have hsize := hsound.size_le ht
  have hslots := hsound.slots_le
  exact ⟨hids, hdata, by omega⟩

/-- A run in which a table loses an entry from its middle, a slot is used again, and requests for
the old handle and for a link to it are refused. -/
def staleRun : List Request :=
  [.create, .create, .create, .insert .identifier ⟨0, 0⟩ "a", .insert .identifier ⟨1, 0⟩ "b",
    .insert .identifier ⟨2, 0⟩ "c", .edit (.destroy ⟨0, 0⟩), .create,
    .insert .identifier ⟨0, 0⟩ "stale", .insert .identifier ⟨0, 1⟩ "d",
    .edit (.addChildren ⟨1, 0⟩ [⟨2, 0⟩, ⟨0, 0⟩])]

theorem tables_consistent_after_reuse :
    ∃ t, (Ast.reached staleRun).store.table? .identifier = some t ∧
      t.ids = [⟨2, 0⟩, ⟨1, 0⟩, ⟨0, 1⟩] ∧ t.WellFormed ∧
      ∀ id ∈ t.ids, (Ast.reached staleRun).store.isValid id := by
  obtain ⟨t, ht⟩ : ∃ t, (Ast.reached staleRun).store.table? .identifier = some t :=
    Option.isSome_iff_exists.mp (by decide +kernel)
  have hids : ((Ast.reached staleRun).store.table? .identifier).map Table.ids =
      some [⟨2, 0⟩, ⟨1, 0⟩, ⟨0, 1⟩] := by decide +kernel
  rw [ht, Option.map_some, Option.some.injEq] at hids
  obtain ⟨hform, halive, _⟩ := (tables_consistent staleRun .identifier).1 t ht
  exact ⟨t, ht, hids, hform, halive⟩

end ModuleCompiler.Store
