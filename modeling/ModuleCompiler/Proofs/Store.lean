import Mathlib.Data.List.Perm.Subperm
import Mathlib.Logic.Function.Basic
import ModuleCompiler.Proofs.Outcome
import ModuleCompiler.Proofs.Table
import ModuleCompiler.Store

/-!
Sound stores. In a sound store every table is well formed and holds nothing of an entity that has
ended, so no table ever has two generations of one slot. The changes a store is made of keep it
sound, and each is described by what it does to the component of any entity and to the entities
that are alive.
-/

namespace ModuleCompiler.Store

structure Sound (s : Store) : Prop where
  slots_le : s.slots.length ≤ Entity.slotLimit
  wellFormed : ∀ k t, s.table? k = some t → t.WellFormed
  alive : ∀ k t, s.table? k = some t → ∀ id ∈ t.ids, s.isValid id

variable {s : Store}

theorem isValid_iff {id : Entity} :
    s.isValid id = true ↔ s.slots[id.index]? = some ⟨id.generation, true⟩ := by
  unfold isValid
  cases hslot : s.slots[id.index]? with
  | none => simp
  | some slot =>
    obtain ⟨generation, alive⟩ := slot
    simp [and_comm]

theorem index_lt_of_isValid {id : Entity} (h : s.isValid id) : id.index < s.slots.length :=
  (List.getElem?_eq_some_iff.mp (isValid_iff.mp h)).1

/-- At most one entity of a slot is alive. -/
theorem eq_of_isValid {a b : Entity} (ha : s.isValid a) (hb : s.isValid b)
    (hab : a.index = b.index) : a = b := by
  rw [isValid_iff] at ha hb
  rw [hab, hb] at ha
  have hgen : b.generation = a.generation := by simpa using ha
  cases a
  cases b
  simp_all

/-- There are no more living entities than slots. -/
theorem length_le_slots {ids : List Entity} (hnodup : ids.Nodup)
    (halive : ∀ id ∈ ids, s.isValid id) : ids.length ≤ s.slots.length := by
  have hinj : ∀ a ∈ ids, ∀ b ∈ ids, a.index = b.index → a = b :=
    fun a ha b hb => eq_of_isValid (halive a ha) (halive b hb)
  have hsub : ids.map Entity.index ⊆ List.range s.slots.length := by
    intro i hi
    obtain ⟨id, hid, heq⟩ := List.mem_map.mp hi
    rw [List.mem_range, ← heq]
    exact index_lt_of_isValid (halive id hid)
  have hmap : (ids.map Entity.index).Nodup := hnodup.map_on hinj
  simpa using (hmap.subperm hsub).length_le

theorem checkValid_of_isValid {id : Entity} (h : s.isValid id) : s.checkValid id = .ok () := by
  simp [checkValid, h]

theorem checkValid_of_not_isValid {id : Entity} (h : ¬ s.isValid id) :
    s.checkValid id = .error (.stale id) := by
  simp [checkValid, h]

theorem checkKind_of_link {k : Kind} (h : k.isLink = true) :
    checkKind k = .error (.linkKind k) := by
  simp [checkKind, h]

theorem checkKind_of_not_link {k : Kind} (h : k.isLink = false) : checkKind k = .ok () := by
  simp [checkKind, h]

theorem get?_of_isValid {k : Kind} {id : Entity} (h : s.isValid id) :
    s.get? k id = .ok (s.component? k id) := by
  simp [get?, checkValid_of_isValid h, bind, Except.bind, pure, Except.pure]

theorem get?_of_not_isValid {k : Kind} {id : Entity} (h : ¬ s.isValid id) :
    s.get? k id = .error (.stale id) := by
  simp [get?, checkValid_of_not_isValid h, bind, Except.bind]

theorem has_of_isValid {k : Kind} {id : Entity} (h : s.isValid id) :
    s.has k id = .ok (s.holds k id) := by
  simp [has, checkValid_of_isValid h, bind, Except.bind, pure, Except.pure]

theorem has_of_not_isValid {k : Kind} {id : Entity} (h : ¬ s.isValid id) :
    s.has k id = .error (.stale id) := by
  simp [has, checkValid_of_not_isValid h, bind, Except.bind]

theorem require_of_held {k : Kind} {id : Entity} {v : k.Value} (hid : s.isValid id)
    (h : s.component? k id = some v) :
    s.require k id = .ok v := by
  simp [require, get?_of_isValid hid, h, bind, Except.bind, pure, Except.pure]

theorem require_of_lacking {k : Kind} {id : Entity} (hid : s.isValid id)
    (h : s.component? k id = none) :
    s.require k id = .error (.lacks id k) := by
  simp [require, get?_of_isValid hid, h, bind, Except.bind, throw, throwThe, MonadExceptOf.throw]

theorem require_of_not_isValid {k : Kind} {id : Entity} (hid : ¬ s.isValid id) :
    s.require k id = .error (.stale id) := by
  simp [require, get?_of_not_isValid hid, bind, Except.bind]

theorem get?_eq_ok {k : Kind} {id : Entity} {v : Option k.Value} (h : s.get? k id = .ok v) :
    s.isValid id ∧ s.component? k id = v := by
  by_cases hid : s.isValid id
  · rw [get?_of_isValid hid] at h
    exact ⟨hid, Except.ok.inj h⟩
  · rw [get?_of_not_isValid hid] at h
    cases h

namespace Sound

theorem isValid_of_component? (h : s.Sound) {k : Kind} {id : Entity} {v : k.Value}
    (hv : s.component? k id = some v) : s.isValid id := by
  obtain ⟨t, ht, hget⟩ := Option.bind_eq_some_iff.mp hv
  exact h.alive k t ht id ((h.wellFormed k t ht).isSome_get?.mp (by rw [hget]; rfl))

theorem component?_of_not_isValid (h : s.Sound) (k : Kind) {id : Entity} (hid : ¬ s.isValid id) :
    s.component? k id = none := by
  rw [Option.eq_none_iff_forall_ne_some]
  intro v hv
  exact hid (h.isValid_of_component? hv)

theorem holds_eq (h : s.Sound) (k : Kind) (id : Entity) :
    s.holds k id = (s.component? k id).isSome := by
  unfold holds component?
  cases ht : s.table? k with
  | none => rfl
  | some t => simpa using (h.wellFormed k t ht).contains_eq_isSome_get? id

theorem has_eq (h : s.Sound) (k : Kind) (id : Entity) :
    s.has k id = if s.isValid id then .ok (s.component? k id).isSome else .error (.stale id) := by
  split
  · rename_i hid
    rw [has_of_isValid hid, h.holds_eq]
  · rename_i hid
    exact has_of_not_isValid hid

/-- The table of a kind, or an empty one in its place. -/
theorem tableD (h : s.Sound) (k : Kind) :
    ((s.table? k).getD .empty).WellFormed ∧
      ∀ id ∈ ((s.table? k).getD .empty).ids, s.isValid id := by
  cases ht : s.table? k with
  | none => exact ⟨Table.wellFormed_empty, by simp [Table.empty]⟩
  | some t => exact ⟨h.wellFormed k t ht, h.alive k t ht⟩

/-- A living entity fits into every table, since a table holds living entities only. -/
theorem fits (h : s.Sound) (k : Kind) {id : Entity} (hid : s.isValid id) :
    ((s.table? k).getD .empty).Fits id :=
  fun x hx hindex => eq_of_isValid ((h.tableD k).2 x hx) hid hindex

end Sound

theorem sound_empty : empty.Sound := by
  constructor <;> simp [empty, table?]

section WithComponent

variable {k j : Kind} {id x : Entity} {v : k.Value}

theorem table?_withComponent_self :
    (s.withComponent k id v).table? k = some (((s.table? k).getD .empty).insert id v) :=
  KeyedMap.find?_insert_self ..

theorem table?_withComponent_of_ne (hne : j ≠ k) :
    (s.withComponent k id v).table? j = s.table? j :=
  KeyedMap.find?_insert_of_ne _ _ (Ne.symm hne)

theorem Sound.withComponent (h : s.Sound) (hid : s.isValid id) :
    (s.withComponent k id v).Sound := by
  have hfit := h.fits k hid
  obtain ⟨hform, halive⟩ := h.tableD k
  refine ⟨h.slots_le, ?_, ?_⟩
  · intro j t ht
    by_cases hjk : j = k
    · subst hjk
      rw [table?_withComponent_self, Option.some.injEq] at ht
      exact ht ▸ hform.insert v hfit
    · rw [table?_withComponent_of_ne hjk] at ht
      exact h.wellFormed j t ht
  · intro j t ht x hx
    by_cases hjk : j = k
    · subst hjk
      rw [table?_withComponent_self, Option.some.injEq] at ht
      rw [← ht, hform.mem_ids_insert] at hx
      rcases hx with rfl | hx
      · exact hid
      · exact halive x hx
    · rw [table?_withComponent_of_ne hjk] at ht
      exact h.alive j t ht x hx

theorem component?_eq_getD (k : Kind) (id : Entity) :
    s.component? k id = ((s.table? k).getD .empty).get? id := by
  unfold component?
  cases s.table? k <;> rfl

theorem Sound.component?_withComponent (h : s.Sound) (hid : s.isValid id) :
    (s.withComponent k id v).component? k = Function.update (s.component? k) id (some v) := by
  funext x
  rw [component?_eq_getD, table?_withComponent_self, Function.update_apply, component?_eq_getD]
  split
  · rename_i hx
    rw [hx]
    exact (h.tableD k).1.get?_insert_self v (h.fits k hid)
  · rename_i hx
    exact (h.tableD k).1.get?_insert_of_ne v (h.fits k hid) hx

theorem component?_withComponent_of_ne (hne : j ≠ k) :
    (s.withComponent k id v).component? j = s.component? j := by
  funext x
  unfold component?
  rw [table?_withComponent_of_ne hne]

/-- A component that is there already is replaced in its place by itself. -/
theorem withComponent_of_component? (h : s.component? k id = some v) :
    s.withComponent k id v = s := by
  obtain ⟨t, ht, hv⟩ := Option.bind_eq_some_iff.mp h
  unfold withComponent
  rw [ht, Option.getD_some, Table.insert_of_get? hv, KeyedMap.insert_of_find? ht]

end WithComponent

section WithoutComponent

variable {k j : Kind} {id x : Entity}

@[simp] theorem slots_withoutComponent : (s.withoutComponent k id).slots = s.slots := by
  unfold withoutComponent
  split <;> rfl

@[simp] theorem isValid_withoutComponent :
    (s.withoutComponent k id).isValid x = s.isValid x := by
  simp only [isValid, slots_withoutComponent]

theorem table?_withoutComponent_self :
    (s.withoutComponent k id).table? k = (s.table? k).map (·.erase id) := by
  unfold withoutComponent
  cases ht : s.table? k with
  | none => exact ht
  | some t => exact KeyedMap.find?_insert_self ..

theorem table?_withoutComponent_of_ne (hne : j ≠ k) :
    (s.withoutComponent k id).table? j = s.table? j := by
  unfold withoutComponent
  split
  · exact KeyedMap.find?_insert_of_ne _ _ (Ne.symm hne)
  · rfl

theorem Sound.withoutComponent (h : s.Sound) : (s.withoutComponent k id).Sound := by
  refine ⟨by simpa using h.slots_le, ?_, ?_⟩
  · intro j t ht
    by_cases hjk : j = k
    · subst hjk
      rw [table?_withoutComponent_self, Option.map_eq_some_iff] at ht
      obtain ⟨old, hold, rfl⟩ := ht
      exact (h.wellFormed j old hold).erase id
    · rw [table?_withoutComponent_of_ne hjk] at ht
      exact h.wellFormed j t ht
  · intro j t ht x hx
    rw [isValid_withoutComponent]
    by_cases hjk : j = k
    · subst hjk
      rw [table?_withoutComponent_self, Option.map_eq_some_iff] at ht
      obtain ⟨old, hold, rfl⟩ := ht
      exact h.alive j old hold x ((h.wellFormed j old hold).mem_ids_erase.mp hx).2
    · rw [table?_withoutComponent_of_ne hjk] at ht
      exact h.alive j t ht x hx

theorem Sound.component?_withoutComponent (h : s.Sound) :
    (s.withoutComponent k id).component? k = Function.update (s.component? k) id none := by
  funext x
  rw [Function.update_apply]
  unfold component?
  rw [table?_withoutComponent_self]
  cases ht : s.table? k with
  | none => simp
  | some t => exact (h.wellFormed k t ht).get?_erase id x

theorem component?_withoutComponent_of_ne (hne : j ≠ k) :
    (s.withoutComponent k id).component? j = s.component? j := by
  funext x
  unfold component?
  rw [table?_withoutComponent_of_ne hne]

end WithoutComponent

/-- The store after the end of an entity: its components are gone and its slot is released. -/
def ended (s : Store) (id : Entity) : Store :=
  { s with tables := s.tables.map fun _ t => t.erase id }.release id

section Ended

variable {k : Kind} {id x : Entity}

theorem table?_ended : (s.ended id).table? k = (s.table? k).map (·.erase id) :=
  KeyedMap.find?_map ..

theorem getElem?_slots_ended (i : Nat) :
    (s.ended id).slots[i]? =
      s.slots[i]?.map fun slot => if id.index = i then ⟨slot.generation + 1, false⟩ else slot :=
  List.getElem?_modify ..

theorem isValid_ended (hid : s.isValid id) :
    (s.ended id).isValid x = true ↔ s.isValid x = true ∧ x ≠ id := by
  rw [isValid_iff, getElem?_slots_ended, Option.map_eq_some_iff]
  by_cases hindex : id.index = x.index
  · simp only [hindex, if_true, Slot.mk.injEq, Bool.false_eq_true, and_false, exists_false,
      false_iff, not_and, ne_eq, not_not]
    intro hx
    exact eq_of_isValid hx hid hindex.symm
  · have hne : x ≠ id := fun he => hindex (he ▸ rfl)
    simp [hindex, hne, isValid_iff]

theorem Sound.ended (h : s.Sound) (hid : s.isValid id) : (s.ended id).Sound := by
  refine ⟨?_, ?_, ?_⟩
  · have hslots : (s.ended id).slots.length = s.slots.length := List.length_modify ..
    rw [hslots]
    exact h.slots_le
  · intro k t ht
    rw [table?_ended, Option.map_eq_some_iff] at ht
    obtain ⟨old, hold, rfl⟩ := ht
    exact (h.wellFormed k old hold).erase id
  · intro k t ht x hx
    rw [table?_ended, Option.map_eq_some_iff] at ht
    obtain ⟨old, hold, rfl⟩ := ht
    obtain ⟨hne, hx⟩ := (h.wellFormed k old hold).mem_ids_erase.mp hx
    exact (isValid_ended hid).mpr ⟨h.alive k old hold x hx, hne⟩

theorem Sound.component?_ended (h : s.Sound) :
    (s.ended id).component? k = Function.update (s.component? k) id none := by
  funext x
  rw [Function.update_apply]
  unfold component?
  rw [table?_ended]
  cases ht : s.table? k with
  | none => simp
  | some t => exact (h.wellFormed k t ht).get?_erase id x

end Ended

/-- A request for an entity, granted or not, touches no table and ends no entity. -/
structure Grown (s t : Store) : Prop where
  tables : t.tables = s.tables
  slots_le : s.slots.length ≤ Entity.slotLimit → t.slots.length ≤ Entity.slotLimit
  alive : ∀ id, s.isValid id → t.isValid id

theorem isValid_of_wake {t : Store} {index : Nat} (hslots : t.slots = wake s.slots index)
    {id : Entity} (hid : s.isValid id) : t.isValid id := by
  rw [isValid_iff] at hid ⊢
  rw [hslots, wake, List.getElem?_modify, hid]
  simp

theorem isValid_of_append {t : Store} {slot : Slot} (hslots : t.slots = s.slots ++ [slot])
    {id : Entity} (hid : s.isValid id) : t.isValid id := by
  rw [isValid_iff] at hid ⊢
  rw [hslots, List.getElem?_append_left (List.getElem?_eq_some_iff.mp hid).1]
  exact hid

theorem grown_create (s : Store) : Grown s (left (create s)) := by
  unfold create
  cases hfree : s.free with
  | cons index free =>
    refine ⟨rfl, ?_, fun id hid => isValid_of_wake rfl hid⟩
    simp only [left, wake, List.length_modify, imp_self]
  | nil =>
    by_cases hroom : s.slots.length < Entity.slotLimit
    · simp only [if_pos hroom]
      refine ⟨rfl, ?_, fun id hid => isValid_of_append rfl hid⟩
      simp only [left, List.length_append, List.length_singleton]
      omega
    · simp only [if_neg hroom]
      exact ⟨rfl, id, fun _ hid => hid⟩

theorem Grown.component? {t : Store} (h : Grown s t) (k : Kind) :
    t.component? k = s.component? k := by
  funext id
  unfold Store.component? table?
  rw [h.tables]

theorem Sound.grown {t : Store} (h : s.Sound) (hgrown : Grown s t) : t.Sound := by
  have htable : ∀ k, t.table? k = s.table? k := by
    intro k
    unfold table?
    rw [hgrown.tables]
  refine ⟨hgrown.slots_le h.slots_le, ?_, ?_⟩
  · intro k table ht
    exact h.wellFormed k table (htable k ▸ ht)
  · intro k table ht id hid
    exact hgrown.alive id (h.alive k table (htable k ▸ ht) id hid)

end ModuleCompiler.Store
