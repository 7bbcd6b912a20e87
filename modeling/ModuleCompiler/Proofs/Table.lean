import Mathlib.Data.List.Nodup
import ModuleCompiler.Table

/-!
Tables as finite maps. A table is well formed when its two lists agree: each handle lies where the
list of positions says it does, and each position belongs to a handle of that slot. Well-formed
tables answer as maps from handles to values, whatever the order in which values came and went.
-/

namespace ModuleCompiler.Table

variable {α : Type}

structure WellFormed (t : Table α) : Prop where
  lengths : t.ids.length = t.data.length
  placed : ∀ (k : Nat) (id : Entity), t.ids[k]? = some id → t.sparse[id.index]? = some (some k)
  pointed : ∀ i k : Nat, t.sparse[i]? = some (some k) →
    ∃ id : Entity, t.ids[k]? = some id ∧ id.index = i

/-- No other generation of an entity's slot is in the table. -/
def Fits (t : Table α) (id : Entity) : Prop := ∀ x ∈ t.ids, x.index = id.index → x = id

theorem wellFormed_empty : (empty : Table α).WellFormed := by
  constructor <;> simp [empty]

namespace WellFormed

variable {t : Table α}

/-- Two entries of one slot are the same entry. -/
theorem position_unique (h : t.WellFormed) {j k : Nat} {a b : Entity}
    (hj : t.ids[j]? = some a) (hk : t.ids[k]? = some b) (hab : a.index = b.index) : j = k := by
  have ha := h.placed j a hj
  have hb := h.placed k b hk
  rw [hab, hb] at ha
  simpa using ha.symm

theorem nodup_index (h : t.WellFormed) : (t.ids.map Entity.index).Nodup := by
  rw [List.nodup_iff_getElem?_ne_getElem?]
  intro i j hij hj hsame
  rw [List.length_map] at hj
  rw [List.getElem?_map, List.getElem?_map, List.getElem?_eq_getElem (by omega),
    List.getElem?_eq_getElem hj] at hsame
  have hpos := h.position_unique (List.getElem?_eq_getElem (by omega))
    (List.getElem?_eq_getElem hj) (Option.some.inj hsame)
  omega

theorem nodup (h : t.WellFormed) : t.ids.Nodup := h.nodup_index.of_map

theorem position?_eq_some (h : t.WellFormed) {id : Entity} {k : Nat} :
    t.position? id = some k ↔ t.ids[k]? = some id := by
  unfold position?
  constructor
  · intro hpos
    split at hpos
    · rename_i j hj
      split at hpos
      · rename_i hid
        rw [← Option.some.inj hpos]
        exact hid
      · cases hpos
    · cases hpos
  · intro hid
    simp [h.placed k id hid, hid]

theorem position?_eq_none (h : t.WellFormed) {id : Entity} :
    t.position? id = none ↔ id ∉ t.ids := by
  rw [List.mem_iff_getElem?, Option.eq_none_iff_forall_ne_some]
  simp only [ne_eq, h.position?_eq_some, not_exists]

theorem contains_iff (h : t.WellFormed) {id : Entity} : t.contains id = true ↔ id ∈ t.ids := by
  unfold contains
  rw [← not_iff_not, ← h.position?_eq_none]
  simp

theorem get?_eq_some (h : t.WellFormed) {id : Entity} {v : α} :
    t.get? id = some v ↔ ∃ k : Nat, t.ids[k]? = some id ∧ t.data[k]? = some v := by
  unfold get?
  simp only [Option.bind_eq_some_iff, h.position?_eq_some]

theorem isSome_get? (h : t.WellFormed) {id : Entity} : (t.get? id).isSome ↔ id ∈ t.ids := by
  rw [Option.isSome_iff_exists, List.mem_iff_getElem?]
  constructor
  · rintro ⟨v, hv⟩
    obtain ⟨k, hk, _⟩ := h.get?_eq_some.mp hv
    exact ⟨k, hk⟩
  · rintro ⟨k, hk⟩
    have hlt : k < t.data.length := by
      have := (List.getElem?_eq_some_iff.mp hk).1
      have := h.lengths
      omega
    exact ⟨t.data[k], h.get?_eq_some.mpr ⟨k, hk, List.getElem?_eq_getElem hlt⟩⟩

/-- A table holds a value exactly where it answers one. -/
theorem contains_eq_isSome_get? (h : t.WellFormed) (id : Entity) :
    t.contains id = (t.get? id).isSome := by
  rw [Bool.eq_iff_iff, h.contains_iff, h.isSome_get?]

/-- Every position a slot gives lies inside both lists. -/
theorem position_lt (h : t.WellFormed) {i k : Nat} (hk : t.sparse[i]? = some (some k)) :
    k < t.ids.length ∧ k < t.data.length := by
  obtain ⟨id, hid, _⟩ := h.pointed i k hk
  have hlt := (List.getElem?_eq_some_iff.mp hid).1
  have hlen := h.lengths
  omega

end WellFormed

theorem getElem?_cover {sparse : List (Option Nat)} {index i k : Nat} :
    (cover sparse index)[i]? = some (some k) ↔ sparse[i]? = some (some k) := by
  unfold cover
  by_cases hi : i < sparse.length
  · rw [List.getElem?_append_left hi]
  · rw [List.getElem?_append_right (by omega), List.getElem?_eq_none (l := sparse) (by omega)]
    simp [List.getElem?_replicate]

theorem lt_length_cover (sparse : List (Option Nat)) (index : Nat) :
    index < (cover sparse index).length := by
  simp only [cover, List.length_append, List.length_replicate]
  omega

theorem insert_of_position {t : Table α} {id : Entity} {k : Nat} (v : α)
    (hk : t.position? id = some k) : t.insert id v = { t with data := t.data.set k v } := by
  simp [insert, hk]

theorem insert_of_absent {t : Table α} {id : Entity} (v : α) (hid : t.position? id = none) :
    t.insert id v =
      { sparse := (cover t.sparse id.index).set id.index (some t.data.length)
        ids := t.ids ++ [id]
        data := t.data ++ [v] } := by
  simp [insert, hid]

theorem insert_of_get? {t : Table α} {id : Entity} {v : α} (h : t.get? id = some v) :
    t.insert id v = t := by
  obtain ⟨k, hk, hv⟩ := Option.bind_eq_some_iff.mp h
  obtain ⟨hlt, rfl⟩ := List.getElem?_eq_some_iff.mp hv
  rw [insert_of_position _ hk, List.set_getElem_self]

/-- After a new value, its slot points behind the old entries and the others point as before. -/
theorem getElem?_sparse_insert {sparse : List (Option Nat)} {index i k n : Nat} :
    ((cover sparse index).set index (some n))[i]? = some (some k) ↔
      if i = index then k = n else sparse[i]? = some (some k) := by
  by_cases hi : i = index
  · subst hi
    simp [List.getElem?_set_self (lt_length_cover sparse i), eq_comm]
  · rw [List.getElem?_set_ne (Ne.symm hi), getElem?_cover, if_neg hi]

theorem WellFormed.insert {t : Table α} (h : t.WellFormed) {id : Entity} (v : α)
    (hfit : t.Fits id) : (t.insert id v).WellFormed := by
  cases hpos : t.position? id with
  | some k =>
    rw [insert_of_position v hpos]
    exact ⟨by simpa using h.lengths, h.placed, h.pointed⟩
  | none =>
    have hnew : id ∉ t.ids := h.position?_eq_none.mp hpos
    have hlen := h.lengths
    rw [insert_of_absent v hpos]
    constructor
    · simp [hlen]
    · intro k x hx
      rw [getElem?_sparse_insert]
      rcases Nat.lt_or_ge k t.ids.length with hk | hk
      · rw [List.getElem?_append_left hk] at hx
        have hmem : x ∈ t.ids := List.mem_of_getElem? hx
        have hne : x.index ≠ id.index := fun he => hnew (hfit x hmem he ▸ hmem)
        rw [if_neg hne]
        exact h.placed k x hx
      · rw [List.getElem?_append_right hk] at hx
        obtain ⟨hz, hx⟩ := List.getElem?_eq_some_iff.mp hx
        simp only [List.length_singleton, Nat.lt_one_iff] at hz
        simp only [hz, List.getElem_cons_zero] at hx
        rw [← hx, if_pos rfl]
        omega
    · intro i k hk
      rw [getElem?_sparse_insert] at hk
      split at hk
      · rename_i hi
        exact ⟨id, by simp [hk, hlen], hi.symm⟩
      · obtain ⟨x, hx, hxi⟩ := h.pointed i k hk
        refine ⟨x, ?_, hxi⟩
        rw [List.getElem?_append_left (List.getElem?_eq_some_iff.mp hx).1]
        exact hx

theorem WellFormed.mem_ids_insert {t : Table α} (h : t.WellFormed) {id x : Entity} {v : α} :
    x ∈ (t.insert id v).ids ↔ x = id ∨ x ∈ t.ids := by
  cases hpos : t.position? id with
  | some k =>
    have hid : id ∈ t.ids := List.mem_of_getElem? (h.position?_eq_some.mp hpos)
    rw [insert_of_position v hpos]
    constructor
    · exact Or.inr
    · rintro (rfl | hx)
      · exact hid
      · exact hx
  | none =>
    rw [insert_of_absent v hpos]
    simp [or_comm]

theorem WellFormed.get?_insert_self {t : Table α} (h : t.WellFormed) {id : Entity} (v : α)
    (hfit : t.Fits id) : (t.insert id v).get? id = some v := by
  rw [(h.insert v hfit).get?_eq_some]
  have hlen := h.lengths
  cases hpos : t.position? id with
  | some k =>
    have hk := h.position?_eq_some.mp hpos
    have hlt := (List.getElem?_eq_some_iff.mp hk).1
    rw [insert_of_position v hpos]
    exact ⟨k, hk, List.getElem?_set_self (by omega)⟩
  | none =>
    rw [insert_of_absent v hpos]
    exact ⟨t.ids.length, by simp, by simp [hlen]⟩

theorem WellFormed.get?_insert_of_ne {t : Table α} (h : t.WellFormed) {id x : Entity} (v : α)
    (hfit : t.Fits id) (hne : x ≠ id) : (t.insert id v).get? x = t.get? x := by
  ext w
  rw [(h.insert v hfit).get?_eq_some, h.get?_eq_some]
  have hlen := h.lengths
  cases hpos : t.position? id with
  | some k =>
    have hk := h.position?_eq_some.mp hpos
    rw [insert_of_position v hpos]
    apply exists_congr
    intro j
    apply and_congr_right
    intro hj
    have hjk : k ≠ j := by
      rintro rfl
      exact hne (Option.some.inj (hj.symm.trans hk))
    simp only [List.getElem?_set_ne hjk]
  | none =>
    rw [insert_of_absent v hpos]
    apply exists_congr
    intro j
    rcases Nat.lt_trichotomy j t.ids.length with hj | hj | hj
    · rw [List.getElem?_append_left hj, List.getElem?_append_left (by omega)]
    · subst hj
      simp [Ne.symm hne]
    · rw [List.getElem?_eq_none (l := t.ids) (by omega),
        List.getElem?_eq_none (l := t.ids ++ [id]) (by simp; omega)]
      simp

theorem length_swapRemove {β : Type} (l : List β) (k : Nat) :
    (swapRemove l k).length = l.length - 1 := by
  unfold swapRemove
  cases hl : l.getLast? with
  | none => simp [List.getLast?_eq_none_iff.mp hl]
  | some last => simp

/-- The last element takes the place of the one removed; all others stay where they are. -/
theorem getElem?_swapRemove {β : Type} {l : List β} {k : Nat} (hk : k < l.length) (j : Nat) :
    (swapRemove l k)[j]? =
      if j + 1 < l.length then if j = k then l[l.length - 1]? else l[j]? else none := by
  have hlast : l.getLast? = some l[l.length - 1] := by
    rw [List.getLast?_eq_getElem?, List.getElem?_eq_getElem (by omega)]
  simp only [swapRemove, hlast]
  by_cases hj : j + 1 < l.length
  · rw [if_pos hj, List.getElem?_dropLast, if_pos (by rw [List.length_set]; omega)]
    by_cases hjk : j = k
    · subst hjk
      rw [if_pos rfl, List.getElem?_set_self hk, List.getElem?_eq_getElem (by omega)]
    · rw [if_neg hjk, List.getElem?_set_ne (Ne.symm hjk)]
  · rw [if_neg hj, List.getElem?_eq_none]
    simp only [List.length_dropLast, List.length_set]
    omega

theorem erase_of_position {t : Table α} {id : Entity} {k : Nat} (hk : t.position? id = some k) :
    t.erase id =
      { sparse := (repoint t.sparse (swapRemove t.ids k) k).set id.index none
        ids := swapRemove t.ids k
        data := swapRemove t.data k } := by
  simp [erase, hk]

theorem erase_of_absent {t : Table α} {id : Entity} (hid : t.position? id = none) :
    t.erase id = t := by
  simp [erase, hid]

/-- Where the element at position `j` lay before the one at `k` was removed. -/
def origin (n k j : Nat) : Nat := if j = k then n - 1 else j

theorem getElem?_swapRemove_eq_some {β : Type} {l : List β} {k j : Nat} {x : β}
    (hk : k < l.length) :
    (swapRemove l k)[j]? = some x ↔ j + 1 < l.length ∧ l[origin l.length k j]? = some x := by
  rw [getElem?_swapRemove hk, origin]
  by_cases hj : j + 1 < l.length
  · by_cases hjk : j = k <;> simp [hj, hjk]
  · simp [hj]

/-- The slot of the entry that was moved points to `k`, the emptied slot nowhere, and every other
slot as before. -/
theorem WellFormed.getElem?_sparse_erase {t : Table α} (h : t.WellFormed) {id last : Entity}
    {k i j : Nat} (hk : t.ids[k]? = some id) (hlast : t.ids[t.ids.length - 1]? = some last) :
    ((repoint t.sparse (swapRemove t.ids k) k).set id.index none)[i]? = some (some j) ↔
      i ≠ id.index ∧
        if k + 1 < t.ids.length ∧ i = last.index then j = k else t.sparse[i]? = some (some j) := by
  have hlt : k < t.ids.length := (List.getElem?_eq_some_iff.mp hk).1
  have hcovered : last.index < t.sparse.length :=
    (List.getElem?_eq_some_iff.mp (h.placed _ last hlast)).1
  by_cases hi : i = id.index
  · subst hi
    simp [List.getElem?_set]
  rw [List.getElem?_set_ne (Ne.symm hi)]
  unfold repoint
  by_cases hmoved : k + 1 < t.ids.length
  · rw [getElem?_swapRemove hlt, if_pos hmoved, if_pos rfl, hlast]
    by_cases hil : i = last.index
    · subst hil
      simp [hi, hmoved, List.getElem?_set_self hcovered, eq_comm]
    · simp [hi, hil, List.getElem?_set_ne (Ne.symm hil)]
  · rw [getElem?_swapRemove hlt, if_neg hmoved]
    simp [hi, hmoved]

/-- An entry of the shorter list is the last one, moved to the emptied position, or did not move. -/
theorem WellFormed.placed_erase {t : Table α} (h : t.WellFormed) {id last x : Entity} {k j : Nat}
    (hk : t.ids[k]? = some id) (hlast : t.ids[t.ids.length - 1]? = some last)
    (hx : (swapRemove t.ids k)[j]? = some x) :
    ((repoint t.sparse (swapRemove t.ids k) k).set id.index none)[x.index]? = some (some j) := by
  have hlt : k < t.ids.length := (List.getElem?_eq_some_iff.mp hk).1
  obtain ⟨hj, hx⟩ := (getElem?_swapRemove_eq_some hlt).mp hx
  rw [h.getElem?_sparse_erase hk hlast]
  unfold origin at hx
  constructor
  · intro he
    have hsame := h.position_unique hx hk he
    split at hsame <;> omega
  · split at hx
    · rename_i hjk
      have hxl : x = last := Option.some.inj (hx.symm.trans hlast)
      rw [if_pos ⟨by omega, by rw [hxl]⟩, hjk]
    · have hstays : ¬ (k + 1 < t.ids.length ∧ x.index = last.index) := by
        intro hmoved
        have hsame := h.position_unique hx hlast hmoved.2
        omega
      rw [if_neg hstays]
      exact h.placed j x hx

/-- A slot that still points somewhere points to one of its own entities: what it pointed to is
neither the entry taken out nor, unless the slot was turned to the emptied position, the last. -/
theorem WellFormed.pointed_erase {t : Table α} (h : t.WellFormed) {id last : Entity} {k i j : Nat}
    (hk : t.ids[k]? = some id) (hlast : t.ids[t.ids.length - 1]? = some last)
    (hij : ((repoint t.sparse (swapRemove t.ids k) k).set id.index none)[i]? = some (some j)) :
    ∃ x, (swapRemove t.ids k)[j]? = some x ∧ x.index = i := by
  have hlt : k < t.ids.length := (List.getElem?_eq_some_iff.mp hk).1
  obtain ⟨hi, hij⟩ := (h.getElem?_sparse_erase hk hlast).mp hij
  simp only [getElem?_swapRemove_eq_some hlt, origin]
  split at hij
  · rename_i hmoved
    exact ⟨last, by simp [hij, hmoved.1, hlast], hmoved.2.symm⟩
  · rename_i hstays
    obtain ⟨x, hx, hxi⟩ := h.pointed i j hij
    have hjlt : j < t.ids.length := (List.getElem?_eq_some_iff.mp hx).1
    have hjk : j ≠ k := by
      intro heq
      rw [heq, hk, Option.some.injEq] at hx
      exact hi (by rw [hx, hxi])
    have hjl : j + 1 < t.ids.length := by
      by_contra hge
      have hjn : j = t.ids.length - 1 := by omega
      rw [hjn, hlast, Option.some.injEq] at hx
      exact hstays ⟨by omega, by rw [hx, hxi]⟩
    exact ⟨x, ⟨hjl, by rw [if_neg hjk]; exact hx⟩, hxi⟩

theorem WellFormed.erase {t : Table α} (h : t.WellFormed) (id : Entity) :
    (t.erase id).WellFormed := by
  cases hpos : t.position? id with
  | none =>
    rw [erase_of_absent hpos]
    exact h
  | some k =>
    have hk := h.position?_eq_some.mp hpos
    have hlt : k < t.ids.length := (List.getElem?_eq_some_iff.mp hk).1
    obtain ⟨last, hlast⟩ : ∃ last, t.ids[t.ids.length - 1]? = some last :=
      ⟨_, List.getElem?_eq_getElem (by omega)⟩
    rw [erase_of_position hpos]
    constructor
    · simp [length_swapRemove, h.lengths]
    · intro j x hx
      exact h.placed_erase hk hlast hx
    · intro i j hij
      exact h.pointed_erase hk hlast hij

/-- The entries left are those of all positions but the one emptied. -/
theorem exists_origin {n k : Nat} (hk : k < n) (P : Nat → Prop) :
    (∃ j, j + 1 < n ∧ P (origin n k j)) ↔ ∃ j, j < n ∧ j ≠ k ∧ P j := by
  unfold origin
  constructor
  · rintro ⟨j, hj, hP⟩
    refine ⟨_, ?_, ?_, hP⟩ <;> split <;> omega
  · rintro ⟨j, hj, hjk, hP⟩
    by_cases hlast : j + 1 < n
    · exact ⟨j, hlast, by rwa [if_neg hjk]⟩
    · have hjn : n - 1 = j := by omega
      exact ⟨k, by omega, by rwa [if_pos rfl, hjn]⟩

theorem WellFormed.get?_erase {t : Table α} (h : t.WellFormed) (id x : Entity) :
    (t.erase id).get? x = if x = id then none else t.get? x := by
  cases hpos : t.position? id with
  | none =>
    rw [erase_of_absent hpos]
    split
    · rename_i hx
      simp [get?, hx, hpos]
    · rfl
  | some k =>
    have hk := h.position?_eq_some.mp hpos
    have hlt : k < t.ids.length := (List.getElem?_eq_some_iff.mp hk).1
    have hlen := h.lengths
    ext v
    rw [(h.erase id).get?_eq_some, erase_of_position hpos]
    simp only [getElem?_swapRemove_eq_some hlt, getElem?_swapRemove_eq_some (hlen ▸ hlt), ← hlen]
    have hentries := exists_origin hlt fun j => t.ids[j]? = some x ∧ t.data[j]? = some v
    constructor
    · rintro ⟨j, ⟨hj, hx⟩, _, hv⟩
      obtain ⟨i, _, hik, hxi, hvi⟩ := hentries.mp ⟨j, hj, hx, hv⟩
      have hne : x ≠ id := by
        rintro rfl
        exact hik (h.position_unique hxi hk rfl)
      rw [if_neg hne]
      exact h.get?_eq_some.mpr ⟨i, hxi, hvi⟩
    · intro hget
      split at hget
      · cases hget
      · rename_i hne
        obtain ⟨i, hxi, hvi⟩ := h.get?_eq_some.mp hget
        have hik : i ≠ k := by
          rintro rfl
          exact hne (Option.some.inj (hxi.symm.trans hk))
        obtain ⟨j, hj, hx, hv⟩ :=
          hentries.mpr ⟨i, (List.getElem?_eq_some_iff.mp hxi).1, hik, hxi, hvi⟩
        exact ⟨j, ⟨hj, hx⟩, hj, hv⟩

theorem WellFormed.mem_ids_erase {t : Table α} (h : t.WellFormed) {id x : Entity} :
    x ∈ (t.erase id).ids ↔ x ≠ id ∧ x ∈ t.ids := by
  rw [← (h.erase id).isSome_get?, h.get?_erase, ← h.isSome_get?]
  by_cases hx : x = id <;> simp [hx]

/-- The entry that a slot's position leads to is an entity of that slot. -/
theorem WellFormed.index_of_pointed {t : Table α} (h : t.WellFormed) {i : Nat} {id : Entity}
    {pointer : Option Nat} (hi : t.sparse[i]? = some pointer)
    (hid : pointer.bind (t.ids[·]?) = some id) : id.index = i := by
  obtain ⟨k, rfl, hk⟩ := Option.bind_eq_some_iff.mp hid
  obtain ⟨x, hx, hxi⟩ := h.pointed i k hi
  rw [hk, Option.some.injEq] at hx
  rw [hx, hxi]

theorem WellFormed.mem_idsBySlot {t : Table α} (h : t.WellFormed) {id : Entity} :
    id ∈ t.idsBySlot ↔ id ∈ t.ids := by
  simp only [idsBySlot, List.mem_filterMap, Option.bind_eq_some_iff]
  constructor
  · rintro ⟨_, _, k, _, hk⟩
    exact List.mem_of_getElem? hk
  · intro hid
    obtain ⟨k, hk⟩ := List.mem_iff_getElem?.mp hid
    exact ⟨some k, List.mem_of_getElem? (h.placed k id hk), k, rfl, hk⟩

theorem WellFormed.ascending_idsBySlot {t : Table α} (h : t.WellFormed) :
    t.idsBySlot.Pairwise fun a b => a.index < b.index := by
  rw [idsBySlot, List.pairwise_filterMap, List.pairwise_iff_getElem]
  intro i j hi hj hij a ha b hb
  rw [h.index_of_pointed (List.getElem?_eq_getElem hi) ha,
    h.index_of_pointed (List.getElem?_eq_getElem hj) hb]
  exact hij

end ModuleCompiler.Table
