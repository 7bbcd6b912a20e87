import ModuleCompiler.Proofs.Query

/-!
Which slots are in use. In a tidy store the list of released slots has exactly the slots without a
living entity, each once, so a slot is never given to two living entities; and as long as there is
room for another slot, the counter is the number of living entities.
-/

namespace ModuleCompiler.Store

variable {s t : Store}

/-- The slots, the released ones among them and the counter are those of `s`. -/
structure SameSlots (s t : Store) : Prop where
  slots : t.slots = s.slots
  free : t.free = s.free
  live : t.live = s.live

theorem SameSlots.refl (s : Store) : SameSlots s s := ⟨rfl, rfl, rfl⟩

theorem SameSlots.withoutComponent (h : SameSlots s t) (k : Kind) (id : Entity) :
    SameSlots s (t.withoutComponent k id) := by
  unfold Store.withoutComponent
  split
  · exact ⟨h.slots, h.free, h.live⟩
  · exact h

theorem pointwise_sameSlots (s : Store) : Pointwise (SameSlots s) := by
  constructor
  · intro k id v t ht
    by_cases hid : t.isValid id
    · rw [attach_run v hid]
      exact ⟨ht.slots, ht.free, ht.live⟩
    · rw [attach_run_stale v hid]
      exact ht
  · intro k id t ht
    by_cases hid : t.isValid id
    · rw [detach_run hid]
      exact ht.withoutComponent k id
    · rw [detach_run_stale hid]
      exact ht

structure Tidy (s : Store) : Prop where
  nodup : s.free.Nodup
  mem_free : ∀ i, i ∈ s.free ↔ ∃ generation, s.slots[i]? = some ⟨generation, false⟩
  counted : s.slots.length < Entity.slotLimit → s.live = s.slots.countP Slot.alive

theorem tidy_empty : empty.Tidy := by
  refine ⟨List.nodup_nil, ?_, fun _ => rfl⟩
  intro i
  simp [empty]

theorem Tidy.same (h : s.Tidy) (hsame : SameSlots s t) : t.Tidy := by
  constructor
  · rw [hsame.free]
    exact h.nodup
  · intro i
    rw [hsame.free, hsame.slots]
    exact h.mem_free i
  · rw [hsame.slots, hsame.live]
    exact h.counted

/-- One slot changed changes a count by that slot alone. -/
theorem countP_modify {slots : List Slot} {i : Nat} {slot : Slot} (h : slots[i]? = some slot)
    (f : Slot → Slot) :
    (slots.modify i f).countP Slot.alive + (if slot.alive then 1 else 0) =
      slots.countP Slot.alive + if (f slot).alive then 1 else 0 := by
  obtain ⟨hlt, hslot⟩ := List.getElem?_eq_some_iff.mp h
  obtain ⟨before, found, after, hsplit, hlength, hmodify⟩ := List.exists_of_modify f hlt
  have hfound : found = slot := by
    rw [← hslot]
    simp [hsplit, ← hlength]
  rw [hmodify, hsplit, hfound]
  simp only [List.countP_append, List.countP_cons]
  omega

/-- The store `t` has one more entity than `s`, in a slot that was released or is new. -/
structure Granted (s : Store) (id : Entity) (t : Store) : Prop where
  before : s.slots[id.index]? = some ⟨id.generation, false⟩ ∨ id = ⟨s.slots.length, 0⟩
  after : ∀ i, t.slots[i]? = if i = id.index then some ⟨id.generation, true⟩ else s.slots[i]?
  live : t.live = s.live + 1
  tables : t.tables = s.tables
  uniques : t.uniques = s.uniques

theorem create_reused {index : Nat} {generation : UInt32} {rest : List Nat}
    (hfree : s.free = index :: rest) (hslot : s.slots[index]? = some ⟨generation, false⟩) :
    create s = .ok ⟨index, generation⟩
      { s with slots := wake s.slots index, free := rest, live := s.live + 1 } := by
  have hgeneration : (wake s.slots index)[index]?.map Slot.generation = some generation := by
    simp [wake, hslot]
  simp only [create, hfree, hgeneration, Option.getD_some]

theorem create_new (hfree : s.free = []) (hroom : s.slots.length < Entity.slotLimit) :
    create s = .ok ⟨s.slots.length, 0⟩
      { s with slots := s.slots ++ [⟨0, true⟩], live := s.live + 1 } := by
  simp only [create, hfree, if_pos hroom]

theorem create_refused (hfree : s.free = []) (hfull : ¬ s.slots.length < Entity.slotLimit) :
    create s = .error .slotsExhausted { s with live := s.live + 1 } := by
  simp only [create, hfree, if_neg hfull]

theorem granted_reused {index : Nat} {generation : UInt32} (rest : List Nat)
    (hslot : s.slots[index]? = some ⟨generation, false⟩) :
    Granted s ⟨index, generation⟩
      { s with slots := wake s.slots index, free := rest, live := s.live + 1 } := by
  refine ⟨Or.inl hslot, ?_, rfl, rfl, rfl⟩
  intro i
  rw [wake, List.getElem?_modify]
  by_cases hi : i = index
  · simp [hi, hslot]
  · simp [hi, Ne.symm hi]

theorem granted_new :
    Granted s ⟨s.slots.length, 0⟩
      { s with slots := s.slots ++ [⟨0, true⟩], live := s.live + 1 } := by
  refine ⟨Or.inr rfl, ?_, rfl, rfl, rfl⟩
  intro i
  rw [List.getElem?_append]
  by_cases hi : i = s.slots.length
  · simp [hi]
  · rw [if_neg hi]
    split
    · rfl
    · have hlt : s.slots.length < i := by omega
      simp [List.getElem?_eq_none (Nat.le_of_lt hlt)]
      omega

theorem Tidy.reused (h : s.Tidy) {index : Nat} {generation : UInt32} {rest : List Nat}
    (hfree : s.free = index :: rest) (hslot : s.slots[index]? = some ⟨generation, false⟩) :
    Tidy { s with slots := wake s.slots index, free := rest, live := s.live + 1 } := by
  have hnodup := h.nodup
  rw [hfree, List.nodup_cons] at hnodup
  refine ⟨hnodup.2, ?_, ?_⟩
  · intro i
    have hmem := h.mem_free i
    have hafter := (granted_reused rest hslot).after i
    simp only at hafter
    rw [hfree, List.mem_cons] at hmem
    rw [hafter]
    by_cases hi : i = index
    · simp [hi, hnodup.1]
    · rw [if_neg hi, ← hmem]
      simp [hi]
  · intro hroom
    have hcount := countP_modify hslot fun slot => { slot with alive := true }
    have hold := h.counted (by simpa [wake] using hroom)
    simp only [wake, hold]
    simp only [Bool.false_eq_true, if_false, if_true] at hcount
    omega

theorem Tidy.new (h : s.Tidy) :
    Tidy { s with slots := s.slots ++ [⟨0, true⟩], live := s.live + 1 } := by
  refine ⟨h.nodup, ?_, ?_⟩
  · intro i
    have hafter := (granted_new (s := s)).after i
    simp only at hafter
    rw [h.mem_free, hafter]
    split
    · rename_i hi
      rw [hi, List.getElem?_eq_none (Nat.le_refl _)]
      simp
    · rfl
  · intro hroom
    have hold := h.counted (by simp at hroom; omega)
    simp [hold]

/-- A request for an entity is refused only where every slot that there may be has a living entity
already. -/
theorem Tidy.create_cases (h : s.Tidy) :
    (∃ id t, create s = .ok id t ∧ Granted s id t ∧ t.Tidy) ∨
    (s.free = [] ∧ ¬ s.slots.length < Entity.slotLimit ∧
      create s = .error .slotsExhausted { s with live := s.live + 1 }) := by
  cases hfree : s.free with
  | cons index rest =>
    obtain ⟨generation, hslot⟩ := (h.mem_free index).mp (by simp [hfree])
    exact Or.inl ⟨_, _, create_reused hfree hslot, granted_reused rest hslot, h.reused hfree hslot⟩
  | nil =>
    by_cases hroom : s.slots.length < Entity.slotLimit
    · exact Or.inl ⟨_, _, create_new hfree hroom, granted_new, h.new⟩
    · exact Or.inr ⟨rfl, hroom, hfree ▸ create_refused hfree hroom⟩

theorem tidy_create : Keeps Tidy Tidy create := by
  intro s hs
  rcases hs.create_cases with ⟨id, t, hrun, _, ht⟩ | ⟨_, hfull, hrun⟩
  · rw [hrun]
    exact ht
  · rw [hrun]
    exact ⟨hs.nodup, hs.mem_free, fun hroom => absurd hroom hfull⟩

namespace Granted

variable {id : Entity}

theorem not_isValid (h : Granted s id t) : ¬ s.isValid id := by
  intro hid
  rw [isValid_iff] at hid
  rcases h.before with hbefore | hnew
  · rw [hbefore] at hid
    simp at hid
  · rw [hnew, List.getElem?_eq_none (Nat.le_refl _)] at hid
    cases hid

theorem isValid_iff (h : Granted s id t) {x : Entity} :
    t.isValid x = true ↔ x = id ∨ s.isValid x = true := by
  rw [Store.isValid_iff, Store.isValid_iff, h.after]
  split
  · rename_i hindex
    have hbefore : s.slots[x.index]? ≠ some ⟨x.generation, true⟩ := by
      intro hx
      rw [hindex] at hx
      rcases h.before with hdead | hnew
      · rw [hdead] at hx
        simp at hx
      · rw [hnew, List.getElem?_eq_none (Nat.le_refl _)] at hx
        cases hx
    rw [or_iff_left hbefore, Option.some.injEq, Slot.mk.injEq, and_iff_left rfl]
    constructor
    · intro hgeneration
      cases x
      cases id
      simp_all
    · intro hx
      rw [hx]
  · rename_i hindex
    have hne : x ≠ id := fun heq => hindex (heq ▸ rfl)
    simp [hne]

theorem length_le (h : Granted s id t) : s.slots.length ≤ t.slots.length := by
  by_contra hlt
  have hafter := h.after t.slots.length
  rw [List.getElem?_eq_none (Nat.le_refl _)] at hafter
  split at hafter
  · cases hafter
  · have hge := List.getElem?_eq_none_iff.mp hafter.symm
    omega

theorem component? (h : Granted s id t) (k : Kind) : t.component? k = s.component? k := by
  funext x
  unfold Store.component? table?
  rw [h.tables]

end Granted

theorem ended_or_refused (s : Store) (id : Entity) :
    (s.isValid id ∧ destroy id s = .ok () (s.ended id)) ∨ ∃ e, destroy id s = .error e s := by
  unfold destroy
  by_cases hid : s.isValid id
  · simp only [hid, Bool.not_true, Bool.false_eq_true, if_false]
    split
    · exact Or.inr ⟨_, rfl⟩
    · split
      · exact Or.inr ⟨_, rfl⟩
      · exact Or.inl ⟨trivial, rfl⟩
  · simp only [hid]
    exact Or.inr ⟨_, rfl⟩

theorem Tidy.ended (h : s.Tidy) {id : Entity} (hid : s.isValid id) : (s.ended id).Tidy := by
  have hslot := Store.isValid_iff.mp hid
  have hfresh : id.index ∉ s.free := by
    intro hin
    obtain ⟨generation, hdead⟩ := (h.mem_free _).mp hin
    rw [hslot] at hdead
    simp at hdead
  refine ⟨List.nodup_cons.mpr ⟨hfresh, h.nodup⟩, ?_, ?_⟩
  · intro i
    have hmem : i ∈ (s.ended id).free ↔ i = id.index ∨ i ∈ s.free := List.mem_cons
    rw [hmem, getElem?_slots_ended, h.mem_free]
    by_cases hi : id.index = i
    · subst hi
      simp [hslot]
    · simp [hi, Ne.symm hi]
  · intro hroom
    have hlength : (s.ended id).slots.length = s.slots.length := List.length_modify ..
    have hcount := countP_modify hslot fun slot => ⟨slot.generation + 1, false⟩
    have hold := h.counted (by omega)
    simp only [if_true, Bool.false_eq_true, if_false] at hcount
    show s.live - 1 = _
    rw [hold]
    exact (Nat.eq_sub_of_add_eq hcount).symm

theorem length_entities (s : Store) : s.entities.length = s.slots.countP Slot.alive := by
  have hsome : ∀ p : Slot × Nat, (if p.1.alive = true then some (Entity.mk p.2 p.1.generation)
      else none).isSome = p.1.alive := by
    intro p
    cases p.1.alive <;> rfl
  have hmap : s.slots = s.slots.zipIdx.map Prod.fst := by simp
  rw [entities, List.length_filterMap_eq_countP]
  simp only [hsome]
  nth_rewrite 2 [hmap]
  rw [List.countP_map]
  rfl

theorem encard_isValid (s : Store) :
    Set.encard {id | s.isValid id = true} = s.entities.length := by
  have hset : {id | s.isValid id = true} = (s.entities.toFinset : Set Entity) := by
    ext id
    simp only [Set.mem_ofPred_eq, List.coe_toFinset, mem_entities]
  rw [hset, Set.encard_coe_eq_coe_finsetCard,
    List.toFinset_card_of_nodup (nodup_of_ascending ascending_entities)]

/-- The counter is not below the number of living entities. It is above it after requests for an
entity that were refused, which count as well. -/
def Counted (s : Store) : Prop := s.entities.length ≤ s.live

theorem Counted.same (h : s.Counted) (hsame : SameSlots s t) : t.Counted := by
  unfold Counted at h ⊢
  rw [length_entities, hsame.slots, hsame.live, ← length_entities]
  exact h

theorem counted_of_sameSlots {α : Type} {action : Action α}
    (h : ∀ s, Keeps (SameSlots s) (SameSlots s) action) : Keeps Counted Counted action :=
  Keeps.of_left fun s hs => hs.same ((h s).left (SameSlots.refl s))

theorem countP_wake_le (slots : List Slot) (index : Nat) :
    (wake slots index).countP Slot.alive ≤ slots.countP Slot.alive + 1 := by
  cases hslot : slots[index]? with
  | none =>
    have hout : slots.length ≤ index := List.getElem?_eq_none_iff.mp hslot
    rw [wake, List.modify_eq_self hout]
    omega
  | some slot =>
    have hcount := countP_modify hslot fun slot => { slot with alive := true }
    rw [if_pos rfl] at hcount
    unfold wake
    omega

theorem counted_create : Keeps Counted Counted create := by
  refine Keeps.of_left fun s hs => ?_
  unfold Counted at hs ⊢
  rw [length_entities] at hs ⊢
  unfold create
  cases s.free with
  | cons index free =>
    have hwake := countP_wake_le s.slots index
    simp only [left]
    omega
  | nil =>
    by_cases hroom : s.slots.length < Entity.slotLimit
    · simp only [if_pos hroom, left, List.countP_append, List.countP_singleton, if_true]
      omega
    · simp only [if_neg hroom, left]
      omega

theorem Counted.ended (h : s.Counted) {id : Entity} (hid : s.isValid id) :
    (s.ended id).Counted := by
  have hcount := countP_modify (Store.isValid_iff.mp hid) fun slot => ⟨slot.generation + 1, false⟩
  have hlive : (s.ended id).live = s.live - 1 := rfl
  have hslots : (s.ended id).slots =
      s.slots.modify id.index fun slot => ⟨slot.generation + 1, false⟩ := rfl
  unfold Counted at h ⊢
  rw [length_entities] at h ⊢
  rw [hlive, hslots]
  simp only [if_true, Bool.false_eq_true, if_false] at hcount
  omega

theorem counted_destroy (id : Entity) : Keeps Counted Counted (destroy id) := by
  intro s hs
  rcases ended_or_refused s id with ⟨hid, hrun⟩ | ⟨e, hrun⟩
  · rw [hrun]
    exact hs.ended hid
  · rw [hrun]
    exact hs

theorem stable_counted : Stable Counted Counted where
  weaken _ hs := hs
  create := counted_create
  attach k id v _ := counted_of_sameSlots fun s => (pointwise_sameSlots s).attach k id v
  detach k id _ := counted_of_sameSlots fun s => (pointwise_sameSlots s).detach k id
  destroy := counted_destroy
  addChildren parent added :=
    counted_of_sameSlots fun s => (pointwise_sameSlots s).links.addChildren parent added
  removeChild child := counted_of_sameSlots fun s => (pointwise_sameSlots s).links.removeChild child
  removeAllChildren parent :=
    counted_of_sameSlots fun s => (pointwise_sameSlots s).links.removeAllChildren parent
  uniques _ _ hs := hs

end ModuleCompiler.Store
