import ModuleCompiler.Proofs.Checked
import ModuleCompiler.Proofs.TableConsistency
import ModuleCompiler.Query

/-!
Queries against the plain scan. A query goes through the table of one kind only, and asks of each
entity it meets whether it holds the rest. In a sound store this finds what a scan of all living
entities finds, in the same order, whichever kind leads.
-/

namespace ModuleCompiler

namespace Store

variable {s : Store}

theorem nodup_of_ascending {l : List Entity} (h : l.Pairwise fun x y => x.index < y.index) :
    l.Nodup := by
  apply h.imp
  intro x y hlt heq
  rw [heq] at hlt
  omega

/-- Lists of entities in the order of their slots are equal if they have the same entities. -/
theorem eq_of_ascending {a b : List Entity} (ha : a.Pairwise fun x y => x.index < y.index)
    (hb : b.Pairwise fun x y => x.index < y.index) (h : ∀ id, id ∈ a ↔ id ∈ b) : a = b := by
  have hperm : a.Perm b :=
    (List.perm_ext_iff_of_nodup (nodup_of_ascending ha) (nodup_of_ascending hb)).mpr h
  refine hperm.eq_of_pairwise ?_ ha hb
  intro x y _ _ hxy hyx
  omega

theorem mem_entities {id : Entity} : id ∈ s.entities ↔ s.isValid id = true := by
  simp only [entities, List.mem_filterMap, Prod.exists, List.mem_zipIdx_iff_getElem?, isValid_iff]
  constructor
  · intro h
    obtain ⟨slot, index, hslot, hid⟩ := h
    split at hid
    · rename_i halive
      rw [← Option.some.inj hid]
      obtain ⟨generation, alive⟩ := slot
      simp only at halive
      rw [hslot, halive]
    · cases hid
  · intro h
    exact ⟨⟨id.generation, true⟩, id.index, h, rfl⟩

/-- Living entities are among all of them. -/
theorem length_le_entities {ids : List Entity} (hnodup : ids.Nodup)
    (halive : ∀ id ∈ ids, s.isValid id) : ids.length ≤ s.entities.length :=
  (hnodup.subperm fun id hid => mem_entities.mpr (halive id hid)).length_le

theorem ascending_entities : s.entities.Pairwise fun a b => a.index < b.index := by
  rw [entities, List.pairwise_filterMap, List.pairwise_iff_getElem]
  intro i j hi hj hij a ha b hb
  simp only [List.getElem_zipIdx, Nat.zero_add] at ha hb
  split at ha
  · split at hb
    · rw [← Option.some.inj ha, ← Option.some.inj hb]
      exact hij
    · cases hb
  · cases ha

theorem Sound.mem_holders (h : s.Sound) {k : Kind} {id : Entity} :
    id ∈ s.holders k ↔ s.isValid id = true ∧ s.holds k id = true := by
  unfold holders holds
  cases ht : s.table? k with
  | none => simp
  | some t =>
    have hform := h.wellFormed k t ht
    simp only [Option.map_some, Option.getD_some, hform.mem_idsBySlot, hform.contains_iff]
    constructor
    · intro hid
      exact ⟨h.alive k t ht id hid, hid⟩
    · exact And.right

theorem Sound.ascending_holders (h : s.Sound) (k : Kind) :
    (s.holders k).Pairwise fun a b => a.index < b.index := by
  unfold holders
  cases ht : s.table? k with
  | none => exact List.Pairwise.nil
  | some t => exact (h.wellFormed k t ht).ascending_idsBySlot

end Store

namespace Query

variable {s : Store} {q : Query}

/-- Whether an entity holds the whole set, with no check that it is alive. -/
def holdsEach (q : Query) (s : Store) (id : Entity) : Bool := q.kinds.all (s.holds · id)

/-- All living entities gone through, of which those that hold the whole set are kept. -/
def scan (q : Query) (s : Store) : List Entity := s.entities.filter (q.holdsEach s)

theorem holdsAll_run {id : Entity} (h : s.isValid id) :
    q.holdsAll s id = .ok (q.holdsEach s id) :=
  allChecked_run fun _ _ => Store.has_of_isValid h

theorem mem_scan {id : Entity} :
    id ∈ q.scan s ↔ s.isValid id = true ∧ ∀ k ∈ q.kinds, s.has k id = .ok true := by
  rw [scan, List.mem_filter, Store.mem_entities]
  apply and_congr_right
  intro hid
  simp only [holdsEach, List.all_eq_true, Store.has_of_isValid hid, Except.ok.injEq]

/-- Only living entities hold anything, so it is enough to look at the components. -/
theorem mem_scan_iff (h : s.Sound) {id : Entity} :
    id ∈ q.scan s ↔ ∀ k ∈ q.kinds, (s.component? k id).isSome = true := by
  rw [mem_scan]
  constructor
  · rintro ⟨-, hkinds⟩ k hk
    rw [← h.holds_eq]
    exact ((Store.has_eq_true s k id).mp (hkinds k hk)).2
  · intro hkinds
    obtain ⟨v, hv⟩ := Option.isSome_iff_exists.mp (hkinds q.lead (by simp [kinds]))
    have hid := h.isValid_of_component? hv
    refine ⟨hid, fun k hk => ?_⟩
    rw [h.has_eq, if_pos hid, hkinds k hk]

theorem ascending_scan : (q.scan s).Pairwise fun a b => a.index < b.index :=
  Store.ascending_entities.filter _

/-- The table of the leading kind has every entity that can match, and living ones only. -/
theorem ids_run (h : s.Sound) : q.ids s = .ok (q.scan s) := by
  have hpass : q.ids s = .ok ((s.holders q.lead).filter (q.holdsEach s)) :=
    filterChecked_run fun id hid => holdsAll_run (h.mem_holders.mp hid).1
  rw [hpass]
  apply congrArg Except.ok
  apply Store.eq_of_ascending ((h.ascending_holders q.lead).filter _) ascending_scan
  intro id
  rw [scan, List.mem_filter, List.mem_filter, h.mem_holders, Store.mem_entities]
  constructor
  · intro hid
    exact ⟨hid.1.1, hid.2⟩
  · intro hid
    have hlead : s.holds q.lead id = true :=
      List.all_eq_true.mp hid.2 q.lead (by simp [kinds])
    exact ⟨⟨hid.1, hlead⟩, hid.2⟩

theorem scan_congr {other : Query} (h : ∀ k, k ∈ other.kinds ↔ k ∈ q.kinds) :
    other.scan s = q.scan s := by
  apply Store.eq_of_ascending ascending_scan ascending_scan
  intro id
  simp only [mem_scan, h]

theorem has_run (id : Entity) : q.has s id = .ok (decide (id ∈ q.scan s)) := by
  unfold has
  by_cases hid : s.isValid id
  · rw [if_pos hid, holdsAll_run hid]
    have hmem : id ∈ q.scan s ↔ q.holdsEach s id = true := by
      rw [scan, List.mem_filter, Store.mem_entities, and_iff_right hid]
    simp [hmem]
  · have hout : id ∉ q.scan s := fun hin => hid (mem_scan.mp hin).1
    rw [if_neg hid, decide_eq_false hout]

/-- After any run, refused requests included, a query is carried out and answers the plain scan.
This lists exactly the living entities that hold the whole set, each once and by slot, and does not
depend on which kind of the set leads. The other questions to a query are answered by this list,
also for handles that are not alive. -/
theorem query_eq_scan (requests : List Request) (q : Query) :
    q.ids (Ast.reached requests).store = .ok (q.scan (Ast.reached requests).store) ∧
    (∀ id, id ∈ q.scan (Ast.reached requests).store ↔
      (Ast.reached requests).store.isValid id = true ∧
        ∀ k ∈ q.kinds, (Ast.reached requests).store.has k id = .ok true) ∧
    (q.scan (Ast.reached requests).store).Nodup ∧
    ((q.scan (Ast.reached requests).store).Pairwise fun a b => a.index < b.index) ∧
    (∀ other : Query, (∀ k, k ∈ other.kinds ↔ k ∈ q.kinds) →
      other.ids (Ast.reached requests).store = .ok (q.scan (Ast.reached requests).store)) ∧
    (∀ id, q.has (Ast.reached requests).store id =
      .ok (decide (id ∈ q.scan (Ast.reached requests).store))) ∧
    (∀ ids, q.retain (Ast.reached requests).store ids =
      .ok (ids.filter (· ∈ q.scan (Ast.reached requests).store))) ∧
    q.count (Ast.reached requests).store = .ok (q.scan (Ast.reached requests).store).length ∧
    q.isEmpty (Ast.reached requests).store =
      .ok (q.scan (Ast.reached requests).store).isEmpty := by
  have hsound := Store.sound_reached requests
  have hids := ids_run (q := q) hsound
  refine ⟨hids, fun id => mem_scan, Store.nodup_of_ascending ascending_scan, ascending_scan, ?_,
    has_run, ?_, ?_, ?_⟩
  · intro other hsame
    rw [ids_run hsound, scan_congr hsame]
  · intro ids
    exact filterChecked_run fun id _ => has_run id
  · simp [count, hids, bind, Except.bind, pure, Except.pure]
  · simp [isEmpty, hids, bind, Except.bind, pure, Except.pure]

/-- A run in which components come and go out of the order of the slots, an entity ends, its slot
is used again and a component for the old handle is refused. -/
def holdersRun : List Request :=
  [.create, .create, .create, .create,
    .insert .identifier ⟨3, 0⟩ "c", .insert .identifier ⟨0, 0⟩ "a",
    .insert .identifier ⟨1, 0⟩ "b", .insert .functionTag ⟨3, 0⟩ (), .insert .functionTag ⟨0, 0⟩ (),
    .edit (.destroy ⟨0, 0⟩), .create, .insert .functionTag ⟨0, 0⟩ (),
    .insert .functionTag ⟨1, 0⟩ (), .insert .identifier ⟨0, 1⟩ "d"]

/-- The two kinds of a set lead to the same entities. -/
theorem query_eq_scan_swapped :
    (Query.mk .functionTag [.identifier]).ids (Ast.reached holdersRun).store =
      .ok ((Query.mk .identifier [.functionTag]).scan (Ast.reached holdersRun).store) ∧
    (Query.mk .identifier [.functionTag]).scan (Ast.reached holdersRun).store =
      [⟨1, 0⟩, ⟨3, 0⟩] := by
  have hsame : ∀ k, k ∈ (Query.mk .functionTag [.identifier]).kinds ↔
      k ∈ (Query.mk .identifier [.functionTag]).kinds := by
    intro k
    simp [kinds, or_comm]
  obtain ⟨_, _, _, _, hswap, _⟩ := query_eq_scan holdersRun (Query.mk .identifier [.functionTag])
  exact ⟨hswap _ hsame, by decide +kernel⟩

end Query

end ModuleCompiler
