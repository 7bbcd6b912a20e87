import ModuleCompiler.Proofs.Linking

/-!
The end of an entity together with everything below it. The way down collects what lies below; then
all lists among these entities are dropped, which unlinks them from each other, and only then they
end one by one. In a store whose links agree nothing on this way is refused.
-/

namespace ModuleCompiler.Store

variable {s t u : Store} {id root : Entity} {nodes : List Entity}

/-- The entity is `root` or lies below it. -/
def Under (s : Store) (root id : Entity) : Prop := id = root ∨ Above s.up id root

/-- What a way down collects that goes to the bottom has the children of all that it has. -/
theorem mem_below_of_child {level : List Entity} {levels : Nat} {parent child : Entity}
    (hbottom : s.levelAt levels level = []) (hparent : parent ∈ level ++ s.below levels level)
    (hchild : child ∈ s.childList parent) : child ∈ s.below levels level := by
  induction levels generalizing level with
  | zero =>
    obtain rfl : level = [] := hbottom
    cases hparent
  | succ levels ih =>
    rcases List.mem_append.mp hparent with hlevel | hdeeper
    · exact List.mem_append_left _ (mem_nextLevel.mpr ⟨parent, hlevel, hchild⟩)
    · exact List.mem_append_right _ (ih hbottom hdeeper)

/-- The way down from an entity collects exactly the entities that it lies above. -/
theorem Consistent.mem_below_iff (h : s.Consistent) (hroot : s.isValid root) :
    id ∈ s.below depthLimit [root] ↔ Above s.up id root := by
  obtain ⟨hbottom, hbelow⟩ := h.levelAt_depthLimit hroot
  constructor
  · intro hid
    obtain ⟨top, htop, habove⟩ := Layer.above_of_mem_below h.toLinked hid
    exact List.mem_singleton.mp htop ▸ habove
  · intro habove
    rw [hbelow]
    induction habove using Relation.TransGen.head_induction_on with
    | single hup => exact mem_below_of_child hbottom (by simp) (h.mem_childList.mpr hup)
    | head hup _ ih =>
      exact mem_below_of_child hbottom (List.mem_append_right _ ih) (h.mem_childList.mpr hup)

/-- The store `t` is `s` without the lists of some entities, which are named by no entity then. -/
structure Cleared (s : Store) (nodes : List Entity) (t : Store) : Prop where
  consistent : t.Consistent
  linksOnly : LinksOnly s t
  up_iff : ∀ id parent, t.up id = some parent ↔ s.up id = some parent ∧ parent ∉ nodes
  down_eq : ∀ id, t.down id = if id ∈ nodes then none else s.down id

theorem Cleared.cons {node : Entity} (h : Cleared s [node] t) (h' : Cleared t nodes u) :
    Cleared s (node :: nodes) u := by
  refine ⟨h'.consistent, h.linksOnly.trans h'.linksOnly, fun id parent => ?_, fun id => ?_⟩
  · rw [h'.up_iff, h.up_iff, and_assoc, List.mem_singleton, List.mem_cons, not_or]
  · rw [h'.down_eq, h.down_eq]
    by_cases hnodes : id ∈ nodes
    · simp [hnodes]
    · by_cases hnode : id = node <;> simp [hnodes, hnode]

theorem Linked.clear_run (h : s.Linked) {node : Entity} (hnode : s.isValid node) :
    ∃ t, removeAllChildren node s = .ok () t ∧
      HasLinks (Forest.orphan s.up (s.childList node)) (Function.update s.down node none) t := by
  unfold childList
  cases hdown : s.down node with
  | none =>
    refine ⟨_, removeAllChildren_childless hnode hdown, ?_, down_withoutChildren h.sound⟩
    rw [Option.getD_none, Forest.orphan_nil]
    exact up_withoutChildren
  | some list =>
    exact ⟨_, Store.removeAllChildren_run h.sound hdown fun _ => h.alive_of_mem hdown,
      up_cleared h.sound, down_cleared h.sound⟩

theorem Consistent.removeAllChildren_run (h : s.Consistent) {node : Entity}
    (hnode : s.isValid node) : ∃ t, removeAllChildren node s = .ok () t ∧ Cleared s [node] t := by
  obtain ⟨t, hrun, hlinks⟩ := h.clear_run hnode
  refine ⟨t, hrun, (stable_consistent.removeAllChildren node).ok h hrun,
    ((pointwise_linksOnly s).removeAllChildren node).ok (.refl s) hrun, fun id parent => ?_,
    fun id => ?_⟩
  · -- The children of an entity are the entities that name it.
    rw [hlinks.up_eq]
    by_cases hid : s.up id = some node
    · rw [Forest.orphan, if_pos (h.mem_childList.mpr hid), hid]
      simp [eq_comm]
    · rw [Forest.orphan, if_neg fun hin => hid (h.mem_childList.mp hin), List.mem_singleton]
      refine ⟨fun hup => ⟨hup, ?_⟩, And.left⟩
      rintro rfl
      exact hid hup
  · rw [hlinks.down_eq, Function.update_apply]
    simp only [List.mem_singleton]

theorem Consistent.removeAll_run (h : s.Consistent) (halive : ∀ id ∈ nodes, s.isValid id) :
    ∃ t, nodes.forM removeAllChildren s = .ok () t ∧ Cleared s nodes t := by
  induction nodes generalizing s with
  | nil =>
    exact ⟨s, rfl, h, .refl s, fun id => by simp, fun id => by simp⟩
  | cons node rest ih =>
    obtain ⟨t, hfirst, hcleared⟩ := h.removeAllChildren_run (halive node (by simp))
    obtain ⟨u, hrest, hcleared'⟩ := ih hcleared.consistent fun id hid => by
      rw [hcleared.linksOnly.isValid_eq]
      exact halive id (by simp [hid])
    exact ⟨u, (bind_run_ok hfirst).trans hrest, hcleared.cons hcleared'⟩

/-- The store `t` is `s` without some of its entities. -/
structure Without (s : Store) (gone : List Entity) (t : Store) : Prop where
  sound : t.Sound
  isValid_iff : ∀ id, t.isValid id = true ↔ s.isValid id = true ∧ id ∉ gone
  component? : ∀ k id, t.component? k id = if id ∈ gone then none else s.component? k id
  uniques : t.uniques = s.uniques
  live : t.live = s.live - gone.length

theorem Sound.destroy_run (h : s.Sound) (hid : s.isValid id) (hup : s.up id = none)
    (hdown : s.down id = none) : destroy id s = .ok () (s.ended id) := by
  have hchildren : s.holds .children id = false := by
    rw [h.holds_eq]
    exact congrArg Option.isSome hdown
  have hparent : s.holds .parent id = false := by
    rw [h.holds_eq]
    exact congrArg Option.isSome hup
  simp only [destroy, hid, hchildren, hparent]
  rfl

theorem Sound.without_ended (h : s.Sound) (hid : s.isValid id) : Without s [id] (s.ended id) := by
  refine ⟨h.ended hid, fun x => ?_, fun k x => ?_, rfl, rfl⟩
  · rw [Store.isValid_ended hid, List.mem_singleton]
  · rw [h.component?_ended, Function.update_apply]
    simp only [List.mem_singleton]

theorem Without.cons {gone : List Entity} (h : Without s [id] t) (h' : Without t gone u) :
    Without s (id :: gone) u := by
  refine ⟨h'.sound, fun x => ?_, fun k x => ?_, h'.uniques.trans h.uniques, ?_⟩
  · rw [h'.isValid_iff, h.isValid_iff]
    simp only [List.mem_cons, List.not_mem_nil, or_false, not_or, and_assoc]
  · rw [h'.component?, h.component?]
    by_cases hgone : x ∈ gone
    · simp [hgone]
    · by_cases hx : x = id <;> simp [hgone, hx]
  · rw [h'.live, h.live]
    simp only [List.length_cons, List.length_nil]
    omega

theorem Sound.destroyAll_run (h : s.Sound) (hnodup : nodes.Nodup)
    (hfree : ∀ id ∈ nodes, s.isValid id ∧ s.up id = none ∧ s.down id = none) :
    ∃ t, nodes.forM destroy s = .ok () t ∧ Without s nodes t := by
  induction nodes generalizing s with
  | nil => exact ⟨s, rfl, h, by simp, by simp, rfl, rfl⟩
  | cons node rest ih =>
    obtain ⟨hout, hrest⟩ := List.nodup_cons.mp hnodup
    obtain ⟨hnode, hup, hdown⟩ := hfree node (by simp)
    have hfirst := h.destroy_run hnode hup hdown
    have hwithout := h.without_ended hnode
    -- The end of an entity without links leaves the links of all others.
    obtain ⟨t, hrun, hwithout'⟩ := ih hwithout.sound hrest fun id hid => by
      obtain ⟨hvalid, htop, hleaf⟩ := hfree id (by simp [hid])
      have hne : id ≠ node := fun heq => hout (heq ▸ hid)
      rw [up_ended h hup, down_ended h hdown]
      exact ⟨(isValid_ended hnode).mpr ⟨hvalid, hne⟩, htop, hleaf⟩
    exact ⟨t, (bind_run_ok hfirst).trans hrun, hwithout.cons hwithout'⟩

/-- An entity without its own parent has below it what it had before. -/
theorem Linked.above_freed_iff (h : s.Linked) (hfreed : Freed s [root] u) :
    Above u.up id root ↔ Above s.up id root := by
  rw [hfreed.links.up_eq]
  constructor
  · exact Above.of_fewer (Forest.orphan_fewer [root])
  · intro habove
    have hne : id ∉ [root] := by
      rw [List.mem_singleton]
      rintro rfl
      exact h.forest.acyclic id habove
    obtain ⟨nearest, hnearest, hway⟩ := Forest.exists_above_orphan habove (by simp) hne
    exact List.mem_singleton.mp hnearest ▸ hway

theorem Sound.isValid_of_under (h : s.Sound) (hroot : s.isValid root) (hid : s.Under root id) :
    s.isValid id := by
  rcases hid with rfl | habove
  · exact hroot
  · obtain ⟨parent, hup, -⟩ := above_iff.mp habove
    exact h.isValid_of_up hup

theorem Under.child (h : s.Under root id) {child : Entity} (hup : s.up child = some id) :
    s.Under root child := by
  rcases h with rfl | habove
  · exact Or.inr (.single hup)
  · exact Or.inr (.head hup habove)

/-- Once the lists of an entity and of all below it are dropped, none of them has links. -/
theorem Cleared.unlinked (h : Cleared u nodes t) (hfreed : Freed s [root] u)
    (hnodes : ∀ id, id ∈ nodes ↔ u.Under root id) (hid : id ∈ nodes) :
    t.up id = none ∧ t.down id = none := by
  refine ⟨Option.eq_none_iff_forall_ne_some.mpr fun parent hup => ?_, ?_⟩
  · obtain ⟨hup, hout⟩ := (h.up_iff id parent).mp hup
    rcases (hnodes id).mp hid with rfl | habove
    · rw [hfreed.links.up_eq, Forest.orphan, if_pos (by simp)] at hup
      cases hup
    · -- The parent lies under the root as well, so its list is among the dropped ones.
      obtain ⟨owner, howner, hrest⟩ := above_iff.mp habove
      obtain rfl := Option.some.inj (howner.symm.trans hup)
      exact hout ((hnodes owner).mpr hrest)
  · rw [h.down_eq, if_pos hid]

/-- The three parts of the end of a subtree, none of which is refused. -/
theorem Consistent.destroySubtree_run (h : s.Consistent) (hroot : s.isValid root) :
    ∃ nodes u v t, nodes.Nodup ∧ (∀ id, id ∈ nodes ↔ s.Under root id) ∧ Freed s [root] u ∧
      Cleared u nodes v ∧ Without v nodes t ∧ destroySubtree root s = .ok () t := by
  obtain ⟨answer, u, hremove, -, hfreed⟩ := h.anchored.removeChild_run hroot
  have hu : u.Consistent := (stable_consistent.removeChild root).ok h hremove
  have hroot' : u.isValid root := by rwa [hfreed.linksOnly.isValid_eq]
  obtain ⟨hcollect, hnodup⟩ := hu.descendants_run hroot' depthLimit
  have hmem : ∀ id, id ∈ u.below depthLimit [root] ++ [root] ↔ u.Under root id := by
    intro id
    rw [List.mem_append, List.mem_singleton, hu.mem_below_iff hroot', or_comm, Under]
  have halive : ∀ id ∈ u.below depthLimit [root] ++ [root], u.isValid id :=
    fun id hid => hu.sound.isValid_of_under hroot' ((hmem id).mp hid)
  obtain ⟨v, hclear, hcleared⟩ := hu.removeAll_run halive
  have hnodup' : (u.below depthLimit [root] ++ [root]).Nodup :=
    (List.perm_append_singleton root _).nodup_iff.mpr hnodup
  obtain ⟨t, hend, hwithout⟩ := hcleared.consistent.sound.destroyAll_run hnodup' fun id hid => by
    rw [hcleared.linksOnly.isValid_eq]
    exact ⟨halive id hid, hcleared.unlinked hfreed hmem hid⟩
  refine ⟨_, u, v, t, hnodup', fun id => ?_, hfreed, hcleared, hwithout, ?_⟩
  · rw [hmem, Under, h.above_freed_iff hfreed, Under]
  · refine (bind_run_ok (discard_run_ok hremove)).trans ((bind_run_ok (read_run hcollect)).trans ?_)
    exact (bind_run_ok hclear).trans hend

/-- The store `t` is `s` without `root` and all below it, and `root` is out of its parent's list. -/
structure Felled (s : Store) (root : Entity) (t : Store) : Prop where
  ended : ∀ id, t.isValid id = true ↔ s.isValid id = true ∧ ¬ s.Under root id
  counted : t.live + Set.ncard {id | s.Under root id} = s.live
  kept : ∀ id, ¬ s.Under root id → ∀ k, k ≠ .children → t.component? k id = s.component? k id
  lists : ∀ id, ¬ s.Under root id → s.component? .parent root ≠ some id →
    t.component? .children id = s.component? .children id
  parentList : ∀ parent list, s.parent? root = .ok (some parent) → s.children parent = .ok list →
    t.children parent = .ok (list.filter (· ≠ root)) ∧
      (list = [root] → t.component? .children parent = none)
  uniques : t.uniques = s.uniques
  consistent : t.Consistent

section Parts

variable {v : Store} (hnodes : ∀ id, id ∈ nodes ↔ s.Under root id) (hfreed : Freed s [root] u)
  (hcleared : Cleared u nodes v) (hwithout : Without v nodes t)
include hnodes hfreed hcleared hwithout

theorem isValid_felled_iff : t.isValid id = true ↔ s.isValid id = true ∧ ¬ s.Under root id := by
  rw [hwithout.isValid_iff, hcleared.linksOnly.isValid_eq, hfreed.linksOnly.isValid_eq, hnodes]

/-- An entity that goes on existing names no entity that has ended. -/
theorem up_felled (hid : ¬ s.Under root id) : t.up id = s.up id := by
  have hout : id ∉ nodes := fun hin => hid ((hnodes id).mp hin)
  have hne : id ∉ [root] := fun hin => hid (Or.inl (List.mem_singleton.mp hin))
  have hv : t.up id = v.up id := (hwithout.component? .parent id).trans (if_neg hout)
  rw [hv]
  ext parent
  rw [hcleared.up_iff, hfreed.links.up_eq, Forest.orphan, if_neg hne]
  refine ⟨And.left, fun hup => ⟨hup, fun hin => ?_⟩⟩
  exact hid (((hnodes parent).mp hin).child hup)

theorem down_felled (hid : ¬ s.Under root id) : t.down id = Forest.prune s.down [root] id := by
  have hout : id ∉ nodes := fun hin => hid ((hnodes id).mp hin)
  have hv : t.down id = v.down id := (hwithout.component? .children id).trans (if_neg hout)
  rw [hv, hcleared.down_eq, if_neg hout, hfreed.links.down_eq]

theorem component?_felled (hid : ¬ s.Under root id) {k : Kind} (hk : k ≠ .children) :
    t.component? k id = s.component? k id := by
  cases hlink : k.isLink with
  | true =>
    rcases eq_link_of_isLink hlink with rfl | rfl
    · exact up_felled hnodes hfreed hcleared hwithout hid
    · exact absurd rfl hk
  | false =>
    have hout : id ∉ nodes := fun hin => hid ((hnodes id).mp hin)
    rw [hwithout.component?, if_neg hout, hcleared.linksOnly.components k hlink,
      hfreed.linksOnly.components k hlink]

/-- As many entities have ended as the counter went down by, which had counted them all. -/
theorem live_felled (hs : s.Counted) (hnodup : nodes.Nodup) (halive : ∀ id ∈ nodes, s.isValid id) :
    t.live + Set.ncard {id | s.Under root id} = s.live := by
  have hset : {id | s.Under root id} = (nodes.toFinset : Set Entity) := by
    ext id
    simp [hnodes]
  have hle : nodes.length ≤ s.entities.length := length_le_entities hnodup halive
  unfold Counted at hs
  rw [hset, Set.ncard_coe_finset, List.toFinset_card_of_nodup hnodup, hwithout.live,
    hcleared.linksOnly.slots.live, hfreed.linksOnly.slots.live]
  omega

end Parts

theorem Reachable.counted (h : s.Reachable) : s.Counted := by
  obtain ⟨requests, rfl⟩ := h
  exact stable_counted.reached (Nat.le_refl 0) requests

/-- In a store with agreeing links a living entity can always be ended together with all below it.
Exactly these entities are gone then, and the counter went down by their number; every other entity
has the components and the parent it had, and of the lists only that of the entity's parent has
changed, by the entity alone. The links agree as before. -/
theorem subtree_ends (hs : s.Reachable) (hlinks : s.Consistent) (hroot : s.isValid root) :
    ∃ t, destroySubtree root s = .ok () t ∧ s.Felled root t := by
  obtain ⟨nodes, u, v, t, hnodup, hnodes, hfreed, hcleared, hwithout, hrun⟩ :=
    hlinks.destroySubtree_run hroot
  have halive : ∀ id ∈ nodes, s.isValid id :=
    fun id hid => hlinks.sound.isValid_of_under hroot ((hnodes id).mp hid)
  have ht : t.Consistent := (stable_consistent.destroySubtree root).ok hlinks hrun
  refine ⟨t, hrun, fun id => isValid_felled_iff hnodes hfreed hcleared hwithout,
    live_felled hnodes hfreed hcleared hwithout hs.counted hnodup halive,
    fun id hid k => component?_felled hnodes hfreed hcleared hwithout hid, ?_, ?_,
    (hwithout.uniques.trans hcleared.linksOnly.uniques).trans hfreed.linksOnly.uniques, ht⟩
  · intro id hid hparent
    have hdown := down_felled hnodes hfreed hcleared hwithout hid
    rw [hlinks.forest.prune_of_disjoint] at hdown
    · exact hdown
    · intro child hchild
      rw [List.mem_singleton.mp hchild]
      exact hparent
  · intro parent list hparent hlist
    obtain ⟨-, hup⟩ := parent?_eq_ok hparent
    obtain ⟨hvalid, rfl⟩ := children_eq_ok.mp hlist
    have hout : ¬ s.Under root parent := by
      rintro (rfl | habove)
      · exact hlinks.forest.acyclic _ (.single hup)
      · exact hlinks.forest.acyclic _ (.head hup habove)
    have hrest : t.childList parent = (s.childList parent).filter (· ≠ root) := by
      rw [childList, down_felled hnodes hfreed hcleared hwithout hout, Forest.getD_prune]
      simp [childList]
    refine ⟨children_eq_ok.mpr ⟨?_, hrest⟩, fun honly => ?_⟩
    · exact (isValid_felled_iff hnodes hfreed hcleared hwithout).mpr ⟨hvalid, hout⟩
    · apply ht.down_eq_none
      rw [hrest, honly]
      simp

/-- A tree of three levels of which the middle one has one entity. -/
def stemRun : List Request :=
  [.create, .create, .create, .create, .create, .insert .identifier ⟨0, 0⟩ "Root",
    .addChild ⟨0, 0⟩ ⟨1, 0⟩, .edit (.addChildren ⟨1, 0⟩ [⟨2, 0⟩, ⟨3, 0⟩])]

/-- With the only child of the uppermost entity three of the five end. -/
theorem subtree_ends_stem :
    Ast.carriedOut stemRun = true ∧ (Ast.reached stemRun).store.isValid ⟨1, 0⟩ = true ∧
    ∃ t, destroySubtree ⟨1, 0⟩ (Ast.reached stemRun).store = .ok () t ∧
      (Ast.reached stemRun).store.Felled ⟨1, 0⟩ t ∧ t.live = 2 ∧
      t.component? .children ⟨0, 0⟩ = none := by
  have hrun : Ast.carriedOut stemRun = true := by decide +kernel
  have hroot : (Ast.reached stemRun).store.isValid ⟨1, 0⟩ = true := by decide +kernel
  have hlive : (left (destroySubtree ⟨1, 0⟩ (Ast.reached stemRun).store)).live = 2 := by
    decide +kernel
  have hparent : (Ast.reached stemRun).store.parent? ⟨1, 0⟩ = .ok (some ⟨0, 0⟩) := by
    decide +kernel
  have hlist : (Ast.reached stemRun).store.children ⟨0, 0⟩ = .ok [⟨1, 0⟩] := by decide +kernel
  obtain ⟨t, hdone, hfelled⟩ := subtree_ends ⟨_, rfl⟩ (consistent_carriedOut hrun) hroot
  rw [hdone] at hlive
  exact ⟨hrun, hroot, t, hdone, hfelled, hlive, (hfelled.parentList _ _ hparent hlist).2 rfl⟩

end ModuleCompiler.Store
