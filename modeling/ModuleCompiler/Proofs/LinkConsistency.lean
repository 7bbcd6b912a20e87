import ModuleCompiler.Proofs.TableConsistency

/-!
Links through whole runs. Requests refused part way may leave entities that name a parent which
does not list them, but every run leaves a forest; and a run in which nothing is refused leaves
links that agree on both sides.
-/

namespace ModuleCompiler.Store

/-- A sound store whose links form a forest. -/
structure Linked (s : Store) : Prop where
  sound : s.Sound
  forest : Forest s.up s.down

/-- A sound store in which both sides of every link agree. -/
structure Consistent (s : Store) : Prop extends Linked s where
  settled : Settled s.up s.down

variable {s t : Store}

theorem linked_empty : empty.Linked := ⟨sound_empty, forest_empty⟩

theorem consistent_empty : empty.Consistent := ⟨linked_empty, settled_empty⟩

theorem Linked.alive_of_mem (h : s.Linked) {parent child : Entity} {list : List Entity}
    (hdown : s.down parent = some list) (hchild : child ∈ list) : s.isValid child :=
  h.sound.isValid_of_up (h.forest.named parent list hdown child hchild)

/-- The store has the given links. -/
structure HasLinks (up : Up) (down : Down) (s : Store) : Prop where
  up_eq : s.up = up
  down_eq : s.down = down

/-- A request that leaves all links as they are, carried out or refused. -/
def Quiet {α : Type} (action : Action α) : Prop :=
  ∀ s, s.Sound → HasLinks s.up s.down (left (action s))

theorem quiet_create : Quiet create := by
  intro s _
  have hgrown := grown_create s
  exact ⟨hgrown.component? .parent, hgrown.component? .children⟩

theorem ne_link_of_isLink {k : Kind} (h : k.isLink = false) : .parent ≠ k ∧ .children ≠ k := by
  constructor
  · intro heq
    rw [← heq] at h
    cases h
  · intro heq
    rw [← heq] at h
    cases h

theorem quiet_attach {k : Kind} (id : Entity) (v : k.Value) (hk : k.isLink = false) :
    Quiet (attach k id v) := by
  intro s _
  obtain ⟨hparent, hchildren⟩ := ne_link_of_isLink hk
  by_cases hid : s.isValid id
  · rw [attach_run v hid]
    exact ⟨component?_withComponent_of_ne hparent, component?_withComponent_of_ne hchildren⟩
  · rw [attach_run_stale v hid]
    exact ⟨rfl, rfl⟩

theorem quiet_detach {k : Kind} (id : Entity) (hk : k.isLink = false) :
    Quiet (detach k id) := by
  intro s _
  obtain ⟨hparent, hchildren⟩ := ne_link_of_isLink hk
  by_cases hid : s.isValid id
  · rw [detach_run hid]
    exact ⟨component?_withoutComponent_of_ne hparent, component?_withoutComponent_of_ne hchildren⟩
  · rw [detach_run_stale hid]
    exact ⟨rfl, rfl⟩

/-- Only an entity without links may end. -/
theorem quiet_destroy (id : Entity) : Quiet (destroy id) := by
  intro s hs
  rcases destroy_cases hs id with ⟨_, hup, hdown, hrun⟩ | ⟨e, hrun⟩
  · rw [hrun]
    exact ⟨up_ended hs hup, down_ended hs hdown⟩
  · rw [hrun]
    exact ⟨rfl, rfl⟩

/-- A request that keeps the tables sound keeps a linked store, if its links stay a forest. -/
theorem linked_keeps {α : Type} {action : Action α} (hsound : Keeps Sound Sound action)
    (hforest : ∀ s, s.Linked → Forest (left (action s)).up (left (action s)).down) :
    Keeps Linked Linked action := by
  intro s hs
  have hleft := hforest s hs
  cases hrun : action s with
  | ok a t =>
    rw [hrun] at hleft
    exact ⟨hsound.ok hs.sound hrun, hleft⟩
  | error e t =>
    rw [hrun] at hleft
    exact ⟨hsound.error hs.sound hrun, hleft⟩

theorem Quiet.linked {α : Type} {action : Action α} (h : Quiet action)
    (hsound : Keeps Sound Sound action) : Keeps Linked Linked action := by
  refine linked_keeps hsound fun s hs => ?_
  rw [(h s hs.sound).up_eq, (h s hs.sound).down_eq]
  exact hs.forest

/-- Each entity that comes to name a parent is tested against all that lies above this parent, so
no circle closes, also where the request stops half-way. -/
theorem linked_nameParent (parent child : Entity) :
    Keeps Linked Linked (nameParent parent child) := by
  intro s hs
  rcases nameParent_cases s parent child with ⟨hlink, hrun⟩ | ⟨e, hrun⟩
  · rw [hrun]
    refine ⟨hs.sound.withComponent hlink.alive, ?_⟩
    rw [up_withParent hs.sound hlink.alive, down_withParent]
    exact hs.forest.name hlink.top hlink.ne hlink.notAbove
  · rw [hrun]
    exact hs

theorem hasLinks_lengthened {parent : Entity} {added : List Entity} (hs : s.Sound)
    (hparent : s.isValid parent) (halive : ∀ child ∈ added, s.isValid child) :
    HasLinks (Settled.adopt s.up parent added)
      (Function.update s.down parent (Forest.lengthen added (s.down parent)))
      ((s.adopted parent added).lengthened parent added) := by
  have hvalid : (s.adopted parent added).isValid parent := by simpa using hparent
  have hdown : (s.adopted parent added).down = s.down := component?_adopted_of_ne (by decide)
  constructor
  · exact (component?_lengthened_of_ne (by decide)).trans (up_adopted hs halive)
  · rw [down_lengthened (hs.adopted halive) hvalid, hdown]

theorem linked_addChildren (parent : Entity) (added : List Entity) :
    Keeps Linked Linked (addChildren parent added) := by
  have hnames : Keeps Linked Linked (added.forM (nameParent parent)) :=
    Keeps.forM fun child _ => linked_nameParent parent child
  refine linked_keeps (sound_addChildren parent added) fun s hs => ?_
  rcases addChildren_cases hs.sound parent added with
    ⟨e, hrun⟩ | ⟨e, t, hall, hrun⟩ | ⟨hparent, hnodup, hfresh, hall, hrun⟩
  · rw [hrun]
    exact hs.forest
  · rw [hrun]
    exact (hnames.error hs hall).forest
  · have halive : ∀ child ∈ added, s.isValid child := fun child hchild => (hfresh child hchild).1
    have hlinks := hasLinks_lengthened hs.sound hparent halive
    have hforest : Forest (Settled.adopt s.up parent added) s.down := by
      have hadopted := (hnames.ok hs hall).forest
      rwa [up_adopted hs.sound halive, down, component?_adopted_of_ne (by decide)] at hadopted
    have hnamed : ∀ child ∈ added, Settled.adopt s.up parent added child = some parent :=
      fun child hchild => if_pos hchild
    -- What is in the old list named its owner already, so nothing that is added was in it.
    have hnew : ∀ old, s.down parent = some old → ∀ child ∈ added, child ∉ old := by
      intro old hold child hchild hin
      have hup := hs.forest.named parent old hold child hin
      rw [(hfresh child hchild).2] at hup
      cases hup
    rw [hrun, left, hlinks.up_eq, hlinks.down_eq]
    exact hforest.append hnamed hnodup hnew

theorem settled_addChildren {parent : Entity} {added : List Entity} {u : Unit}
    (hs : s.Consistent) (hrun : addChildren parent added s = .ok u t) :
    Settled t.up t.down := by
  rcases addChildren_cases hs.sound parent added with
    ⟨e, hcase⟩ | ⟨e, half, _, hcase⟩ | ⟨hparent, _, hfresh, _, hcase⟩
  · rw [hcase] at hrun
    cases hrun
  · rw [hcase] at hrun
    cases hrun
  · have hlinks := hasLinks_lengthened hs.sound hparent fun child hchild => (hfresh child hchild).1
    rw [hcase] at hrun
    rw [← (EStateM.Result.ok.inj hrun).2, hlinks.up_eq, hlinks.down_eq]
    exact hs.settled.link parent added

/-- An entity that names a parent is unlinked on both sides, also if the parent has ended and the
request is refused for it. -/
theorem removeChild_links (hs : s.Sound) (child : Entity) :
    HasLinks s.up s.down (left (removeChild child s)) ∨
    ∃ parent, s.up child = some parent ∧
      HasLinks (Function.update s.up child none)
        (Function.update s.down parent (Forest.shorten child (s.down parent)))
        (left (removeChild child s)) := by
  by_cases hchild : s.isValid child
  · cases hup : s.up child with
    | none =>
      rw [removeChild_top hchild hup]
      refine Or.inl ⟨?_, down_withoutParent⟩
      rw [left, up_withoutParent hs, ← hup, Function.update_eq_self]
    | some parent =>
      refine Or.inr ⟨parent, rfl, ?_⟩
      by_cases hparent : s.isValid parent
      · rw [removeChild_linked hchild hup hparent]
        exact ⟨up_unlinked hs, down_unlinked hs hparent⟩
      · -- A parent that has ended has no list to be shortened.
        have hnone : s.down parent = none := hs.component?_of_not_isValid _ hparent
        rw [removeChild_parent_stale hchild hup hparent]
        refine ⟨up_withoutParent hs, ?_⟩
        rw [left, down_withoutParent, hnone, Forest.shorten, Option.map_none, Option.filter_none,
          ← hnone, Function.update_eq_self]
  · rw [removeChild_stale hchild]
    exact Or.inl ⟨rfl, rfl⟩

theorem linked_removeChild (child : Entity) : Keeps Linked Linked (removeChild child) := by
  refine linked_keeps (sound_removeChild child) fun s hs => ?_
  rcases removeChild_links hs.sound child with hsame | ⟨parent, hup, hlinks⟩
  · rw [hsame.up_eq, hsame.down_eq]
    exact hs.forest
  · rw [hlinks.up_eq, hlinks.down_eq]
    exact hs.forest.unlink hup

theorem settled_removeChild (hs : s.Consistent) (child : Entity) :
    Settled (left (removeChild child s)).up (left (removeChild child s)).down := by
  rcases removeChild_links hs.sound child with hsame | ⟨parent, _, hlinks⟩
  · rw [hsame.up_eq, hsame.down_eq]
    exact hs.settled
  · rw [hlinks.up_eq, hlinks.down_eq]
    exact hs.settled.unlink child parent

/-- All that is listed is alive, so nothing stops the request once the list is dropped. -/
theorem removeAllChildren_links (hs : s.Linked) (parent : Entity) :
    HasLinks s.up s.down (left (removeAllChildren parent s)) ∨
    ∃ list, s.down parent = some list ∧
      HasLinks (Forest.orphan s.up list) (Function.update s.down parent none)
        (left (removeAllChildren parent s)) := by
  by_cases hparent : s.isValid parent
  · cases hdown : s.down parent with
    | none =>
      rw [removeAllChildren_childless hparent hdown]
      refine Or.inl ⟨up_withoutChildren, ?_⟩
      rw [left, down_withoutChildren hs.sound, ← hdown, Function.update_eq_self]
    | some list =>
      rw [removeAllChildren_run hs.sound hdown fun child => hs.alive_of_mem hdown]
      exact Or.inr ⟨list, rfl, up_cleared hs.sound, down_cleared hs.sound⟩
  · rw [removeAllChildren_stale hparent]
    exact Or.inl ⟨rfl, rfl⟩

theorem linked_removeAllChildren (parent : Entity) :
    Keeps Linked Linked (removeAllChildren parent) := by
  refine linked_keeps (sound_removeAllChildren parent) fun s hs => ?_
  rcases removeAllChildren_links hs parent with hsame | ⟨list, hlist, hlinks⟩
  · rw [hsame.up_eq, hsame.down_eq]
    exact hs.forest
  · rw [hlinks.up_eq, hlinks.down_eq]
    exact hs.forest.clear hlist

theorem settled_removeAllChildren (hs : s.Consistent) (parent : Entity) :
    Settled (left (removeAllChildren parent s)).up (left (removeAllChildren parent s)).down := by
  rcases removeAllChildren_links hs.toLinked parent with hsame | ⟨list, hlist, hlinks⟩
  · rw [hsame.up_eq, hsame.down_eq]
    exact hs.settled
  · rw [hlinks.up_eq, hlinks.down_eq]
    exact hs.settled.clear hlist

theorem stable_linked : Stable Linked Linked where
  weaken _ hs := hs
  create := quiet_create.linked sound_create
  attach k id v hk := (quiet_attach id v hk).linked (sound_attach k id v)
  detach k id hk := (quiet_detach id hk).linked (sound_detach k id)
  destroy id := (quiet_destroy id).linked (sound_destroy id)
  addChildren := linked_addChildren
  removeChild := linked_removeChild
  removeAllChildren := linked_removeAllChildren
  uniques s uniques hs := ⟨stable_sound.uniques s uniques hs.sound, hs.forest⟩

theorem linked_reached (requests : List Request) : (Ast.reached requests).store.Linked :=
  stable_linked.reached linked_empty requests

/-- Of a refused request nothing is asked here: it may leave entities that are not listed. -/
theorem consistent_keeps {α : Type} {action : Action α} (hlinked : Keeps Linked Linked action)
    (hsettled : ∀ s t a, s.Consistent → action s = .ok a t → Settled t.up t.down) :
    Keeps Consistent (fun _ => True) action := by
  intro s hs
  cases hrun : action s with
  | ok a t => exact ⟨hlinked.ok hs.toLinked hrun, hsettled s t a hs hrun⟩
  | error e t => trivial

theorem consistent_of_left {α : Type} {action : Action α} (hlinked : Keeps Linked Linked action)
    (hsettled : ∀ s, s.Consistent → Settled (left (action s)).up (left (action s)).down) :
    Keeps Consistent (fun _ => True) action := by
  refine consistent_keeps hlinked fun s t a hs hrun => ?_
  have hleft := hsettled s hs
  rw [hrun] at hleft
  exact hleft

theorem Quiet.settled {α : Type} {action : Action α} (h : Quiet action) (hs : s.Consistent) :
    Settled (left (action s)).up (left (action s)).down := by
  rw [(h s hs.sound).up_eq, (h s hs.sound).down_eq]
  exact hs.settled

theorem stable_consistent : Stable Consistent fun _ => True where
  weaken _ _ := trivial
  create := consistent_of_left stable_linked.create fun _ => quiet_create.settled
  attach k id v hk :=
    consistent_of_left (stable_linked.attach k id v hk) fun _ => (quiet_attach id v hk).settled
  detach k id hk :=
    consistent_of_left (stable_linked.detach k id hk) fun _ => (quiet_detach id hk).settled
  destroy id := consistent_of_left (stable_linked.destroy id) fun _ => (quiet_destroy id).settled
  addChildren parent added :=
    consistent_keeps (linked_addChildren parent added) fun _ _ _ => settled_addChildren
  removeChild child :=
    consistent_of_left (linked_removeChild child) fun _ hs => settled_removeChild hs child
  removeAllChildren parent :=
    consistent_of_left (linked_removeAllChildren parent) fun _ hs =>
      settled_removeAllChildren hs parent
  uniques s uniques hs := ⟨stable_linked.uniques s uniques hs.toLinked, hs.settled⟩

theorem consistent_carriedOut {requests : List Request} (h : Ast.carriedOut requests = true) :
    (Ast.reached requests).store.Consistent :=
  stable_consistent.carriedOut consistent_empty h

/-- The children of an entity, none if it has no list. -/
def childList (s : Store) (id : Entity) : List Entity := (s.down id).getD []

theorem children_of_isValid {id : Entity} (h : s.isValid id) :
    s.children id = .ok (s.childList id) := by
  have hget : s.get? .children id = .ok (s.down id) := get?_of_isValid h
  simp [children, hget, childList, bind, Except.bind, pure, Except.pure]

theorem children_eq_ok {id : Entity} {list : List Entity} :
    s.children id = .ok list ↔ s.isValid id ∧ s.childList id = list := by
  by_cases hid : s.isValid id
  · rw [children_of_isValid hid, Except.ok.injEq, and_iff_right hid]
  · simp [children, get?_of_not_isValid hid, hid, bind, Except.bind]

/-- An entity without children has no list. -/
theorem Linked.down_eq_none (h : s.Linked) {id : Entity} (hnil : s.childList id = []) :
    s.down id = none := by
  cases hlist : s.down id with
  | none => rfl
  | some list =>
    rw [childList, hlist] at hnil
    exact absurd hnil (h.forest.nonempty id list hlist)

theorem Linked.nodup_childList (h : s.Linked) (id : Entity) : (s.childList id).Nodup := by
  unfold childList
  cases hlist : s.down id with
  | none => exact List.nodup_nil
  | some list => exact h.forest.nodup id list hlist

theorem Linked.up_of_mem_childList (h : s.Linked) {id child : Entity}
    (hchild : child ∈ s.childList id) : s.up child = some id := by
  unfold childList at hchild
  cases hlist : s.down id with
  | none => simp [hlist] at hchild
  | some list =>
    rw [hlist] at hchild
    exact h.forest.named id list hlist child hchild

theorem Consistent.mem_childList (h : s.Consistent) {id child : Entity} :
    child ∈ s.childList id ↔ s.up child = some id := by
  constructor
  · exact h.up_of_mem_childList
  · intro hup
    obtain ⟨list, hlist, hin⟩ := h.settled child id hup
    rw [childList, hlist]
    exact hin

theorem Consistent.isValid_parent (h : s.Consistent) {parent child : Entity}
    (hup : s.up child = some parent) : s.isValid parent := by
  obtain ⟨list, hlist, _⟩ := h.settled child parent hup
  exact h.sound.isValid_of_down hlist

/-- A store that some run leaves, refused requests included. -/
def Reachable (s : Store) : Prop := ∃ requests, s = (Ast.reached requests).store

theorem Reachable.linked (h : s.Reachable) : s.Linked := by
  obtain ⟨requests, rfl⟩ := h
  exact linked_reached requests

/-- No link names an entity that has ended. -/
structure LinksAlive (s : Store) : Prop where
  children : ∀ parent list, s.component? .children parent = some list →
    ∀ child ∈ list, s.isValid child
  parent : ∀ child parent, s.component? .parent child = some parent → s.isValid parent

/-- A linked store in which every parent that is named is alive. -/
structure Anchored (s : Store) : Prop extends Linked s where
  alive : ∀ child parent, s.up child = some parent → s.isValid parent

theorem Reachable.anchored (h : s.Reachable) (hlinks : s.LinksAlive) : s.Anchored :=
  ⟨h.linked, hlinks.parent⟩

theorem Consistent.anchored (h : s.Consistent) : s.Anchored :=
  ⟨h.toLinked, fun _ _ => h.isValid_parent⟩

theorem Consistent.linksAlive (h : s.Consistent) : s.LinksAlive :=
  ⟨fun _ _ hlist _ hchild => h.alive_of_mem hlist hchild, fun _ _ => h.isValid_parent⟩

/-- After a run in which nothing is refused, an entity is listed by a parent exactly if it names
it, no list repeats an entity or is empty, and links lead to living entities only. -/
theorem links_agree (requests : List Request) (h : Ast.carriedOut requests = true) :
    (∀ parent, (Ast.reached requests).store.isValid parent →
      ∃ list, (Ast.reached requests).store.children parent = .ok list ∧ list.Nodup ∧
        ∀ child, (Ast.reached requests).store.isValid child →
          (child ∈ list ↔ (Ast.reached requests).store.parent? child = .ok (some parent))) ∧
    (∀ parent list, (Ast.reached requests).store.component? .children parent = some list →
      list ≠ [] ∧ list.Nodup ∧ ∀ child ∈ list, (Ast.reached requests).store.isValid child) ∧
    ∀ child parent, (Ast.reached requests).store.component? .parent child = some parent →
      (Ast.reached requests).store.isValid parent := by
  have hlinks := consistent_carriedOut h
  refine ⟨?_, ?_, ?_⟩
  · intro parent hparent
    refine ⟨_, children_of_isValid hparent, hlinks.nodup_childList parent, ?_⟩
    intro child hchild
    rw [hlinks.mem_childList, parent?_of_isValid hchild, Except.ok.injEq]
  · intro parent list hlist
    exact ⟨hlinks.forest.nonempty parent list hlist, hlinks.forest.nodup parent list hlist,
      fun child => hlinks.alive_of_mem hlist⟩
  · intro child parent hup
    exact hlinks.isValid_parent hup

/-- A run in which entities are moved, a subtree ends and its slots are used again. -/
def reuseRun : List Request :=
  [.create, .create, .create, .create, .insert .identifier ⟨1, 0⟩ "Unit",
    .edit (.addChildren ⟨0, 0⟩ [⟨1, 0⟩, ⟨2, 0⟩]), .addChild ⟨2, 0⟩ ⟨3, 0⟩,
    .edit (.transferChildren [⟨1, 0⟩] ⟨3, 0⟩), .edit (.destroySubtree ⟨3, 0⟩), .create,
    .addChild ⟨2, 0⟩ ⟨3, 1⟩]

theorem links_agree_after_reuse :
    Ast.carriedOut reuseRun = true ∧
    (Ast.reached reuseRun).store.parent? ⟨3, 1⟩ = .ok (some ⟨2, 0⟩) ∧
    ∃ list, (Ast.reached reuseRun).store.children ⟨2, 0⟩ = .ok list ∧ list.Nodup ∧
      ∀ child, (Ast.reached reuseRun).store.isValid child →
        (child ∈ list ↔ (Ast.reached reuseRun).store.parent? child = .ok (some ⟨2, 0⟩)) := by
  have hrun : Ast.carriedOut reuseRun = true := by decide +kernel
  have hparent : (Ast.reached reuseRun).store.isValid ⟨2, 0⟩ = true := by decide +kernel
  exact ⟨hrun, rfl, (links_agree reuseRun hrun).1 ⟨2, 0⟩ hparent⟩

end ModuleCompiler.Store
