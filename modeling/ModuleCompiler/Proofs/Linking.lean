import ModuleCompiler.Proofs.Allocation
import ModuleCompiler.Proofs.Traversal

/-!
Linking and unlinking several entities at once. Every outcome of a request to link is given, with
the entity at which it is refused and the reason, in terms of the links there were before. What a
refused request leaves behind is the same store but for the parents that the entities before the
refused one name, and to unlink just these takes it back.
-/

namespace ModuleCompiler.Store

variable {s t u : Store} {id child parent : Entity}

/-- The store `t` has the entities of `s`, and differs from it in links at most. -/
structure LinksOnly (s t : Store) : Prop where
  slots : SameSlots s t
  uniques : t.uniques = s.uniques
  components : ∀ k, k.isLink = false → t.component? k = s.component? k

namespace LinksOnly

theorem refl (s : Store) : LinksOnly s s := ⟨SameSlots.refl s, rfl, fun _ _ => rfl⟩

theorem trans (h : LinksOnly s t) (h' : LinksOnly t u) : LinksOnly s u where
  slots := ⟨h'.slots.slots.trans h.slots.slots, h'.slots.free.trans h.slots.free,
    h'.slots.live.trans h.slots.live⟩
  uniques := h'.uniques.trans h.uniques
  components k hk := (h'.components k hk).trans (h.components k hk)

theorem isValid_eq (h : LinksOnly s t) (id : Entity) : t.isValid id = s.isValid id := by
  simp only [isValid, h.slots.slots]

end LinksOnly

theorem ne_of_isLink {j k : Kind} (hj : j.isLink = false) (hk : k.isLink = true) : j ≠ k := by
  rintro rfl
  rw [hj] at hk
  cases hk

theorem pointwise_linksOnly (s : Store) : PointwiseLinks (LinksOnly s) := by
  constructor
  · intro k id v hk t ht
    by_cases hid : t.isValid id
    · rw [attach_run v hid]
      refine ⟨⟨ht.slots.slots, ht.slots.free, ht.slots.live⟩, ht.uniques, fun j hj => ?_⟩
      rw [component?_withComponent_of_ne (ne_of_isLink hj hk), ht.components j hj]
    · rw [attach_run_stale v hid]
      exact ht
  · intro k id hk t ht
    by_cases hid : t.isValid id
    · have huniques : (t.withoutComponent k id).uniques = t.uniques := by
        unfold withoutComponent
        split <;> rfl
      rw [detach_run hid]
      refine ⟨ht.slots.withoutComponent k id, huniques.trans ht.uniques, fun j hj => ?_⟩
      rw [component?_withoutComponent_of_ne (ne_of_isLink hj hk), ht.components j hj]
    · rw [detach_run_stale hid]
      exact ht

/-- The store `t` is `s` with some entities unlinked from the parents they name. -/
structure Freed (s : Store) (removed : List Entity) (t : Store) : Prop where
  linksOnly : LinksOnly s t
  links : HasLinks (Forest.orphan s.up removed) (Forest.prune s.down removed) t

theorem Freed.cons {rest : List Entity} (h : Freed s [child] t) (h' : Freed t rest u) :
    Freed s (child :: rest) u := by
  refine ⟨h.linksOnly.trans h'.linksOnly, ?_, ?_⟩
  · rw [h'.links.up_eq, h.links.up_eq, Forest.orphan_cons]
  · rw [h'.links.down_eq, h.links.down_eq, Forest.prune_cons]

namespace Anchored

/-- A living entity is unlinked on both sides, and an entity that names no parent is in no list. -/
theorem removeChild_links (h : s.Anchored) (hchild : s.isValid child) :
    ∃ answer t, removeChild child s = .ok answer t ∧
      HasLinks (Forest.orphan s.up [child]) (Forest.prune s.down [child]) t := by
  rw [Forest.orphan_singleton]
  cases hup : s.up child with
  | none =>
    have hdown : Forest.prune s.down [child] = s.down :=
      h.forest.prune_of_top fun x hx => List.mem_singleton.mp hx ▸ hup
    rw [hdown]
    exact ⟨_, _, removeChild_top hchild hup, up_withoutParent h.sound, down_withoutParent⟩
  | some parent =>
    have hparent := h.alive child parent hup
    rw [h.forest.prune_singleton hup]
    exact ⟨_, _, removeChild_linked hchild hup hparent, up_unlinked h.sound,
      down_unlinked h.sound hparent⟩

theorem removeChild_run (h : s.Anchored) (hchild : s.isValid child) :
    ∃ answer t, removeChild child s = .ok answer t ∧ t.Anchored ∧ Freed s [child] t := by
  obtain ⟨answer, t, hrun, hlinks⟩ := h.removeChild_links hchild
  have hsame : LinksOnly s t := ((pointwise_linksOnly s).removeChild child).ok (.refl s) hrun
  refine ⟨answer, t, hrun, ⟨(linked_removeChild child).ok h.toLinked hrun, ?_⟩, hsame, hlinks⟩
  intro x owner hup
  rw [hlinks.up_eq] at hup
  rw [hsame.isValid_eq]
  exact h.alive x owner (Forest.orphan_fewer [child] x owner hup)

theorem removeChildren_run (h : s.Anchored) {removed : List Entity}
    (halive : ∀ id ∈ removed, s.isValid id) :
    ∃ t, removeChildren removed s = .ok () t ∧ t.Anchored ∧ Freed s removed t := by
  induction removed generalizing s with
  | nil =>
    refine ⟨s, rfl, h, .refl s, Forest.orphan_nil.symm, (h.forest.prune_of_top ?_).symm⟩
    intro x hx
    cases hx
  | cons child rest ih =>
    obtain ⟨answer, t, hfirst, ht, hfreed⟩ := h.removeChild_run (halive child (by simp))
    obtain ⟨u, hrest, hu, hfreed'⟩ := ih ht fun id hid => by
      rw [hfreed.linksOnly.isValid_eq]
      exact halive id (by simp [hid])
    exact ⟨u, (bind_run_ok (discard_run_ok hfirst)).trans hrest, hu, hfreed.cons hfreed'⟩

end Anchored

/-- Only living entities are unlinked. -/
theorem isValid_of_removeChildren {removed : List Entity} {a : Unit}
    (h : removeChildren removed s = .ok a t) : ∀ id ∈ removed, s.isValid id := by
  induction removed generalizing s with
  | nil =>
    intro id hid
    cases hid
  | cons child rest ih =>
    obtain ⟨_, next, hfirst, hrest⟩ := bind_eq_ok h
    obtain ⟨answer, hfirst⟩ := discard_eq_ok hfirst
    have hsame : LinksOnly s next := ((pointwise_linksOnly s).removeChild child).ok (.refl s) hfirst
    intro id hid
    rcases List.mem_cons.mp hid with rfl | hid
    · by_contra hstale
      rw [removeChild_stale hstale] at hfirst
      cases hfirst
    · rw [← hsame.isValid_eq]
      exact ih hrest id hid

/-- Why an entity cannot be linked under `parent` once some others were let name it. An entity that
lies above `parent` or is `parent` itself is not asked for the parent it names. -/
inductive Refusal (s : Store) (parent : Entity) (earlier : List Entity) (child : Entity) :
    Fault → Prop
  | self (h : child = parent) : Refusal s parent earlier child (.ownParent child)
  | below (h : Above s.up parent child) :
      Refusal s parent earlier child (.ownDescendant child parent)
  | ended (h : ¬ s.isValid child) : Refusal s parent earlier child (.stale child)
  | repeated (h : child ∈ earlier) : Refusal s parent earlier child (.alreadyLinked child parent)
  | linked {old : Entity} (hne : child ≠ parent) (hbelow : ¬ Above s.up parent child)
      (h : s.up child = some old) : Refusal s parent earlier child (.alreadyLinked child old)

theorem Linkable.not_refusal (h : s.Linkable parent child) {earlier : List Entity}
    (hout : child ∉ earlier) {e : Fault} : ¬ s.Refusal parent earlier child e := by
  intro hrefusal
  cases hrefusal with
  | self heq => exact h.ne heq
  | below habove => exact h.notAbove habove
  | ended hended => exact hended h.alive
  | repeated hin => exact hout hin
  | linked _ _ hup =>
    rw [h.top] at hup
    cases hup

namespace Anchored

/-- The way up from a living entity finds another exactly if that one lies above. -/
theorem findAncestor_cases (h : s.Anchored) (hid : s.isValid id) (x : Entity) :
    (Above s.up id x ∧ (s.findAncestor id fun ancestor => .ok (ancestor = x)) = .ok (some x)) ∨
    (¬ Above s.up id x ∧ (s.findAncestor id fun ancestor => .ok (ancestor = x)) = .ok none) := by
  have hascent := h.ascent_findAncestor id fun ancestor => .ok (decide (ancestor = x))
  obtain ⟨found, hfound⟩ := h.answer_of_ascent hascent hid fun y _ => ⟨_, rfl⟩
  rw [hfound]
  cases found with
  | some ancestor =>
    obtain rfl : ancestor = x := of_decide_eq_true (Except.ok.inj (hascent.test_of_found hfound))
    exact Or.inl ⟨hascent.above_of_found hfound, rfl⟩
  | none =>
    refine Or.inr ⟨fun habove => ?_, rfl⟩
    have htested := climb_eq_none hfound habove
    simp at htested

theorem checkLink_cases (h : s.Anchored) (hparent : s.isValid parent) (child : Entity) :
    (s.Linkable parent child ∧ s.checkLink parent child = .ok ()) ∨
    ∃ e, s.Refusal parent [] child e ∧ s.checkLink parent child = .error e := by
  unfold checkLink
  by_cases hne : child = parent
  · exact Or.inr ⟨_, .self hne, by rw [if_pos hne]; rfl⟩
  rw [if_neg hne]
  rcases h.findAncestor_cases hparent child with ⟨habove, hfind⟩ | ⟨habove, hfind⟩
  · exact Or.inr ⟨_, .below habove, by rw [hfind]; rfl⟩
  rw [hfind]
  by_cases hchild : s.isValid child
  · rw [parent?_of_isValid hchild]
    cases hup : s.up child with
    | none => exact Or.inl ⟨⟨hne, hchild, hup, habove⟩, rfl⟩
    | some old => exact Or.inr ⟨_, .linked hne habove hup, rfl⟩
  · rw [parent?_of_not_isValid hchild]
    exact Or.inr ⟨_, .ended hchild, rfl⟩

theorem nameParent_outcome (h : s.Anchored) (hparent : s.isValid parent) (child : Entity) :
    (s.Linkable parent child ∧
      nameParent parent child s = .ok () (s.withComponent .parent child parent)) ∨
    ∃ e, s.Refusal parent [] child e ∧ nameParent parent child s = .error e s := by
  rcases h.checkLink_cases hparent child with ⟨hlink, hcheck⟩ | ⟨e, hrefusal, hcheck⟩
  · refine Or.inl ⟨hlink, (bind_run_ok (read_run hcheck)).trans ?_⟩
    exact attach_run (k := .parent) parent hlink.alive
  · exact Or.inr ⟨e, hrefusal, bind_run_error (read_run_refused hcheck)⟩

end Anchored

section Step

variable (h : s.Anchored) (hparent : s.isValid parent) (hlink : s.Linkable parent child)
include h hlink

include hparent in
theorem Anchored.withParent : (s.withComponent .parent child parent).Anchored := by
  refine ⟨⟨h.sound.withComponent hlink.alive, ?_⟩, ?_⟩
  · rw [up_withParent h.sound hlink.alive, down_withParent]
    exact h.forest.name hlink.top hlink.ne hlink.notAbove
  · intro x owner hup
    rw [up_withParent h.sound hlink.alive, Function.update_apply] at hup
    split at hup
    · exact Option.some.inj hup ▸ hparent
    · exact h.alive x owner hup

theorem above_withParent_iff {x : Entity} :
    Above (s.withComponent .parent child parent).up parent x ↔ Above s.up parent x := by
  rw [up_withParent h.sound hlink.alive]
  exact above_link_iff hlink.top hlink.ne hlink.notAbove

/-- An entity that names a parent now cannot be linked again; for the others nothing changes. -/
theorem linkable_withParent_iff {x : Entity} :
    (s.withComponent .parent child parent).Linkable parent x ↔
      s.Linkable parent x ∧ x ≠ child := by
  have hup : (s.withComponent .parent child parent).up x =
      if x = child then some parent else s.up x := by
    rw [up_withParent h.sound hlink.alive, Function.update_apply]
  constructor
  · intro hx
    have htop := hx.top
    rw [hup] at htop
    split at htop
    · cases htop
    · rename_i hne
      exact ⟨⟨hx.ne, hx.alive, htop, fun habove =>
        hx.notAbove ((above_withParent_iff h hlink).mpr habove)⟩, hne⟩
  · rintro ⟨hx, hne⟩
    refine ⟨hx.ne, hx.alive, ?_, fun habove => ?_⟩
    · rw [hup, if_neg hne]
      exact hx.top
    · exact hx.notAbove ((above_withParent_iff h hlink).mp habove)

theorem Refusal.before {earlier : List Entity} {x : Entity} {e : Fault}
    (hx : (s.withComponent .parent child parent).Refusal parent earlier x e) :
    s.Refusal parent (child :: earlier) x e := by
  cases hx with
  | self heq => exact .self heq
  | below habove => exact .below ((above_withParent_iff h hlink).mp habove)
  | ended hended => exact .ended hended
  | repeated hin => exact .repeated (List.mem_cons_of_mem child hin)
  | linked hne hbelow hup =>
    rw [up_withParent h.sound hlink.alive, Function.update_apply] at hup
    split at hup
    · -- The parent it names is the one it was just given.
      rename_i heq
      obtain rfl := Option.some.inj hup
      exact .repeated (by simp [heq])
    · exact .linked hne (fun habove => hbelow ((above_withParent_iff h hlink).mpr habove)) hup

end Step

/-- The entities go through one by one up to the first that is refused. The outcome is told by the
links there were before the first. -/
theorem Anchored.nameAll_cases (h : s.Anchored) (hparent : s.isValid parent)
    (added : List Entity) :
    (added.Nodup ∧ (∀ child ∈ added, s.Linkable parent child) ∧
      added.forM (nameParent parent) s = .ok () (s.adopted parent added)) ∨
    ∃ earlier child rest e, added = earlier ++ child :: rest ∧
      (∀ x ∈ earlier, s.Linkable parent x) ∧ s.Refusal parent earlier child e ∧
      earlier.forM (nameParent parent) s = .ok () (s.adopted parent earlier) ∧
      nameParent parent child (s.adopted parent earlier) = .error e (s.adopted parent earlier) := by
  induction added generalizing s with
  | nil => exact Or.inl ⟨List.nodup_nil, by simp, rfl⟩
  | cons child rest ih =>
    rcases h.nameParent_outcome hparent child with ⟨hlink, hfirst⟩ | ⟨e, hrefusal, hfirst⟩
    · -- The rest goes on from a store with one more link, so its outcome is taken back over it.
      have hstep := fun {x} => linkable_withParent_iff h hlink (x := x)
      rcases ih (h.withParent hparent hlink) hparent with
        ⟨hnodup, hall, hrest⟩ | ⟨earlier, x, later, e, rfl, hall, hrefusal, hearlier, hstop⟩
      · refine Or.inl ⟨List.nodup_cons.mpr ⟨?_, hnodup⟩, ?_, (bind_run_ok hfirst).trans hrest⟩
        · exact fun hin => (hstep.mp (hall child hin)).2 rfl
        · intro x hx
          rcases List.mem_cons.mp hx with rfl | hx
          · exact hlink
          · exact (hstep.mp (hall x hx)).1
      · refine Or.inr ⟨child :: earlier, x, later, e, rfl, ?_, hrefusal.before h hlink,
          (bind_run_ok hfirst).trans hearlier, hstop⟩
        intro y hy
        rcases List.mem_cons.mp hy with rfl | hy
        · exact hlink
        · exact (hstep.mp (hall y hy)).1
    · exact Or.inr ⟨[], child, rest, e, rfl, by simp, hrefusal, rfl, hfirst⟩

/-- All go through, or the first that is refused ends the request. -/
theorem Anchored.addChildren_outcome (h : s.Anchored) (hparent : s.isValid parent)
    (added : List Entity) :
    (added.Nodup ∧ (∀ child ∈ added, s.Linkable parent child) ∧
      addChildren parent added s = .ok () ((s.adopted parent added).lengthened parent added)) ∨
    ∃ earlier child rest e, added = earlier ++ child :: rest ∧
      (∀ x ∈ earlier, s.Linkable parent x) ∧ s.Refusal parent earlier child e ∧
      earlier.forM (nameParent parent) s = .ok () (s.adopted parent earlier) ∧
      nameParent parent child (s.adopted parent earlier) = .error e (s.adopted parent earlier) ∧
      addChildren parent added s = .error e (s.adopted parent earlier) := by
  rw [addChildren_run added hparent]
  rcases h.nameAll_cases hparent added with
    ⟨hnodup, hall, hrun⟩ | ⟨earlier, child, rest, e, rfl, hall, hrefusal, hearlier, hstop⟩
  · have hvalid : (s.adopted parent added).isValid parent := by simpa using hparent
    refine Or.inl ⟨hnodup, hall, ?_⟩
    rw [bind_run_ok hrun, appendChildren_run hvalid]
  · refine Or.inr ⟨earlier, child, rest, e, rfl, hall, hrefusal, hearlier, hstop, ?_⟩
    apply bind_run_error
    rw [forM_append_run hearlier]
    exact bind_run_error hstop

/-- The store `t` is `s` but for some entities that name `parent` without being listed. -/
structure HalfLinked (s : Store) (parent : Entity) (half : List Entity) (t : Store) : Prop where
  linksOnly : LinksOnly s t
  lists : t.component? .children = s.component? .children
  named : ∀ id ∈ half, t.component? .parent id = some parent
  others : ∀ id, id ∉ half → t.component? .parent id = s.component? .parent id

/-- The stores have the same entities, and the same components on each of them. -/
structure SameContents (s t : Store) : Prop where
  slots : SameSlots s t
  uniques : t.uniques = s.uniques
  components : ∀ k, t.component? k = s.component? k

theorem eq_link_of_isLink {k : Kind} (h : k.isLink = true) : k = .parent ∨ k = .children := by
  cases k <;> simp_all [Kind.isLink]

theorem LinksOnly.sameContents (h : LinksOnly s t) (hlinks : HasLinks s.up s.down t) :
    SameContents s t := by
  refine ⟨h.slots, h.uniques, fun k => ?_⟩
  cases hk : k.isLink with
  | false => exact h.components k hk
  | true =>
    rcases eq_link_of_isLink hk with rfl | rfl
    · exact hlinks.up_eq
    · exact hlinks.down_eq

theorem up_adopted_eq (h : s.Sound) {half : List Entity}
    (hhalf : ∀ x ∈ half, s.Linkable parent x) :
    (s.adopted parent half).up = Settled.adopt s.up parent half :=
  up_adopted h fun x hx => (hhalf x hx).alive

theorem Anchored.adopted (h : s.Anchored) (hparent : s.isValid parent) {half : List Entity}
    (hhalf : ∀ x ∈ half, s.Linkable parent x)
    (hlinked : (s.adopted parent half).Linked) : (s.adopted parent half).Anchored := by
  refine ⟨hlinked, fun child owner hup => ?_⟩
  rw [isValid_adopted]
  rw [up_adopted_eq h.sound hhalf] at hup
  unfold Settled.adopt at hup
  split at hup
  · exact Option.some.inj hup ▸ hparent
  · exact h.alive child owner hup

/-- Entities that named no parent before they were let name one are in no list, so to unlink them
takes back what was done. -/
theorem Freed.of_adopted (h : s.Linked) {half : List Entity}
    (hhalf : ∀ x ∈ half, s.Linkable parent x) (hfreed : Freed (s.adopted parent half) half u) :
    HasLinks s.up s.down u := by
  have hdown : (s.adopted parent half).down = s.down := component?_adopted_of_ne (by decide)
  constructor
  · rw [hfreed.links.up_eq, up_adopted_eq h.sound hhalf]
    funext x
    by_cases hx : x ∈ half
    · simp [Forest.orphan, hx, (hhalf x hx).top]
    · simp [Forest.orphan, Settled.adopt, hx]
  · rw [hfreed.links.down_eq, hdown]
    exact h.forest.prune_of_top fun x hx => (hhalf x hx).top

/-- A request to link that is refused in a store with agreeing links stops at one of the entities,
for a reason that the links there were before give. It leaves the entities before that one naming
the parent, and changes nothing else; and to unlink exactly these entities is carried out and takes
everything back. -/
theorem failed_link_undone (hs : s.Consistent) (hparent : s.isValid parent) {added : List Entity}
    {e : Fault} (hrun : addChildren parent added s = .error e t) :
    ∃ k child, added[k]? = some child ∧ s.Refusal parent (added.take k) child e ∧
      (added.take k).forM (nameParent parent) s = .ok () t ∧
      nameParent parent child t = .error e t ∧
      HalfLinked s parent (added.take k) t ∧
      ∃ u, removeChildren (added.take k) t = .ok () u ∧ SameContents s u := by
  have h := hs.anchored
  have hsame : LinksOnly s t :=
    ((pointwise_linksOnly s).addChildren parent added).error (.refl s) hrun
  have hlinked : t.Linked := (linked_addChildren parent added).error h.toLinked hrun
  rcases h.addChildren_outcome hparent added with
    ⟨-, -, hdone⟩ | ⟨half, child, rest, e', rfl, hhalf, hrefusal, hhalfRun, hstop, hfailed⟩
  · rw [hdone] at hrun
    cases hrun
  rw [hfailed] at hrun
  obtain ⟨rfl, rfl⟩ := EStateM.Result.error.inj hrun
  have htake : (half ++ child :: rest).take half.length = half := List.take_left
  refine ⟨half.length, child, by simp, ?_⟩
  rw [htake]
  obtain ⟨u, hundo, -, hfreed⟩ := (h.adopted hparent hhalf hlinked).removeChildren_run
    fun x hx => by simpa using (hhalf x hx).alive
  have hup : ∀ x, (s.adopted parent half).component? .parent x =
      if x ∈ half then some parent else s.component? .parent x :=
    fun x => congrFun (up_adopted_eq h.sound hhalf) x
  refine ⟨hrefusal, hhalfRun, hstop, ⟨hsame, component?_adopted_of_ne (by decide), ?_, ?_⟩, u,
    hundo, (hsame.trans hfreed.linksOnly).sameContents (hfreed.of_adopted h.toLinked hhalf)⟩
  · intro x hx
    rw [hup, if_pos hx]
  · intro x hx
    rw [hup, if_neg hx]

/-- Entities of which one has a parent and a child, with two that have neither. -/
def lineageRun : List Request :=
  [.create, .create, .create, .create, .create, .addChild ⟨0, 0⟩ ⟨1, 0⟩, .addChild ⟨1, 0⟩ ⟨2, 0⟩]

/-- Two entities come to name the one in the middle before its parent is refused. -/
theorem failed_link_undone_lineage :
    Ast.carriedOut lineageRun = true ∧ (Ast.reached lineageRun).store.isValid ⟨1, 0⟩ = true ∧
    ∃ t, addChildren ⟨1, 0⟩ [⟨3, 0⟩, ⟨4, 0⟩, ⟨0, 0⟩, ⟨2, 0⟩] (Ast.reached lineageRun).store =
        .error (.ownDescendant ⟨0, 0⟩ ⟨1, 0⟩) t ∧
      ∃ k, HalfLinked (Ast.reached lineageRun).store ⟨1, 0⟩
          ([⟨3, 0⟩, ⟨4, 0⟩, ⟨0, 0⟩, ⟨2, 0⟩].take k) t ∧
        ∃ u, removeChildren ([⟨3, 0⟩, ⟨4, 0⟩, ⟨0, 0⟩, ⟨2, 0⟩].take k) t = .ok () u ∧
          SameContents (Ast.reached lineageRun).store u := by
  have hrun : Ast.carriedOut lineageRun = true := by decide +kernel
  have hparent : (Ast.reached lineageRun).store.isValid ⟨1, 0⟩ = true := by decide +kernel
  have hreply : reply (addChildren ⟨1, 0⟩ [⟨3, 0⟩, ⟨4, 0⟩, ⟨0, 0⟩, ⟨2, 0⟩]
      (Ast.reached lineageRun).store) = .error (.ownDescendant ⟨0, 0⟩ ⟨1, 0⟩) := by
    decide +kernel
  cases hadd : addChildren ⟨1, 0⟩ [⟨3, 0⟩, ⟨4, 0⟩, ⟨0, 0⟩, ⟨2, 0⟩]
      (Ast.reached lineageRun).store with
  | ok a t =>
    rw [hadd] at hreply
    cases hreply
  | error e t =>
    rw [hadd] at hreply
    obtain rfl := Except.error.inj hreply
    obtain ⟨k, child, -, -, -, -, hhalf, hundone⟩ :=
      failed_link_undone (consistent_carriedOut hrun) hparent hadd
    exact ⟨hrun, hparent, t, rfl, k, hhalf, hundone⟩

end ModuleCompiler.Store
