import ModuleCompiler.Proofs.Forest
import ModuleCompiler.Proofs.Request
import ModuleCompiler.Proofs.Store

/-!
What the requests on links do to a sound store. Each is given with every outcome it can have: the
fault, or the store it leaves, built from single components put on or taken off. The links of such
a store are read off as functions.
-/

namespace ModuleCompiler.Store

variable {s : Store}

def up (s : Store) : Up := s.component? .parent

def down (s : Store) : Down := s.component? .children

theorem attach_run {k : Kind} {id : Entity} (v : k.Value) (h : s.isValid id) :
    attach k id v s = .ok () (s.withComponent k id v) := by
  simp [attach, checkValid_of_isValid h]

theorem attach_run_stale {k : Kind} {id : Entity} (v : k.Value) (h : ¬ s.isValid id) :
    attach k id v s = .error (.stale id) s := by
  simp [attach, checkValid_of_not_isValid h]

theorem detach_run {k : Kind} {id : Entity} (h : s.isValid id) :
    detach k id s = .ok (s.component? k id) (s.withoutComponent k id) := by
  simp [detach, checkValid_of_isValid h]

theorem detach_run_stale {k : Kind} {id : Entity} (h : ¬ s.isValid id) :
    detach k id s = .error (.stale id) s := by
  simp [detach, checkValid_of_not_isValid h]

theorem read_run {α : Type} {f : Store → Except Fault α} {a : α} (h : f s = .ok a) :
    Action.ofRead f s = .ok a s := by
  simp [Action.ofRead, h]

theorem read_run_refused {α : Type} {f : Store → Except Fault α} {e : Fault}
    (h : f s = .error e) : Action.ofRead f s = .error e s := by
  simp [Action.ofRead, h]

theorem up_withParent (h : s.Sound) {child parent : Entity} (hchild : s.isValid child) :
    (s.withComponent .parent child parent).up = Function.update s.up child (some parent) :=
  h.component?_withComponent hchild

theorem down_withParent {child parent : Entity} :
    (s.withComponent .parent child parent).down = s.down :=
  component?_withComponent_of_ne (by decide)

theorem up_withoutParent (h : s.Sound) {child : Entity} :
    (s.withoutComponent .parent child).up = Function.update s.up child none :=
  h.component?_withoutComponent

theorem down_withoutParent {child : Entity} :
    (s.withoutComponent .parent child).down = s.down :=
  component?_withoutComponent_of_ne (by decide)

theorem down_withChildren (h : s.Sound) {parent : Entity} {list : List Entity}
    (hparent : s.isValid parent) :
    (s.withComponent .children parent list).down = Function.update s.down parent (some list) :=
  h.component?_withComponent hparent

theorem up_withoutChildren {parent : Entity} :
    (s.withoutComponent .children parent).up = s.up :=
  component?_withoutComponent_of_ne (by decide)

theorem down_withoutChildren (h : s.Sound) {parent : Entity} :
    (s.withoutComponent .children parent).down = Function.update s.down parent none :=
  h.component?_withoutComponent

theorem Sound.isValid_of_up (h : s.Sound) {child parent : Entity} (hup : s.up child = some parent) :
    s.isValid child :=
  h.isValid_of_component? hup

theorem Sound.isValid_of_down (h : s.Sound) {parent : Entity} {list : List Entity}
    (hdown : s.down parent = some list) : s.isValid parent :=
  h.isValid_of_component? hdown

theorem parent?_of_isValid {id : Entity} (h : s.isValid id) : s.parent? id = .ok (s.up id) :=
  get?_of_isValid h

theorem parent?_of_not_isValid {id : Entity} (h : ¬ s.isValid id) :
    s.parent? id = .error (.stale id) :=
  get?_of_not_isValid h

theorem parent?_eq_ok {id : Entity} {parent : Option Entity} (h : s.parent? id = .ok parent) :
    s.isValid id ∧ s.up id = parent :=
  get?_eq_ok h

section Climb

variable {test : Entity → Except Fault Bool} {steps : Nat} {id : Entity}

theorem climb_stale (h : ¬ s.isValid id) : s.climb test (steps + 1) id = .error (.stale id) := by
  simp [climb, parent?_of_not_isValid h, bind, Except.bind]

theorem climb_top (h : s.isValid id) (htop : s.up id = none) :
    s.climb test (steps + 1) id = .ok none := by
  simp [climb, parent?_of_isValid h, htop, bind, Except.bind, pure, Except.pure]

theorem climb_step (h : s.isValid id) {parent : Entity} (hup : s.up id = some parent) :
    s.climb test (steps + 1) id =
      match test parent with
      | .error e => .error e
      | .ok true => .ok (some parent)
      | .ok false => s.climb test steps parent := by
  simp only [climb, parent?_of_isValid h, hup, bind, Except.bind, pure, Except.pure]
  cases test parent with
  | error e => rfl
  | ok found => cases found <;> rfl

/-- Whoever climbs to the top without finding anything has tested everything above. -/
theorem climb_eq_none (h : s.climb test steps id = .ok none) {ancestor : Entity}
    (habove : Above s.up id ancestor) : test ancestor = .ok false := by
  induction steps generalizing id with
  | zero => cases h
  | succ steps ih =>
    obtain ⟨parent, hup, hrest⟩ := above_iff.mp habove
    by_cases hid : s.isValid id
    · rw [climb_step hid hup] at h
      cases htest : test parent with
      | error e =>
        rw [htest] at h
        cases h
      | ok found =>
        rw [htest] at h
        cases found with
        | true => cases h
        | false =>
          rcases hrest with rfl | hrest
          · exact htest
          · exact ih h hrest
    · rw [climb_stale hid] at h
      cases h

end Climb

/-- What makes a link possible: two entities of which the lower one is alive, names no parent and
does not lie above the other. -/
structure Linkable (s : Store) (parent child : Entity) : Prop where
  ne : child ≠ parent
  alive : s.isValid child
  top : s.up child = none
  notAbove : ¬ Above s.up parent child

theorem linkable_of_checkLink {parent child : Entity} {u : Unit}
    (h : s.checkLink parent child = .ok u) : s.Linkable parent child := by
  unfold checkLink at h
  by_cases hne : child = parent
  · simp [hne, bind, Except.bind, throw, throwThe, MonadExceptOf.throw] at h
  simp only [hne, if_false, bind, Except.bind, pure, Except.pure] at h
  cases hfind : s.findAncestor parent fun ancestor => .ok (ancestor = child) with
  | error e => simp [hfind] at h
  | ok found =>
    cases found with
    | some ancestor => simp [hfind, throw, throwThe, MonadExceptOf.throw] at h
    | none =>
      cases hparent : s.parent? child with
      | error e => simp [hfind, hparent] at h
      | ok old =>
        obtain ⟨halive, hup⟩ := parent?_eq_ok hparent
        cases old with
        | some other => simp [hfind, hparent, throw, throwThe, MonadExceptOf.throw] at h
        | none =>
          refine ⟨hne, halive, hup, ?_⟩
          intro habove
          have hsame := climb_eq_none hfind habove
          simp at hsame

theorem nameParent_cases (s : Store) (parent child : Entity) :
    (s.Linkable parent child ∧
      nameParent parent child s = .ok () (s.withComponent .parent child parent)) ∨
    ∃ e, nameParent parent child s = .error e s := by
  unfold nameParent
  cases hcheck : s.checkLink parent child with
  | error e => exact Or.inr ⟨e, bind_run_error (read_run_refused hcheck)⟩
  | ok u =>
    have hlink := linkable_of_checkLink hcheck
    refine Or.inl ⟨hlink, ?_⟩
    rw [bind_run_ok (read_run hcheck)]
    exact attach_run (k := .parent) parent hlink.alive

/-- The store after entities were let name the same parent. -/
def adopted (s : Store) (parent : Entity) (children : List Entity) : Store :=
  children.foldl (fun s child => s.withComponent .parent child parent) s

section Adopted

variable {parent : Entity} {children : List Entity}

@[simp] theorem isValid_adopted {x : Entity} :
    (s.adopted parent children).isValid x = s.isValid x := by
  induction children generalizing s with
  | nil => rfl
  | cons child rest ih => exact ih

theorem Sound.adopted (h : s.Sound) (halive : ∀ child ∈ children, s.isValid child) :
    (s.adopted parent children).Sound := by
  induction children generalizing s with
  | nil => exact h
  | cons child rest ih =>
    apply ih (h.withComponent (halive child (by simp)))
    intro x hx
    exact halive x (by simp [hx])

theorem component?_adopted_of_ne {k : Kind} (hne : k ≠ .parent) :
    (s.adopted parent children).component? k = s.component? k := by
  induction children generalizing s with
  | nil => rfl
  | cons child rest ih => exact ih.trans (component?_withComponent_of_ne hne)

theorem up_adopted (h : s.Sound) (halive : ∀ child ∈ children, s.isValid child) :
    (s.adopted parent children).up = Settled.adopt s.up parent children := by
  induction children generalizing s with
  | nil =>
    funext x
    simp [Store.adopted, Settled.adopt]
  | cons child rest ih =>
    have hchild : s.isValid child := halive child (by simp)
    have hrest : ∀ x ∈ rest, s.isValid x := fun x hx => halive x (by simp [hx])
    have hstep := ih (s := s.withComponent .parent child parent) (h.withComponent hchild) hrest
    refine hstep.trans ?_
    funext x
    rw [up_withParent h hchild]
    by_cases hin : x ∈ rest
    · simp [Settled.adopt, hin]
    · by_cases hx : x = child <;> simp [Settled.adopt, hin, hx]

end Adopted

/-- Entities that all came to name a parent are different, since none named one before its turn. -/
theorem nameAll_ok (h : s.Sound) {t : Store} {parent : Entity} {added : List Entity} {u : Unit}
    (hrun : added.forM (nameParent parent) s = .ok u t) :
    t = s.adopted parent added ∧ added.Nodup ∧
      ∀ child ∈ added, s.isValid child ∧ s.up child = none := by
  induction added generalizing s with
  | nil => exact ⟨(EStateM.Result.ok.inj hrun).2.symm, List.nodup_nil, by simp⟩
  | cons child rest ih =>
    rcases nameParent_cases s parent child with ⟨hlink, hfirst⟩ | ⟨e, hfirst⟩
    · have htail : rest.forM (nameParent parent) (s.withComponent .parent child parent) =
          .ok u t := (bind_run_ok hfirst).symm.trans hrun
      obtain ⟨ht, hnodup, hfresh⟩ := ih (h.withComponent hlink.alive) htail
      have hup : (s.withComponent .parent child parent).up =
          Function.update s.up child (some parent) := up_withParent h hlink.alive
      have hnew : ∀ x ∈ rest, x ≠ child ∧ s.isValid x ∧ s.up x = none := by
        intro x hx
        obtain ⟨hxalive, hxtop⟩ := hfresh x hx
        have hne : x ≠ child := by
          intro heq
          rw [hup, heq, Function.update_self] at hxtop
          cases hxtop
        rw [hup, Function.update_of_ne hne] at hxtop
        exact ⟨hne, hxalive, hxtop⟩
      refine ⟨ht, List.nodup_cons.mpr ⟨fun hin => (hnew child hin).1 rfl, hnodup⟩, ?_⟩
      intro x hx
      rcases List.mem_cons.mp hx with heq | hx
      · rw [heq]
        exact ⟨hlink.alive, hlink.top⟩
      · exact (hnew x hx).2
    · have hstop : EStateM.Result.error e s = .ok u t := (bind_run_error hfirst).symm.trans hrun
      cases hstop

/-- The store with children put at the end of an entity's list. -/
def lengthened (s : Store) (parent : Entity) (added : List Entity) : Store :=
  match s.down parent with
  | some old => s.withComponent .children parent (old ++ added)
  | none => if added.isEmpty then s else s.withComponent .children parent added

section Lengthened

variable {parent : Entity} {added : List Entity}

theorem appendChildren_run (h : s.isValid parent) :
    appendChildren parent added s = .ok () (s.lengthened parent added) := by
  have hget : s.get? .children parent = .ok (s.down parent) := get?_of_isValid h
  unfold appendChildren lengthened
  rw [bind_run_ok (read_run hget)]
  cases s.down parent with
  | some old => exact attach_run (k := .children) (old ++ added) h
  | none =>
    cases added with
    | nil => rfl
    | cons child rest => exact attach_run (k := .children) (child :: rest) h

theorem component?_lengthened_of_ne {k : Kind} (hne : k ≠ .children) :
    (s.lengthened parent added).component? k = s.component? k := by
  unfold lengthened
  split
  · exact component?_withComponent_of_ne hne
  · split
    · rfl
    · exact component?_withComponent_of_ne hne

theorem down_lengthened (h : s.Sound) (hparent : s.isValid parent) :
    (s.lengthened parent added).down =
      Function.update s.down parent (Forest.lengthen added (s.down parent)) := by
  unfold lengthened
  cases hold : s.down parent with
  | some old => exact down_withChildren h hparent
  | none =>
    by_cases hadded : added.isEmpty
    · simp only [hadded, if_true, Forest.lengthen]
      rw [← hold, Function.update_eq_self]
    · simp only [hadded, Forest.lengthen]
      exact down_withChildren h hparent

end Lengthened

theorem addChildren_stale {parent : Entity} (added : List Entity) (h : ¬ s.isValid parent) :
    addChildren parent added s = .error (.staleParent parent) s := by
  have hvalid : s.isValid parent = false := by simpa using h
  unfold addChildren
  rw [get_bind_run, hvalid]
  rfl

/-- All entities are let name the parent, and only then its list grows. -/
theorem addChildren_run {parent : Entity} (added : List Entity) (h : s.isValid parent) :
    addChildren parent added s =
      (added.forM (nameParent parent) >>= fun _ => appendChildren parent added) s := by
  unfold addChildren
  rw [get_bind_run, h]
  rfl

/-- A request to link is refused for the parent, refused for a child with those before it left
half-linked, or links all children on both sides. -/
theorem addChildren_cases (h : s.Sound) (parent : Entity) (added : List Entity) :
    (∃ e, addChildren parent added s = .error e s) ∨
    (∃ e t, added.forM (nameParent parent) s = .error e t ∧
      addChildren parent added s = .error e t) ∨
    (s.isValid parent ∧ added.Nodup ∧ (∀ child ∈ added, s.isValid child ∧ s.up child = none) ∧
      added.forM (nameParent parent) s = .ok () (s.adopted parent added) ∧
      addChildren parent added s = .ok () ((s.adopted parent added).lengthened parent added)) := by
  by_cases hparent : s.isValid parent
  · rw [addChildren_run added hparent]
    cases hall : added.forM (nameParent parent) s with
    | error e t => exact Or.inr (Or.inl ⟨e, t, rfl, bind_run_error hall⟩)
    | ok u t =>
      obtain ⟨rfl, hnodup, hfresh⟩ := nameAll_ok h hall
      have hvalid : (s.adopted parent added).isValid parent := by simpa using hparent
      refine Or.inr (Or.inr ⟨hparent, hnodup, hfresh, rfl, ?_⟩)
      rw [bind_run_ok hall, appendChildren_run hvalid]
  · exact Or.inl ⟨_, addChildren_stale added hparent⟩

/-- A living entity without a parent is linked under one that it is not above. -/
theorem addChild_run {parent child : Entity} (hparent : s.isValid parent) (hne : child ≠ parent)
    (halive : s.isValid child) (htop : s.up child = none)
    (hfind : (s.findAncestor parent fun ancestor => .ok (ancestor = child)) = .ok none) :
    addChildren parent [child] s =
      .ok () ((s.adopted parent [child]).lengthened parent [child]) := by
  have hcheck : s.checkLink parent child = .ok () := by
    unfold checkLink
    rw [if_neg hne, hfind, parent?_of_isValid halive, htop]
    rfl
  have hname : nameParent parent child s = .ok () (s.withComponent .parent child parent) :=
    (bind_run_ok (read_run hcheck)).trans (attach_run (k := .parent) parent halive)
  have hall : [child].forM (nameParent parent) s = .ok () (s.adopted parent [child]) :=
    bind_run_ok hname
  have hvalid : (s.adopted parent [child]).isValid parent := by simpa using hparent
  rw [addChildren_run [child] hparent, bind_run_ok hall, appendChildren_run hvalid]

/-- The store with an entity taken out of a list. -/
def shortened (s : Store) (parent child : Entity) : Store :=
  match s.down parent with
  | none => s
  | some old =>
    if (old.filter (· ≠ child)).isEmpty then s.withoutComponent .children parent
    else s.withComponent .children parent (old.filter (· ≠ child))

section Shortened

variable {parent child : Entity}

theorem dropFromList_run (h : s.isValid parent) :
    dropFromList parent child s = .ok () (s.shortened parent child) := by
  have hget : s.get? .children parent = .ok (s.down parent) := get?_of_isValid h
  unfold dropFromList shortened
  rw [bind_run_ok (read_run hget)]
  cases s.down parent with
  | none => rfl
  | some old =>
    by_cases hrest : (old.filter (· ≠ child)).isEmpty
    · simp only [hrest, if_true]
      rw [discard_run, detach_run h]
    · simp only [hrest]
      exact attach_run (k := .children) (old.filter (· ≠ child)) h

theorem dropFromList_stale (h : ¬ s.isValid parent) :
    dropFromList parent child s = .error (.stale parent) s :=
  bind_run_error (read_run_refused (get?_of_not_isValid h))

theorem component?_shortened_of_ne {k : Kind} (hne : k ≠ .children) :
    (s.shortened parent child).component? k = s.component? k := by
  unfold shortened
  split
  · rfl
  · split
    · exact component?_withoutComponent_of_ne hne
    · exact component?_withComponent_of_ne hne

theorem down_shortened (h : s.Sound) (hparent : s.isValid parent) :
    (s.shortened parent child).down =
      Function.update s.down parent (Forest.shorten child (s.down parent)) := by
  unfold shortened
  cases hold : s.down parent with
  | none =>
    simp only [Forest.shorten, Option.map_none, Option.filter_none]
    rw [← hold, Function.update_eq_self]
  | some old =>
    by_cases hrest : (old.filter (· ≠ child)).isEmpty
    · simp only [hrest, if_true, Forest.shorten, Option.map_some, Option.filter_some]
      exact down_withoutChildren h
    · simp only [hrest, Forest.shorten, Option.map_some, Option.filter_some]
      exact down_withChildren h hparent

end Shortened

/-- The store after an entity was unlinked from its parent, on both sides. -/
def unlinked (s : Store) (child parent : Entity) : Store :=
  (s.withoutComponent .parent child).shortened parent child

theorem removeChild_stale {child : Entity} (h : ¬ s.isValid child) :
    removeChild child s = .error (.stale child) s :=
  bind_run_error (detach_run_stale h)

theorem removeChild_top {child : Entity} (h : s.isValid child) (htop : s.up child = none) :
    removeChild child s = .ok none (s.withoutComponent .parent child) := by
  have hdetach : detach .parent child s = .ok none (s.withoutComponent .parent child) := by
    rw [detach_run h]
    exact congrArg (EStateM.Result.ok · _) htop
  exact bind_run_ok hdetach

section RemoveChild

variable {child parent : Entity}

theorem removeChild_run (h : s.isValid child) (hup : s.up child = some parent) :
    removeChild child s =
      (dropFromList parent child >>= fun _ => pure (some parent))
        (s.withoutComponent .parent child) := by
  have hdetach : detach .parent child s =
      .ok (some parent) (s.withoutComponent .parent child) := by
    rw [detach_run h]
    exact congrArg (EStateM.Result.ok · _) hup
  exact bind_run_ok hdetach

theorem removeChild_linked (h : s.isValid child) (hup : s.up child = some parent)
    (hparent : s.isValid parent) :
    removeChild child s = .ok (some parent) (s.unlinked child parent) := by
  rw [removeChild_run h hup]
  exact bind_run_ok (dropFromList_run (by simpa using hparent))

/-- Where the parent has ended, the entity does not name it any more, but the request fails. -/
theorem removeChild_parent_stale (h : s.isValid child) (hup : s.up child = some parent)
    (hparent : ¬ s.isValid parent) :
    removeChild child s = .error (.stale parent) (s.withoutComponent .parent child) := by
  rw [removeChild_run h hup]
  exact bind_run_error (dropFromList_stale (by simpa using hparent))

theorem up_unlinked (h : s.Sound) :
    (s.unlinked child parent).up = Function.update s.up child none :=
  (component?_shortened_of_ne (by decide)).trans (up_withoutParent h)

theorem down_unlinked (h : s.Sound) (hparent : s.isValid parent) :
    (s.unlinked child parent).down =
      Function.update s.down parent (Forest.shorten child (s.down parent)) := by
  have hcleared : (s.withoutComponent .parent child).Sound := h.withoutComponent
  have hvalid : (s.withoutComponent .parent child).isValid parent := by simpa using hparent
  have hdown : (s.unlinked child parent).down = _ := down_shortened hcleared hvalid
  rw [down_withoutParent] at hdown
  exact hdown

end RemoveChild

/-- The store after entities were let name no parent any more. -/
def orphaned (s : Store) (children : List Entity) : Store :=
  children.foldl (fun s child => s.withoutComponent .parent child) s

section Orphaned

variable {children : List Entity}

theorem component?_orphaned_of_ne {k : Kind} (hne : k ≠ .parent) :
    (s.orphaned children).component? k = s.component? k := by
  induction children generalizing s with
  | nil => rfl
  | cons child rest ih => exact ih.trans (component?_withoutComponent_of_ne hne)

theorem up_orphaned (h : s.Sound) : (s.orphaned children).up = Forest.orphan s.up children := by
  induction children generalizing s with
  | nil =>
    funext x
    simp [Store.orphaned, Forest.orphan]
  | cons child rest ih =>
    have hstep := ih (s := s.withoutComponent .parent child) h.withoutComponent
    refine hstep.trans ?_
    funext x
    rw [up_withoutParent h]
    by_cases hin : x ∈ rest
    · simp [Forest.orphan, hin]
    · by_cases hx : x = child <;> simp [Forest.orphan, hin, hx]

theorem orphanAll_run (halive : ∀ child ∈ children, s.isValid child) :
    (children.forM fun child => discard (detach .parent child)) s =
      .ok () (s.orphaned children) := by
  induction children generalizing s with
  | nil => rfl
  | cons child rest ih =>
    have hdetach : discard (detach .parent child) s =
        .ok () (s.withoutComponent .parent child) := by
      rw [discard_run, detach_run (halive child (by simp))]
    refine (bind_run_ok hdetach).trans (ih ?_)
    intro x hx
    simpa using halive x (by simp [hx])

end Orphaned

/-- The store after an entity's list was dropped and its children name no parent any more. -/
def cleared (s : Store) (parent : Entity) (children : List Entity) : Store :=
  (s.withoutComponent .children parent).orphaned children

section RemoveAllChildren

variable {parent : Entity} {list : List Entity}

theorem removeAllChildren_stale (h : ¬ s.isValid parent) :
    removeAllChildren parent s = .error (.stale parent) s :=
  bind_run_error (detach_run_stale h)

theorem removeAllChildren_childless (h : s.isValid parent) (hdown : s.down parent = none) :
    removeAllChildren parent s = .ok () (s.withoutComponent .children parent) := by
  have hdetach : detach .children parent s =
      .ok none (s.withoutComponent .children parent) := by
    rw [detach_run h]
    exact congrArg (EStateM.Result.ok · _) hdown
  exact bind_run_ok hdetach

theorem removeAllChildren_run (h : s.Sound) (hdown : s.down parent = some list)
    (halive : ∀ child ∈ list, s.isValid child) :
    removeAllChildren parent s = .ok () (s.cleared parent list) := by
  have hdetach : detach .children parent s =
      .ok (some list) (s.withoutComponent .children parent) := by
    rw [detach_run (h.isValid_of_down hdown)]
    exact congrArg (EStateM.Result.ok · _) hdown
  refine (bind_run_ok hdetach).trans (orphanAll_run ?_)
  intro child hchild
  simpa using halive child hchild

theorem up_cleared (h : s.Sound) : (s.cleared parent list).up = Forest.orphan s.up list := by
  unfold cleared
  rw [up_orphaned h.withoutComponent, up_withoutChildren]

theorem down_cleared (h : s.Sound) :
    (s.cleared parent list).down = Function.update s.down parent none :=
  (component?_orphaned_of_ne (by decide)).trans (down_withoutChildren h)

end RemoveAllChildren

theorem destroy_cases (h : s.Sound) (id : Entity) :
    (s.isValid id ∧ s.up id = none ∧ s.down id = none ∧ destroy id s = .ok () (s.ended id)) ∨
    ∃ e, destroy id s = .error e s := by
  unfold destroy
  by_cases hid : s.isValid id
  · simp only [hid, Bool.not_true, Bool.false_eq_true, if_false, h.holds_eq]
    cases hdown : s.component? .children id with
    | some list => exact Or.inr ⟨_, rfl⟩
    | none =>
      cases hup : s.component? .parent id with
      | some parent => exact Or.inr ⟨_, rfl⟩
      | none => exact Or.inl ⟨trivial, hup, hdown, rfl⟩
  · simp only [hid]
    exact Or.inr ⟨_, rfl⟩

/-- The end of an entity without links changes no links. -/
theorem up_ended (h : s.Sound) {id : Entity} (hup : s.up id = none) : (s.ended id).up = s.up := by
  have hview : (s.ended id).up = Function.update s.up id none := h.component?_ended
  rw [hview, ← hup, Function.update_eq_self]

theorem down_ended (h : s.Sound) {id : Entity} (hdown : s.down id = none) :
    (s.ended id).down = s.down := by
  have hview : (s.ended id).down = Function.update s.down id none := h.component?_ended
  rw [hview, ← hdown, Function.update_eq_self]

/-- Single links put on or taken off, or refused, keep `P`. -/
structure PointwiseLinks (P : Store → Prop) : Prop where
  attach : ∀ k id v, k.isLink = true → Keeps P P (attach k id v)
  detach : ∀ k id, k.isLink = true → Keeps P P (detach k id)

namespace PointwiseLinks

variable {P : Store → Prop}

theorem ofRead {α : Type} (f : Store → Except Fault α) : Keeps P P (Action.ofRead f) :=
  Keeps.ofRead (fun _ hs => hs) f

theorem nameParent (h : PointwiseLinks P) (parent child : Entity) :
    Keeps P P (nameParent parent child) :=
  (ofRead _).bind fun _ => h.attach .parent child parent rfl

theorem appendChildren (h : PointwiseLinks P) (parent : Entity) (added : List Entity) :
    Keeps P P (appendChildren parent added) := by
  refine (ofRead _).bind fun found => ?_
  cases found with
  | some old => exact h.attach .children parent (old ++ added) rfl
  | none =>
    cases added with
    | nil => exact Keeps.pure _
    | cons child rest => exact h.attach .children parent (child :: rest) rfl

theorem addChildren (h : PointwiseLinks P) (parent : Entity) (added : List Entity) :
    Keeps P P (addChildren parent added) := by
  have hlinks : Keeps P P
      (added.forM (Store.nameParent parent) >>= fun _ => Store.appendChildren parent added) :=
    (Keeps.forM fun child _ => h.nameParent parent child).bind fun _ =>
      h.appendChildren parent added
  intro s hs
  by_cases hparent : s.isValid parent
  · rw [addChildren_run added hparent]
    exact hlinks s hs
  · rw [addChildren_stale added hparent]
    exact hs

theorem dropFromList (h : PointwiseLinks P) (parent child : Entity) :
    Keeps P P (dropFromList parent child) := by
  refine (ofRead _).bind fun found => ?_
  cases found with
  | none => exact Keeps.pure _
  | some old =>
    dsimp only
    split
    · exact (h.detach .children parent rfl).discard
    · exact h.attach .children parent _ rfl

theorem removeChild (h : PointwiseLinks P) (child : Entity) : Keeps P P (removeChild child) := by
  refine (h.detach .parent child rfl).bind fun found => ?_
  cases found with
  | none => exact Keeps.pure _
  | some parent => exact (h.dropFromList parent child).bind fun _ => Keeps.pure _

theorem removeAllChildren (h : PointwiseLinks P) (parent : Entity) :
    Keeps P P (removeAllChildren parent) := by
  refine (h.detach .children parent rfl).bind fun found => ?_
  cases found with
  | none => exact Keeps.pure _
  | some list => exact Keeps.forM fun child _ => (h.detach .parent child rfl).discard

theorem removeChildren (h : PointwiseLinks P) (removed : List Entity) :
    Keeps P P (removeChildren removed) :=
  Keeps.forM fun child _ => (h.removeChild child).discard

end PointwiseLinks

/-- Single components put on or taken off, or refused, keep `P`. -/
structure Pointwise (P : Store → Prop) : Prop where
  attach : ∀ k id v, Keeps P P (attach k id v)
  detach : ∀ k id, Keeps P P (detach k id)

theorem Pointwise.links {P : Store → Prop} (h : Pointwise P) : PointwiseLinks P :=
  ⟨fun k id v _ => h.attach k id v, fun k id _ => h.detach k id⟩

theorem Pointwise.components {P : Store → Prop} (h : Pointwise P) : StableComponents P P where
  weaken _ hs := hs
  attach k id v _ := h.attach k id v
  detach k id _ := h.detach k id

end ModuleCompiler.Store
