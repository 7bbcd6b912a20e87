import ModuleCompiler.Proofs.LinkConsistency
import ModuleCompiler.Proofs.Query

/-!
Going up and down the links. Both walks are given once as they go on without any bound, so that a
derivation stands for a walk that ends. From every living entity of a linked store both walks end:
the way up has no more steps than there are slots, because it meets no entity twice, and the way
down has fewer levels than there are living entities.
-/

namespace ModuleCompiler.Store

variable {s : Store}

/-- A way up from an entity that ends with an answer. -/
inductive Ascent (s : Store) (test : Entity → Except Fault Bool) :
    Entity → Except Fault (Option Entity) → Prop
  | refused {id : Entity} {e : Fault} (h : s.parent? id = .error e) : Ascent s test id (.error e)
  | top {id : Entity} (h : s.parent? id = .ok none) : Ascent s test id (.ok none)
  | untested {id parent : Entity} {e : Fault} (h : s.parent? id = .ok (some parent))
      (htest : test parent = .error e) : Ascent s test id (.error e)
  | found {id parent : Entity} (h : s.parent? id = .ok (some parent))
      (htest : test parent = .ok true) : Ascent s test id (.ok (some parent))
  | further {id parent : Entity} {answer : Except Fault (Option Entity)}
      (h : s.parent? id = .ok (some parent)) (htest : test parent = .ok false)
      (hrest : Ascent s test parent answer) : Ascent s test id answer

theorem Ascent.test_of_found {test : Entity → Except Fault Bool} {id found : Entity}
    {answer : Except Fault (Option Entity)} (h : Ascent s test id answer)
    (hanswer : answer = .ok (some found)) : test found = .ok true := by
  induction h with
  | refused _ => cases hanswer
  | top _ => cases hanswer
  | untested _ _ => cases hanswer
  | found _ htest =>
    cases hanswer
    exact htest
  | further _ _ _ ih => exact ih hanswer

/-- An answer names an entity or the lack of one; a refusal comes from a parent that has ended or
from the test. -/
theorem Ascent.answer {test : Entity → Except Fault Bool} {id : Entity}
    {answer : Except Fault (Option Entity)} (h : Ascent s test id answer) :
    (∃ found, answer = .ok found) ∨
      (∃ ended, ¬ s.isValid ended ∧ answer = .error (.stale ended)) ∨
      ∃ ancestor e, test ancestor = .error e ∧ answer = .error e := by
  induction h with
  | @refused id e h =>
    by_cases hid : s.isValid id
    · rw [parent?_of_isValid hid] at h
      cases h
    · rw [parent?_of_not_isValid hid] at h
      exact Or.inr (Or.inl ⟨id, hid, congrArg Except.error (Except.error.inj h).symm⟩)
  | top h => exact Or.inl ⟨none, rfl⟩
  | @untested id parent e h htest => exact Or.inr (Or.inr ⟨parent, e, htest, rfl⟩)
  | @found id parent h htest => exact Or.inl ⟨some parent, rfl⟩
  | further h htest hrest ih => exact ih

/-- The entities on the way so far are alive and lie below the one reached, so none repeats and the
steps left do not run out. -/
theorem Linked.ascent_climb (h : s.Linked) (test : Entity → Except Fault Bool) {steps : Nat}
    {id : Entity} (path : List Entity) (hnodup : path.Nodup)
    (halive : ∀ x ∈ path, s.isValid x) (habove : ∀ x ∈ path, Above s.up x id)
    (hsteps : s.slots.length < path.length + steps) :
    Ascent s test id (s.climb test steps id) := by
  induction steps generalizing id path with
  | zero =>
    have hle := length_le_slots hnodup halive
    omega
  | succ steps ih =>
    by_cases hid : s.isValid id
    · cases hup : s.up id with
      | none =>
        rw [climb_top hid hup]
        exact Ascent.top (by rw [parent?_of_isValid hid, hup])
      | some parent =>
        have hparent : s.parent? id = .ok (some parent) := by rw [parent?_of_isValid hid, hup]
        rw [climb_step hid hup]
        cases htest : test parent with
        | error e => exact Ascent.untested hparent htest
        | ok found =>
          cases found with
          | true => exact Ascent.found hparent htest
          | false =>
            have hfresh : id ∉ path := fun hin => h.forest.acyclic id (habove id hin)
            apply Ascent.further hparent htest
            apply ih (id :: path) (List.nodup_cons.mpr ⟨hfresh, hnodup⟩)
            · intro x hx
              rcases List.mem_cons.mp hx with heq | hx
              · exact heq ▸ hid
              · exact halive x hx
            · intro x hx
              rcases List.mem_cons.mp hx with heq | hx
              · rw [heq]
                exact Relation.TransGen.single hup
              · exact (habove x hx).tail hup
            · simp only [List.length_cons]
              omega
    · rw [climb_stale hid]
      exact Ascent.refused (parent?_of_not_isValid hid)

theorem Linked.ascent_findAncestor (h : s.Linked) (id : Entity)
    (test : Entity → Except Fault Bool) : Ascent s test id (s.findAncestor id test) := by
  apply h.ascent_climb test [] List.nodup_nil
  · intro x hx
    cases hx
  · intro x hx
    cases hx
  · simp

/-- What is found on the way up lies above. -/
theorem Ascent.above_of_found {test : Entity → Except Fault Bool} {id found : Entity}
    {answer : Except Fault (Option Entity)} (h : Ascent s test id answer)
    (hanswer : answer = .ok (some found)) : Above s.up id found := by
  induction h with
  | refused _ => cases hanswer
  | top _ => cases hanswer
  | untested _ _ => cases hanswer
  | found hparent _ =>
    cases hanswer
    exact .single (parent?_eq_ok hparent).2
  | further hparent _ _ ih => exact .head (parent?_eq_ok hparent).2 (ih hanswer)

/-- The way up from a living entity ends, and meets living entities only. -/
theorem Anchored.answer_of_ascent (h : s.Anchored) {test : Entity → Except Fault Bool}
    {id : Entity} {answer : Except Fault (Option Entity)} (hascent : Ascent s test id answer)
    (hid : s.isValid id) (htest : ∀ x, s.isValid x → ∃ b, test x = .ok b) :
    ∃ found, answer = .ok found := by
  induction hascent with
  | refused hparent =>
    rw [parent?_of_isValid hid] at hparent
    cases hparent
  | top _ => exact ⟨none, rfl⟩
  | found _ _ => exact ⟨_, rfl⟩
  | untested hparent hfault =>
    rw [parent?_of_isValid hid] at hparent
    obtain ⟨b, hb⟩ := htest _ (h.alive _ _ (Except.ok.inj hparent))
    rw [hb] at hfault
    cases hfault
  | further hparent _ _ ih =>
    rw [parent?_of_isValid hid] at hparent
    exact ih (h.alive _ _ (Except.ok.inj hparent))

/-- The children of all entities of a level. -/
def nextLevel (s : Store) (level : List Entity) : List Entity := level.flatMap s.childList

/-- What lies below a level, level by level, down to a number of levels. -/
def below (s : Store) : Nat → List Entity → List Entity
  | 0, _ => []
  | levels + 1, level => s.nextLevel level ++ s.below levels (s.nextLevel level)

/-- The level a number of levels further down. -/
def levelAt (s : Store) : Nat → List Entity → List Entity
  | 0, level => level
  | depth + 1, level => s.levelAt depth (s.nextLevel level)

/-- A way down from a level that ends, with all that it meets. -/
inductive Descent (s : Store) : List Entity → List Entity → Prop
  | bottom : Descent s [] []
  | down {level next rest : List Entity} (hlevel : level ≠ [])
      (hnext : s.childrenOfAll level = .ok next) (hrest : Descent s next rest) :
      Descent s level (next ++ rest)

theorem childrenOfAll_run {level : List Entity} (h : ∀ id ∈ level, s.isValid id) :
    s.childrenOfAll level = .ok (s.nextLevel level) := by
  induction level with
  | nil => rfl
  | cons id rest ih =>
    have hrest := ih fun x hx => h x (by simp [hx])
    simp [childrenOfAll, children_of_isValid (h id (by simp)), hrest, nextLevel, bind, Except.bind,
      pure, Except.pure]

theorem mem_nextLevel {level : List Entity} {child : Entity} :
    child ∈ s.nextLevel level ↔ ∃ id ∈ level, child ∈ s.childList id :=
  List.mem_flatMap

theorem below_nil (levels : Nat) : s.below levels [] = [] := by
  induction levels with
  | zero => rfl
  | succ levels ih => exact ih

theorem levelAt_nil (depth : Nat) : s.levelAt depth [] = [] := by
  induction depth with
  | zero => rfl
  | succ depth ih => exact ih

/-- Living entities of which none lies above another. -/
structure Layer (s : Store) (level : List Entity) : Prop where
  nodup : level.Nodup
  alive : ∀ id ∈ level, s.isValid id
  apart : ∀ a ∈ level, ∀ b ∈ level, ¬ Above s.up a b

theorem Linked.layer_singleton (h : s.Linked) {root : Entity} (hroot : s.isValid root) :
    s.Layer [root] := by
  refine ⟨List.nodup_singleton root, ?_, ?_⟩
  · intro id hid
    rw [List.mem_singleton.mp hid]
    exact hroot
  · intro a ha b hb
    rw [List.mem_singleton.mp ha, List.mem_singleton.mp hb]
    exact h.forest.acyclic root

namespace Layer

variable {level : List Entity}

theorem next (hlayer : s.Layer level) (h : s.Linked) : s.Layer (s.nextLevel level) := by
  refine ⟨?_, ?_, ?_⟩
  · apply List.nodup_flatMap.mpr
    refine ⟨fun id _ => h.nodup_childList id, ?_⟩
    apply hlayer.nodup.imp
    intro a b hab x hxa hxb
    have hsame := (h.up_of_mem_childList hxa).symm.trans (h.up_of_mem_childList hxb)
    exact hab (Option.some.inj hsame)
  · intro child hchild
    obtain ⟨id, _, hin⟩ := mem_nextLevel.mp hchild
    exact h.sound.isValid_of_up (h.up_of_mem_childList hin)
  · intro a ha b hb habove
    obtain ⟨x, hx, hax⟩ := mem_nextLevel.mp ha
    obtain ⟨y, hy, hby⟩ := mem_nextLevel.mp hb
    have hup := h.up_of_mem_childList hby
    -- What lies above `a` is its parent `x` or lies above `x`, and the parent `y` of `b` is next.
    obtain ⟨parent, hparent, hrest⟩ := above_iff.mp habove
    rw [h.up_of_mem_childList hax, Option.some.injEq] at hparent
    subst hparent
    rcases hrest with heq | hway
    · rw [← heq] at hup
      exact hlayer.apart x hx y hy (Relation.TransGen.single hup)
    · exact hlayer.apart x hx y hy (hway.tail hup)

theorem levelsBelow_run (hlayer : s.Layer level) (h : s.Linked) (levels : Nat) :
    s.levelsBelow levels level = .ok (s.below levels level) := by
  induction levels generalizing level with
  | zero => rfl
  | succ levels ih =>
    cases level with
    | nil =>
      rw [below_nil]
      rfl
    | cons id rest =>
      simp [levelsBelow, childrenOfAll_run hlayer.alive, ih (hlayer.next h), below, bind,
        Except.bind, pure, Except.pure]

/-- Whatever is below a level lies under one of its entities. -/
theorem above_of_mem_below (h : s.Linked) {levels : Nat} {x : Entity}
    (hx : x ∈ s.below levels level) : ∃ id ∈ level, Above s.up x id := by
  induction levels generalizing level with
  | zero => cases hx
  | succ levels ih =>
    rcases List.mem_append.mp hx with hnext | hbelow
    · obtain ⟨id, hid, hin⟩ := mem_nextLevel.mp hnext
      exact ⟨id, hid, Relation.TransGen.single (h.up_of_mem_childList hin)⟩
    · obtain ⟨child, hchild, habove⟩ := ih hbelow
      obtain ⟨id, hid, hin⟩ := mem_nextLevel.mp hchild
      exact ⟨id, hid, habove.tail (h.up_of_mem_childList hin)⟩

theorem alive_below (hlayer : s.Layer level) (h : s.Linked) {levels : Nat} :
    ∀ x ∈ level ++ s.below levels level, s.isValid x := by
  intro x hx
  rcases List.mem_append.mp hx with hx | hx
  · exact hlayer.alive x hx
  · obtain ⟨id, _, habove⟩ := above_of_mem_below h hx
    obtain ⟨parent, hup, _⟩ := above_iff.mp habove
    exact h.sound.isValid_of_up hup

theorem nodup_below (hlayer : s.Layer level) (h : s.Linked) (levels : Nat) :
    (level ++ s.below levels level).Nodup := by
  induction levels generalizing level with
  | zero => simpa [below] using hlayer.nodup
  | succ levels ih =>
    refine List.Nodup.append hlayer.nodup (ih (hlayer.next h)) ?_
    intro x hx hbelow
    have hunder : x ∈ s.below (levels + 1) level := hbelow
    obtain ⟨id, hid, habove⟩ := above_of_mem_below h hunder
    exact hlayer.apart x hx id hid habove

/-- Each level before one that is not empty has an entity. -/
theorem le_length_below {levels : Nat} (hlevel : s.levelAt levels level ≠ []) :
    levels ≤ (s.below levels level).length := by
  induction levels generalizing level with
  | zero => exact Nat.zero_le _
  | succ levels ih =>
    have hnext : s.nextLevel level ≠ [] := by
      intro hnil
      apply hlevel
      rw [levelAt, hnil, levelAt_nil]
    have hpos := List.length_pos_iff.mpr hnext
    have hrest := ih hlevel
    simp only [below, List.length_append]
    omega

/-- There are fewer levels than living entities. -/
theorem levelAt_entities (hlayer : s.Layer level) (h : s.Linked) :
    s.levelAt s.entities.length level = [] := by
  by_contra hlevel
  have hne : level ≠ [] := by
    intro hnil
    rw [hnil, levelAt_nil] at hlevel
    exact hlevel rfl
  have hcount := length_le_entities (hlayer.nodup_below h s.entities.length) (hlayer.alive_below h)
  have hbelow := le_length_below hlevel
  have hpos := List.length_pos_iff.mpr hne
  rw [List.length_append] at hcount
  omega

theorem descent_below (hlayer : s.Layer level) (h : s.Linked) {levels : Nat}
    (hbottom : s.levelAt levels level = []) : Descent s level (s.below levels level) := by
  induction levels generalizing level with
  | zero =>
    rw [show level = [] from hbottom]
    exact Descent.bottom
  | succ levels ih =>
    by_cases hlevel : level = []
    · rw [hlevel, below_nil]
      exact Descent.bottom
    · exact Descent.down hlevel (childrenOfAll_run hlayer.alive) (ih (hlayer.next h) hbottom)

end Layer

/-- Past the bottom there is nothing more to collect. -/
theorem below_eq_of_levelAt {level : List Entity} {levels more : Nat}
    (hbottom : s.levelAt levels level = []) (hle : levels ≤ more) :
    s.below more level = s.below levels level := by
  induction levels generalizing level more with
  | zero =>
    rw [show level = [] from hbottom, below_nil, below_nil]
  | succ levels ih =>
    obtain ⟨more, rfl⟩ := Nat.exists_eq_add_of_le' hle
    have hrest : s.below (more + levels) (s.nextLevel level) = s.below levels (s.nextLevel level) :=
      ih hbottom (by omega)
    rw [show more + (levels + 1) = more + levels + 1 from rfl, below, below, hrest]

theorem Linked.descendants_run (h : s.Linked) {root : Entity} (hroot : s.isValid root)
    (depth : Nat) :
    s.descendants root depth = .ok (s.below depth [root]) ∧
      (root :: s.below depth [root]).Nodup := by
  have hlayer := h.layer_singleton hroot
  exact ⟨hlayer.levelsBelow_run h depth, hlayer.nodup_below h depth⟩

/-- The greatest depth that can be asked for is never reached. -/
theorem Linked.levelAt_depthLimit (h : s.Linked) {root : Entity} (hroot : s.isValid root) :
    s.levelAt s.entities.length [root] = [] ∧
      s.below depthLimit [root] = s.below s.entities.length [root] := by
  have hbottom := (h.layer_singleton hroot).levelAt_entities h
  have hslots : s.entities.length ≤ s.slots.length :=
    length_le_slots (nodup_of_ascending ascending_entities) fun _ => mem_entities.mp
  have hlimit : Entity.slotLimit ≤ depthLimit := by decide
  exact ⟨hbottom, below_eq_of_levelAt hbottom (hslots.trans (h.sound.slots_le.trans hlimit))⟩

theorem Linked.descent_allDescendants (h : s.Linked) {root : Entity} (hroot : s.isValid root) :
    Descent s [root] (s.below depthLimit [root]) := by
  obtain ⟨hbottom, hbelow⟩ := h.levelAt_depthLimit hroot
  rw [hbelow]
  exact (h.layer_singleton hroot).descent_below h hbottom

/-- After any run, refused requests included, no entity lies above itself, and a list is neither
empty nor repeats an entity, and has living entities only that name its owner. So the way up ends
with an answer, with a refusal of the test or at a parent that has ended, and the way down always
ends and meets nothing twice. -/
theorem links_form_forest (requests : List Request) :
    (∀ id, ¬ Relation.TransGen
      (fun child parent => (Ast.reached requests).store.component? .parent child = some parent)
      id id) ∧
    (∀ owner list, (Ast.reached requests).store.component? .children owner = some list →
      list ≠ [] ∧ list.Nodup ∧ ∀ child ∈ list, (Ast.reached requests).store.isValid child ∧
        (Ast.reached requests).store.component? .parent child = some owner) ∧
    (∀ id, (Ast.reached requests).store.isValid id → ∀ test, ∃ answer,
      Ascent (Ast.reached requests).store test id answer ∧
      (Ast.reached requests).store.findAncestor id test = answer ∧
      ((∃ found, answer = .ok found) ∨
        (∃ ended, ¬ (Ast.reached requests).store.isValid ended ∧
          answer = .error (.stale ended)) ∨
        ∃ ancestor e, test ancestor = .error e ∧ answer = .error e)) ∧
    ∀ root, (Ast.reached requests).store.isValid root →
      (∀ depth, ∃ below, (Ast.reached requests).store.descendants root depth = .ok below ∧
        (root :: below).Nodup) ∧
      ∃ below, (Ast.reached requests).store.allDescendants root = .ok below ∧
        (root :: below).Nodup ∧ Descent (Ast.reached requests).store [root] below := by
  have hlinked := linked_reached requests
  refine ⟨hlinked.forest.acyclic, ?_, ?_, ?_⟩
  · intro owner list hlist
    refine ⟨hlinked.forest.nonempty owner list hlist, hlinked.forest.nodup owner list hlist, ?_⟩
    intro child hchild
    exact ⟨hlinked.alive_of_mem hlist hchild, hlinked.forest.named owner list hlist child hchild⟩
  · intro id _ test
    have hascent := hlinked.ascent_findAncestor id test
    exact ⟨_, hascent, rfl, hascent.answer⟩
  · intro root hroot
    obtain ⟨hrun, hnodup⟩ := hlinked.descendants_run hroot depthLimit
    exact ⟨fun depth => ⟨_, hlinked.descendants_run hroot depth⟩, _, hrun, hnodup,
      hlinked.descent_allDescendants hroot⟩

/-- A run in which a refused link leaves an entity that names a parent without being listed, and
this parent ends before it. -/
def halfLinkedRun : List Request :=
  [.create, .create, .create, .create, .edit (.addChildren ⟨0, 0⟩ [⟨1, 0⟩, ⟨7, 0⟩]),
    .addChild ⟨1, 0⟩ ⟨2, 0⟩, .edit (.destroy ⟨0, 0⟩), .create, .addChild ⟨2, 0⟩ ⟨3, 0⟩]

theorem links_form_forest_half_linked :
    (Ast.reached halfLinkedRun).store.parent? ⟨1, 0⟩ = .ok (some ⟨0, 0⟩) ∧
    ¬ (Ast.reached halfLinkedRun).store.isValid ⟨0, 0⟩ ∧
    (∃ answer, Ascent (Ast.reached halfLinkedRun).store (fun _ => .ok false) ⟨2, 0⟩ answer ∧
      (Ast.reached halfLinkedRun).store.findAncestor ⟨2, 0⟩ (fun _ => .ok false) = answer) ∧
    ∃ below, (Ast.reached halfLinkedRun).store.allDescendants ⟨1, 0⟩ = .ok below ∧
      (⟨1, 0⟩ :: below).Nodup ∧ Descent (Ast.reached halfLinkedRun).store [⟨1, 0⟩] below := by
  have hone : (Ast.reached halfLinkedRun).store.isValid ⟨1, 0⟩ = true := by decide +kernel
  have htwo : (Ast.reached halfLinkedRun).store.isValid ⟨2, 0⟩ = true := by decide +kernel
  have hforest := links_form_forest halfLinkedRun
  obtain ⟨answer, hascent, hanswer, _⟩ := hforest.2.2.1 ⟨2, 0⟩ htwo fun _ => .ok false
  exact ⟨rfl, by decide +kernel, ⟨answer, hascent, hanswer⟩, (hforest.2.2.2 ⟨1, 0⟩ hone).2⟩

end ModuleCompiler.Store
