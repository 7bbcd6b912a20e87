import Mathlib.Data.List.Pairwise
import ModuleCompiler.Proofs.Traversal

/-!
The order in which the way down meets entities. It goes level by level, and a level follows the
level before it: first the children of its first entity, then those of the next. Which entities are
met is said by counting links upwards, and where they stand by comparing their parents. Since there
is one way up from an entity, it stands on one level only, and in one place.
-/

namespace ModuleCompiler.Store

variable {s : Store} {root x y : Entity}

/-- The entity a number of links above another. -/
def ancestorAt (s : Store) : Nat → Entity → Option Entity
  | 0, id => some id
  | links + 1, id => (s.up id).bind (s.ancestorAt links)

theorem ancestorAt_add (m n : Nat) (id : Entity) :
    s.ancestorAt (m + n) id = (s.ancestorAt m id).bind (s.ancestorAt n) := by
  induction m generalizing id with
  | zero => rw [Nat.zero_add, ancestorAt, Option.bind_some]
  | succ m ih =>
    rw [Nat.succ_add, ancestorAt, ancestorAt]
    cases s.up id with
    | none => rfl
    | some parent => exact ih parent

theorem above_of_ancestorAt {k : Nat} (h : s.ancestorAt (k + 1) x = some y) : Above s.up x y := by
  induction k generalizing x with
  | zero =>
    obtain ⟨parent, hup, hrest⟩ := Option.bind_eq_some_iff.mp h
    obtain rfl := Option.some.inj hrest
    exact .single hup
  | succ k ih =>
    obtain ⟨parent, hup, hrest⟩ := Option.bind_eq_some_iff.mp h
    exact .head hup (ih hrest)

/-- The ways up from an entity to another have one length, for a longer one would come round. -/
theorem Linked.ancestorAt_unique (h : s.Linked) {k l : Nat} (hk : s.ancestorAt k x = some root)
    (hl : s.ancestorAt l x = some root) : k = l := by
  have hnot : ∀ {m n}, s.ancestorAt m x = some root → s.ancestorAt (m + n + 1) x ≠ some root := by
    intro m n hm hlonger
    rw [Nat.add_assoc, ancestorAt_add, hm, Option.bind_some] at hlonger
    exact h.forest.acyclic root (above_of_ancestorAt hlonger)
  rcases Nat.lt_trichotomy k l with hlt | heq | hlt
  · obtain ⟨n, rfl⟩ := Nat.exists_eq_add_of_lt hlt
    exact absurd hl (hnot hk)
  · exact heq
  · obtain ⟨n, rfl⟩ := Nat.exists_eq_add_of_lt hlt
    exact absurd hk (hnot hl)

theorem levelAt_succ (depth : Nat) (level : List Entity) :
    s.levelAt (depth + 1) level = s.nextLevel (s.levelAt depth level) := by
  induction depth generalizing level with
  | zero => rfl
  | succ depth ih => exact ih (s.nextLevel level)

theorem below_succ (depth : Nat) (level : List Entity) :
    s.below (depth + 1) level = s.below depth level ++ s.levelAt (depth + 1) level := by
  induction depth generalizing level with
  | zero => exact List.append_nil _
  | succ depth ih =>
    rw [below, ih, below, List.append_assoc]
    rfl

theorem Consistent.mem_levelAt (h : s.Consistent) (k : Nat) :
    x ∈ s.levelAt k [root] ↔ s.ancestorAt k x = some root := by
  induction k generalizing x with
  | zero => simp [levelAt, ancestorAt]
  | succ k ih =>
    rw [levelAt_succ, mem_nextLevel, ancestorAt, Option.bind_eq_some_iff]
    simp only [ih, h.mem_childList, and_comm]

theorem Consistent.mem_below (h : s.Consistent) (depth : Nat) :
    x ∈ s.below depth [root] ↔ ∃ k, 1 ≤ k ∧ k ≤ depth ∧ s.ancestorAt k x = some root := by
  induction depth with
  | zero =>
    constructor
    · intro hx
      cases hx
    · rintro ⟨k, hpos, hle, -⟩
      omega
  | succ depth ih =>
    rw [below_succ, List.mem_append, ih, h.mem_levelAt]
    constructor
    · rintro (⟨k, hpos, hle, hk⟩ | hk)
      · exact ⟨k, hpos, by omega, hk⟩
      · exact ⟨depth + 1, by omega, le_rfl, hk⟩
    · rintro ⟨k, hpos, hle, hk⟩
      rcases Nat.le_succ_iff.mp hle with hle | rfl
      · exact Or.inl ⟨k, hpos, hle, hk⟩
      · exact Or.inr hk

theorem below_grows {depth more : Nat} (hle : depth ≤ more) (level : List Entity) :
    s.below depth level <+: s.below more level := by
  induction hle with
  | refl => exact List.prefix_rfl
  | step _ ih =>
    rw [below_succ]
    exact ih.trans (List.prefix_append ..)

theorem levelAt_sublist_below {k depth : Nat} (hle : k + 1 ≤ depth) (level : List Entity) :
    (s.levelAt (k + 1) level).Sublist (s.below depth level) := by
  refine List.Sublist.trans ?_ (below_grows hle level).sublist
  rw [below_succ]
  exact List.sublist_append_right ..

/-- Where a list goes level by level, `x` comes before `y`: it lies fewer levels below the root, or
as many and its parent comes before that of `y`, or both have one parent, whose list has them in
this order. -/
def Precedes (s : Store) (root : Entity) (listed : List Entity) (x y : Entity) : Prop :=
  ∃ k l, s.ancestorAt k x = some root ∧ s.ancestorAt l y = some root ∧
    (k < l ∨ k = l ∧ ∃ p q, s.up x = some p ∧ s.up y = some q ∧
      ([p, q].Sublist listed ∨ p = q ∧ [x, y].Sublist (s.childList p)))

/-- What lies at most `depth` levels below an entity, level by level. -/
structure LevelOrder (s : Store) (root : Entity) (depth : Nat) (listed : List Entity) : Prop where
  mem_iff : ∀ x, x ∈ listed ↔ ∃ k, 1 ≤ k ∧ k ≤ depth ∧ s.ancestorAt k x = some root
  nodup : (root :: listed).Nodup
  before_iff : ∀ x ∈ listed, ∀ y ∈ listed,
    ([x, y].Sublist listed ↔ s.Precedes root listed x y)

theorem sublist_or_swap {l : List Entity} (hx : x ∈ l) (hy : y ∈ l) (hne : x ≠ y) :
    [x, y].Sublist l ∨ [y, x].Sublist l := by
  have hsymm : Std.Symm fun a b => [a, b].Sublist l ∨ [b, a].Sublist l := ⟨fun _ _ => Or.symm⟩
  have hall : l.Pairwise fun a b => [a, b].Sublist l ∨ [b, a].Sublist l :=
    List.pairwise_iff_forall_sublist.mpr fun hab => Or.inl hab
  exact hall.forall hx hy hne

theorem not_sublist_swap {l : List Entity} (hnodup : l.Nodup) (h : [x, y].Sublist l) :
    ¬ [y, x].Sublist l := by
  induction l with
  | nil => cases h
  | cons a rest ih =>
    obtain ⟨hout, hrest⟩ := List.nodup_cons.mp hnodup
    intro hswap
    cases h with
    | cons _ h =>
      cases hswap with
      | cons _ hswap => exact ih hrest h hswap
      | cons_cons _ _ => exact hout (h.subset (by simp))
    | cons_cons _ h =>
      cases hswap with
      | cons _ hswap => exact hout (hswap.subset (by simp))
      | cons_cons _ _ => exact hout (h.subset (by simp))

theorem Linked.precedes_asymm (h : s.Linked) {listed : List Entity} (hnodup : listed.Nodup)
    (hxy : s.Precedes root listed x y) : ¬ s.Precedes root listed y x := by
  rintro ⟨l', k', hl', hk', horder'⟩
  obtain ⟨k, l, hk, hl, horder⟩ := hxy
  obtain rfl := h.ancestorAt_unique hk hk'
  obtain rfl := h.ancestorAt_unique hl hl'
  rcases horder with hlt | ⟨rfl, p, q, hp, hq, hparents⟩
  · omega
  · rcases horder' with hlt | ⟨-, q', p', hq', hp', hparents'⟩
    · omega
    · obtain rfl := Option.some.inj (hp.symm.trans hp')
      obtain rfl := Option.some.inj (hq.symm.trans hq')
      rcases hparents with hpq | ⟨rfl, hlist⟩
      · rcases hparents' with hqp | ⟨rfl, -⟩
        · exact not_sublist_swap hnodup hpq hqp
        · exact not_sublist_swap hnodup hpq hpq
      · rcases hparents' with hqp | ⟨-, hlist'⟩
        · exact not_sublist_swap hnodup hqp hqp
        · exact not_sublist_swap (h.nodup_childList p) hlist hlist'

/-- A level has the children of the level before it, in the order of their parents. -/
theorem Linked.pairwise_nextLevel (h : s.Linked) (level : List Entity) :
    (s.nextLevel level).Pairwise fun x y => ∃ p q, s.up x = some p ∧ s.up y = some q ∧
      ([p, q].Sublist level ∨ p = q ∧ [x, y].Sublist (s.childList p)) := by
  refine List.pairwise_flatMap.mpr ⟨fun p _ => ?_, ?_⟩
  · refine List.pairwise_iff_forall_sublist.mpr fun {x y} hlist => ?_
    exact ⟨p, p, h.up_of_mem_childList (hlist.subset (by simp)),
      h.up_of_mem_childList (hlist.subset (by simp)), Or.inr ⟨rfl, hlist⟩⟩
  · refine List.pairwise_iff_forall_sublist.mpr fun {p q} hparents x hx y hy => ?_
    exact ⟨p, q, h.up_of_mem_childList hx, h.up_of_mem_childList hy, Or.inl hparents⟩

/-- By induction on the levels collected so far, against the list of all that will be. -/
theorem Consistent.pairwise_below (h : s.Consistent) {depth total : Nat} (hle : depth ≤ total) :
    (s.below depth [root]).Pairwise (s.Precedes root (s.below total [root])) := by
  induction depth with
  | zero => exact List.Pairwise.nil
  | succ depth ih =>
    rw [below_succ]
    refine List.pairwise_append.mpr ⟨ih (by omega), ?_, fun x hx y hy => ?_⟩
    · have hlevel := h.pairwise_nextLevel (s.levelAt depth [root])
      rw [← levelAt_succ] at hlevel
      refine hlevel.imp_of_mem fun {x y} hx hy => ?_
      rintro ⟨p, q, hp, hq, hparents⟩
      refine ⟨_, _, (h.mem_levelAt _).mp hx, (h.mem_levelAt _).mp hy,
        Or.inr ⟨rfl, p, q, hp, hq, ?_⟩⟩
      -- Only the level of the root is not itself part of the list, and it has one entity.
      refine hparents.imp_left fun hpq => ?_
      cases depth with
      | zero =>
        have hlength : 2 ≤ 1 := hpq.length_le
        omega
      | succ depth => exact hpq.trans (levelAt_sublist_below (by omega) [root])
    · obtain ⟨k, -, hk, hup⟩ := (h.mem_below depth).mp hx
      exact ⟨k, depth + 1, hup, (h.mem_levelAt _).mp hy, Or.inl (by omega)⟩

theorem Consistent.levelOrder_below (h : s.Consistent) (hroot : s.isValid root) (depth : Nat) :
    s.LevelOrder root depth (s.below depth [root]) := by
  have hnodup := (h.descendants_run hroot depth).2
  have hordered : ∀ a b, [a, b].Sublist (s.below depth [root]) →
      s.Precedes root (s.below depth [root]) a b :=
    fun _ _ => List.pairwise_iff_forall_sublist.mp (h.pairwise_below le_rfl)
  refine ⟨fun x => h.mem_below depth, hnodup, fun x hx y hy => ⟨hordered x y, ?_⟩⟩
  intro hxy
  by_cases hne : x = y
  · subst hne
    exact absurd hxy (h.precedes_asymm hnodup.of_cons hxy)
  · -- If `y` came first, both would precede each other.
    rcases sublist_or_swap hx hy hne with hbefore | hafter
    · exact hbefore
    · exact absurd (hordered y x hafter) (h.precedes_asymm hnodup.of_cons hxy)

/-- In a store with agreeing links, what lies below a living entity down to a depth is answered for
every depth: exactly the entities that it is the ancestor of within that many links, each once,
level by level. A greater depth only adds to the end. The way down without a bound ends, and a depth
of the number of living entities goes as far as it. -/
theorem descendants_level_by_level (hs : s.Consistent) (hroot : s.isValid root) :
    (∀ depth, ∃ listed, s.descendants root depth = .ok listed ∧ s.LevelOrder root depth listed) ∧
    (∀ depth more, depth ≤ more → ∃ listed further, s.descendants root depth = .ok listed ∧
      s.descendants root more = .ok further ∧ listed <+: further) ∧
    ∃ all, s.allDescendants root = .ok all ∧ Descent s [root] all ∧
      ∀ depth, s.entities.length ≤ depth → s.descendants root depth = .ok all := by
  have hrun := fun depth => (hs.descendants_run hroot depth).1
  refine ⟨fun depth => ⟨_, hrun depth, hs.levelOrder_below hroot depth⟩,
    fun depth more hle => ⟨_, _, hrun depth, hrun more, below_grows hle [root]⟩,
    _, hrun depthLimit, hs.descent_allDescendants hroot, fun depth hdepth => ?_⟩
  obtain ⟨hbottom, hbelow⟩ := hs.levelAt_depthLimit hroot
  rw [hrun depth, hbelow, below_eq_of_levelAt hbottom hdepth]

/-- A tree whose entities were made and linked in another order than they stand in. -/
def graftedRun : List Request :=
  [.create, .create, .create, .create, .create, .create, .create,
    .edit (.addChildren ⟨0, 0⟩ [⟨5, 0⟩, ⟨2, 0⟩]), .addChild ⟨2, 0⟩ ⟨1, 0⟩,
    .edit (.addChildren ⟨5, 0⟩ [⟨6, 0⟩, ⟨3, 0⟩]), .addChild ⟨1, 0⟩ ⟨4, 0⟩]

theorem descendants_level_by_level_grafted :
    Ast.carriedOut graftedRun = true ∧ (Ast.reached graftedRun).store.isValid ⟨0, 0⟩ = true ∧
    (Ast.reached graftedRun).store.descendants ⟨0, 0⟩ 2 =
      .ok [⟨5, 0⟩, ⟨2, 0⟩, ⟨6, 0⟩, ⟨3, 0⟩, ⟨1, 0⟩] ∧
    (Ast.reached graftedRun).store.LevelOrder ⟨0, 0⟩ 2
      [⟨5, 0⟩, ⟨2, 0⟩, ⟨6, 0⟩, ⟨3, 0⟩, ⟨1, 0⟩] ∧
    (Ast.reached graftedRun).store.allDescendants ⟨0, 0⟩ =
      .ok [⟨5, 0⟩, ⟨2, 0⟩, ⟨6, 0⟩, ⟨3, 0⟩, ⟨1, 0⟩, ⟨4, 0⟩] := by
  have hrun : Ast.carriedOut graftedRun = true := by decide +kernel
  have hroot : (Ast.reached graftedRun).store.isValid ⟨0, 0⟩ = true := by decide +kernel
  have htwo : (Ast.reached graftedRun).store.descendants ⟨0, 0⟩ 2 =
      .ok [⟨5, 0⟩, ⟨2, 0⟩, ⟨6, 0⟩, ⟨3, 0⟩, ⟨1, 0⟩] := by decide +kernel
  have hseven : (Ast.reached graftedRun).store.descendants ⟨0, 0⟩ 7 =
      .ok [⟨5, 0⟩, ⟨2, 0⟩, ⟨6, 0⟩, ⟨3, 0⟩, ⟨1, 0⟩, ⟨4, 0⟩] := by decide +kernel
  have hcount : (Ast.reached graftedRun).store.entities.length ≤ 7 := by decide +kernel
  obtain ⟨hlevels, -, all, hall, -, hdeep⟩ :=
    descendants_level_by_level (consistent_carriedOut hrun) hroot
  obtain ⟨listed, hlisted, horder⟩ := hlevels 2
  obtain rfl := Except.ok.inj (htwo.symm.trans hlisted)
  refine ⟨hrun, hroot, htwo, horder, hall.trans ?_⟩
  rw [← hdeep 7 hcount, hseven]

end ModuleCompiler.Store
