import Mathlib.Data.List.Nodup
import Mathlib.Logic.Function.Basic
import Mathlib.Logic.Relation
import ModuleCompiler.Entity

/-!
Links as two functions: `up` gives the parent an entity names, `down` the list of children it
holds. In a forest no entity lies above itself and whatever is listed names the owner of the list.
A forest may be unsettled: an entity may name a parent that does not list it, and even one that has
ended. Linking and unlinking are followed on the two functions alone.
-/

namespace ModuleCompiler

abbrev Up := Entity → Option Entity

abbrev Down := Entity → Option (List Entity)

def Names (up : Up) (child parent : Entity) : Prop := up child = some parent

/-- `ancestor` lies above `id`, by one link or more. -/
abbrev Above (up : Up) (id ancestor : Entity) : Prop := Relation.TransGen (Names up) id ancestor

structure Forest (up : Up) (down : Down) : Prop where
  acyclic : ∀ id, ¬ Above up id id
  nonempty : ∀ parent list, down parent = some list → list ≠ []
  nodup : ∀ parent list, down parent = some list → list.Nodup
  named : ∀ parent list, down parent = some list → ∀ child ∈ list, up child = some parent

/-- Every parent that is named lists the entity that names it. -/
def Settled (up : Up) (down : Down) : Prop :=
  ∀ child parent, up child = some parent → ∃ list, down parent = some list ∧ child ∈ list

variable {up : Up} {down : Down}

theorem forest_empty : Forest (fun _ => none) fun _ => none := by
  refine ⟨?_, by simp, by simp, by simp⟩
  intro id h
  obtain ⟨_, hstep, _⟩ := Relation.TransGen.head'_iff.mp h
  cases hstep

theorem settled_empty : Settled (fun _ => none) fun _ => none := by
  intro child parent h
  cases h

theorem above_iff {id ancestor : Entity} :
    Above up id ancestor ↔ ∃ parent, up id = some parent ∧
      (parent = ancestor ∨ Above up parent ancestor) := by
  unfold Above
  rw [Relation.TransGen.head'_iff]
  simp only [Relation.reflTransGen_iff_eq_or_transGen, eq_comm (a := ancestor)]
  rfl

/-- Without some of the links, no more entities lie above any. -/
theorem Above.of_fewer {fewer : Up} (h : ∀ id parent, fewer id = some parent → up id = some parent)
    {id ancestor : Entity} (habove : Above fewer id ancestor) : Above up id ancestor :=
  Relation.TransGen.mono h _ _ habove

theorem update_none_fewer (child : Entity) :
    ∀ id parent, Function.update up child none id = some parent → up id = some parent := by
  intro id parent h
  rw [Function.update_apply] at h
  split at h
  · cases h
  · exact h

/-- A new link only adds ways that lead through it. -/
theorem Above.of_link {child parent id ancestor : Entity}
    (h : Above (Function.update up child (some parent)) id ancestor) :
    Above up id ancestor ∨
      Relation.ReflTransGen (Names up) id child ∧
        Relation.ReflTransGen (Names up) parent ancestor := by
  have hstep : ∀ {a b}, Names (Function.update up child (some parent)) a b →
      Names up a b ∨ a = child ∧ b = parent := by
    intro a b hab
    unfold Names at hab
    rw [Function.update_apply] at hab
    split at hab
    · rename_i ha
      exact Or.inr ⟨ha, (Option.some.inj hab).symm⟩
    · exact Or.inl hab
  induction h with
  | single hab =>
    rcases hstep hab with hold | ⟨rfl, rfl⟩
    · exact Or.inl (.single hold)
    · exact Or.inr ⟨.refl, .refl⟩
  | tail _ hbc ih =>
    rcases hstep hbc with hold | ⟨rfl, rfl⟩
    · rcases ih with hway | ⟨hto, hfrom⟩
      · exact Or.inl (hway.tail hold)
      · exact Or.inr ⟨hto, hfrom.tail hold⟩
    · rcases ih with hway | ⟨hto, _⟩
      · exact Or.inr ⟨hway.to_reflTransGen, .refl⟩
      · exact Or.inr ⟨hto, .refl⟩

/-- A new link of an entity that named no parent changes nothing above its parent, unless the entity
is there itself. -/
theorem above_link_iff {child parent ancestor : Entity} (htop : up child = none)
    (hne : child ≠ parent) (hbelow : ¬ Above up parent child) :
    Above (Function.update up child (some parent)) parent ancestor ↔ Above up parent ancestor := by
  constructor
  · intro habove
    rcases habove.of_link with hold | ⟨hto, -⟩
    · exact hold
    · rcases Relation.reflTransGen_iff_eq_or_transGen.mp hto with heq | hway
      · exact absurd heq hne
      · exact absurd hway hbelow
  · apply Above.of_fewer
    intro id above hup
    have hid : id ≠ child := by
      rintro rfl
      rw [htop] at hup
      cases hup
    rwa [Function.update_of_ne hid]

namespace Forest

/-- An entity that names no parent may name any that is neither itself nor below it. The parent's
list need not grow for this. -/
theorem name (h : Forest up down) {child parent : Entity} (htop : up child = none)
    (hne : child ≠ parent) (hbelow : ¬ Above up parent child) :
    Forest (Function.update up child (some parent)) down := by
  refine ⟨?_, h.nonempty, h.nodup, ?_⟩
  · intro id hcycle
    rcases hcycle.of_link with hold | ⟨hto, hfrom⟩
    · exact h.acyclic id hold
    · rcases Relation.reflTransGen_iff_eq_or_transGen.mp (hfrom.trans hto) with heq | hway
      · exact hne heq
      · exact hbelow hway
  · intro owner list hlist x hx
    have hxowner := h.named owner list hlist x hx
    have hxc : x ≠ child := by
      rintro rfl
      rw [htop] at hxowner
      cases hxowner
    rw [Function.update_of_ne hxc]
    exact hxowner

/-- The list of an entity with children put at its end. No list is made for no children. -/
def lengthen (added : List Entity) : Option (List Entity) → Option (List Entity)
  | some old => some (old ++ added)
  | none => if added.isEmpty then none else some added

theorem lengthen_eq_some {added list : List Entity} {old : Option (List Entity)}
    (h : lengthen added old = some list) : list = old.getD [] ++ added := by
  unfold lengthen at h
  split at h
  · exact (Option.some.inj h).symm
  · split at h
    · cases h
    · exact (Option.some.inj h).symm

theorem lengthen_ne_nil {added list : List Entity} {old : Option (List Entity)}
    (h : lengthen added old = some list) (hold : ∀ l, old = some l → l ≠ []) : list ≠ [] := by
  cases old with
  | some l =>
    rw [lengthen_eq_some h]
    simp [hold l rfl]
  | none =>
    cases added with
    | nil => cases h
    | cons child rest =>
      rw [lengthen_eq_some h]
      simp

/-- Entities that name an owner and are not in its list yet may be added to it. -/
theorem append (h : Forest up down) {parent : Entity} {added : List Entity}
    (hnames : ∀ child ∈ added, up child = some parent) (hadded : added.Nodup)
    (hnew : ∀ old, down parent = some old → ∀ child ∈ added, child ∉ old) :
    Forest up (Function.update down parent (lengthen added (down parent))) := by
  refine ⟨h.acyclic, ?_, ?_, ?_⟩
  all_goals
    intro owner list hlist
    rw [Function.update_apply] at hlist
    split at hlist
  · exact lengthen_ne_nil hlist (h.nonempty parent)
  · exact h.nonempty owner list hlist
  · rw [lengthen_eq_some hlist]
    cases hold : down parent with
    | none => simpa using hadded
    | some old =>
      refine List.Nodup.append (h.nodup parent old hold) hadded ?_
      intro child hchild hin
      exact hnew old hold child hin hchild
  · exact h.nodup owner list hlist
  · rename_i howner
    intro child hchild
    rw [lengthen_eq_some hlist, List.mem_append] at hchild
    rw [howner]
    rcases hchild with hchild | hchild
    · cases hold : down parent with
      | none => simp [hold] at hchild
      | some old =>
        rw [hold] at hchild
        exact h.named parent old hold child hchild
    · exact hnames child hchild
  · exact h.named owner list hlist

/-- A list without an entity. A list that becomes empty is dropped. -/
def shorten (child : Entity) (list : Option (List Entity)) : Option (List Entity) :=
  (list.map fun old => old.filter (· ≠ child)).filter (!·.isEmpty)

theorem shorten_eq_some {child : Entity} {list : Option (List Entity)} {rest : List Entity} :
    shorten child list = some rest ↔
      ∃ old, list = some old ∧ rest = old.filter (· ≠ child) ∧ rest ≠ [] := by
  unfold shorten
  rw [Option.filter_eq_some_iff, Option.map_eq_some_iff]
  constructor
  · rintro ⟨⟨old, hold, hrest⟩, hne⟩
    exact ⟨old, hold, hrest.symm, by simpa using hne⟩
  · rintro ⟨old, hold, hrest, hne⟩
    exact ⟨⟨old, hold, hrest.symm⟩, by simpa using hne⟩

theorem unlink (h : Forest up down) {child parent : Entity} (hchild : up child = some parent) :
    Forest (Function.update up child none)
      (Function.update down parent (shorten child (down parent))) := by
  have hshort : ∀ {owner list}, Function.update down parent (shorten child (down parent)) owner =
      some list → list ≠ [] ∧ ∃ old, down owner = some old ∧ list.Sublist old ∧ child ∉ list := by
    intro owner list hlist
    rw [Function.update_apply] at hlist
    split at hlist
    · rename_i howner
      obtain ⟨old, hold, rfl, hne⟩ := shorten_eq_some.mp hlist
      exact ⟨hne, old, howner ▸ hold, List.filter_sublist, by simp⟩
    · rename_i howner
      refine ⟨h.nonempty owner list hlist, list, hlist, List.Sublist.refl _, fun hin => ?_⟩
      have := h.named owner list hlist child hin
      rw [hchild, Option.some.injEq] at this
      exact howner this.symm
  refine ⟨fun id hcycle => h.acyclic id (hcycle.of_fewer (update_none_fewer child)), ?_, ?_, ?_⟩
  · intro owner list hlist
    exact (hshort hlist).1
  · intro owner list hlist
    obtain ⟨_, old, hold, hsub, _⟩ := hshort hlist
    exact (h.nodup owner old hold).sublist hsub
  · intro owner list hlist x hx
    obtain ⟨_, old, hold, hsub, hnot⟩ := hshort hlist
    have hxc : x ≠ child := fun he => hnot (he ▸ hx)
    rw [Function.update_of_ne hxc]
    exact h.named owner old hold x (hsub.subset hx)

/-- The parents that are named when some entities name none any more. -/
def orphan (up : Up) (orphans : List Entity) : Up := fun id => if id ∈ orphans then none else up id

theorem orphan_fewer (orphans : List Entity) :
    ∀ id parent, orphan up orphans id = some parent → up id = some parent := by
  intro id parent h
  unfold orphan at h
  split at h
  · cases h
  · exact h

theorem orphan_nil : orphan up [] = up := by
  funext id
  simp [orphan]

theorem orphan_singleton (child : Entity) : orphan up [child] = Function.update up child none := by
  funext id
  simp [orphan, Function.update_apply]

theorem orphan_cons (child : Entity) (rest : List Entity) :
    orphan (orphan up [child]) rest = orphan up (child :: rest) := by
  funext id
  by_cases hin : id ∈ rest <;> simp [orphan, hin]

/-- Of the orphans above an entity, the nearest is still above it. -/
theorem exists_above_orphan {orphans : List Entity} {id ancestor : Entity}
    (h : Above up id ancestor) (hancestor : ancestor ∈ orphans) (hid : id ∉ orphans) :
    ∃ nearest ∈ orphans, Above (orphan up orphans) id nearest := by
  have hkept : ∀ {x parent}, Names up x parent → x ∉ orphans →
      Names (orphan up orphans) x parent := by
    intro x parent hup hx
    exact (if_neg hx).trans hup
  induction h using Relation.TransGen.head_induction_on with
  | single hup => exact ⟨ancestor, hancestor, .single (hkept hup hid)⟩
  | @head x parent hup _ ih =>
    by_cases hparent : parent ∈ orphans
    · exact ⟨parent, hparent, .single (hkept hup hid)⟩
    · obtain ⟨nearest, hnearest, hway⟩ := ih hparent
      exact ⟨nearest, hnearest, .head (hkept hup hid) hway⟩

theorem clear (h : Forest up down) {parent : Entity} {list : List Entity}
    (hlist : down parent = some list) :
    Forest (orphan up list) (Function.update down parent none) := by
  have hother : ∀ {owner other}, Function.update down parent none owner = some other →
      owner ≠ parent ∧ down owner = some other := by
    intro owner other ho
    rw [Function.update_apply] at ho
    split at ho
    · cases ho
    · rename_i hne
      exact ⟨hne, ho⟩
  refine ⟨fun id hcycle => h.acyclic id (hcycle.of_fewer (orphan_fewer list)), ?_, ?_, ?_⟩
  · intro owner other ho
    exact h.nonempty owner other (hother ho).2
  · intro owner other ho
    exact h.nodup owner other (hother ho).2
  · intro owner other ho x hx
    obtain ⟨hne, hdown⟩ := hother ho
    have hxowner := h.named owner other hdown x hx
    have hxlist : x ∉ list := by
      intro hin
      have := h.named parent list hlist x hin
      rw [hxowner, Option.some.injEq] at this
      exact hne this
    rw [orphan, if_neg hxlist]
    exact hxowner

/-- The lists without some entities. A list that becomes empty is dropped. -/
def prune (down : Down) (removed : List Entity) : Down := fun id =>
  ((down id).map (·.filter (· ∉ removed))).filter (!·.isEmpty)

theorem getD_prune (removed : List Entity) (id : Entity) :
    (prune down removed id).getD [] = ((down id).getD []).filter (· ∉ removed) := by
  unfold prune
  cases down id with
  | none => rfl
  | some list =>
    rw [Option.map_some, Option.filter_some, Option.getD_some]
    split
    · rfl
    · rename_i hempty
      simpa using hempty

theorem prune_cons (child : Entity) (rest : List Entity) :
    prune (prune down [child]) rest = prune down (child :: rest) := by
  funext id
  unfold prune
  cases down id with
  | none => rfl
  | some list =>
    have hboth : (list.filter (· ∉ [child])).filter (· ∉ rest) =
        list.filter (· ∉ child :: rest) := by
      rw [List.filter_filter]
      congr 1
      funext x
      simp [Bool.and_comm]
    simp only [Option.map_some, Option.filter_some]
    split
    · rw [Option.map_some, Option.filter_some, hboth]
    · rename_i hempty
      have hnil : list.filter (· ∉ [child]) = [] := by simpa using hempty
      rw [hnil, List.filter_nil] at hboth
      rw [← hboth]
      rfl

/-- A list that has none of the entities stays as it is. -/
theorem prune_of_disjoint (h : Forest up down) {removed : List Entity} {id : Entity}
    (hout : ∀ child ∈ removed, up child ≠ some id) : prune down removed id = down id := by
  unfold prune
  cases hlist : down id with
  | none => rfl
  | some list =>
    have hall : list.filter (· ∉ removed) = list := by
      apply List.filter_eq_self.mpr
      intro x hx
      have hnot : x ∉ removed := fun hin => hout x hin (h.named id list hlist x hx)
      simpa using hnot
    rw [Option.map_some, hall]
    simp [h.nonempty id list hlist]

theorem prune_of_top (h : Forest up down) {removed : List Entity}
    (htop : ∀ child ∈ removed, up child = none) : prune down removed = down := by
  funext id
  apply h.prune_of_disjoint
  intro child hchild hup
  rw [htop child hchild] at hup
  cases hup

theorem prune_singleton (h : Forest up down) {child parent : Entity}
    (hup : up child = some parent) :
    prune down [child] = Function.update down parent (shorten child (down parent)) := by
  funext id
  by_cases hid : id = parent
  · subst hid
    simp [prune, shorten]
  · rw [Function.update_of_ne hid]
    apply h.prune_of_disjoint
    intro x hx
    rw [List.mem_singleton.mp hx, hup, ne_eq, Option.some.injEq]
    exact Ne.symm hid

end Forest

namespace Settled

open Forest

/-- The parents that are named when some entities all name the same one. -/
def adopt (up : Up) (parent : Entity) (added : List Entity) : Up :=
  fun id => if id ∈ added then some parent else up id

theorem link (h : Settled up down) (parent : Entity) (added : List Entity) :
    Settled (adopt up parent added)
      (Function.update down parent (lengthen added (down parent))) := by
  intro child owner hchild
  have hnew : child ∈ added → ∃ list, lengthen added (down parent) = some list ∧ child ∈ list := by
    intro hin
    cases hold : down parent with
    | some old => exact ⟨old ++ added, rfl, by simp [hin]⟩
    | none => exact ⟨added, by simp [lengthen, List.ne_nil_of_mem hin], hin⟩
  unfold adopt at hchild
  split at hchild
  · rename_i hin
    rw [← Option.some.inj hchild, Function.update_self]
    exact hnew hin
  · obtain ⟨list, hlist, hin⟩ := h child owner hchild
    by_cases howner : owner = parent
    · subst howner
      rw [Function.update_self, hlist]
      exact ⟨list ++ added, rfl, by simp [hin]⟩
    · rw [Function.update_of_ne howner]
      exact ⟨list, hlist, hin⟩

theorem unlink (h : Settled up down) (child parent : Entity) :
    Settled (Function.update up child none)
      (Function.update down parent (shorten child (down parent))) := by
  intro x owner hx
  have hxc : x ≠ child := by
    rintro rfl
    rw [Function.update_self] at hx
    cases hx
  rw [Function.update_of_ne hxc] at hx
  obtain ⟨list, hlist, hin⟩ := h x owner hx
  by_cases howner : owner = parent
  · subst howner
    rw [Function.update_self]
    have hrest : x ∈ list.filter (· ≠ child) := by simp [hin, hxc]
    exact ⟨_, shorten_eq_some.mpr ⟨list, hlist, rfl, List.ne_nil_of_mem hrest⟩, hrest⟩
  · rw [Function.update_of_ne howner]
    exact ⟨list, hlist, hin⟩

theorem clear (h : Settled up down) {parent : Entity} {list : List Entity}
    (hlist : down parent = some list) :
    Settled (orphan up list) (Function.update down parent none) := by
  intro x owner hx
  unfold orphan at hx
  split at hx
  · cases hx
  · rename_i hout
    obtain ⟨other, hother, hin⟩ := h x owner hx
    have howner : owner ≠ parent := by
      rintro rfl
      rw [hlist, Option.some.injEq] at hother
      exact hout (hother ▸ hin)
    rw [Function.update_of_ne howner]
    exact ⟨other, hother, hin⟩

end Settled

end ModuleCompiler
