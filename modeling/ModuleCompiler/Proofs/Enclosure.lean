import Mathlib.Data.Fintype.EquivFin
import Mathlib.Data.Fintype.List
import Mathlib.Order.WellFounded
import ModuleCompiler.Proofs.Resolution

/-!
The way out of a module, from each module to the one around it. By links alone and by folders alone
such a way comes to an end. But a link comes before the folders, and it may lead to a module whose
folder lies deeper, or elsewhere. Then the way out may run in a ring; and where all ways do, no
module is the project. Every ring has a link that leaves the folder of the module it leads to, so
there is none where the links between modules keep to their folders.
-/

namespace ModuleCompiler.Store

open Relation (TransGen ReflTransGen)

variable {s : Store} {m x outer last : Entity}

/-- The module `outer` is the one around `m`. -/
def Around (s : Store) (m outer : Entity) : Prop := s.enclosingModule m = .ok (some outer)

/-- The way out of `m` ends with `last`, around which there is no module. -/
inductive Surfaces (s : Store) : Entity → Entity → Prop
  | here {m : Entity} (h : s.enclosingModule m = .ok none) : Surfaces s m m
  | outward {m outer last : Entity} (h : s.Around m outer) (hrest : Surfaces s outer last) :
      Surfaces s m last

/-- The module `outer` is the nearest one on the way up from `m` by links. -/
def LinkedBelow (s : Store) (m outer : Entity) : Prop :=
  s.findAncestor m (s.has .module ·) = .ok (some outer)

/-- The folder of `outer` has that of `m` in it, or they are the same. -/
def KeepsTo (s : Store) (m outer : Entity) : Prop :=
  ∃ inner around, s.modulePath m = .ok inner ∧ s.modulePath outer = .ok around ∧
    around.Contains inner

/-- A module that is linked below another lies in its folder. -/
def LinksKeepToFolders (s : Store) : Prop :=
  ∀ m outer, s.has .module m = .ok true → s.LinkedBelow m outer → s.KeepsTo m outer

instance (s : Store) (m outer : Entity) : Decidable (s.Around m outer) :=
  inferInstanceAs (Decidable (_ = _))

instance (s : Store) (m outer : Entity) : Decidable (s.LinkedBelow m outer) :=
  inferInstanceAs (Decidable (_ = _))

theorem keepsTo_iff (hm : s.isValid m) (houter : s.isValid outer) :
    s.KeepsTo m outer ↔ (s.folderOf outer).Contains (s.folderOf m) := by
  simp [KeepsTo, modulePath_run hm, modulePath_run houter]

/-- A step out follows a link, up to a module, or goes to a folder strictly around. -/
theorem Anchored.around_cases (h : s.Anchored) (hm : s.isValid m) (haround : s.Around m outer) :
    outer ∈ s.moduleList ∧
      (s.LinkedBelow m outer ∧ Above s.up m outer ∨
        (s.folderOf outer).StrictlyContains (s.folderOf m)) := by
  have hascent := h.ascent_findAncestor m (s.has .module ·)
  obtain ⟨found, hfound⟩ := h.answer_of_ascent hascent hm fun x hx => ⟨_, has_of_isValid hx⟩
  unfold Around enclosingModule at haround
  rw [hfound] at haround
  cases found with
  | some ancestor =>
    obtain rfl : ancestor = outer := Option.some.inj (Except.ok.inj haround)
    have hmodule := mem_moduleList_iff.mpr (hascent.test_of_found hfound)
    exact ⟨hmodule, Or.inl ⟨hfound, hascent.above_of_found hfound⟩⟩
  | none =>
    replace haround : s.moduleByFolder m = .ok (some outer) := haround
    rw [h.sound.moduleByFolder_run hm] at haround
    obtain ⟨hmodule, hinside⟩ := nearestByFolder_eq_some (Except.ok.inj haround)
    exact ⟨hmodule, Or.inr (liesInside_iff.mp hinside).2⟩

theorem Around.unique (h : s.Around m outer) (h' : s.Around m x) : outer = x :=
  Option.some.inj (Except.ok.inj (h.symm.trans h'))

theorem Anchored.mem_moduleList_of_around (h : s.Anchored) (haround : s.Around m outer) :
    outer ∈ s.moduleList := by
  by_cases hm : s.isValid m
  · exact (h.around_cases hm haround).1
  · unfold Around enclosingModule at haround
    rw [findAncestor, climb_stale hm] at haround
    cases haround

theorem Anchored.mem_moduleList_of_way (h : s.Anchored) (hway : TransGen s.Around m last) :
    last ∈ s.moduleList := by
  obtain ⟨_, _, haround⟩ := TransGen.tail'_iff.mp hway
  exact h.mem_moduleList_of_around haround

/-- Whether links keep to folders can be seen from the modules in the store. -/
theorem Linked.linksKeepToFolders_iff (h : s.Linked) :
    s.LinksKeepToFolders ↔
      ∀ m ∈ s.moduleList, ∀ outer ∈ s.moduleList, s.LinkedBelow m outer →
        (s.folderOf outer).Contains (s.folderOf m) := by
  constructor
  · intro hkeeps m hm outer houter hlinked
    exact (keepsTo_iff (isValid_of_mem_moduleList hm) (isValid_of_mem_moduleList houter)).mp
      (hkeeps m outer (mem_moduleList_iff.mp hm) hlinked)
  · intro hkeeps m outer hm hlinked
    replace hm := mem_moduleList_iff.mpr hm
    have houter := mem_moduleList_iff.mpr
      ((h.ascent_findAncestor m (s.has .module ·)).test_of_found hlinked)
    exact (keepsTo_iff (isValid_of_mem_moduleList hm) (isValid_of_mem_moduleList houter)).mpr
      (hkeeps m hm outer houter hlinked)

/-- As long as links keep to folders, a way out never leads to a deeper folder, and it leads up by
links alone unless it has reached a folder that is less deep. -/
theorem Anchored.depth_of_way (h : s.Anchored) (hm : s.isValid m)
    (hkeeps : ∀ x outer, ReflTransGen s.Around m x → s.LinkedBelow x outer → s.KeepsTo x outer)
    (hway : TransGen s.Around m last) :
    (s.folderOf last).depth < (s.folderOf m).depth ∨
      (s.folderOf last).depth ≤ (s.folderOf m).depth ∧ Above s.up m last := by
  -- A link leads up and not deeper; without one the step goes to a folder that is less deep.
  have hstep : ∀ {x outer}, ReflTransGen s.Around m x → s.isValid x → s.Around x outer →
      (s.folderOf outer).depth < (s.folderOf x).depth ∨
        (s.folderOf outer).depth ≤ (s.folderOf x).depth ∧ Above s.up x outer := by
    intro x outer hx hvalid haround
    obtain ⟨hmodule, ⟨hlinked, habove⟩ | hinside⟩ := h.around_cases hvalid haround
    · have hcontains := (keepsTo_iff hvalid (isValid_of_mem_moduleList hmodule)).mp
        (hkeeps x outer hx hlinked)
      exact Or.inr ⟨hcontains.depth_le, habove⟩
    · exact Or.inl hinside.depth_lt
  induction hway with
  | single haround => exact hstep .refl hm haround
  | @tail x outer hway haround ih =>
    have hvalid := isValid_of_mem_moduleList (h.mem_moduleList_of_way hway)
    rcases hstep hway.to_reflTransGen hvalid haround with hless | ⟨hle, habove⟩
    · left
      omega
    · rcases ih with hless | ⟨hle', habove'⟩
      · left
        omega
      · exact Or.inr ⟨by omega, habove'.trans habove⟩

/-- Somewhere in a ring a module is linked below one whose folder it does not lie in. -/
theorem Anchored.exists_link_of_ring (h : s.Anchored) (hring : TransGen s.Around m m) :
    ∃ x outer, ReflTransGen s.Around m x ∧ s.LinkedBelow x outer ∧ ¬ s.KeepsTo x outer := by
  by_contra hnone
  have hkeeps : ∀ x outer, ReflTransGen s.Around m x → s.LinkedBelow x outer →
      s.KeepsTo x outer := by
    intro x outer hx hlinked
    by_contra hleaves
    exact hnone ⟨x, outer, hx, hlinked, hleaves⟩
  have hm := isValid_of_mem_moduleList (h.mem_moduleList_of_way hring)
  rcases h.depth_of_way hm hkeeps hring with hless | ⟨-, habove⟩
  · exact Nat.lt_irrefl _ hless
  · exact h.forest.acyclic m habove

theorem Anchored.no_ring_of_keeps (h : s.Anchored) (hkeeps : s.LinksKeepToFolders) (m : Entity) :
    ¬ TransGen s.Around m m := by
  intro hring
  obtain ⟨x, outer, hx, hlinked, hleaves⟩ := h.exists_link_of_ring hring
  have hmodule := h.mem_moduleList_of_way (hring.trans_left hx)
  exact hleaves (hkeeps x outer (mem_moduleList_iff.mp hmodule) hlinked)

/-- A way out that has an end does not run in a ring. -/
theorem Surfaces.not_ring (h : s.Surfaces m last) : ¬ TransGen s.Around m m := by
  induction h with
  | here h =>
    intro hring
    obtain ⟨x, haround, -⟩ := TransGen.head'_iff.mp hring
    have hsame := h.symm.trans haround
    cases hsame
  | outward haround _ ih =>
    intro hring
    obtain ⟨x, haround', hback⟩ := TransGen.head'_iff.mp hring
    obtain rfl := haround.unique haround'
    exact ih (TransGen.tail' hback haround)

/-- There are finitely many modules, so a way out that meets none twice comes to an end. -/
theorem Anchored.surfaces_of_no_ring (h : s.Anchored) (hring : ∀ m, ¬ TransGen s.Around m m)
    (hm : m ∈ s.moduleList) : ∃ last, s.Surfaces m last := by
  -- Being further out is irreflexive where there are no rings, hence well-founded on a finite set.
  let outside : {x // x ∈ s.moduleList} → {x // x ∈ s.moduleList} → Prop :=
    TransGen fun a b => s.Around b.1 a.1
  have hinside : ∀ a b, outside a b → TransGen s.Around b.1 a.1 := by
    intro a b hab
    induction hab with
    | single haround => exact .single haround
    | tail _ haround ih => exact .head haround ih
  have hirrefl : Std.Irrefl outside := ⟨fun a haa => hring a.1 (hinside a a haa)⟩
  have hfounded : WellFounded outside := Finite.wellFounded_of_trans_of_irrefl outside
  suffices hall : ∀ a : {x // x ∈ s.moduleList}, ∃ last, s.Surfaces a.1 last from hall ⟨m, hm⟩
  intro a
  induction a using hfounded.induction with
  | _ a ih =>
    obtain ⟨around, haround, -⟩ := h.enclosingModule_ok (isValid_of_mem_moduleList a.2)
    cases around with
    | none => exact ⟨a.1, .here haround⟩
    | some outer =>
      have houter := h.mem_moduleList_of_around haround
      obtain ⟨last, hlast⟩ := ih ⟨outer, houter⟩ (TransGen.single haround)
      exact ⟨last, .outward haround hlast⟩

theorem Anchored.surfaces_iff_no_ring (h : s.Anchored) :
    (∀ m ∈ s.moduleList, ∃ last, s.Surfaces m last) ↔ ∀ m, ¬ TransGen s.Around m m := by
  constructor
  · intro hall m hring
    obtain ⟨last, hlast⟩ := hall m (h.mem_moduleList_of_way hring)
    exact hlast.not_ring hring
  · exact fun hring m hm => h.surfaces_of_no_ring hring hm

theorem Anchored.last_of_surfaces (h : s.Anchored) (hsurfaces : s.Surfaces m last)
    (hm : m ∈ s.moduleList) : last ∈ s.moduleList ∧ s.enclosingModule last = .ok none := by
  induction hsurfaces with
  | here hnone => exact ⟨hm, hnone⟩
  | outward haround _ ih => exact ih (h.mem_moduleList_of_around haround)

theorem Anchored.exists_project_iff (h : s.Anchored) :
    (∃ project, s.projectModule = .ok (some project)) ↔
      ∃ m ∈ s.moduleList, ∃ last, s.Surfaces m last := by
  rw [h.projectModule_run]
  constructor
  · rintro ⟨project, hproject⟩
    have hfound := Except.ok.inj hproject
    exact ⟨project, mem_moduleList_of_projectOf hfound, project,
      .here (enclosingModule_of_projectOf hfound)⟩
  · rintro ⟨m, hm, last, hsurfaces⟩
    obtain ⟨hlast, hnone⟩ := h.last_of_surfaces hsurfaces hm
    have hin : last ∈ s.moduleList.filter fun id => decide (s.enclosingModule id = .ok none) :=
      List.mem_filter.mpr ⟨hlast, decide_eq_true hnone⟩
    obtain ⟨project, _, hlist⟩ := List.exists_cons_of_ne_nil (List.ne_nil_of_mem hin)
    refine ⟨project, ?_⟩
    rw [projectOf, hlist, List.head?_cons]

/-- Where no link leads to an entity that has ended, `projectModule` answers, with a module around
which there is none; it finds one exactly if the way out of some module ends. All ways out end
exactly if none runs in a ring. Every ring has a link that leaves the folder of the module it leads
to, so where links keep to folders all ways out end, and there is a project if there is a module. -/
theorem project_of_ways_out (hs : s.Reachable) (hlinks : s.LinksAlive) :
    (∃ answer, s.projectModule = .ok answer ∧
      (∀ project ∈ answer, s.has .module project = .ok true ∧
        s.enclosingModule project = .ok none) ∧
      (answer.isSome ↔ ∃ m last, s.has .module m = .ok true ∧ s.Surfaces m last)) ∧
    ((∀ m, s.has .module m = .ok true → ∃ last, s.Surfaces m last) ↔
      ∀ m, ¬ TransGen s.Around m m) ∧
    (∀ m, TransGen s.Around m m →
      ∃ x outer, ReflTransGen s.Around m x ∧ s.LinkedBelow x outer ∧ ¬ s.KeepsTo x outer) ∧
    (s.LinksKeepToFolders →
      (∀ m, s.has .module m = .ok true → ∃ last, s.Surfaces m last) ∧
      ((∃ m, s.has .module m = .ok true) →
        ∃ project, s.projectModule = .ok (some project))) := by
  have h := hs.anchored hlinks
  simp only [← mem_moduleList_iff]
  refine ⟨⟨_, h.projectModule_run, ?_, ?_⟩, h.surfaces_iff_no_ring, fun _ => h.exists_link_of_ring,
    ?_⟩
  · intro project hproject
    exact ⟨mem_moduleList_of_projectOf hproject, enclosingModule_of_projectOf hproject⟩
  · rw [Option.isSome_iff_exists]
    simpa only [h.projectModule_run, Except.ok.injEq, exists_and_left] using h.exists_project_iff
  · intro hkeeps
    have hall := h.surfaces_iff_no_ring.mpr (h.no_ring_of_keeps hkeeps)
    refine ⟨hall, ?_⟩
    rintro ⟨m, hm⟩
    exact h.exists_project_iff.mpr ⟨m, hm, hall m hm⟩

/-- Three modules in nested folders, of which only the second is linked below the first. -/
def nestedRun : List Request :=
  [.create, .create, .create, .insert .module ⟨0, 0⟩ .executable,
    .insert .module ⟨1, 0⟩ .staticLibrary, .insert .module ⟨2, 0⟩ .staticLibrary,
    .insert .fileRef ⟨0, 0⟩ (.ofString "p/Module.rift"),
    .insert .fileRef ⟨1, 0⟩ (.ofString "p/q/Module.rift"),
    .insert .fileRef ⟨2, 0⟩ (.ofString "p/q/r/Module.rift"), .addChild ⟨0, 0⟩ ⟨1, 0⟩]

theorem project_of_ways_out_nested :
    (Ast.reached nestedRun).store.LinksKeepToFolders ∧
    (Ast.reached nestedRun).store.Surfaces ⟨2, 0⟩ ⟨0, 0⟩ ∧
    ∃ project, (Ast.reached nestedRun).store.projectModule = .ok (some project) := by
  have hrun : Ast.carriedOut nestedRun = true := by decide +kernel
  have hlinks := consistent_carriedOut hrun
  have hfirst : (Ast.reached nestedRun).store.enclosingModule ⟨0, 0⟩ = .ok none := by
    decide +kernel
  have hsecond : (Ast.reached nestedRun).store.Around ⟨1, 0⟩ ⟨0, 0⟩ := by
    decide +kernel
  have hthird : (Ast.reached nestedRun).store.Around ⟨2, 0⟩ ⟨1, 0⟩ := by
    decide +kernel
  have hkeeps : (Ast.reached nestedRun).store.LinksKeepToFolders := by
    rw [hlinks.toLinked.linksKeepToFolders_iff]
    decide +kernel
  exact ⟨hkeeps, .outward hthird (.outward hsecond (.here hfirst)),
    ((project_of_ways_out ⟨_, rfl⟩ hlinks.linksAlive).2.2.2 hkeeps).2 ⟨⟨0, 0⟩, by decide +kernel⟩⟩

/-- Two modules in nested folders, of which the outer one is linked below the inner one. -/
def crossedRun : List Request :=
  [.create, .create, .insert .module ⟨0, 0⟩ .executable, .insert .module ⟨1, 0⟩ .staticLibrary,
    .insert .fileRef ⟨0, 0⟩ (.ofString "p/Module.rift"),
    .insert .fileRef ⟨1, 0⟩ (.ofString "p/q/Module.rift"), .addChild ⟨1, 0⟩ ⟨0, 0⟩]

/-- Each of two modules may be the one around the other; then there is no project. -/
theorem crossed_modules_without_project :
    Ast.carriedOut crossedRun = true ∧
    (Ast.reached crossedRun).store.modules = .ok [⟨0, 0⟩, ⟨1, 0⟩] ∧
    (Ast.reached crossedRun).store.Around ⟨0, 0⟩ ⟨1, 0⟩ ∧
    (Ast.reached crossedRun).store.Around ⟨1, 0⟩ ⟨0, 0⟩ ∧
    (Ast.reached crossedRun).store.projectModule = .ok none := by
  decide +kernel

end ModuleCompiler.Store
