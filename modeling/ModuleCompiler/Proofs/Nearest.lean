import ModuleCompiler.Proofs.Levels
import ModuleCompiler.Proofs.Resolution

/-!
Which module is the one around another. A module met on the way up comes first, and the nearest is
taken. Without one the folders decide: all folders around a folder are beginnings of one list of
parts, so they lie around each other, and those of one length are the same however they are spelled.
The longest is taken, and of several modules in it the last.
-/

namespace ModuleCompiler.Store

variable {s : Store} {id m other : Entity}

/-- The nearest module on the way up from an entity, with no module between. -/
def NearestAbove (s : Store) (id m : Entity) : Prop :=
  ∃ k, s.ancestorAt (k + 1) id = some m ∧ s.has .module m = .ok true ∧
    ∀ j < k, ∀ x, s.ancestorAt (j + 1) id = some x → s.has .module x = .ok false

/-- No entity above is a module. -/
def NoneAbove (s : Store) (id : Entity) : Prop :=
  ∀ k x, s.ancestorAt (k + 1) id = some x → s.has .module x = .ok false

theorem ancestorAt_of_parent {parent : Entity} (h : s.parent? id = .ok (some parent)) (k : Nat) :
    s.ancestorAt (k + 1) id = s.ancestorAt k parent := by
  rw [ancestorAt, (parent?_eq_ok h).2, Option.bind_some]

/-- What is found on the way up is the first to pass the test. -/
theorem Ascent.first_of_found {test : Entity → Except Fault Bool}
    {answer : Except Fault (Option Entity)} (h : Ascent s test id answer)
    (hanswer : answer = .ok (some m)) :
    ∃ k, s.ancestorAt (k + 1) id = some m ∧ test m = .ok true ∧
      ∀ j < k, ∀ x, s.ancestorAt (j + 1) id = some x → test x = .ok false := by
  induction h with
  | refused _ => cases hanswer
  | top _ => cases hanswer
  | untested _ _ => cases hanswer
  | found hparent htest =>
    cases hanswer
    exact ⟨0, ancestorAt_of_parent hparent 0, htest, fun j hj => absurd hj (Nat.not_lt_zero j)⟩
  | further hparent htest _ ih =>
    obtain ⟨k, hk, hm, hbetween⟩ := ih hanswer
    refine ⟨k + 1, (ancestorAt_of_parent hparent _).trans hk, hm, fun j hj x hx => ?_⟩
    rw [ancestorAt_of_parent hparent] at hx
    cases j with
    | zero => exact Option.some.inj hx ▸ htest
    | succ j => exact hbetween j (Nat.lt_of_succ_lt_succ hj) x hx

/-- A way up that ends at the top has passed the test nowhere. -/
theorem Ascent.failed_of_none {test : Entity → Except Fault Bool}
    {answer : Except Fault (Option Entity)} (h : Ascent s test id answer)
    (hanswer : answer = .ok none) (k : Nat) {x : Entity} (hx : s.ancestorAt (k + 1) id = some x) :
    test x = .ok false := by
  induction h generalizing k with
  | refused _ => cases hanswer
  | untested _ _ => cases hanswer
  | found _ _ => cases hanswer
  | top hparent =>
    rw [ancestorAt, (parent?_eq_ok hparent).2] at hx
    cases hx
  | further hparent htest _ ih =>
    rw [ancestorAt_of_parent hparent] at hx
    cases k with
    | zero => exact Option.some.inj hx ▸ htest
    | succ k => exact ih hanswer k hx

/-- The way up leads to the nearest module, or there is none and the folders are asked. -/
theorem Anchored.enclosingModule_cases (h : s.Anchored) (hid : s.isValid id) :
    (∃ outer, s.enclosingModule id = .ok (some outer) ∧ s.NearestAbove id outer) ∨
    s.NoneAbove id ∧ s.enclosingModule id = .ok (s.nearestByFolder id) := by
  have hascent := h.ascent_findAncestor id (s.has .module ·)
  obtain ⟨found, hfound⟩ := h.answer_of_ascent hascent hid fun x hx => ⟨_, has_of_isValid hx⟩
  unfold enclosingModule
  rw [hfound]
  cases found with
  | some outer => exact Or.inl ⟨outer, rfl, hascent.first_of_found hfound⟩
  | none =>
    refine Or.inr ⟨fun k x hx => ?_, h.sound.moduleByFolder_run hid⟩
    exact hascent.failed_of_none hfound k hx

theorem NearestAbove.not_noneAbove (h : s.NearestAbove id m) : ¬ s.NoneAbove id := by
  intro hnone
  obtain ⟨k, hk, hmodule, -⟩ := h
  rw [hnone k m hk] at hmodule
  cases hmodule

/-- The folder of `other`, which is not the empty path, lies strictly around that of `id`. -/
def Surrounds (s : Store) (other id : Entity) : Prop :=
  (s.folderOf other).isEmpty = false ∧ (s.folderOf other).StrictlyContains (s.folderOf id)

/-- Of the modules with folders around that of `id`, `m` has the longest, which lies in all the
others, and it is the last of the modules in this folder. -/
structure ClosestAround (s : Store) (modules : List Entity) (id m : Entity) : Prop where
  mem : m ∈ modules
  surrounds : s.Surrounds m id
  longest : ∀ other ∈ modules, s.Surrounds other id → (s.folderOf other).Contains (s.folderOf m)
  last : (modules.filter fun other => (s.folderOf other).same (s.folderOf m)).getLast? = some m

theorem Surrounds.ne (h : s.Surrounds other id) : other ≠ id := by
  rintro rfl
  exact h.2.2 rfl

/-- Folders around the same folder lie around each other. -/
theorem Surrounds.contains (h : s.Surrounds other id) (hm : s.Surrounds m id)
    (hle : (s.folderOf other).depth ≤ (s.folderOf m).depth) :
    (s.folderOf other).Contains (s.folderOf m) :=
  List.prefix_of_prefix_length_le h.2.1 hm.2.1 hle

theorem Surrounds.of_same (hm : s.Surrounds m id)
    (hsame : (s.folderOf other).parts = (s.folderOf m).parts) : s.Surrounds other id := by
  refine ⟨?_, ?_⟩
  · -- Only the empty path has no parts, and the folder of `m` has some.
    by_contra hempty
    have hnil : (s.folderOf other).chars = [] := by simpa [Path.isEmpty] using hempty
    have hchars : (s.folderOf m).chars ≠ [] := by simpa [Path.isEmpty] using hm.1
    refine Path.parts_ne_nil hchars (hsame.symm.trans ?_)
    rw [Path.parts_eq, hnil]
    rfl
  · rw [Path.StrictlyContains, Path.Contains, hsame]
    exact hm.2

/-- The modules with folders strictly around that of an entity, in order. -/
def surrounding (s : Store) (id : Entity) : List Entity :=
  s.moduleList.filter fun other => liesInside (s.folderOf id) (s.folderOf other)

theorem mem_surrounding :
    other ∈ s.surrounding id ↔ other ∈ s.moduleList ∧ s.Surrounds other id := by
  rw [surrounding, List.mem_filter, liesInside_iff]
  rfl

theorem nearestByFolder_eq_deepest (s : Store) (id : Entity) :
    s.nearestByFolder id =
      (deepest ((s.surrounding id).map fun other => (other, s.folderOf other))).map Prod.fst := by
  unfold nearestByFolder
  by_cases hempty : (s.folderOf id).isEmpty = true
  · -- Nothing lies strictly around the empty path.
    have hnone : s.surrounding id = [] := by
      refine List.eq_nil_iff_forall_not_mem.mpr fun other hother => ?_
      have hstrict := (mem_surrounding.mp hother).2.2
      have hnil : (s.folderOf id).parts = [] := by
        rw [Path.parts_eq, List.isEmpty_iff.mp hempty]
        rfl
      rw [Path.StrictlyContains, Path.Contains, hnil] at hstrict
      exact hstrict.2 (List.prefix_nil.mp hstrict.1)
    rw [if_pos hempty, hnone]
    rfl
  · have hothers : (s.moduleList.filter (· ≠ id)).filter
        (fun other => liesInside (s.folderOf id) (s.folderOf other)) = s.surrounding id := by
      rw [List.filter_filter, surrounding]
      refine List.filter_congr fun other _ => ?_
      by_cases hinside : liesInside (s.folderOf id) (s.folderOf other) = true
      · have hsurrounds : s.Surrounds other id := liesInside_iff.mp hinside
        simp [hinside, hsurrounds.ne]
      · simp [hinside]
    rw [if_neg hempty]
    dsimp only
    rw [List.filter_map, ← hothers]
    rfl

theorem closestAround_of_nearestByFolder (h : s.nearestByFolder id = some m) :
    s.ClosestAround s.moduleList id m := by
  rw [nearestByFolder_eq_deepest] at h
  obtain ⟨c, hdeepest, rfl⟩ := Option.map_eq_some_iff.mp h
  obtain ⟨before, after, hsplit, hafter⟩ := deepest_split hdeepest
  obtain ⟨front, rest, hlist, -, hrest⟩ := List.map_eq_append_iff.mp hsplit
  obtain ⟨m, back, rfl, rfl, rfl⟩ := List.map_eq_cons_iff.mp hrest
  obtain ⟨hmem, hm⟩ : m ∈ s.moduleList ∧ s.Surrounds m id :=
    mem_surrounding.mp (by rw [hlist]; simp)
  refine ⟨hmem, hm, fun other hother hsurrounds => ?_, ?_⟩
  · refine hsurrounds.contains hm ((deepest_eq_some hdeepest).2 (other, s.folderOf other) ?_)
    exact List.mem_map.mpr ⟨other, mem_surrounding.mpr ⟨hother, hsurrounds⟩, rfl⟩
  · -- Every module in the same folder is among those around, and none of them comes after `m`.
    have hsame : s.moduleList.filter (fun other => (s.folderOf other).same (s.folderOf m)) =
        (s.surrounding id).filter fun other => (s.folderOf other).same (s.folderOf m) := by
      rw [surrounding, List.filter_filter]
      refine List.filter_congr fun other _ => ?_
      by_cases hfolder : (s.folderOf other).same (s.folderOf m) = true
      · have hinside := liesInside_iff.mpr (hm.of_same (of_decide_eq_true hfolder))
        simp [hfolder, hinside]
      · simp [hfolder]
    have hback : back.filter (fun other => (s.folderOf other).same (s.folderOf m)) = [] := by
      refine List.filter_eq_nil_iff.mpr fun other hother hfolder => ?_
      have hless := hafter (other, s.folderOf other) (List.mem_map.mpr ⟨other, hother, rfl⟩)
      have heq : (s.folderOf other).parts = (s.folderOf m).parts := of_decide_eq_true hfolder
      exact absurd (congrArg List.length heq) (Nat.ne_of_lt hless)
    have hself : (s.folderOf m).same (s.folderOf m) = true := decide_eq_true rfl
    rw [hsame, hlist, List.filter_append, List.filter_cons, hback]
    simp [hself]

theorem ClosestAround.unique {modules : List Entity} (h : s.ClosestAround modules id m)
    (h' : s.ClosestAround modules id other) : m = other := by
  have hfolders : (s.folderOf m).parts = (s.folderOf other).parts :=
    (h'.longest m h.mem h.surrounds).eq_of_length_le
      (h.longest other h'.mem h'.surrounds).length_le
  have hlast := h.last
  simp only [Path.same, hfolders] at hlast
  exact Option.some.inj (hlast.symm.trans h'.last)

theorem nearestByFolder_eq_some_iff :
    s.nearestByFolder id = some m ↔ s.ClosestAround s.moduleList id m := by
  refine ⟨closestAround_of_nearestByFolder, fun hclosest => ?_⟩
  cases hnearest : s.nearestByFolder id with
  | some found => rw [(closestAround_of_nearestByFolder hnearest).unique hclosest]
  | none =>
    rw [nearestByFolder_eq_deepest, Option.map_eq_none_iff] at hnearest
    have hnone := List.map_eq_nil_iff.mp (deepest_eq_none hnearest)
    have hin := mem_surrounding.mpr ⟨hclosest.mem, hclosest.surrounds⟩
    rw [hnone] at hin
    cases hin

theorem isSome_nearestByFolder_iff :
    (s.nearestByFolder id).isSome = true ↔ ∃ other ∈ s.moduleList, s.Surrounds other id := by
  constructor
  · intro hsome
    obtain ⟨m, hm⟩ := Option.isSome_iff_exists.mp hsome
    have hclosest := closestAround_of_nearestByFolder hm
    exact ⟨m, hclosest.mem, hclosest.surrounds⟩
  · rintro ⟨other, hother⟩
    rw [nearestByFolder_eq_deepest, Option.isSome_map]
    have hne : (s.surrounding id).map (fun other => (other, s.folderOf other)) ≠ [] :=
      List.ne_nil_of_mem (List.mem_map_of_mem (mem_surrounding.mpr hother))
    obtain ⟨c, -, hdeepest, -⟩ := deepest_of_ne_nil hne
    rw [hdeepest]
    rfl

/-- Where no link leads to an entity that has ended, the question for the module around another is
answered. With a module above it by links, the answer is the nearest of these. Otherwise there is
an answer exactly if the folder of some other module lies strictly around, and it is the last module
in the longest such folder; two folders around that have equally many parts are the same. -/
theorem enclosing_module_nearest (hs : s.Reachable) (hlinks : s.LinksAlive)
    (hid : s.has .module id = .ok true) :
    ∃ modules answer, s.modules = .ok modules ∧ s.enclosingModule id = .ok answer ∧
      ((∃ k x, s.ancestorAt (k + 1) id = some x ∧ s.has .module x = .ok true) →
        ∃ m, answer = some m ∧ s.NearestAbove id m) ∧
      (s.NoneAbove id →
        (answer.isSome = true ↔ ∃ other ∈ modules, other ≠ id ∧ s.Surrounds other id) ∧
        (∀ m, answer = some m ↔ s.ClosestAround modules id m) ∧
        ∀ a ∈ modules, ∀ b ∈ modules, s.Surrounds a id → s.Surrounds b id →
          (s.folderOf a).depth = (s.folderOf b).depth →
            (s.folderOf a).same (s.folderOf b) = true) := by
  have h := hs.anchored hlinks
  have hvalid := ((has_eq_true s _ id).mp hid).1
  have hsame : ∀ a ∈ s.moduleList, ∀ b ∈ s.moduleList, s.Surrounds a id → s.Surrounds b id →
      (s.folderOf a).depth = (s.folderOf b).depth →
        (s.folderOf a).same (s.folderOf b) = true :=
    fun a _ b _ ha hb hdepth => decide_eq_true (ha.2.1.parts_eq hb.2.1 hdepth)
  have hother : (∃ other ∈ s.moduleList, other ≠ id ∧ s.Surrounds other id) ↔
      ∃ other ∈ s.moduleList, s.Surrounds other id :=
    exists_congr fun other => and_congr_right fun _ => ⟨And.right, fun ho => ⟨ho.ne, ho⟩⟩
  rcases h.enclosingModule_cases hvalid with ⟨outer, hanswer, hnearest⟩ | ⟨hnone, hanswer⟩
  · exact ⟨_, _, h.sound.modules_run, hanswer, fun _ => ⟨outer, rfl, hnearest⟩,
      fun hnone => absurd hnone hnearest.not_noneAbove⟩
  · refine ⟨_, _, h.sound.modules_run, hanswer, ?_, fun _ => ⟨?_, ?_, hsame⟩⟩
    · rintro ⟨k, x, hx, hmodule⟩
      rw [hnone k x hx] at hmodule
      cases hmodule
    · rw [hother, isSome_nearestByFolder_iff]
    · exact fun m => nearestByFolder_eq_some_iff

/-- Modules in nested folders, two of them in one folder that is spelled in two ways, and one whose
folder only begins with the same letters. The last one is linked below the first, at some remove. -/
def terraceRun : List Request :=
  [.create, .create, .create, .create, .create, .create, .create,
    .insert .module ⟨0, 0⟩ .executable, .insert .module ⟨1, 0⟩ .staticLibrary,
    .insert .module ⟨2, 0⟩ .staticLibrary, .insert .module ⟨3, 0⟩ .staticLibrary,
    .insert .module ⟨4, 0⟩ .staticLibrary, .insert .module ⟨6, 0⟩ .staticLibrary,
    .insert .fileRef ⟨0, 0⟩ (.ofString "p/App/Module.rift"),
    .insert .fileRef ⟨1, 0⟩ (.ofString "p/App//Libs/./Module.rift"),
    .insert .fileRef ⟨2, 0⟩ (.ofString "p/App/Libs/Core/Module.rift"),
    .insert .fileRef ⟨3, 0⟩ (.ofString "p/./App/Libs/Module.rift"),
    .insert .fileRef ⟨4, 0⟩ (.ofString "p/App/Libs/Co/Module.rift"),
    .insert .fileRef ⟨6, 0⟩ (.ofString "p/App/Libs/Core/Deep/Module.rift"),
    .addChild ⟨0, 0⟩ ⟨5, 0⟩, .addChild ⟨5, 0⟩ ⟨6, 0⟩]

theorem enclosing_module_nearest_terraces :
    Ast.carriedOut terraceRun = true ∧
    (Ast.reached terraceRun).store.enclosingModule ⟨2, 0⟩ = .ok (some ⟨3, 0⟩) ∧
    (Ast.reached terraceRun).store.ClosestAround
      [⟨0, 0⟩, ⟨1, 0⟩, ⟨2, 0⟩, ⟨3, 0⟩, ⟨4, 0⟩, ⟨6, 0⟩] ⟨2, 0⟩ ⟨3, 0⟩ ∧
    (Ast.reached terraceRun).store.enclosingModule ⟨6, 0⟩ = .ok (some ⟨0, 0⟩) ∧
    (Ast.reached terraceRun).store.NearestAbove ⟨6, 0⟩ ⟨0, 0⟩ := by
  have hrun : Ast.carriedOut terraceRun = true := by decide +kernel
  have hlinks := (consistent_carriedOut hrun).linksAlive
  have htop : (Ast.reached terraceRun).store.up ⟨2, 0⟩ = none := by decide +kernel
  have hnone : (Ast.reached terraceRun).store.NoneAbove ⟨2, 0⟩ := by
    intro k x hx
    rw [ancestorAt, htop] at hx
    cases hx
  have hmodules : (Ast.reached terraceRun).store.modules =
      .ok [⟨0, 0⟩, ⟨1, 0⟩, ⟨2, 0⟩, ⟨3, 0⟩, ⟨4, 0⟩, ⟨6, 0⟩] := by decide +kernel
  have hfolder : (Ast.reached terraceRun).store.enclosingModule ⟨2, 0⟩ = .ok (some ⟨3, 0⟩) := by
    decide +kernel
  have hlink : (Ast.reached terraceRun).store.enclosingModule ⟨6, 0⟩ = .ok (some ⟨0, 0⟩) := by
    decide +kernel
  have hinner : (Ast.reached terraceRun).store.has .module ⟨2, 0⟩ = .ok true := by decide +kernel
  have hlinked : (Ast.reached terraceRun).store.has .module ⟨6, 0⟩ = .ok true := by decide +kernel
  obtain ⟨modules, answer, hlisted, hanswer, -, hbyFolder⟩ :=
    enclosing_module_nearest ⟨_, rfl⟩ hlinks hinner
  obtain rfl := Except.ok.inj (hmodules.symm.trans hlisted)
  obtain ⟨modules', answer', -, hanswer', hbyLink, -⟩ :=
    enclosing_module_nearest ⟨_, rfl⟩ hlinks hlinked
  obtain ⟨m, hm, hnearest⟩ := hbyLink ⟨1, ⟨0, 0⟩, by decide +kernel, by decide +kernel⟩
  obtain rfl : ⟨0, 0⟩ = m :=
    Option.some.inj ((Except.ok.inj (hlink.symm.trans hanswer')).trans hm)
  exact ⟨hrun, hfolder, ((hbyFolder hnone).2.1 ⟨3, 0⟩).mp
    (Except.ok.inj (hanswer.symm.trans hfolder)), hlink, hnearest⟩

end ModuleCompiler.Store
