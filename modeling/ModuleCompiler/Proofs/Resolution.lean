import ModuleCompiler.Proofs.ProjectHeader

/-!
Loading a project and asking about its modules agree on what lies around what. A loader that looks
at the modules loaded so far, and the links and folders of the finished store, all lead to the
module with the deepest folder around another. Modules are loaded by the depth of their files, so
whatever is around a module has been loaded before it.
-/

namespace ModuleCompiler

/-- The folder `inner` lies in `outer` or is the same. -/
def Path.Contains (outer inner : Path) : Prop := outer.parts <+: inner.parts

instance (outer inner : Path) : Decidable (outer.Contains inner) :=
  inferInstanceAs (Decidable (_ <+: _))

def Path.StrictlyContains (outer inner : Path) : Prop :=
  outer.Contains inner ∧ outer.parts ≠ inner.parts

theorem Path.startsWith_iff {outer inner : Path} :
    inner.startsWith outer = true ↔ outer.Contains inner := List.isPrefixOf_iff_prefix

theorem Path.Contains.depth_le {outer inner : Path} (h : outer.Contains inner) :
    outer.depth ≤ inner.depth := h.length_le

theorem Path.StrictlyContains.depth_lt {outer inner : Path} (h : outer.StrictlyContains inner) :
    outer.depth < inner.depth :=
  h.1.depth_le.lt_of_ne fun heq => h.2 (h.1.eq_of_length heq)

/-- Two folders of one depth that contain the same folder have the same parts. -/
theorem Path.Contains.parts_eq {a b inner : Path} (ha : a.Contains inner) (hb : b.Contains inner)
    (hdepth : a.depth = b.depth) : a.parts = b.parts :=
  (List.prefix_of_prefix_length_le ha hb hdepth.le).eq_of_length hdepth

/-- A module has the deepest folder of those that pass a test, and no other one has. -/
def Store.Deepest (s : Store) (test : Path → Prop) (m : Entity) : Prop :=
  s.has .module m = .ok true ∧ ∃ folder, s.modulePath m = .ok folder ∧ test folder ∧
    ∀ other path, s.has .module other = .ok true → s.modulePath other = .ok path → test path →
      other ≠ m → path.depth < folder.depth

namespace Store

variable {s t : Store} {id m parent : Entity}

theorem deepest_eq {α : Type} {l : List (α × Path)} {c : α × Path} (hc : c ∈ l)
    (hmax : ∀ x ∈ l, x ≠ c → x.2.depth < c.2.depth) : deepest l = some c := by
  obtain ⟨b, hb, hdeepest, hbound⟩ := deepest_of_ne_nil (List.ne_nil_of_mem hc)
  by_cases heq : b = c
  · rw [hdeepest, heq]
  · have := hmax b hb heq
    have := hbound c hc
    omega

theorem liesInside_iff {inner outer : Path} :
    liesInside inner outer = true ↔ outer.isEmpty = false ∧ outer.StrictlyContains inner := by
  rw [liesInside, Bool.and_eq_true, Bool.and_eq_true, Path.startsWith_iff, Bool.not_eq_true',
    Bool.not_eq_true', Path.same, decide_eq_false_iff_not, and_assoc, and_comm (a := ¬ _),
    Path.StrictlyContains, ne_comm]

theorem enclosingModule_of_parent (hid : s.isValid id) (hup : s.up id = some parent)
    (hparent : s.has .module parent = .ok true) : s.enclosingModule id = .ok (some parent) := by
  have hfound : s.findAncestor id (s.has .module ·) = .ok (some parent) := by
    rw [findAncestor, climb_step hid hup, hparent]
  unfold enclosingModule
  rw [hfound]
  rfl

theorem enclosingModule_of_top (hid : s.isValid id) (hup : s.up id = none) :
    s.enclosingModule id = s.moduleByFolder id := by
  have hfound : s.findAncestor id (s.has .module ·) = .ok none := climb_top hid hup
  unfold enclosingModule
  rw [hfound]
  rfl

theorem nearestByFolder_eq (hfolder : (s.folderOf id).isEmpty = false) (hm : m ∈ s.moduleList)
    (hne : m ≠ id) (hinside : liesInside (s.folderOf id) (s.folderOf m) = true)
    (hdeepest : ∀ other ∈ s.moduleList, liesInside (s.folderOf id) (s.folderOf other) = true →
      other ≠ m → (s.folderOf other).depth < (s.folderOf m).depth) :
    s.nearestByFolder id = some m := by
  unfold nearestByFolder
  rw [hfolder, if_neg (by decide)]
  dsimp only
  rw [deepest_eq (c := (m, s.folderOf m))]
  · rfl
  · simp [hm, hne, hinside]
  · intro x hx hxm
    obtain ⟨hin, hxinside⟩ := List.mem_filter.mp hx
    obtain ⟨other, hother, rfl⟩ := List.mem_map.mp hin
    refine hdeepest other (List.mem_filter.mp hother).1 hxinside ?_
    rintro rfl
    exact hxm rfl

/-- A store that differs from another in links only. -/
structure SameModules (s t : Store) : Prop where
  sound : t.Sound
  isValid : t.isValid = s.isValid
  component? : ∀ k, k.isLink = false → t.component? k = s.component? k

theorem SameModules.mem_moduleList (h : SameModules s t) (hs : s.Sound) :
    m ∈ t.moduleList ↔ m ∈ s.moduleList := by
  simp only [moduleList, Query.mem_scan, h.isValid, h.sound.has_eq, hs.has_eq, Query.kinds,
    List.mem_singleton, forall_eq, h.component? .module rfl]

theorem SameModules.folderOf (h : SameModules s t) (id : Entity) :
    t.folderOf id = s.folderOf id := by
  rw [Store.folderOf, Store.folderOf, h.component? .fileRef rfl]

theorem sameModules_unlinked (hs : s.Sound) (hid : s.isValid id) (hup : s.up id = some parent)
    (hparent : s.isValid parent) : SameModules s (s.unlinked id parent) := by
  have hrun := removeChild_linked hid hup hparent
  have hsame : SameSlots s (s.unlinked id parent) :=
    ((pointwise_sameSlots s).links.removeChild id).ok (SameSlots.refl s) hrun
  refine ⟨(sound_removeChild id).ok hs hrun, ?_, fun k hk => ?_⟩
  · funext x
    unfold Store.isValid
    rw [hsame.slots]
  · obtain ⟨hkparent, hkchildren⟩ := ne_link_of_isLink hk
    exact (component?_shortened_of_ne hkchildren.symm).trans
      (component?_withoutComponent_of_ne hkparent.symm)

end Store

namespace Project

section Order

variable {α : Type} (key : α → Nat)

/-- A list in the order of a number that its elements have. Those with the same number stay in
their order. -/
def inOrderOf (l : List α) : List α :=
  (List.range ((l.map key).foldr max 0 + 1)).flatMap fun n => l.filter (key · = n)

variable {key}

theorem key_le_trans (a b c : α) (hab : decide (key a ≤ key b) = true)
    (hbc : decide (key b ≤ key c) = true) : decide (key a ≤ key c) = true :=
  decide_eq_true ((of_decide_eq_true hab).trans (of_decide_eq_true hbc))

theorem key_le_total (a b : α) : (decide (key a ≤ key b) || decide (key b ≤ key a)) = true := by
  simpa using Nat.le_total (key a) (key b)

theorem pairwise_mergeSort (l : List α) :
    (l.mergeSort fun a b => key a ≤ key b).Pairwise fun a b => key a ≤ key b :=
  (List.pairwise_mergeSort key_le_trans key_le_total l).imp of_decide_eq_true

/-- Sorting keeps the elements with the same key in their order. -/
theorem filter_mergeSort (l : List α) (n : Nat) :
    (l.mergeSort fun a b => key a ≤ key b).filter (key · = n) = l.filter (key · = n) := by
  have hsame : (l.filter (key · = n)).Pairwise fun a b => decide (key a ≤ key b) = true := by
    apply List.pairwise_of_forall_mem_list
    intro a ha b hb
    have ha : key a = n := by simpa using (List.mem_filter.mp ha).2
    have hb : key b = n := by simpa using (List.mem_filter.mp hb).2
    simp [ha, hb]
  have hsub := (List.sublist_mergeSort key_le_trans key_le_total hsame
    List.filter_sublist).filter (key · = n)
  rw [List.filter_filter] at hsub
  simp only [Bool.and_self] at hsub
  exact (hsub.eq_of_length ((List.mergeSort_perm l _).filter _).length_eq.symm).symm

theorem split_of_sorted {l : List α} (hsorted : l.Pairwise fun a b => key a ≤ key b) {n : Nat}
    (hbound : ∀ a ∈ l, key a ≤ n) : l.filter (key · < n) ++ l.filter (key · = n) = l := by
  induction l with
  | nil => rfl
  | cons a l ih =>
    obtain ⟨hfirst, hrest⟩ := List.pairwise_cons.mp hsorted
    have hle := hbound a List.mem_cons_self
    have hl := ih hrest fun b hb => hbound b (List.mem_cons_of_mem _ hb)
    by_cases ha : key a < n
    · rw [List.filter_cons_of_pos (by simpa using ha),
        List.filter_cons_of_neg (by simpa using Nat.ne_of_lt ha), List.cons_append, hl]
    · -- From an element with the greatest key on there is no smaller one.
      have hnone : l.filter (key · < n) = [] := by
        rw [List.filter_eq_nil_iff]
        intro b hb
        have := hfirst b hb
        simp only [decide_eq_true_eq]
        omega
      rw [hnone, List.nil_append] at hl
      rw [List.filter_cons_of_neg (by simpa using ha), hnone,
        List.filter_cons_of_pos (by simp only [decide_eq_true_eq]; omega), hl, List.nil_append]

/-- A sorted list is made up of its parts with the same key. -/
theorem flatMap_filter_of_sorted {n : Nat} {l : List α}
    (hsorted : l.Pairwise fun a b => key a ≤ key b) (hbound : ∀ a ∈ l, key a < n) :
    (List.range n).flatMap (fun k => l.filter (key · = k)) = l := by
  induction n generalizing l with
  | zero =>
    cases l with
    | nil => rfl
    | cons a l => exact absurd (hbound a List.mem_cons_self) (Nat.not_lt_zero _)
  | succ n ih =>
    have hsmaller := ih (hsorted.filter (key · < n)) fun a ha => by
      simpa using (List.mem_filter.mp ha).2
    have hsame : (List.range n).flatMap (fun k => l.filter (key · = k)) =
        (List.range n).flatMap fun k => (l.filter (key · < n)).filter (key · = k) := by
      apply List.flatMap_congr
      intro k hk
      rw [List.filter_filter]
      apply List.filter_congr
      intro a _
      have hk := List.mem_range.mp hk
      by_cases ha : key a = k
      · simp [ha, hk]
      · simp [ha]
    rw [List.range_succ, List.flatMap_append, hsame, hsmaller, List.flatMap_singleton]
    exact split_of_sorted hsorted fun a ha => Nat.le_of_lt_succ (hbound a ha)

theorem mergeSort_eq_inOrderOf (l : List α) :
    l.mergeSort (fun a b => key a ≤ key b) = inOrderOf key l := by
  have hbound : ∀ a ∈ l.mergeSort (fun a b => key a ≤ key b),
      key a < (l.map key).foldr max 0 + 1 := by
    intro a ha
    have hin : key a ∈ l.map key := List.mem_map_of_mem ((List.mergeSort_perm l _).mem_iff.mp ha)
    exact Nat.lt_succ_of_le (List.le_max_of_le hin (Nat.le_refl _))
  rw [← flatMap_filter_of_sorted (pairwise_mergeSort l) hbound]
  exact List.flatMap_congr fun n _ => filter_mergeSort l n

end Order

variable {d : Disk} {projectFile file : Path} {files : List Path}

theorem getElem?_loadedModules (i : Nat) :
    (loadedModules projectFile files)[i]? =
      (allModuleFiles projectFile files)[i]?.map fun f =>
        (.first (primitiveNodes.length + i), folderOf f) := by
  simp [loadedModules, placedModules, Option.map_map, Function.comp_def]

theorem projectEntity_eq : projectEntity = .first (primitiveNodes.length + 0) := rfl

theorem mem_of_moduleFiles {i : Nat}
    (hfile : (allModuleFiles projectFile files)[i + 1]? = some file) :
    file ∈ files ∧ isModuleFile file = true := by
  have hin : file ∈ moduleFiles files := List.mem_of_getElem? hfile
  exact List.mem_filter.mp ((List.mergeSort_perm ..).mem_iff.mp hin)

theorem pairwise_moduleFiles (files : List Path) :
    (moduleFiles files).Pairwise fun a b => a.depth ≤ b.depth :=
  pairwise_mergeSort _

theorem depth_of_isModuleFile (h : isModuleFile file = true) :
    file.depth = (folderOf file).depth + 1 := by
  rw [Path.depth, parts_of_isModuleFile h, List.length_append]
  rfl

namespace Found

variable (h : Found projectFile files)
include h

/-- The folder of the project contains the folders of all modules. -/
theorem root_contains {i : Nat} (hfile : (allModuleFiles projectFile files)[i]? = some file) :
    (folderOf projectFile).Contains (folderOf file) := by
  cases i with
  | zero =>
    rw [← Option.some.inj hfile]
    exact List.prefix_rfl
  | succ i => exact Path.startsWith_iff.mp (h.inside file (mem_of_moduleFiles hfile).1)

/-- A module is loaded before those inside it. -/
theorem index_lt {i j : Nat} {a b : Path} (ha : (allModuleFiles projectFile files)[i]? = some a)
    (hb : (allModuleFiles projectFile files)[j]? = some b)
    (hinside : (folderOf a).StrictlyContains (folderOf b)) : i < j := by
  have hfolder : (folderOf a).depth < (folderOf b).depth := by
    refine lt_of_le_of_ne hinside.1.length_le fun hdepth => hinside.2 ?_
    exact hinside.1.eq_of_length hdepth
  cases j with
  | zero =>
    -- Nothing contains the folder of the project strictly.
    have hroot := (h.root_contains ha).length_le
    obtain rfl : projectFile = b := Option.some.inj hb
    exact absurd hroot (by simpa [Path.depth] using hfolder)
  | succ j =>
    cases i with
    | zero => exact Nat.succ_pos j
    | succ i =>
      by_contra hle
      rcases Nat.lt_or_eq_of_le (Nat.not_lt.mp hle) with hlt | heq
      · have hb' : (moduleFiles files)[j]? = some b := hb
        have ha' : (moduleFiles files)[i]? = some a := ha
        obtain ⟨hj, hbj⟩ := List.getElem?_eq_some_iff.mp hb'
        obtain ⟨hi, hai⟩ := List.getElem?_eq_some_iff.mp ha'
        have hsorted := List.pairwise_iff_getElem.mp (pairwise_moduleFiles files) j i hj hi
          (by omega)
        rw [hbj, hai, depth_of_isModuleFile (mem_of_moduleFiles hb).2,
          depth_of_isModuleFile (mem_of_moduleFiles ha).2] at hsorted
        omega
      · rw [heq, ha] at hb
        exact hinside.2 (Option.some.inj hb ▸ rfl)

/-- Of the modules strictly around one that was loaded after the project, one is the deepest, and it
was loaded before. -/
theorem exists_deepest {i : Nat}
    (hfile : (allModuleFiles projectFile files)[i + 1]? = some file) :
    ∃ j outer, j ≤ i ∧ (allModuleFiles projectFile files)[j]? = some outer ∧
      (folderOf outer).StrictlyContains (folderOf file) ∧
      ∀ k other, (allModuleFiles projectFile files)[k]? = some other →
        (folderOf other).StrictlyContains (folderOf file) → k ≠ j →
        (folderOf other).depth < (folderOf outer).depth := by
  classical
  let around := (loadedModules projectFile files).filter fun x =>
    decide (x.2.StrictlyContains (folderOf file))
  have hmem : ∀ {k other}, (allModuleFiles projectFile files)[k]? = some other →
      (folderOf other).StrictlyContains (folderOf file) →
      (Entity.first (primitiveNodes.length + k), folderOf other) ∈ around :=
    fun hother hinside => List.mem_filter.mpr
      ⟨mem_placedModules.mpr ⟨_, _, hother, rfl⟩, decide_eq_true hinside⟩
  have hroot : (folderOf projectFile).StrictlyContains (folderOf file) :=
    ⟨h.root_contains hfile, fun hsame => absurd (h.index_unique (i := 0) rfl hfile hsame) (by simp)⟩
  obtain ⟨c, hc, -, hbound⟩ :=
    Store.deepest_of_ne_nil (List.ne_nil_of_mem (hmem (k := 0) rfl hroot))
  obtain ⟨hin, hinside⟩ := List.mem_filter.mp hc
  have hinside := of_decide_eq_true hinside
  obtain ⟨j, outer, houter, rfl⟩ := mem_placedModules.mp hin
  refine ⟨j, outer, Nat.le_of_lt_succ (h.index_lt houter hfile hinside), houter, hinside, ?_⟩
  intro k other hother hotherInside hne
  refine lt_of_le_of_ne (hbound _ (hmem hother hotherInside)) fun hdepth => hne ?_
  exact h.index_unique hother houter (hotherInside.1.parts_eq hinside.1 hdepth)

/-- The loader finds the deepest module among those loaded so far. -/
theorem closestModule_eq {i j : Nat} {outer : Path}
    (hfile : (allModuleFiles projectFile files)[i + 1]? = some file) (hj : j ≤ i)
    (houter : (allModuleFiles projectFile files)[j]? = some outer)
    (hinside : (folderOf outer).StrictlyContains (folderOf file))
    (hdeepest : ∀ k other, (allModuleFiles projectFile files)[k]? = some other →
      (folderOf other).StrictlyContains (folderOf file) → k ≠ j →
      (folderOf other).depth < (folderOf outer).depth) :
    closestModule projectEntity ((loadedModules projectFile files).take (i + 1)) (folderOf file) =
      .first (primitiveNodes.length + j) := by
  have htake : ∀ {x}, x ∈ (loadedModules projectFile files).take (i + 1) ↔
      ∃ k other, k ≤ i ∧ (allModuleFiles projectFile files)[k]? = some other ∧
        x = (.first (primitiveNodes.length + k), folderOf other) := by
    intro x
    simp only [List.mem_iff_getElem?, List.getElem?_take, getElem?_loadedModules]
    constructor
    · rintro ⟨k, hk⟩
      split at hk
      · obtain ⟨other, hother, rfl⟩ := Option.map_eq_some_iff.mp hk
        exact ⟨k, other, by omega, hother, rfl⟩
      · cases hk
    · rintro ⟨k, other, hk, hother, rfl⟩
      exact ⟨k, by rw [if_pos (by omega), hother]; rfl⟩
  unfold closestModule
  rw [Store.deepest_eq (c := (.first (primitiveNodes.length + j), folderOf outer))]
  · rfl
  · exact List.mem_filter.mpr
      ⟨htake.mpr ⟨j, outer, hj, houter, rfl⟩, Path.startsWith_iff.mpr hinside.1⟩
  · intro x hx hne
    obtain ⟨hin, hstarts⟩ := List.mem_filter.mp hx
    obtain ⟨k, other, hk, hother, rfl⟩ := htake.mp hin
    refine hdeepest k other hother ⟨Path.startsWith_iff.mp hstarts, fun hsame => ?_⟩ ?_
    · have := h.index_unique hother hfile hsame
      omega
    · rintro rfl
      exact hne (by rw [Option.some.inj (hother.symm.trans houter)])

/-- An empty path would have the parts of the project's folder, so it would be that folder. -/
theorem isEmpty_folderOf (hroot : (folderOf projectFile).isEmpty = false) {i : Nat}
    (hfile : (allModuleFiles projectFile files)[i]? = some file) :
    (folderOf file).isEmpty = false := by
  by_contra hempty
  have hchars : (folderOf file).chars = [] := by simpa [Path.isEmpty] using hempty
  have hparts : (folderOf file).parts = [] := by
    rw [Path.parts, hchars]
    rfl
  have hsame : (folderOf projectFile).parts = (folderOf file).parts := by
    have := h.root_contains hfile
    rw [Path.Contains, hparts] at this
    rw [hparts, List.prefix_nil.mp this]
  obtain rfl : 0 = i := h.index_unique rfl hfile hsame
  rw [← Option.some.inj hfile, hroot] at hempty
  exact hempty rfl

theorem liesInside_iff (hroot : (folderOf projectFile).isEmpty = false) {i : Nat} {inner : Path}
    (hfile : (allModuleFiles projectFile files)[i]? = some file) :
    Store.liesInside inner (folderOf file) = true ↔ (folderOf file).StrictlyContains inner := by
  rw [Store.liesInside_iff, and_iff_right (h.isEmpty_folderOf hroot hfile)]

/-- A file that was found belongs to one of the modules. -/
theorem exists_owner (hfile : file ∈ files) :
    ∃ i moduleFile, (allModuleFiles projectFile files)[i]? = some moduleFile ∧
      ownerOf projectFile files file = .first (primitiveNodes.length + i) := by
  have hroot : (Entity.first (primitiveNodes.length + 0), folderOf projectFile) ∈
      (loadedModules projectFile files).filter ((folderOf file).startsWith ·.2) :=
    List.mem_filter.mpr ⟨mem_placedModules.mpr ⟨0, projectFile, rfl, rfl⟩, h.inside file hfile⟩
  obtain ⟨c, hc, hdeepest, -⟩ := Store.deepest_of_ne_nil (List.ne_nil_of_mem hroot)
  obtain ⟨i, moduleFile, hmodule, rfl⟩ := mem_placedModules.mp (List.mem_filter.mp hc).1
  refine ⟨i, moduleFile, hmodule, ?_⟩
  unfold ownerOf closestModule
  rw [hdeepest]
  rfl

end Found

/-- A folder that can be scanned has a path. -/
theorem isEmpty_root {root : Path} (hscan : scan d root projectFile = .ok files) :
    root.isEmpty = false := by
  by_contra hempty
  obtain rfl : root = Path.empty := by
    cases root
    exact congrArg Path.mk (by simpa [Path.isEmpty] using hempty)
  cases hscan

namespace Loaded

variable {modules : List Node} {types : List (Path × TypeDescription)} {s : Store} {i : Nat}

variable (h : Loaded d projectFile files modules types s)
include h

theorem module_at (hfile : (allModuleFiles projectFile files)[i]? = some file) :
    ∃ n, modules[i]? = some n ∧
      (projectNodes projectFile files modules types)[primitiveNodes.length + i]? = some n ∧
      IsModuleNode d (typeStart modules) file n := by
  obtain ⟨hlength, hall⟩ := List.forall₂_iff_get.mp h.isModule
  obtain ⟨hi, rfl⟩ := List.getElem?_eq_some_iff.mp hfile
  have hn : modules[i]? = some modules[i] := List.getElem?_eq_getElem (by omega)
  refine ⟨modules[i], hn, ?_, hall i hi (by omega)⟩
  rw [projectNodes, List.append_assoc, List.getElem?_append_right (Nat.le_add_right ..),
    Nat.add_sub_cancel_left, List.getElem?_append_left (by omega), hn]

theorem isValid_module (hfile : (allModuleFiles projectFile files)[i]? = some file) :
    s.isValid (.first (primitiveNodes.length + i)) := by
  obtain ⟨n, -, hn, -⟩ := h.module_at hfile
  exact h.shows.isValid_iff.mpr ⟨_, (List.getElem?_eq_some_iff.mp hn).1, rfl⟩

theorem has_module (hfile : (allModuleFiles projectFile files)[i]? = some file) :
    s.has .module (.first (primitiveNodes.length + i)) = .ok true := by
  obtain ⟨n, -, hn, hmodule⟩ := h.module_at hfile
  refine (Store.has_eq_true s _ _).mpr ⟨h.isValid_module hfile, ?_⟩
  rw [h.shows.holds_of_node (k := .module) hn nofun, hmodule.target]

theorem fileRef_module (hfile : (allModuleFiles projectFile files)[i]? = some file) :
    s.component? .fileRef (.first (primitiveNodes.length + i)) = some file := by
  obtain ⟨n, -, hn, hmodule⟩ := h.module_at hfile
  rw [h.shows.component?_of_node (k := .fileRef) hn nofun, hmodule.fileRef]

theorem folderOf_module (hfile : (allModuleFiles projectFile files)[i]? = some file) :
    s.folderOf (.first (primitiveNodes.length + i)) = folderOf file := by
  rw [Store.folderOf, h.fileRef_module hfile]
  rfl

theorem mem_moduleList {m : Entity} :
    m ∈ s.moduleList ↔ ∃ i file, (allModuleFiles projectFile files)[i]? = some file ∧
      m = .first (primitiveNodes.length + i) := by
  constructor
  · intro hm
    obtain ⟨i, file, hfile, rfl, -⟩ := h.module_of_has (Store.has_module_of_mem_moduleList hm)
    exact ⟨i, file, hfile, rfl⟩
  · rintro ⟨i, file, hfile, rfl⟩
    refine Query.mem_scan.mpr ⟨h.isValid_module hfile, fun k hk => ?_⟩
    rw [show k = .module by simpa [Query.kinds] using hk]
    exact h.has_module hfile

theorem up_project : s.up projectEntity = none := by
  obtain ⟨n, hn, hnode, -⟩ := h.module_at (i := 0) rfl
  exact (h.shows.component?_of_node (k := .parent) hnode nofun).trans (h.top n hn)

/-- A module other than the project has the deepest module strictly around it as its parent. -/
theorem up_module (hfound : Found projectFile files)
    (hfile : (allModuleFiles projectFile files)[i + 1]? = some file) {j : Nat} {outer : Path}
    (hj : j ≤ i) (houter : (allModuleFiles projectFile files)[j]? = some outer)
    (hinside : (folderOf outer).StrictlyContains (folderOf file))
    (hdeepest : ∀ k other, (allModuleFiles projectFile files)[k]? = some other →
      (folderOf other).StrictlyContains (folderOf file) → k ≠ j →
      (folderOf other).depth < (folderOf outer).depth) :
    s.up (.first (primitiveNodes.length + (i + 1))) =
      some (.first (primitiveNodes.length + j)) := by
  obtain ⟨n, hn, hnode, -⟩ := h.module_at hfile
  refine (h.shows.component?_of_node (k := .parent) hnode nofun).trans ?_
  rw [h.linked i file n hfile hn, hfound.closestModule_eq hfile hj houter hinside hdeepest]

/-- What is the deepest of the module folders is so for the store. -/
theorem deepest_module {test : Path → Prop} {j : Nat} {outer : Path}
    (houter : (allModuleFiles projectFile files)[j]? = some outer) (htest : test (folderOf outer))
    (hdeepest : ∀ k other, (allModuleFiles projectFile files)[k]? = some other →
      test (folderOf other) → k ≠ j → (folderOf other).depth < (folderOf outer).depth) :
    s.Deepest test (.first (primitiveNodes.length + j)) := by
  have hpath : ∀ {k other}, (allModuleFiles projectFile files)[k]? = some other →
      s.modulePath (.first (primitiveNodes.length + k)) = .ok (folderOf other) := by
    intro k other hother
    rw [Store.modulePath_run (h.isValid_module hother), h.folderOf_module hother]
  refine ⟨h.has_module houter, _, hpath houter, htest, ?_⟩
  intro x path hx hxpath hxtest hne
  obtain ⟨k, other, hother, rfl, -⟩ := h.module_of_has hx
  rw [hpath hother] at hxpath
  obtain rfl := Except.ok.inj hxpath
  refine hdeepest k other hother hxtest ?_
  rintro rfl
  exact hne rfl

section Found

variable (hfound : Found projectFile files) (hroot : (folderOf projectFile).isEmpty = false)
include hfound hroot

/-- Nothing is around the project. -/
theorem enclosingModule_project : s.enclosingModule projectEntity = .ok none := by
  have hproject : (allModuleFiles projectFile files)[0]? = some projectFile := rfl
  have hvalid : s.isValid projectEntity := h.isValid_module hproject
  have hfolder : s.folderOf projectEntity = folderOf projectFile := by
    rw [projectEntity_eq, h.folderOf_module hproject]
  rw [Store.enclosingModule_of_top hvalid h.up_project,
    h.shows.consistent.sound.moduleByFolder_run hvalid]
  have hnone : ((s.moduleList.filter (· ≠ projectEntity)).map fun other =>
      (other, s.folderOf other)).filter (Store.liesInside (folderOf projectFile) ·.2) = [] := by
    rw [List.filter_eq_nil_iff]
    intro x hx hinside
    obtain ⟨m, hm, rfl⟩ := List.mem_map.mp hx
    obtain ⟨k, other, hother, rfl⟩ := h.mem_moduleList.mp (List.mem_filter.mp hm).1
    rw [h.folderOf_module hother] at hinside
    have hlt := hfound.index_lt hother hproject
      ((hfound.liesInside_iff hroot hother).mp hinside)
    exact Nat.not_lt_zero k hlt
  unfold Store.nearestByFolder
  rw [hfolder, hroot, if_neg (by decide)]
  dsimp only
  rw [hnone]
  rfl

/-- A module loaded after the project lies under the deepest module strictly around it. That is what
the links say, and what the folders say once it has been unlinked. -/
theorem enclosingModule_inner {m : Entity} (hm : m = .first (primitiveNodes.length + (i + 1)))
    (hfile : (allModuleFiles projectFile files)[i + 1]? = some file) :
    ∃ around after, s.Deepest (·.StrictlyContains (folderOf file)) around ∧
      s.parent? m = .ok (some around) ∧ s.enclosingModule m = .ok (some around) ∧
      Store.removeChild m s = .ok (some around) after ∧ after.parent? m = .ok none ∧
      after.enclosingModule m = .ok (some around) := by
  obtain ⟨j, outer, hj, houter, hinside, hdeepest⟩ := hfound.exists_deepest hfile
  obtain ⟨around, haround⟩ : ∃ around, around = Entity.first (primitiveNodes.length + j) := ⟨_, rfl⟩
  have hsound := h.shows.consistent.sound
  have hvalid : s.isValid m := hm ▸ h.isValid_module hfile
  have hvalid' : s.isValid around := haround ▸ h.isValid_module houter
  have hfolder : s.folderOf m = folderOf file := hm ▸ h.folderOf_module hfile
  have hfolder' : s.folderOf around = folderOf outer := haround ▸ h.folderOf_module houter
  have hup : s.up m = some around := by
    rw [hm, haround]
    exact h.up_module hfound hfile hj houter hinside hdeepest
  have hmodule : s.has .module around = .ok true := haround ▸ h.has_module houter
  have hsame := Store.sameModules_unlinked hsound hvalid hup hvalid'
  have halive : (s.unlinked m around).isValid m := by
    rw [hsame.isValid]
    exact hvalid
  have htop : (s.unlinked m around).up m = none := by
    rw [Store.up_unlinked hsound, Function.update_self]
  have hnearest : (s.unlinked m around).nearestByFolder m = some around := by
    have hne : around ≠ m := by
      rw [haround, hm, ne_eq, Entity.first_inj]
      omega
    refine Store.nearestByFolder_eq ?_ ?_ hne ?_ ?_
    · rw [hsame.folderOf, hfolder]
      exact hfound.isEmpty_folderOf hroot hfile
    · rw [hsame.mem_moduleList hsound, haround]
      exact h.mem_moduleList.mpr ⟨j, outer, houter, rfl⟩
    · rw [hsame.folderOf, hsame.folderOf, hfolder, hfolder']
      exact (hfound.liesInside_iff hroot houter).mpr hinside
    · intro x hx hxinside hxne
      rw [hsame.mem_moduleList hsound] at hx
      obtain ⟨k, other, hother, rfl⟩ := h.mem_moduleList.mp hx
      rw [hsame.folderOf, hsame.folderOf, hfolder, h.folderOf_module hother] at hxinside
      rw [hsame.folderOf, hsame.folderOf, hfolder', h.folderOf_module hother]
      refine hdeepest k other hother ((hfound.liesInside_iff hroot hother).mp hxinside) ?_
      rintro rfl
      exact hxne haround.symm
  refine ⟨around, s.unlinked m around, haround ▸ h.deepest_module houter hinside hdeepest, ?_,
    Store.enclosingModule_of_parent hvalid hup hmodule,
    Store.removeChild_linked hvalid hup hvalid', ?_, ?_⟩
  · rw [Store.parent?_of_isValid hvalid, hup]
  · rw [Store.parent?_of_isValid halive, htop]
  · rw [Store.enclosingModule_of_top halive htop, hsame.sound.moduleByFolder_run halive, hnearest]

/-- The project is the one module with nothing around it. -/
theorem enclosingModule_eq_none_iff {m : Entity} (hm : m ∈ s.moduleList) :
    s.enclosingModule m = .ok none ↔ m = projectEntity := by
  obtain ⟨i, file, hfile, rfl⟩ := h.mem_moduleList.mp hm
  cases i with
  | zero => exact iff_of_true (h.enclosingModule_project hfound hroot) rfl
  | succ i =>
    obtain ⟨around, -, -, -, haround, -⟩ := h.enclosingModule_inner hfound hroot rfl hfile
    rw [haround]
    refine iff_of_false nofun ?_
    rw [projectEntity_eq, Entity.first_inj]
    omega

theorem projectModule_eq : s.projectModule = .ok (some projectEntity) := by
  rw [h.shows.consistent.anchored.projectModule_run, Store.projectOf]
  have hproject : projectEntity ∈ s.moduleList :=
    h.mem_moduleList.mpr ⟨0, projectFile, rfl, projectEntity_eq⟩
  have hin : projectEntity ∈ s.moduleList.filter fun id =>
      decide (s.enclosingModule id = .ok none) :=
    List.mem_filter.mpr ⟨hproject, decide_eq_true (h.enclosingModule_project hfound hroot)⟩
  obtain ⟨first, rest, hlist⟩ := List.exists_cons_of_ne_nil (List.ne_nil_of_mem hin)
  have hfirst : first ∈ s.moduleList.filter fun id =>
      decide (s.enclosingModule id = .ok none) := by
    rw [hlist]
    exact List.mem_cons_self
  obtain ⟨hmodule, hnone⟩ := List.mem_filter.mp hfirst
  rw [hlist, List.head?_cons,
    (h.enclosingModule_eq_none_iff hfound hroot hmodule).mp (of_decide_eq_true hnone)]

end Found

theorem type_of_has {type : Entity} (htype : s.has .typeInfo type = .ok true) :
    ∃ y ∈ projectTypes projectFile files modules types, type = .first y.1 := by
  obtain ⟨hvalid, hholds⟩ := (Store.has_eq_true s _ type).mp htype
  obtain ⟨j, hj, rfl⟩ := h.shows.isValid_iff.mp hvalid
  have hn := List.getElem?_eq_getElem hj
  rw [h.shows.holds_of_node (k := .typeInfo) hn nofun] at hholds
  have hpick : Entity.first j ∈
      picks (projectNodes projectFile files modules types) fun n => (n .typeInfo).isSome :=
    mem_picks.mpr ⟨j, _, hn, hholds, rfl⟩
  have hcontents : ∀ slot t, typeStart modules ≤ slot → ∀ n ∈ typeContents slot t,
      (n .typeInfo).isSome = false := by
    intro slot t _ n hn
    rw [lacks_typeContents hn (by decide)]
    rfl
  rw [picks_projectNodes hcontents] at hpick
  rcases List.mem_append.mp hpick with hpick | hpick
  · obtain ⟨i, n, hn, hsome, -⟩ := mem_picks.mp hpick
    have hnone : n .typeInfo = none := by
      rcases List.mem_append.mp (List.mem_of_getElem? hn) with hn | hn
      · exact lacks_primitiveNodes hn (by decide)
      · obtain ⟨k, hk⟩ := List.mem_iff_getElem?.mp hn
        obtain ⟨file, -, hmodule⟩ := h.isModuleNode hk
        exact hmodule.lacks (by decide)
    rw [hnone] at hsome
    cases hsome
  · obtain ⟨y, hy, hfirst⟩ := List.mem_map.mp hpick
    exact ⟨y, (List.mem_filter.mp hy).1, hfirst.symm⟩

theorem deepest_owner (hfound : Found projectFile files) (hfile : file ∈ files) :
    s.Deepest (·.Contains (folderOf file)) (ownerOf projectFile files file) := by
  obtain ⟨i, moduleFile, hmodule, howner⟩ := hfound.exists_owner hfile
  obtain ⟨-, hinside, hnearest⟩ := (hfound.ownerOf_eq_iff hmodule hfile).mp howner
  rw [howner]
  refine h.deepest_module hmodule (Path.startsWith_iff.mp hinside) ?_
  intro k other hother hcontains hne
  have hle := hnearest _ (List.mem_map_of_mem (List.mem_of_getElem? hother))
    (Path.startsWith_iff.mpr hcontains)
  refine lt_of_le_of_ne hle fun hdepth => hne ?_
  exact hfound.index_unique hother hmodule
    (hcontains.parts_eq (Path.startsWith_iff.mp hinside) hdepth)

/-- A type lies under the module with the deepest folder around its file. -/
theorem type_owner (hfound : Found projectFile files) {type : Entity}
    (htype : s.has .typeInfo type = .ok true) :
    ∃ file owner, s.get? .fileRef type = .ok (some file) ∧ s.parent? type = .ok (some owner) ∧
      s.Deepest (·.Contains (folderOf file)) owner := by
  obtain ⟨y, hy, rfl⟩ := h.type_of_has htype
  have hvalid := ((Store.has_eq_true s _ _).mp htype).1
  have hnode := node_of_slot hy
  have hin : y.2 ∈ types := by
    have hmapped := List.mem_map_of_mem (f := Prod.snd) hy
    rwa [projectTypes, map_typeSlots] at hmapped
  have hfile : y.2.1 ∈ typeFiles files := h.isType ▸ List.mem_map_of_mem hin
  refine ⟨y.2.1, ownerOf projectFile files y.2.1, ?_, ?_,
    h.deepest_owner hfound (List.mem_filter.mp hfile).1⟩
  · rw [Store.get?_of_isValid hvalid, h.shows.component?_of_node (k := .fileRef) hnode (by decide),
      fileRef_linkedNode]
  · rw [Store.parent?_of_isValid hvalid, Store.up,
      h.shows.component?_of_node (k := .parent) hnode (by decide), parent_linkedNode]

end Loaded

/-- What the links and the folders of a store say about its modules and types, where the modules are
`modules` and the project was opened by `projectFile`. -/
structure LinksFollowFolders (s : Store) (projectFile : Path) (project : Entity)
    (modules : List Entity) : Prop where
  projectModule : s.projectModule = .ok (some project)
  listed : s.modules = .ok modules
  opened : s.get? .fileRef project = .ok (some projectFile)
  /-- The project is the only module with none around it. -/
  top : ∀ m ∈ modules, s.enclosingModule m = .ok none ↔ m = project
  /-- Every other module lies under the one with the deepest folder strictly around its own. The
  links say so, and without its link the folders alone say the same. -/
  inner : ∀ m ∈ modules, m ≠ project → ∃ folder around after,
    s.modulePath m = .ok folder ∧ s.Deepest (·.StrictlyContains folder) around ∧
    s.parent? m = .ok (some around) ∧ s.enclosingModule m = .ok (some around) ∧
    Store.removeChild m s = .ok (some around) after ∧ after.parent? m = .ok none ∧
    after.enclosingModule m = .ok (some around)
  /-- Every type lies under the module with the deepest folder around its file. -/
  types : ∀ type, s.has .typeInfo type = .ok true → ∃ file owner,
    s.get? .fileRef type = .ok (some file) ∧ s.parent? type = .ok (some owner) ∧
    s.Deepest (·.Contains (folderOf file)) owner

/-- Whatever project is opened, what its loader linked and what is asked of the store afterwards
agree. -/
theorem links_follow_folders {d : Disk} {path : Path} {ast : Ast} (hd : d.IsTree)
    (hopen : openAt d path = .ok ast) :
    ∃ project modules, LinksFollowFolders ast.store (moduleFileOf d path) project modules := by
  obtain ⟨hfile, hname, hload⟩ := load_of_openAt hopen
  obtain ⟨files, modules, types, hscan, h⟩ := load_outline hload
  have hfound := found_of_scan hd hfile hname hscan
  have hroot := isEmpty_root hscan
  have hproject : (allModuleFiles (moduleFileOf d path) files)[0]? = some (moduleFileOf d path) :=
    rfl
  refine ⟨projectEntity, ast.store.moduleList, h.projectModule_eq hfound hroot,
    h.shows.consistent.sound.modules_run, ?_,
    fun m hm => h.enclosingModule_eq_none_iff hfound hroot hm, ?_,
    fun type htype => h.type_owner hfound htype⟩
  · rw [projectEntity_eq, Store.get?_of_isValid (h.isValid_module hproject),
      h.fileRef_module hproject]
  · intro m hm hne
    obtain ⟨i, file, hfile, rfl⟩ := h.mem_moduleList.mp hm
    cases i with
    | zero => exact absurd projectEntity_eq.symm hne
    | succ i =>
      obtain ⟨around, after, hall⟩ := h.enclosingModule_inner hfound hroot rfl hfile
      refine ⟨folderOf file, around, after, ?_, hall⟩
      rw [Store.modulePath_run (h.isValid_module hfile), h.folderOf_module hfile]

/-- A project in which an inner module is found before the one around it, next to a module whose
folder only begins with the same letter. -/
def nest : Disk where
  entries := [
    (["p".toList], .folder),
    (["p".toList, "A".toList], .folder),
    (["p".toList, "A".toList, "B".toList], .folder),
    (["p".toList, "A".toList, "B".toList, "Module.rift".toList], .file "".toUTF8),
    (["p".toList, "A".toList, "B".toList, "T.rf".toList], .file "[\"Struct\"]".toUTF8),
    (["p".toList, "A".toList, "Module.rift".toList], .file "".toUTF8),
    (["p".toList, "AB".toList], .folder),
    (["p".toList, "AB".toList, "Module.rift".toList], .file "".toUTF8),
    (["p".toList, "Module.rift".toList], .file "".toUTF8)]

theorem links_follow_folders_nest :
    nest.IsTree ∧ ∃ ast, openAt nest (.ofString "p") = .ok ast ∧
      ast.store.parent? (.first 15) = .ok (some (.first 13)) ∧
      ∃ project modules,
        LinksFollowFolders ast.store (moduleFileOf nest (.ofString "p")) project modules := by
  have hsort : moduleFiles = fun files => inOrderOf Path.depth (files.filter isModuleFile) :=
    funext fun _ => mergeSort_eq_inOrderOf _
  have hcheck : (match openAt nest (.ofString "p") with
      | .ok ast => decide (ast.store.parent? (.first 15) = .ok (some (.first 13)))
      | .error _ => false) = true := by
    unfold openAt load
    rw [hsort]
    decide +kernel
  have htree : nest.IsTree := ⟨by decide +kernel, by decide +kernel⟩
  cases hopen : openAt nest (.ofString "p") with
  | error e =>
    rw [hopen] at hcheck
    cases hcheck
  | ok ast =>
    rw [hopen] at hcheck
    exact ⟨htree, ast, rfl, of_decide_eq_true hcheck, links_follow_folders htree hopen⟩

end Project

end ModuleCompiler
