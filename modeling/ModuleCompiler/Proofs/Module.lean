import ModuleCompiler.Module
import ModuleCompiler.Proofs.Query
import ModuleCompiler.Proofs.Traversal

/-!
Modules of a store whose links name living entities only. None of the questions about a module is
refused: its folder and its name are read off its own components, the way up from it ends, and the
modules that are compared with it by their folders are alive.
-/

namespace ModuleCompiler.Store

variable {s : Store} {id : Entity}

/-- The modules, by slot. -/
def moduleList (s : Store) : List Entity := Query.scan ⟨.module, []⟩ s

theorem Sound.modules_run (h : s.Sound) : s.modules = .ok s.moduleList := Query.ids_run h

theorem isValid_of_mem_moduleList (h : id ∈ s.moduleList) : s.isValid id :=
  (Query.mem_scan.mp h).1

theorem has_module_of_mem_moduleList (h : id ∈ s.moduleList) : s.has .module id = .ok true :=
  (Query.mem_scan.mp h).2 _ (by simp [Query.kinds])

theorem mem_moduleList_iff : id ∈ s.moduleList ↔ s.has .module id = .ok true := by
  rw [moduleList, Query.mem_scan]
  constructor
  · exact fun h => h.2 _ (by simp [Query.kinds])
  · exact fun h => ⟨((has_eq_true s _ id).mp h).1, by simpa [Query.kinds] using h⟩

/-- The folder of an entity's file. -/
def folderOf (s : Store) (id : Entity) : Path :=
  ((s.component? .fileRef id).bind Path.parent).getD Path.empty

def nameOf (s : Store) (id : Entity) : String :=
  let identifier := (s.component? .identifier id).getD ""
  if identifier ≠ "" then identifier else ((s.folderOf id).fileName.map String.ofList).getD ""

theorem modulePath_run (h : s.isValid id) : s.modulePath id = .ok (s.folderOf id) := by
  simp [modulePath, folderOf, get?_of_isValid h, bind, Except.bind, pure, Except.pure]

theorem moduleName_run (h : s.isValid id) : s.moduleName id = .ok (s.nameOf id) := by
  unfold moduleName nameOf
  rw [get?_of_isValid h, modulePath_run h]
  by_cases hname : (s.component? .identifier id).getD "" = ""
  · simp [hname, bind, Except.bind, pure, Except.pure]
  · simp [hname, bind, Except.bind, pure, Except.pure]

/-- The modules, by slot, with their names. -/
def namedModules (s : Store) : List (Entity × String) :=
  s.moduleList.map fun id => (id, s.nameOf id)

theorem namedModules_run (s : Store) :
    mapChecked (fun id => do return (id, ← s.moduleName id)) s.moduleList =
      .ok s.namedModules := by
  apply mapChecked_run
  intro id hid
  rw [moduleName_run (isValid_of_mem_moduleList hid)]
  rfl

theorem deepest_concat {α : Type} (l : List (α × Path)) (c : α × Path) :
    deepest (l ++ [c]) =
      match deepest l with
      | some b => if b.2.depth ≤ c.2.depth then some c else some b
      | none => some c := by
  unfold deepest
  rw [List.foldl_append]
  rfl

theorem deepest_of_ne_nil {α : Type} {l : List (α × Path)} (h : l ≠ []) :
    ∃ c ∈ l, deepest l = some c ∧ ∀ x ∈ l, x.2.depth ≤ c.2.depth := by
  induction l using List.reverseRecOn with
  | nil => exact absurd rfl h
  | append_singleton l c ih =>
    rw [deepest_concat]
    by_cases hl : l = []
    · subst hl
      exact ⟨c, by simp, rfl, by simp⟩
    · obtain ⟨b, hb, hdeepest, hbound⟩ := ih hl
      simp only [hdeepest]
      by_cases hdeeper : b.2.depth ≤ c.2.depth
      · refine ⟨c, by simp, if_pos hdeeper, ?_⟩
        intro x hx
        rcases List.mem_append.mp hx with hx | hx
        · exact (hbound x hx).trans hdeeper
        · rw [List.mem_singleton.mp hx]
      · refine ⟨b, by simp [hb], if_neg hdeeper, ?_⟩
        intro x hx
        rcases List.mem_append.mp hx with hx | hx
        · exact hbound x hx
        · rw [List.mem_singleton.mp hx]
          omega

theorem deepest_eq_some {α : Type} {l : List (α × Path)} {c : α × Path}
    (h : deepest l = some c) : c ∈ l ∧ ∀ x ∈ l, x.2.depth ≤ c.2.depth := by
  have hl : l ≠ [] := by
    rintro rfl
    cases h
  obtain ⟨b, hb, hdeepest, hbound⟩ := deepest_of_ne_nil hl
  rw [hdeepest] at h
  exact Option.some.inj h ▸ ⟨hb, hbound⟩

theorem deepest_eq_none {α : Type} {l : List (α × Path)} (h : deepest l = none) : l = [] := by
  by_contra hl
  obtain ⟨b, _, hdeepest, _⟩ := deepest_of_ne_nil hl
  rw [hdeepest] at h
  cases h

/-- Of several deepest ones the last is taken. -/
theorem deepest_split {α : Type} {l : List (α × Path)} {c : α × Path} (h : deepest l = some c) :
    ∃ before after, l = before ++ c :: after ∧ ∀ x ∈ after, x.2.depth < c.2.depth := by
  induction l using List.reverseRecOn with
  | nil => cases h
  | append_singleton l last ih =>
    rw [deepest_concat] at h
    cases hl : deepest l with
    | none =>
      rw [hl] at h
      obtain rfl := Option.some.inj h
      exact ⟨l, [], rfl, by simp⟩
    | some b =>
      rw [hl] at h
      dsimp only at h
      split at h
      · obtain rfl := Option.some.inj h
        exact ⟨l, [], rfl, by simp⟩
      · rename_i hless
        obtain rfl := Option.some.inj h
        obtain ⟨before, after, rfl, hafter⟩ := ih hl
        refine ⟨before, after ++ [last], by simp, fun x hx => ?_⟩
        rcases List.mem_append.mp hx with hx | hx
        · exact hafter x hx
        · rw [List.mem_singleton.mp hx]
          omega

/-- The module whose folder is the closest around that of an entity. -/
def nearestByFolder (s : Store) (id : Entity) : Option Entity :=
  if (s.folderOf id).isEmpty then none
  else
    let others := (s.moduleList.filter (· ≠ id)).map fun other => (other, s.folderOf other)
    (deepest (others.filter (liesInside (s.folderOf id) ·.2))).map Prod.fst

theorem Sound.moduleByFolder_run (h : s.Sound) (hid : s.isValid id) :
    s.moduleByFolder id = .ok (s.nearestByFolder id) := by
  have hfolders : mapChecked (fun other => do return (other, ← s.modulePath other))
      (s.moduleList.filter (· ≠ id)) =
        .ok ((s.moduleList.filter (· ≠ id)).map fun other => (other, s.folderOf other)) := by
    apply mapChecked_run
    intro other hother
    rw [modulePath_run (isValid_of_mem_moduleList (List.mem_filter.mp hother).1)]
    rfl
  unfold moduleByFolder nearestByFolder
  rw [modulePath_run hid, h.modules_run]
  show (if (s.folderOf id).isEmpty then _ else _) = _
  split
  · rfl
  · show (mapChecked _ _ >>= _) = _
    rw [hfolders]
    rfl

/-- The module found by folders is one, and its folder lies around that of the entity. -/
theorem nearestByFolder_eq_some {module : Entity} (h : s.nearestByFolder id = some module) :
    module ∈ s.moduleList ∧ liesInside (s.folderOf id) (s.folderOf module) = true := by
  unfold nearestByFolder at h
  split at h
  · cases h
  · obtain ⟨c, hc, rfl⟩ := Option.map_eq_some_iff.mp h
    obtain ⟨hin, hinside⟩ := List.mem_filter.mp (deepest_eq_some hc).1
    obtain ⟨other, hother, rfl⟩ := List.mem_map.mp hin
    exact ⟨(List.mem_filter.mp hother).1, hinside⟩

/-- The module around an entity is met on the way up or found among all modules. -/
theorem Anchored.enclosingModule_ok (h : s.Anchored) (hid : s.isValid id) :
    ∃ around, s.enclosingModule id = .ok around ∧ ∀ m ∈ around, s.has .module m = .ok true := by
  have hascent := h.ascent_findAncestor id (s.has .module ·)
  obtain ⟨found, hfound⟩ := h.answer_of_ascent hascent hid fun x hx => ⟨_, has_of_isValid hx⟩
  unfold enclosingModule
  rw [hfound]
  cases found with
  | some ancestor =>
    refine ⟨some ancestor, rfl, ?_⟩
    rintro m ⟨⟩
    exact hascent.test_of_found hfound
  | none =>
    refine ⟨_, h.sound.moduleByFolder_run hid, fun m hm => ?_⟩
    exact has_module_of_mem_moduleList (nearestByFolder_eq_some hm).1

theorem Anchored.rootModules_run (h : s.Anchored) :
    s.rootModules =
      .ok (s.moduleList.filter fun id => decide (s.enclosingModule id = .ok none)) := by
  show (s.modules >>= _) = _
  rw [h.sound.modules_run]
  apply filterChecked_run
  intro id hid
  obtain ⟨around, haround, -⟩ := h.enclosingModule_ok (isValid_of_mem_moduleList hid)
  rw [haround]
  cases around <;> rfl

/-- The first module with none around it. -/
def projectOf (s : Store) : Option Entity :=
  (s.moduleList.filter fun id => decide (s.enclosingModule id = .ok none)).head?

theorem Anchored.projectModule_run (h : s.Anchored) : s.projectModule = .ok s.projectOf := by
  show (s.rootModules >>= _) = _
  rw [h.rootModules_run]
  rfl

theorem mem_moduleList_of_projectOf (h : s.projectOf = some id) : id ∈ s.moduleList :=
  (List.mem_filter.mp (List.mem_of_head? h)).1

theorem enclosingModule_of_projectOf (h : s.projectOf = some id) :
    s.enclosingModule id = .ok none :=
  of_decide_eq_true (List.mem_filter.mp (List.mem_of_head? h)).2

end ModuleCompiler.Store
