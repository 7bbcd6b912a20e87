import ModuleCompiler.Proofs.Allocation
import ModuleCompiler.Proofs.Saving

/-!
Code generated twice. Before the texts are put together, spellings are attached to the very tree
that they are read from. What a spelling is made of is not touched by that, and a component put
where it already is leaves its table as it was. So a second generation attaches nothing new, and
reads from the tree that the first one left the texts that the first one read.
-/

namespace ModuleCompiler

namespace Store

variable {s t : Store} {k : Kind} {value : Entity → k.Value} {ids : List Entity}

/-- The store `t` has the entities of `s`, and differs from it in one table at most. -/
structure ChangedAt (k : Kind) (s t : Store) : Prop where
  slots : SameSlots s t
  uniques : t.uniques = s.uniques
  table? : ∀ j, j ≠ k → t.table? j = s.table? j

theorem ChangedAt.component? (h : ChangedAt k s t) {j : Kind} (hj : j ≠ k) :
    t.component? j = s.component? j := by
  funext id
  unfold Store.component?
  rw [h.table? j hj]

theorem ChangedAt.withComponent (h : ChangedAt k s t) (id : Entity) (v : k.Value) :
    ChangedAt k s (t.withComponent k id v) :=
  ⟨⟨h.slots.slots, h.slots.free, h.slots.live⟩, h.uniques,
    fun j hj => (table?_withComponent_of_ne hj).trans (h.table? j hj)⟩

theorem changedAt_withComponents (s : Store) (k : Kind) (value : Entity → k.Value)
    (ids : List Entity) : ChangedAt k s (s.withComponents k value ids) := by
  have hstep : ∀ t, ChangedAt k s t → ChangedAt k s (t.withComponents k value ids) := by
    induction ids with
    | nil => exact fun t ht => ht
    | cons id rest ih => exact fun t ht => ih _ (ht.withComponent id (value id))
  exact hstep s ⟨.refl s, rfl, fun _ _ => rfl⟩

theorem Sound.component?_withComponents (h : s.Sound) (hids : ∀ id ∈ ids, s.isValid id)
    (x : Entity) : (s.withComponents k value ids).component? k x =
      if x ∈ ids then some (value x) else s.component? k x := by
  induction ids generalizing s with
  | nil => rfl
  | cons id rest ih =>
    have hid : s.isValid id := hids id (by simp)
    refine (ih (h.withComponent hid) fun y hy => hids y (by simp [hy])).trans ?_
    rw [h.component?_withComponent hid, Function.update_apply]
    by_cases hrest : x ∈ rest
    · simp [hrest]
    · by_cases hx : x = id
      · simp [hx]
      · simp [hrest, hx]

theorem withComponents_of_component?
    (h : ∀ id ∈ ids, s.component? k id = some (value id)) : s.withComponents k value ids = s := by
  induction ids with
  | nil => rfl
  | cons id rest ih =>
    refine (congrArg (withComponents · k value rest) ?_).trans (ih fun y hy => h y (by simp [hy]))
    exact withComponent_of_component? (h id (by simp))

/-- A component put on exactly the entities that a text is found for. -/
theorem Sound.component?_withTexts (h : s.Sound) {q : Query} {text? : Entity → Option k.Value}
    (hq : ∀ id, id ∈ q.scan s ↔ (text? id).isSome = true) (blank : k.Value) (id : Entity) :
    (s.withComponents k (fun id => (text? id).getD blank) (q.scan s)).component? k id =
      (text? id).or (s.component? k id) := by
  rw [h.component?_withComponents fun x hx => (Query.mem_scan.mp hx).1]
  cases htext : text? id with
  | some v => rw [if_pos ((hq id).mpr (by simp [htext])), Option.getD_some, Option.some_or]
  | none => rw [if_neg fun hid => by simpa [htext] using (hq id).mp hid, Option.none_or]

theorem Sound.mem_scan_primitives (h : s.Sound) (id : Entity) :
    id ∈ Query.scan ⟨.primitive, []⟩ s ↔ (s.primitiveSpelling? id).isSome = true := by
  rw [Query.mem_scan_iff h, primitiveSpelling?, Option.isSome_map]
  simp [Query.kinds]

theorem Sound.mem_scan_parameters (h : s.Sound) (id : Entity) :
    id ∈ Query.scan ⟨.parameter, [.identifier]⟩ s ↔ (s.parameterText? id).isSome = true := by
  rw [Query.mem_scan_iff h, parameterText?]
  cases htype : s.component? .parameter id <;> cases hname : s.component? .identifier id <;>
    simp [Query.kinds, htype, hname]

end Store

namespace Ast

variable {a b : Ast}

/-- The tree `b` is `a` with a spelling attached to exactly the primitive types and a text to
exactly the parameters that have a name. The rest is the same. -/
structure Spelled (a b : Ast) : Prop where
  slots : Store.SameSlots a.store b.store
  uniques : b.store.uniques = a.store.uniques
  observers : b.observers = a.observers
  others : ∀ k, k ≠ .cppName → k ≠ .cppFragment → b.store.table? k = a.store.table? k
  cppName : ∀ id, b.store.component? .cppName id =
    (a.store.primitiveSpelling? id).or (a.store.component? .cppName id)
  cppFragment : ∀ id, b.store.component? .cppFragment id =
    (a.store.parameterText? id).or (a.store.component? .cppFragment id)

theorem Spelled.primitiveSpelling?_eq (h : Spelled a b) :
    b.store.primitiveSpelling? = a.store.primitiveSpelling? := by
  funext id
  unfold Store.primitiveSpelling? Store.component?
  rw [h.others .primitive (by decide) (by decide)]

theorem Spelled.parameterText?_eq (h : Spelled a b) :
    b.store.parameterText? = a.store.parameterText? := by
  funext id
  unfold Store.parameterText? Store.component?
  rw [h.others .parameter (by decide) (by decide), h.others .identifier (by decide) (by decide)]

/-- Spelling goes through the primitive types first and then through the parameters, which it finds
as they were. -/
theorem Ready.spelled (h : Ready a) :
    ∃ t b, spellPrimitives a = .ok () t ∧ spellParameters t = .ok () b ∧ Ready b ∧
      Spelled a b := by
  obtain ⟨_, t, hfirst, ht, -, ht_eq⟩ := spellPrimitives_ends h
  obtain ⟨_, b, hsecond, hb, -, hb_eq⟩ := spellParameters_ends ht
  refine ⟨t, b, hfirst, hsecond, hb, ?_⟩
  have hfirstAt : Store.ChangedAt .cppName a.store t.store := by
    rw [ht_eq]
    exact Store.changedAt_withComponents ..
  have hsecondAt : Store.ChangedAt .cppFragment t.store b.store := by
    rw [hb_eq]
    exact Store.changedAt_withComponents ..
  have htexts : t.store.parameterText? = a.store.parameterText? := by
    funext id
    unfold Store.parameterText?
    rw [hfirstAt.component? (by decide), hfirstAt.component? (by decide)]
  refine ⟨⟨?_, ?_, ?_⟩, hsecondAt.uniques.trans hfirstAt.uniques, ?_, fun k hname hfragment => ?_,
    fun id => ?_, fun id => ?_⟩
  · exact hsecondAt.slots.slots.trans hfirstAt.slots.slots
  · exact hsecondAt.slots.free.trans hfirstAt.slots.free
  · exact hsecondAt.slots.live.trans hfirstAt.slots.live
  · rw [hb_eq, ht_eq]
  · exact (hsecondAt.table? k hfragment).trans (hfirstAt.table? k hname)
  · rw [hsecondAt.component? (by decide), ht_eq]
    exact h.consistent.sound.component?_withTexts (k := .cppName)
      h.consistent.sound.mem_scan_primitives "" id
  · rw [← htexts, ← hfirstAt.component? (by decide), hb_eq]
    exact ht.consistent.sound.component?_withTexts (k := .cppFragment)
      ht.consistent.sound.mem_scan_parameters "" id

/-- A tree that has been spelled is left as it is when it is spelled again. -/
theorem Spelled.again (h : Spelled a b) (hb : Ready b) :
    spellPrimitives b = .ok () b ∧ spellParameters b = .ok () b := by
  obtain ⟨_, t, hfirst, -, -, ht_eq⟩ := spellPrimitives_ends hb
  obtain ⟨_, u, hsecond, -, -, hu_eq⟩ := spellParameters_ends hb
  have hnames : t = b := by
    rw [ht_eq, Store.withComponents_of_component?]
    intro id hid
    obtain ⟨text, htext⟩ :=
      Option.isSome_iff_exists.mp ((hb.consistent.sound.mem_scan_primitives id).mp hid)
    rw [h.cppName, ← h.primitiveSpelling?_eq, htext]
    rfl
  have hfragments : u = b := by
    rw [hu_eq, Store.withComponents_of_component?]
    intro id hid
    obtain ⟨text, htext⟩ :=
      Option.isSome_iff_exists.mp ((hb.consistent.sound.mem_scan_parameters id).mp hid)
    rw [h.cppFragment, ← h.parameterText?_eq, htext]
    rfl
  exact ⟨hnames ▸ hfirst, hfragments ▸ hsecond⟩

end Ast

namespace Workspace

variable {w : Workspace}

/-- Generating code changes the tree by attaching spellings to exactly the primitive types and texts
to exactly the named parameters. Then the header and the source file of each module are attempted,
in order. Generated again, wherever the disk may be by then, the code leaves the tree as it is and
the same files are attempted with the same texts. -/
theorem generation_idempotent (h : w.ast.Ready) :
    ∃ v project modules files, generateCode w = .ok () v ∧ Ast.Spelled w.ast v.ast ∧
      v.ast.store.projectModule = .ok project ∧ v.ast.store.modules = .ok modules ∧
      mapChecked (v.ast.store.codeSavings w.compilation.config.code project) modules = .ok files ∧
      Attempts files.flatten { w with ast := v.ast } v ∧
      ∀ x, x.ast = v.ast → x.compilation.config = w.compilation.config →
        ∃ u, generateCode x = .ok () u ∧ u.ast = v.ast ∧ Attempts files.flatten x u := by
  obtain ⟨t, b, hfirst, hsecond, hb, hspelled⟩ := h.spelled
  obtain ⟨files, hfiles⟩ :=
    hb.consistent.exists_codeSavings w.compilation.config.code b.store.projectOf
  obtain ⟨_, v, hemit, hv⟩ := emitModules_attempts (w := { w with ast := b }) hb.consistent hfiles
  have hast : v.ast = b := hv.filed.ast
  refine ⟨v, b.store.projectOf, b.store.moduleList, files,
    (generateCode_run hfirst hsecond).trans hemit, ?_, ?_, ?_, ?_, ?_, fun x hx hconfig => ?_⟩
  · rw [hast]
    exact hspelled
  · rw [hast]
    exact hb.consistent.anchored.projectModule_run
  · rw [hast]
    exact hb.consistent.sound.modules_run
  · rw [hast]
    exact hfiles
  · rw [hast]
    exact hv
  · obtain ⟨hagain, hagain'⟩ := hspelled.again hb
    rw [hast] at hx ⊢
    rw [← hconfig, ← hx] at hfiles
    rw [← hx] at hagain hagain' hb
    obtain ⟨_, u, hrun, hu⟩ := emitModules_attempts hb.consistent hfiles
    exact ⟨u, (generateCode_run hagain hagain').trans hrun, hu.filed.ast.trans hx, hu⟩

/-- One entity is a primitive type, a named parameter and the entry for `bool` among the primitive
types, all at once. Another parameter has no name, and has got a text by other means. -/
def overlappingRun : List Request :=
  [.create, .create, .create, .create, .create, .observe .identifier fun _ => .done,
    .insert .module ⟨0, 0⟩ .executable, .insert .identifier ⟨0, 0⟩ "App",
    .insert .typeInfo ⟨1, 0⟩ ⟨"Point", .structType⟩, .insert .structTag ⟨1, 0⟩ (),
    .insert .identifier ⟨2, 0⟩ "x", .insert .variableTag ⟨2, 0⟩ (), .addChild ⟨0, 0⟩ ⟨1, 0⟩,
    .addChild ⟨1, 0⟩ ⟨2, 0⟩, .insert .primitive ⟨3, 0⟩ .u8, .insert .parameter ⟨3, 0⟩ "int",
    .insert .identifier ⟨3, 0⟩ "n", .insert .parameter ⟨4, 0⟩ "float",
    .insert .cppFragment ⟨4, 0⟩ "kept", .edit (.setUnique .primitives [(.bool, ⟨3, 0⟩)])]

def overlapping : Workspace where
  ast := Ast.reached overlappingRun
  disk := .empty
  compilation := .new (.ofProject (.ofString "P"))

/-- The files of its only module. The member is declared with the spelling that the entry for `bool`
gets in the same generation. -/
def overlappingFiles : List (Path × String) :=
  [(.ofString "P/Intermediates/Code/App/Include/code.h", unlines ["#pragma once", "",
      "#include <stdint.h>", "", "// Forward declarations", "struct Point;", "", "// Declarations",
      "struct Point", "\x7b", "    uint8_t x \x7b false \x7d;", "\x7d;", "",
      "// Function Declarations", "", "// Function Definitions"]),
    (.ofString "P/Intermediates/Code/App/Src/code.cpp", unlines ["#include <code.h>", "",
      "int main() \x7b return 0; \x7d"])]

theorem generation_idempotent_overlapping :
    Ast.carriedOut overlappingRun = true ∧
    ∃ v u files, generateCode overlapping = .ok () v ∧ Ast.Spelled overlapping.ast v.ast ∧
      v.ast.store.component? .cppName ⟨3, 0⟩ = some "uint8_t" ∧
      v.ast.store.component? .cppFragment ⟨3, 0⟩ = some "int n" ∧
      v.ast.store.component? .cppFragment ⟨4, 0⟩ = some "kept" ∧
      Attempts files { overlapping with ast := v.ast } v ∧
      generateCode v = .ok () u ∧ u.ast = v.ast ∧ Attempts files v u ∧
      files.map (fun f => (f.file, f.text)) = overlappingFiles := by
  have hrun : Ast.carriedOut overlappingRun = true := by decide +kernel
  have hready : overlapping.ast.Ready := ⟨Store.consistent_carriedOut hrun,
    List.isEmpty_iff.mp (by decide +kernel), List.isEmpty_iff.mp (by decide +kernel)⟩
  obtain ⟨v, project, modules, files, hfirst, hspelled, hproject, hmodules, hfiles, hattempts,
    hagain⟩ := generation_idempotent hready
  have hleft : generateCode overlapping = .ok () (left (generateCode overlapping)) :=
    eq_ok_left (by decide +kernel)
  have hv := (EStateM.Result.ok.inj (hfirst.symm.trans hleft)).2
  have hfound : v.ast.store.projectModule = .ok (some ⟨0, 0⟩) := by
    rw [hv]
    decide +kernel
  have hlisted : v.ast.store.modules = .ok [⟨0, 0⟩] := by
    rw [hv]
    decide +kernel
  have hnamed : v.ast.store.component? .cppName ⟨3, 0⟩ = some "uint8_t" ∧
      v.ast.store.component? .cppFragment ⟨3, 0⟩ = some "int n" ∧
      v.ast.store.component? .cppFragment ⟨4, 0⟩ = some "kept" := by
    rw [hv]
    decide +kernel
  have htexts : (mapChecked (v.ast.store.codeSavings overlapping.compilation.config.code
      (some ⟨0, 0⟩)) [⟨0, 0⟩]).map (fun files => files.flatten.map fun f => (f.file, f.text)) =
        .ok overlappingFiles := by
    rw [hv]
    decide +kernel
  obtain rfl := Except.ok.inj (hfound.symm.trans hproject)
  obtain rfl := Except.ok.inj (hlisted.symm.trans hmodules)
  rw [hfiles] at htexts
  obtain ⟨u, hsecond, hast, hsame⟩ := hagain v rfl hattempts.filed.config
  exact ⟨hrun, v, u, files.flatten, hfirst, hspelled, hnamed.1, hnamed.2.1, hnamed.2.2, hattempts,
    hsecond, hast, hsame, Except.ok.inj htexts⟩

end Workspace

end ModuleCompiler
