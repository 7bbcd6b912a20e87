import ModuleCompiler.Proofs.Header

/-!
What stands where in the header of a module. The types of a header are found by a question to the
whole store, its members and functions by the lists of children. In a store whose links agree both
select among the children: the groups of types are the children with the tag of the group, by slot,
and all four blocks of a header go through the same types and the same functions.
-/

namespace ModuleCompiler.Store

variable {s : Store} {id module f : Entity}

/-- The children of an entity that hold both kinds of component, in order. -/
def childrenWith (s : Store) (id : Entity) (a b : Kind) : List Entity :=
  (s.childList id).filter fun child => s.holds a child && s.holds b child

/-- The types of a module with a tag, each once and by slot. -/
structure IsGroup (s : Store) (module : Entity) (tag : Kind) (group : List Entity) : Prop where
  perm : group.Perm (s.childrenWith module tag .typeInfo)
  bySlot : group.Pairwise fun a b => a.index < b.index

theorem Sound.isValid_of_holds (h : s.Sound) {k : Kind} (hid : s.holds k id = true) :
    s.isValid id := by
  rw [h.holds_eq] at hid
  obtain ⟨v, hv⟩ := Option.isSome_iff_exists.mp hid
  exact h.isValid_of_component? hv

theorem Sound.mem_scan_pair (h : s.Sound) {a b : Kind} :
    id ∈ Query.scan ⟨a, [b]⟩ s ↔ (s.holds a id && s.holds b id) = true := by
  rw [Query.mem_scan_iff h, Bool.and_eq_true, h.holds_eq, h.holds_eq]
  simp [Query.kinds]

/-- A question to the whole store finds the children that it asks for. -/
theorem Consistent.isGroup_typesUnder (h : s.Consistent) (module : Entity) (tag : Kind) :
    s.IsGroup module tag (s.typesUnder tag module) := by
  have hascending : (s.typesUnder tag module).Pairwise fun a b => a.index < b.index :=
    Query.ascending_scan.filter _
  refine ⟨?_, hascending⟩
  -- Neither list repeats an entity, so it is enough that they have the same ones.
  refine (List.perm_ext_iff_of_nodup (nodup_of_ascending hascending)
    ((h.nodup_childList module).filter _)).mpr fun id => ?_
  rw [typesUnder, List.mem_filter, List.mem_filter, h.sound.mem_scan_pair, decide_eq_true_iff,
    h.mem_childList, and_comm]

/-- The identifier of an entity that holds one. -/
def identifierOf (s : Store) (id : Entity) : String := (s.component? .identifier id).getD ""

theorem Sound.memberNames_eq (h : s.Sound) (id : Entity) :
    s.memberNames id = (s.childrenWith id .identifier .variableTag).map s.identifierOf := by
  unfold memberNames childrenWith
  rw [← List.filterMap_eq_filter, List.map_filterMap]
  apply List.filterMap_congr
  intro child _
  unfold Query.held
  by_cases hchild : (s.holds .identifier child && s.holds .variableTag child) = true
  · rw [if_pos (h.mem_scan_pair.mpr hchild)]
    have hheld := (Bool.and_eq_true _ _ ▸ hchild).1
    rw [h.holds_eq] at hheld
    obtain ⟨name, hname⟩ := Option.isSome_iff_exists.mp hheld
    simp [Option.guard, hchild, identifierOf, hname]
  · rw [if_neg fun hin => hchild (h.mem_scan_pair.mp hin)]
    simp [Option.guard, hchild]

theorem Sound.functionsUnder_eq (h : s.Sound) (module : Entity) :
    s.functionsUnder module =
      (s.childList module ++ (s.childList module).flatMap s.childList).filter fun f =>
        s.holds .identifier f && s.holds .functionTag f := by
  have hbelow : s.below functionDepth [module] =
      s.childList module ++ (s.childList module).flatMap s.childList := by
    simp [functionDepth, below, nextLevel]
  rw [functionsUnder, hbelow]
  apply List.filter_congr
  intro f _
  rw [Bool.eq_iff_iff, decide_eq_true_iff, h.mem_scan_pair]

/-- The parent of an entity is a class. -/
def InClass (s : Store) (f : Entity) (info : TypeInfo) : Prop :=
  ∃ owner, s.parent? f = .ok (some owner) ∧ s.get? .typeInfo owner = .ok (some info) ∧
    s.has .classTag owner = .ok true

theorem InClass.unique {info other : TypeInfo} (h : s.InClass f info) (h' : s.InClass f other) :
    info = other := by
  obtain ⟨owner, hparent, hinfo, -⟩ := h
  obtain ⟨owner', hparent', hinfo', -⟩ := h'
  obtain rfl := Option.some.inj (Except.ok.inj (hparent.symm.trans hparent'))
  exact Option.some.inj (Except.ok.inj (hinfo.symm.trans hinfo'))

/-- A signature with the object of the class as a parameter. -/
def selfSignature (owner name : String) : String :=
  "void " ++ owner ++ "_" ++ name ++ "(" ++ owner ++ "& self)"

def freeSignature (name : String) : String := "void " ++ name ++ "()"

/-- The text is the signature of a function, which takes an object exactly if the parent of the
function is a class. -/
structure Signed (s : Store) (f : Entity) (text : String) : Prop where
  ofClass : ∀ info, s.InClass f info → text = selfSignature info.name (s.identifierOf f)
  free : (∀ info, ¬ s.InClass f info) → text = freeSignature (s.identifierOf f)
  self_iff : (∃ owner, text = selfSignature owner (s.identifierOf f)) ↔ ∃ info, s.InClass f info

/-- The two forms end differently, whatever the names are. -/
theorem freeSignature_ne (name owner other : String) :
    freeSignature name ≠ selfSignature owner other := by
  intro heq
  have hend := congrArg (fun text => text.toList.reverse.take 2) heq
  simp [freeSignature, selfSignature] at hend

theorem Sound.ownerOf_cases (h : s.Sound) (hf : s.isValid f) :
    (∃ info, s.InClass f info ∧ s.ownerOf f = some info.name) ∨
    (∀ info, ¬ s.InClass f info) ∧ s.ownerOf f = none := by
  unfold ownerOf InClass
  rw [parent?_of_isValid hf]
  cases s.up f with
  | none => exact Or.inr ⟨by simp, rfl⟩
  | some owner =>
    by_cases hclass : (s.holds .typeInfo owner && s.holds .classTag owner) = true
    · have hheld : Query.held ⟨.typeInfo, [.classTag]⟩ s .typeInfo owner =
          s.component? .typeInfo owner := if_pos (h.mem_scan_pair.mpr hclass)
      obtain ⟨htype, htag⟩ := Bool.and_eq_true_iff.mp hclass
      have hvalid := h.isValid_of_holds htype
      rw [h.holds_eq] at htype
      obtain ⟨info, hinfo⟩ := Option.isSome_iff_exists.mp htype
      refine Or.inl ⟨info, ⟨owner, rfl, ?_, ?_⟩, ?_⟩
      · rw [get?_of_isValid hvalid, hinfo]
      · rw [has_of_isValid hvalid, htag]
      · rw [Option.bind_some, hheld, hinfo, Option.map_some]
    · have hheld : Query.held ⟨.typeInfo, [.classTag]⟩ s .typeInfo owner = none :=
        if_neg fun hin => hclass (h.mem_scan_pair.mp hin)
      refine Or.inr ⟨?_, by rw [Option.bind_some, hheld, Option.map_none]⟩
      rintro info ⟨other, hother, hinfo, htag⟩
      obtain rfl := Option.some.inj (Except.ok.inj hother)
      have htype : s.holds .typeInfo owner = true := by
        rw [h.holds_eq, (get?_eq_ok hinfo).2]
        rfl
      exact hclass (Bool.and_eq_true_iff.mpr ⟨htype, ((has_eq_true s _ owner).mp htag).2⟩)

theorem Sound.signed (h : s.Sound) (hf : s.isValid f) : s.Signed f (s.signatureOf f) := by
  unfold signatureOf
  rcases h.ownerOf_cases hf with ⟨info, hinfo, howner⟩ | ⟨hfree, howner⟩
  · have htext : signatureText ((s.component? .identifier f).getD "") (s.ownerOf f) =
        selfSignature info.name (s.identifierOf f) := by
      rw [howner]
      rfl
    refine ⟨fun other hother => ?_, fun hfree => absurd hinfo (hfree info),
      fun _ => ⟨info, hinfo⟩, fun _ => ⟨info.name, htext⟩⟩
    obtain rfl := hinfo.unique hother
    exact htext
  · have htext : signatureText ((s.component? .identifier f).getD "") (s.ownerOf f) =
        freeSignature (s.identifierOf f) := by
      rw [howner]
      rfl
    refine ⟨fun info hinfo => absurd hinfo (hfree info), fun _ => htext, ?_, ?_⟩
    · rintro ⟨owner, hself⟩
      exact absurd (htext.symm.trans hself) (freeSignature_ne _ owner _)
    · rintro ⟨info, hinfo⟩
      exact absurd hinfo (hfree info)

def preamble : List String := ["#pragma once", "", "#include <stdint.h>"]

/-- A block of a header: an empty line, a title, and entries of some lines each. -/
def block (title : String) (entries : List (List String)) : List String :=
  ["", "// " ++ title] ++ entries.flatten

def forwardEntry (s : Store) (id : Entity) : List String := ["struct " ++ s.nameOfType id ++ ";"]

/-- The declaration of a type, with a line for each member among its children. -/
def declarationEntry (s : Store) (memberType : String) (id : Entity) : List String :=
  ["struct " ++ s.nameOfType id, "\x7b"] ++
    (s.childrenWith id .identifier .variableTag).map (fun member =>
      "    " ++ memberType ++ " " ++ s.identifierOf member ++ " \x7b false \x7d;") ++
    ["\x7d;"]

theorem Sound.lines_typeText (h : s.Sound) (memberType : String) :
    (s.typeText id).lines memberType = s.declarationEntry memberType id := by
  simp only [typeText, TypeText.lines, declarationEntry, h.memberNames_eq, List.map_map,
    Function.comp_def]

theorem Sound.lines_headerText (h : s.Sound) (memberType : String) :
    (s.headerText module).lines memberType =
      preamble ++ block "Forward declarations" ((s.typesOf module).map s.forwardEntry) ++
      block "Declarations" ((s.typesOf module).map (s.declarationEntry memberType)) ++
      block "Function Declarations" ((s.functionsUnder module).map fun f =>
        [s.signatureOf f ++ ";"]) ++
      block "Function Definitions" ((s.functionsUnder module).map fun f =>
        ["inline " ++ s.signatureOf f, "\x7b", "\x7d"]) := by
  have hforward : ((s.typesOf module).map s.typeText).map (fun t => "struct " ++ t.name ++ ";") =
      ((s.typesOf module).map s.forwardEntry).flatten := by
    rw [List.map_map, List.map_eq_flatMap, List.flatMap_def]
    rfl
  have hdeclared : ((s.typesOf module).map s.typeText).flatMap (TypeText.lines memberType) =
      ((s.typesOf module).map (s.declarationEntry memberType)).flatten := by
    rw [List.flatMap_map, List.flatMap_def]
    simp only [h.lines_typeText]
  have hsigned : ((s.functionsUnder module).map s.signatureOf).map (· ++ ";") =
      ((s.functionsUnder module).map fun f => [s.signatureOf f ++ ";"]).flatten := by
    rw [List.map_map, List.map_eq_flatMap, List.flatMap_def]
    rfl
  unfold HeaderText.lines headerText block
  rw [hforward, hdeclared, hsigned, List.flatMap_map, List.flatMap_def]
  simp only [List.append_assoc]
  rfl

/-- In a store with agreeing links the header of a module has, after a fixed beginning, four blocks.
The first two go through the same types: the children of the module that hold a type and the struct
tag, by slot, and then those with the class tag. The declaration of a type has a line for each of
its children that is a named variable, in their order. The other two go through the same functions,
the named ones among the children and their children, each once and with the same signature, which
takes an object exactly if the parent of the function is a class. -/
theorem header_laid_out (hs : s.Consistent) (hmodule : s.has .module module = .ok true) :
    ∃ structs classes functions memberType, ∃ signature : Entity → String,
      s.IsGroup module .structTag structs ∧ s.IsGroup module .classTag classes ∧
      (structs ++ classes).length = (s.childrenWith module .structTag .typeInfo).length +
        (s.childrenWith module .classTag .typeInfo).length ∧
      functions = ((s.childList module ++ (s.childList module).flatMap s.childList).filter fun f =>
        s.holds .identifier f && s.holds .functionTag f) ∧
      functions.Nodup ∧ (∀ f ∈ functions, s.Signed f (signature f)) ∧
      s.memberType = .ok memberType ∧
      s.header module = .ok (unlines (preamble ++
        block "Forward declarations" ((structs ++ classes).map s.forwardEntry) ++
        block "Declarations" ((structs ++ classes).map (s.declarationEntry memberType)) ++
        block "Function Declarations" (functions.map fun f => [signature f ++ ";"]) ++
        block "Function Definitions" (functions.map fun f =>
          ["inline " ++ signature f, "\x7b", "\x7d"]))) := by
  have hvalid := ((has_eq_true s _ module).mp hmodule).1
  have hstructs := hs.isGroup_typesUnder module .structTag
  have hclasses := hs.isGroup_typesUnder module .classTag
  refine ⟨_, _, s.functionsUnder module, s.memberTypeName, s.signatureOf, hstructs, hclasses, ?_,
    hs.sound.functionsUnder_eq module, hs.nodup_functionsUnder hvalid, fun f hf => ?_,
    hs.sound.memberType_run, ?_⟩
  · rw [List.length_append, hstructs.perm.length_eq, hclasses.perm.length_eq]
  · rw [hs.sound.functionsUnder_eq] at hf
    have hheld := (List.mem_filter.mp hf).2
    exact hs.sound.signed (hs.sound.isValid_of_holds (Bool.and_eq_true_iff.mp hheld).1)
  · rw [hs.header_run hvalid, HeaderText.render, hs.sound.lines_headerText]
    rfl

/-- A module whose children are not in the order of their slots: a type with both tags, a struct
with a member, a class with a function and a function of the module's own. -/
def jumbledRun : List Request :=
  [.create, .create, .create, .create, .create, .create, .create,
    .insert .module ⟨0, 0⟩ .executable, .insert .typeInfo ⟨1, 0⟩ ⟨"Lamp", .classType⟩,
    .insert .classTag ⟨1, 0⟩ (), .insert .typeInfo ⟨2, 0⟩ ⟨"Point", .structType⟩,
    .insert .structTag ⟨2, 0⟩ (), .insert .typeInfo ⟨3, 0⟩ ⟨"Both", .structType⟩,
    .insert .structTag ⟨3, 0⟩ (), .insert .classTag ⟨3, 0⟩ (), .insert .identifier ⟨4, 0⟩ "x",
    .insert .variableTag ⟨4, 0⟩ (), .insert .identifier ⟨5, 0⟩ "light",
    .insert .functionTag ⟨5, 0⟩ (), .insert .identifier ⟨6, 0⟩ "start",
    .insert .functionTag ⟨6, 0⟩ (),
    .edit (.addChildren ⟨0, 0⟩ [⟨6, 0⟩, ⟨3, 0⟩, ⟨2, 0⟩, ⟨1, 0⟩]), .addChild ⟨2, 0⟩ ⟨4, 0⟩,
    .addChild ⟨1, 0⟩ ⟨5, 0⟩]

/-- Two structs and two classes make four entries, of which the type with both tags has two. -/
theorem header_laid_out_jumbled :
    Ast.carriedOut jumbledRun = true ∧
    (Ast.reached jumbledRun).store.has .module ⟨0, 0⟩ = .ok true ∧
    ∃ structs classes functions memberType, ∃ signature : Entity → String,
      (Ast.reached jumbledRun).store.IsGroup ⟨0, 0⟩ .structTag structs ∧
      (Ast.reached jumbledRun).store.IsGroup ⟨0, 0⟩ .classTag classes ∧
      (structs ++ classes).length = 4 ∧ functions = [⟨6, 0⟩, ⟨5, 0⟩] ∧
      (Ast.reached jumbledRun).store.header ⟨0, 0⟩ = .ok (unlines (preamble ++
        block "Forward declarations"
          ((structs ++ classes).map (Ast.reached jumbledRun).store.forwardEntry) ++
        block "Declarations"
          ((structs ++ classes).map ((Ast.reached jumbledRun).store.declarationEntry memberType)) ++
        block "Function Declarations" (functions.map fun f => [signature f ++ ";"]) ++
        block "Function Definitions" (functions.map fun f =>
          ["inline " ++ signature f, "\x7b", "\x7d"]))) := by
  have hrun : Ast.carriedOut jumbledRun = true := by decide +kernel
  have hmodule : (Ast.reached jumbledRun).store.has .module ⟨0, 0⟩ = .ok true := by decide +kernel
  obtain ⟨structs, classes, functions, memberType, signature, hstructs, hclasses, hlength,
    hfunctions, -, -, -, hheader⟩ := header_laid_out (consistent_carriedOut hrun) hmodule
  refine ⟨hrun, hmodule, structs, classes, functions, memberType, signature, hstructs, hclasses,
    hlength.trans ?_, hfunctions.trans ?_, hheader⟩
  · decide +kernel
  · decide +kernel

end ModuleCompiler.Store
