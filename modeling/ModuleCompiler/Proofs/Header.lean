import ModuleCompiler.Header
import ModuleCompiler.Proofs.Query
import ModuleCompiler.Proofs.Traversal

/-!
The header of a module as a list of lines. In a store whose links agree no question that is asked
on the way to a header is refused, so a header is a function of what the entities hold: the types
under the module, the members under each type, and the functions at most two levels down.
-/

namespace ModuleCompiler

def unlines : List String → String
  | [] => ""
  | l :: rest => l ++ "\n" ++ unlines rest

theorem unlines_append (a b : List String) : unlines (a ++ b) = unlines a ++ unlines b := by
  induction a with
  | nil => simp [unlines]
  | cons l rest ih => simp only [List.cons_append, unlines, ih, String.append_assoc]

namespace Writer

/-- A writer at a level that has written some lines. -/
def ofLines (level : Nat) (ls : List String) : Writer := ⟨level, unlines ls⟩

variable {level : Nat} {ls : List String}

theorem line_ofLines (l : String) :
    (ofLines level ls).line l = ofLines level (ls ++ [margin level ++ l]) := by
  simp only [ofLines, line, unlines_append, unlines, String.append_assoc, String.append_empty]

theorem blank_ofLines : (ofLines level ls).blank = ofLines level (ls ++ [""]) := by
  simp only [ofLines, blank, unlines_append, unlines, String.empty_append, String.append_empty]

theorem lines_ofLines (more : List String) :
    (ofLines level ls).lines more = ofLines level (ls ++ more.map (margin level ++ ·)) := by
  unfold lines
  induction more generalizing ls with
  | nil => simp
  | cons l rest ih => rw [List.foldl_cons, line_ofLines, ih, List.map_cons, List.append_assoc]; rfl

theorem comment_ofLines (text : String) :
    (ofLines level ls).comment text = ofLines level (ls ++ [margin level ++ ("// " ++ text)]) :=
  line_ofLines _

theorem indent_ofLines : (ofLines level ls).indent = ofLines (level + 1) ls := rfl

theorem dedent_ofLines : (ofLines (level + 1) ls).dedent = .ok (ofLines level ls) := rfl

theorem margin_zero_append (l : String) : margin 0 ++ l = l := String.empty_append

end Writer

/-- What a header says of a type. -/
structure TypeText where
  name : String
  members : List String
  deriving DecidableEq

/-- What a header says: its types in order, and the signatures of its functions in order. -/
structure HeaderText where
  types : List TypeText
  signatures : List String
  deriving DecidableEq

/-- The declaration of a type whose members are of one type. -/
def TypeText.lines (memberType : String) (t : TypeText) : List String :=
  ["struct " ++ t.name, "\x7b"] ++
    t.members.map (fun m => "    " ++ memberType ++ " " ++ m ++ " \x7b false \x7d;") ++ ["\x7d;"]

def HeaderText.lines (memberType : String) (h : HeaderText) : List String :=
  ["#pragma once", "", "#include <stdint.h>", "", "// Forward declarations"] ++
    h.types.map (fun t => "struct " ++ t.name ++ ";") ++
  ["", "// Declarations"] ++ h.types.flatMap (TypeText.lines memberType) ++
  ["", "// Function Declarations"] ++ h.signatures.map (· ++ ";") ++
  ["", "// Function Definitions"] ++ h.signatures.flatMap fun f => ["inline " ++ f, "\x7b", "\x7d"]

def HeaderText.render (memberType : String) (h : HeaderText) : String :=
  unlines (h.lines memberType)

namespace Query

variable {s : Store} (q : Query)

theorem retain_run (ids : List Entity) :
    q.retain s ids = .ok (ids.filter fun id => decide (id ∈ q.scan s)) :=
  filterChecked_run fun id _ => has_run id

/-- A component of an entity, provided that the entity matches. -/
def held (q : Query) (s : Store) (k : Kind) (id : Entity) : Option k.Value :=
  if id ∈ q.scan s then s.component? k id else none

theorem get?_run (k : Kind) (id : Entity) : q.get? s k id = .ok (q.held s k id) := by
  unfold get? held
  rw [has_run]
  by_cases hid : id ∈ q.scan s
  · have hget := Store.get?_of_isValid (k := k) (mem_scan.mp hid).1
    simp [hid, hget, bind, Except.bind]
  · simp [hid, bind, Except.bind, pure, Except.pure]

end Query

namespace Store

variable {s : Store} {id module : Entity}

/-- The types with a tag directly under a module, by slot. -/
def typesUnder (s : Store) (tag : Kind) (module : Entity) : List Entity :=
  (Query.scan ⟨tag, [.typeInfo]⟩ s).filter fun id => s.up id = some module

theorem Sound.moduleTypes_run (h : s.Sound) (tag : Kind) :
    s.moduleTypes tag module = .ok (s.typesUnder tag module) := by
  have htest : ∀ id ∈ Query.scan ⟨tag, [.typeInfo]⟩ s,
      (do return decide ((← s.parent? id) = some module) : Except Fault Bool) =
        .ok (decide (s.up id = some module)) := by
    intro id hid
    rw [parent?_of_isValid (Query.mem_scan.mp hid).1]
    rfl
  show (Query.ids ⟨tag, [.typeInfo]⟩ s >>= _) = _
  rw [Query.ids_run h]
  exact filterChecked_run htest

/-- The functions of a module. -/
def functionsUnder (s : Store) (module : Entity) : List Entity :=
  (s.below functionDepth [module]).filter fun id =>
    decide (id ∈ Query.scan ⟨.identifier, [.functionTag]⟩ s)

theorem Linked.moduleFunctions_run (h : s.Linked) (hmodule : s.isValid module) :
    s.moduleFunctions module = .ok (s.functionsUnder module) := by
  show (s.descendants module functionDepth >>= _) = _
  rw [(h.descendants_run hmodule functionDepth).1]
  exact Query.retain_run _ _

theorem Linked.nodup_functionsUnder (h : s.Linked) (hmodule : s.isValid module) :
    (s.functionsUnder module).Nodup :=
  (h.descendants_run hmodule functionDepth).2.of_cons.filter _

def nameOfType (s : Store) (id : Entity) : String :=
  ((s.component? .typeInfo id).map TypeInfo.name).getD ""

/-- The names of the members of a type, in order. -/
def memberNames (s : Store) (id : Entity) : List String :=
  (s.childList id).filterMap (Query.held ⟨.identifier, [.variableTag]⟩ s .identifier)

def ownerOf (s : Store) (function : Entity) : Option String :=
  (s.up function).bind fun owner =>
    (Query.held ⟨.typeInfo, [.classTag]⟩ s .typeInfo owner).map TypeInfo.name

def signatureOf (s : Store) (function : Entity) : String :=
  signatureText ((s.component? .identifier function).getD "") (s.ownerOf function)

/-- The type that members are declared with. -/
def memberTypeName (s : Store) : String :=
  (((s.unique? .primitives).bind (·.lookup .bool)).bind (s.component? .cppName)).getD "bool"

def typeText (s : Store) (id : Entity) : TypeText := ⟨s.nameOfType id, s.memberNames id⟩

/-- The types of a module: the structs and then the classes. -/
def typesOf (s : Store) (module : Entity) : List Entity :=
  s.typesUnder .structTag module ++ s.typesUnder .classTag module

def headerText (s : Store) (module : Entity) : HeaderText :=
  ⟨(s.typesOf module).map s.typeText, (s.functionsUnder module).map s.signatureOf⟩

theorem Sound.memberType_run (h : s.Sound) : s.memberType = .ok s.memberTypeName := by
  unfold memberType memberTypeName
  cases hid : (s.unique? .primitives).bind (·.lookup .bool) with
  | none => rfl
  | some id =>
    by_cases hvalid : s.isValid id
    · simp [hvalid, get?_of_isValid hvalid, bind, Except.bind, pure, Except.pure]
    · simp [hvalid, h.component?_of_not_isValid _ hvalid, pure, Except.pure]

theorem Sound.held_of_has (h : s.Sound) {k : Kind} (hid : s.has k id = .ok true) :
    ∃ v, s.component? k id = some v ∧ s.require k id = .ok v := by
  obtain ⟨hvalid, hholds⟩ := (has_eq_true s k id).mp hid
  rw [h.holds_eq] at hholds
  obtain ⟨v, hv⟩ := Option.isSome_iff_exists.mp hholds
  exact ⟨v, hv, require_of_held hvalid hv⟩

theorem Sound.typeName_run (h : s.Sound) (hid : s.has .typeInfo id = .ok true) :
    s.typeName id = .ok (s.nameOfType id) := by
  obtain ⟨info, hinfo, hrequire⟩ := h.held_of_has hid
  simp [typeName, nameOfType, hrequire, hinfo, bind, Except.bind, pure, Except.pure]

theorem Sound.signature_run (h : s.Sound) (hid : s.has .identifier id = .ok true) :
    s.signature id = .ok (s.signatureOf id) := by
  obtain ⟨name, hname, hrequire⟩ := h.held_of_has hid
  have howner : s.ownerName? id = .ok (s.ownerOf id) := by
    unfold ownerName? ownerOf
    rw [parent?_of_isValid ((has_eq_true s _ id).mp hid).1]
    cases s.up id with
    | none => rfl
    | some owner =>
      show (Query.get? ⟨.typeInfo, [.classTag]⟩ s .typeInfo owner >>= _) = _
      rw [Query.get?_run]
      rfl
  unfold signature signatureOf
  rw [howner, hrequire, hname]
  rfl

theorem Linked.declareType_run (h : s.Linked) (hid : s.has .typeInfo id = .ok true)
    (ls : List String) :
    s.declareType (.ofLines 0 ls) id =
      .ok (.ofLines 0 (ls ++ (s.typeText id).lines s.memberTypeName)) := by
  have hvalid := ((has_eq_true s _ id).mp hid).1
  have hmembers : mapChecked s.variableName? (s.childList id) = .ok ((s.childList id).map _) :=
    mapChecked_run fun member _ => Query.get?_run _ _ _
  have hindented : ∀ m, Writer.margin 1 ++ memberLine s.memberTypeName m =
      "    " ++ s.memberTypeName ++ " " ++ m ++ " \x7b false \x7d;" := by
    intro m
    simp only [memberLine, String.append_assoc]
    rfl
  unfold declareType
  rw [h.sound.memberType_run, h.sound.typeName_run hid, children_of_isValid hvalid]
  simp only [bind, Except.bind, pure, Except.pure, hmembers, Writer.line_ofLines,
    Writer.indent_ofLines, Writer.lines_ofLines, Writer.dedent_ofLines, Writer.margin_zero_append,
    List.filterMap_map, List.map_map, Function.comp_def, hindented, List.append_assoc]
  rfl

theorem Linked.declareTypes_run (h : s.Linked) {ids : List Entity}
    (hids : ∀ id ∈ ids, s.has .typeInfo id = .ok true) (ls : List String) :
    s.declareTypes (.ofLines 0 ls) ids =
      .ok (.ofLines 0 (ls ++ (ids.map s.typeText).flatMap (TypeText.lines s.memberTypeName))) := by
  induction ids generalizing ls with
  | nil => simp [declareTypes]
  | cons id rest ih =>
    have hrest := ih fun x hx => hids x (by simp [hx])
    simp only [declareTypes, h.declareType_run (hids id (by simp)), bind, Except.bind, hrest,
      List.map_cons, List.flatMap_cons, List.append_assoc]

theorem Linked.header_run (h : s.Linked) (hmodule : s.isValid module) :
    s.header module = .ok ((s.headerText module).render s.memberTypeName) := by
  have htypes : ∀ id ∈ s.typesOf module, s.has .typeInfo id = .ok true := by
    intro id hid
    rcases List.mem_append.mp hid with hid | hid
    · exact (Query.mem_scan.mp (List.mem_filter.mp hid).1).2 _ (by simp [Query.kinds])
    · exact (Query.mem_scan.mp (List.mem_filter.mp hid).1).2 _ (by simp [Query.kinds])
  have hnames : mapChecked s.typeName (s.typesOf module) =
      .ok ((s.typesOf module).map s.nameOfType) :=
    mapChecked_run fun id hid => h.sound.typeName_run (htypes id hid)
  have hsignatures : mapChecked s.signature (s.functionsUnder module) =
      .ok ((s.functionsUnder module).map s.signatureOf) := by
    apply mapChecked_run
    intro id hid
    have hmatch := of_decide_eq_true (List.mem_filter.mp hid).2
    exact h.sound.signature_run ((Query.mem_scan.mp hmatch).2 _ (by simp [Query.kinds]))
  have hdeclared := h.declareTypes_run htypes
  unfold typesOf at hnames hdeclared
  unfold header
  rw [h.sound.moduleTypes_run, h.sound.moduleTypes_run, h.moduleFunctions_run hmodule]
  have hempty : Writer.empty = .ofLines 0 [] := rfl
  simp only [bind, Except.bind, pure, Except.pure, hnames, hempty, Writer.includeLine,
    Writer.line_ofLines, Writer.blank_ofLines, Writer.comment_ofLines, Writer.lines_ofLines,
    Writer.margin_zero_append, hdeclared, hsignatures, List.map_id_fun', id_eq]
  show Except.ok (unlines _) = Except.ok (unlines _)
  have hforward : ∀ name, forwardLine name = "struct " ++ name ++ ";" := fun _ => rfl
  have hdeclaration : ∀ f, declarationLine f = f ++ ";" := fun _ => rfl
  simp only [headerText, HeaderText.lines, typesOf, List.map_map, Function.comp_def, hforward,
    hdeclaration, List.append_assoc]
  rfl

theorem Linked.moduleCode_run (h : s.Linked) (hmodule : s.isValid module) (isProject : Bool) :
    s.moduleCode module isProject =
      .ok ⟨(s.headerText module).render s.memberTypeName, source isProject⟩ := by
  unfold moduleCode
  rw [h.header_run hmodule]
  rfl

end Store

end ModuleCompiler
