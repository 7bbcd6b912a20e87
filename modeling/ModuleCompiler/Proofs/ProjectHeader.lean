import ModuleCompiler.Proofs.Folders
import ModuleCompiler.Proofs.Header

/-!
The headers of a loaded project. What the header of a module says can be read off the files alone:
off the type files whose nearest module folder is that of the module, in the order in which they
were found.
-/

namespace ModuleCompiler

/-- What a question finds at an entity, read off its node. -/
theorem Store.Shows.held_of_node {s : Store} {o : List Node} (h : s.Shows o) {q : Query} {k : Kind}
    (hq : ∀ j ∈ q.kinds, j ≠ .children) (hk : k ≠ .children) {i : Nat} {n : Node}
    (hn : o[i]? = some n) :
    q.held s k (.first i) = if ∀ j ∈ q.kinds, (n j).isSome = true then n k else none := by
  unfold Query.held
  rw [h.component?_of_node hn hk]
  exact if_congr (h.mem_scan hq hn) rfl rfl

/-- Whether an entity is a named function. -/
def Store.isFunction (s : Store) (id : Entity) : Bool :=
  decide (id ∈ Query.scan ⟨.identifier, [.functionTag]⟩ s)

namespace Project

variable {owner : Path → Entity} {base start : Nat} {types : List (Path × TypeDescription)}

/-- The signature of a function that a type file has. -/
def signatureOf (t : TypeDescription) (f : FunctionEntry) : String :=
  if t.type.category = .classType then
    "void " ++ t.type.name ++ "_" ++ f.name ++ "(" ++ t.type.name ++ "& self)"
  else "void " ++ f.name ++ "()"

/-- The header of a module whose type files say `types`, in this order. -/
def headerOf (types : List TypeDescription) : HeaderText where
  types :=
    (types.filter (·.type.category = .structType) ++
      types.filter (·.type.category = .classType)).map fun t => ⟨t.type.name, t.members⟩
  signatures := types.flatMap fun t => t.functions.map (signatureOf t)

/-- A description in which no function has parameters. -/
def TypeDescription.withoutParameters (t : TypeDescription) : TypeDescription :=
  { t with functions := t.functions.map fun f => { f with parameters := [] } }

theorem headerOf_withoutParameters (types : List TypeDescription) :
    headerOf (types.map TypeDescription.withoutParameters) = headerOf types := by
  have hsignatures : ∀ t : TypeDescription, t.withoutParameters.functions.map
      (signatureOf t.withoutParameters) = t.functions.map (signatureOf t) := by
    intro t
    rw [TypeDescription.withoutParameters, List.map_map]
    rfl
  simp only [headerOf, List.filter_map, List.flatMap_map, hsignatures, ← List.map_append,
    List.map_map]
  rfl

/-- The type files whose nearest module folder is the given one, in the order of `files`. -/
def filesOf (projectFile : Path) (files : List Path) (folder : Path) : List Path :=
  (typeFiles files).filter fun file =>
    decide (IsNearest (moduleFolders projectFile files) (folderOf file) folder)

/-- The node of a type under its module. -/
def linkedNode (owner : Path → Entity) (x : Path × TypeDescription) : Node :=
  Node.put (typeNode x.1 x.2) .parent (owner x.1)

/-- The slots of the types, where the first one stands in slot `base`. -/
def typeSlots (owner : Path → Entity) :
    Nat → List (Path × TypeDescription) → List (Nat × Path × TypeDescription)
  | _, [] => []
  | base, x :: xs => (base, x) :: typeSlots owner (base + (typeBlock owner base x).length) xs

theorem map_typeSlots : (typeSlots owner base types).map Prod.snd = types := by
  induction types generalizing base with
  | nil => rfl
  | cons x types ih => rw [typeSlots, List.map_cons, ih]

theorem le_of_mem_typeSlots {y : Nat × Path × TypeDescription}
    (h : y ∈ typeSlots owner base types) : base ≤ y.1 := by
  induction types generalizing base with
  | nil => cases h
  | cons x types ih =>
    rcases List.mem_cons.mp h with rfl | h
    · exact Nat.le_refl _
    · have := ih h
      omega

theorem getElem?_typeBlocks {y : Nat × Path × TypeDescription}
    (h : y ∈ typeSlots owner base types) :
    (typeBlocks owner base types)[y.1 - base]? = some (linkedNode owner y.2) := by
  induction types generalizing base with
  | nil => cases h
  | cons x types ih =>
    rw [typeBlocks]
    rcases List.mem_cons.mp h with rfl | h
    · rw [Nat.sub_self]
      rfl
    · have hle := le_of_mem_typeSlots h
      rw [List.getElem?_append_right (by omega), ← ih h]
      congr 1
      omega

/-- A test that only types can pass picks the slots of the types that pass it. -/
theorem picksFrom_typeBlocks {p : Node → Bool}
    (h : ∀ slot t, base ≤ slot → ∀ n ∈ typeContents slot t, p n = false) :
    picksFrom base (typeBlocks owner base types) p =
      ((typeSlots owner base types).filter (p <| linkedNode owner ·.2)).map (.first ·.1) := by
  induction types generalizing base with
  | nil => rfl
  | cons x types ih =>
    let next := base + (typeBlock owner base x).length
    have hrest : picksFrom next (typeBlocks owner next types) p =
        ((typeSlots owner next types).filter (p <| linkedNode owner ·.2)).map (.first ·.1) :=
      ih fun slot t hle => h slot t (by omega)
    have hcontents := picksFrom_eq_nil (base + 1) (h base x.2 (Nat.le_refl _))
    have hblock : picksFrom base (typeBlock owner base x) p =
        if p (linkedNode owner x) then [.first base] else [] := by
      rw [typeBlock, picksFrom_cons, hcontents, List.append_nil]
      rfl
    rw [typeBlocks, picksFrom_append, hrest, hblock, typeSlots, List.filter_cons]
    split <;> rfl

/-- The members and functions of the type in a slot. -/
def memberNodes (slot : Nat) (t : TypeDescription) : List Node :=
  t.members.map (variableNode (.first slot)) ++ t.functions.map (functionNode (.first slot))

/-- The nodes that name an entity as their parent. -/
def nodesUnder (o : List Node) (parent : Entity) : List Node :=
  o.filter fun n => decide (n .parent = some parent)

theorem nodesUnder_append (a b : List Node) (parent : Entity) :
    nodesUnder (a ++ b) parent = nodesUnder a parent ++ nodesUnder b parent := by
  simp [nodesUnder]

theorem nodesUnder_eq_nil {o : List Node} {parent : Entity}
    (h : ∀ n ∈ o, n .parent ≠ some parent) : nodesUnder o parent = [] := by
  rw [nodesUnder, List.filter_eq_nil_iff]
  intro n hn
  simpa using h n hn

theorem nodesUnder_functionBlocks {type : Entity} (fs : List FunctionEntry)
    (h : type.index < base) :
    nodesUnder (functionBlocks type base fs) type = fs.map (functionNode type) := by
  induction fs generalizing base with
  | nil => rfl
  | cons f fs ih =>
    have hparameters : nodesUnder (f.parameters.map (parameterNode (.first base))) type = [] := by
      apply nodesUnder_eq_nil
      intro n hn
      obtain ⟨p, -, rfl⟩ := List.mem_map.mp hn
      rintro hparent
      have hbase : Entity.first base = type := by simpa [parameterNode] using hparent
      rw [← hbase] at h
      exact Nat.lt_irrefl _ h
    have hblock : nodesUnder (functionBlock type base f) type = [functionNode type f] := by
      rw [functionBlock, ← List.singleton_append, nodesUnder_append, hparameters, List.append_nil]
      simp [nodesUnder, functionNode]
    rw [functionBlocks, nodesUnder_append, hblock, ih (by omega)]
    rfl

theorem nodesUnder_typeContents (slot : Nat) (t : TypeDescription) :
    nodesUnder (typeContents slot t) (.first slot) = memberNodes slot t := by
  have hvariables : nodesUnder (t.members.map (variableNode (.first slot))) (.first slot) =
      t.members.map (variableNode (.first slot)) := by
    rw [nodesUnder, List.filter_eq_self]
    intro n hn
    obtain ⟨name, -, rfl⟩ := List.mem_map.mp hn
    simp [variableNode]
  rw [typeContents, nodesUnder_append, hvariables, nodesUnder_functionBlocks _ (by
    simp [Entity.first])]
  rfl

theorem parent_linkedNode (x : Path × TypeDescription) :
    linkedNode owner x .parent = some (owner x.1) := Node.put_self

/-- Every node of the types is a type, or lies below one. -/
theorem mem_typeBlocks {n : Node} (hn : n ∈ typeBlocks owner base types) :
    (∃ x, n = linkedNode owner x) ∨ ∃ slot t, base ≤ slot ∧ n ∈ typeContents slot t := by
  induction types generalizing base with
  | nil => cases hn
  | cons x types ih =>
    rcases List.mem_append.mp hn with hn | hn
    · rcases List.mem_cons.mp hn with rfl | hn
      · exact Or.inl ⟨x, rfl⟩
      · exact Or.inr ⟨base, x.2, Nat.le_refl _, hn⟩
    · rcases ih hn with hlinked | ⟨slot, t, hle, hcontents⟩
      · exact Or.inl hlinked
      · exact Or.inr ⟨slot, t, by omega, hcontents⟩

theorem parent_of_mem_typeBlocks {parent : Entity} {n : Node}
    (hn : n ∈ typeBlocks owner base types) (hparent : n .parent = some parent) :
    (∃ file, parent = owner file) ∨ base ≤ parent.index := by
  rcases mem_typeBlocks hn with ⟨x, rfl⟩ | ⟨slot, t, hle, hcontents⟩
  · exact Or.inl ⟨x.1, Option.some.inj (hparent.symm.trans (parent_linkedNode x))⟩
  · exact Or.inr (hle.trans (parent_of_mem_typeContents hcontents hparent).1)

/-- Nothing of another block lies directly below a type. -/
theorem nodesUnder_typeBlocks {y : Nat × Path × TypeDescription}
    (hy : y ∈ typeSlots owner base types) (howner : ∀ file, (owner file).index < base) :
    nodesUnder (typeBlocks owner base types) (.first y.1) = memberNodes y.1 y.2.2 := by
  induction types generalizing base with
  | nil => cases hy
  | cons x types ih =>
    have hlength : (typeBlock owner base x).length = (typeContents base x.2).length + 1 := rfl
    have hlinked : ∀ slot, base ≤ slot → nodesUnder [linkedNode owner x] (.first slot) = [] := by
      intro slot hle
      apply nodesUnder_eq_nil
      intro n hn hparent
      rw [List.mem_singleton.mp hn, parent_linkedNode, Option.some.injEq] at hparent
      have hlt := howner x.1
      rw [hparent] at hlt
      exact absurd hlt (by simpa [Entity.first] using hle)
    have hblock : ∀ slot, base ≤ slot → nodesUnder (typeBlock owner base x) (.first slot) =
        nodesUnder (typeContents base x.2) (.first slot) := by
      intro slot hle
      have hsplit : typeBlock owner base x = [linkedNode owner x] ++ typeContents base x.2 := rfl
      rw [hsplit, nodesUnder_append, hlinked slot hle, List.nil_append]
    rw [typeBlocks, nodesUnder_append]
    rcases List.mem_cons.mp hy with rfl | hy
    · have hrest : nodesUnder (typeBlocks owner (base + (typeBlock owner base x).length) types)
          (.first base) = [] := by
        apply nodesUnder_eq_nil
        intro n hn hparent
        rcases parent_of_mem_typeBlocks hn hparent with ⟨file, hfile⟩ | hle
        · have hlt := howner file
          rw [← hfile] at hlt
          exact Nat.lt_irrefl _ hlt
        · rw [Entity.index_first] at hle
          omega
      rw [hblock base (Nat.le_refl _), nodesUnder_typeContents, hrest, List.append_nil]
    · have hle := le_of_mem_typeSlots hy
      have hfirst : nodesUnder (typeContents base x.2) (.first y.1) = [] := by
        apply nodesUnder_eq_nil
        intro n hn hparent
        have hlt := (parent_of_mem_typeContents hn hparent).2
        rw [Entity.index_first] at hlt
        omega
      rw [hblock y.1 (by omega), hfirst, List.nil_append]
      exact ih hy fun file => by
        have := howner file
        omega

theorem lacks_primitiveNodes {n : Node} {k : Kind} (hn : n ∈ primitiveNodes)
    (hk : k ∉ [Kind.identifier, .primitive]) : n k = none := by
  obtain ⟨p, -, rfl⟩ := List.mem_map.mp hn
  simp_all [primitiveNode]

theorem IsModuleNode.lacks {d : Disk} {bound : Nat} {file : Path} {n : Node} {k : Kind}
    (h : IsModuleNode d bound file n) (hk : k ∉ [Kind.module, .fileRef, .identifier, .parent]) :
    n k = none := by
  obtain ⟨m, -, hn⟩ := h
  have hmodule : moduleNode file m k = none := by
    unfold moduleNode
    cases m.name <;> simp_all
  rcases hn with rfl | ⟨owner, -, rfl⟩
  · exact hmodule
  · rw [Node.put_of_ne (by simp_all)]
    exact hmodule

theorem IsModuleNode.fileRef {d : Disk} {bound : Nat} {file : Path} {n : Node}
    (h : IsModuleNode d bound file n) : n .fileRef = some file := by
  obtain ⟨m, -, hn⟩ := h
  rcases hn with rfl | ⟨owner, -, rfl⟩
  · exact moduleNode_fileRef file m
  · simpa using moduleNode_fileRef file m

theorem IsModuleNode.target {d : Disk} {bound : Nat} {file : Path} {n : Node}
    (h : IsModuleNode d bound file n) : (n .module).isSome = true := by
  obtain ⟨m, -, hn⟩ := h
  have hmodule : moduleNode file m .module = some m.target := by
    unfold moduleNode
    cases m.name <;> simp
  rcases hn with rfl | ⟨owner, -, rfl⟩
  · rw [hmodule]
    rfl
  · rw [Node.put_of_ne (by decide), hmodule]
    rfl

theorem IsModuleNode.parent_lt {d : Disk} {bound : Nat} {file : Path} {n : Node} {parent : Entity}
    (h : IsModuleNode d bound file n) (hparent : n .parent = some parent) :
    parent.index < bound := by
  obtain ⟨m, -, hn⟩ := h
  rcases hn with rfl | ⟨owner, hlt, rfl⟩
  · have hnone : moduleNode file m .parent = none := by
      unfold moduleNode
      cases m.name <;> simp
    rw [hnone] at hparent
    cases hparent
  · rw [Node.put_self] at hparent
    rwa [← Option.some.inj hparent]

theorem lacks_functionBlocks {type : Entity} {fs : List FunctionEntry} {n : Node} {k : Kind}
    (hn : n ∈ functionBlocks type base fs)
    (hk : k ∉ [Kind.identifier, .functionTag, .parameter, .parent]) : n k = none := by
  induction fs generalizing base with
  | nil => cases hn
  | cons f fs ih =>
    rcases List.mem_append.mp hn with hn | hn
    · rcases List.mem_cons.mp hn with rfl | hn
      · simp_all [functionNode]
      · obtain ⟨p, -, rfl⟩ := List.mem_map.mp hn
        simp_all [parameterNode]
    · exact ih hn

theorem lacks_typeContents {slot : Nat} {t : TypeDescription} {n : Node} {k : Kind}
    (hn : n ∈ typeContents slot t)
    (hk : k ∉ [Kind.variableTag, .identifier, .functionTag, .parameter, .parent]) : n k = none := by
  rcases List.mem_append.mp hn with hn | hn
  · obtain ⟨name, -, rfl⟩ := List.mem_map.mp hn
    simp_all [variableNode]
  · exact lacks_functionBlocks hn (List.not_mem_of_not_mem_cons hk)

theorem lacks_linkedNode (x : Path × TypeDescription) {k : Kind}
    (hk : k ∉ [Kind.fileRef, .identifier, .typeInfo, .classTag, .structTag, .libraryTag, .parent]) :
    linkedNode owner x k = none := by
  unfold linkedNode typeNode
  cases x.2.type.category <;> simp_all [tagNode]

theorem typeInfo_linkedNode (x : Path × TypeDescription) :
    linkedNode owner x .typeInfo = some x.2.type := by
  unfold linkedNode typeNode
  cases x.2.type.category <;> simp [tagNode]

theorem fileRef_linkedNode (x : Path × TypeDescription) :
    linkedNode owner x .fileRef = some x.1 := by
  unfold linkedNode typeNode
  cases x.2.type.category <;> simp [tagNode]

/-- The kind of the tag that a category is given. -/
def tagKind : TypeCategory → Kind
  | .classType => .classTag
  | .structType => .structTag
  | .functionLibrary => .libraryTag

theorem tag_linkedNode (x : Path × TypeDescription) (c : TypeCategory) :
    (linkedNode owner x (tagKind c)).isSome = decide (x.2.type.category = c) := by
  unfold linkedNode typeNode
  cases x.2.type.category <;> cases c <;> simp [tagNode, tagKind]

/-- The slots of the types of a project. -/
def projectTypes (projectFile : Path) (files : List Path) (modules : List Node)
    (types : List (Path × TypeDescription)) : List (Nat × Path × TypeDescription) :=
  typeSlots (ownerOf projectFile files) (typeStart modules) types

/-- The types that a module owns, with their slots. -/
def ownTypes (projectFile : Path) (files : List Path) (modules : List Node)
    (types : List (Path × TypeDescription)) (m : Entity) : List (Nat × Path × TypeDescription) :=
  (projectTypes projectFile files modules types).filter fun y =>
    decide (ownerOf projectFile files y.2.1 = m)

namespace Loaded

variable {d : Disk} {projectFile : Path} {files : List Path} {modules : List Node} {s : Store}
  {m : Entity}

theorem node_of_slot {y : Nat × Path × TypeDescription}
    (hy : y ∈ projectTypes projectFile files modules types) :
    (projectNodes projectFile files modules types)[y.1]? =
      some (linkedNode (ownerOf projectFile files) y.2) := by
  have hle : typeStart modules ≤ y.1 := le_of_mem_typeSlots hy
  have hlength : (primitiveNodes ++ modules).length = typeStart modules := List.length_append
  rw [projectNodes, List.getElem?_append_right (by omega), hlength]
  exact getElem?_typeBlocks hy

section

variable (h : Loaded d projectFile files modules types s)
include h

theorem owner_lt (file : Path) : (ownerOf projectFile files file).index < typeStart modules := by
  rw [typeStart, ← h.isModule.length_eq]
  exact ownerOf_lt projectFile files file

theorem isModuleNode {i : Nat} {n : Node} (hn : modules[i]? = some n) :
    ∃ file, (allModuleFiles projectFile files)[i]? = some file ∧
      IsModuleNode d (typeStart modules) file n := by
  obtain ⟨hlength, hall⟩ := List.forall₂_iff_get.mp h.isModule
  obtain ⟨hi, rfl⟩ := List.getElem?_eq_some_iff.mp hn
  exact ⟨_, List.getElem?_eq_getElem (by omega), hall i (by omega) hi⟩

/-- What the nodes of a project are. -/
theorem node_cases {n : Node} (hn : n ∈ projectNodes projectFile files modules types) :
    n ∈ primitiveNodes ∨ (∃ file, IsModuleNode d (typeStart modules) file n) ∨
      (∃ x, n = linkedNode (ownerOf projectFile files) x) ∨
      ∃ slot t, typeStart modules ≤ slot ∧ n ∈ typeContents slot t := by
  rcases List.mem_append.mp hn with hn | hn
  · rcases List.mem_append.mp hn with hn | hn
    · exact Or.inl hn
    · obtain ⟨i, hi⟩ := List.mem_iff_getElem?.mp hn
      obtain ⟨file, -, hmodule⟩ := h.isModuleNode hi
      exact Or.inr (Or.inl ⟨file, hmodule⟩)
  · exact Or.inr (Or.inr (mem_typeBlocks hn))

/-- No member is declared with anything but the built-in type. -/
theorem memberTypeName : s.memberTypeName = "bool" := by
  have hnone : s.component? .cppName = fun _ => none := by
    funext id
    refine h.shows.component?_eq_none (k := .cppName) nofun ?_ id
    intro n hn
    rcases h.node_cases hn with hn | ⟨file, hmodule⟩ | ⟨x, rfl⟩ | ⟨slot, t, -, hcontents⟩
    · exact lacks_primitiveNodes hn (by decide)
    · exact hmodule.lacks (by decide)
    · exact lacks_linkedNode x (by decide)
    · exact lacks_typeContents hcontents (by decide)
  unfold Store.memberTypeName
  rw [hnone]
  cases (s.unique? .primitives).bind (·.lookup .bool) <;> rfl

theorem module_of_has (hm : s.has .module m = .ok true) :
    ∃ i file, (allModuleFiles projectFile files)[i]? = some file ∧
      m = .first (primitiveNodes.length + i) ∧ s.modulePath m = .ok (folderOf file) := by
  obtain ⟨hvalid, hholds⟩ := (Store.has_eq_true s _ m).mp hm
  obtain ⟨j, hj, rfl⟩ := h.shows.isValid_iff.mp hvalid
  obtain ⟨n, hn⟩ : ∃ n, (projectNodes projectFile files modules types)[j]? = some n :=
    ⟨_, List.getElem?_eq_getElem hj⟩
  rw [h.shows.holds_of_node (k := .module) hn nofun] at hholds
  have hfile := h.shows.component?_of_node (k := .fileRef) hn nofun
  rw [projectNodes, List.getElem?_append, List.getElem?_append] at hn
  split at hn
  · split at hn
    · rw [lacks_primitiveNodes (List.mem_of_getElem? hn) (by decide)] at hholds
      cases hholds
    · rename_i hle
      obtain ⟨file, hfileAt, hmodule⟩ := h.isModuleNode hn
      refine ⟨_, file, hfileAt, by rw [Nat.add_sub_cancel' (by omega)], ?_⟩
      rw [Store.modulePath_run hvalid, Store.folderOf, hfile, hmodule.fileRef]
      rfl
  · rcases mem_typeBlocks (List.mem_of_getElem? hn) with ⟨x, rfl⟩ | ⟨slot, t, -, hcontents⟩
    · rw [lacks_linkedNode x (by decide)] at hholds
      cases hholds
    · rw [lacks_typeContents hcontents (by decide)] at hholds
      cases hholds

omit h in
theorem picks_projectNodes {p : Node → Bool}
    (hp : ∀ slot t, typeStart modules ≤ slot → ∀ n ∈ typeContents slot t, p n = false) :
    picks (projectNodes projectFile files modules types) p =
      picks (primitiveNodes ++ modules) p ++
        ((projectTypes projectFile files modules types).filter
          (p <| linkedNode (ownerOf projectFile files) ·.2)).map (.first ·.1) := by
  have hlength : 0 + (primitiveNodes ++ modules).length = typeStart modules := by
    rw [Nat.zero_add, List.length_append, typeStart]
  rw [projectNodes, picks, picksFrom_append, hlength, picksFrom_typeBlocks hp]
  rfl

/-- The types of a category directly under a module are those of its files, in their order. -/
theorem typesUnder (c : TypeCategory) :
    s.typesUnder (tagKind c) m =
      ((ownTypes projectFile files modules types m).filter
        (·.2.2.type.category = c)).map (.first ·.1) := by
  let p : Node → Bool := fun n =>
    decide (n .parent = some m) && ((n (tagKind c)).isSome && (n .typeInfo).isSome)
  have htag : tagKind c ≠ .children := by cases c <;> decide
  have hscan : s.typesUnder (tagKind c) m =
      picks (projectNodes projectFile files modules types) p := by
    rw [Store.typesUnder, Query.scan, List.filter_filter]
    apply h.shows.filter_entities
    intro i n hn
    have hup : s.up (.first i) = n .parent :=
      h.shows.component?_of_node (k := .parent) hn (by decide)
    simp [p, Query.holdsEach, Query.kinds, hup, h.shows.holds_of_node hn htag,
      h.shows.holds_of_node (k := .typeInfo) hn (by decide)]
  have hcontents : ∀ slot t, typeStart modules ≤ slot →
      ∀ n ∈ typeContents slot t, p n = false := by
    intro slot t _ n hn
    simp [p, lacks_typeContents (k := .typeInfo) hn (by decide)]
  have hmodules : picks (primitiveNodes ++ modules) p = [] := by
    apply picksFrom_eq_nil
    intro n hn
    have hnone : n .typeInfo = none := by
      rcases List.mem_append.mp hn with hn | hn
      · exact lacks_primitiveNodes hn (by decide)
      · obtain ⟨i, hi⟩ := List.mem_iff_getElem?.mp hn
        obtain ⟨file, -, hmodule⟩ := h.isModuleNode hi
        exact hmodule.lacks (by decide)
    simp [p, hnone]
  rw [hscan, picks_projectNodes hcontents, hmodules, List.nil_append, ownTypes, List.filter_filter]
  congr 1
  apply List.filter_congr
  intro y _
  simp [p, parent_linkedNode, tag_linkedNode, typeInfo_linkedNode, Bool.and_comm]

/-- The children of a module are modules and the types that it owns. -/
theorem childList_of_lt {j : Nat} (hj : j < typeStart modules) :
    ∃ inner : List Entity, (∀ e ∈ inner, ∃ i < typeStart modules, e = .first i) ∧
      s.childList (.first j) =
        inner ++ (ownTypes projectFile files modules types (.first j)).map (.first ·.1) := by
  let p : Node → Bool := fun n => decide (n .parent = some (.first j))
  refine ⟨picks (primitiveNodes ++ modules) p, ?_, ?_⟩
  · intro e he
    obtain ⟨i, n, hn, -, rfl⟩ := mem_picks.mp he
    have hi := (List.getElem?_eq_some_iff.mp hn).1
    rw [List.length_append] at hi
    exact ⟨i, hi, rfl⟩
  · have hcontents : ∀ slot t, typeStart modules ≤ slot →
        ∀ n ∈ typeContents slot t, p n = false := by
      intro slot t hle n hn
      apply decide_eq_false
      intro hparent
      have := (parent_of_mem_typeContents hn hparent).1
      rw [Entity.index_first] at this
      omega
    rw [h.shows.childList_eq]
    refine (picks_projectNodes hcontents).trans ?_
    congr 2
    apply List.filter_congr
    intro y _
    simp [p, parent_linkedNode]

theorem nodesUnder_slot {y : Nat × Path × TypeDescription}
    (hy : y ∈ projectTypes projectFile files modules types) :
    nodesUnder (projectNodes projectFile files modules types) (.first y.1) =
      memberNodes y.1 y.2.2 := by
  have hle : typeStart modules ≤ y.1 := le_of_mem_typeSlots hy
  have hbefore : nodesUnder (primitiveNodes ++ modules) (.first y.1) = [] := by
    apply nodesUnder_eq_nil
    intro n hn hparent
    rcases List.mem_append.mp hn with hn | hn
    · rw [lacks_primitiveNodes hn (by decide)] at hparent
      cases hparent
    · obtain ⟨i, hi⟩ := List.mem_iff_getElem?.mp hn
      obtain ⟨file, -, hmodule⟩ := h.isModuleNode hi
      have hlt := hmodule.parent_lt hparent
      rw [Entity.index_first] at hlt
      omega
  rw [projectNodes, nodesUnder_append, hbefore, List.nil_append]
  exact nodesUnder_typeBlocks hy h.owner_lt

/-- What is read off the children of a type is read off the nodes of its members and functions. -/
theorem filterMap_children {β : Type} {f : Entity → Option β} {g : Node → Option β}
    {y : Nat × Path × TypeDescription} (hy : y ∈ projectTypes projectFile files modules types)
    (hfg : ∀ i n, (projectNodes projectFile files modules types)[i]? = some n →
      n .parent = some (.first y.1) → f (.first i) = g n) :
    (s.childList (.first y.1)).filterMap f = (memberNodes y.1 y.2.2).filterMap g := by
  rw [h.shows.childList_eq, filterMap_picks fun i n hn hp => hfg i n hn (of_decide_eq_true hp)]
  exact congrArg (List.filterMap g) (h.nodesUnder_slot hy)

theorem memberNames_slot {y : Nat × Path × TypeDescription}
    (hy : y ∈ projectTypes projectFile files modules types) :
    s.memberNames (.first y.1) = y.2.2.members := by
  have hread : s.memberNames (.first y.1) = (memberNodes y.1 y.2.2).filterMap fun n =>
      if ∀ k ∈ [Kind.identifier, .variableTag], (n k).isSome = true then n .identifier else none :=
    h.filterMap_children hy fun i n hn _ => h.shows.held_of_node (by decide) (by decide) hn
  rw [hread]
  simp [memberNodes, variableNode, functionNode, List.filterMap_append, List.filterMap_map]

theorem ownerOf_child {y : Nat × Path × TypeDescription}
    (hy : y ∈ projectTypes projectFile files modules types) {child : Entity}
    (hup : s.up child = some (.first y.1)) :
    s.ownerOf child =
      if y.2.2.type.category = .classType then some y.2.2.type.name else none := by
  have hheld := h.shows.held_of_node (q := ⟨.typeInfo, [.classTag]⟩) (k := .typeInfo) (by decide)
    (by decide) (node_of_slot hy)
  have hclass : (linkedNode (ownerOf projectFile files) y.2 .classTag).isSome =
      decide (y.2.2.type.category = .classType) := tag_linkedNode y.2 .classType
  rw [Store.ownerOf, hup, Option.bind_some, hheld]
  by_cases hcategory : y.2.2.type.category = .classType
  · simp [Query.kinds, typeInfo_linkedNode, hclass, hcategory]
  · simp [Query.kinds, typeInfo_linkedNode, hclass, hcategory]

omit h in
theorem signatureText_eq (t : TypeDescription) (f : FunctionEntry) :
    Store.signatureText f.name
      (if t.type.category = .classType then some t.type.name else none) = signatureOf t f := by
  unfold signatureOf
  split <;> rfl

/-- The signatures of the functions among the children of a type. -/
theorem signatures_slot {y : Nat × Path × TypeDescription}
    (hy : y ∈ projectTypes projectFile files modules types) :
    ((s.childList (.first y.1)).filter s.isFunction).map s.signatureOf =
      y.2.2.functions.map (signatureOf y.2.2) := by
  have hread : (s.childList (.first y.1)).filterMap
      (fun id => if s.isFunction id then some (s.signatureOf id) else none) =
        (memberNodes y.1 y.2.2).filterMap fun n =>
          if ∀ k ∈ [Kind.identifier, .functionTag], (n k).isSome = true then
            some (Store.signatureText ((n .identifier).getD "")
              (if y.2.2.type.category = .classType then some y.2.2.type.name else none))
          else none := by
    apply h.filterMap_children hy
    intro i n hn hparent
    have hup : s.up (.first i) = some (.first y.1) := by
      rw [h.shows.up, hn]
      exact hparent
    have hscan := h.shows.mem_scan (q := ⟨.identifier, [.functionTag]⟩) (by decide) hn
    have hname := h.shows.component?_of_node (k := .identifier) hn nofun
    rw [Store.signatureOf, h.ownerOf_child hy hup, hname]
    exact if_congr (decide_eq_true_iff.trans hscan) rfl rfl
  rw [← List.filterMap_eq_map, List.filterMap_filter]
  refine hread.trans ?_
  simp [memberNodes, variableNode, functionNode, List.filterMap_append, List.filterMap_map,
    signatureText_eq]

/-- Nothing directly below a module is a function. -/
theorem functions_of_lt {j : Nat} (hj : j < typeStart modules) :
    (s.childList (.first j)).filter s.isFunction = [] := by
  rw [List.filter_eq_nil_iff]
  intro id hid hfunction
  rw [h.shows.childList_eq, mem_picks] at hid
  obtain ⟨i, n, hn, hparent, rfl⟩ := hid
  have hparent : n .parent = some (.first j) := of_decide_eq_true hparent
  have htagged : (n .functionTag).isSome = true :=
    (h.shows.mem_scan (q := ⟨.identifier, [.functionTag]⟩) (by decide) hn).mp
      (of_decide_eq_true hfunction) _ (by simp [Query.kinds])
  rcases h.node_cases (List.mem_of_getElem? hn) with
    hprimitive | ⟨file, hmodule⟩ | ⟨x, rfl⟩ | ⟨slot, t, hle, hcontents⟩
  · rw [lacks_primitiveNodes hprimitive (by decide)] at htagged
    cases htagged
  · rw [hmodule.lacks (by decide)] at htagged
    cases htagged
  · rw [lacks_linkedNode x (by decide)] at htagged
    cases htagged
  · have := (parent_of_mem_typeContents hcontents hparent).1
    rw [Entity.index_first] at this
    omega

/-- The functions of a module are those below the types that it owns. -/
theorem functionsUnder_of_lt {j : Nat} (hj : j < typeStart modules) :
    s.functionsUnder (.first j) =
      (ownTypes projectFile files modules types (.first j)).flatMap fun y =>
        (s.childList (.first y.1)).filter s.isFunction := by
  obtain ⟨inner, hinner, hchildren⟩ := h.childList_of_lt hj
  have hlevels : s.below Store.functionDepth [.first j] =
      s.childList (.first j) ++ (s.childList (.first j)).flatMap s.childList := by
    simp [Store.functionDepth, Store.below, Store.nextLevel]
  have hmodules : inner.flatMap (fun id => (s.childList id).filter s.isFunction) = [] := by
    rw [List.flatMap_eq_nil_iff]
    intro id hid
    obtain ⟨i, hi, rfl⟩ := hinner id hid
    exact h.functions_of_lt hi
  show (s.below Store.functionDepth [.first j]).filter s.isFunction = _
  rw [hlevels, List.filter_append, h.functions_of_lt hj, List.nil_append, hchildren,
    List.flatMap_append, List.filter_append, List.filter_flatMap, List.filter_flatMap, hmodules,
    List.nil_append, List.flatMap_map]

theorem typeText_slot {y : Nat × Path × TypeDescription}
    (hy : y ∈ projectTypes projectFile files modules types) :
    s.typeText (.first y.1) = ⟨y.2.2.type.name, y.2.2.members⟩ := by
  have htype := h.shows.component?_of_node (k := .typeInfo) (node_of_slot hy) nofun
  rw [Store.typeText, Store.nameOfType, htype, typeInfo_linkedNode, h.memberNames_slot hy]
  rfl

omit h in
/-- What the files of a module say, in the order of the slots. -/
theorem map_ownTypes (modules : List Node) (m : Entity) :
    (ownTypes projectFile files modules types m).map (·.2.2) =
      (types.filter fun x => decide (ownerOf projectFile files x.1 = m)).map Prod.snd := by
  have htypes : (projectTypes projectFile files modules types).map Prod.snd = types := map_typeSlots
  nth_rewrite 2 [← htypes]
  rw [List.filter_map, List.map_map]
  rfl

theorem headerText_of_lt {j : Nat} (hj : j < typeStart modules) :
    s.headerText (.first j) = headerOf
      ((types.filter fun x => decide (ownerOf projectFile files x.1 = .first j)).map Prod.snd) := by
  have hmem : ∀ y ∈ ownTypes projectFile files modules types (.first j),
      y ∈ projectTypes projectFile files modules types := fun y hy => (List.mem_filter.mp hy).1
  have htypes : ∀ c, (s.typesUnder (tagKind c) (.first j)).map s.typeText =
      (((ownTypes projectFile files modules types (.first j)).map (·.2.2)).filter
        (·.type.category = c)).map fun t => ⟨t.type.name, t.members⟩ := by
    intro c
    rw [h.typesUnder, List.map_map, List.filter_map, List.map_map]
    apply List.map_congr_left
    intro y hy
    exact h.typeText_slot (hmem y (List.mem_filter.mp hy).1)
  have hsignatures : (s.functionsUnder (.first j)).map s.signatureOf =
      ((ownTypes projectFile files modules types (.first j)).map (·.2.2)).flatMap fun t =>
        t.functions.map (signatureOf t) := by
    rw [h.functionsUnder_of_lt hj, List.map_flatMap, List.flatMap_map]
    exact List.flatMap_congr fun y hy => h.signatures_slot (hmem y hy)
  have hstructs : (s.typesUnder .structTag (.first j)).map s.typeText = _ := htypes .structType
  have hclasses : (s.typesUnder .classTag (.first j)).map s.typeText = _ := htypes .classType
  rw [← map_ownTypes modules, Store.headerText, Store.typesOf, List.map_append,
    hstructs, hclasses, hsignatures, ← List.map_append]
  rfl

end

end Loaded

/-- The files that a loaded module owns are the type files with its folder nearest. -/
theorem Loaded.filesOf_eq {d : Disk} {projectFile moduleFile : Path} {files : List Path}
    {modules : List Node} {s : Store} {i : Nat} (h : Loaded d projectFile files modules types s)
    (hfound : Found projectFile files)
    (hmodule : (allModuleFiles projectFile files)[i]? = some moduleFile) :
    filesOf projectFile files (folderOf moduleFile) =
      (types.filter fun x =>
        decide (ownerOf projectFile files x.1 = .first (primitiveNodes.length + i))).map
          Prod.fst := by
  rw [filesOf, ← h.isType, List.filter_map]
  congr 1
  apply List.filter_congr
  intro x hx
  have hfile : x.1 ∈ typeFiles files := h.isType ▸ List.mem_map_of_mem hx
  have hin : x.1 ∈ files := (List.mem_filter.mp hfile).1
  exact decide_eq_decide.mpr (hfound.ownerOf_eq_iff hmodule hin).symm

theorem load_of_openAt {d : Disk} {path : Path} {ast : Ast} (h : openAt d path = .ok ast) :
    d.isFile (moduleFileOf d path) = true ∧ isModuleFile (moduleFileOf d path) = true ∧
      load d (moduleFileOf d path) .empty = .ok () ast := by
  unfold openAt at h
  simp only at h
  split at h
  · rename_i hfile
    rw [Bool.and_eq_true] at hfile
    refine ⟨hfile.1, hfile.2, ?_⟩
    cases hload : load d (moduleFileOf d path) .empty with
    | ok u loaded =>
      rw [hload] at h
      rw [← Except.ok.inj h]
    | error e loaded =>
      rw [hload] at h
      cases h
  · cases h

/-- Whatever project is opened, the code of each of its modules is the text of a header that is
made from files alone: from the type files whose nearest module folder is the folder of the module,
as they are described, in the order in which they are found. The parameters in these files do not
matter, and other files do not come into it. -/
theorem header_from_files {d : Disk} {path : Path} {ast : Ast} {m : Entity} (hd : d.IsTree)
    (hopen : openAt d path = .ok ast) (hm : ast.store.has .module m = .ok true)
    (isProject : Bool) :
    ∃ files folder types,
      scan d (folderOf (moduleFileOf d path)) (moduleFileOf d path) = .ok files ∧
      ast.store.modulePath m = .ok folder ∧
      mapChecked (describeType d) (filesOf (moduleFileOf d path) files folder) = .ok types ∧
      ast.store.moduleCode m isProject =
        .ok ⟨(headerOf types).render "bool", Store.source isProject⟩ ∧
      headerOf (types.map TypeDescription.withoutParameters) = headerOf types := by
  obtain ⟨hfile, hname, hload⟩ := load_of_openAt hopen
  obtain ⟨files, modules, described, hscan, hloaded⟩ := load_outline hload
  have hfound := found_of_scan hd hfile hname hscan
  obtain ⟨i, moduleFile, hmodule, rfl, hpath⟩ := hloaded.module_of_has hm
  have hlt : primitiveNodes.length + i < typeStart modules := by
    rw [typeStart, ← hloaded.isModule.length_eq]
    exact Nat.add_lt_add_left (List.getElem?_eq_some_iff.mp hmodule).1 _
  have hvalid := ((Store.has_eq_true _ _ _).mp hm).1
  let own := described.filter fun x =>
    decide (ownerOf (moduleFileOf d path) files x.1 = .first (primitiveNodes.length + i))
  refine ⟨files, folderOf moduleFile, own.map Prod.snd, hscan, hpath, ?_, ?_,
    headerOf_withoutParameters _⟩
  · rw [hloaded.filesOf_eq hfound hmodule]
    exact mapChecked_fst fun x hx => hloaded.described x (List.mem_filter.mp hx).1
  · rw [hloaded.shows.consistent.moduleCode_run hvalid, hloaded.memberTypeName,
      hloaded.headerText_of_lt hlt]

/-- A project with a class and a struct, and in it a module with a library of functions. -/
def shelf : Disk where
  entries := [
    (["p".toList], .folder),
    (["p".toList, "A.rf".toList],
      .file "[\"Class\", null, [[\"x\"]], [[\"f\", [[\"a\", \"u8\"]]]]]".toUTF8),
    (["p".toList, "B.rf".toList], .file "[\"Struct\", \"Box\"]".toUTF8),
    (["p".toList, "Module.rift".toList], .file "".toUTF8),
    (["p".toList, "sub".toList], .folder),
    (["p".toList, "sub".toList, "C.rf".toList],
      .file "[\"FunctionLibrary\", null, [], [[\"g\"]]]".toUTF8),
    (["p".toList, "sub".toList, "Module.rift".toList], .file "".toUTF8)]

def shelfPath : Path := .ofString "p"

/-- The struct comes before the class, and the function of the inner module is left out. -/
def shelfHeader : HeaderText := ⟨[⟨"Box", []⟩, ⟨"A", ["x"]⟩], ["void A_f(A& self)"]⟩

theorem shelf_isTree : shelf.IsTree := ⟨by decide +kernel, by decide +kernel⟩

theorem header_from_files_shelf :
    shelf.IsTree ∧ ∃ ast, openAt shelf shelfPath = .ok ast ∧
      ast.store.has .module (.first primitiveNodes.length) = .ok true ∧
      ast.store.header (.first primitiveNodes.length) = .ok (shelfHeader.render "bool") ∧
      ∃ files folder types,
        scan shelf (folderOf (moduleFileOf shelf shelfPath)) (moduleFileOf shelf shelfPath) =
          .ok files ∧
        ast.store.modulePath (.first primitiveNodes.length) = .ok folder ∧
        mapChecked (describeType shelf) (filesOf (moduleFileOf shelf shelfPath) files folder) =
          .ok types ∧
        ast.store.moduleCode (.first primitiveNodes.length) true =
          .ok ⟨(headerOf types).render "bool", Store.source true⟩ ∧
        headerOf (types.map TypeDescription.withoutParameters) = headerOf types := by
  have hcheck : (match openAt shelf shelfPath with
      | .ok ast =>
        decide (ast.store.has .module (.first primitiveNodes.length) = .ok true) &&
          decide (ast.store.header (.first primitiveNodes.length) =
            .ok (shelfHeader.render "bool"))
      | .error _ => false) = true := by decide +kernel
  cases hopen : openAt shelf shelfPath with
  | error e =>
    rw [hopen] at hcheck
    cases hcheck
  | ok ast =>
    rw [hopen] at hcheck
    obtain ⟨hmodule, hheader⟩ := by simpa using hcheck
    exact ⟨shelf_isTree, ast, rfl, hmodule, hheader,
      header_from_files shelf_isTree hopen hmodule true⟩

end Project

end ModuleCompiler
