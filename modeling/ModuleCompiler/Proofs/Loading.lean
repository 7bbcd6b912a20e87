import ModuleCompiler.Project
import ModuleCompiler.Proofs.Module
import ModuleCompiler.Proofs.Outline

/-!
What a loaded project looks like. The entities of the primitive types come first, then the modules,
then each type followed by what its file says: its members, and its functions with their
parameters. Nothing but the file of a type, the place where its nodes start and the entity of its
module decides what these nodes are. Loading is a function of the files in its failures too: it ends
with the first file that is not in order, or for want of slots.
-/

namespace ModuleCompiler.Project

def primitiveNode (p : Primitive) : Node :=
  Node.put (Node.put .bare .identifier p.name) .primitive p

def primitiveNodes : List Node := Primitive.all.map primitiveNode

/-- The node of a module that is linked to nothing yet. -/
def moduleNode (file : Path) (m : ModuleDescription) : Node :=
  let n := Node.put (Node.put .bare .module m.target) .fileRef file
  match m.name with
  | some name => Node.put n .identifier name
  | none => n

def variableNode (type : Entity) (name : String) : Node :=
  Node.put (Node.put (Node.put .bare .identifier name) .variableTag ()) .parent type

def parameterNode (function : Entity) (p : ParameterEntry) : Node :=
  Node.put (Node.put (Node.put .bare .identifier p.name) .parameter p.type) .parent function

def functionNode (type : Entity) (f : FunctionEntry) : Node :=
  Node.put (Node.put (Node.put .bare .identifier f.name) .functionTag ()) .parent type

/-- A function in slot `base`, and its parameters. -/
def functionBlock (type : Entity) (base : Nat) (f : FunctionEntry) : List Node :=
  functionNode type f :: f.parameters.map (parameterNode (.first base))

def functionBlocks (type : Entity) : Nat → List FunctionEntry → List Node
  | _, [] => []
  | base, f :: fs =>
    functionBlock type base f ++
      functionBlocks type (base + (functionBlock type base f).length) fs

/-- What lies below the type in slot `base`. -/
def typeContents (base : Nat) (t : TypeDescription) : List Node :=
  t.members.map (variableNode (.first base)) ++
    functionBlocks (.first base) (base + (t.members.length + 1)) t.functions

def tagNode (n : Node) : TypeCategory → Node
  | .classType => Node.put n .classTag ()
  | .structType => Node.put n .structTag ()
  | .functionLibrary => Node.put n .libraryTag ()

/-- The node of a type that is linked to nothing yet. -/
def typeNode (file : Path) (t : TypeDescription) : Node :=
  tagNode (Node.put (Node.put (Node.put .bare .fileRef file) .identifier t.type.name) .typeInfo
    t.type) t.type.category

/-- The type of a file in slot `base`, under the module that owns the file. -/
def typeBlock (owner : Path → Entity) (base : Nat) (x : Path × TypeDescription) : List Node :=
  Node.put (typeNode x.1 x.2) .parent (owner x.1) :: typeContents base x.2

def typeBlocks (owner : Path → Entity) : Nat → List (Path × TypeDescription) → List Node
  | _, [] => []
  | base, x :: xs =>
    typeBlock owner base x ++ typeBlocks owner (base + (typeBlock owner base x).length) xs

theorem parent_of_mem_functionBlocks {type parent : Entity} {base : Nat} {fs : List FunctionEntry}
    {n : Node} (hn : n ∈ functionBlocks type base fs) (hparent : n .parent = some parent) :
    parent = type ∨
      base ≤ parent.index ∧ parent.index < base + (functionBlocks type base fs).length := by
  induction fs generalizing base with
  | nil => cases hn
  | cons f fs ih =>
    rw [functionBlocks, List.length_append]
    rcases List.mem_append.mp hn with hn | hn
    · rcases List.mem_cons.mp hn with rfl | hn
      · exact Or.inl (by simpa [functionNode] using hparent.symm)
      · obtain ⟨p, -, rfl⟩ := List.mem_map.mp hn
        have hfunction : parent = .first base := by simpa [parameterNode] using hparent.symm
        refine Or.inr ?_
        rw [hfunction, Entity.index_first, functionBlock, List.length_cons]
        omega
    · rcases ih hn with htype | hrange
      · exact Or.inl htype
      · exact Or.inr (by omega)

/-- What lies below a type names an entity of its own block. -/
theorem parent_of_mem_typeContents {parent : Entity} {base : Nat} {t : TypeDescription} {n : Node}
    (hn : n ∈ typeContents base t) (hparent : n .parent = some parent) :
    base ≤ parent.index ∧ parent.index < base + 1 + (typeContents base t).length := by
  rw [typeContents, List.length_append, List.length_map]
  rcases List.mem_append.mp hn with hn | hn
  · obtain ⟨name, -, rfl⟩ := List.mem_map.mp hn
    have htype : parent = .first base := by simpa [variableNode] using hparent.symm
    rw [htype, Entity.index_first]
    omega
  · rcases parent_of_mem_functionBlocks hn hparent with htype | hrange
    · rw [htype, Entity.index_first]
      omega
    · omega

def watch : List (Kind × Observer) := [(.typeInfo, tagCategory)]

theorem watch_ne {k : Kind} (h : k ≠ .typeInfo) : ∀ x ∈ watch, x.1 ≠ k := by
  intro x hx
  rw [List.mem_singleton.mp hx]
  exact h.symm

section Draws

variable {o rest : List Node} {n : Node} {k : Kind} {file : Path}

theorem removeAbsent_draws (hk : k.isLink = false) (hlacks : n k = none) :
    Draws watch (Ast.Action.ofStore (Edit.run (.remove k (.first o.length)))) (o ++ n :: rest) ()
      (o ++ n :: rest) := by
  refine Draws.ofStore rfl fun s hs => ?_
  have hnone : s.component? k (.first o.length) = none := by
    rw [hs.component?_last (Store.ne_link_of_isLink hk).2.symm, hlacks]
  have hremove : Store.remove k (.first o.length) s =
      .ok none (s.withoutComponent k (.first o.length)) := by
    rw [Store.remove_of_not_link hk, Store.detach_run hs.isValid_last, hnone]
  exact ⟨_, discard_run_ok hremove, hs.withoutComponent hk hs.isValid_last hnone⟩

theorem requireType_draws {t : TypeInfo} (htype : n .typeInfo = some t) :
    Draws watch (Ast.Action.ofRead (·.require .typeInfo (.first o.length))) (o ++ n :: rest) t
      (o ++ n :: rest) := by
  apply Draws.ofRead
  intro s hs
  apply Store.require_of_held hs.isValid_last
  rw [hs.component?_last (k := .typeInfo) nofun, htype]

/-- The observer of types puts one tag on an entity that has none. -/
theorem tagCategory_draws (levels : Nat) {t : TypeInfo} (htype : n .typeInfo = some t)
    (hclass : n .classTag = none) (hstruct : n .structTag = none)
    (hlibrary : n .libraryTag = none) :
    Draws watch (Ast.perform (Ast.tell levels) (tagCategory (.first o.length))) (o ++ n :: rest) ()
      (o ++ tagNode n t.category :: rest) := by
  refine (removeAbsent_draws rfl hclass).bind ?_
  refine (removeAbsent_draws rfl hstruct).bind ?_
  refine (removeAbsent_draws rfl hlibrary).bind ?_
  show Draws watch (Ast.perform (Ast.tell levels) (.reading _ _)) _ _ _
  rw [perform_reading]
  refine (requireType_draws htype).bind ?_
  cases t.category with
  | classType =>
    exact (Draws.insertTelling .classTag levels rfl (watch_ne nofun) ()).discard.bind (.pure ())
  | structType =>
    exact (Draws.insertTelling .structTag levels rfl (watch_ne nofun) ()).discard.bind (.pure ())
  | functionLibrary =>
    exact (Draws.insertTelling .libraryTag levels rfl (watch_ne nofun) ()).discard.bind (.pure ())

theorem tellType_draws (levels : Nat) {t : TypeInfo} (htype : n .typeInfo = some t)
    (hclass : n .classTag = none) (hstruct : n .structTag = none)
    (hlibrary : n .libraryTag = none) :
    Draws watch (Ast.tell (levels + 1) .typeInfo (.first o.length)) (o ++ n :: rest) ()
      (o ++ tagNode n t.category :: rest) := by
  refine Draws.congr (fun ast hast => ?_)
    ((tagCategory_draws levels htype hclass hstruct hlibrary).bind (.pure ()))
  have hobservers : ast.observersOf .typeInfo = [tagCategory] := by
    rw [Ast.observersOf, hast.observers]
    rfl
  show ((ast.observersOf .typeInfo).forM fun observer =>
    Ast.perform (Ast.tell levels) (observer (.first o.length))) ast = _
  rw [hobservers]
  rfl

theorem insertType_draws (t : TypeInfo) (hclass : n .classTag = none)
    (hstruct : n .structTag = none) (hlibrary : n .libraryTag = none) :
    Draws watch (discard (Ast.insert .typeInfo (.first o.length) t)) (o ++ n :: rest) ()
      (o ++ tagNode (Node.put n .typeInfo t) t.category :: rest) := by
  have hattach : Draws watch (Ast.Action.ofStore (Store.attach .typeInfo (.first o.length) t))
      (o ++ n :: rest) () (o ++ Node.put n .typeInfo t :: rest) := by
    exact Draws.ofStore (by simp) fun s hs =>
      ⟨_, Store.attach_run (k := .typeInfo) t hs.isValid_last,
        hs.withComponent (k := .typeInfo) rfl t⟩
  have htell : Draws watch (Ast.tell Ast.observerLevels .typeInfo (.first o.length))
      (o ++ Node.put n .typeInfo t :: rest) ()
      (o ++ tagNode (Node.put n .typeInfo t) t.category :: rest) := by
    obtain ⟨levels, hlevels⟩ := Ast.exists_observerLevels
    rw [hlevels]
    exact tellType_draws levels Node.put_self (by simpa using hclass) (by simpa using hstruct)
      (by simpa using hlibrary)
  have htagged : tagNode (Node.put n .typeInfo t) t.category .typeInfo = some t := by
    cases t.category <;> simp [tagNode]
  have hread : Draws watch (Ast.Action.ofRead (·.get? .typeInfo (.first o.length)))
      (o ++ tagNode (Node.put n .typeInfo t) t.category :: rest) (some t)
      (o ++ tagNode (Node.put n .typeInfo t) t.category :: rest) := by
    apply Draws.ofRead
    intro s hs
    rw [Store.get?_of_isValid hs.isValid_last, hs.component?_last (k := .typeInfo) nofun, htagged]
  have hkind : Draws watch (Ast.Action.ofRead fun _ => Store.checkKind .typeInfo)
      (o ++ n :: rest) () (o ++ n :: rest) := Draws.ofRead fun _ _ => rfl
  exact (hkind.bind (hattach.bind (htell.bind (hread.bind (.pure t))))).discard

theorem addModule_draws (m : ModuleDescription) :
    Draws watch (addModule file m) o (.first o.length) (o ++ [moduleNode file m]) := by
  refine Draws.create.bind ?_
  refine (Draws.insert .module rfl (watch_ne nofun) m.target).bind ?_
  refine (Draws.insert .fileRef rfl (watch_ne nofun) file).bind ?_
  unfold moduleNode
  cases m.name with
  | some name => exact (Draws.insert .identifier rfl (watch_ne nofun) name).bind (.pure _)
  | none => exact Draws.pure _

theorem addNamed_draws (name : String) (k : Kind) (hk : k.isLink = false) (htype : k ≠ .typeInfo)
    (v : k.Value) :
    Draws watch (addNamed name k v) o (.first o.length)
      (o ++ [Node.put (Node.put .bare .identifier name) k v]) := by
  refine Draws.create.bind ?_
  refine (Draws.insert .identifier rfl (watch_ne nofun) name).bind ?_
  exact (Draws.insert k hk (watch_ne htype) v).bind (.pure _)

theorem addVariable_draws {type : Nat} (htype : type < o.length) (name : String) :
    Draws watch (addVariable (.first type) name) o () (o ++ [variableNode (.first type) name]) :=
  (addNamed_draws name .variableTag rfl nofun ()).bind (Draws.addChild htype (by simp) (by simp))

theorem addParameter_draws {function : Nat} (hfunction : function < o.length)
    (p : ParameterEntry) :
    Draws watch (addParameter (.first function) p) o ()
      (o ++ [parameterNode (.first function) p]) :=
  (addNamed_draws p.name .parameter rfl nofun p.type).bind
    (Draws.addChild hfunction (by simp) (by simp))

/-- A loop that adds one node in each round, once there are `bound` of them. -/
theorem forM_draws {α : Type} {action : α → Ast.Action Unit} {node : α → Node} {bound : Nat}
    (items : List α) (hbound : bound < o.length)
    (h : ∀ a o, bound < o.length → Draws watch (action a) o () (o ++ [node a])) :
    Draws watch (items.forM action) o () (o ++ items.map node) := by
  induction items generalizing o with
  | nil =>
    rw [List.map_nil, List.append_nil]
    exact .pure ()
  | cons a items ih =>
    have hrest := ih (o := o ++ [node a]) (by rw [List.length_append]; omega)
    rw [List.append_assoc] at hrest
    exact (h a o hbound).bind hrest

theorem addFunction_draws {type : Nat} (htype : type < o.length) (f : FunctionEntry) :
    Draws watch (addFunction (.first type) f) o ()
      (o ++ functionBlock (.first type) o.length f) := by
  refine (addNamed_draws f.name .functionTag rfl nofun ()).bind ?_
  refine (Draws.addChild htype (by simp) (by simp)).bind ?_
  have hafter : o.length < (o ++ [functionNode (.first type) f]).length := by simp
  have hparameters := forM_draws f.parameters hafter fun p rest hrest => addParameter_draws hrest p
  rw [List.append_assoc] at hparameters
  exact hparameters

theorem addFunctions_draws {type : Nat} (htype : type < o.length) (fs : List FunctionEntry) :
    Draws watch (fs.forM (addFunction (.first type))) o ()
      (o ++ functionBlocks (.first type) o.length fs) := by
  induction fs generalizing o with
  | nil =>
    rw [functionBlocks, List.append_nil]
    exact .pure ()
  | cons f fs ih =>
    have hrest := ih (o := o ++ functionBlock (.first type) o.length f)
      (by rw [List.length_append]; omega)
    rw [List.append_assoc, List.length_append] at hrest
    rw [functionBlocks]
    exact (addFunction_draws htype f).bind hrest

theorem addType_draws (t : TypeDescription) :
    Draws watch (addType file t) o (.first o.length)
      (o ++ typeNode file t :: typeContents o.length t) := by
  refine Draws.create.bind ?_
  refine (Draws.insert .fileRef rfl (watch_ne nofun) file).bind ?_
  refine (Draws.insert .identifier rfl (watch_ne nofun) t.type.name).bind ?_
  refine (insertType_draws t.type (by simp) (by simp) (by simp)).bind ?_
  have hafter : o.length < (o ++ [typeNode file t]).length := by simp
  have hmembers := forM_draws t.members hafter fun name rest hrest => addVariable_draws hrest name
  have hlast : o.length <
      (o ++ [typeNode file t] ++ t.members.map (variableNode (.first o.length))).length := by simp
  have hfunctions := addFunctions_draws hlast t.functions
  have hnodes : o ++ typeNode file t :: typeContents o.length t =
      o ++ [typeNode file t] ++ t.members.map (variableNode (.first o.length)) ++
        functionBlocks (.first o.length)
          (o ++ [typeNode file t] ++ t.members.map (variableNode (.first o.length))).length
          t.functions := by
    simp [typeContents]
  rw [hnodes]
  exact hmembers.bind (hfunctions.bind (.pure _))

end Draws

section Load

variable {d : Disk} {project : Entity} {modules : List (Entity × Path)} {o o' rest : List Node}
  {files : List Path} {file : Path} {ast after : Ast}

/-- The nodes of a tree, if there are slots enough for them. -/
def fit (o : List Node) : Except OpenError (List Node) :=
  if o.length ≤ Entity.slotLimit then .ok o else .error (.refused .slotsExhausted)

theorem fit_of_le (h : o.length ≤ Entity.slotLimit) : fit o = .ok o := if_pos h

theorem fit_eq_ok (h : fit o = .ok o') : o' = o ∧ o.length ≤ Entity.slotLimit := by
  unfold fit at h
  split at h
  · exact ⟨(Except.ok.inj h).symm, by assumption⟩
  · cases h

/-- Nodes that fit, after fewer of them. -/
theorem fit_bind (h : o.length ≤ o'.length) (k : List Node → Except OpenError (List Node)) :
    (fit o >>= fun _ => fit o' >>= k) = fit o' >>= k := by
  by_cases hroom : o.length ≤ Entity.slotLimit
  · rw [fit_of_le hroom]
    rfl
  · rw [fit, if_neg hroom, fit, if_neg (by omega)]
    rfl

/-- A request to the tree answered `a` and left the nodes that are given, or failed as is given. -/
def ComesTo {α : Type} (result : EStateM.Result OpenError Ast α) (a : α) :
    Except OpenError (List Node) → Prop
  | .ok o => ∃ after, result = .ok a after ∧ after.Shows watch o
  | .error e => ∃ after, result = .error e after

/-- What loading comes to on every tree with the nodes `o`. -/
def Yields {α : Type} (action : Loading α) (o : List Node) (a : α)
    (r : Except OpenError (List Node)) : Prop :=
  ∀ ast, ast.Shows watch o → ComesTo (action ast) a r

namespace Yields

variable {α β : Type} {r : Except OpenError (List Node)}

theorem pure (a : α) : Yields (Pure.pure a) o a (.ok o) := fun ast hast => ⟨ast, rfl, hast⟩

theorem bind {action : Loading α} {next : α → Loading β} {a : α} {b : β}
    {k : List Node → Except OpenError (List Node)} (h : Yields action o a r)
    (hnext : ∀ o', r = .ok o' → Yields (next a) o' b (k o')) :
    Yields (action >>= next) o b (r >>= k) := by
  intro ast hast
  have hfirst := h ast hast
  cases r with
  | error e =>
    obtain ⟨after, hrun⟩ := hfirst
    exact ⟨after, bind_run_error hrun⟩
  | ok o' =>
    obtain ⟨after, hrun, hafter⟩ := hfirst
    show ComesTo ((action >>= next) ast) b (k o')
    rw [bind_run_ok hrun]
    exact hnext o' rfl after hafter

/-- A step that does not touch the tree, and what is done with its outcome. -/
theorem ofExcept_bind {outcome : Except OpenError α} {next : α → Loading β} {b : β}
    {k : α → Except OpenError (List Node)} (h : ∀ a, outcome = .ok a → Yields (next a) o b (k a)) :
    Yields (Loading.ofExcept outcome >>= next) o b (outcome >>= k) := by
  intro ast hast
  cases outcome with
  | error e => exact ⟨ast, rfl⟩
  | ok a => exact h a rfl ast hast

theorem ofAction {action : Ast.Action α} {a : α} (h : Draws watch action o a o') :
    Yields (Loading.ofAction action) o a (fit o') := by
  intro ast hast
  obtain ⟨hdone, hrefused⟩ := h.2 ast hast
  by_cases hroom : o'.length ≤ Entity.slotLimit
  · obtain ⟨after, hrun, hafter⟩ := hdone hroom
    rw [fit_of_le hroom]
    exact ⟨after, by simp only [Loading.ofAction, hrun], hafter⟩
  · obtain ⟨after, hrun⟩ := hrefused (by omega)
    rw [fit, if_neg hroom]
    exact ⟨after, by simp only [Loading.ofAction, hrun]⟩

end Yields

/-- The closest module is one of the modules, or the project. -/
theorem exists_closestModule {bound : Nat} (hproject : ∃ i < bound, project = .first i)
    (hmodules : ∀ x ∈ modules, ∃ i < bound, x.1 = .first i) (folder : Path) :
    ∃ i < bound, closestModule project modules folder = .first i := by
  unfold closestModule
  cases hdeepest : Store.deepest (modules.filter (folder.startsWith ·.2)) with
  | none => exact hproject
  | some x => exact hmodules x (List.mem_filter.mp (Store.deepest_eq_some hdeepest).1).1

/-- A loaded module is described by its file, and at most linked under an earlier entity. -/
def IsModuleNode (d : Disk) (bound : Nat) (file : Path) (n : Node) : Prop :=
  ∃ m, describeModule d file = .ok m ∧
    (n = moduleNode file m ∨
      ∃ owner : Entity, owner.index < bound ∧ n = Node.put (moduleNode file m) .parent owner)

theorem moduleNode_fileRef (file : Path) (m : ModuleDescription) :
    moduleNode file m .fileRef = some file := by
  unfold moduleNode
  cases m.name <;> simp

theorem parent_moduleNode (file : Path) (m : ModuleDescription) :
    moduleNode file m .parent = none := by
  unfold moduleNode
  cases m.name <;> simp

/-- A module is loaded, and then something else is done. -/
theorem loadModule_bind_yields {α : Type} {next : Entity → Loading α} {a : α}
    {k : ModuleDescription → List Node → Except OpenError (List Node)}
    (h : ∀ m, Yields (next (.first o.length)) (o ++ [moduleNode file m]) a
      (k m (o ++ [moduleNode file m]))) :
    Yields (loadModule d file >>= next) o a
      (describeModule d file >>= fun m => fit (o ++ [moduleNode file m]) >>= k m) := by
  unfold loadModule
  rw [bind_assoc]
  refine Yields.ofExcept_bind fun m _ => ?_
  refine (Yields.ofAction (addModule_draws m)).bind fun o' ho' => ?_
  rw [(fit_eq_ok ho').1]
  exact h m

/-- Modules in the slots from `base` on, with their folders. -/
def placedModules (base : Nat) (files : List Path) : List (Entity × Path) :=
  (files.zipIdx base).map fun x => (.first x.2, folderOf x.1)

theorem mem_placedModules {base : Nat} {x : Entity × Path} :
    x ∈ placedModules base files ↔
      ∃ i file, files[i]? = some file ∧ x = (.first (base + i), folderOf file) := by
  simp only [placedModules, List.mem_map, Prod.exists, List.mem_zipIdx_iff_le_and_getElem?_sub]
  constructor
  · rintro ⟨file, i, ⟨hle, hfile⟩, rfl⟩
    exact ⟨i - base, file, hfile, by rw [Nat.add_sub_cancel' hle]⟩
  · rintro ⟨i, file, hfile, rfl⟩
    exact ⟨file, base + i, ⟨Nat.le_add_right _ _, by simpa using hfile⟩, rfl⟩

/-- The nodes once modules have been loaded after those that `modules` has. -/
def outlineModules (d : Disk) (project : Entity) :
    List (Entity × Path) → List Path → List Node → Except OpenError (List Node)
  | _, [], o => .ok o
  | modules, file :: rest, o => do
    let m ← describeModule d file
    let owner := closestModule project modules (folderOf file)
    let o' ← fit (o ++ [Node.put (moduleNode file m) .parent owner])
    outlineModules d project (modules ++ [(.first o.length, folderOf file)]) rest o'

theorem loadModules_yields (hproject : ∃ i < o.length, project = .first i)
    (hmodules : ∀ x ∈ modules, ∃ i < o.length, x.1 = .first i) :
    Yields (loadModules d project modules files) o (modules ++ placedModules o.length files)
      (outlineModules d project modules files o) := by
  induction files generalizing modules o with
  | nil =>
    rw [show placedModules o.length [] = [] from rfl, List.append_nil]
    exact .pure modules
  | cons file files ih =>
    obtain ⟨p, hp, howner⟩ := exists_closestModule hproject hmodules (folderOf file)
    have hplaced : modules ++ placedModules o.length (file :: files) =
        modules ++ [(Entity.first o.length, folderOf file)] ++
          placedModules (o.length + 1) files := by
      simp [placedModules]
    have hlength : ∀ n : Node, (o ++ [n]).length = o.length + 1 := by simp
    have hstep : outlineModules d project modules (file :: files) o =
        describeModule d file >>= fun m => fit (o ++ [moduleNode file m]) >>= fun _ =>
          fit (o ++ [Node.put (moduleNode file m) .parent (.first p)]) >>=
            outlineModules d project (modules ++ [(.first o.length, folderOf file)]) files := by
      rw [outlineModules, howner]
      refine congrArg _ (funext fun m => ?_)
      rw [fit_bind (by simp)]
    rw [hplaced, hstep, loadModules, howner]
    refine loadModule_bind_yields fun m => ?_
    refine (Yields.ofAction (Draws.addChild hp (parent_moduleNode file m) (by simp))).bind
      fun o' ho' => ?_
    rw [(fit_eq_ok ho').1, ← hlength (Node.put (moduleNode file m) .parent (.first p))]
    refine ih ?_ ?_
    · obtain ⟨i, hi, hfirst⟩ := hproject
      exact ⟨i, by rw [hlength]; omega, hfirst⟩
    · intro x hx
      rw [hlength]
      rcases List.mem_append.mp hx with hx | hx
      · obtain ⟨i, hi, hfirst⟩ := hmodules x hx
        exact ⟨i, by omega, hfirst⟩
      · rw [List.mem_singleton.mp hx]
        exact ⟨o.length, by omega, rfl⟩

/-- A pass over modules that succeeds adds their nodes, each under the closest module before it. -/
theorem outlineModules_eq_ok (hproject : ∃ i < o.length, project = .first i)
    (hmodules : ∀ x ∈ modules, ∃ i < o.length, x.1 = .first i)
    (h : outlineModules d project modules files o = .ok o') :
    ∃ nodes, o' = o ++ nodes ∧
      List.Forall₂ (IsModuleNode d (o.length + files.length)) files nodes ∧
      ∀ i file n, files[i]? = some file → nodes[i]? = some n →
        n .parent = some (closestModule project
          (modules ++ (placedModules o.length files).take i) (folderOf file)) := by
  induction files generalizing modules o with
  | nil => exact ⟨[], by simpa [outlineModules] using h.symm, .nil, by simp⟩
  | cons file files ih =>
    obtain ⟨p, hp, howner⟩ := exists_closestModule hproject hmodules (folderOf file)
    rw [outlineModules, howner] at h
    obtain ⟨m, hm, h⟩ := except_bind_eq_ok h
    obtain ⟨_, hfit, h⟩ := except_bind_eq_ok h
    obtain ⟨rfl, -⟩ := fit_eq_ok hfit
    have hlength : (o ++ [Node.put (moduleNode file m) .parent (.first p)]).length =
        o.length + 1 := by simp
    obtain ⟨nodes, rfl, hnodes, hlinked⟩ := ih
      (by
        obtain ⟨i, hi, hfirst⟩ := hproject
        exact ⟨i, by omega, hfirst⟩)
      (by
        intro x hx
        rw [hlength]
        rcases List.mem_append.mp hx with hx | hx
        · obtain ⟨i, hi, hfirst⟩ := hmodules x hx
          exact ⟨i, by omega, hfirst⟩
        · rw [List.mem_singleton.mp hx]
          exact ⟨o.length, by omega, rfl⟩) h
    rw [hlength] at hnodes hlinked
    refine ⟨Node.put (moduleNode file m) .parent (.first p) :: nodes, by simp, ?_, ?_⟩
    · refine .cons ⟨m, hm, Or.inr ⟨_, ?_, rfl⟩⟩ ?_
      · rw [Entity.index_first]
        omega
      · rwa [List.length_cons, show o.length + (files.length + 1) = o.length + 1 + files.length by
          omega]
    · intro i other n hother hn
      cases i with
      | zero =>
        obtain rfl : file = other := by simpa using hother
        obtain rfl : Node.put (moduleNode file m) .parent (.first p) = n := by simpa using hn
        rw [List.take_zero, List.append_nil, howner]
        exact Node.put_self
      | succ i =>
        have hplaced : (placedModules o.length (file :: files)).take (i + 1) =
            (Entity.first o.length, folderOf file) ::
              (placedModules (o.length + 1) files).take i := by
          simp [placedModules]
        rw [hplaced, List.append_cons]
        exact hlinked i other n (by simpa using hother) (by simpa using hn)

theorem parent_typeNode (file : Path) (t : TypeDescription) : typeNode file t .parent = none := by
  unfold typeNode
  cases t.type.category <;> simp [tagNode]

theorem loadType_yields {p : Nat} (hp : p < o.length)
    (howner : closestModule project modules (folderOf file) = .first p) :
    Yields (loadType d project modules file) o ()
      (describeType d file >>= fun t =>
        fit (o ++ typeBlock (closestModule project modules <| folderOf ·) o.length (file, t))) := by
  unfold loadType
  refine Yields.ofExcept_bind fun t _ => ?_
  have hcontents : ∀ n ∈ typeContents o.length t, n .parent ≠ some (.first p) := by
    intro n hn hparent
    have := (parent_of_mem_typeContents hn hparent).1
    rw [Entity.index_first] at this
    omega
  have hblock : o ++ typeBlock (closestModule project modules <| folderOf ·) o.length (file, t) =
      o ++ Node.put (typeNode file t) .parent (.first p) :: typeContents o.length t := by
    rw [typeBlock, howner]
  have hlength : (o ++ typeNode file t :: typeContents o.length t).length ≤
      (o ++ Node.put (typeNode file t) .parent (.first p) :: typeContents o.length t).length := by
    simp
  rw [hblock, howner, ← bind_pure (fit _), ← fit_bind hlength]
  refine (Yields.ofAction (addType_draws t)).bind fun o' ho' => ?_
  rw [(fit_eq_ok ho').1, bind_pure]
  exact .ofAction (Draws.addChild hp (parent_typeNode file t) hcontents)

/-- The nodes once types have been loaded, each under the module that owns its file. -/
def outlineTypes (d : Disk) (owner : Path → Entity) :
    List Path → List Node → Except OpenError (List Node)
  | [], o => .ok o
  | file :: rest, o => do
    let t ← describeType d file
    let o' ← fit (o ++ typeBlock owner o.length (file, t))
    outlineTypes d owner rest o'

theorem loadTypes_yields
    (howner : ∀ file, ∃ i < o.length, closestModule project modules (folderOf file) = .first i) :
    Yields (files.forM (loadType d project modules)) o ()
      (outlineTypes d (closestModule project modules <| folderOf ·) files o) := by
  induction files generalizing o with
  | nil => exact .pure ()
  | cons file files ih =>
    obtain ⟨p, hp, hfirst⟩ := howner file
    rw [outlineTypes, ← bind_assoc]
    refine (loadType_yields hp hfirst).bind fun o' ho' => ih fun other => ?_
    obtain ⟨t, -, hfit⟩ := except_bind_eq_ok ho'
    obtain ⟨i, hi, hother⟩ := howner other
    refine ⟨i, ?_, hother⟩
    rw [(fit_eq_ok hfit).1, List.length_append]
    omega

theorem outlineTypes_eq_ok {owner : Path → Entity} (h : outlineTypes d owner files o = .ok o') :
    ∃ types : List (Path × TypeDescription), types.map Prod.fst = files ∧
      (∀ x ∈ types, describeType d x.1 = .ok x.2) ∧ o' = o ++ typeBlocks owner o.length types := by
  induction files generalizing o with
  | nil => exact ⟨[], rfl, by simp, by simpa [outlineTypes, typeBlocks] using h.symm⟩
  | cons file files ih =>
    rw [outlineTypes] at h
    obtain ⟨t, ht, h⟩ := except_bind_eq_ok h
    obtain ⟨_, hfit, h⟩ := except_bind_eq_ok h
    obtain ⟨rfl, -⟩ := fit_eq_ok hfit
    obtain ⟨types, hfiles, htypes, rfl⟩ := ih h
    refine ⟨(file, t) :: types, by simp [hfiles], ?_, ?_⟩
    · intro x hx
      rcases List.mem_cons.mp hx with rfl | hx
      · exact ht
      · exact htypes x hx
    · rw [typeBlocks, List.length_append, List.append_assoc]

theorem registerPrimitive_draws (p : Primitive) :
    Draws [] (Ast.registerPrimitive p) o (p, .first o.length) (o ++ [primitiveNode p]) := by
  refine Draws.create.bind ?_
  refine (Draws.insert .identifier rfl (by simp) p.name).bind ?_
  exact (Draws.insert .primitive rfl (by simp) p).bind (.pure _)

theorem registerAll_draws (ps : List Primitive) :
    Draws [] (ps.mapM Ast.registerPrimitive) o
      ((ps.zipIdx o.length).map fun x => (x.1, .first x.2)) (o ++ ps.map primitiveNode) := by
  induction ps generalizing o with
  | nil =>
    rw [List.map_nil, List.append_nil]
    exact .pure _
  | cons p ps ih =>
    have hrest := ih (o := o ++ [primitiveNode p])
    rw [List.length_append, List.append_assoc] at hrest
    rw [List.mapM_cons]
    exact (registerPrimitive_draws p).bind (hrest.bind (.pure _))

/-- Loading starts with the primitive types and with the observer of types. -/
theorem load_start :
    ∃ started, (discard (Loading.ofAction Ast.registerPrimitives) >>= fun _ =>
        Loading.ofAction (Ast.observe .typeInfo tagCategory)) .empty = .ok () started ∧
      started.Shows watch primitiveNodes := by
  have hempty : Ast.empty.Shows [] [] := ⟨rfl, Store.shows_empty⟩
  obtain ⟨registered, hrun, hregistered⟩ :=
    ((registerAll_draws (o := []) Primitive.all).2 _ hempty).1 (by decide)
  obtain ⟨kept, hkeep, hkept⟩ :=
    ((Draws.setUnique .primitives _).2 registered hregistered).1 (by decide)
  obtain ⟨ids, hregister⟩ : ∃ ids, Ast.registerPrimitives .empty = .ok ids kept := by
    unfold Ast.registerPrimitives
    rw [get_bind_run, show Ast.empty.store.unique? .primitives = none from rfl]
    exact ⟨_, (bind_run_ok hrun).trans (bind_run_ok hkeep)⟩
  have hfirst : discard (Loading.ofAction Ast.registerPrimitives) .empty = .ok () kept :=
    discard_run_ok (a := ids) (by simp only [Loading.ofAction, hregister])
  refine ⟨_, bind_run_ok hfirst, ?_, hkept.store⟩
  show kept.observers ++ _ = _
  rw [hkept.observers]
  rfl

/-- The files of the modules, that of the project first. -/
def allModuleFiles (projectFile : Path) (files : List Path) : List Path :=
  projectFile :: moduleFiles files

/-- All modules with their folders. -/
def loadedModules (projectFile : Path) (files : List Path) : List (Entity × Path) :=
  placedModules primitiveNodes.length (allModuleFiles projectFile files)

/-- The entity of the project, and with it the first slot of a module. -/
def projectEntity : Entity := .first primitiveNodes.length

/-- The module that a file belongs to. -/
def ownerOf (projectFile : Path) (files : List Path) (file : Path) : Entity :=
  closestModule projectEntity (loadedModules projectFile files) (folderOf file)

theorem exists_ownerOf (projectFile : Path) (files : List Path) (file : Path) :
    ∃ i < primitiveNodes.length + (allModuleFiles projectFile files).length,
      ownerOf projectFile files file = .first i := by
  apply exists_closestModule
  · exact ⟨primitiveNodes.length, by simp [allModuleFiles], rfl⟩
  · intro x hx
    obtain ⟨i, other, hother, rfl⟩ := mem_placedModules.mp hx
    exact ⟨_, Nat.add_lt_add_left (List.getElem?_eq_some_iff.mp hother).1 _, rfl⟩

theorem ownerOf_lt (projectFile : Path) (files : List Path) (file : Path) :
    (ownerOf projectFile files file).index <
      primitiveNodes.length + (allModuleFiles projectFile files).length := by
  obtain ⟨i, hi, howner⟩ := exists_ownerOf projectFile files file
  rw [howner]
  exact hi

/-- All nodes of a project, or why it cannot be loaded. -/
def outline (d : Disk) (projectFile : Path) : Except OpenError (List Node) := do
  let m ← describeModule d projectFile
  let opened ← fit (primitiveNodes ++ [moduleNode projectFile m])
  let files ← scan d (folderOf projectFile) projectFile
  let found ← outlineModules d projectEntity [(projectEntity, folderOf projectFile)]
    (moduleFiles files) opened
  outlineTypes d (ownerOf projectFile files) (typeFiles files) found

theorem loadedModules_eq (projectFile : Path) (files : List Path) :
    loadedModules projectFile files = [(projectEntity, folderOf projectFile)] ++
      placedModules (primitiveNodes.length + 1) (moduleFiles files) := by
  simp [loadedModules, allModuleFiles, placedModules, projectEntity]

/-- Loading does what the outline says, to the last node and to the first failure. -/
theorem load_comesTo (d : Disk) (projectFile : Path) :
    ComesTo (load d projectFile .empty) () (outline d projectFile) := by
  obtain ⟨started, hstart, hstarted⟩ := load_start
  unfold load
  rw [← bind_assoc, bind_run_ok hstart]
  have hrest : Yields (loadModule d projectFile >>= fun project =>
      Loading.ofExcept (scan d (folderOf projectFile) projectFile) >>= fun files =>
        loadModules d project [(project, folderOf projectFile)] (moduleFiles files) >>=
          fun modules => (typeFiles files).forM (loadType d project modules))
      primitiveNodes () (outline d projectFile) := by
    refine loadModule_bind_yields fun m => ?_
    have hlength : (primitiveNodes ++ [moduleNode projectFile m]).length =
        primitiveNodes.length + 1 := by simp
    have hproject : ∃ i < (primitiveNodes ++ [moduleNode projectFile m]).length,
        projectEntity = .first i := ⟨primitiveNodes.length, by omega, rfl⟩
    have hmodules : ∀ x ∈ [(projectEntity, folderOf projectFile)],
        ∃ i < (primitiveNodes ++ [moduleNode projectFile m]).length, x.1 = .first i := by
      simpa using hproject
    refine Yields.ofExcept_bind fun files _ => ?_
    refine (loadModules_yields hproject hmodules).bind fun found hfound => ?_
    obtain ⟨nodes, rfl, hnodes, -⟩ := outlineModules_eq_ok hproject hmodules hfound
    rw [hlength]
    rw [← loadedModules_eq]
    refine loadTypes_yields fun file => ?_
    obtain ⟨i, hi, howner⟩ := exists_ownerOf projectFile files file
    refine ⟨i, ?_, howner⟩
    rw [List.length_append, hlength, ← hnodes.length_eq]
    rw [allModuleFiles, List.length_cons] at hi
    omega
  exact hrest started hstarted

/-- The first slot after those of the modules. -/
def typeStart (modules : List Node) : Nat := primitiveNodes.length + modules.length

/-- All nodes of a project whose modules and types are given. -/
def projectNodes (projectFile : Path) (files : List Path) (modules : List Node)
    (types : List (Path × TypeDescription)) : List Node :=
  primitiveNodes ++ modules ++
    typeBlocks (ownerOf projectFile files) (typeStart modules) types

/-- The store of a loaded project: the nodes of its modules are `modules`, and its type files say
what `types` has. The project has no parent, and every other module has the closest one that was
loaded before it. -/
structure Loaded (d : Disk) (projectFile : Path) (files : List Path) (modules : List Node)
    (types : List (Path × TypeDescription)) (s : Store) : Prop where
  isModule : List.Forall₂ (IsModuleNode d (typeStart modules)) (allModuleFiles projectFile files)
    modules
  top : ∀ n, modules[0]? = some n → n .parent = none
  linked : ∀ i file n, (allModuleFiles projectFile files)[i + 1]? = some file →
    modules[i + 1]? = some n → n .parent = some
      (closestModule projectEntity ((loadedModules projectFile files).take (i + 1)) (folderOf file))
  isType : types.map Prod.fst = typeFiles files
  described : ∀ x ∈ types, describeType d x.1 = .ok x.2
  shows : s.Shows (projectNodes projectFile files modules types)

theorem outline_eq_ok {projectFile : Path} (h : outline d projectFile = .ok o) {s : Store}
    (hs : s.Shows o) :
    ∃ files modules types, scan d (folderOf projectFile) projectFile = .ok files ∧
      Loaded d projectFile files modules types s := by
  obtain ⟨m, hm, h⟩ := except_bind_eq_ok h
  obtain ⟨_, hfit, h⟩ := except_bind_eq_ok h
  obtain ⟨rfl, -⟩ := fit_eq_ok hfit
  obtain ⟨files, hfiles, h⟩ := except_bind_eq_ok h
  obtain ⟨_, hfound, h⟩ := except_bind_eq_ok h
  have hlength : (primitiveNodes ++ [moduleNode projectFile m]).length =
      primitiveNodes.length + 1 := by simp
  have hproject : ∃ i < (primitiveNodes ++ [moduleNode projectFile m]).length,
      projectEntity = .first i := ⟨primitiveNodes.length, by omega, rfl⟩
  obtain ⟨nodes, rfl, hnodes, hlinked⟩ :=
    outlineModules_eq_ok hproject (by simpa using hproject) hfound
  obtain ⟨types, hfile, hdescribed, rfl⟩ := outlineTypes_eq_ok h
  rw [hlength] at hnodes hlinked
  have hstart : primitiveNodes.length + 1 + (moduleFiles files).length =
      typeStart (moduleNode projectFile m :: nodes) := by
    rw [typeStart, List.length_cons, ← hnodes.length_eq]
    omega
  rw [List.append_assoc primitiveNodes, List.singleton_append, List.length_append] at hs
  refine ⟨files, moduleNode projectFile m :: nodes, types, hfiles,
    .cons ⟨m, hm, Or.inl rfl⟩ (hstart ▸ hnodes), ?_, ?_, hfile, hdescribed, hs⟩
  · intro n hn
    rw [← Option.some.inj hn]
    exact parent_moduleNode projectFile m
  · intro i file n hfile hn
    rw [loadedModules_eq, List.singleton_append, List.take_succ_cons]
    exact hlinked i file n hfile hn

theorem load_outline {projectFile : Path} {u : Unit}
    (hrun : load d projectFile .empty = .ok u after) :
    ∃ files modules types, scan d (folderOf projectFile) projectFile = .ok files ∧
      Loaded d projectFile files modules types after.store := by
  have hcomes := load_comesTo d projectFile
  rw [hrun] at hcomes
  cases houtline : outline d projectFile with
  | error e =>
    rw [houtline] at hcomes
    obtain ⟨_, hfailed⟩ := hcomes
    cases hfailed
  | ok o =>
    rw [houtline] at hcomes
    obtain ⟨_, hdone, hafter⟩ := hcomes
    obtain ⟨-, rfl⟩ := EStateM.Result.ok.inj hdone
    exact outline_eq_ok houtline hafter.store

end Load

end ModuleCompiler.Project
