import ModuleCompiler.Proofs.Generate
import ModuleCompiler.Proofs.Module

/-!
What is generated against how the program came about. Two stores are alike if the same entities are
alive and hold the same components; the order in which their tables keep the values, the slots that
are free and the tables that stand empty may differ. Everything generation asks for comes down to a
few questions, and alike stores answer these in the same way.
-/

namespace ModuleCompiler

namespace Store

/-- The same living entities with the same components, and the same entities of the primitive
types. -/
structure Alike (s t : Store) : Prop where
  entities : s.entities = t.entities
  components : ∀ id ∈ s.entities, ∀ k, s.component? k id = t.component? k id
  primitives : s.unique? .primitives = t.unique? .primitives

/-- The questions that all reading is made of are answered in the same way, refusals included. -/
structure ReadsAlike (s t : Store) : Prop where
  isValid : s.isValid = t.isValid
  get? : s.get? = t.get?
  ids : ∀ q : Query, q.ids s = q.ids t
  has : s.has = t.has
  findAncestor : s.findAncestor = t.findAncestor
  primitives : s.unique? .primitives = t.unique? .primitives

variable {s t : Store}

namespace Alike

theorem isValid_eq (h : Alike s t) : s.isValid = t.isValid := by
  funext id
  rw [Bool.eq_iff_iff, ← mem_entities, ← mem_entities, h.entities]

theorem get?_eq (h : Alike s t) : s.get? = t.get? := by
  funext k id
  by_cases hs : s.isValid id
  · have ht : t.isValid id := h.isValid_eq ▸ hs
    rw [get?_of_isValid hs, get?_of_isValid ht, h.components id (mem_entities.mpr hs) k]
  · have ht : ¬ t.isValid id := h.isValid_eq ▸ hs
    rw [get?_of_not_isValid hs, get?_of_not_isValid ht]

/-- An ended entity has left all tables, so nothing of it is to be found in either store. -/
theorem component?_eq (h : Alike s t) (hs : s.Sound) (ht : t.Sound) (k : Kind) (id : Entity) :
    s.component? k id = t.component? k id := by
  by_cases hid : s.isValid id
  · exact h.components id (mem_entities.mpr hid) k
  · have hid' : ¬ t.isValid id := h.isValid_eq ▸ hid
    rw [hs.component?_of_not_isValid k hid, ht.component?_of_not_isValid k hid']

theorem holds_eq (h : Alike s t) (hs : s.Sound) (ht : t.Sound) (k : Kind) (id : Entity) :
    s.holds k id = t.holds k id := by
  rw [hs.holds_eq, ht.holds_eq, h.component?_eq hs ht]

/-- The tables may keep their values in any order: a query is answered by slot. -/
theorem ids_eq (h : Alike s t) (hs : s.Sound) (ht : t.Sound) (q : Query) : q.ids s = q.ids t := by
  have hscan : q.scan s = q.scan t := by
    unfold Query.scan
    rw [h.entities]
    apply List.filter_congr
    intro id _
    simp only [Query.holdsEach, h.holds_eq hs ht]
  rw [Query.ids_run hs, Query.ids_run ht, hscan]

end Alike

/-- A way up has one end. -/
theorem Ascent.unique {test : Entity → Except Fault Bool} {id : Entity}
    {a b : Except Fault (Option Entity)} (ha : Ascent s test id a) (hb : Ascent s test id b) :
    a = b := by
  induction ha with
  | refused h => cases hb <;> simp_all
  | top h => cases hb <;> simp_all
  | untested h htest => cases hb <;> simp_all
  | found h htest => cases hb <;> simp_all
  | further h htest _ ih =>
    cases hb with
    | further h' htest' hrest =>
      rw [h] at h'
      obtain rfl := Option.some.inj (Except.ok.inj h')
      exact ih hrest
    | _ => simp_all

theorem Ascent.transfer {test : Entity → Except Fault Bool} {id : Entity}
    {answer : Except Fault (Option Entity)} (hparent : s.parent? = t.parent?)
    (h : Ascent s test id answer) : Ascent t test id answer := by
  induction h with
  | refused h => exact .refused (hparent ▸ h)
  | top h => exact .top (hparent ▸ h)
  | untested h htest => exact .untested (hparent ▸ h) htest
  | found h htest => exact .found (hparent ▸ h) htest
  | further h htest _ ih => exact .further (hparent ▸ h) htest ih

/-- The bound on the way up is taken from the slots, of which alike stores may have different
numbers; neither bound is ever met. -/
theorem Alike.readsAlike (h : Alike s t) (hs : s.Linked) (ht : t.Linked) : ReadsAlike s t where
  isValid := h.isValid_eq
  get? := h.get?_eq
  ids := h.ids_eq hs.sound ht.sound
  has := by
    funext k id
    rw [hs.sound.has_eq, ht.sound.has_eq, h.isValid_eq, h.component?_eq hs.sound ht.sound]
  findAncestor := by
    funext id test
    have hparent : s.parent? = t.parent? := by
      funext id
      rw [parent?, parent?, h.get?_eq]
    have hascent := (hs.ascent_findAncestor id test).transfer hparent
    exact hascent.unique (ht.ascent_findAncestor id test)
  primitives := h.primitives

namespace ReadsAlike

variable (h : ReadsAlike s t)
include h

theorem queryHas_eq (q : Query) : q.has s = q.has t := by
  funext id
  simp only [Query.has, Query.holdsAll, h.isValid, h.has]

theorem queryGet?_eq (q : Query) : q.get? s = q.get? t := by
  funext k id
  simp only [Query.get?, h.queryHas_eq, h.get?]

theorem parent?_eq : s.parent? = t.parent? := by
  funext id
  rw [parent?, parent?, h.get?]

theorem children_eq : s.children = t.children := by
  funext id
  rw [children, children, h.get?]

theorem require_eq : s.require = t.require := by
  funext k id
  rw [require, require, h.get?]

theorem childrenOfAll_eq : s.childrenOfAll = t.childrenOfAll := by
  funext level
  induction level with
  | nil => rfl
  | cons id rest ih => rw [childrenOfAll, childrenOfAll, h.children_eq, ih]

theorem levelsBelow_eq (levels : Nat) : s.levelsBelow levels = t.levelsBelow levels := by
  induction levels with
  | zero => rfl
  | succ levels ih =>
    funext level
    cases level with
    | nil => rfl
    | cons id rest => rw [levelsBelow, levelsBelow, h.childrenOfAll_eq, ih]

theorem modules_eq : s.modules = t.modules := h.ids _

theorem modulePath_eq : s.modulePath = t.modulePath := by
  funext id
  rw [modulePath, modulePath, h.get?]

theorem moduleName_eq : s.moduleName = t.moduleName := by
  funext id
  rw [moduleName, moduleName, h.get?, h.modulePath_eq]

theorem enclosingModule_eq : s.enclosingModule = t.enclosingModule := by
  funext id
  simp only [enclosingModule, moduleByFolder, h.findAncestor, h.has, h.modulePath_eq,
    h.modules_eq]

theorem projectModule_eq : s.projectModule = t.projectModule := by
  simp only [projectModule, rootModules, h.modules_eq, h.enclosingModule_eq]

theorem memberType_eq : s.memberType = t.memberType := by
  rw [memberType, memberType, h.primitives, h.isValid, h.get?]

theorem declareTypes_eq (w : Writer) (ids : List Entity) :
    s.declareTypes w ids = t.declareTypes w ids := by
  have hone : s.declareType = t.declareType := by
    funext w id
    have hmember : s.variableName? = t.variableName? := by
      funext id
      rw [variableName?, variableName?, h.queryGet?_eq]
    simp only [declareType, typeName, hmember, h.memberType_eq, h.require_eq, h.children_eq]
  induction ids generalizing w with
  | nil => rfl
  | cons id rest ih => simp only [declareTypes, hone, ih]

theorem moduleTypes_eq : s.moduleTypes = t.moduleTypes := by
  funext tag module
  rw [moduleTypes, moduleTypes, h.ids, h.parent?_eq]

theorem moduleFunctions_eq : s.moduleFunctions = t.moduleFunctions := by
  funext module
  simp only [moduleFunctions, descendants, Query.retain, h.levelsBelow_eq, h.queryHas_eq]

theorem signature_eq : s.signature = t.signature := by
  funext function
  simp only [signature, ownerName?, h.parent?_eq, h.queryGet?_eq, h.require_eq]

theorem moduleCode_eq : s.moduleCode = t.moduleCode := by
  funext module isProject
  have hname : s.typeName = t.typeName := by
    funext id
    rw [typeName, typeName, h.require_eq]
  simp only [moduleCode, header, hname, h.moduleTypes_eq, h.declareTypes_eq, h.moduleFunctions_eq,
    h.signature_eq]

end ReadsAlike

end Store

/-- From related states a request gives the same answer and leaves related states. -/
def Mirrored {ε σ α : Type} (R : σ → σ → Prop) (action : EStateM ε σ α) : Prop :=
  ∀ s t, R s t → reply (action s) = reply (action t) ∧ R (left (action s)) (left (action t))

namespace Mirrored

variable {ε σ α β : Type} {R : σ → σ → Prop}

theorem pure (a : α) : Mirrored R (Pure.pure a : EStateM ε σ α) := fun _ _ h => ⟨rfl, h⟩

theorem bind {action : EStateM ε σ α} {next : α → EStateM ε σ β} (h : Mirrored R action)
    (hnext : ∀ a, Mirrored R (next a)) : Mirrored R (action >>= next) := by
  intro s t hst
  obtain ⟨hreply, hleft⟩ := h s t hst
  rw [bind_run, bind_run]
  cases hs : action s with
  | ok a s' =>
    cases ht : action t with
    | ok b t' =>
      rw [hs, ht] at hreply hleft
      obtain rfl := Except.ok.inj hreply
      exact hnext a s' t' hleft
    | error e t' =>
      rw [hs, ht] at hreply
      cases hreply
  | error e s' =>
    cases ht : action t with
    | ok b t' =>
      rw [hs, ht] at hreply
      cases hreply
    | error e' t' =>
      rw [hs, ht] at hreply hleft
      exact ⟨congrArg Except.error (Except.error.inj hreply), hleft⟩

theorem discard {action : EStateM ε σ α} (h : Mirrored R action) :
    Mirrored R (Functor.discard action) := h.bind fun _ => pure ()

theorem get_bind {next : σ → EStateM ε σ β} (h : ∀ s, Mirrored R (next s))
    (hnext : ∀ s t, R s t → next s = next t) : Mirrored R (MonadState.get >>= next) := by
  intro s t hst
  rw [get_bind_run, get_bind_run, hnext s t hst]
  exact h t s t hst

theorem forM {items : List α} {action : α → EStateM ε σ PUnit}
    (h : ∀ a, Mirrored R (action a)) : Mirrored R (items.forM action) := by
  induction items with
  | nil => exact pure _
  | cons a rest ih => exact (h a).bind fun _ => ih

end Mirrored

namespace Ast

/-- Trees with alike stores, in which nobody observes the spellings. -/
structure Alike (a b : Ast) : Prop where
  store : Store.Alike a.store b.store
  linked : a.store.Linked ∧ b.store.Linked
  cppName : a.observersOf .cppName = [] ∧ b.observersOf .cppName = []
  cppFragment : a.observersOf .cppFragment = [] ∧ b.observersOf .cppFragment = []

variable {a b : Ast} {k : Kind} {id : Entity}

theorem Alike.reads (h : Alike a b) : Store.ReadsAlike a.store b.store :=
  h.store.readsAlike h.linked.1 h.linked.2

theorem mirrored_ofRead {α : Type} {f : Store → Except Fault α}
    (hf : ∀ s t, Store.ReadsAlike s t → f s = f t) : Mirrored Alike (Action.ofRead f) := by
  intro a b h
  rw [Action.ofRead_run, Action.ofRead_run, hf _ _ h.reads]
  cases f b.store with
  | ok v => exact ⟨rfl, h⟩
  | error e => exact ⟨rfl, h⟩

theorem discard_insert_of_not_isValid (hk : k.isLink = false) (hid : ¬ a.store.isValid id)
    (v : k.Value) : discard (Ast.insert k id v) a = .error (.stale id) a := by
  have hattach : Action.ofStore (Store.attach k id v) a = .error (.stale id) a :=
    Action.ofStore_error (Store.attach_run_stale v hid)
  have hrun : Ast.insert k id v a = .error (.stale id) a := by
    unfold Ast.insert insertTelling
    rw [bind_run_ok (Action.ofRead_ok (Store.checkKind_of_not_link hk)), bind_run_error hattach]
  rw [discard_run, hrun]

/-- Alike stores stay alike when both get the same component. -/
theorem mirrored_spell (hk : k.isLink = false)
    (hobs : ∀ a b, Alike a b → a.observersOf k = [] ∧ b.observersOf k = []) (id : Entity)
    (v : k.Value) : Mirrored Alike (discard (Ast.insert k id v)) := by
  intro a b h
  obtain ⟨ha, hb⟩ := h.linked
  obtain ⟨hobsa, hobsb⟩ := hobs a b h
  by_cases hid : a.store.isValid id
  · have hid' : b.store.isValid id := h.reads.isValid ▸ hid
    have hruna : discard (Ast.insert k id v) a = _ :=
      discard_run_ok (insertTelling_of_unobserved _ ha.sound hk hobsa hid v)
    have hrunb : discard (Ast.insert k id v) b = _ :=
      discard_run_ok (insertTelling_of_unobserved _ hb.sound hk hobsb hid' v)
    rw [hruna, hrunb]
    have hattach := Store.stable_linked.attach k id v hk
    refine ⟨rfl, ⟨h.store.entities, ?_, h.store.primitives⟩,
      ⟨hattach.ok ha (Store.attach_run v hid), hattach.ok hb (Store.attach_run v hid')⟩,
      h.cppName, h.cppFragment⟩
    intro x _ j
    have hsame := h.store.component?_eq ha.sound hb.sound
    by_cases hj : j = k
    · subst hj
      show (a.store.withComponent j id v).component? j x =
        (b.store.withComponent j id v).component? j x
      rw [ha.sound.component?_withComponent hid, hb.sound.component?_withComponent hid',
        funext (hsame j)]
    · show (a.store.withComponent k id v).component? j x =
        (b.store.withComponent k id v).component? j x
      rw [Store.component?_withComponent_of_ne hj, Store.component?_withComponent_of_ne hj, hsame]
  · have hid' : ¬ b.store.isValid id := h.reads.isValid ▸ hid
    rw [discard_insert_of_not_isValid hk hid, discard_insert_of_not_isValid hk hid']
    exact ⟨rfl, h⟩

theorem mirrored_spellPrimitives : Mirrored Alike spellPrimitives := by
  refine (mirrored_ofRead fun s t h => h.ids _).bind fun ids => Mirrored.forM fun id => ?_
  refine (mirrored_ofRead fun s t h => by rw [h.require_eq]).bind fun p => ?_
  exact mirrored_spell rfl (fun a b h => h.cppName) id _

theorem mirrored_spellParameters : Mirrored Alike spellParameters := by
  refine (mirrored_ofRead fun s t h => h.ids _).bind fun ids => Mirrored.forM fun id => ?_
  refine (mirrored_ofRead fun s t h => by rw [h.require_eq]).bind fun typeName => ?_
  refine (mirrored_ofRead fun s t h => by rw [h.require_eq]).bind fun name => ?_
  exact mirrored_spell rfl (fun a b h => h.cppFragment) id _

end Ast

namespace Workspace

/-- Workspaces with the same files and the same compilation, and with related trees. -/
structure Twin (R : Ast → Ast → Prop) (w v : Workspace) : Prop where
  disk : w.disk = v.disk
  compilation : w.compilation = v.compilation
  ast : R w.ast v.ast

variable {R : Ast → Ast → Prop}

theorem mirrored_ofAst {α : Type} {action : Ast.Action α} (h : Mirrored R action) :
    Mirrored (Twin R) (Action.ofAst action) := by
  intro w v hwv
  obtain ⟨hreply, hleft⟩ := h w.ast v.ast hwv.ast
  unfold Action.ofAst
  cases hw : action w.ast <;> cases hv : action v.ast <;> rw [hw, hv] at hreply hleft
  · exact ⟨hreply, hwv.disk, hwv.compilation, hleft⟩
  · cases hreply
  · cases hreply
  · exact ⟨hreply, hwv.disk, hwv.compilation, hleft⟩

theorem mirrored_report (d : Diagnostic) : Mirrored (Twin R) (report d) := by
  intro w v h
  exact ⟨rfl, h.disk, congrArg (·.report d) h.compilation, h.ast⟩

theorem mirrored_save (file : Path) (text : String) (reason : Path → OsError → Diagnostic) :
    Mirrored (Twin R) (save file text reason) := by
  apply Mirrored.discard
  intro w v h
  unfold attempt
  rw [h.disk]
  cases Disk.saveText file text v.disk with
  | ok _ disk => exact ⟨rfl, rfl, h.compilation, h.ast⟩
  | error e disk =>
    exact ⟨rfl, rfl, congrArg (Compilation.report · (reason file e)) h.compilation, h.ast⟩

section Generation

variable (hR : ∀ a b, R a b → Store.ReadsAlike a.store b.store)
include hR

theorem mirrored_ofRead {α : Type} {f : Store → Except Fault α}
    (hf : ∀ s t, Store.ReadsAlike s t → f s = f t) : Mirrored (Twin R) (Action.ofRead f) := by
  intro w v h
  unfold Action.ofRead
  rw [hf _ _ (hR _ _ h.ast)]
  cases f v.ast.store with
  | ok a => exact ⟨rfl, h⟩
  | error e => exact ⟨rfl, h⟩

theorem mirrored_generateModuleCode (codeFolder : Path) (module : Entity) (isProject : Bool) :
    Mirrored (Twin R) (generateModuleCode codeFolder module isProject) := by
  refine (mirrored_ofRead hR fun s t h => by rw [h.moduleName_eq]).bind fun name => ?_
  refine (mirrored_ofRead hR fun s t h => by rw [h.moduleCode_eq]).bind fun code => ?_
  exact (mirrored_save _ _ _).bind fun _ => mirrored_save _ _ _

/-- The texts of the descriptors are not answered but written, so the files are what is the
same. -/
theorem mirrored_generateDescriptors : Mirrored (Twin R) generateDescriptors := by
  refine (mirrored_ofRead hR fun s t h => h.projectModule_eq).bind fun project => ?_
  cases project with
  | none => exact mirrored_report _
  | some project =>
    refine (mirrored_ofRead hR fun s t h => h.modules_eq).bind fun ids => ?_
    refine (mirrored_ofRead hR fun s t h => by rw [h.moduleName_eq]).bind fun modules => ?_
    dsimp only
    split
    · refine Mirrored.get_bind (fun w => ?_) fun w v h => by rw [h.compilation]
      refine (mirrored_ofRead hR fun s t h => by rw [h.moduleName_eq]).bind fun name => ?_
      refine (mirrored_save _ _ _).bind fun _ => Mirrored.forM fun ⟨id, name⟩ => ?_
      refine (mirrored_ofRead hR fun s t h => by rw [h.require_eq]).bind fun target => ?_
      refine (mirrored_ofRead hR fun s t h => rfl).bind fun text => ?_
      exact mirrored_save _ _ _
    · exact Mirrored.forM mirrored_report

end Generation

theorem mirrored_generateCode : Mirrored (Twin Ast.Alike) generateCode := by
  have hR : ∀ a b, Ast.Alike a b → Store.ReadsAlike a.store b.store := fun a b h => h.reads
  refine (mirrored_ofAst Ast.mirrored_spellPrimitives).bind fun _ => ?_
  refine (mirrored_ofAst Ast.mirrored_spellParameters).bind fun _ => ?_
  refine Mirrored.get_bind (fun w => ?_) fun w v h => by rw [h.compilation]
  refine (mirrored_ofRead hR fun s t h => h.projectModule_eq).bind fun project => ?_
  refine (mirrored_ofRead hR fun s t h => h.modules_eq).bind fun modules => ?_
  exact Mirrored.forM fun id => mirrored_generateModuleCode hR _ _ _

/-- Two runs, refused requests included, that leave alike stores leave the same program: its
modules, its project, the names and the code of the modules are the same, and so are the answers,
the files and the reports of writing the descriptors. Where nobody observes the spellings, so are
those of writing the code and the descriptors. -/
theorem generation_blind_to_history (first second : List Request)
    (h : Store.Alike (Ast.reached first).store (Ast.reached second).store) :
    (Ast.reached first).store.modules = (Ast.reached second).store.modules ∧
    (Ast.reached first).store.projectModule = (Ast.reached second).store.projectModule ∧
    (∀ id, (Ast.reached first).store.moduleName id = (Ast.reached second).store.moduleName id) ∧
    (∀ id isProject, (Ast.reached first).store.moduleCode id isProject =
      (Ast.reached second).store.moduleCode id isProject) ∧
    ∀ disk compilation,
      (let one := generateDescriptors ⟨Ast.reached first, disk, compilation⟩
       let other := generateDescriptors ⟨Ast.reached second, disk, compilation⟩
       reply one = reply other ∧ (left one).disk = (left other).disk ∧
         (left one).compilation = (left other).compilation) ∧
      ((∀ k ∈ [Kind.cppName, .cppFragment], (Ast.reached first).observersOf k = [] ∧
          (Ast.reached second).observersOf k = []) →
        let one := (do generateCode; generateDescriptors) ⟨Ast.reached first, disk, compilation⟩
        let other := (do generateCode; generateDescriptors) ⟨Ast.reached second, disk, compilation⟩
        reply one = reply other ∧ (left one).disk = (left other).disk ∧
          (left one).compilation = (left other).compilation) := by
  have hlinked := Store.linked_reached first
  have hlinked' := Store.linked_reached second
  have hreads := h.readsAlike hlinked hlinked'
  refine ⟨hreads.modules_eq, hreads.projectModule_eq, congrFun hreads.moduleName_eq, ?_, ?_⟩
  · intro id isProject
    rw [hreads.moduleCode_eq]
  · intro disk compilation
    refine ⟨?_, ?_⟩
    · have htwin : Twin (fun a b => Store.ReadsAlike a.store b.store)
          ⟨Ast.reached first, disk, compilation⟩ ⟨Ast.reached second, disk, compilation⟩ :=
        ⟨rfl, rfl, hreads⟩
      obtain ⟨hreply, hleft⟩ := mirrored_generateDescriptors (fun _ _ hab => hab) _ _ htwin
      exact ⟨hreply, hleft.disk, hleft.compilation⟩
    · intro hobs
      have htwin : Twin Ast.Alike ⟨Ast.reached first, disk, compilation⟩
          ⟨Ast.reached second, disk, compilation⟩ :=
        ⟨rfl, rfl, h, ⟨hlinked, hlinked'⟩, hobs _ (by simp), hobs _ (by simp)⟩
      have hboth := mirrored_generateCode.bind fun _ =>
        mirrored_generateDescriptors (fun _ _ hab => Ast.Alike.reads hab)
      obtain ⟨hreply, hleft⟩ := hboth _ _ htwin
      exact ⟨hreply, hleft.disk, hleft.compilation⟩

/-- A module with two structs, of which the second has a member, made in one go. -/
def straightRun : List Request :=
  [.create, .create, .create, .create, .insert .module ⟨0, 0⟩ .executable,
    .insert .identifier ⟨0, 0⟩ "App", .insert .typeInfo ⟨1, 0⟩ ⟨"Point", .structType⟩,
    .insert .structTag ⟨1, 0⟩ (), .insert .typeInfo ⟨2, 0⟩ ⟨"Player", .structType⟩,
    .insert .structTag ⟨2, 0⟩ (), .insert .identifier ⟨3, 0⟩ "speed",
    .insert .variableTag ⟨3, 0⟩ (), .addChild ⟨0, 0⟩ ⟨1, 0⟩, .addChild ⟨0, 0⟩ ⟨2, 0⟩,
    .addChild ⟨2, 0⟩ ⟨3, 0⟩]

/-- The same program made with detours: in another order, with a name that is replaced, a tag that
is taken off and put on again, a child that moves, and an entity that ends. -/
def windingRun : List Request :=
  [.create, .create, .create, .create, .create, .insert .functionTag ⟨4, 0⟩ (),
    .insert .identifier ⟨3, 0⟩ "size", .insert .identifier ⟨0, 0⟩ "App",
    .insert .variableTag ⟨3, 0⟩ (), .insert .structTag ⟨1, 0⟩ (), .insert .structTag ⟨2, 0⟩ (),
    .edit (.remove .structTag ⟨1, 0⟩), .insert .typeInfo ⟨2, 0⟩ ⟨"Player", .structType⟩,
    .insert .structTag ⟨1, 0⟩ (), .insert .typeInfo ⟨1, 0⟩ ⟨"Point", .structType⟩,
    .addChild ⟨0, 0⟩ ⟨3, 0⟩, .addChild ⟨0, 0⟩ ⟨1, 0⟩, .edit (.destroy ⟨4, 0⟩),
    .edit (.transferChildren [⟨3, 0⟩] ⟨2, 0⟩), .insert .module ⟨0, 0⟩ .executable,
    .addChild ⟨0, 0⟩ ⟨2, 0⟩, .insert .identifier ⟨3, 0⟩ "speed"]

theorem alike_winding :
    Store.Alike (Ast.reached straightRun).store (Ast.reached windingRun).store := by
  refine ⟨by decide +kernel, ?_, by decide +kernel⟩
  intro id hid k
  have hids : (Ast.reached straightRun).store.entities =
      [⟨0, 0⟩, ⟨1, 0⟩, ⟨2, 0⟩, ⟨3, 0⟩] := by decide +kernel
  rw [hids] at hid
  revert id
  cases k <;> decide +kernel

theorem generation_blind_to_history_winding :
    ((Ast.reached straightRun).store.table? .structTag).map Table.ids = some [⟨1, 0⟩, ⟨2, 0⟩] ∧
    ((Ast.reached windingRun).store.table? .structTag).map Table.ids = some [⟨2, 0⟩, ⟨1, 0⟩] ∧
    (Ast.reached straightRun).store.slots.length < (Ast.reached windingRun).store.slots.length ∧
    (Ast.reached straightRun).store.moduleCode ⟨0, 0⟩ true =
      (Ast.reached windingRun).store.moduleCode ⟨0, 0⟩ true ∧
    (left ((do generateCode; generateDescriptors)
        ⟨Ast.reached straightRun, .empty, .new (.ofProject (.ofString "P"))⟩)).disk =
      (left ((do generateCode; generateDescriptors)
        ⟨Ast.reached windingRun, .empty, .new (.ofProject (.ofString "P"))⟩)).disk := by
  obtain ⟨-, -, -, hcode, hfiles⟩ :=
    generation_blind_to_history straightRun windingRun alike_winding
  refine ⟨by decide +kernel, by decide +kernel, by decide +kernel, hcode _ _, ?_⟩
  refine ((hfiles _ _).2 ?_).2.1
  decide +kernel

end Workspace

end ModuleCompiler
