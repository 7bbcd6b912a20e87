import ModuleCompiler.Generate
import ModuleCompiler.Proofs.Header
import ModuleCompiler.Proofs.Module
import ModuleCompiler.Proofs.Operation

/-!
What the generation of files works on and what it does to the tree. It starts from a tree whose
links agree and in which nobody observes the spellings, and it leaves such a tree: it attaches
nothing but spellings, to entities that are found before the first is attached.
-/

namespace ModuleCompiler

/-- The store with a component put on each of some entities. -/
def Store.withComponents (s : Store) (k : Kind) (value : Entity → k.Value) (ids : List Entity) :
    Store :=
  ids.foldl (fun s id => s.withComponent k id (value id)) s

/-- The spelling of an entity that is a primitive type. -/
def Store.primitiveSpelling? (s : Store) (id : Entity) : Option String :=
  (s.component? .primitive id).map Primitive.cppSpelling

/-- The text of an entity that is a parameter and has a name. -/
def Store.parameterText? (s : Store) (id : Entity) : Option String := do
  let type : String ← s.component? .parameter id
  let name : String ← s.component? .identifier id
  return s!"{type} {name}"

namespace Ast

variable {ast after : Ast} {k : Kind} {id : Entity}

/-- Two trees that differ at most in the components of one kind. -/
structure SameBut (k : Kind) (ast after : Ast) : Prop where
  slots : after.store.slots = ast.store.slots
  uniques : after.store.uniques = ast.store.uniques
  component? : ∀ j, j ≠ k → after.store.component? j = ast.store.component? j
  observers : after.observers = ast.observers

/-- A tree that generation may start from. -/
structure Ready (ast : Ast) : Prop where
  consistent : ast.store.Consistent
  cppName : ast.observersOf .cppName = []
  cppFragment : ast.observersOf .cppFragment = []

theorem SameBut.refl (k : Kind) (ast : Ast) : SameBut k ast ast := ⟨rfl, rfl, fun _ _ => rfl, rfl⟩

theorem SameBut.isValid (h : SameBut k ast after) : after.store.isValid = ast.store.isValid := by
  funext x
  unfold Store.isValid
  rw [h.slots]

/-- A component of another kind is still there to be read. -/
theorem SameBut.require (h : SameBut k ast after) {j : Kind} (hj : j ≠ k)
    (hid : ast.store.isValid id) {v : j.Value} (hheld : ast.store.component? j id = some v) :
    after.store.require j id = .ok v := by
  refine Store.require_of_held ?_ ?_
  · rw [h.isValid]
    exact hid
  · rw [h.component? j hj]
    exact hheld

/-- One more component of the kind in which two trees may differ. -/
theorem SameBut.insert (h : SameBut k ast after) (v : k.Value) :
    SameBut k ast { after with store := after.store.withComponent k id v } := by
  refine ⟨h.slots, h.uniques, ?_, h.observers⟩
  intro j hj
  exact (Store.component?_withComponent_of_ne hj).trans (h.component? j hj)

theorem Ready.insert (h : Ready ast) (hk : k.isLink = false) (hobs : ast.observersOf k = [])
    (hid : ast.store.isValid id) (v : k.Value) :
    Ends (Ast.insert k id v) ast fun _ after =>
      after = { ast with store := ast.store.withComponent k id v } ∧ Ready after := by
  refine ⟨v, _, insertTelling_of_unobserved _ h.consistent.sound hk hobs hid v, rfl, ?_,
    h.cppName, h.cppFragment⟩
  exact (Store.stable_consistent.attach k id v hk).ok h.consistent (Store.attach_run v hid)

theorem ofRead_bind_ends {α β : Type} {f : Store → Except Fault α} {a : α} {next : α → Action β}
    {R : β → Ast → Prop} (h : f ast.store = .ok a) (hnext : Ends (next a) ast R) :
    Ends (Action.ofRead f >>= next) ast R := by
  obtain ⟨b, after, hrun, hR⟩ := hnext
  exact ⟨b, after, (bind_run_ok (Action.ofRead_ok h)).trans hrun, hR⟩

/-- Spellings attached one after another to entities that were alive from the start. -/
theorem Ready.forM_spell (h : Ready after) (hsame : SameBut k ast after) (hk : k.isLink = false)
    (hobs : after.observersOf k = []) {action : Entity → Action PUnit} {value : Entity → k.Value}
    {ids : List Entity} (hids : ∀ id ∈ ids, ast.store.isValid id)
    (haction : ∀ id ∈ ids, ∀ t, SameBut k ast t →
      action id t = discard (Ast.insert k id (value id)) t) :
    Ends (ids.forM action) after fun _ last => Ready last ∧ SameBut k ast last ∧
      last = { after with store := after.store.withComponents k value ids } := by
  induction ids generalizing after with
  | nil => exact Ends.pure ⟨h, hsame, rfl⟩
  | cons id rest ih =>
    have hvalid : after.store.isValid id := by
      rw [hsame.isValid]
      exact hids id (by simp)
    obtain ⟨_, t, hrun, rfl, ht⟩ := h.insert hk hobs hvalid (value id)
    have hfirst := (haction id (by simp) after hsame).trans (discard_run_ok hrun)
    obtain ⟨x, last, hrest, hlast⟩ := ih ht (hsame.insert _) hobs
      (fun y hy => hids y (by simp [hy])) (fun y hy => haction y (by simp [hy]))
    exact ⟨x, last, (bind_run_ok hfirst).trans hrest, hlast⟩

theorem spellPrimitives_ends (h : Ready ast) :
    Ends spellPrimitives ast fun _ after => Ready after ∧ SameBut .cppName ast after ∧
      after = { ast with
        store := ast.store.withComponents .cppName
          (fun id => (ast.store.primitiveSpelling? id).getD "")
          (Query.scan ⟨.primitive, []⟩ ast.store) } := by
  refine ofRead_bind_ends (Query.ids_run h.consistent.sound) ?_
  refine h.forM_spell (.refl _ _) rfl h.cppName (fun id hid => (Query.mem_scan.mp hid).1) ?_
  intro id hid after hsame
  obtain ⟨hvalid, hheld⟩ := Query.mem_scan.mp hid
  obtain ⟨p, hp, -⟩ := h.consistent.sound.held_of_has (hheld .primitive (by simp [Query.kinds]))
  refine (bind_run_ok (Action.ofRead_ok (hsame.require (by decide) hvalid hp))).trans ?_
  rw [Store.primitiveSpelling?, hp]
  rfl

theorem spellParameters_ends (h : Ready ast) :
    Ends spellParameters ast fun _ after => Ready after ∧ SameBut .cppFragment ast after ∧
      after = { ast with
        store := ast.store.withComponents .cppFragment
          (fun id => (ast.store.parameterText? id).getD "")
          (Query.scan ⟨.parameter, [.identifier]⟩ ast.store) } := by
  refine ofRead_bind_ends (Query.ids_run h.consistent.sound) ?_
  refine h.forM_spell (.refl _ _) rfl h.cppFragment (fun id hid => (Query.mem_scan.mp hid).1) ?_
  intro id hid after hsame
  obtain ⟨hvalid, hheld⟩ := Query.mem_scan.mp hid
  obtain ⟨type, htype, -⟩ :=
    h.consistent.sound.held_of_has (hheld .parameter (by simp [Query.kinds]))
  obtain ⟨name, hname, -⟩ :=
    h.consistent.sound.held_of_has (hheld .identifier (by simp [Query.kinds]))
  refine (bind_run_ok (Action.ofRead_ok (hsame.require (by decide) hvalid htype))).trans ?_
  refine (bind_run_ok (Action.ofRead_ok (hsame.require (by decide) hvalid hname))).trans ?_
  rw [Store.parameterText?, htype, hname]
  rfl

end Ast

namespace Stable

variable {P E : Store → Prop}

theorem readTree {α : Type} (h : Stable P E) (f : Store → Except Fault α) :
    KeepsStore P E (Ast.Action.ofRead f) :=
  Keeps.readTree (fun ast => h.weaken ast.store) f

/-- What requests keep is kept by spelling, even in a tree where it is broken off. -/
theorem spellPrimitives (h : Stable P E) : KeepsStore P E Ast.spellPrimitives := by
  refine (h.readTree _).bind fun _ => Keeps.forM fun id _ => ?_
  exact (h.readTree _).bind fun _ => (h.insert .cppName id _).discard

theorem spellParameters (h : Stable P E) : KeepsStore P E Ast.spellParameters := by
  refine (h.readTree _).bind fun _ => Keeps.forM fun id _ => (h.readTree _).bind fun _ => ?_
  exact (h.readTree _).bind fun _ => (h.insert .cppFragment id _).discard

end Stable

namespace Workspace

/-- A workspace that may come after another: it reports what was reported before, and possibly
more. -/
structure Onward (w v : Workspace) : Prop where
  config : v.compilation.config = w.compilation.config
  grown : w.compilation.diagnostics <+: v.compilation.diagnostics

/-- A workspace that comes after another by work on files only. -/
structure Filed (w v : Workspace) : Prop extends Onward w v where
  ast : v.ast = w.ast

variable {w v u : Workspace}

theorem Onward.trans (h : Onward w v) (h' : Onward v u) : Onward w u :=
  ⟨h'.config.trans h.config, h.grown.trans h'.grown⟩

theorem Filed.refl (w : Workspace) : Filed w w := ⟨⟨rfl, List.prefix_rfl⟩, rfl⟩

theorem Filed.trans (h : Filed w v) (h' : Filed v u) : Filed w u :=
  ⟨h.toOnward.trans h'.toOnward, h'.ast.trans h.ast⟩

theorem ofRead_run_ok {α : Type} {f : Store → Except Fault α} {a : α}
    (h : f w.ast.store = .ok a) : Action.ofRead f w = .ok a w := by
  simp only [Action.ofRead, h]

theorem ofRead_run_error {α : Type} {f : Store → Except Fault α} {e : Fault}
    (h : f w.ast.store = .error e) : Action.ofRead f w = .error e w := by
  simp only [Action.ofRead, h]

theorem ofRead_bind_run {α β : Type} {f : Store → Except Fault α} {a : α} {next : α → Action β}
    (h : f w.ast.store = .ok a) : (Action.ofRead f >>= next) w = next a w :=
  bind_run_ok (ofRead_run_ok h)

theorem ofRead_bind_eq_ok {α β : Type} {f : Store → Except Fault α} {next : α → Action β} {b : β}
    (h : (Action.ofRead f >>= next) w = .ok b v) :
    ∃ a, f w.ast.store = .ok a ∧ next a w = .ok b v := by
  cases hf : f w.ast.store with
  | ok a => exact ⟨a, rfl, (ofRead_bind_run hf).symm.trans h⟩
  | error e =>
    rw [bind_run_error (ofRead_run_error hf)] at h
    cases h

theorem ofRead_bind_ends {α β : Type} {f : Store → Except Fault α} {a : α} {next : α → Action β}
    {R : β → Workspace → Prop} (h : f w.ast.store = .ok a) (hnext : Ends (next a) w R) :
    Ends (Action.ofRead f >>= next) w R := by
  obtain ⟨b, v, hrun, hR⟩ := hnext
  exact ⟨b, v, (ofRead_bind_run h).trans hrun, hR⟩

section Attempt

variable {ε : Type} {action : EStateM ε Disk Unit} {reason : ε → Diagnostic} {d : Disk}

theorem attempt_run_ok {u : Unit} (h : action w.disk = .ok u d) :
    attempt action reason w = .ok true { w with disk := d } := by
  simp only [attempt, h]

theorem attempt_run_error {e : ε} (h : action w.disk = .error e d) :
    attempt action reason w =
      .ok false { w with disk := d, compilation := w.compilation.report (reason e) } := by
  simp only [attempt, h]

end Attempt

/-- A change of files that goes well reports nothing, and one that does not reports once. -/
theorem attempt_ends {ε : Type} (action : EStateM ε Disk Unit) (reason : ε → Diagnostic) :
    Ends (attempt action reason) w fun done v => Filed w v ∧ v.disk = left (action w.disk) ∧
      v.compilation.diagnostics.length =
        w.compilation.diagnostics.length + if done then 0 else 1 := by
  cases hrun : action w.disk with
  | ok u disk =>
    exact ⟨true, _, attempt_run_ok hrun, ⟨⟨rfl, List.prefix_rfl⟩, rfl⟩, rfl, rfl⟩
  | error e disk =>
    exact ⟨false, _, attempt_run_error hrun, ⟨⟨rfl, List.prefix_append ..⟩, rfl⟩, rfl,
      List.length_append ..⟩

theorem module_run (name : String) (target : ModuleTarget) :
    ∃ text, Descriptor.module name target = .ok text := ⟨_, rfl⟩

end Workspace

end ModuleCompiler
