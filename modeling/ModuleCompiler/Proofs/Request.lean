import ModuleCompiler.Observer
import ModuleCompiler.Proofs.Outcome

/-!
Runs of requests. A request that is refused part way leaves what it had changed, so a run goes on
from there. What is shown of a run is shown of the few changes of which every request is made:
the observers act through the same requests, however deeply they tell each other.
-/

namespace ModuleCompiler

/-- A reading changes nothing, but may be refused. -/
theorem Keeps.ofRead {P E : Store → Prop} {α : Type} (hE : ∀ s, P s → E s)
    (f : Store → Except Fault α) : Keeps P E (Store.Action.ofRead f) := by
  intro s hs
  unfold Store.Action.ofRead
  cases f s with
  | ok a => exact hs
  | error e => exact hE s hs

namespace Ast.Action

variable {α : Type} {ast : Ast} {a : α} {e : Fault}

theorem ofStore_ok {action : Store.Action α} {s : Store} (h : action ast.store = .ok a s) :
    ofStore action ast = .ok a { ast with store := s } := by
  simp only [ofStore, h]

theorem ofStore_error {action : Store.Action α} {s : Store} (h : action ast.store = .error e s) :
    ofStore action ast = .error e { ast with store := s } := by
  simp only [ofStore, h]

theorem ofRead_ok {f : Store → Except Fault α} (h : f ast.store = .ok a) :
    ofRead f ast = .ok a ast := by
  simp only [ofRead, ofStore, Store.Action.ofRead, h]

theorem ofRead_error {f : Store → Except Fault α} (h : f ast.store = .error e) :
    ofRead f ast = .error e ast := by
  simp only [ofRead, ofStore, Store.Action.ofRead, h]

theorem ofRead_run (f : Store → Except Fault α) (ast : Ast) :
    ofRead f ast =
      match f ast.store with
      | .ok a => .ok a ast
      | .error e => .error e ast := by
  cases h : f ast.store with
  | ok a => exact ofRead_ok h
  | error e => exact ofRead_error h

theorem ofStore_eq_ok {action : Store.Action α} {after : Ast}
    (h : ofStore action ast = .ok a after) :
    action ast.store = .ok a after.store := by
  unfold ofStore at h
  cases hrun : action ast.store with
  | ok b s =>
    rw [hrun] at h
    obtain ⟨rfl, rfl⟩ := EStateM.Result.ok.inj h
    rfl
  | error e s =>
    rw [hrun] at h
    cases h

theorem ofStore_bind {β : Type} (action : Store.Action α) (next : α → Store.Action β) :
    ofStore (action >>= next) = ofStore action >>= fun a => ofStore (next a) := by
  funext ast
  rw [bind_run]
  unfold ofStore
  rw [bind_run]
  cases action ast.store <;> rfl

theorem ofStore_forM (items : List α) (action : α → Store.Action PUnit) :
    ofStore (items.forM action) = items.forM fun a => ofStore (action a) := by
  induction items with
  | nil => rfl
  | cons a rest ih =>
    have hcons : ofStore ((a :: rest).forM action) =
        ofStore (action a) >>= fun _ => ofStore (rest.forM action) := ofStore_bind ..
    rw [hcons, ih]
    rfl

theorem ofStore_discard (action : Store.Action α) :
    ofStore (Functor.discard action) = Functor.discard (ofStore action) := by
  funext ast
  rw [discard_run]
  unfold ofStore
  rw [discard_run]
  cases action ast.store <;> rfl

end Ast.Action

section Update

variable {P E : Store → Prop} {k : Kind} {id : Entity}

/-- Changing a component in place is putting the changed one on. -/
theorem Keeps.update? (hE : ∀ s, P s → E s)
    (hattach : ∀ v, k.isLink = false → Keeps P E (Store.attach k id v))
    (f : k.Value → k.Value) : Keeps P E (Store.update? k id f) := by
  intro s hs
  unfold Store.update? Store.checkKind
  cases hk : k.isLink with
  | true => exact hE s hs
  | false =>
    cases hid : s.checkValid id with
    | error e => exact hE s hs
    | ok u =>
      cases hv : s.component? k id with
      | none => simpa [hv] using hs
      | some v =>
        have hput : Store.attach k id (f v) s = .ok () (s.withComponent k id (f v)) := by
          simp only [Store.attach, hid]
        simpa [hv] using (hattach (f v) hk).ok hs hput

theorem Keeps.update (hE : ∀ s, P s → E s)
    (hattach : ∀ v, k.isLink = false → Keeps P E (Store.attach k id v))
    (f : k.Value → k.Value) : Keeps P E (Store.update k id f) := by
  refine (Keeps.update? hE hattach f).bind fun found => ?_
  cases found with
  | none => exact Keeps.throw hE _
  | some v => exact Keeps.pure v

end Update

theorem Keeps.readTree {P E : Ast → Prop} {α : Type} (hE : ∀ ast, P ast → E ast)
    (f : Store → Except Fault α) : Keeps P E (Ast.Action.ofRead f) := by
  intro ast hast
  rw [Ast.Action.ofRead_run]
  cases f ast.store with
  | ok a => exact hast
  | error e => exact hE ast hast

/-- What keeps `P` is putting a component on and telling the observers, taken together. -/
theorem Keeps.insertTelling {P E : Ast → Prop} {tell : Kind → Entity → Ast.Action Unit} {k : Kind}
    {id : Entity} {v : k.Value} (hE : ∀ ast, P ast → E ast)
    (hput : k.isLink = false →
      Keeps P E (Ast.Action.ofStore (Store.attach k id v) >>= fun _ => tell k id)) :
    Keeps P E (Ast.insertTelling tell k id v) := by
  unfold Ast.insertTelling
  cases hk : k.isLink with
  | true =>
    intro ast hast
    have hrefused : Ast.Action.ofRead (fun _ => Store.checkKind k) ast =
        .error (.linkKind k) ast := by
      simp [Ast.Action.ofRead, Ast.Action.ofStore, Store.Action.ofRead, Store.checkKind, hk]
    rw [bind_run_error hrefused]
    exact hE ast hast
  | false =>
    refine (Keeps.readTree hE _).bind fun _ => ?_
    rw [← bind_assoc]
    refine (hput hk).bind fun _ => (Keeps.readTree hE _).bind fun found => ?_
    cases found with
    | none => exact Keeps.throw hE _
    | some left => exact Keeps.pure left

/-- Components put on and taken off keep `P`, and leave `E` where that is refused. -/
structure StableComponents (P E : Store → Prop) : Prop where
  weaken : ∀ s, P s → E s
  attach : ∀ k id v, k.isLink = false → Keeps P E (Store.attach k id v)
  detach : ∀ k id, k.isLink = false → Keeps P E (Store.detach k id)

namespace StableComponents

variable {P E : Store → Prop}

theorem remove (h : StableComponents P E) (k : Kind) (id : Entity) :
    Keeps P E (Store.remove k id) := by
  intro s hs
  unfold Store.remove Store.checkKind
  cases hk : k.isLink with
  | true => exact h.weaken s hs
  | false => exact h.detach k id hk s hs

theorem update? (h : StableComponents P E) (k : Kind) (id : Entity) (f : k.Value → k.Value) :
    Keeps P E (Store.update? k id f) :=
  Keeps.update? h.weaken (fun v hk => h.attach k id v hk) f

theorem update (h : StableComponents P E) (k : Kind) (id : Entity) (f : k.Value → k.Value) :
    Keeps P E (Store.update k id f) :=
  Keeps.update h.weaken (fun v hk => h.attach k id v hk) f

end StableComponents

/-- The requests that make and end entities, link them or set what a store has one of, keep `P`,
and leave `E` where they are refused. -/
structure StableShape (P E : Store → Prop) : Prop where
  weaken : ∀ s, P s → E s
  create : Keeps P E Store.create
  destroy : ∀ id, Keeps P E (Store.destroy id)
  addChildren : ∀ parent added, Keeps P E (Store.addChildren parent added)
  removeChild : ∀ child, Keeps P E (Store.removeChild child)
  removeAllChildren : ∀ parent, Keeps P E (Store.removeAllChildren parent)
  uniques : ∀ s uniques, P s → P { s with uniques := uniques }

namespace StableShape

variable {P E : Store → Prop}

theorem removeChildren (h : StableShape P E) (removed : List Entity) :
    Keeps P E (Store.removeChildren removed) :=
  Keeps.forM fun child _ => (h.removeChild child).discard

theorem transferChildren (h : StableShape P E) (moved : List Entity) (destination : Entity) :
    Keeps P E (Store.transferChildren moved destination) :=
  (h.removeChildren moved).bind fun _ => h.addChildren destination moved

theorem destroySubtree (h : StableShape P E) (root : Entity) :
    Keeps P E (Store.destroySubtree root) := by
  refine (h.removeChild root).discard.bind fun _ => ?_
  refine (Keeps.ofRead h.weaken _).bind fun below => ?_
  refine (Keeps.forM fun node _ => h.removeAllChildren node).bind fun _ => ?_
  exact Keeps.forM fun node _ => h.destroy node

theorem setUnique (h : StableShape P E) (u : Unique) (v : u.Value) :
    Keeps P E (Store.setUnique u v) :=
  fun s hs => h.uniques s _ hs

theorem updateUnique? (h : StableShape P E) (u : Unique) (f : u.Value → u.Value) :
    Keeps P E (Store.updateUnique? u f) := by
  intro s hs
  unfold Store.updateUnique?
  cases s.unique? u with
  | none => exact hs
  | some v => exact h.uniques s _ hs

end StableShape

/-- The elementary requests to a store keep `P`, and leave `E` where they are refused. -/
structure Stable (P E : Store → Prop) : Prop extends StableComponents P E, StableShape P E

namespace Stable

variable {P E : Store → Prop}

theorem edit (h : Stable P E) (change : Edit) : Keeps P E change.run := by
  cases change with
  | destroy id => exact h.destroy id
  | remove k id => exact (h.remove k id).discard
  | update k id f => exact (h.update k id f).discard
  | addChildren parent added => exact h.addChildren parent added
  | removeChildren removed => exact h.removeChildren removed
  | removeAllChildren parent => exact h.removeAllChildren parent
  | transferChildren moved destination => exact h.transferChildren moved destination
  | destroySubtree root => exact h.destroySubtree root
  | setUnique u v => exact h.setUnique u v

end Stable

/-- A request to a tree: every way to change it, and readings, which may be refused. -/
inductive Request where
  | create
  | insert (k : Kind) (id : Entity) (v : k.Value)
  | getOrInsert (k : Kind) (id : Entity) (v : k.Value)
  | updateIfHeld (k : Kind) (id : Entity) (f : k.Value → k.Value)
  | addChild (parent child : Entity)
  | removeChild (child : Entity)
  | updateUnique (u : Unique) (f : u.Value → u.Value)
  | edit (change : Edit)
  | observe (k : Kind) (observer : Observer)
  | read (f : Store → Except Fault Unit)

namespace Request

def run : Request → Ast.Action Unit
  | .create => discard Ast.create
  | .insert k id v => discard (Ast.insert k id v)
  | .getOrInsert k id v => discard (Ast.getOrInsert k id v)
  | .updateIfHeld k id f => discard (Ast.Action.ofStore (Store.update? k id f))
  | .addChild parent child => Ast.Action.ofStore (Store.addChild parent child)
  | .removeChild child => discard (Ast.Action.ofStore (Store.removeChild child))
  | .updateUnique u f => discard (Ast.Action.ofStore (Store.updateUnique? u f))
  | .edit change => Ast.edit change
  | .observe k observer => Ast.observe k observer
  | .read f => Ast.Action.ofRead f

def after (request : Request) (ast : Ast) : Ast := left (request.run ast)

end Request

namespace Ast

/-- Requests one after the other, up to the first that is refused. -/
def carryOut (requests : List Request) : Action Unit := requests.forM Request.run

/-- The tree after requests that start from nothing; a refused one does not stop the next. -/
def reached (requests : List Request) : Ast :=
  requests.foldl (fun ast request => request.after ast) empty

/-- Whether a run that starts from nothing comes to its end without a refused request. -/
def carriedOut (requests : List Request) : Bool :=
  match carryOut requests empty with
  | .ok _ _ => true
  | .error _ _ => false

/-- The tree after requests that start from a given one. -/
def afterAll (requests : List Request) (ast : Ast) : Ast :=
  requests.foldl (fun ast request => request.after ast) ast

theorem foldl_after_of_carryOut {requests : List Request} {ast last : Ast} {u : Unit}
    (h : carryOut requests ast = .ok u last) :
    requests.foldl (fun ast request => request.after ast) ast = last := by
  induction requests generalizing ast with
  | nil => exact (EStateM.Result.ok.inj h).2
  | cons request rest ih =>
    cases hrun : request.run ast with
    | error e next =>
      have hall : carryOut (request :: rest) ast = .error e next := bind_run_error hrun
      rw [hall] at h
      cases h
    | ok v next =>
      have hall : carryOut (request :: rest) ast = carryOut rest next := bind_run_ok hrun
      have hafter : request.after ast = next := by rw [Request.after, hrun, left]
      rw [List.foldl_cons, hafter]
      exact ih (hall ▸ h)

end Ast

/-- What each of the requests keeps, carried out or refused, a whole run keeps. -/
theorem Keeps.afterAll {P : Ast → Prop} {requests : List Request}
    (h : ∀ request ∈ requests, Keeps P P request.run) {ast : Ast} (hast : P ast) :
    P (Ast.afterAll requests ast) := by
  induction requests generalizing ast with
  | nil => exact hast
  | cons request rest ih =>
    exact ih (fun r hr => h r (by simp [hr])) ((h request (by simp)).left hast)

/-- A request to a tree does to its store what `Keeps` says. -/
abbrev KeepsStore {α : Type} (P E : Store → Prop) (action : Ast.Action α) : Prop :=
  Keeps (fun ast : Ast => P ast.store) (fun ast => E ast.store) action

namespace Stable

variable {P E : Store → Prop}

theorem ofStore {α : Type} {action : Store.Action α} (h : Keeps P E action) :
    KeepsStore P E (Ast.Action.ofStore action) := by
  intro ast hast
  unfold Ast.Action.ofStore
  cases hrun : action ast.store with
  | ok a s => exact h.ok hast hrun
  | error e s => exact h.error hast hrun

theorem insertTelling (h : Stable P E) {tell : Kind → Entity → Ast.Action Unit}
    (htell : ∀ k id, KeepsStore P E (tell k id))
    (k : Kind) (id : Entity) (v : k.Value) :
    KeepsStore P E (Ast.insertTelling tell k id v) :=
  Keeps.insertTelling (fun ast => h.weaken ast.store) fun hk =>
    (ofStore (h.attach k id v hk)).bind fun _ => htell k id

/-- By induction on the script: an observer does nothing that a request could not do. -/
theorem perform (h : Stable P E) {tell : Kind → Entity → Ast.Action Unit}
    (htell : ∀ k id, KeepsStore P E (tell k id))
    (script : Script) :
    KeepsStore P E (Ast.perform tell script) := by
  induction script with
  | done => exact Keeps.pure _
  | fail fault => exact Keeps.throw (fun ast : Ast => h.weaken ast.store) fault
  | read next ih => exact Keeps.get_bind fun ast => ih ast.store
  | create next ih => exact (ofStore h.create).bind ih
  | insert k id v next ih => exact (h.insertTelling htell k id v).discard.bind fun _ => ih
  | edit change next ih => exact (ofStore (h.edit change)).bind fun _ => ih
  | observe k observer next _ ih =>
    exact Keeps.bind (fun ast hast => hast) fun _ => ih

/-- By induction on the levels to which observers cause each other to be told. -/
theorem tell (h : Stable P E) (levels : Nat) (k : Kind) (id : Entity) :
    KeepsStore P E (Ast.tell levels k id) := by
  induction levels generalizing k id with
  | zero =>
    refine Keeps.get_bind fun ast => ?_
    split
    · exact Keeps.pure _
    · exact Keeps.throw (fun ast : Ast => h.weaken ast.store) _
  | succ levels ih =>
    exact Keeps.get_bind fun ast =>
      Keeps.forM fun observer _ => h.perform ih (observer id)

theorem insert (h : Stable P E) (k : Kind) (id : Entity) (v : k.Value) :
    KeepsStore P E (Ast.insert k id v) :=
  h.insertTelling (h.tell Ast.observerLevels) k id v

theorem getOrInsert (h : Stable P E) (k : Kind) (id : Entity) (v : k.Value) :
    KeepsStore P E (Ast.getOrInsert k id v) := by
  refine (ofStore (Keeps.ofRead h.weaken _)).bind fun held => ?_
  have hread := ofStore (h.update k id fun w => w)
  dsimp only
  split
  · exact (h.insert k id v).discard.bind fun _ => hread
  · exact hread

theorem request (h : Stable P E) (request : Request) :
    KeepsStore P E request.run := by
  cases request with
  | create => exact (ofStore h.create).discard
  | insert k id v => exact (h.insert k id v).discard
  | getOrInsert k id v => exact (h.getOrInsert k id v).discard
  | updateIfHeld k id f => exact (ofStore (h.update? k id f)).discard
  | addChild parent child => exact ofStore (h.addChildren parent [child])
  | removeChild child => exact (ofStore (h.removeChild child)).discard
  | updateUnique u f => exact (ofStore (h.updateUnique? u f)).discard
  | edit change => exact ofStore (h.edit change)
  | observe k observer => exact fun ast hast => hast
  | read f => exact ofStore (Keeps.ofRead h.weaken f)

/-- What holds of the empty store and is kept by every request carried out holds after a run in
which none is refused. -/
theorem carriedOut (h : Stable P E) (hempty : P .empty) {requests : List Request}
    (hrun : Ast.carriedOut requests = true) : P (Ast.reached requests).store := by
  unfold Ast.carriedOut at hrun
  cases hall : Ast.carryOut requests .empty with
  | error e last =>
    rw [hall] at hrun
    cases hrun
  | ok u last =>
    rw [show Ast.reached requests = last from Ast.foldl_after_of_carryOut hall]
    exact (Keeps.forM fun request _ => h.request request).ok hempty hall

/-- What is kept also by refused requests holds after every run. -/
theorem reached (h : Stable P P) (hempty : P .empty) (requests : List Request) :
    P (Ast.reached requests).store :=
  Keeps.afterAll (P := fun ast => P ast.store) (fun request _ => h.request request) hempty

end Stable

end ModuleCompiler
