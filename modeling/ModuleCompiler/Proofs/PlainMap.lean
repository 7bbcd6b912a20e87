import Mathlib.Data.Finset.Card
import ModuleCompiler.Proofs.Nesting

/-!
A store as a plain map. The plain map knows which entities are alive and which value each kind has
on each of them; it has neither slots nor tables. Putting a component on binds one value and taking
it off unbinds one. Both are asked the same questions, one after the other, and their observers act
through the same questions; every answer of the store, refusals included, is one of the plain map.
The handle of a new entity is left open there: it may be any that is not alive. Nothing bounds how
deeply the observers of a plain map cause each other to be told.
-/

namespace ModuleCompiler

structure Plain where
  live : Finset Entity
  value : (k : Kind) → Entity → Option k.Value
  observers : List (Kind × (Entity → Procedure))

namespace Plain

def empty : Plain := ⟨∅, fun _ _ => none, []⟩

/-- The answers that may be given to a request, each with the map it leaves. -/
def Action (α : Type) := Plain → Except Fault α → Plain → Prop

instance : Monad Action where
  pure a := fun p answer q => answer = .ok a ∧ q = p
  bind action next := fun p answer q =>
    (∃ a between, action p (.ok a) between ∧ next a between answer q) ∨
      ∃ e, action p (.error e) q ∧ answer = .error e

def refuse {α : Type} (e : Fault) : Action α := fun p answer q => answer = .error e ∧ q = p

def read {α : Type} (f : Plain → Except Fault α) : Action α := fun p answer q =>
  answer = f p ∧ q = p

def write (f : Plain → Plain) : Action Unit := fun p answer q => answer = .ok () ∧ q = f p

def checkLive (id : Entity) : Action Unit :=
  read fun p => if id ∈ p.live then .ok () else .error (.stale id)

def checkKind (k : Kind) : Action Unit :=
  read fun _ => if k.isLink then .error (.linkKind k) else .ok ()

/-- The map with one value bound or unbound. -/
def set (p : Plain) (k : Kind) (id : Entity) (v : Option k.Value) : Plain :=
  { p with value := Function.update p.value k (Function.update (p.value k) id v) }

/-- A new entity, if the handles do not run out. Nothing is bound to it. -/
def create : Action Entity := fun p answer q =>
  if p.live.card < Entity.slotLimit then
    ∃ id, id ∉ p.live ∧ answer = .ok id ∧ q = { p with live := insert id p.live }
  else answer = .error .slotsExhausted ∧ q = p

/-- Ends an entity and unbinds what was bound to it. -/
def destroy (id : Entity) : Action Unit := do
  checkLive id
  write fun p =>
    { p with
      live := p.live.erase id
      value := fun k => Function.update (p.value k) id none }

def getIfHeld (k : Kind) (id : Entity) : Action (Option k.Value) := do
  checkLive id
  read fun p => .ok (p.value k id)

def get (k : Kind) (id : Entity) : Action k.Value := do
  match ← getIfHeld k id with
  | some v => pure v
  | none => refuse (.lacks id k)

def has (k : Kind) (id : Entity) : Action Bool := do
  let v ← getIfHeld k id
  pure v.isSome

def count (k : Kind) : Action Nat := read fun p => .ok (p.live.filter (p.value k · |>.isSome)).card

def remove (k : Kind) (id : Entity) : Action (Option k.Value) := do
  checkKind k
  let v ← getIfHeld k id
  write fun p => p.set k id none
  pure v

def updateIfHeld (k : Kind) (id : Entity) (f : k.Value → k.Value) : Action (Option k.Value) := do
  checkKind k
  let v ← getIfHeld k id
  write fun p => p.set k id (v.map f)
  pure v

def update (k : Kind) (id : Entity) (f : k.Value → k.Value) : Action k.Value := do
  match ← updateIfHeld k id f with
  | some v => pure v
  | none => refuse (.lacks id k)

/-- Binds a value to a living entity. -/
def attach (k : Kind) (id : Entity) (v : k.Value) : Action Unit := do
  checkLive id
  write fun p => p.set k id (some v)

def insertTelling (tell : Kind → Entity → Action Unit) (k : Kind) (id : Entity) (v : k.Value) :
    Action k.Value := do
  checkKind k
  attach k id v
  tell k id
  match ← getIfHeld k id with
  | some left => pure left
  | none => refuse (.lostToObserver k id)

/-- Carries out an operation. Only insertions are told to observers. -/
def call (tell : Kind → Entity → Action Unit) : (op : Operation) → Action op.Answer
  | .create => create
  | .destroy id => destroy id
  | .insert k id v => insertTelling tell k id v
  | .getOrInsert k id v => do
    let held ← has k id
    if held then update k id fun w => w
    else
      let _ ← insertTelling tell k id v
      update k id fun w => w
  | .remove k id => remove k id
  | .update k id f => update k id f
  | .updateIfHeld k id f => updateIfHeld k id f
  | .get k id => get k id
  | .getIfHeld k id => getIfHeld k id
  | .has k id => has k id
  | .count k => count k

def observe (k : Kind) (observer : Entity → Procedure) : Action Unit :=
  write fun p => { p with observers := p.observers ++ [(k, observer)] }

def perform (tell : Kind → Entity → Action Unit) : Procedure → Action Unit
  | .done => pure ()
  | .fail fault => refuse fault
  | .call op next => do
    let a ← call tell op
    perform tell (next a)
  | .observe k observer next => do
    observe k observer
    perform tell next

/-- The observers of a kind. -/
def observersOf (p : Plain) (k : Kind) : List (Entity → Procedure) :=
  p.observers.filterMap fun (k', observer) => if k' = k then some observer else none

/-- Whatever one request may answer, another may answer too. -/
def Allows {α : Type} (more action : Action α) : Prop :=
  ∀ p answer q, action p answer q → more p answer q

namespace Allows

variable {α β : Type}

theorem refl (action : Action α) : Allows action action := fun _ _ _ h => h

theorem bind {more action : Action α} {moreNext next : α → Action β} (h : Allows more action)
    (hnext : ∀ a, Allows (moreNext a) (next a)) : Allows (more >>= moreNext) (action >>= next) := by
  rintro p answer q (⟨a, between, hfirst, hrest⟩ | ⟨e, hfirst, rfl⟩)
  · exact Or.inl ⟨a, between, h _ _ _ hfirst, hnext a _ _ _ hrest⟩
  · exact Or.inr ⟨e, h _ _ _ hfirst, rfl⟩

theorem forM {items : List α} {more action : α → Action Unit}
    (h : ∀ a, Allows (more a) (action a)) : Allows (items.forM more) (items.forM action) := by
  induction items with
  | nil => exact refl _
  | cons a rest ih => exact (h a).bind fun _ => ih

variable {moreTell tell : Kind → Entity → Action Unit}
  (htell : ∀ k id, Allows (moreTell k id) (tell k id))
include htell

theorem insertTelling (k : Kind) (id : Entity) (v : k.Value) :
    Allows (Plain.insertTelling moreTell k id v) (Plain.insertTelling tell k id v) :=
  (refl _).bind fun _ => (refl _).bind fun _ => (htell k id).bind fun _ => refl _

theorem call (op : Operation) : Allows (Plain.call moreTell op) (Plain.call tell op) := by
  cases op with
  | insert k id v => exact insertTelling htell k id v
  | getOrInsert k id v =>
    refine (refl _).bind fun held => ?_
    cases held with
    | true => exact refl _
    | false => exact (insertTelling htell k id v).bind fun _ => refl _
  | _ => exact refl _

theorem perform (procedure : Procedure) :
    Allows (Plain.perform moreTell procedure) (Plain.perform tell procedure) := by
  induction procedure with
  | done => exact refl _
  | fail fault => exact refl _
  | call op next ih => exact (call htell op).bind ih
  | observe k observer next _ ih => exact (refl _).bind fun _ => ih

end Allows

/-- Tells the observers of a kind, one after the other. Of the relations with this property it is
the least: observers that cause each other to be told without end give no answer. -/
def tell (k : Kind) (id : Entity) (p : Plain) (answer : Except Fault Unit) (q : Plain) : Prop :=
  (p.observersOf k).forM (fun observer => perform tell (observer id)) p answer q
inductive_fixpoint monotonicity fun _ _ h _ id p answer q =>
  Allows.forM (fun observer : Entity → Procedure => Allows.perform h (observer id)) p answer q

section Answers

variable {α β : Type} {p q r : Plain} {k : Kind} {id : Entity}

theorem bind_ok {action : Action α} {next : α → Action β} {a : α} {answer : Except Fault β}
    (h : action p (.ok a) q) (hnext : next a q answer r) : (action >>= next) p answer r :=
  Or.inl ⟨a, q, h, hnext⟩

theorem bind_error {action : Action α} {next : α → Action β} {e : Fault}
    (h : action p (.error e) q) : (action >>= next) p (.error e) q :=
  Or.inr ⟨e, h, rfl⟩

theorem write_run {f : Plain → Plain} (h : f p = q) : write f p (.ok ()) q := ⟨rfl, h.symm⟩

theorem checkLive_ok (h : id ∈ p.live) : checkLive id p (.ok ()) p := ⟨by simp [h], rfl⟩

theorem checkLive_stale (h : id ∉ p.live) : checkLive id p (.error (.stale id)) p :=
  ⟨by simp [h], rfl⟩

theorem checkKind_ok (h : k.isLink = false) : checkKind k p (.ok ()) p := ⟨by simp [h], rfl⟩

theorem checkKind_link (h : k.isLink = true) : checkKind k p (.error (.linkKind k)) p :=
  ⟨by simp [h], rfl⟩

theorem getIfHeld_ok (h : id ∈ p.live) : getIfHeld k id p (.ok (p.value k id)) p :=
  bind_ok (checkLive_ok h) ⟨rfl, rfl⟩

theorem getIfHeld_stale (h : id ∉ p.live) : getIfHeld k id p (.error (.stale id)) p :=
  bind_error (checkLive_stale h)

theorem set_value_self (p : Plain) (v : Option k.Value) :
    (p.set k id v).value k = Function.update (p.value k) id v :=
  Function.update_self ..

theorem set_value_of_ne (p : Plain) {j : Kind} (h : j ≠ k) (v : Option k.Value) :
    (p.set k id v).value j = p.value j :=
  Function.update_of_ne h ..

theorem set_of_value {v : Option k.Value} (h : p.value k id = v) : p.set k id v = p := by
  unfold set
  rw [← h, Function.update_eq_self, Function.update_eq_self]

end Answers

/-- The plain map has the living entities of a tree, their components and their observers. Without
requests on links no component of a link kind ever comes up. -/
structure Depicts (p : Plain) (ast : Ast) : Prop where
  sound : ast.store.Sound
  tidy : ast.store.Tidy
  live : ∀ id, id ∈ p.live ↔ ast.store.isValid id = true
  value : ∀ k, p.value k = ast.store.component? k
  unlinked : ∀ k, k.isLink = true → p.value k = fun _ => none
  observers :
    ast.observers = p.observers.map fun (k, observer) => (k, fun id => (observer id).script)

theorem depicts_empty : empty.Depicts .empty := by
  refine ⟨Store.sound_empty, Store.tidy_empty, ?_, fun k => rfl, fun _ _ => rfl, rfl⟩
  intro id
  simp [empty, Ast.empty, Store.empty, Store.isValid]

namespace Depicts

variable {p : Plain} {ast : Ast} {k : Kind} {id : Entity}

theorem withComponent (h : p.Depicts ast) (hk : k.isLink = false) (hid : ast.store.isValid id)
    (v : k.Value) :
    (p.set k id (some v)).Depicts { ast with store := ast.store.withComponent k id v } := by
  have hvalue : ∀ j, (p.set k id (some v)).value j =
      (ast.store.withComponent k id v).component? j := by
    intro j
    by_cases hj : j = k
    · subst hj
      rw [set_value_self, h.value, h.sound.component?_withComponent hid]
    · rw [set_value_of_ne p hj, h.value, Store.component?_withComponent_of_ne hj]
  refine ⟨h.sound.withComponent hid, h.tidy.same ⟨rfl, rfl, rfl⟩, h.live, hvalue, ?_, h.observers⟩
  intro j hj
  have hne : j ≠ k := fun heq => by rw [heq, hk] at hj; cases hj
  rw [set_value_of_ne p hne, h.unlinked j hj]

theorem withoutComponent (h : p.Depicts ast) (hk : k.isLink = false) :
    (p.set k id none).Depicts { ast with store := ast.store.withoutComponent k id } := by
  have hsame := (Store.SameSlots.refl ast.store).withoutComponent k id
  have hvalue : ∀ j, (p.set k id none).value j =
      (ast.store.withoutComponent k id).component? j := by
    intro j
    by_cases hj : j = k
    · subst hj
      rw [set_value_self, h.value, h.sound.component?_withoutComponent]
    · rw [set_value_of_ne p hj, h.value, Store.component?_withoutComponent_of_ne hj]
  refine ⟨h.sound.withoutComponent, h.tidy.same hsame, ?_, hvalue, ?_, h.observers⟩
  · intro x
    rw [Store.isValid, hsame.slots]
    exact h.live x
  · intro j hj
    have hne : j ≠ k := fun heq => by rw [heq, hk] at hj; cases hj
    rw [set_value_of_ne p hne, h.unlinked j hj]

theorem ended (h : p.Depicts ast) (hid : ast.store.isValid id) :
    Depicts { p with
        live := p.live.erase id, value := fun k => Function.update (p.value k) id none }
      { ast with store := ast.store.ended id } := by
  refine ⟨h.sound.ended hid, h.tidy.ended hid, ?_, ?_, ?_, h.observers⟩
  · intro x
    rw [Store.isValid_ended hid, Finset.mem_erase, h.live]
    exact and_comm
  · intro j
    show Function.update (p.value j) id none = _
    rw [h.value, h.sound.component?_ended]
  · intro j hj
    show Function.update (p.value j) id none = _
    rw [h.unlinked j hj]
    exact Function.update_eq_self ..

theorem granted (h : p.Depicts ast) {s : Store} (hs : Store.Granted ast.store id s)
    (htidy : s.Tidy) (hsound : s.Sound) :
    Depicts { p with live := insert id p.live } { ast with store := s } := by
  refine ⟨hsound, htidy, ?_, ?_, h.unlinked, h.observers⟩
  · intro x
    rw [hs.isValid_iff, Finset.mem_insert, h.live]
  · intro j
    rw [hs.component? j]
    exact h.value j

/-- Nothing that is depicted depends on the counter, which goes on even where no slot is left. -/
theorem recount (h : p.Depicts ast) (hfull : ¬ ast.store.slots.length < Entity.slotLimit)
    (live : Nat) : p.Depicts { ast with store := { ast.store with live := live } } :=
  ⟨⟨h.sound.slots_le, h.sound.wellFormed, h.sound.alive⟩,
    ⟨h.tidy.nodup, h.tidy.mem_free, fun hroom => absurd hroom hfull⟩, h.live, h.value,
    h.unlinked, h.observers⟩

theorem card_live (h : p.Depicts ast) : p.live.card = ast.store.slots.countP Slot.alive := by
  have hlive : p.live = ast.store.entities.toFinset := by
    ext id
    rw [h.live, List.mem_toFinset, Store.mem_entities]
  rw [hlive, List.toFinset_card_of_nodup (Store.nodup_of_ascending Store.ascending_entities),
    Store.length_entities]

theorem card_live_le (h : p.Depicts ast) : p.live.card ≤ Entity.slotLimit := by
  rw [h.card_live]
  exact List.countP_le_length.trans h.sound.slots_le

theorem count_eq (h : p.Depicts ast) (k : Kind) :
    (p.live.filter (p.value k · |>.isSome)).card = ast.store.count k := by
  have hset : {id | ast.store.has k id = .ok true} =
      (p.live.filter (p.value k · |>.isSome) : Set Entity) := by
    ext id
    simp only [Set.mem_ofPred_eq, Store.has_eq_true, h.sound.holds_eq, Finset.coe_filter, h.live,
      h.value]
  have hcount := h.sound.count_eq_card k
  rw [hset, Set.encard_coe_eq_coe_finsetCard] at hcount
  exact_mod_cast hcount

theorem observersOf (h : p.Depicts ast) (k : Kind) :
    ast.observersOf k = (p.observersOf k).map fun observer id => (observer id).script := by
  unfold Ast.observersOf Plain.observersOf
  rw [h.observers, List.filterMap_map, List.map_filterMap]
  congr 1
  funext entry
  show (if entry.1 = k then _ else _) = Option.map _ (if entry.1 = k then _ else _)
  split <;> rfl

end Depicts

/-- Where the plain map depicts a tree, it may answer a request as the tree does, and depicts the
tree again, unless the tree runs out of levels. -/
def Explains {α : Type} (plain : Action α) (action : Ast.Action α) : Prop :=
  ∀ p ast, p.Depicts ast → ranOut (reply (action ast)) = false →
    ∃ q, plain p (reply (action ast)) q ∧ q.Depicts (left (action ast))

namespace Explains

variable {α β : Type}

/-- A request that is carried out or refused, each with what the plain map says to it. -/
theorem run_ok {plain : Action α} {action : Ast.Action α} {p q : Plain} {ast after : Ast} {a : α}
    (hrun : action ast = .ok a after) (h : plain p (.ok a) q) (hq : q.Depicts after) :
    ∃ q, plain p (reply (action ast)) q ∧ q.Depicts (left (action ast)) := by
  rw [hrun]
  exact ⟨q, h, hq⟩

theorem run_error {plain : Action α} {action : Ast.Action α} {p q : Plain} {ast after : Ast}
    {e : Fault} (hrun : action ast = .error e after) (h : plain p (.error e) q)
    (hq : q.Depicts after) :
    ∃ q, plain p (reply (action ast)) q ∧ q.Depicts (left (action ast)) := by
  rw [hrun]
  exact ⟨q, h, hq⟩

theorem pure (a : α) : Explains (Pure.pure a) (Pure.pure a) :=
  fun _ _ h _ => run_ok rfl ⟨rfl, rfl⟩ h

theorem refuse (e : Fault) : Explains (Plain.refuse e : Action α) (throw e) :=
  fun _ _ h _ => run_error rfl ⟨rfl, rfl⟩ h

theorem bind {plain : Action α} {action : Ast.Action α} {plainNext : α → Action β}
    {next : α → Ast.Action β} (h : Explains plain action)
    (hnext : ∀ a, Explains (plainNext a) (next a)) :
    Explains (plain >>= plainNext) (action >>= next) := by
  intro p ast hp hran
  cases hrun : action ast with
  | ok a after =>
    obtain ⟨q, hq, hafter⟩ := h p ast hp (by rw [hrun]; rfl)
    rw [hrun] at hq hafter
    rw [bind_run_ok hrun] at hran ⊢
    obtain ⟨r, hr, hlast⟩ := hnext a q after hafter hran
    exact ⟨r, bind_ok hq hr, hlast⟩
  | error e after =>
    rw [bind_run_error hrun] at hran
    obtain ⟨q, hq, hafter⟩ := h p ast hp (by rw [hrun]; exact hran)
    rw [hrun] at hq hafter
    exact run_error (bind_run_error hrun) (bind_error hq) hafter

theorem forM {γ δ : Type} {items : List γ} {f : γ → δ} {plain : γ → Action Unit}
    {action : δ → Ast.Action Unit} (h : ∀ a ∈ items, Explains (plain a) (action (f a))) :
    Explains (items.forM plain) ((items.map f).forM action) := by
  induction items with
  | nil => exact pure _
  | cons a rest ih =>
    have hrest : Explains (rest.forM plain) ((rest.map f).forM action) :=
      ih fun b hb => h b (by simp [hb])
    exact (h a (by simp)).bind fun _ => hrest

theorem read {plain : Action α} {f : Store → Except Fault α}
    (h : ∀ p ast, p.Depicts ast → plain p (f ast.store) p) :
    Explains plain (Ast.Action.ofRead f) := by
  intro p ast hp _
  have hanswer := h p ast hp
  cases hf : f ast.store with
  | ok a => exact run_ok (Ast.Action.ofRead_ok hf) (hf ▸ hanswer) hp
  | error e => exact run_error (Ast.Action.ofRead_error hf) (hf ▸ hanswer) hp

variable {k : Kind} {id : Entity}

theorem create : Explains Plain.create Ast.create := by
  intro p ast hp _
  rcases hp.tidy.create_cases with ⟨id, s, hrun, hgranted, htidy⟩ | ⟨hfree, hfull, hrun⟩
  · have hafter := hp.granted hgranted htidy (Store.sound_create.ok hp.sound hrun)
    have hfresh : id ∉ p.live := fun hid => hgranted.not_isValid ((hp.live id).mp hid)
    have hroom : p.live.card < Entity.slotLimit := by
      have hle := hafter.card_live_le
      rw [Finset.card_insert_of_notMem hfresh] at hle
      omega
    refine run_ok (Ast.Action.ofStore_ok hrun) ?_ hafter
    unfold Plain.create
    rw [if_pos hroom]
    exact ⟨id, hfresh, rfl, rfl⟩
  · -- Without a released slot every slot there may be has a living entity.
    have hall : ast.store.slots.countP Slot.alive = ast.store.slots.length := by
      rw [List.countP_eq_length]
      intro slot hslot
      obtain ⟨i, hi⟩ := List.mem_iff_getElem?.mp hslot
      by_contra hdead
      have hmem : i ∈ ast.store.free :=
        (hp.tidy.mem_free i).mpr ⟨slot.generation, by rw [hi]; cases slot; simp_all⟩
      rw [hfree] at hmem
      cases hmem
    have hcard : ¬ p.live.card < Entity.slotLimit := by
      rw [hp.card_live, hall]
      exact hfull
    refine run_error (Ast.Action.ofStore_error hrun) ?_ (hp.recount hfull _)
    unfold Plain.create
    rw [if_neg hcard]
    exact ⟨rfl, rfl⟩

theorem destroy : Explains (Plain.destroy id) (Ast.edit (.destroy id)) := by
  intro p ast hp _
  by_cases hid : ast.store.isValid id
  · have hheld : ∀ k, k.isLink = true → ast.store.holds k id = false := by
      intro k hk
      rw [hp.sound.holds_eq, ← hp.value, hp.unlinked k hk]
      rfl
    have hrun : Store.destroy id ast.store = .ok () (ast.store.ended id) := by
      simp only [Store.destroy, hid, hheld .children rfl, hheld .parent rfl]
      rfl
    exact run_ok (Ast.Action.ofStore_ok hrun)
      (bind_ok (checkLive_ok ((hp.live id).mpr hid)) ⟨rfl, rfl⟩) (hp.ended hid)
  · have hrun : Store.destroy id ast.store = .error (.stale id) ast.store := by
      simp only [Store.destroy, hid]
      rfl
    exact run_error (Ast.Action.ofStore_error hrun)
      (bind_error (checkLive_stale fun hlive => hid ((hp.live id).mp hlive))) hp

theorem getIfHeld : Explains (Plain.getIfHeld k id) (Ast.Action.ofRead (·.get? k id)) := by
  apply read
  intro p ast hp
  by_cases hid : ast.store.isValid id
  · rw [Store.get?_of_isValid hid, ← hp.value]
    exact getIfHeld_ok ((hp.live id).mpr hid)
  · rw [Store.get?_of_not_isValid hid]
    exact getIfHeld_stale fun hlive => hid ((hp.live id).mp hlive)

theorem has : Explains (Plain.has k id) (Ast.Action.ofRead (·.has k id)) := by
  apply read
  intro p ast hp
  by_cases hid : ast.store.isValid id
  · rw [Store.has_of_isValid hid, hp.sound.holds_eq, ← hp.value]
    exact bind_ok (getIfHeld_ok ((hp.live id).mpr hid)) ⟨rfl, rfl⟩
  · rw [Store.has_of_not_isValid hid]
    exact bind_error (getIfHeld_stale fun hlive => hid ((hp.live id).mp hlive))

theorem get : Explains (Plain.get k id) (Ast.Action.ofRead (·.require k id)) := by
  apply read
  intro p ast hp
  by_cases hid : ast.store.isValid id
  · have hread := getIfHeld_ok (k := k) ((hp.live id).mpr hid)
    cases hv : ast.store.component? k id with
    | none =>
      rw [Store.require_of_lacking hid hv]
      rw [hp.value, hv] at hread
      exact bind_ok hread ⟨rfl, rfl⟩
    | some v =>
      rw [Store.require_of_held hid hv]
      rw [hp.value, hv] at hread
      exact bind_ok hread ⟨rfl, rfl⟩
  · rw [Store.require_of_not_isValid hid]
    exact bind_error (getIfHeld_stale fun hlive => hid ((hp.live id).mp hlive))

theorem count : Explains (Plain.count k) (Ast.Action.ofRead fun s => .ok (s.count k)) := by
  apply read
  intro p ast hp
  rw [← hp.count_eq]
  exact ⟨rfl, rfl⟩

theorem checkKind :
    Explains (Plain.checkKind k) (Ast.Action.ofRead fun _ => Store.checkKind k) := by
  apply read
  intro p ast _
  cases hk : k.isLink with
  | true =>
    rw [Store.checkKind_of_link hk]
    exact checkKind_link hk
  | false =>
    rw [Store.checkKind_of_not_link hk]
    exact checkKind_ok hk

theorem remove : Explains (Plain.remove k id) (Ast.Action.ofStore (Store.remove k id)) := by
  intro p ast hp _
  cases hk : k.isLink with
  | true =>
    exact run_error (Ast.Action.ofStore_error (Store.remove_of_link hk))
      (bind_error (checkKind_link hk)) hp
  | false =>
    by_cases hid : ast.store.isValid id
    · have hrun := (Store.remove_of_not_link hk).trans (Store.detach_run hid)
      rw [← hp.value] at hrun
      refine run_ok (Ast.Action.ofStore_ok hrun) ?_ (hp.withoutComponent hk)
      refine bind_ok (checkKind_ok hk) (bind_ok (getIfHeld_ok ((hp.live id).mpr hid)) ?_)
      exact bind_ok (write_run rfl) ⟨rfl, rfl⟩
    · have hrun := (Store.remove_of_not_link hk).trans (Store.detach_run_stale hid)
      have hstale : id ∉ p.live := fun hlive => hid ((hp.live id).mp hlive)
      exact run_error (Ast.Action.ofStore_error hrun)
        (bind_ok (checkKind_ok hk) (bind_error (getIfHeld_stale hstale))) hp

theorem updateIfHeld {f : k.Value → k.Value} :
    Explains (Plain.updateIfHeld k id f) (Ast.Action.ofStore (Store.update? k id f)) := by
  intro p ast hp _
  cases hk : k.isLink with
  | true =>
    exact run_error (Ast.Action.ofStore_error (Store.update?_of_link hk))
      (bind_error (checkKind_link hk)) hp
  | false =>
    by_cases hid : ast.store.isValid id
    · have hread := getIfHeld_ok (k := k) ((hp.live id).mpr hid)
      cases hv : p.value k id with
      | none =>
        rw [hv] at hread
        have hrun := Store.update?_of_lacking (f := f) hk hid (hp.value k ▸ hv)
        refine run_ok (Ast.Action.ofStore_ok hrun) ?_ hp
        exact bind_ok (checkKind_ok hk) (bind_ok hread
          (bind_ok (write_run (set_of_value hv)) ⟨rfl, rfl⟩))
      | some v =>
        rw [hv] at hread
        have hrun := Store.update?_of_held (f := f) hk hid (hp.value k ▸ hv)
        refine run_ok (Ast.Action.ofStore_ok hrun) ?_ (hp.withComponent hk hid (f v))
        exact bind_ok (checkKind_ok hk) (bind_ok hread
          (bind_ok (write_run rfl) ⟨rfl, rfl⟩))
    · have hstale : id ∉ p.live := fun hlive => hid ((hp.live id).mp hlive)
      exact run_error (Ast.Action.ofStore_error (Store.update?_of_not_isValid hk hid))
        (bind_ok (checkKind_ok hk) (bind_error (getIfHeld_stale hstale))) hp

theorem update {f : k.Value → k.Value} :
    Explains (Plain.update k id f) (Ast.Action.ofStore (Store.update k id f)) := by
  unfold Store.update
  rw [Ast.Action.ofStore_bind]
  refine updateIfHeld.bind fun found => ?_
  cases found with
  | none => exact refuse _
  | some v => exact pure v

/-- Putting a component of a link kind on is refused before. -/
theorem attach (hk : k.isLink = false) {v : k.Value} :
    Explains (Plain.attach k id v) (Ast.Action.ofStore (Store.attach k id v)) := by
  intro p ast hp _
  by_cases hid : ast.store.isValid id
  · exact run_ok (Ast.Action.ofStore_ok (Store.attach_run v hid))
      (bind_ok (checkLive_ok ((hp.live id).mpr hid)) ⟨rfl, rfl⟩) (hp.withComponent hk hid v)
  · exact run_error (Ast.Action.ofStore_error (Store.attach_run_stale v hid))
      (bind_error (checkLive_stale fun hlive => hid ((hp.live id).mp hlive))) hp

section Telling

variable {plainTell : Kind → Entity → Action Unit} {tell : Kind → Entity → Ast.Action Unit}

theorem insertTelling (htell : ∀ k id, Explains (plainTell k id) (tell k id)) {v : k.Value} :
    Explains (Plain.insertTelling plainTell k id v) (Ast.insertTelling tell k id v) := by
  cases hk : k.isLink with
  | true =>
    intro p ast hp _
    have hrun : Ast.insertTelling tell k id v ast = _ :=
      bind_run_error (Ast.Action.ofRead_error (Store.checkKind_of_link hk))
    exact run_error hrun (bind_error (checkKind_link hk)) hp
  | false =>
    refine checkKind.bind fun _ => (attach hk).bind fun _ => (htell k id).bind fun _ => ?_
    refine getIfHeld.bind fun found => ?_
    cases found with
    | none => exact refuse _
    | some left => exact pure left

theorem call (htell : ∀ k id, Explains (plainTell k id) (tell k id)) (op : Operation) :
    Explains (Plain.call plainTell op) (op.runTelling tell) := by
  cases op with
  | create => exact create
  | destroy id => exact destroy
  | insert k id v => exact insertTelling htell
  | getOrInsert k id v =>
    refine has.bind fun held => ?_
    cases held with
    | true => exact update
    | false =>
      let rest : Ast.Action k.Value := Ast.Action.ofStore (Store.update k id fun w => w)
      have hdrop : (discard (Ast.insertTelling tell k id v) >>= fun _ => rest) =
          Ast.insertTelling tell k id v >>= fun _ => rest :=
        funext fun ast => discard_bind_congr fun _ _ _ => rfl
      show Explains _ (discard (Ast.insertTelling tell k id v) >>= fun _ => rest)
      rw [hdrop]
      exact (insertTelling htell).bind fun _ => update
  | remove k id => exact remove
  | update k id f => exact update
  | updateIfHeld k id f => exact updateIfHeld
  | get k id => exact get
  | getIfHeld k id => exact getIfHeld
  | has k id => exact has
  | count k => exact count

theorem observe {k : Kind} {observer : Entity → Procedure} :
    Explains (Plain.observe k observer) (Ast.observe k fun id => (observer id).script) := by
  intro p ast hp _
  refine run_ok rfl ⟨rfl, rfl⟩ ⟨hp.sound, hp.tidy, hp.live, hp.value, hp.unlinked, ?_⟩
  show ast.observers ++ _ = _
  rw [hp.observers, List.map_append]
  rfl

/-- By induction on what the observer does. -/
theorem perform (htell : ∀ k id, Explains (plainTell k id) (tell k id)) (procedure : Procedure) :
    Explains (Plain.perform plainTell procedure) (Ast.perform tell procedure.script) := by
  induction procedure with
  | done => exact pure ()
  | fail fault => exact refuse fault
  | call op next ih =>
    show Explains _ (Ast.perform tell (op.script fun a => (next a).script))
    rw [Operation.perform_script]
    exact (call htell op).bind ih
  | observe k observer next _ ih => exact observe.bind fun _ => ih

end Telling

/-- By induction on the levels of the tree. -/
theorem tell (levels : Nat) (k : Kind) (id : Entity) :
    Explains (Plain.tell k id) (Ast.tell levels k id) := by
  induction levels generalizing k id with
  | zero =>
    intro p ast hp hran
    cases hobservers : p.observersOf k with
    | nil =>
      have hnone : ast.observersOf k = [] := by rw [hp.observersOf, hobservers, List.map_nil]
      refine run_ok (Ast.tell_of_unobserved hnone 0) ?_ hp
      rw [Plain.tell, hobservers]
      exact ⟨rfl, rfl⟩
    | cons observer rest =>
      rw [Ast.tell_zero, hp.observersOf, hobservers] at hran
      cases hran
  | succ levels ih =>
    intro p ast hp hran
    have hall : Explains ((p.observersOf k).forM fun observer => Plain.perform Plain.tell
        (observer id)) ((ast.observersOf k).forM fun observer => Ast.perform (Ast.tell levels)
        (observer id)) := by
      rw [hp.observersOf]
      exact forM fun observer _ => perform ih (observer id)
    obtain ⟨q, hq, hafter⟩ := hall p ast hp hran
    refine ⟨q, ?_, hafter⟩
    rw [Plain.tell]
    exact hq

theorem run (levels : Nat) (op : Operation) :
    Explains (Plain.call Plain.tell op) (op.run levels) := call (tell levels) op

end Explains

end Plain

/-- What is asked of a tree: an operation, or that an observer be told from now on. -/
inductive Step where
  | call (op : Operation)
  | observe (k : Kind) (observer : Entity → Procedure)

/-- An operation with the answer it was given. -/
structure Exchange where
  op : Operation
  answer : Except Fault op.Answer

/-- The answers of a tree to one step after the other, each given a number of levels, and the tree
that is left. A refused step does not stop the next. -/
def Ast.converse (levels : Nat) : List Step → Ast → List Exchange × Ast
  | [], ast => ([], ast)
  | .call op :: rest, ast =>
    let (exchanges, last) := converse levels rest (left (op.run levels ast))
    (⟨op, reply (op.run levels ast)⟩ :: exchanges, last)
  | .observe k observer :: rest, ast =>
    converse levels rest (left (Ast.observe k (fun id => (observer id).script) ast))

/-- No answer of a conversation is for want of levels. -/
def Ast.LastsOut (levels : Nat) (steps : List Step) (ast : Ast) : Prop :=
  ∀ exchange ∈ (Ast.converse levels steps ast).1, ranOut exchange.answer = false

instance (levels : Nat) (steps : List Step) (ast : Ast) :
    Decidable (Ast.LastsOut levels steps ast) :=
  inferInstanceAs (Decidable (∀ exchange ∈ _, _))

theorem Ast.lastsOut_call {levels : Nat} {op : Operation} {rest : List Step} {ast : Ast} :
    Ast.LastsOut levels (.call op :: rest) ast ↔
      ranOut (reply (op.run levels ast)) = false ∧
        Ast.LastsOut levels rest (left (op.run levels ast)) := List.forall_mem_cons

/-- A conversation that lasts out is the same with more levels. -/
theorem Ast.LastsOut.converse_of_le {levels more : Nat} (hle : levels ≤ more) {steps : List Step}
    {ast : Ast} (h : Ast.LastsOut levels steps ast) :
    Ast.converse more steps ast = Ast.converse levels steps ast := by
  induction steps generalizing ast with
  | nil => rfl
  | cons step rest ih =>
    cases step with
    | call op =>
      obtain ⟨hfirst, hrest⟩ := Ast.lastsOut_call.mp h
      unfold Ast.converse
      rw [Outlasts.run hle op ast hfirst, ih hrest]
    | observe k observer => exact ih h

/-- The answers that a plain map may give to one step after the other. -/
inductive Plain.Converses : List Step → Plain → List Exchange → Plain → Prop where
  | nil (p : Plain) : Converses [] p [] p
  | call {op : Operation} {rest : List Step} {p q r : Plain} {answer : Except Fault op.Answer}
      {exchanges : List Exchange} (h : Plain.call Plain.tell op p answer q)
      (hrest : Converses rest q exchanges r) :
      Converses (.call op :: rest) p (⟨op, answer⟩ :: exchanges) r
  | observe {k : Kind} {observer : Entity → Procedure} {rest : List Step} {p q r : Plain}
      {exchanges : List Exchange} (h : Plain.observe k observer p (.ok ()) q)
      (hrest : Converses rest q exchanges r) :
      Converses (.observe k observer :: rest) p exchanges r

namespace Plain

theorem Depicts.converses {p : Plain} {ast : Ast} (h : p.Depicts ast) {levels : Nat}
    {steps : List Step} (hlasts : Ast.LastsOut levels steps ast) :
    ∃ q, Converses steps p (ast.converse levels steps).1 q ∧
      q.Depicts (ast.converse levels steps).2 := by
  induction steps generalizing p ast with
  | nil => exact ⟨p, .nil p, h⟩
  | cons step rest ih =>
    cases step with
    | call op =>
      obtain ⟨hfirst, hrest⟩ := Ast.lastsOut_call.mp hlasts
      obtain ⟨q, hq, hafter⟩ := Explains.run levels op p ast h hfirst
      obtain ⟨r, hr, hlast⟩ := ih hafter hrest
      exact ⟨r, .call hq hr, hlast⟩
    | observe k observer =>
      obtain ⟨q, hq, hafter⟩ := Explains.observe p ast h rfl
      obtain ⟨r, hr, hlast⟩ := ih hafter hlasts
      exact ⟨r, .observe hq hr, hlast⟩

/-- Whatever is asked of a tree that starts from nothing, and whatever number of levels it is given,
as long as it does not run out of them: with more levels the answers are the same, and a plain map
that starts from nothing may give them. It then has the same living entities with the same
components, and nothing is bound to an entity that is not alive. -/
theorem converses_as_tree (levels : Nat) (steps : List Step)
    (h : Ast.LastsOut levels steps .empty) :
    (∀ more, levels ≤ more →
        Ast.converse more steps .empty = Ast.converse levels steps .empty) ∧
      ∃ p, Converses steps empty (Ast.converse levels steps .empty).1 p ∧
        (∀ id, id ∈ p.live ↔ (Ast.converse levels steps .empty).2.store.isValid id = true) ∧
        (∀ k id, p.value k id = (Ast.converse levels steps .empty).2.store.component? k id) ∧
        ∀ k id, id ∉ p.live → p.value k id = none := by
  refine ⟨fun more hle => h.converse_of_le hle, ?_⟩
  obtain ⟨p, hp, hlast⟩ := depicts_empty.converses h
  refine ⟨p, hp, hlast.live, fun k id => congrFun (hlast.value k) id, ?_⟩
  intro k id hid
  rw [hlast.value]
  exact hlast.sound.component?_of_not_isValid k fun hvalid => hid ((hlast.live id).mpr hvalid)

/-- Names are made longer by an observer that is told of each name, its own ones too. -/
def shouting : List Step :=
  let first : Entity := ⟨0, 0⟩
  [.observe .identifier fun id => .call (.get .identifier id) fun name =>
      if name.length < 3 then .call (.insert .identifier id (name ++ "!")) fun _ => .done
      else .done,
    .call .create, .call (.insert .identifier first "a"), .call (.get .identifier first),
    .call (.destroy first), .call (.has .identifier first), .call .create,
    .call (.count .identifier)]

theorem converses_as_tree_shouting :
    ¬ Ast.LastsOut 2 shouting .empty ∧ Ast.LastsOut 3 shouting .empty ∧
      Ast.converse Ast.observerLevels shouting .empty = Ast.converse 3 shouting .empty ∧
      ∃ p, Converses shouting empty (Ast.converse 3 shouting .empty).1 p ∧
        (⟨0, 1⟩ : Entity) ∈ p.live ∧ p.value .identifier ⟨0, 0⟩ = none := by
  have hlasts : Ast.LastsOut 3 shouting .empty := by decide +kernel
  obtain ⟨hmore, p, hp, hlive, -, hbare⟩ := converses_as_tree 3 shouting hlasts
  have hnew : (⟨0, 1⟩ : Entity) ∈ p.live := (hlive _).mpr (by decide +kernel)
  have hold : (⟨0, 0⟩ : Entity) ∉ p.live := fun h => absurd ((hlive _).mp h) (by decide +kernel)
  exact ⟨by decide +kernel, hlasts, hmore _ (by decide), p, hp, hnew, hbare _ _ hold⟩

end Plain

end ModuleCompiler
