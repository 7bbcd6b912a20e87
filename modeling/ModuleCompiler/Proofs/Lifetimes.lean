import ModuleCompiler.Proofs.Allocation

/-!
The lives of entities. A chronicle carries out requests as a tree does and writes down each entity
that begins and each that ends, those that observers begin and end included. From it the slots can
be told: the handles of a slot are given out in the order of their generations and end in the same
order. So, unless the generations of a slot run out, no handle is ever given out twice.
-/

namespace ModuleCompiler

/-- The beginning or the end of an entity. -/
inductive Event where
  | created (id : Entity)
  | ended (id : Entity)
  deriving DecidableEq

namespace Event

def created? : Event → Option Entity
  | .created id => some id
  | .ended _ => none

def ended? : Event → Option Entity
  | .created _ => none
  | .ended id => some id

end Event

/-- The handles that were given out, in order. -/
def beginnings (events : List Event) : List Entity := events.filterMap Event.created?

/-- The handles of the entities that ended, in order. -/
def endings (events : List Event) : List Entity := events.filterMap Event.ended?

/-- A tree and what has happened to its entities, in order. -/
structure Chronicle where
  ast : Ast
  events : List Event

namespace Chronicle

def empty : Chronicle := ⟨.empty, []⟩

abbrev Action := EStateM Fault Chronicle

/-- A request in which no entity begins or ends. -/
def Action.ofAst {α : Type} (action : Ast.Action α) : Action α := fun c =>
  match action c.ast with
  | .ok a ast => .ok a { c with ast := ast }
  | .error e ast => .error e { c with ast := ast }

/-- A request that is written down once it is carried out. -/
def Action.noting {α : Type} (action : Ast.Action α) (event : α → Event) : Action α := fun c =>
  match action c.ast with
  | .ok a ast => .ok a ⟨ast, c.events ++ [event a]⟩
  | .error e ast => .error e { c with ast := ast }

def create : Action Entity := .noting Ast.create .created

def destroy (id : Entity) : Action Unit := .noting (Ast.edit (.destroy id)) fun _ => .ended id

def destroySubtree (root : Entity) : Action Unit := do
  .ofAst (.ofStore (discard (Store.removeChild root)))
  let nodes := (← Action.ofAst (Ast.Action.ofRead (·.allDescendants root))) ++ [root]
  nodes.forM fun id => .ofAst (.ofStore (Store.removeAllChildren id))
  nodes.forM destroy

def edit : Edit → Action Unit
  | .destroy id => destroy id
  | .destroySubtree root => destroySubtree root
  | change => .ofAst (Ast.edit change)

def insertTelling (tell : Kind → Entity → Action Unit) (k : Kind) (id : Entity) (v : k.Value) :
    Action k.Value := do
  Action.ofAst (Ast.Action.ofRead fun _ => Store.checkKind k)
  Action.ofAst (.ofStore (Store.attach k id v))
  tell k id
  match ← Action.ofAst (Ast.Action.ofRead (·.get? k id)) with
  | some left => return left
  | none => throw (.lostToObserver k id)

def perform (tell : Kind → Entity → Action Unit) : Script → Action Unit
  | .done => pure ()
  | .fail fault => throw fault
  | .read next => do perform tell (next (← get).ast.store)
  | .create next => do perform tell (next (← create))
  | .insert k id v next => do
    discard (insertTelling tell k id v)
    perform tell next
  | .edit change next => do
    edit change
    perform tell next
  | .observe k observer next => do
    Action.ofAst (Ast.observe k observer)
    perform tell next

def tell : Nat → Kind → Entity → Action Unit
  | 0, k, _ => do
    if ((← get).ast.observersOf k).isEmpty then pure () else throw .observersTooDeep
  | levels + 1, k, id => do
    ((← get).ast.observersOf k).forM fun observer => perform (tell levels) (observer id)

def insert (k : Kind) (id : Entity) (v : k.Value) : Action k.Value :=
  insertTelling (tell Ast.observerLevels) k id v

def getOrInsert (k : Kind) (id : Entity) (v : k.Value) : Action k.Value := do
  if !(← Action.ofAst (Ast.Action.ofRead (·.has k id))) then discard (insert k id v)
  Action.ofAst (.ofStore (Store.update k id fun w => w))

def run : Request → Action Unit
  | .create => discard create
  | .insert k id v => discard (insert k id v)
  | .getOrInsert k id v => discard (getOrInsert k id v)
  | .edit change => edit change
  | request => .ofAst request.run

/-- The chronicle of requests that start from nothing; a refused one does not stop the next. -/
def reached (requests : List Request) : Chronicle :=
  requests.foldl (fun c request => left (run request c)) empty

end Chronicle

/-- A request to a chronicle has the outcome of a request to its tree, and keeps `I`. -/
def Follows {α : Type} (I : Store → List Event → Prop) (noted : Chronicle.Action α)
    (action : Ast.Action α) : Prop :=
  ∀ c : Chronicle, I c.ast.store c.events →
    match action c.ast with
    | .ok a ast => ∃ events, noted c = .ok a ⟨ast, events⟩ ∧ I ast.store events
    | .error e ast => ∃ events, noted c = .error e ⟨ast, events⟩ ∧ I ast.store events

namespace Follows

variable {α β : Type} {I : Store → List Event → Prop}

theorem pure (a : α) : Follows I (Pure.pure a) (Pure.pure a) := fun c hc => ⟨c.events, rfl, hc⟩

theorem throw (e : Fault) : Follows (α := α) I (throw e) (throw e) :=
  fun c hc => ⟨c.events, rfl, hc⟩

theorem bind {noted : Chronicle.Action α} {action : Ast.Action α}
    {notedNext : α → Chronicle.Action β} {next : α → Ast.Action β} (h : Follows I noted action)
    (hnext : ∀ a, Follows I (notedNext a) (next a)) :
    Follows I (noted >>= notedNext) (action >>= next) := by
  intro c hc
  have hfirst := h c hc
  rw [bind_run]
  cases hrun : action c.ast with
  | ok a ast =>
    rw [hrun] at hfirst
    obtain ⟨events, hnoted, hI⟩ := hfirst
    rw [bind_run_ok hnoted]
    exact hnext a ⟨ast, events⟩ hI
  | error e ast =>
    rw [hrun] at hfirst
    obtain ⟨events, hnoted, hI⟩ := hfirst
    exact ⟨events, bind_run_error hnoted, hI⟩

theorem get_bind {noted : Chronicle → Chronicle.Action β} {next : Ast → Ast.Action β}
    (h : ∀ c : Chronicle, Follows I (noted c) (next c.ast)) :
    Follows I (get >>= noted) (get >>= next) := fun c hc => h c c hc

theorem discard {noted : Chronicle.Action α} {action : Ast.Action α} (h : Follows I noted action) :
    Follows I (Functor.discard noted) (Functor.discard action) := by
  intro c hc
  have hrun := h c hc
  rw [discard_run, discard_run]
  cases haction : action c.ast with
  | ok a ast =>
    rw [haction] at hrun
    obtain ⟨events, hnoted, hI⟩ := hrun
    rw [hnoted]
    exact ⟨events, rfl, hI⟩
  | error e ast =>
    rw [haction] at hrun
    obtain ⟨events, hnoted, hI⟩ := hrun
    rw [hnoted]
    exact ⟨events, rfl, hI⟩

theorem forM {items : List α} {noted : α → Chronicle.Action PUnit} {action : α → Ast.Action PUnit}
    (h : ∀ a ∈ items, Follows I (noted a) (action a)) :
    Follows I (items.forM noted) (items.forM action) := by
  induction items with
  | nil => exact pure _
  | cons a rest ih =>
    have hrest := ih fun b hb => h b (by simp [hb])
    exact (h a (by simp)).bind fun _ => hrest

/-- What is left of a request is left of it in the chronicle. -/
theorem left_eq {noted : Chronicle.Action α} {action : Ast.Action α} (h : Follows I noted action)
    {c : Chronicle} (hc : I c.ast.store c.events) :
    (left (noted c)).ast = left (action c.ast) ∧
      I (left (noted c)).ast.store (left (noted c)).events := by
  have hrun := h c hc
  cases haction : action c.ast with
  | ok a ast =>
    rw [haction] at hrun
    obtain ⟨events, hnoted, hI⟩ := hrun
    rw [hnoted]
    exact ⟨rfl, hI⟩
  | error e ast =>
    rw [haction] at hrun
    obtain ⟨events, hnoted, hI⟩ := hrun
    rw [hnoted]
    exact ⟨rfl, hI⟩

end Follows

/-- What `I` says after a request that is written down once it is carried out. -/
def Noted {α : Type} (I : Store → List Event → Prop) (events : List Event) (event : α → Event) :
    EStateM.Result Fault Store α → Prop
  | .ok a s => I s (events ++ [event a])
  | .error _ s => I s events

/-- What is said about a store and the events so far stays true as entities begin and end. -/
structure Recorded (I : Store → List Event → Prop) : Prop where
  same : ∀ s t events, I s events → Store.SameSlots s t → I t events
  create : ∀ s events, I s events → Noted I events .created (Store.create s)
  destroy : ∀ s events id, I s events → Noted I events (fun _ => .ended id) (Store.destroy id s)

namespace Recorded

variable {I : Store → List Event → Prop}

/-- A request that leaves the slots alone is not written down. -/
theorem quiet {α : Type} (h : Recorded I) {action : Ast.Action α}
    (hsame : ∀ s, KeepsStore (Store.SameSlots s) (Store.SameSlots s) action) :
    Follows I (.ofAst action) action := by
  intro c hc
  have hkept := hsame c.ast.store
  unfold Chronicle.Action.ofAst
  cases hrun : action c.ast with
  | ok a ast =>
    have hast := hkept.ok (s := c.ast) (.refl _) hrun
    exact ⟨c.events, rfl, h.same _ _ _ hc hast⟩
  | error e ast =>
    have hast := hkept.error (s := c.ast) (.refl _) hrun
    exact ⟨c.events, rfl, h.same _ _ _ hc hast⟩

theorem quietStore {α : Type} (h : Recorded I) {action : Store.Action α}
    (hsame : ∀ s, Keeps (Store.SameSlots s) (Store.SameSlots s) action) :
    Follows I (.ofAst (.ofStore action)) (.ofStore action) :=
  h.quiet fun s => Stable.ofStore (hsame s)

theorem ofRead {α : Type} (h : Recorded I) (f : Store → Except Fault α) :
    Follows I (.ofAst (Ast.Action.ofRead f)) (Ast.Action.ofRead f) :=
  h.quietStore fun _ => Keeps.ofRead (fun _ hs => hs) f

theorem noting {α : Type} {action : Store.Action α} {event : α → Event}
    (h : ∀ s events, I s events → Noted I events event (action s)) :
    Follows I (.noting (.ofStore action) event) (.ofStore action) := by
  intro c hc
  have hstep := h c.ast.store c.events hc
  unfold Chronicle.Action.noting Ast.Action.ofStore
  cases hrun : action c.ast.store with
  | ok a s =>
    rw [hrun] at hstep
    exact ⟨_, rfl, hstep⟩
  | error e s =>
    rw [hrun] at hstep
    exact ⟨_, rfl, hstep⟩

theorem created (h : Recorded I) : Follows I Chronicle.create Ast.create := noting h.create

theorem ended (h : Recorded I) (id : Entity) :
    Follows I (Chronicle.destroy id) (Ast.edit (.destroy id)) :=
  noting fun s events => h.destroy s events id

theorem destroySubtree (h : Recorded I) (root : Entity) :
    Follows I (Chronicle.destroySubtree root) (Ast.edit (.destroySubtree root)) := by
  have hunfold : Ast.edit (.destroySubtree root) = (do
      Ast.Action.ofStore (discard (Store.removeChild root))
      let nodes := (← Ast.Action.ofRead (·.allDescendants root)) ++ [root]
      nodes.forM fun id => Ast.Action.ofStore (Store.removeAllChildren id)
      nodes.forM fun id => Ast.edit (.destroy id)) := by
    simp only [Ast.edit, Edit.run, Store.destroySubtree, Ast.Action.ofStore_bind,
      Ast.Action.ofStore_forM, Ast.Action.ofRead]
  rw [hunfold]
  have hpoint := Store.pointwise_sameSlots
  refine (h.quietStore fun s => ((hpoint s).links.removeChild root).discard).bind fun _ => ?_
  refine (h.ofRead _).bind fun below => ?_
  refine Follows.bind
    (Follows.forM fun id _ => h.quietStore fun s => (hpoint s).links.removeAllChildren id)
    fun _ => ?_
  exact Follows.forM fun id _ => h.ended id

theorem edit (h : Recorded I) (change : Edit) :
    Follows I (Chronicle.edit change) (Ast.edit change) := by
  have hpoint := Store.pointwise_sameSlots
  cases change with
  | destroy id => exact h.ended id
  | destroySubtree root => exact h.destroySubtree root
  | remove k id => exact h.quietStore fun s => ((hpoint s).components.remove k id).discard
  | update k id f => exact h.quietStore fun s => ((hpoint s).components.update k id f).discard
  | addChildren parent added =>
    exact h.quietStore fun s => (hpoint s).links.addChildren parent added
  | removeChildren removed => exact h.quietStore fun s => (hpoint s).links.removeChildren removed
  | removeAllChildren parent =>
    exact h.quietStore fun s => (hpoint s).links.removeAllChildren parent
  | transferChildren moved destination =>
    exact h.quietStore fun s =>
      ((hpoint s).links.removeChildren moved).bind fun _ =>
        (hpoint s).links.addChildren destination moved
  | setUnique u v =>
    have hsame : ∀ s, Keeps (Store.SameSlots s) (Store.SameSlots s) (Store.setUnique u v) :=
      fun s t ht => ⟨ht.slots, ht.free, ht.live⟩
    exact h.quietStore hsame

theorem insertTelling (h : Recorded I) {noted : Kind → Entity → Chronicle.Action Unit}
    {tell : Kind → Entity → Ast.Action Unit} (htell : ∀ k id, Follows I (noted k id) (tell k id))
    (k : Kind) (id : Entity) (v : k.Value) :
    Follows I (Chronicle.insertTelling noted k id v) (Ast.insertTelling tell k id v) := by
  have hattach := fun s => (Store.pointwise_sameSlots s).attach k id v
  refine (h.ofRead _).bind fun _ => ?_
  refine (h.quietStore hattach).bind fun _ => ?_
  refine (htell k id).bind fun _ => ?_
  refine (h.ofRead _).bind fun found => ?_
  cases found with
  | none => exact Follows.throw _
  | some left => exact Follows.pure left

theorem perform (h : Recorded I) {noted : Kind → Entity → Chronicle.Action Unit}
    {tell : Kind → Entity → Ast.Action Unit} (htell : ∀ k id, Follows I (noted k id) (tell k id))
    (script : Script) : Follows I (Chronicle.perform noted script) (Ast.perform tell script) := by
  induction script with
  | done => exact Follows.pure _
  | fail fault => exact Follows.throw fault
  | read next ih => exact Follows.get_bind fun c => ih c.ast.store
  | create next ih => exact h.created.bind ih
  | insert k id v next ih => exact (h.insertTelling htell k id v).discard.bind fun _ => ih
  | edit change next ih => exact (h.edit change).bind fun _ => ih
  | observe k observer next _ ih =>
    exact Follows.bind (fun c hc => ⟨c.events, rfl, hc⟩) fun _ => ih

theorem tell (h : Recorded I) (levels : Nat) (k : Kind) (id : Entity) :
    Follows I (Chronicle.tell levels k id) (Ast.tell levels k id) := by
  induction levels generalizing k id with
  | zero =>
    refine Follows.get_bind fun c => ?_
    split
    · exact Follows.pure _
    · exact Follows.throw _
  | succ levels ih =>
    exact Follows.get_bind fun c => Follows.forM fun observer _ => h.perform ih (observer id)

theorem getOrInsert (h : Recorded I) (k : Kind) (id : Entity) (v : k.Value) :
    Follows I (Chronicle.getOrInsert k id v) (Ast.getOrInsert k id v) := by
  have hupdate := fun s => (Store.pointwise_sameSlots s).components.update k id fun w => w
  refine (h.ofRead _).bind fun held => ?_
  dsimp only
  split
  · exact (h.insertTelling (h.tell _) k id v).discard.bind fun _ => h.quietStore hupdate
  · exact h.quietStore hupdate

theorem request (h : Recorded I) (request : Request) :
    Follows I (Chronicle.run request) request.run := by
  have hpoint := Store.pointwise_sameSlots
  cases request with
  | create => exact h.created.discard
  | insert k id v => exact (h.insertTelling (h.tell _) k id v).discard
  | getOrInsert k id v => exact (h.getOrInsert k id v).discard
  | edit change => exact h.edit change
  | updateIfHeld k id f =>
    exact h.quiet fun s => (Stable.ofStore ((hpoint s).components.update? k id f)).discard
  | addChild parent child => exact h.quietStore fun s => (hpoint s).links.addChildren parent [child]
  | removeChild child =>
    exact h.quiet fun s => (Stable.ofStore ((hpoint s).links.removeChild child)).discard
  | updateUnique u f =>
    refine h.quiet fun s => (Stable.ofStore fun t ht => ?_).discard
    unfold Store.updateUnique?
    cases t.unique? u with
    | none => exact ht
    | some v => exact ⟨ht.slots, ht.free, ht.live⟩
  | observe k observer => exact fun c hc => ⟨c.events, rfl, hc⟩
  | read f => exact h.ofRead f

end Recorded

/-- The handles of a list that name a slot. -/
def ofSlot (i : Nat) (ids : List Entity) : List Entity := ids.filter (·.index = i)

/-- How often an entity of a slot has ended. -/
def endCount (events : List Event) (i : Nat) : Nat := (ofSlot i (endings events)).length

/-- The first handles of a slot, by generation. -/
def handles (i n : Nat) : List Entity := (List.range n).map fun g => ⟨i, UInt32.ofNat g⟩

theorem handles_succ (i n : Nat) : handles i (n + 1) = handles i n ++ [⟨i, UInt32.ofNat n⟩] := by
  simp [handles, List.range_succ]

theorem mem_handles {i n : Nat} {id : Entity} :
    id ∈ handles i n ↔ ∃ g, g < n ∧ id = ⟨i, UInt32.ofNat g⟩ := by
  simp [handles, eq_comm]

theorem ofSlot_concat_self {id : Entity} {ids : List Entity} :
    ofSlot id.index (ids ++ [id]) = ofSlot id.index ids ++ [id] := by
  simp [ofSlot]

theorem ofSlot_concat_of_ne {i : Nat} {id : Entity} {ids : List Entity} (hne : i ≠ id.index) :
    ofSlot i (ids ++ [id]) = ofSlot i ids := by
  simp [ofSlot, Ne.symm hne]

theorem generation_inj {m n : Nat} (hm : m < 2 ^ 32) (hn : n < 2 ^ 32)
    (h : UInt32.ofNat m = UInt32.ofNat n) : m = n := by
  have hnat := congrArg UInt32.toNat h
  simp only [UInt32.toNat_ofNat'] at hnat
  omega

theorem nodup_handles (i : Nat) {n : Nat} (hn : n ≤ 2 ^ 32) : (handles i n).Nodup := by
  apply List.nodup_range.map_on
  intro a ha b hb hab
  rw [List.mem_range] at ha hb
  exact generation_inj (by omega) (by omega) (Entity.mk.inj hab).2

/-- A list repeats no handle if it repeats none of any slot. -/
theorem nodup_of_ofSlot {ids : List Entity} (h : ∀ i, (ofSlot i ids).Nodup) : ids.Nodup := by
  rw [List.nodup_iff_count_le_one]
  intro id
  have hcount := List.nodup_iff_count_le_one.mp (h id.index) id
  rwa [ofSlot, List.count_filter (by simp)] at hcount

/-- The number of living entities in a slot, which is one or none. -/
def occupants (s : Store) (i : Nat) : Nat :=
  match s.slots[i]? with
  | some slot => if slot.alive then 1 else 0
  | none => 0

/-- In each slot, handles were given out and have ended by generation, and the slot's generation is
the number of its entities that have ended, as far as it can be counted. -/
structure Lives (s : Store) (events : List Event) : Prop where
  created : ∀ i, ofSlot i (beginnings events) = handles i (endCount events i + occupants s i)
  ended : ∀ i, ofSlot i (endings events) = handles i (endCount events i)
  generation : ∀ i slot, s.slots[i]? = some slot →
    slot.generation = UInt32.ofNat (endCount events i)
  unused : ∀ i, s.slots[i]? = none → endCount events i = 0
  counted : s.slots.length < Entity.slotLimit →
    (beginnings events).length = (endings events).length + s.live

namespace Lives

variable {s t : Store} {events : List Event} {id : Entity}

theorem empty : Lives .empty [] := by
  constructor <;> simp [beginnings, endings, ofSlot, endCount, handles, occupants, Store.empty]

theorem same (h : Lives s events) (hsame : s.SameSlots t) : Lives t events := by
  have hoccupants : ∀ i, occupants t i = occupants s i := by
    intro i
    rw [occupants, hsame.slots, occupants]
  constructor
  · intro i
    rw [hoccupants]
    exact h.created i
  · exact h.ended
  · rw [hsame.slots]
    exact h.generation
  · rw [hsame.slots]
    exact h.unused
  · rw [hsame.slots, hsame.live]
    exact h.counted

@[simp] theorem beginnings_created :
    beginnings (events ++ [.created id]) = beginnings events ++ [id] := by
  simp [beginnings, Event.created?]

@[simp] theorem beginnings_ended : beginnings (events ++ [.ended id]) = beginnings events := by
  simp [beginnings, Event.created?]

@[simp] theorem endings_created : endings (events ++ [.created id]) = endings events := by
  simp [endings, Event.ended?]

@[simp] theorem endings_ended :
    endings (events ++ [.ended id]) = endings events ++ [id] := by
  simp [endings, Event.ended?]

@[simp] theorem endCount_created (i : Nat) :
    endCount (events ++ [.created id]) i = endCount events i := by
  simp [endCount]

theorem endCount_ended_self :
    endCount (events ++ [.ended id]) id.index = endCount events id.index + 1 := by
  simp [endCount, ofSlot_concat_self]

theorem endCount_ended_of_ne {i : Nat} (hne : i ≠ id.index) :
    endCount (events ++ [.ended id]) i = endCount events i := by
  simp [endCount, ofSlot_concat_of_ne hne]

/-- The handle with the generation of its slot is the one after those that have ended. -/
theorem generation_of_slot (h : Lives s events) {alive : Bool}
    (hslot : s.slots[id.index]? = some ⟨id.generation, alive⟩) :
    id = ⟨id.index, UInt32.ofNat (endCount events id.index)⟩ := by
  have hgeneration := h.generation id.index _ hslot
  rw [← hgeneration]

/-- A handle that is given out is the next of its slot. -/
theorem next_of_granted (h : Lives s events) (hgranted : s.Granted id t) :
    occupants s id.index = 0 ∧ id = ⟨id.index, UInt32.ofNat (endCount events id.index)⟩ := by
  rcases hgranted.before with hdead | hnew
  · refine ⟨?_, h.generation_of_slot hdead⟩
    simp [occupants, hdead]
  · have hnone : s.slots[id.index]? = none := by
      rw [hnew]
      exact List.getElem?_eq_none (Nat.le_refl _)
    refine ⟨by simp [occupants, hnone], ?_⟩
    rw [h.unused id.index hnone, hnew]
    rfl

theorem granted (h : Lives s events) (hgranted : s.Granted id t) :
    Lives t (events ++ [.created id]) := by
  obtain ⟨hvacant, hnext⟩ := h.next_of_granted hgranted
  have hself : occupants t id.index = 1 := by simp [occupants, hgranted.after]
  have hother : ∀ i, i ≠ id.index → occupants t i = occupants s i := by
    intro i hi
    simp [occupants, hgranted.after, hi]
  constructor
  · intro i
    by_cases hi : i = id.index
    · subst hi
      rw [beginnings_created, ofSlot_concat_self, h.created, hvacant, endCount_created, hself,
        Nat.add_zero, handles_succ, ← hnext]
    · rw [beginnings_created, ofSlot_concat_of_ne hi, h.created, endCount_created, hother i hi]
  · intro i
    rw [endings_created, endCount_created]
    exact h.ended i
  · intro i slot hslot
    rw [endCount_created]
    rw [hgranted.after] at hslot
    split at hslot
    · rename_i hi
      rw [hi, ← Option.some.inj hslot]
      exact congrArg Entity.generation hnext
    · exact h.generation i slot hslot
  · intro i hnone
    rw [endCount_created]
    rw [hgranted.after] at hnone
    split at hnone
    · cases hnone
    · exact h.unused i hnone
  · intro hroom
    have hlength := hgranted.length_le
    have hcount := h.counted (by omega)
    simp only [beginnings_created, endings_created, List.length_append, List.length_singleton,
      hgranted.live]
    omega

/-- An entity that ends is the last of its slot so far. -/
theorem released (h : Lives s events) (htidy : s.Tidy) (hid : s.isValid id) :
    Lives (s.ended id) (events ++ [.ended id]) := by
  have hslot := Store.isValid_iff.mp hid
  have hlast := h.generation_of_slot hslot
  have hslots : ∀ i, (s.ended id).slots[i]? = _ := Store.getElem?_slots_ended
  have hbefore : occupants s id.index = 1 := by simp [occupants, hslot]
  have hafter : occupants (s.ended id) id.index = 0 := by simp [occupants, hslots, hslot]
  have hother : ∀ i, i ≠ id.index → occupants (s.ended id) i = occupants s i := by
    intro i hi
    simp [occupants, hslots, Ne.symm hi]
  constructor
  · intro i
    by_cases hi : i = id.index
    · subst hi
      rw [beginnings_ended, h.created, hbefore, endCount_ended_self, hafter]
    · rw [beginnings_ended, h.created, endCount_ended_of_ne hi, hother i hi]
  · intro i
    by_cases hi : i = id.index
    · subst hi
      rw [endings_ended, ofSlot_concat_self, h.ended, endCount_ended_self, handles_succ, ← hlast]
    · rw [endings_ended, ofSlot_concat_of_ne hi, h.ended, endCount_ended_of_ne hi]
  · intro i slot hi
    rw [hslots, Option.map_eq_some_iff] at hi
    obtain ⟨old, hold, rfl⟩ := hi
    have hgeneration := h.generation i old hold
    split
    · rename_i hindex
      subst hindex
      rw [endCount_ended_self, UInt32.ofNat_add, ← hgeneration]
      rfl
    · rename_i hindex
      rw [endCount_ended_of_ne (Ne.symm hindex)]
      exact hgeneration
  · intro i hnone
    rw [hslots, Option.map_eq_none_iff] at hnone
    have hi : i ≠ id.index := by
      intro heq
      rw [heq, hslot] at hnone
      cases hnone
    rw [endCount_ended_of_ne hi]
    exact h.unused i hnone
  · intro hroom
    have hlength : (s.ended id).slots.length = s.slots.length := List.length_modify ..
    have hcount := h.counted (by omega)
    -- The entity that ends is counted, so the counter is not lowered from zero.
    have hpos : 0 < s.live := by
      rw [htidy.counted (by omega), List.countP_pos_iff]
      exact ⟨_, List.mem_of_getElem? hslot, rfl⟩
    have hlive : (s.ended id).live = s.live - 1 := rfl
    simp only [beginnings_ended, endings_ended, List.length_append, List.length_singleton, hlive]
    omega

theorem nodup_beginnings (h : Lives s events) (hends : ∀ i, endCount events i < 2 ^ 32) :
    (beginnings events).Nodup := by
  apply nodup_of_ofSlot
  intro i
  have hone : occupants s i ≤ 1 := by
    unfold occupants
    split
    · split <;> omega
    · omega
  have hend := hends i
  rw [h.created i]
  exact nodup_handles i (by omega)

theorem mem_ofSlot (ids : List Entity) : id ∈ ids ↔ id ∈ ofSlot id.index ids := by
  simp [ofSlot]

theorem isValid_iff (h : Lives s events) (hends : ∀ i, endCount events i < 2 ^ 32) :
    s.isValid id = true ↔ id ∈ beginnings events ∧ id ∉ endings events := by
  rw [mem_ofSlot (beginnings events), h.created, mem_ofSlot (endings events), h.ended, mem_handles,
    mem_handles,
    Store.isValid_iff]
  constructor
  · intro hslot
    have hlast := h.generation_of_slot hslot
    have hone : occupants s id.index = 1 := by simp [occupants, hslot]
    refine ⟨⟨endCount events id.index, by omega, hlast⟩, ?_⟩
    rintro ⟨g, hg, heq⟩
    have hgeneration := (Entity.mk.inj (hlast.symm.trans heq)).2
    have hend := hends id.index
    have hsame := generation_inj hend (by omega) hgeneration
    omega
  · rintro ⟨⟨g, hg, heq⟩, hnot⟩
    have hlast : g = endCount events id.index := by
      by_contra hne
      have hpast : ¬ g < endCount events id.index := fun hlt => hnot ⟨g, hlt, heq⟩
      unfold occupants at hg
      split at hg
      · split at hg <;> omega
      · omega
    unfold occupants at hg
    cases hslot : s.slots[id.index]? with
    | none =>
      rw [hslot] at hg
      simp only at hg
      omega
    | some slot =>
      rw [hslot] at hg
      obtain ⟨generation, alive⟩ := slot
      have hgeneration : generation = UInt32.ofNat (endCount events id.index) :=
        h.generation id.index _ hslot
      have hid : id.generation = UInt32.ofNat g := congrArg Entity.generation heq
      cases alive with
      | false =>
        simp only [Bool.false_eq_true, if_false] at hg
        omega
      | true => rw [hid, hgeneration, hlast]

end Lives

/-- What is known of a store and its events, which go on from `first`. -/
structure Told (first : List Event) (s : Store) (events : List Event) : Prop where
  goesOn : first <+: events
  tidy : s.Tidy
  lives : Lives s events

theorem recorded_told (first : List Event) : Recorded (Told first) where
  same _ _ _ h hsame := ⟨h.goesOn, h.tidy.same hsame, h.lives.same hsame⟩
  create s events h := by
    rcases h.tidy.create_cases with ⟨id, t, hrun, hgranted, ht⟩ | ⟨_, hfull, hrun⟩
    · rw [hrun]
      exact ⟨h.goesOn.trans (List.prefix_append ..), ht, h.lives.granted hgranted⟩
    · have htidy := (Store.tidy_create).error h.tidy hrun
      rw [hrun]
      refine ⟨h.goesOn, htidy, ?_⟩
      exact ⟨h.lives.created, h.lives.ended, h.lives.generation, h.lives.unused,
        fun hroom => absurd hroom hfull⟩
  destroy s events id h := by
    rcases s.ended_or_refused id with ⟨hid, hrun⟩ | ⟨e, hrun⟩
    · rw [hrun]
      exact ⟨h.goesOn.trans (List.prefix_append ..), h.tidy.ended hid, h.lives.released h.tidy hid⟩
    · rw [hrun]
      exact h

namespace Chronicle

/-- A chronicle carried on by requests stays beside the tree that carries them out. -/
theorem told_foldl {first : List Event} (requests : List Request) {c : Chronicle}
    (hc : Told first c.ast.store c.events) :
    (requests.foldl (fun c request => left (run request c)) c).ast =
        requests.foldl (fun ast request => request.after ast) c.ast ∧
      Told first (requests.foldl (fun c request => left (run request c)) c).ast.store
        (requests.foldl (fun c request => left (run request c)) c).events := by
  induction requests generalizing c with
  | nil => exact ⟨rfl, hc⟩
  | cons request rest ih =>
    obtain ⟨hast, htold⟩ := ((recorded_told first).request request).left_eq hc
    obtain ⟨hrest, hall⟩ := ih htold
    refine ⟨?_, hall⟩
    rw [List.foldl_cons, hrest, hast]
    rfl

theorem told_reached (requests : List Request) :
    (reached requests).ast = Ast.reached requests ∧
      Told [] (Ast.reached requests).store (reached requests).events := by
  have hempty : Told [] empty.ast.store empty.events :=
    ⟨List.prefix_refl _, Store.tidy_empty, Lives.empty⟩
  obtain ⟨hast, htold⟩ := told_foldl requests hempty
  refine ⟨hast, ?_⟩
  have hstore := congrArg Ast.store hast
  exact hstore ▸ htold

/-- What has happened is not undone. -/
theorem prefix_of_append (earlier later : List Request) :
    (reached earlier).events <+: (reached (earlier ++ later)).events := by
  obtain ⟨hast, htold⟩ := told_reached earlier
  have hstart : Told (reached earlier).events (reached earlier).ast.store
      (reached earlier).events := ⟨List.prefix_refl _, hast ▸ htold.tidy, hast ▸ htold.lives⟩
  have hrun := (told_foldl later hstart).2.goesOn
  unfold reached at hrun ⊢
  rwa [List.foldl_append]

/-- As long as there is room for another slot and no slot is released as often as there are
generations, no handle is given out twice, and the handles that are alive are those that were given
out and have not ended, for good. The released slots are exactly those without a living entity, and
the counter is the number of living entities: it is the difference of those that began and those
that ended, so it was never lowered from zero. -/
theorem handles_given_once (requests : List Request)
    (hroom : (Ast.reached requests).store.slots.length < Entity.slotLimit)
    (hends : ∀ i, endCount (reached requests).events i < 2 ^ 32) :
    (reached requests).ast = Ast.reached requests ∧
    (beginnings (reached requests).events).Nodup ∧
    (∀ id, (Ast.reached requests).store.isValid id = true ↔
      id ∈ beginnings (reached requests).events ∧ id ∉ endings (reached requests).events) ∧
    (∀ earlier later, requests = earlier ++ later →
      ∀ id ∈ endings (reached earlier).events, ¬ (Ast.reached requests).store.isValid id) ∧
    ¬ (Ast.reached requests).store.isValid Entity.none ∧
    (Ast.reached requests).store.free.Nodup ∧
    (∀ i, i ∈ (Ast.reached requests).store.free ↔
      ∃ generation, (Ast.reached requests).store.slots[i]? = some ⟨generation, false⟩) ∧
    Set.encard {id | (Ast.reached requests).store.isValid id = true} =
      (Ast.reached requests).store.live ∧
    (beginnings (reached requests).events).length =
      (endings (reached requests).events).length + (Ast.reached requests).store.live ∧
    (∀ id, id ∈ (Ast.reached requests).store.entities ↔
      (Ast.reached requests).store.isValid id = true) ∧
    ((Ast.reached requests).store.entities.Pairwise fun a b => a.index < b.index) := by
  obtain ⟨hast, htold⟩ := told_reached requests
  have hvalid : ∀ id, (Ast.reached requests).store.isValid id = true ↔ _ :=
    fun id => htold.lives.isValid_iff hends
  refine ⟨hast, htold.lives.nodup_beginnings hends, hvalid, ?_, ?_, htold.tidy.nodup,
    htold.tidy.mem_free, ?_, htold.lives.counted hroom, fun id => Store.mem_entities,
    Store.ascending_entities⟩
  · rintro earlier later rfl id hid hin
    obtain ⟨rest, hrest⟩ := prefix_of_append earlier later
    have hover : id ∈ endings (reached (earlier ++ later)).events := by
      rw [← hrest, endings, List.filterMap_append]
      exact List.mem_append_left _ hid
    exact ((hvalid id).mp hin).2 hover
  · intro hnone
    have hlt := Store.index_lt_of_isValid hnone
    have hindex : Entity.none.index = Entity.slotLimit := rfl
    omega
  · rw [Store.encard_isValid, Store.length_entities, htold.tidy.counted hroom]

theorem endCount_le (events : List Event) (i : Nat) : endCount events i ≤ events.length :=
  (List.length_filter_le ..).trans (List.length_filterMap_le ..)

/-- A run in which an observer begins and ends entities, slots are used again and the end of a
handle that is not alive is refused. -/
def mayflyRun : List Request :=
  [.create, .observe .identifier fun _ => .create fun id => .edit (.destroy id) .done,
    .insert .identifier ⟨0, 0⟩ "a", .insert .identifier ⟨0, 0⟩ "b", .edit (.destroy ⟨0, 0⟩),
    .create,
    .edit (.destroy ⟨0, 0⟩), .create]

theorem handles_given_once_mayfly :
    beginnings (reached mayflyRun).events = [⟨0, 0⟩, ⟨1, 0⟩, ⟨1, 1⟩, ⟨0, 1⟩, ⟨1, 2⟩] ∧
    endings (reached mayflyRun).events = [⟨1, 0⟩, ⟨1, 1⟩, ⟨0, 0⟩] ∧
    (∀ id, (Ast.reached mayflyRun).store.isValid id = true ↔
      id ∈ beginnings (reached mayflyRun).events ∧ id ∉ endings (reached mayflyRun).events) ∧
    Set.encard {id | (Ast.reached mayflyRun).store.isValid id = true} =
      (Ast.reached mayflyRun).store.live := by
  have hroom : (Ast.reached mayflyRun).store.slots.length < Entity.slotLimit := by decide +kernel
  have hfew : (reached mayflyRun).events.length < 2 ^ 32 := by decide +kernel
  have hends : ∀ i, endCount (reached mayflyRun).events i < 2 ^ 32 :=
    fun i => (endCount_le _ i).trans_lt hfew
  obtain ⟨_, _, hvalid, _, _, _, _, hlive, _⟩ := handles_given_once mayflyRun hroom hends
  exact ⟨by decide +kernel, by decide +kernel, hvalid, hlive⟩

end Chronicle

end ModuleCompiler
