import ModuleCompiler.Proofs.Module
import ModuleCompiler.Proofs.Operation

/-!
Stores as lists. A store in which no entity has ended yet is described by a list with one node for
each slot. A node says which components the entity of the slot holds, its parent among them; its
children need not be said, since every list of children is in the order of the slots.
-/

namespace ModuleCompiler

/-- The first entity of a slot. -/
def Entity.first (index : Nat) : Entity := ⟨index, 0⟩

@[simp] theorem Entity.index_first (i : Nat) : (first i).index = i := rfl

@[simp] theorem Entity.first_inj {i j : Nat} : first i = first j ↔ i = j := by
  simp [first]

/-- What an entity holds, its children left out. -/
abbrev Node := (k : Kind) → Option k.Value

namespace Node

variable {n : Node} {j k : Kind} {v : k.Value}

def bare : Node := fun _ => none

def put (n : Node) (k : Kind) (v : k.Value) : Node := Function.update n k (some v)

@[simp] theorem bare_apply : bare k = none := rfl

@[simp] theorem put_self : put n k v k = some v := Function.update_self ..

@[simp] theorem put_of_ne (h : j ≠ k) : put n k v j = n j := Function.update_of_ne h ..

end Node

section Picks

variable {p : Node → Bool} {o : List Node}

/-- The entities of the nodes that pass a test, where the first node stands in slot `base`. -/
def picksFrom (base : Nat) (o : List Node) (p : Node → Bool) : List Entity :=
  ((o.zipIdx base).filter (p ·.1)).map fun x => .first x.2

abbrev picks (o : List Node) (p : Node → Bool) : List Entity := picksFrom 0 o p

theorem picksFrom_append (base : Nat) (a b : List Node) :
    picksFrom base (a ++ b) p = picksFrom base a p ++ picksFrom (base + a.length) b p := by
  simp [picksFrom, List.zipIdx_append]

theorem picksFrom_cons (base : Nat) (n : Node) (o : List Node) :
    picksFrom base (n :: o) p =
      (if p n then [.first base] else []) ++ picksFrom (base + 1) o p := by
  unfold picksFrom
  rw [List.zipIdx_cons, List.filter_cons]
  split <;> rfl

theorem picksFrom_eq_nil (base : Nat) (h : ∀ n ∈ o, p n = false) : picksFrom base o p = [] := by
  induction o generalizing base with
  | nil => rfl
  | cons n o ih =>
    rw [picksFrom_cons, h n (by simp), ih _ fun m hm => h m (by simp [hm])]
    rfl

theorem mem_picks {id : Entity} :
    id ∈ picks o p ↔ ∃ i n, o[i]? = some n ∧ p n = true ∧ id = .first i := by
  simp only [picksFrom, List.mem_map, List.mem_filter, Prod.exists, List.mem_zipIdx_iff_getElem?]
  constructor
  · rintro ⟨n, i, ⟨hn, hp⟩, rfl⟩
    exact ⟨i, n, hn, hp, rfl⟩
  · rintro ⟨i, n, hn, hp, rfl⟩
    exact ⟨n, i, ⟨hn, hp⟩, rfl⟩

theorem ascending_picks : (picks o p).Pairwise fun a b => a.index < b.index := by
  unfold picks picksFrom
  rw [List.pairwise_map]
  apply List.Pairwise.filter
  rw [List.pairwise_iff_getElem]
  intro i j hi hj hij
  simpa [Entity.first] using hij

/-- What is read off the picked entities is read off their nodes. -/
theorem filterMap_picks {β : Type} {f : Entity → Option β} {g : Node → Option β}
    (h : ∀ i n, o[i]? = some n → p n = true → f (.first i) = g n) :
    (picks o p).filterMap f = (o.filter p).filterMap g := by
  have hfrom : ∀ base (l : List Node),
      (∀ i n, l[i]? = some n → p n = true → f (.first (base + i)) = g n) →
      (picksFrom base l p).filterMap f = (l.filter p).filterMap g := by
    intro base l
    induction l generalizing base with
    | nil => exact fun _ => rfl
    | cons n l ih =>
      intro hl
      have hrest := ih (base + 1) fun i m hm hp => by
        have := hl (i + 1) m hm hp
        rwa [show base + (i + 1) = base + 1 + i by omega] at this
      rw [picksFrom_cons, List.filter_cons]
      split
      · rename_i hp
        have hfirst : f (.first base) = g n := hl 0 n rfl hp
        simp only [List.cons_append, List.nil_append, List.filterMap_cons, hfirst, hrest]
      · exact hrest
  exact hfrom 0 o fun i n hn hp => by
    rw [Nat.zero_add]
    exact h i n hn hp

end Picks

/-- Every node comes after the node of its parent. -/
def ParentsFirst (o : List Node) : Prop :=
  ∀ (i : Nat) (n : Node) (parent : Entity), o[i]? = some n → n .parent = some parent →
    parent.index < i

theorem ParentsFirst.concat {o : List Node} {n : Node} (h : ParentsFirst o)
    (hn : n .parent = none) : ParentsFirst (o ++ [n]) := by
  intro i m parent hm hparent
  rw [List.getElem?_append] at hm
  split at hm
  · exact h i m parent hm hparent
  · rw [List.mem_singleton.mp (List.mem_of_getElem? hm), hn] at hparent
    cases hparent

namespace Store

/-- The store has just the entities and components that a list of nodes says. -/
structure Shows (s : Store) (o : List Node) : Prop where
  consistent : s.Consistent
  parentsFirst : ParentsFirst o
  bounded : o.length ≤ Entity.slotLimit
  slots : s.slots = List.replicate o.length ⟨0, true⟩
  free : s.free = []
  component? : ∀ i k, k ≠ .children → s.component? k (.first i) = o[i]?.bind (· k)
  ascending : ∀ id, (s.childList id).Pairwise fun a b => a.index < b.index

variable {s t : Store} {o rest : List Node} {n : Node} {k : Kind} {id parent : Entity}

theorem shows_empty : empty.Shows [] := by
  refine ⟨consistent_empty, ?_, Nat.zero_le _, rfl, rfl, ?_, ?_⟩
  · intro i n parent hn
    cases hn
  · intro i k _
    rfl
  · intro id
    exact List.Pairwise.nil

namespace Shows

theorem isValid_iff (h : s.Shows o) : s.isValid id = true ↔ ∃ i < o.length, id = .first i := by
  rw [Store.isValid_iff, h.slots, List.getElem?_replicate]
  constructor
  · intro hid
    split at hid
    · rename_i hlt
      refine ⟨id.index, hlt, ?_⟩
      obtain ⟨index, generation⟩ := id
      simp only [Option.some.injEq, Slot.mk.injEq] at hid
      simp [Entity.first, hid.1]
    · cases hid
  · rintro ⟨i, hlt, rfl⟩
    simp [Entity.first, hlt]

theorem up (h : s.Shows o) (i : Nat) : s.up (.first i) = o[i]?.bind (· .parent) :=
  h.component? i .parent nofun

theorem component?_of_node (h : s.Shows o) {i : Nat} (hn : o[i]? = some n) (hk : k ≠ .children) :
    s.component? k (.first i) = n k := by
  rw [h.component? i k hk, hn]
  rfl

theorem component?_eq_none (h : s.Shows o) (hk : k ≠ .children) (hlacks : ∀ n ∈ o, n k = none)
    (id : Entity) : s.component? k id = none := by
  by_cases hid : s.isValid id
  · obtain ⟨i, hlt, rfl⟩ := h.isValid_iff.mp hid
    rw [h.component?_of_node (List.getElem?_eq_getElem hlt) hk]
    exact hlacks _ (List.getElem_mem hlt)
  · exact h.consistent.sound.component?_of_not_isValid k hid

theorem filter_entities (h : s.Shows o) {q : Entity → Bool} {p : Node → Bool}
    (hq : ∀ i n, o[i]? = some n → q (.first i) = p n) : s.entities.filter q = picks o p := by
  apply eq_of_ascending (ascending_entities.filter _) ascending_picks
  intro id
  rw [List.mem_filter, mem_entities, h.isValid_iff, mem_picks]
  constructor
  · rintro ⟨⟨i, hlt, rfl⟩, hpass⟩
    have hn := List.getElem?_eq_getElem hlt
    exact ⟨i, _, hn, (hq i _ hn).symm.trans hpass, rfl⟩
  · rintro ⟨i, n, hn, hpass, rfl⟩
    exact ⟨⟨i, (List.getElem?_eq_some_iff.mp hn).1, rfl⟩, (hq i n hn).trans hpass⟩

theorem holds_of_node (h : s.Shows o) {i : Nat} (hn : o[i]? = some n) (hk : k ≠ .children) :
    s.holds k (.first i) = (n k).isSome := by
  rw [h.consistent.sound.holds_eq, h.component?_of_node hn hk]

theorem mem_scan (h : s.Shows o) {q : Query} (hq : ∀ k ∈ q.kinds, k ≠ .children) {i : Nat}
    (hn : o[i]? = some n) : .first i ∈ q.scan s ↔ ∀ k ∈ q.kinds, (n k).isSome = true := by
  have hvalid : s.isValid (.first i) :=
    h.isValid_iff.mpr ⟨i, (List.getElem?_eq_some_iff.mp hn).1, rfl⟩
  rw [Query.scan, List.mem_filter, mem_entities, and_iff_right hvalid, Query.holdsEach,
    List.all_eq_true]
  exact forall₂_congr fun k hk => by rw [h.holds_of_node hn (hq k hk)]

/-- The children of an entity are those that name it, by slot. -/
theorem childList_eq (h : s.Shows o) (id : Entity) :
    s.childList id = picks o fun n => decide (n .parent = some id) := by
  apply eq_of_ascending (h.ascending id) ascending_picks
  intro child
  rw [h.consistent.mem_childList, mem_picks]
  constructor
  · intro hup
    obtain ⟨i, hlt, rfl⟩ := h.isValid_iff.mp (h.consistent.sound.isValid_of_up hup)
    have hn := List.getElem?_eq_getElem hlt
    exact ⟨i, _, hn, decide_eq_true (by rw [← hup, h.up, hn]; rfl), rfl⟩
  · rintro ⟨i, n, hn, hparent, rfl⟩
    rw [h.up, hn]
    exact of_decide_eq_true hparent

theorem length_slots (h : s.Shows o) : s.slots.length = o.length := by
  rw [h.slots, List.length_replicate]

theorem create (h : s.Shows o) (hroom : o.length < Entity.slotLimit) :
    ∃ t, create s = .ok (.first o.length) t ∧ t.Shows (o ++ [.bare]) := by
  have hrun := create_new h.free (h.length_slots ▸ hroom)
  have hconsistent := stable_consistent.create.ok h.consistent hrun
  refine ⟨_, hrun.trans (by rw [h.length_slots]; rfl), hconsistent,
    h.parentsFirst.concat Node.bare_apply, by simpa using hroom, ?_, h.free, ?_, h.ascending⟩
  · simp [h.slots, List.replicate_succ']
  · intro i k hk
    refine (h.component? i k hk).trans ?_
    rw [List.getElem?_append]
    split
    · rfl
    · rename_i hge
      rw [List.getElem?_eq_none (by omega)]
      cases i - o.length <;> rfl

theorem getElem?_replace (m : Node) (i : Nat) :
    (o ++ m :: rest)[i]? = if i = o.length then some m else (o ++ n :: rest)[i]? := by
  by_cases hi : i = o.length
  · simp [hi]
  · rw [if_neg hi, List.getElem?_append, List.getElem?_append]
    split
    · rfl
    · obtain ⟨j, hj⟩ : ∃ j, i - o.length = j + 1 := ⟨i - o.length - 1, by omega⟩
      rw [hj]
      rfl

theorem isValid_last (h : s.Shows (o ++ n :: rest)) : s.isValid (.first o.length) :=
  h.isValid_iff.mpr ⟨o.length, by simp, rfl⟩

theorem component?_last (h : s.Shows (o ++ n :: rest)) (hk : k ≠ .children) :
    s.component? k (.first o.length) = n k :=
  h.component?_of_node (by simp) hk

theorem parentsFirst_put (h : ParentsFirst (o ++ n :: rest)) {v : k.Value}
    (hlink : ∀ parent, Node.put n k v .parent = some parent → parent.index < o.length) :
    ParentsFirst (o ++ Node.put n k v :: rest) := by
  intro i m parent hm hparent
  rw [getElem?_replace (n := n)] at hm
  split at hm
  · rename_i hi
    rw [← Option.some.inj hm] at hparent
    exact hi ▸ hlink parent hparent
  · exact h i m parent hm hparent

/-- A component put on the entity of one node. -/
theorem component?_put (h : s.Shows (o ++ n :: rest)) {v : k.Value}
    (hself : t.component? k = Function.update (s.component? k) (.first o.length) (some v))
    (hothers : ∀ j, j ≠ k → j ≠ .children → t.component? j = s.component? j) :
    ∀ i j, j ≠ .children →
      t.component? j (.first i) = (o ++ Node.put n k v :: rest)[i]?.bind (· j) := by
  intro i j hj
  rw [getElem?_replace (n := n)]
  by_cases hjk : j = k
  · subst hjk
    rw [hself, Function.update_apply]
    by_cases hi : i = o.length
    · simp [hi]
    · simp [hi, h.component? i j hj]
  · rw [hothers j hjk hj, h.component? i j hj]
    by_cases hi : i = o.length
    · simp [hi, hjk]
    · simp [hi]

theorem withComponent (h : s.Shows (o ++ n :: rest)) (hk : k.isLink = false) (v : k.Value) :
    (s.withComponent k (.first o.length) v).Shows (o ++ Node.put n k v :: rest) := by
  have hvalid := h.isValid_last
  have hparent : Node.put n k v .parent = n .parent := Node.put_of_ne (ne_link_of_isLink hk).1
  refine ⟨?_, ?_, by simpa using h.bounded, ?_, h.free, ?_, ?_⟩
  · exact (stable_consistent.attach k _ v hk).ok h.consistent (attach_run v hvalid)
  · apply parentsFirst_put h.parentsFirst
    intro parent hlink
    exact h.parentsFirst o.length n parent (by simp) (hparent ▸ hlink)
  · exact h.slots.trans (by simp)
  · exact h.component?_put (h.consistent.sound.component?_withComponent hvalid) fun j hj _ =>
      component?_withComponent_of_ne hj
  · intro id
    have hdown : (s.withComponent k (.first o.length) v).down = s.down :=
      component?_withComponent_of_ne (ne_link_of_isLink hk).2
    rw [childList, hdown]
    exact h.ascending id

/-- Nothing changes where there is nothing to take off. -/
theorem withoutComponent (h : s.Shows o) (hk : k.isLink = false)
    (hid : s.isValid id) (hlacks : s.component? k id = none) :
    (s.withoutComponent k id).Shows o := by
  have hsame : ∀ j, (s.withoutComponent k id).component? j = s.component? j := by
    intro j
    by_cases hj : j = k
    · subst hj
      rw [h.consistent.sound.component?_withoutComponent, ← hlacks, Function.update_eq_self]
    · exact component?_withoutComponent_of_ne hj
  have hfree : (s.withoutComponent k id).free = s.free := by
    unfold Store.withoutComponent
    split <;> rfl
  refine ⟨?_, h.parentsFirst, h.bounded, by simpa using h.slots, hfree.trans h.free, ?_, ?_⟩
  · exact (stable_consistent.detach k id hk).ok h.consistent (detach_run hid)
  · intro i j hj
    rw [hsame j]
    exact h.component? i j hj
  · intro x
    have hdown : (s.withoutComponent k id).down = s.down := hsame .children
    rw [childList, hdown]
    exact h.ascending x

theorem setUnique (h : s.Shows o) (u : Unique) (v : u.Value) :
    Store.Shows { s with uniques := s.uniques.insert u v } o :=
  ⟨stable_consistent.uniques _ _ h.consistent, h.parentsFirst, h.bounded, h.slots, h.free,
    h.component?, h.ascending⟩

/-- A later node does not stand before the entity of an earlier one in a list of children. -/
theorem index_lt_of_mem_childList (h : s.Shows (o ++ n :: rest))
    (htop : s.up (.first o.length) = none) (hrest : ∀ r ∈ rest, r .parent ≠ some parent)
    (hid : id ∈ s.childList parent) : id.index < o.length := by
  rw [h.childList_eq, mem_picks] at hid
  obtain ⟨i, m, hm, hparent, rfl⟩ := hid
  have hparent : m .parent = some parent := of_decide_eq_true hparent
  by_contra hge
  have hge : o.length ≤ i := by simpa [Entity.first] using hge
  rw [List.getElem?_append_right hge] at hm
  cases hj : i - o.length with
  | zero =>
    obtain rfl : i = o.length := by omega
    rw [h.up, List.getElem?_append_right (Nat.le_refl _), hm] at htop
    rw [show m .parent = none from htop] at hparent
    cases hparent
  | succ j =>
    rw [hj] at hm
    exact hrest m (List.mem_of_getElem? hm) hparent

/-- Whoever is found on the way up from an entity has an earlier slot. -/
theorem index_lt_of_ascent (h : s.Shows o) {test : Entity → Except Fault Bool}
    {answer : Except Fault (Option Entity)} (hascent : Ascent s test id answer) {found : Entity}
    (hfound : answer = .ok (some found)) : test found = .ok true ∧ found.index < id.index := by
  have hstep : ∀ {id parent : Entity}, s.parent? id = .ok (some parent) →
      parent.index < id.index := by
    intro id parent hparent
    obtain ⟨hid, hup⟩ := parent?_eq_ok hparent
    obtain ⟨i, hi, rfl⟩ := h.isValid_iff.mp hid
    have hn := List.getElem?_eq_getElem hi
    rw [h.up, hn] at hup
    exact h.parentsFirst i _ parent hn hup
  induction hascent with
  | refused _ => cases hfound
  | top _ => cases hfound
  | untested _ _ => cases hfound
  | found hparent htest =>
    obtain rfl := Option.some.inj (Except.ok.inj hfound)
    exact ⟨htest, hstep hparent⟩
  | further hparent _ _ ih =>
    obtain ⟨htest, hlt⟩ := ih hfound
    exact ⟨htest, hlt.trans (hstep hparent)⟩

/-- No entity is above one with an earlier slot. -/
theorem findAncestor_eq_none (h : s.Shows o) {p : Nat} (hp : p < o.length)
    (hlt : p ≤ id.index) :
    (s.findAncestor (.first p) fun ancestor => .ok (ancestor = id)) = .ok none := by
  have hascent := h.consistent.toLinked.ascent_findAncestor (.first p) fun ancestor =>
    .ok (decide (ancestor = id))
  have hvalid : s.isValid (.first p) := h.isValid_iff.mpr ⟨p, hp, rfl⟩
  obtain ⟨found, hfound⟩ :=
    h.consistent.anchored.answer_of_ascent hascent hvalid fun x _ => ⟨_, rfl⟩
  rw [hfound]
  cases found with
  | none => rfl
  | some ancestor =>
    obtain ⟨htest, habove⟩ := h.index_lt_of_ascent hascent hfound
    obtain rfl : ancestor = id := of_decide_eq_true (Except.ok.inj htest)
    rw [Entity.index_first] at habove
    omega

/-- An entity linked under an earlier one comes last among its children if no later one is there. -/
theorem addChild (h : s.Shows (o ++ n :: rest)) {p : Nat} (hp : p < o.length)
    (htop : n .parent = none) (hrest : ∀ r ∈ rest, r .parent ≠ some (.first p)) :
    ∃ t, addChildren (.first p) [.first o.length] s = .ok () t ∧
      t.Shows (o ++ Node.put n .parent (.first p) :: rest) := by
  have hsound := h.consistent.sound
  have hlength : (o ++ n :: rest).length = o.length + (rest.length + 1) := by simp
  have hparent : s.isValid (.first p) := h.isValid_iff.mpr ⟨p, by omega, rfl⟩
  have hup : s.up (.first o.length) = none := by
    rw [h.up, List.getElem?_append_right (Nat.le_refl _), Nat.sub_self]
    exact htop
  have hdone := addChild_run hparent (by simpa using hp.ne') h.isValid_last hup
    (h.findAncestor_eq_none (by omega) (by simpa using hp.le))
  refine ⟨_, hdone, ?_⟩
  have hconsistent : Store.Consistent _ :=
    (stable_consistent.addChildren (.first p) _).ok h.consistent hdone
  have hsame : SameSlots s _ :=
    ((pointwise_sameSlots s).links.addChildren (.first p) _).ok (SameSlots.refl s) hdone
  have halive : ∀ child ∈ [Entity.first o.length], s.isValid child := by
    simpa using h.isValid_last
  have hvalid : (s.adopted (.first p) [.first o.length]).isValid (.first p) := by
    simpa using hparent
  have hkept : (s.adopted (.first p) [.first o.length]).down = s.down :=
    component?_adopted_of_ne nofun
  refine ⟨hconsistent, ?_, by simpa using h.bounded, ?_, hsame.free.trans h.free, ?_, ?_⟩
  · apply parentsFirst_put h.parentsFirst
    intro parent hlink
    rw [← Option.some.inj (Node.put_self.symm.trans hlink)]
    exact hp
  · rw [hsame.slots, h.slots]
    simp
  · refine h.component?_put ?_ ?_
    · rw [component?_lengthened_of_ne (k := .parent) nofun]
      refine (up_adopted hsound halive).trans ?_
      funext x
      simp [Settled.adopt, Function.update_apply, Store.up]
    · intro j hj hchildren
      rw [component?_lengthened_of_ne hchildren, component?_adopted_of_ne hj]
  · intro x
    rw [childList, down_lengthened (hsound.adopted halive) hvalid, hkept, Function.update_apply]
    split
    · have hgrown : (Forest.lengthen [.first o.length] (s.down (.first p))).getD [] =
          s.childList (.first p) ++ [.first o.length] := by
        unfold childList
        cases s.down (.first p) <;> rfl
      rw [hgrown, List.pairwise_append]
      refine ⟨h.ascending _, List.pairwise_singleton .., ?_⟩
      intro a ha b hb
      rw [List.mem_singleton.mp hb]
      exact h.index_lt_of_mem_childList hup hrest ha
    · exact h.ascending x

end Shows

end Store

/-- The tree has the given observers, and its store is as a list of nodes says. -/
structure Ast.Shows (ast : Ast) (watch : List (Kind × Observer)) (o : List Node) : Prop where
  observers : ast.observers = watch
  store : ast.store.Shows o

/-- On a tree with the nodes `o` the request answers `a` and leaves the nodes `o'`, if there are
slots enough for them; otherwise it is refused for want of slots. -/
def Draws {α : Type} (watch : List (Kind × Observer)) (action : Ast.Action α) (o : List Node)
    (a : α) (o' : List Node) : Prop :=
  o.length ≤ o'.length ∧ ∀ ast, ast.Shows watch o →
    (o'.length ≤ Entity.slotLimit → ∃ after, action ast = .ok a after ∧ after.Shows watch o') ∧
    (Entity.slotLimit < o'.length → ∃ after, action ast = .error .slotsExhausted after)

namespace Draws

variable {α β : Type} {watch : List (Kind × Observer)} {o o' o'' rest : List Node} {n : Node}

/-- A request that takes no slot is carried out. -/
theorem of_length_eq {action : Ast.Action α} {a : α} (hlength : o'.length = o.length)
    (h : ∀ ast, ast.Shows watch o → ∃ after, action ast = .ok a after ∧ after.Shows watch o') :
    Draws watch action o a o' := by
  refine ⟨hlength.ge, fun ast hast => ⟨fun _ => h ast hast, fun hfull => ?_⟩⟩
  have := hast.store.bounded
  omega

theorem pure (a : α) : Draws watch (Pure.pure a : Ast.Action α) o a o :=
  of_length_eq rfl fun ast hast => ⟨ast, rfl, hast⟩

theorem bind {action : Ast.Action α} {next : α → Ast.Action β} {a : α} {b : β}
    (h : Draws watch action o a o') (hnext : Draws watch (next a) o' b o'') :
    Draws watch (action >>= next) o b o'' := by
  refine ⟨h.1.trans hnext.1, fun ast hast => ?_⟩
  obtain ⟨hdone, hrefused⟩ := h.2 ast hast
  by_cases hroom : o'.length ≤ Entity.slotLimit
  · obtain ⟨after, hrun, hafter⟩ := hdone hroom
    rw [bind_run_ok hrun]
    exact hnext.2 after hafter
  · -- The second part has even more nodes, so it does not matter what it would do.
    obtain ⟨after, hrun⟩ := hrefused (by omega)
    have := hnext.1
    exact ⟨fun _ => absurd ‹_› (by omega), fun _ => ⟨after, bind_run_error hrun⟩⟩

theorem discard {action : Ast.Action α} {a : α} (h : Draws watch action o a o') :
    Draws watch (Functor.discard action) o () o' :=
  h.bind (pure ())

theorem congr {action other : Ast.Action α} {a : α}
    (h : ∀ ast, ast.Shows watch o → action ast = other ast) (hother : Draws watch other o a o') :
    Draws watch action o a o' := by
  refine ⟨hother.1, fun ast hast => ?_⟩
  rw [h ast hast]
  exact hother.2 ast hast

theorem ofStore {action : Store.Action α} {a : α} (hlength : o'.length = o.length)
    (h : ∀ s, s.Shows o → ∃ t, action s = .ok a t ∧ t.Shows o') :
    Draws watch (Ast.Action.ofStore action) o a o' := by
  refine of_length_eq hlength fun ast hast => ?_
  obtain ⟨t, haction, ht⟩ := h ast.store hast.store
  exact ⟨_, Ast.Action.ofStore_ok haction, hast.observers, ht⟩

theorem ofRead {f : Store → Except Fault α} {a : α} (h : ∀ s, s.Shows o → f s = .ok a) :
    Draws watch (Ast.Action.ofRead f) o a o :=
  of_length_eq rfl fun ast hast => ⟨ast, Ast.Action.ofRead_ok (h ast.store hast.store), hast⟩

theorem create : Draws watch Ast.create o (.first o.length) (o ++ [.bare]) := by
  have hlength : (o ++ [Node.bare]).length = o.length + 1 := by simp
  refine ⟨by omega, fun ast hast => ⟨fun hroom => ?_, fun hfull => ?_⟩⟩
  · obtain ⟨t, hcreate, ht⟩ := hast.store.create (by omega)
    exact ⟨_, Ast.Action.ofStore_ok hcreate, hast.observers, ht⟩
  · have hslots := hast.store.length_slots
    exact ⟨_, Ast.Action.ofStore_error (Store.create_refused hast.store.free (by omega))⟩

theorem addChild {p : Nat} (hp : p < o.length) (htop : n .parent = none)
    (hrest : ∀ r ∈ rest, r .parent ≠ some (.first p)) :
    Draws watch (Ast.edit (.addChildren (.first p) [.first o.length])) (o ++ n :: rest) ()
      (o ++ Node.put n .parent (.first p) :: rest) :=
  ofStore (by simp) fun _ hs => hs.addChild hp htop hrest

theorem setUnique (u : Unique) (v : u.Value) :
    Draws watch (Ast.Action.ofStore (Store.setUnique u v)) o () o :=
  ofStore rfl fun _ hs => ⟨_, rfl, hs.setUnique u v⟩

/-- A component of a kind that nobody observes. -/
theorem insertTelling (k : Kind) (levels : Nat) (hk : k.isLink = false)
    (hwatch : ∀ x ∈ watch, x.1 ≠ k) (v : k.Value) :
    Draws watch (Ast.insertTelling (Ast.tell levels) k (.first o.length) v) (o ++ n :: rest) v
      (o ++ Node.put n k v :: rest) := by
  refine of_length_eq (by simp) fun ast hast => ?_
  have hunobserved : ast.observersOf k = [] := by
    rw [Ast.observersOf, hast.observers, List.filterMap_eq_nil_iff]
    intro x hx
    exact if_neg (hwatch x hx)
  exact ⟨_, Ast.insertTelling_of_unobserved levels hast.store.consistent.sound hk hunobserved
    hast.store.isValid_last v, hast.observers, hast.store.withComponent hk v⟩

theorem insert (k : Kind) (hk : k.isLink = false) (hwatch : ∀ x ∈ watch, x.1 ≠ k) (v : k.Value) :
    Draws watch (Functor.discard (Ast.insert k (.first o.length) v)) (o ++ n :: rest) ()
      (o ++ Node.put n k v :: rest) :=
  discard (insertTelling k _ hk hwatch v)

end Draws

end ModuleCompiler
