import ModuleCompiler.Proofs.ProjectHeader

/-!
What a loaded project holds. The entities of its store are those of the primitive types, one for
each module, and one block for each type: the type, its members, and its functions, each followed
by its parameters. Every entity has the components that its entry in a file says and no others, and
the lists of children are in the order of the files.
-/

namespace ModuleCompiler

/-- An entity that has just what a node says. -/
def Store.IsNode (s : Store) (id : Entity) (n : Node) : Prop :=
  ∀ k, k ≠ .children → s.get? k id = .ok (n k)

theorem Store.IsNode.isValid {s : Store} {id : Entity} {n : Node} (h : s.IsNode id n) :
    s.isValid id = true :=
  (Store.get?_eq_ok (h .identifier nofun)).1

/-- An entity that has just what a node says, wherever it is linked. -/
def Store.IsLikeNode (s : Store) (id : Entity) (n : Node) : Prop :=
  ∀ k, k ≠ .children → k ≠ .parent → s.get? k id = .ok (n k)

/-- The entities of a type and of what lies below it; each function comes with its parameters. -/
structure TypePlace where
  type : Entity
  members : List Entity
  functions : List (Entity × List Entity)

def TypePlace.all (p : TypePlace) : List Entity :=
  p.type :: (p.members ++ p.functions.flatMap fun f => f.1 :: f.2)

namespace Project

/-- A function of a type, as its entry in a file says. -/
structure HoldsFunction (s : Store) (type : Entity) (f : FunctionEntry)
    (p : Entity × List Entity) : Prop where
  isFunction : s.IsNode p.1 (functionNode type f)
  children : s.children p.1 = .ok p.2
  parameters : List.Forall₂ (fun x id => s.IsNode id (parameterNode p.1 x)) f.parameters p.2

/-- A type, as its file says. -/
structure HoldsType (s : Store) (x : Path × TypeDescription) (p : TypePlace) : Prop where
  isType : s.IsLikeNode p.type (typeNode x.1 x.2)
  children : s.children p.type = .ok (p.members ++ p.functions.map Prod.fst)
  members : List.Forall₂ (fun name id => s.IsNode id (variableNode p.type name)) x.2.members
    p.members
  functions : List.Forall₂ (HoldsFunction s p.type) x.2.functions p.functions

/-- A store with the primitive types, some modules and some types, and nothing else. -/
def Contents (s : Store) (modules : List (Path × ModuleDescription))
    (types : List (Path × TypeDescription)) : Prop :=
  ∃ (primitiveIds moduleIds : List Entity) (places : List TypePlace),
    s.entities = primitiveIds ++ moduleIds ++ places.flatMap TypePlace.all ∧
    List.Forall₂ (fun p id => s.IsNode id (primitiveNode p)) Primitive.all primitiveIds ∧
    List.Forall₂ (fun x id => s.IsLikeNode id (moduleNode x.1 x.2)) modules moduleIds ∧
    List.Forall₂ (HoldsType s) types places

/-- The first entities of so many slots. -/
def slotsFrom (base count : Nat) : List Entity := (List.range' base count).map .first

theorem slotsFrom_succ (base count : Nat) :
    slotsFrom base (count + 1) = .first base :: slotsFrom (base + 1) count := by
  rw [slotsFrom, List.range'_succ]
  rfl

theorem slotsFrom_append (base m n : Nat) :
    slotsFrom base (m + n) = slotsFrom base m ++ slotsFrom (base + m) n := by
  rw [slotsFrom, slotsFrom, slotsFrom, ← List.map_append, List.range'_append_1]

theorem mem_slotsFrom {base count : Nat} {id : Entity} :
    id ∈ slotsFrom base count ↔ ∃ i, base ≤ i ∧ i < base + count ∧ id = .first i := by
  simp only [slotsFrom, List.mem_map, List.mem_range'_1, eq_comm, and_assoc]

theorem ascending_slotsFrom (base count : Nat) :
    (slotsFrom base count).Pairwise fun a b => a.index < b.index :=
  List.pairwise_map.mpr List.pairwise_lt_range'

theorem entities_of_shows {s : Store} {o : List Node} (h : s.Shows o) :
    s.entities = slotsFrom 0 o.length := by
  apply Store.eq_of_ascending Store.ascending_entities (ascending_slotsFrom _ _)
  intro id
  rw [Store.mem_entities, h.isValid_iff, mem_slotsFrom]
  simp

theorem forall₂_slotsFrom {α : Type} {R : α → Entity → Prop} {l : List α} {base : Nat}
    (h : ∀ i a, l[i]? = some a → R a (.first (base + i))) :
    List.Forall₂ R l (slotsFrom base l.length) := by
  induction l generalizing base with
  | nil => exact .nil
  | cons a l ih =>
    rw [List.length_cons, slotsFrom_succ]
    refine .cons (h 0 a rfl) (ih fun i b hb => ?_)
    rw [show base + 1 + i = base + (i + 1) by omega]
    exact h (i + 1) b hb

/-- Functions in the slots from `base` on. -/
def functionPlaces : Nat → List FunctionEntry → List (Entity × List Entity)
  | _, [] => []
  | base, f :: fs =>
    (.first base, slotsFrom (base + 1) f.parameters.length) ::
      functionPlaces (base + (f.parameters.length + 1)) fs

/-- The type in slot `base`. -/
def typePlace (base : Nat) (t : TypeDescription) : TypePlace where
  type := .first base
  members := slotsFrom (base + 1) t.members.length
  functions := functionPlaces (base + (t.members.length + 1)) t.functions

variable {owner : Path → Entity} {type : Entity} {base : Nat} {fs : List FunctionEntry}
  {t : TypeDescription} {types : List (Path × TypeDescription)} {y : Nat × Path × TypeDescription}

theorem length_functionBlock (type : Entity) (base : Nat) (f : FunctionEntry) :
    (functionBlock type base f).length = f.parameters.length + 1 := by
  simp [functionBlock]

theorem flatMap_functionPlaces (type : Entity) (base : Nat) (fs : List FunctionEntry) :
    (functionPlaces base fs).flatMap (fun f => f.1 :: f.2) =
      slotsFrom base (functionBlocks type base fs).length := by
  induction fs generalizing base with
  | nil => rfl
  | cons f fs ih =>
    rw [functionPlaces, List.flatMap_cons, ih, functionBlocks, List.length_append,
      length_functionBlock, slotsFrom_append, slotsFrom_succ]

theorem all_typePlace (owner : Path → Entity) (base : Nat) (x : Path × TypeDescription) :
    (typePlace base x.2).all = slotsFrom base (typeBlock owner base x).length := by
  rw [TypePlace.all, typePlace, flatMap_functionPlaces (.first base), typeBlock, List.length_cons,
    slotsFrom_succ, typeContents, List.length_append, List.length_map, slotsFrom_append]
  rw [show base + (x.2.members.length + 1) = base + 1 + x.2.members.length by omega]

theorem flatMap_typeSlots (owner : Path → Entity) (base : Nat)
    (types : List (Path × TypeDescription)) :
    ((typeSlots owner base types).map fun y => typePlace y.1 y.2.2).flatMap TypePlace.all =
      slotsFrom base (typeBlocks owner base types).length := by
  induction types generalizing base with
  | nil => rfl
  | cons x types ih =>
    rw [typeSlots, List.map_cons, List.flatMap_cons, ih, all_typePlace owner, typeBlocks,
      List.length_append, slotsFrom_append]

theorem index_of_mem_functionPlaces {p : Entity × List Entity} (type : Entity)
    (h : p ∈ functionPlaces base fs) :
    base ≤ p.1.index ∧ p.1.index < base + (functionBlocks type base fs).length := by
  induction fs generalizing base with
  | nil => cases h
  | cons f fs ih =>
    rw [functionBlocks, List.length_append, length_functionBlock]
    rcases List.mem_cons.mp h with rfl | h
    · rw [Entity.index_first]
      omega
    · have := ih h
      omega

/-- The entities of the slots from `base` on have what nodes say. -/
def Carries (s : Store) (base : Nat) (o : List Node) : Prop :=
  ∀ i n, o[i]? = some n → s.IsNode (.first (base + i)) n

section Carries

variable {s : Store} {a b o : List Node} {n : Node}

theorem carries_of_shows (h : s.Shows o) : Carries s 0 o := by
  intro i n hn k hk
  have hvalid : s.isValid (.first i) :=
    h.isValid_iff.mpr ⟨i, (List.getElem?_eq_some_iff.mp hn).1, rfl⟩
  rw [Nat.zero_add, Store.get?_of_isValid hvalid, h.component?_of_node hn hk]

theorem Carries.left (h : Carries s base (a ++ b)) : Carries s base a := by
  intro i n hn
  apply h i n
  rw [List.getElem?_append_left (List.getElem?_eq_some_iff.mp hn).1]
  exact hn

theorem Carries.right (h : Carries s base (a ++ b)) : Carries s (base + a.length) b := by
  intro i n hn
  rw [Nat.add_assoc]
  apply h (a.length + i) n
  rw [List.getElem?_append_right (Nat.le_add_right _ _), Nat.add_sub_cancel_left]
  exact hn

theorem Carries.head (h : Carries s base (n :: o)) : s.IsNode (.first base) n := h 0 n rfl

theorem Carries.tail (h : Carries s base (n :: o)) : Carries s (base + 1) o := by
  rw [← List.singleton_append] at h
  exact h.right

theorem Carries.forall₂ {α : Type} {node : α → Node} {l : List α}
    (h : Carries s base (l.map node)) :
    List.Forall₂ (fun a id => s.IsNode id (node a)) l (slotsFrom base l.length) := by
  apply forall₂_slotsFrom
  intro i a ha
  apply h i
  rw [List.getElem?_map, ha]
  rfl

/-- Functions hold what their entries say, where the children of each are its parameters. -/
theorem Carries.functions (h : Carries s base (functionBlocks type base fs))
    (hchildren : ∀ p ∈ functionPlaces base fs, s.isValid p.1 → s.children p.1 = .ok p.2) :
    List.Forall₂ (HoldsFunction s type) fs (functionPlaces base fs) := by
  induction fs generalizing base with
  | nil => exact .nil
  | cons f fs ih =>
    rw [functionBlocks] at h
    have hblock : Carries s base (functionNode type f :: _) := h.left
    have hrest := h.right
    rw [length_functionBlock] at hrest
    rw [functionPlaces] at hchildren ⊢
    refine .cons ⟨hblock.head, ?_, hblock.tail.forall₂⟩
      (ih hrest fun p hp => hchildren p (List.mem_cons_of_mem _ hp))
    exact hchildren _ List.mem_cons_self hblock.head.isValid

/-- The block of a type is carried where its slot is. -/
theorem Carries.typeBlock (h : Carries s base (typeBlocks owner base types))
    (hy : y ∈ typeSlots owner base types) : Carries s y.1 (typeBlock owner y.1 y.2) := by
  induction types generalizing base with
  | nil => cases hy
  | cons x types ih =>
    rw [typeBlocks] at h
    rcases List.mem_cons.mp hy with rfl | hy
    · exact h.left
    · exact ih h.right hy

end Carries

/-- The slots from `base` on whose nodes name an entity as their parent. -/
abbrev under (base : Nat) (o : List Node) (id : Entity) : List Entity :=
  picksFrom base o fun n => decide (n .parent = some id)

section Under

variable {o : List Node} {id : Entity}

theorem under_eq_nil (h : ∀ n ∈ o, n .parent ≠ some id) : under base o id = [] :=
  picksFrom_eq_nil base fun n hn => decide_eq_false (h n hn)

theorem under_eq_all (h : ∀ n ∈ o, n .parent = some id) :
    under base o id = slotsFrom base o.length := by
  induction o generalizing base with
  | nil => rfl
  | cons n o ih =>
    rw [under, picksFrom_cons, if_pos (decide_eq_true (h n List.mem_cons_self)), List.length_cons,
      slotsFrom_succ, List.singleton_append]
    exact congrArg _ (ih fun m hm => h m (List.mem_cons_of_mem _ hm))

theorem under_functionBlock (f : FunctionEntry) (id : Entity) (htype : type ≠ .first base) :
    under base (functionBlock type base f) id =
      if id = type then [.first base]
      else if id = .first base then slotsFrom (base + 1) f.parameters.length else [] := by
  have hfunction : functionNode type f .parent = some type := by simp [functionNode]
  have hparameter : ∀ n ∈ f.parameters.map (parameterNode (.first base)),
      n .parent = some (.first base) := by
    intro n hn
    obtain ⟨p, -, rfl⟩ := List.mem_map.mp hn
    simp [parameterNode]
  have hparameters : ∀ other, other ≠ .first base →
      under (base + 1) (f.parameters.map (parameterNode (.first base))) other = [] := by
    intro other hother
    apply under_eq_nil
    intro n hn hparent
    rw [hparameter n hn] at hparent
    exact hother (Option.some.inj hparent).symm
  rw [under, functionBlock, picksFrom_cons, hfunction]
  by_cases hid : id = type
  · subst hid
    rw [if_pos (decide_eq_true rfl), if_pos rfl]
    exact congrArg _ (hparameters id htype)
  · rw [if_neg (by simpa using Ne.symm hid), if_neg hid, List.nil_append]
    by_cases hself : id = .first base
    · have hall : under (base + 1) (f.parameters.map (parameterNode (.first base)))
          (.first base) = _ := under_eq_all hparameter
      rw [if_pos hself, hself]
      simpa using hall
    · rw [if_neg hself]
      exact hparameters id hself

theorem under_functionBlocks_type (h : type.index < base) :
    under base (functionBlocks type base fs) type = (functionPlaces base fs).map Prod.fst := by
  induction fs generalizing base with
  | nil => rfl
  | cons f fs ih =>
    have hne : type ≠ .first base := by
      rintro rfl
      exact Nat.lt_irrefl _ h
    have hblock := under_functionBlock f type hne
    rw [if_pos rfl] at hblock
    have hnext : type.index < base + (f.parameters.length + 1) := by omega
    rw [under, functionBlocks, picksFrom_append, length_functionBlock]
    exact congrArg₂ _ hblock (ih hnext)

/-- The children of a function are its parameters. -/
theorem under_functionBlocks_function {p : Entity × List Entity} (h : type.index < base)
    (hp : p ∈ functionPlaces base fs) : under base (functionBlocks type base fs) p.1 = p.2 := by
  induction fs generalizing base with
  | nil => cases hp
  | cons f fs ih =>
    have hne : type ≠ .first base := by
      rintro rfl
      exact Nat.lt_irrefl _ h
    rw [under, functionBlocks, picksFrom_append, length_functionBlock]
    rcases List.mem_cons.mp hp with rfl | hp
    · have hblock := under_functionBlock f (.first base) hne
      rw [if_neg hne.symm, if_pos rfl] at hblock
      have hrest : under (base + (f.parameters.length + 1))
          (functionBlocks type (base + (f.parameters.length + 1)) fs) (.first base) = [] := by
        apply under_eq_nil
        intro n hn hparent
        rcases parent_of_mem_functionBlocks hn hparent with htype | ⟨hle, -⟩
        · exact hne htype.symm
        · rw [Entity.index_first] at hle
          omega
      rw [show picksFrom base _ _ = _ from hblock, show picksFrom _ _ _ = [] from hrest,
        List.append_nil]
    · have hlater := (index_of_mem_functionPlaces type hp).1
      have hblock := under_functionBlock f p.1 hne
      rw [if_neg fun heq => by rw [heq] at hlater; omega,
        if_neg fun heq => by rw [heq, Entity.index_first] at hlater; omega] at hblock
      rw [show picksFrom base _ _ = [] from hblock, List.nil_append]
      exact ih (by omega) hp

theorem under_variables (slot : Nat) (t : TypeDescription) (id : Entity) :
    under base (t.members.map (variableNode (.first slot))) id =
      if id = .first slot then slotsFrom base t.members.length else [] := by
  have hparent : ∀ n ∈ t.members.map (variableNode (.first slot)),
      n .parent = some (.first slot) := by
    intro n hn
    obtain ⟨name, -, rfl⟩ := List.mem_map.mp hn
    simp [variableNode]
  split
  · rename_i hid
    have hall : under base (t.members.map (variableNode (.first slot))) (.first slot) = _ :=
      under_eq_all hparent
    rw [hid]
    simpa using hall
  · rename_i hid
    apply under_eq_nil
    intro n hn hother
    rw [hparent n hn] at hother
    exact hid (Option.some.inj hother).symm

theorem under_typeContents (slot : Nat) (t : TypeDescription) (id : Entity) :
    under (slot + 1) (typeContents slot t) id =
      (if id = .first slot then (typePlace slot t).members else []) ++
        under (slot + (t.members.length + 1))
          (functionBlocks (.first slot) (slot + (t.members.length + 1)) t.functions) id := by
  rw [under, typeContents, picksFrom_append, List.length_map]
  rw [show slot + 1 + t.members.length = slot + (t.members.length + 1) by omega]
  exact congrArg (· ++ _) (under_variables slot t id)

/-- The children of a type are its members and then its functions. -/
theorem under_typeContents_type (slot : Nat) (t : TypeDescription) :
    under (slot + 1) (typeContents slot t) (.first slot) =
      (typePlace slot t).members ++ (typePlace slot t).functions.map Prod.fst := by
  rw [under_typeContents, if_pos rfl, under_functionBlocks_type (by simp)]
  rfl

theorem under_typeContents_function {slot : Nat} {p : Entity × List Entity}
    (hp : p ∈ (typePlace slot t).functions) : under (slot + 1) (typeContents slot t) p.1 = p.2 := by
  have hlater := (index_of_mem_functionPlaces (.first slot) hp).1
  rw [under_typeContents, if_neg fun heq => by rw [heq, Entity.index_first] at hlater; omega,
    List.nil_append, under_functionBlocks_function (by simp) hp]

/-- Nothing of another block lies below an entity of the block of a type. -/
theorem under_typeBlocks (hy : y ∈ typeSlots owner base types)
    (howner : ∀ file, (owner file).index < base) (hfirst : y.1 ≤ id.index)
    (hlast : id.index < y.1 + (typeBlock owner y.1 y.2).length) :
    under base (typeBlocks owner base types) id =
      under (y.1 + 1) (typeContents y.1 y.2.2) id := by
  induction types generalizing base with
  | nil => cases hy
  | cons x types ih =>
    have hle := le_of_mem_typeSlots hy
    have hlinked : ∀ file, owner file ≠ id := by
      intro file heq
      have hlt := howner file
      rw [heq] at hlt
      omega
    have hblock : under base (typeBlock owner base x) id =
        under (base + 1) (typeContents base x.2) id := by
      rw [under, typeBlock, picksFrom_cons, Node.put_self,
        if_neg (by simpa using hlinked x.1), List.nil_append]
    rw [under, typeBlocks, picksFrom_append, show picksFrom base _ _ = _ from hblock]
    rcases List.mem_cons.mp hy with rfl | hy
    · have hrest : under (base + (typeBlock owner base x).length)
          (typeBlocks owner (base + (typeBlock owner base x).length) types) id = [] := by
        apply under_eq_nil
        intro n hn hparent
        rcases parent_of_mem_typeBlocks hn hparent with ⟨file, heq⟩ | hlater
        · exact hlinked file heq.symm
        · exact absurd hlast (by simpa using hlater)
      rw [show picksFrom (base + _) _ _ = [] from hrest, List.append_nil]
    · have hnext := le_of_mem_typeSlots hy
      have hnone : under (base + 1) (typeContents base x.2) id = [] := by
        apply under_eq_nil
        intro n hn hparent
        have hlt := (parent_of_mem_typeContents hn hparent).2
        rw [typeBlock, List.length_cons] at hnext
        omega
      rw [hnone, List.nil_append]
      exact ih hy fun file => by
        have := howner file
        omega

end Under

namespace Loaded

variable {d : Disk} {projectFile : Path} {files : List Path} {modules : List Node} {s : Store}
  {id : Entity}

variable (h : Loaded d projectFile files modules types s)
include h

theorem carries : Carries s 0 (projectNodes projectFile files modules types) :=
  carries_of_shows h.shows

theorem carries_typeBlock (hy : y ∈ projectTypes projectFile files modules types) :
    Carries s y.1 (typeBlock (ownerOf projectFile files) y.1 y.2) := by
  have hblocks := h.carries.right
  rw [List.length_append, Nat.zero_add] at hblocks
  exact hblocks.typeBlock hy

/-- The children of an entity that belongs to the block of a type. -/
theorem children_of_block (hy : y ∈ projectTypes projectFile files modules types)
    (hfirst : y.1 ≤ id.index)
    (hlast : id.index < y.1 + (typeBlock (ownerOf projectFile files) y.1 y.2).length)
    (hid : s.isValid id) : s.children id = .ok (under (y.1 + 1) (typeContents y.1 y.2.2) id) := by
  have hle : typeStart modules ≤ y.1 := le_of_mem_typeSlots hy
  have hbefore : under 0 (primitiveNodes ++ modules) id = [] := by
    apply under_eq_nil
    intro n hn hparent
    rcases List.mem_append.mp hn with hn | hn
    · rw [lacks_primitiveNodes hn (by decide)] at hparent
      cases hparent
    · obtain ⟨i, hi⟩ := List.mem_iff_getElem?.mp hn
      obtain ⟨file, -, hmodule⟩ := h.isModuleNode hi
      have := hmodule.parent_lt hparent
      omega
  have hblocks := under_typeBlocks hy h.owner_lt hfirst hlast
  have hunder : under 0 (projectNodes projectFile files modules types) id =
      under (y.1 + 1) (typeContents y.1 y.2.2) id := by
    rw [under, projectNodes, picksFrom_append, show picksFrom 0 _ _ = [] from hbefore,
      List.nil_append, Nat.zero_add, List.length_append]
    exact hblocks
  rw [Store.children_of_isValid hid, h.shows.childList_eq]
  exact congrArg Except.ok hunder

theorem holdsType (hy : y ∈ projectTypes projectFile files modules types) :
    HoldsType s y.2 (typePlace y.1 y.2.2) := by
  have hblock := h.carries_typeBlock hy
  have hcontents : Carries s (y.1 + 1) (typeContents y.1 y.2.2) := hblock.tail
  have hfunctions := hcontents.right
  rw [List.length_map, show y.1 + 1 + y.2.2.members.length = y.1 + (y.2.2.members.length + 1) by
    omega] at hfunctions
  have hlength : (typeBlock (ownerOf projectFile files) y.1 y.2).length =
      y.2.2.members.length + 1 + (functionBlocks (.first y.1) (y.1 + (y.2.2.members.length + 1))
        y.2.2.functions).length := by
    rw [typeBlock, List.length_cons, typeContents, List.length_append, List.length_map]
    omega
  refine ⟨?_, ?_, hcontents.left.forall₂, ?_⟩
  · intro k hchildren hparent
    rw [show s.get? k (typePlace y.1 y.2.2).type = _ from hblock.head k hchildren,
      Node.put_of_ne hparent]
  · have hlast : (Entity.first y.1).index <
        y.1 + (typeBlock (ownerOf projectFile files) y.1 y.2).length := by
      rw [Entity.index_first, hlength]
      omega
    rw [← under_typeContents_type]
    exact h.children_of_block hy (Nat.le_refl _) hlast hblock.head.isValid
  · refine hfunctions.functions fun p hp hvalid => ?_
    have hindex := index_of_mem_functionPlaces (.first y.1) hp
    rw [h.children_of_block hy (by omega) (by omega) hvalid, under_typeContents_function hp]

/-- A loaded project holds what its files say. -/
theorem contents {described : List (Path × ModuleDescription)}
    (hfiles : described.map Prod.fst = allModuleFiles projectFile files)
    (hdescribed : ∀ x ∈ described, describeModule d x.1 = .ok x.2) :
    Contents s described types := by
  have hmodules := h.carries.left.right
  rw [Nat.zero_add] at hmodules
  have hlength : modules.length = described.length := by
    rw [← h.isModule.length_eq, ← hfiles, List.length_map]
  refine ⟨slotsFrom 0 primitiveNodes.length, slotsFrom primitiveNodes.length described.length,
    (projectTypes projectFile files modules types).map fun y => typePlace y.1 y.2.2, ?_, ?_, ?_, ?_⟩
  · rw [entities_of_shows h.shows, projectTypes, flatMap_typeSlots, projectNodes,
      List.length_append, List.length_append, slotsFrom_append, slotsFrom_append, ← hlength,
      Nat.zero_add, Nat.zero_add, typeStart]
  · exact h.carries.left.left.forall₂
  · apply forall₂_slotsFrom
    intro i x hx k hchildren hparent
    have hi : i < modules.length := hlength ▸ (List.getElem?_eq_some_iff.mp hx).1
    have hnode := List.getElem?_eq_getElem hi
    obtain ⟨file, hfile, m, hm, hlinked⟩ := h.isModuleNode hnode
    obtain rfl : x.1 = file := by
      rw [← hfiles, List.getElem?_map, hx] at hfile
      exact Option.some.inj hfile
    obtain rfl : x.2 = m :=
      Except.ok.inj ((hdescribed x (List.mem_of_getElem? hx)).symm.trans hm)
    rw [hmodules i _ hnode k hchildren]
    rcases hlinked with heq | ⟨owner, -, heq⟩
    · rw [heq]
    · rw [heq, Node.put_of_ne hparent]
  · have htypes : types = (projectTypes projectFile files modules types).map Prod.snd :=
      map_typeSlots.symm
    nth_rewrite 1 [htypes]
    rw [List.forall₂_map_left_iff, List.forall₂_map_right_iff, List.forall₂_same]
    exact fun y hy => h.holdsType hy

end Loaded

end Project

end ModuleCompiler
