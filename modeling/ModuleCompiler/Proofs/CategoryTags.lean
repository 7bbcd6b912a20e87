import ModuleCompiler.Proofs.ProjectHeader

/-!
The tags of types. While a project is loaded and ever after, the observer of types sees to it that
a type has the tag of its category and no other. That an entity which is no type any more keeps its
tag does no harm: the next type to be put on it takes the old tags off first. So as long as nothing
but the observer touches the tags, and types are put on and taken off but never changed in place,
every type is declared once in the header of its module, in the place of its current category.
-/

namespace ModuleCompiler

/-- The tag of the types of a category. -/
def TypeCategory.tag : TypeCategory → Kind
  | .classType => .classTag
  | .structType => .structTag
  | .functionLibrary => .libraryTag

/-- The component that the tag of a category is. -/
def TypeCategory.mark : (c : TypeCategory) → c.tag.Value
  | .classType => ()
  | .structType => ()
  | .functionLibrary => ()

def Kind.isTypeTag (k : Kind) : Bool := k = .classTag || k = .structTag || k = .libraryTag

/-- Whether a kind is that of types or a tag of theirs. -/
def Kind.isLabel (k : Kind) : Bool := k = .typeInfo || k.isTypeTag

theorem TypeCategory.isTypeTag_tag (c : TypeCategory) : c.tag.isTypeTag = true := by
  cases c <;> rfl

theorem TypeCategory.isLink_tag (c : TypeCategory) : c.tag.isLink = false := by
  cases c <;> rfl

theorem TypeCategory.tag_inj {c c' : TypeCategory} : c.tag = c'.tag ↔ c = c' := by
  cases c <;> cases c' <;> decide

theorem TypeCategory.tag_ne {k : Kind} (h : k.isTypeTag = false) (c : TypeCategory) :
    c.tag ≠ k := by
  rintro rfl
  rw [c.isTypeTag_tag] at h
  cases h

theorem Kind.isLabel_eq_false {k : Kind} :
    k.isLabel = false ↔ k ≠ .typeInfo ∧ k.isTypeTag = false := by
  simp [isLabel]

/-- The edit touches no tag of a type, and does not change a type in place. -/
def Edit.sparesTags : Edit → Bool
  | .remove k _ => !k.isTypeTag
  | .update k _ _ => !k.isLabel
  | _ => true

/-- The request touches no tag of a type, does not change a type in place, and adds no observer. -/
def Request.sparesTags : Request → Bool
  | .insert k _ _ => !k.isTypeTag
  | .getOrInsert k _ _ => !k.isLabel
  | .updateIfHeld k _ _ => !k.isLabel
  | .edit change => change.sparesTags
  | .observe _ _ => false
  | _ => true

namespace Store

variable {s t : Store} {k : Kind} {id : Entity}

/-- Every type has the tag of its category, and no other. -/
structure Labelled (s : Store) : Prop where
  sound : s.Sound
  tag : ∀ id info, s.component? .typeInfo id = some info →
    ∀ c : TypeCategory, (s.component? c.tag id).isSome = decide (c = info.category)

/-- Every type of `t` was one in `s`, with the tags it has now. -/
def TypesFrom (s t : Store) : Prop :=
  ∀ id info, t.component? .typeInfo id = some info → s.component? .typeInfo id = some info ∧
    ∀ c : TypeCategory, t.component? c.tag id = s.component? c.tag id

theorem Labelled.of_typesFrom (h : s.Labelled) (hsound : t.Sound) (hfrom : TypesFrom s t) :
    t.Labelled := by
  refine ⟨hsound, fun id info hinfo c => ?_⟩
  obtain ⟨hbefore, hsame⟩ := hfrom id info hinfo
  rw [hsame c]
  exact h.tag id info hbefore c

theorem typesFrom_of_same (htype : t.component? .typeInfo = s.component? .typeInfo)
    (htag : ∀ c : TypeCategory, t.component? c.tag = s.component? c.tag) : TypesFrom s t := by
  intro id info hinfo
  exact ⟨htype ▸ hinfo, fun c => congrFun (htag c) id⟩

/-- What an entity loses along with its type does not matter. -/
theorem typesFrom_of_update
    (htype : t.component? .typeInfo = Function.update (s.component? .typeInfo) id none)
    (htag : ∀ (c : TypeCategory) x, x ≠ id → t.component? c.tag x = s.component? c.tag x) :
    TypesFrom s t := by
  intro x info hinfo
  have hne : x ≠ id := by
    rintro rfl
    rw [htype, Function.update_self] at hinfo
    cases hinfo
  rw [htype, Function.update_of_ne hne] at hinfo
  exact ⟨hinfo, fun c => htag c x hne⟩

theorem labelled_attach (hk : k.isLabel = false) (id : Entity) (v : k.Value) :
    Keeps Labelled Labelled (attach k id v) := by
  obtain ⟨htype, htag⟩ := Kind.isLabel_eq_false.mp hk
  intro s hs
  by_cases hid : s.isValid id
  · rw [attach_run v hid]
    exact hs.of_typesFrom (hs.sound.withComponent hid) (typesFrom_of_same
      (component?_withComponent_of_ne htype.symm)
      fun c => component?_withComponent_of_ne (c.tag_ne htag))
  · rw [attach_run_stale v hid]
    exact hs

theorem labelled_detach (hk : k.isTypeTag = false) (id : Entity) :
    Keeps Labelled Labelled (detach k id) := by
  intro s hs
  by_cases hid : s.isValid id
  · rw [detach_run hid]
    have htag : ∀ c : TypeCategory,
        (s.withoutComponent k id).component? c.tag = s.component? c.tag :=
      fun c => component?_withoutComponent_of_ne (c.tag_ne hk)
    refine hs.of_typesFrom hs.sound.withoutComponent ?_
    -- An entity whose type is gone may keep its tag: there is nothing it could be wrong for.
    by_cases htype : k = .typeInfo
    · subst htype
      exact typesFrom_of_update hs.sound.component?_withoutComponent
        fun c x _ => congrFun (htag c) x
    · exact typesFrom_of_same (component?_withoutComponent_of_ne (Ne.symm htype)) htag
  · rw [detach_run_stale hid]
    exact hs

theorem labelled_destroy (id : Entity) : Keeps Labelled Labelled (destroy id) := by
  intro s hs
  rcases destroy_cases hs.sound id with ⟨hid, -, -, hrun⟩ | ⟨e, hrun⟩
  · rw [hrun]
    refine hs.of_typesFrom (hs.sound.ended hid)
      (typesFrom_of_update hs.sound.component?_ended fun c x hne => ?_)
    rw [hs.sound.component?_ended, Function.update_of_ne hne]
  · rw [hrun]
    exact hs

theorem isLabel_of_isLink (h : k.isLink = true) : k.isLabel = false := by
  cases k <;> first | rfl | cases h

theorem pointwiseLinks_labelled : PointwiseLinks Labelled where
  attach _ id v hk := labelled_attach (isLabel_of_isLink hk) id v
  detach _ id hk := labelled_detach (Kind.isLabel_eq_false.mp (isLabel_of_isLink hk)).2 id

theorem stableShape_labelled : StableShape Labelled Labelled where
  weaken _ hs := hs
  create := Keeps.of_left fun s hs =>
    have hgrown := grown_create s
    hs.of_typesFrom (hs.sound.grown hgrown)
      (typesFrom_of_same (hgrown.component? _) fun _ => hgrown.component? _)
  destroy := labelled_destroy
  addChildren := pointwiseLinks_labelled.addChildren
  removeChild := pointwiseLinks_labelled.removeChild
  removeAllChildren := pointwiseLinks_labelled.removeAllChildren
  uniques s uniques hs := ⟨stable_sound.uniques s uniques hs.sound, hs.tag⟩

theorem labelled_remove (hk : k.isTypeTag = false) (id : Entity) :
    Keeps Labelled Labelled (remove k id) := by
  intro s hs
  cases hlink : k.isLink with
  | true =>
    rw [remove_of_link hlink]
    exact hs
  | false =>
    rw [remove_of_not_link hlink]
    exact labelled_detach hk id s hs

theorem labelled_edit {change : Edit} (h : change.sparesTags = true) :
    Keeps Labelled Labelled change.run := by
  have hshape := stableShape_labelled
  cases change with
  | destroy id => exact hshape.destroy id
  | remove k id =>
    simp only [Edit.sparesTags, Bool.not_eq_true'] at h
    exact (labelled_remove h id).discard
  | update k id f =>
    simp only [Edit.sparesTags, Bool.not_eq_true'] at h
    exact (Keeps.update hshape.weaken (fun v _ => labelled_attach h id v) f).discard
  | addChildren parent added => exact hshape.addChildren parent added
  | removeChildren removed => exact hshape.removeChildren removed
  | removeAllChildren parent => exact hshape.removeAllChildren parent
  | transferChildren moved destination => exact hshape.transferChildren moved destination
  | destroySubtree root => exact hshape.destroySubtree root
  | setUnique u v => exact hshape.setUnique u v

/-- No tag is left on an entity. -/
def untagged (s : Store) (id : Entity) : Store :=
  ((s.withoutComponent .classTag id).withoutComponent .structTag id).withoutComponent .libraryTag id

def retagged (s : Store) (id : Entity) (c : TypeCategory) : Store :=
  (s.untagged id).withComponent c.tag id c.mark

theorem Sound.untagged (h : s.Sound) : (s.untagged id).Sound :=
  h.withoutComponent.withoutComponent.withoutComponent

theorem isValid_untagged {x : Entity} : (s.untagged id).isValid x = s.isValid x := by
  simp [Store.untagged]

theorem typeInfo_untagged : (s.untagged id).component? .typeInfo = s.component? .typeInfo := by
  unfold Store.untagged
  rw [component?_withoutComponent_of_ne (by decide), component?_withoutComponent_of_ne (by decide),
    component?_withoutComponent_of_ne (by decide)]

theorem Sound.tag_untagged (h : s.Sound) (c : TypeCategory) :
    (s.untagged id).component? c.tag = Function.update (s.component? c.tag) id none := by
  have h' : (s.withoutComponent .classTag id).Sound := h.withoutComponent
  have h'' : ((s.withoutComponent .classTag id).withoutComponent .structTag id).Sound :=
    h'.withoutComponent
  unfold Store.untagged
  cases c with
  | classType =>
    dsimp only [TypeCategory.tag]
    rw [component?_withoutComponent_of_ne (by decide),
      component?_withoutComponent_of_ne (by decide), h.component?_withoutComponent]
  | structType =>
    dsimp only [TypeCategory.tag]
    rw [component?_withoutComponent_of_ne (by decide), h'.component?_withoutComponent,
      component?_withoutComponent_of_ne (by decide)]
  | functionLibrary =>
    dsimp only [TypeCategory.tag]
    rw [h''.component?_withoutComponent, component?_withoutComponent_of_ne (by decide),
      component?_withoutComponent_of_ne (by decide)]

theorem Sound.tag_retagged (h : s.Sound) (hid : s.isValid id) (c c' : TypeCategory) :
    ((s.retagged id c).component? c'.tag id).isSome = decide (c' = c) := by
  have hvalid : (s.untagged id).isValid id := isValid_untagged.trans hid
  unfold retagged
  by_cases hc : c' = c
  · subst hc
    rw [h.untagged.component?_withComponent hvalid, Function.update_self]
    simp
  · rw [component?_withComponent_of_ne (fun heq => hc (TypeCategory.tag_inj.mp heq)),
      h.tag_untagged, Function.update_self]
    simp [hc]

theorem Sound.tag_retagged_of_ne (h : s.Sound) (hid : s.isValid id) (c c' : TypeCategory)
    {x : Entity} (hx : x ≠ id) :
    (s.retagged id c).component? c'.tag x = s.component? c'.tag x := by
  have hvalid : (s.untagged id).isValid id := isValid_untagged.trans hid
  unfold retagged
  by_cases hc : c' = c
  · subst hc
    rw [h.untagged.component?_withComponent hvalid, Function.update_of_ne hx, h.tag_untagged,
      Function.update_of_ne hx]
  · rw [component?_withComponent_of_ne (fun heq => hc (TypeCategory.tag_inj.mp heq)),
      h.tag_untagged, Function.update_of_ne hx]

theorem typeInfo_retagged (c : TypeCategory) :
    (s.retagged id c).component? .typeInfo = s.component? .typeInfo := by
  unfold retagged
  rw [component?_withComponent_of_ne (by cases c <;> decide), typeInfo_untagged]

/-- A type that was put on an entity has the tag it should have once the observer is done. -/
theorem Labelled.retagged (h : s.Labelled) (hid : s.isValid id) (info : TypeInfo) :
    ((s.withComponent .typeInfo id info).retagged id info.category).Labelled := by
  have hsound : (s.withComponent .typeInfo id info).Sound := h.sound.withComponent hid
  have hvalid : (s.withComponent .typeInfo id info).isValid id := hid
  refine ⟨hsound.untagged.withComponent (isValid_untagged.trans hvalid), ?_⟩
  intro x held hheld c
  rw [typeInfo_retagged, h.sound.component?_withComponent hid] at hheld
  by_cases hx : x = id
  · subst hx
    rw [Function.update_self] at hheld
    obtain rfl := Option.some.inj hheld
    exact hsound.tag_retagged hvalid _ c
  · rw [Function.update_of_ne hx] at hheld
    rw [hsound.tag_retagged_of_ne hvalid _ c hx,
      component?_withComponent_of_ne (c.tag_ne (by decide))]
    exact h.tag x held hheld c

end Store

namespace Project

variable {ast : Ast} {id : Entity} {k : Kind}

/-- The observer of types is there, alone, and every type has its tag. -/
structure Tagged (ast : Ast) : Prop where
  observers : ast.observers = watch
  store : ast.store.Labelled

theorem observersOf_watch (h : ast.observers = watch) (hk : k ≠ .typeInfo) :
    ast.observersOf k = [] := by
  rw [Ast.observersOf, h]
  simp [watch, Ne.symm hk]

theorem tagged_ofStore {α : Type} {action : Store.Action α}
    (h : Keeps Store.Labelled Store.Labelled action) :
    Keeps Tagged Tagged (Ast.Action.ofStore action) := by
  intro ast hast
  unfold Ast.Action.ofStore
  cases hrun : action ast.store with
  | ok a s => exact ⟨hast.observers, h.ok hast.store hrun⟩
  | error e s => exact ⟨hast.observers, h.error hast.store hrun⟩

theorem removeTag_run (c : TypeCategory) (hid : ast.store.isValid id) :
    Ast.Action.ofStore (Edit.run (.remove c.tag id)) ast =
      .ok () { ast with store := ast.store.withoutComponent c.tag id } := by
  apply Ast.Action.ofStore_ok
  apply discard_run_ok
  rw [Store.remove_of_not_link c.isLink_tag, Store.detach_run hid]

/-- The observer takes all tags off and puts on that of the category which it then reads. -/
theorem perform_tagCategory (tell : Kind → Entity → Ast.Action Unit) (id : Entity) :
    Ast.perform tell (tagCategory id) = (do
      Ast.Action.ofStore (Edit.run (.remove (TypeCategory.tag .classType) id))
      Ast.Action.ofStore (Edit.run (.remove (TypeCategory.tag .structType) id))
      Ast.Action.ofStore (Edit.run (.remove (TypeCategory.tag .functionLibrary) id))
      let info ← Ast.Action.ofRead (·.require .typeInfo id)
      discard (Ast.insertTelling tell info.category.tag id info.category.mark)) := by
  have hlast : ∀ info : TypeInfo,
      Ast.perform tell (match info.category with
        | .classType => .insert .classTag id () .done
        | .structType => .insert .structTag id () .done
        | .functionLibrary => .insert .libraryTag id () .done) =
      discard (Ast.insertTelling tell info.category.tag id info.category.mark) := by
    intro info
    cases info.category <;> exact bind_pure_unit
  simp only [← hlast]
  rw [← perform_reading]
  rfl

theorem tellType_run (hobservers : ast.observers = watch) (hs : ast.store.Sound)
    (hid : ast.store.isValid id) {info : TypeInfo}
    (hinfo : ast.store.component? .typeInfo id = some info) (levels : Nat) :
    Ast.tell (levels + 1) .typeInfo id ast =
      .ok () { ast with store := ast.store.retagged id info.category } := by
  have htold : Ast.tell (levels + 1) .typeInfo id ast =
      Ast.perform (Ast.tell levels) (tagCategory id) ast := by
    show ((ast.observersOf .typeInfo).forM fun observer =>
      Ast.perform (Ast.tell levels) (observer id)) ast = _
    rw [Ast.observersOf, hobservers]
    exact congrFun bind_pure_unit ast
  let cleared : Ast := { ast with store := ast.store.untagged id }
  have hvalid : cleared.store.isValid id := Store.isValid_untagged.trans hid
  have hrequire : cleared.store.require .typeInfo id = .ok info := by
    apply Store.require_of_held hvalid
    rw [Store.typeInfo_untagged, hinfo]
  have hunobserved : cleared.observersOf info.category.tag = [] :=
    observersOf_watch hobservers (info.category.tag_ne (by decide))
  have hinsert := Ast.insertTelling_of_unobserved levels hs.untagged info.category.isLink_tag
    hunobserved hvalid info.category.mark
  rw [htold, perform_tagCategory, bind_run_ok (removeTag_run _ hid),
    bind_run_ok (removeTag_run _ (by simpa using hid)),
    bind_run_ok (removeTag_run _ (by simpa using hid)),
    bind_run_ok (Ast.Action.ofRead_ok hrequire)]
  exact discard_run_ok hinsert

theorem tagged_insertType (id : Entity) (info : TypeInfo) :
    Keeps Tagged Tagged (Ast.insert .typeInfo id info) := by
  refine Keeps.insertTelling (fun _ hast => hast) fun _ ast hast => ?_
  by_cases hid : ast.store.isValid id
  · let put : Ast := { ast with store := ast.store.withComponent .typeInfo id info }
    have hattach : Ast.Action.ofStore (Store.attach .typeInfo id info) ast = .ok () put :=
      Ast.Action.ofStore_ok (Store.attach_run (k := .typeInfo) info hid)
    have hheld : put.store.component? .typeInfo id = some info := by
      rw [hast.store.sound.component?_withComponent (k := .typeInfo) hid, Function.update_self]
    have hsound : put.store.Sound := hast.store.sound.withComponent (k := .typeInfo) hid
    have hobservers : put.observers = watch := hast.observers
    let told : Ast := { put with store := put.store.retagged id info.category }
    have htell : Ast.tell Ast.observerLevels .typeInfo id put = .ok () told := by
      obtain ⟨levels, hlevels⟩ := Ast.exists_observerLevels
      rw [hlevels]
      exact tellType_run hobservers hsound hid hheld levels
    rw [bind_run_ok hattach, htell]
    exact ⟨hobservers, hast.store.retagged hid info⟩
  · have hattach : Ast.Action.ofStore (Store.attach .typeInfo id info) ast = .error _ ast :=
      Ast.Action.ofStore_error (Store.attach_run_stale (k := .typeInfo) info hid)
    rw [bind_run_error hattach]
    exact hast

theorem tagged_insert (hk : k.isTypeTag = false) (id : Entity) (v : k.Value) :
    Keeps Tagged Tagged (Ast.insert k id v) := by
  by_cases htype : k = .typeInfo
  · subst htype
    exact tagged_insertType id v
  · have hlabel := Kind.isLabel_eq_false.mpr ⟨htype, hk⟩
    refine Keeps.insertTelling (fun _ hast => hast) fun _ => ?_
    refine (tagged_ofStore (Store.labelled_attach hlabel id v)).bind fun _ ast hast => ?_
    rw [Ast.tell_of_unobserved (observersOf_watch hast.observers htype)]
    exact hast

theorem tagged_edit {change : Edit} (h : change.sparesTags = true) :
    Keeps Tagged Tagged (Ast.edit change) :=
  tagged_ofStore (Store.labelled_edit h)

/-- One request. -/
theorem tagged_request {request : Request} (h : request.sparesTags = true) :
    Keeps Tagged Tagged request.run := by
  have hshape := Store.stableShape_labelled
  cases request with
  | create => exact (tagged_ofStore hshape.create).discard
  | insert k id v =>
    simp only [Request.sparesTags, Bool.not_eq_true'] at h
    exact (tagged_insert h id v).discard
  | getOrInsert k id v =>
    simp only [Request.sparesTags, Bool.not_eq_true'] at h
    have hread := tagged_ofStore
      (Keeps.update hshape.weaken (fun v _ => Store.labelled_attach h id v) fun w => w)
    refine Keeps.discard ?_
    refine (Keeps.readTree (fun _ hast => hast) _).bind fun held => ?_
    dsimp only
    split
    · exact (tagged_insert (Kind.isLabel_eq_false.mp h).2 id v).discard.bind fun _ => hread
    · exact hread
  | updateIfHeld k id f =>
    simp only [Request.sparesTags, Bool.not_eq_true'] at h
    exact (tagged_ofStore
      (Keeps.update? hshape.weaken (fun v _ => Store.labelled_attach h id v) f)).discard
  | addChild parent child => exact tagged_ofStore (hshape.addChildren parent [child])
  | removeChild child => exact (tagged_ofStore (hshape.removeChild child)).discard
  | updateUnique u f => exact (tagged_ofStore (hshape.updateUnique? u f)).discard
  | edit change => exact tagged_edit h
  | observe k observer => cases h
  | read f => exact Keeps.readTree (fun _ hast => hast) f

theorem keeps_ofAction {P : Ast → Prop} {α : Type} {action : Ast.Action α}
    (h : Keeps P P action) : Keeps P P (Loading.ofAction action) := by
  intro ast hast
  unfold Loading.ofAction
  cases hrun : action ast with
  | ok a after => exact h.ok hast hrun
  | error e after => exact h.error hast hrun

theorem keeps_ofExcept {P : Ast → Prop} {α : Type} (outcome : Except OpenError α) :
    Keeps P P (Loading.ofExcept outcome) := by
  cases outcome with
  | ok a => exact Keeps.pure a
  | error e => exact Keeps.throw (fun _ hast => hast) e

theorem tagged_create : Keeps Tagged Tagged Ast.create :=
  tagged_ofStore Store.stableShape_labelled.create

theorem tagged_addChild (parent child : Entity) : Keeps Tagged Tagged (addChild parent child) :=
  tagged_edit rfl

theorem tagged_addModule (file : Path) (m : ModuleDescription) :
    Keeps Tagged Tagged (addModule file m) := by
  refine tagged_create.bind fun id => ?_
  refine (tagged_insert (k := .module) rfl id m.target).discard.bind fun _ => ?_
  refine (tagged_insert (k := .fileRef) rfl id file).discard.bind fun _ => ?_
  cases m.name with
  | some name =>
    exact (tagged_insert (k := .identifier) rfl id name).discard.bind fun _ => Keeps.pure id
  | none => exact Keeps.pure id

theorem tagged_addNamed (name : String) (hk : k.isTypeTag = false) (v : k.Value) :
    Keeps Tagged Tagged (addNamed name k v) := by
  refine tagged_create.bind fun id => ?_
  refine (tagged_insert (k := .identifier) rfl id name).discard.bind fun _ => ?_
  exact (tagged_insert hk id v).discard.bind fun _ => Keeps.pure id

theorem tagged_addFunction (type : Entity) (f : FunctionEntry) :
    Keeps Tagged Tagged (addFunction type f) := by
  refine (tagged_addNamed f.name (k := .functionTag) rfl ()).bind fun id => ?_
  refine (tagged_addChild type id).bind fun _ => Keeps.forM fun p _ => ?_
  exact (tagged_addNamed p.name (k := .parameter) rfl p.type).bind fun parameter =>
    tagged_addChild id parameter

theorem tagged_addType (file : Path) (t : TypeDescription) :
    Keeps Tagged Tagged (addType file t) := by
  refine tagged_create.bind fun id => ?_
  refine (tagged_insert (k := .fileRef) rfl id file).discard.bind fun _ => ?_
  refine (tagged_insert (k := .identifier) rfl id t.type.name).discard.bind fun _ => ?_
  refine (tagged_insertType id t.type).discard.bind fun _ => ?_
  refine (Keeps.forM fun name _ => ?_).bind fun _ => ?_
  · exact (tagged_addNamed name (k := .variableTag) rfl ()).bind fun member =>
      tagged_addChild id member
  · exact (Keeps.forM fun f _ => tagged_addFunction id f).bind fun _ => Keeps.pure id

theorem tagged_loadModule (d : Disk) (file : Path) : Keeps Tagged Tagged (loadModule d file) :=
  (keeps_ofExcept _).bind fun m => keeps_ofAction (tagged_addModule file m)

theorem tagged_loadModules (d : Disk) (project : Entity) (modules : List (Entity × Path))
    (files : List Path) : Keeps Tagged Tagged (loadModules d project modules files) := by
  induction files generalizing modules with
  | nil => exact Keeps.pure modules
  | cons file rest ih =>
    refine (tagged_loadModule d file).bind fun id => ?_
    exact (keeps_ofAction (tagged_addChild _ id)).bind fun _ => ih _

theorem tagged_loadType (d : Disk) (project : Entity) (modules : List (Entity × Path))
    (file : Path) : Keeps Tagged Tagged (loadType d project modules file) := by
  refine (keeps_ofExcept _).bind fun t => ?_
  refine (keeps_ofAction (tagged_addType file t)).bind fun id => ?_
  exact keeps_ofAction (tagged_addChild _ id)

/-- No primitive type is a type of the project. -/
theorem tagged_start (h : ast.Shows watch primitiveNodes) : Tagged ast := by
  refine ⟨h.observers, h.store.consistent.sound, ?_⟩
  intro id info hinfo
  have hnone : ast.store.component? .typeInfo id = none :=
    h.store.component?_eq_none (by decide) (by decide) id
  rw [hnone] at hinfo
  cases hinfo

theorem tagged_load {d : Disk} {projectFile : Path} {u : Unit}
    (hrun : load d projectFile .empty = .ok u ast) : Tagged ast := by
  obtain ⟨started, hstart, hstarted⟩ := load_start
  unfold load at hrun
  rw [← bind_assoc, bind_run_ok hstart] at hrun
  have hrest : Keeps Tagged Tagged (loadModule d projectFile >>= fun project =>
      Loading.ofExcept (scan d (folderOf projectFile) projectFile) >>= fun files =>
        loadModules d project [(project, folderOf projectFile)] (moduleFiles files) >>=
          fun modules => (typeFiles files).forM (loadType d project modules)) := by
    refine (tagged_loadModule d projectFile).bind fun project => ?_
    refine (keeps_ofExcept _).bind fun files => ?_
    refine (tagged_loadModules d project _ _).bind fun modules => ?_
    exact Keeps.forM fun file _ => tagged_loadType d project modules file
  exact hrest.ok (tagged_start hstarted) hrun

end Project

namespace Store

variable {s : Store} {m id : Entity}

/-- The entity is a child of `m` and a type of the category. -/
def IsTypeUnder (s : Store) (c : TypeCategory) (m id : Entity) : Prop :=
  s.parent? id = .ok (some m) ∧ ∃ info, s.get? .typeInfo id = .ok (some info) ∧ info.category = c

theorem Labelled.has_tag (h : s.Labelled) {info : TypeInfo}
    (hget : s.get? .typeInfo id = .ok (some info)) (c : TypeCategory) :
    s.has c.tag id = .ok (decide (c = info.category)) := by
  obtain ⟨hid, hinfo⟩ := get?_eq_ok hget
  rw [has_of_isValid hid, h.sound.holds_eq, h.tag id info hinfo]

theorem Labelled.mem_typesUnder (h : s.Labelled) {c : TypeCategory} :
    id ∈ s.typesUnder c.tag m ↔ s.IsTypeUnder c m id := by
  rw [typesUnder, List.mem_filter, Query.mem_scan, decide_eq_true_iff, IsTypeUnder]
  constructor
  · rintro ⟨⟨hid, hkinds⟩, hup⟩
    obtain ⟨info, hinfo, -⟩ := h.sound.held_of_has (hkinds .typeInfo (by simp [Query.kinds]))
    have hget : s.get? .typeInfo id = .ok (some info) :=
      (get?_of_isValid hid).trans (congrArg _ hinfo)
    have htag := hkinds c.tag (by simp [Query.kinds])
    rw [h.has_tag hget, Except.ok.injEq, decide_eq_true_iff] at htag
    exact ⟨(parent?_of_isValid hid).trans (congrArg _ hup), info, hget, htag.symm⟩
  · rintro ⟨hparent, info, hget, rfl⟩
    obtain ⟨hid, hinfo⟩ := get?_eq_ok hget
    have htype : s.has .typeInfo id = .ok true := by
      rw [has_of_isValid hid, h.sound.holds_eq, hinfo]
      rfl
    have htag : s.has info.category.tag id = .ok true := by simp [h.has_tag hget]
    refine ⟨⟨hid, ?_⟩, (parent?_eq_ok hparent).2⟩
    simpa [Query.kinds] using ⟨htag, htype⟩

/-- No type has two tags, so none is among the types of two categories. -/
theorem Labelled.nodup_typesOf (h : s.Labelled) : (s.typesOf m).Nodup := by
  have hnodup : ∀ tag, (s.typesUnder tag m).Nodup :=
    fun tag => (nodup_of_ascending Query.ascending_scan).filter _
  refine List.Nodup.append (hnodup _) (hnodup _) ?_
  intro id hstruct hclass
  obtain ⟨-, info, hget, hcategory⟩ := (h.mem_typesUnder (c := .structType)).mp hstruct
  obtain ⟨-, info', hget', hcategory'⟩ := (h.mem_typesUnder (c := .classType)).mp hclass
  obtain rfl : info = info' := Option.some.inj (Except.ok.inj (hget.symm.trans hget'))
  rw [hcategory] at hcategory'
  cases hcategory'

end Store

namespace Project

variable {d : Disk} {path : Path} {ast : Ast} {requests : List Request} {s : Store}

/-- However a project that was opened is edited, requests that are refused included, as long as
the tags of types are left to the observer and no type is changed in place: a type has the tag of
its current category and no other. The header of a module declares its structs and then its
classes, by what they are now, and none of them twice. -/
theorem types_declared_once (hopen : openAt d path = .ok ast)
    (hspares : ∀ request ∈ requests, request.sparesTags = true)
    (hs : s = (Ast.afterAll requests ast).store) :
    (∀ id info, s.get? .typeInfo id = .ok (some info) →
      ∀ c : TypeCategory, s.has c.tag id = .ok (decide (c = info.category))) ∧
    ∀ m, s.isValid m → ∃ (structs classes : List Entity) (functions : List String),
      s.header m = .ok (HeaderText.render s.memberTypeName
        ⟨(structs ++ classes).map s.typeText, functions⟩) ∧
      (structs ++ classes).Nodup ∧
      (∀ id, id ∈ structs ↔ s.IsTypeUnder .structType m id) ∧
      ∀ id, id ∈ classes ↔ s.IsTypeUnder .classType m id := by
  obtain ⟨-, -, hload⟩ := load_of_openAt hopen
  obtain ⟨_, _, _, -, hloaded⟩ := load_outline hload
  have htagged : (Ast.afterAll requests ast).store.Labelled :=
    (Keeps.afterAll (fun request hrequest => tagged_request (hspares request hrequest))
      (tagged_load hload)).store
  have hlinked : (Ast.afterAll requests ast).store.Linked :=
    Keeps.afterAll (P := fun ast => ast.store.Linked)
      (fun request _ => Store.stable_linked.request request) hloaded.shows.consistent.toLinked
  subst hs
  refine ⟨fun id info hget => htagged.has_tag hget, fun m hm => ?_⟩
  exact ⟨_, _, _, hlinked.header_run hm, htagged.nodup_typesOf,
    fun id => htagged.mem_typesUnder (c := .structType),
    fun id => htagged.mem_typesUnder (c := .classType)⟩

/-- A class becomes a struct; a struct is taken off its entity, which then becomes a class; a
library ends, is asked for once more, and its slot goes to a new class. -/
def shelfRework : List Request :=
  [.insert .typeInfo ⟨14, 0⟩ ⟨"A", .structType⟩, .edit (.remove .typeInfo ⟨18, 0⟩),
    .insert .typeInfo ⟨18, 0⟩ ⟨"Crate", .classType⟩, .edit (.destroySubtree ⟨19, 0⟩),
    .insert .typeInfo ⟨19, 0⟩ ⟨"C", .structType⟩, .create,
    .insert .typeInfo ⟨19, 1⟩ ⟨"Door", .classType⟩, .addChild ⟨12, 0⟩ ⟨19, 1⟩]

theorem types_declared_once_rework :
    (∀ request ∈ shelfRework, request.sparesTags = true) ∧
    ∃ ast, openAt shelf shelfPath = .ok ast ∧
      (Ast.afterAll shelfRework ast).store.get? .typeInfo ⟨18, 0⟩ =
        .ok (some ⟨"Crate", .classType⟩) ∧
      (Ast.afterAll shelfRework ast).store.headerText ⟨12, 0⟩ =
        ⟨[⟨"A", ["x"]⟩, ⟨"Crate", []⟩, ⟨"Door", []⟩], ["void f()"]⟩ ∧
      ∀ c : TypeCategory, (Ast.afterAll shelfRework ast).store.has c.tag ⟨18, 0⟩ =
        .ok (decide (c = .classType)) := by
  have hspares : ∀ request ∈ shelfRework, request.sparesTags = true :=
    List.all_eq_true.mp (by decide)
  have hcheck : (match openAt shelf shelfPath with
      | .ok ast =>
        decide ((Ast.afterAll shelfRework ast).store.get? .typeInfo ⟨18, 0⟩ =
          .ok (some ⟨"Crate", .classType⟩)) &&
        decide ((Ast.afterAll shelfRework ast).store.headerText ⟨12, 0⟩ =
          ⟨[⟨"A", ["x"]⟩, ⟨"Crate", []⟩, ⟨"Door", []⟩], ["void f()"]⟩)
      | .error _ => false) = true := by decide +kernel
  cases hopen : openAt shelf shelfPath with
  | error e =>
    rw [hopen] at hcheck
    cases hcheck
  | ok ast =>
    rw [hopen] at hcheck
    obtain ⟨htype, hheader⟩ := by simpa using hcheck
    exact ⟨hspares, ast, rfl, htype, hheader,
      (types_declared_once hopen hspares rfl).1 ⟨18, 0⟩ _ htype⟩

end Project

end ModuleCompiler
