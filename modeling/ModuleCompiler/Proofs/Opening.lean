import ModuleCompiler.Proofs.Contents
import ModuleCompiler.Proofs.Sources

/-!
When a project can be opened. What has to be read for it is listed in the order in which it is read:
the module file of the project, the folders below it, the other module files by depth, and the type
files. Opening succeeds exactly if each of these is in order and there are slots enough for all that
they describe; otherwise it fails for the first of them that is not. The store of an opened project
holds what the files describe and nothing else.
-/

namespace ModuleCompiler.Project

/-- The text of a file that can be read. -/
structure HasText (file : Path) (bytes : ByteArray) (text : String) : Prop where
  reachable : Disk.isTooLong file = false
  encoded : text.toUTF8 = bytes

/-- Why a file has no text. -/
inductive LacksText (file : Path) (bytes : ByteArray) : OsError → Prop
  | tooLong (hfile : Disk.isTooLong file = true) : LacksText file bytes .nameTooLong
  | notUtf8 (hfile : Disk.isTooLong file = false) (h : ∀ text : String, text.toUTF8 ≠ bytes) :
    LacksText file bytes .notUtf8

/-- The record that a text decodes to. -/
def moduleRecord? (text : String) : Option ModuleFile :=
  (Json.parse? text.toList).bind Json.moduleFile?

/-- A text that describes a module: a blank one, or a record without a target or with a known
one. -/
inductive SaysModule (text : String) : ModuleDescription → Prop
  | blank (h : Text.isBlank text = true) : SaysModule text ⟨none, .executable⟩
  | untargeted {name : Option String} (hblank : Text.isBlank text = false)
    (hrecord : moduleRecord? text = some ⟨name, none⟩) :
    SaysModule text ⟨properName name, .executable⟩
  | targeted {name : Option String} {spelling : String} {target : ModuleTarget}
    (hblank : Text.isBlank text = false)
    (hrecord : moduleRecord? text = some ⟨name, some spelling⟩)
    (htarget : ModuleTarget.ofName? spelling = some target) :
    SaysModule text ⟨properName name, target⟩

/-- What is wrong with a text that describes no module. -/
inductive ModuleOffence (file : Path) (text : String) : OpenError → Prop
  | malformed (hblank : Text.isBlank text = false) (hrecord : moduleRecord? text = none) :
    ModuleOffence file text (.malformed file)
  | unknownTarget {name : Option String} {spelling : String} (hblank : Text.isBlank text = false)
    (hrecord : moduleRecord? text = some ⟨name, some spelling⟩)
    (htarget : ModuleTarget.ofName? spelling = none) :
    ModuleOffence file text (.unknownTarget file spelling)

/-- A text that describes a type: a record of a known category. -/
inductive SaysType (file : Path) (text : String) : TypeDescription → Prop
  | ofRecord {record : TypeFile} {category : TypeCategory}
    (hrecord : TypeFile.parse? text = some record)
    (hcategory : TypeCategory.ofName? record.category = some category) :
    SaysType file text
      ⟨⟨nameOfType file record.name, category⟩, record.members, record.functions⟩

/-- What is wrong with a text that describes no type. -/
inductive TypeOffence (file : Path) (text : String) : OpenError → Prop
  | malformed (hrecord : TypeFile.parse? text = none) : TypeOffence file text (.malformed file)
  | unknownCategory {record : TypeFile} (hrecord : TypeFile.parse? text = some record)
    (hcategory : TypeCategory.ofName? record.category = none) :
    TypeOffence file text (.unknownCategory file record.category)

/-- Something that is read when a project is opened. -/
inductive Source where
  | folder (path : Path)
  | module (file : Path) (bytes : ByteArray)
  | type (file : Path) (bytes : ByteArray)

/-- What is read off a source. -/
inductive Item where
  | folder
  | module (file : Path) (m : ModuleDescription)
  | type (file : Path) (t : TypeDescription)

/-- What is read below a project, in the order in which it is read. -/
def innerSources (d : Disk) (root : Path) : List Source :=
  let files := otherFilesBelow d root.place
  (d.foldersBelow root.place).map (fun names => .folder (Disk.descend root names)) ++
    ((inOrderOf (·.1.length) (files.filter (isModuleFile <| Disk.descend root ·.1))).map
        (fun x => .module (Disk.descend root x.1) x.2) ++
      (files.filter (isTypeFile <| Disk.descend root ·.1)).map
        fun x => .type (Disk.descend root x.1) x.2)

/-- The sources of a project whose own module file has the given bytes. -/
def sources (d : Disk) (projectFile : Path) (bytes : ByteArray) : List Source :=
  .module projectFile bytes :: innerSources d (folderOf projectFile)

/-- A source that is in order. -/
inductive Source.Gives : Source → Item → Prop
  | folder {path : Path} (h : Disk.isTooLong path = false) : Gives (.folder path) .folder
  | module {file : Path} {bytes : ByteArray} {text : String} {m : ModuleDescription}
    (htext : HasText file bytes text) (hmeaning : SaysModule text m) :
    Gives (.module file bytes) (.module file m)
  | type {file : Path} {bytes : ByteArray} {text : String} {t : TypeDescription}
    (htext : HasText file bytes text) (hmeaning : SaysType file text t) :
    Gives (.type file bytes) (.type file t)

/-- A source that is not in order, below the root of a project. -/
inductive Source.Offends (root : Path) : Source → OpenError → Prop
  | folder {path : Path} (h : Disk.isTooLong path = true) :
    Offends root (.folder path) (.unscannable root ⟨path, .nameTooLong⟩)
  | unreadableModule {file : Path} {bytes : ByteArray} {cause : OsError}
    (h : LacksText file bytes cause) :
    Offends root (.module file bytes) (.unreadable file cause)
  | module {file : Path} {bytes : ByteArray} {text : String} {e : OpenError}
    (htext : HasText file bytes text) (h : ModuleOffence file text e) :
    Offends root (.module file bytes) e
  | unreadableType {file : Path} {bytes : ByteArray} {cause : OsError}
    (h : LacksText file bytes cause) :
    Offends root (.type file bytes) (.unreadable file cause)
  | type {file : Path} {bytes : ByteArray} {text : String} {e : OpenError}
    (htext : HasText file bytes text) (h : TypeOffence file text e) :
    Offends root (.type file bytes) e

/-- The number of entities that an item stands for. -/
def Item.size : Item → Nat
  | .folder => 0
  | .module _ _ => 1
  | .type _ t => 1 + t.members.length + (t.functions.map fun f => 1 + f.parameters.length).sum

/-- The number of entities in a project. -/
def entityCount (items : List Item) : Nat := Primitive.all.length + (items.map Item.size).sum

def Item.module? : Item → Option (Path × ModuleDescription)
  | .module file m => some (file, m)
  | _ => none

def Item.type? : Item → Option (Path × TypeDescription)
  | .type file t => some (file, t)
  | _ => none

section Read

variable {d : Disk} {root file : Path} {bytes : ByteArray} {text : String} {e : OpenError}
  {source : Source} {item : Item}

/-- What loading makes of a source. -/
def Source.read (d : Disk) (root : Path) : Source → Except OpenError Item
  | .folder path =>
    if Disk.isTooLong path then .error (.unscannable root ⟨path, .nameTooLong⟩) else .ok .folder
  | .module file _ => (describeModule d file).map (.module file)
  | .type file _ => (describeType d file).map (.type file)

/-- A file can be read by its path, unless the path is too long. -/
def Stands (d : Disk) (file : Path) (bytes : ByteArray) : Prop :=
  d.read file = if Disk.isTooLong file then .error .nameTooLong else .ok bytes

def Source.OnDisk (d : Disk) : Source → Prop
  | .folder _ => True
  | .module file bytes => Stands d file bytes
  | .type file bytes => Stands d file bytes

theorem fromUTF8?_eq_some : String.fromUTF8? bytes = some text ↔ text.toUTF8 = bytes := by
  unfold String.fromUTF8?
  constructor
  · intro h
    split at h
    · rw [← Option.some.inj h]
      rfl
    · cases h
  · rintro rfl
    exact dif_pos text.isValidUTF8

theorem hasText_or_lacksText (file : Path) (bytes : ByteArray) :
    (∃ text, HasText file bytes text) ∨ ∃ cause, LacksText file bytes cause := by
  cases hfile : Disk.isTooLong file with
  | true => exact Or.inr ⟨_, .tooLong hfile⟩
  | false =>
    by_cases htext : ∃ text : String, text.toUTF8 = bytes
    · obtain ⟨text, h⟩ := htext
      exact Or.inl ⟨text, hfile, h⟩
    · exact Or.inr ⟨_, .notUtf8 hfile (not_exists.mp htext)⟩

theorem saysModule_or_offence (file : Path) (text : String) :
    (∃ m, SaysModule text m) ∨ ∃ e, ModuleOffence file text e := by
  cases hblank : Text.isBlank text with
  | true => exact Or.inl ⟨_, .blank hblank⟩
  | false =>
    cases hrecord : moduleRecord? text with
    | none => exact Or.inr ⟨_, .malformed hblank hrecord⟩
    | some record =>
      obtain ⟨name, target⟩ := record
      cases target with
      | none => exact Or.inl ⟨_, .untargeted hblank hrecord⟩
      | some spelling =>
        cases htarget : ModuleTarget.ofName? spelling with
        | some target => exact Or.inl ⟨_, .targeted hblank hrecord htarget⟩
        | none => exact Or.inr ⟨_, .unknownTarget hblank hrecord htarget⟩

theorem saysType_or_offence (file : Path) (text : String) :
    (∃ t, SaysType file text t) ∨ ∃ e, TypeOffence file text e := by
  cases hrecord : TypeFile.parse? text with
  | none => exact Or.inr ⟨_, .malformed hrecord⟩
  | some record =>
    cases hcategory : TypeCategory.ofName? record.category with
    | some category => exact Or.inl ⟨_, .ofRecord hrecord hcategory⟩
    | none => exact Or.inr ⟨_, .unknownCategory hrecord hcategory⟩

/-- Every source is in order or not. -/
theorem Source.gives_or_offends (root : Path) (source : Source) :
    (∃ item, source.Gives item) ∨ ∃ e, source.Offends root e := by
  cases source with
  | folder path =>
    cases h : Disk.isTooLong path with
    | true => exact Or.inr ⟨_, .folder h⟩
    | false => exact Or.inl ⟨_, .folder h⟩
  | module file bytes =>
    rcases hasText_or_lacksText file bytes with ⟨text, htext⟩ | ⟨cause, h⟩
    · rcases saysModule_or_offence file text with ⟨m, hmeaning⟩ | ⟨e, h⟩
      · exact Or.inl ⟨_, .module htext hmeaning⟩
      · exact Or.inr ⟨_, .module htext h⟩
    · exact Or.inr ⟨_, .unreadableModule h⟩
  | type file bytes =>
    rcases hasText_or_lacksText file bytes with ⟨text, htext⟩ | ⟨cause, h⟩
    · rcases saysType_or_offence file text with ⟨t, hmeaning⟩ | ⟨e, h⟩
      · exact Or.inl ⟨_, .type htext hmeaning⟩
      · exact Or.inr ⟨_, .type htext h⟩
    · exact Or.inr ⟨_, .unreadableType h⟩

theorem HasText.readText (h : HasText file bytes text) (hfile : Stands d file bytes) :
    readText d file = .ok text := by
  rw [Stands, h.reachable, if_neg (by decide)] at hfile
  simp only [Project.readText, Disk.readText, hfile, bind, Except.bind,
    fromUTF8?_eq_some.mpr h.encoded]

theorem LacksText.readText {cause : OsError} (h : LacksText file bytes cause)
    (hfile : Stands d file bytes) : readText d file = .error (.unreadable file cause) := by
  cases h with
  | tooLong hlong =>
    rw [Stands, hlong, if_pos rfl] at hfile
    simp only [Project.readText, Disk.readText, hfile, bind, Except.bind]
  | notUtf8 hshort h =>
    rw [Stands, hshort, if_neg (by decide)] at hfile
    have hnone : String.fromUTF8? bytes = none := by
      cases htext : String.fromUTF8? bytes with
      | none => rfl
      | some text => exact absurd (fromUTF8?_eq_some.mp htext) (h text)
    simp only [Project.readText, Disk.readText, hfile, bind, Except.bind, hnone]

theorem parse?_of_blank (h : Text.isBlank text = true) :
    ModuleFile.parse? text = some ⟨none, none⟩ := if_pos h

theorem parse?_of_not_blank (h : Text.isBlank text = false) :
    ModuleFile.parse? text = moduleRecord? text := by
  rw [ModuleFile.parse?, h, if_neg (by decide)]
  rfl

theorem SaysModule.describeModule {m : ModuleDescription} (h : SaysModule text m)
    (hread : readText d file = .ok text) : describeModule d file = .ok m := by
  unfold Project.describeModule
  rw [hread]
  cases h with
  | blank hblank => simp [bind, Except.bind, parse?_of_blank hblank, properName, pure, Except.pure]
  | untargeted hblank hrecord =>
    simp [bind, Except.bind, parse?_of_not_blank hblank, hrecord, pure, Except.pure]
  | targeted hblank hrecord htarget =>
    simp [bind, Except.bind, parse?_of_not_blank hblank, hrecord, htarget, pure, Except.pure]

theorem ModuleOffence.describeModule (h : ModuleOffence file text e)
    (hread : readText d file = .ok text) : describeModule d file = .error e := by
  unfold Project.describeModule
  rw [hread]
  cases h with
  | malformed hblank hrecord =>
    simp [bind, Except.bind, parse?_of_not_blank hblank, hrecord, throw, throwThe,
      MonadExceptOf.throw]
  | unknownTarget hblank hrecord htarget =>
    simp [bind, Except.bind, parse?_of_not_blank hblank, hrecord, htarget, throw, throwThe,
      MonadExceptOf.throw]

theorem SaysType.describeType {t : TypeDescription} (h : SaysType file text t)
    (hread : readText d file = .ok text) : describeType d file = .ok t := by
  unfold Project.describeType
  rw [hread]
  cases h with
  | ofRecord hrecord hcategory =>
    simp [bind, Except.bind, hrecord, hcategory, pure, Except.pure]

theorem TypeOffence.describeType (h : TypeOffence file text e)
    (hread : readText d file = .ok text) : describeType d file = .error e := by
  unfold Project.describeType
  rw [hread]
  cases h with
  | malformed hrecord =>
    simp [bind, Except.bind, hrecord, throw, throwThe, MonadExceptOf.throw]
  | unknownCategory hrecord hcategory =>
    simp [bind, Except.bind, hrecord, hcategory, throw, throwThe, MonadExceptOf.throw]

theorem Source.Gives.read (h : source.Gives item) (hdisk : source.OnDisk d) :
    source.read d root = .ok item := by
  cases h with
  | folder hshort => rw [Source.read, hshort, if_neg (by decide)]
  | module htext hmeaning =>
    rw [Source.read, hmeaning.describeModule (htext.readText hdisk)]
    rfl
  | type htext hmeaning =>
    rw [Source.read, hmeaning.describeType (htext.readText hdisk)]
    rfl

theorem Source.Offends.read (h : source.Offends root e) (hdisk : source.OnDisk d) :
    source.read d root = .error e := by
  cases h with
  | folder hlong => rw [Source.read, hlong, if_pos rfl]
  | unreadableModule hlacks =>
    rw [Source.read, describeModule, hlacks.readText hdisk]
    rfl
  | module htext hoffence =>
    rw [Source.read, hoffence.describeModule (htext.readText hdisk)]
    rfl
  | unreadableType hlacks =>
    rw [Source.read, describeType, hlacks.readText hdisk]
    rfl
  | type htext hoffence =>
    rw [Source.read, hoffence.describeType (htext.readText hdisk)]
    rfl

theorem Source.read_eq_ok (hdisk : source.OnDisk d) :
    source.read d root = .ok item ↔ source.Gives item := by
  refine ⟨fun h => ?_, fun h => h.read hdisk⟩
  rcases source.gives_or_offends root with ⟨other, hother⟩ | ⟨e, he⟩
  · rwa [Except.ok.inj (h.symm.trans (hother.read hdisk))]
  · rw [he.read hdisk] at h
    cases h

theorem Source.read_eq_error (hdisk : source.OnDisk d) :
    source.read d root = .error e ↔ source.Offends root e := by
  refine ⟨fun h => ?_, fun h => h.read hdisk⟩
  rcases source.gives_or_offends root with ⟨item, hitem⟩ | ⟨other, hother⟩
  · rw [hitem.read hdisk] at h
    cases h
  · rwa [Except.error.inj (h.symm.trans (hother.read hdisk))]

end Read

section Tally

variable {d : Disk} {projectFile file : Path} {files : List Path} {o : List Node} {n count : Nat}
  {outcomes : List (Except OpenError Item)} {e : OpenError}

/-- The number of entities once items have been added to `n` of them, or the first failure. -/
def tally : Nat → List (Except OpenError Item) → Except OpenError Nat
  | n, [] => .ok n
  | n, outcome :: rest => do
    let item ← outcome
    if n + item.size ≤ Entity.slotLimit then tally (n + item.size) rest
    else .error (.refused .slotsExhausted)

theorem tally_append (n : Nat) (a b : List (Except OpenError Item)) :
    tally n (a ++ b) = tally n a >>= fun count => tally count b := by
  induction a generalizing n with
  | nil => rfl
  | cons outcome a ih =>
    cases outcome with
    | error e => rfl
    | ok item =>
      simp only [List.cons_append, tally, bind, Except.bind]
      split
      · exact ih _
      · rfl

theorem tally_eq_ok (hn : n ≤ Entity.slotLimit) :
    tally n outcomes = .ok count ↔
      ∃ items : List Item, outcomes = items.map .ok ∧ count = n + (items.map Item.size).sum ∧
        count ≤ Entity.slotLimit := by
  induction outcomes generalizing n with
  | nil =>
    constructor
    · intro h
      obtain rfl := Except.ok.inj h
      exact ⟨[], rfl, rfl, hn⟩
    · rintro ⟨items, hitems, hcount, -⟩
      obtain rfl : items = [] := List.map_eq_nil_iff.mp hitems.symm
      exact congrArg Except.ok hcount.symm
  | cons outcome outcomes ih =>
    constructor
    · intro h
      obtain ⟨item, rfl, hrest⟩ := except_bind_eq_ok h
      split at hrest
      · rename_i hroom
        obtain ⟨items, rfl, hcount, hle⟩ := (ih hroom).mp hrest
        exact ⟨item :: items, rfl, by rw [hcount, List.map_cons, List.sum_cons, Nat.add_assoc], hle⟩
      · cases hrest
    · rintro ⟨items, hitems, hcount, hle⟩
      cases items with
      | nil => cases hitems
      | cons item items =>
        obtain ⟨rfl, rfl⟩ := List.cons.inj hitems
        rw [List.map_cons, List.sum_cons] at hcount
        have hroom : n + item.size ≤ Entity.slotLimit := by omega
        show (if n + item.size ≤ Entity.slotLimit then _ else _) = _
        rw [if_pos hroom]
        exact (ih hroom).mpr ⟨items, rfl, by omega, hle⟩

/-- Counting fails at the first item that fails or for which there are no slots left. -/
theorem tally_eq_error (hn : n ≤ Entity.slotLimit) :
    tally n outcomes = .error e ↔
      ∃ (items : List Item) (outcome : Except OpenError Item) (rest : List (Except OpenError Item)),
        outcomes = items.map .ok ++ outcome :: rest ∧
        n + (items.map Item.size).sum ≤ Entity.slotLimit ∧
        (outcome = .error e ∨
          ∃ item, outcome = .ok item ∧
            Entity.slotLimit < n + (items.map Item.size).sum + item.size ∧
            e = .refused .slotsExhausted) := by
  induction outcomes generalizing n with
  | nil =>
    constructor
    · intro h
      cases h
    · rintro ⟨items, outcome, rest, hsplit, -⟩
      exact absurd hsplit.symm (by simp)
  | cons outcome outcomes ih =>
    constructor
    · intro h
      cases outcome with
      | error other =>
        obtain rfl : other = e := Except.error.inj h
        exact ⟨[], .error other, outcomes, rfl, hn, Or.inl rfl⟩
      | ok item =>
        by_cases hroom : n + item.size ≤ Entity.slotLimit
        · have hrest : tally (n + item.size) outcomes = .error e := (if_pos hroom).symm.trans h
          obtain ⟨items, failed, rest, rfl, hle, hwhy⟩ := (ih hroom).mp hrest
          rw [Nat.add_assoc] at hle hwhy
          refine ⟨item :: items, failed, rest, rfl, ?_, ?_⟩
          · rwa [List.map_cons, List.sum_cons]
          · rwa [List.map_cons, List.sum_cons]
        · have he : .refused .slotsExhausted = e := Except.error.inj ((if_neg hroom).symm.trans h)
          exact ⟨[], .ok item, outcomes, rfl, hn, Or.inr ⟨item, rfl, by simpa using hroom, he.symm⟩⟩
    · rintro ⟨items, failed, rest, hsplit, hle, hwhy⟩
      cases items with
      | nil =>
        obtain ⟨rfl, rfl⟩ := List.cons.inj hsplit
        rcases hwhy with rfl | ⟨item, rfl, hfull, rfl⟩
        · rfl
        · exact if_neg (by simpa using hfull)
      | cons item items =>
        obtain ⟨rfl, rfl⟩ := List.cons.inj hsplit
        rw [List.map_cons, List.sum_cons, ← Nat.add_assoc] at hle hwhy
        have hroom : n + item.size ≤ Entity.slotLimit := by omega
        exact (if_pos hroom).trans ((ih hroom).mpr ⟨items, failed, rest, rfl, hle, hwhy⟩)

theorem ok_bind {α β : Type} (a : α) (next : α → Except OpenError β) :
    (Except.ok a >>= next) = next a := rfl

theorem fit_bind_map (o : List Node) (k : List Node → Except OpenError (List Node)) :
    (fit o >>= k).map List.length =
      if o.length ≤ Entity.slotLimit then (k o).map List.length
      else .error (.refused .slotsExhausted) := by
  unfold fit
  split <;> rfl

theorem outlineModules_tally (d : Disk) (project : Entity) (modules : List (Entity × Path))
    (files : List Path) (o : List Node) :
    (outlineModules d project modules files o).map List.length =
      tally o.length (files.map fun file => (describeModule d file).map (.module file)) := by
  induction files generalizing modules o with
  | nil => rfl
  | cons file files ih =>
    rw [outlineModules, List.map_cons, tally]
    cases describeModule d file with
    | error e => rfl
    | ok m =>
      refine (fit_bind_map _ _).trans ?_
      rw [List.length_append, List.length_singleton, ih, List.length_append, List.length_singleton]
      rfl

theorem length_functionBlocks (type : Entity) (base : Nat) (fs : List FunctionEntry) :
    (functionBlocks type base fs).length = (fs.map fun f => 1 + f.parameters.length).sum := by
  induction fs generalizing base with
  | nil => rfl
  | cons f fs ih =>
    rw [functionBlocks, List.length_append, length_functionBlock, ih, List.map_cons, List.sum_cons,
      Nat.add_comm 1]

theorem length_typeBlock (owner : Path → Entity) (base : Nat) (x : Path × TypeDescription) :
    (typeBlock owner base x).length = (Item.type x.1 x.2).size := by
  rw [typeBlock, List.length_cons, typeContents, List.length_append, List.length_map,
    length_functionBlocks, Item.size]
  omega

theorem outlineTypes_tally (d : Disk) (owner : Path → Entity) (files : List Path) (o : List Node) :
    (outlineTypes d owner files o).map List.length =
      tally o.length (files.map fun file => (describeType d file).map (.type file)) := by
  induction files generalizing o with
  | nil => rfl
  | cons file files ih =>
    rw [outlineTypes, List.map_cons, tally]
    cases describeType d file with
    | error e => rfl
    | ok t =>
      refine (fit_bind_map _ _).trans ?_
      rw [List.length_append, ih, List.length_append, length_typeBlock]
      rfl

theorem map_bind_length {outcome : Except OpenError (List Node)}
    {next : List Node → Except OpenError (List Node)} {k : Nat → Except OpenError Nat}
    (h : ∀ o, (next o).map List.length = k o.length) :
    (outcome >>= next).map List.length = outcome.map List.length >>= k := by
  cases outcome with
  | error e => rfl
  | ok o => exact h o

/-- Folders need no slots; the first that cannot be listed ends the count. -/
theorem tally_folders (d : Disk) (root : Path) {α : Type} (path : α → Path) (folders : List α)
    (hn : n ≤ Entity.slotLimit) :
    tally n ((folders.map fun a => Source.folder (path a)).map (Source.read d root)) =
      match folders.find? (Disk.isTooLong <| path ·) with
      | some a => .error (.unscannable root ⟨path a, .nameTooLong⟩)
      | none => .ok n := by
  induction folders with
  | nil => rfl
  | cons a folders ih =>
    rw [List.map_cons, List.map_cons, tally, Source.read, List.find?_cons]
    cases Disk.isTooLong (path a) with
    | true => rfl
    | false =>
      refine Eq.trans ?_ ih
      exact if_pos hn

theorem innerSources_tally (hd : d.IsDirectory) (hname : isModuleFile projectFile = true)
    (hroot : d.resolve (folderOf projectFile) = .ok (.present (folderOf projectFile).place .folder))
    (ho : o.length ≤ Entity.slotLimit) :
    (scan d (folderOf projectFile) projectFile >>= fun files =>
      outlineModules d projectEntity [(projectEntity, folderOf projectFile)]
          (moduleFiles files) o >>=
        outlineTypes d (ownerOf projectFile files) (typeFiles files)).map List.length =
      tally o.length
        ((innerSources d (folderOf projectFile)).map (Source.read d (folderOf projectFile))) := by
  have hmodules := moduleFiles_eq hd (folderOf projectFile) (folderOf projectFile).place
  rw [innerSources, List.map_append, tally_append, tally_folders _ _ _ _ ho,
    scan_of_folder hd hname hroot]
  cases (d.foldersBelow (folderOf projectFile).place).find?
      (Disk.isTooLong <| Disk.descend (folderOf projectFile) ·) with
  | some names => rfl
  | none =>
    refine (map_bind_length (k := fun count => tally count _) (outlineTypes_tally d _ _)).trans ?_
    rw [outlineModules_tally, hmodules, typeFiles, List.filter_map, List.map_map, List.map_map]
    show _ = tally o.length _
    rw [List.map_append, tally_append, List.map_map, List.map_map]
    rfl

/-- Loading comes to the count of what its sources say, or to the first failure among them. -/
theorem outline_tally (hd : d.IsDirectory) (hname : isModuleFile projectFile = true)
    (hroot : d.resolve (folderOf projectFile) = .ok (.present (folderOf projectFile).place .folder))
    (bytes : ByteArray) :
    (outline d projectFile).map List.length =
      tally primitiveNodes.length
        ((sources d projectFile bytes).map (Source.read d (folderOf projectFile))) := by
  rw [outline, sources, List.map_cons, tally, Source.read]
  cases describeModule d projectFile with
  | error e => rfl
  | ok m =>
    have hlength : (primitiveNodes ++ [moduleNode projectFile m]).length =
        primitiveNodes.length + (Item.module projectFile m).size := by simp [Item.size]
    rw [Except.map, ok_bind, ok_bind, fit_bind_map, ← hlength]
    split
    · exact innerSources_tally hd hname hroot (by assumption)
    · rfl

end Tally

section Open

variable {d : Disk} {path projectFile root : Path} {loc : Location} {bytes : ByteArray}
  {items : List Item}

theorem stands_descend (hd : d.IsDirectory) (hroot : d.resolve root = .ok (.present loc .folder))
    {x : List (List Char) × ByteArray} (hx : x ∈ otherFilesBelow d loc) :
    Stands d (Disk.descend root x.1) x.2 := by
  obtain ⟨hne, hentry⟩ := Disk.mem_below.mp (Disk.mem_filesBelow.mp (List.mem_filter.mp hx).1)
  have hresolve := hd.resolve_descend hroot hne hentry
  unfold Stands Disk.read Disk.isTooLong
  rw [hresolve]
  by_cases hlong : Disk.maxPathBytes < Disk.byteLength (Disk.descend root x.1).chars
  · simp [hlong, bind, Except.bind]
  · simp [hlong, bind, Except.bind]

theorem stands_of_isFile {file : Path} (h : d.isFile file = true) :
    ∃ bytes, d.read file = .ok bytes ∧ Stands d file bytes := by
  obtain ⟨l, bytes, hresolve⟩ := Disk.resolve_of_isFile h
  have hread : d.read file = .ok bytes := by simp [Disk.read, hresolve, bind, Except.bind]
  have hshort := (Disk.checkPath_eq_ok.mp (Disk.resolve_eq_ok.mp hresolve).1).2.2
  refine ⟨bytes, hread, ?_⟩
  rw [Stands, hread, Disk.isTooLong, if_neg (by simpa using hshort)]

theorem mem_inOrderOf {α : Type} {key : α → Nat} {l : List α} {a : α} :
    a ∈ inOrderOf key l ↔ a ∈ l := by
  rw [← mergeSort_eq_inOrderOf, List.mem_mergeSort]

/-- All sources of a project are on the disk. -/
theorem onDisk_of_mem_sources (hd : d.IsDirectory)
    (hroot : d.resolve (folderOf projectFile) = .ok (.present (folderOf projectFile).place .folder))
    (hfile : Stands d projectFile bytes) :
    ∀ source ∈ sources d projectFile bytes, source.OnDisk d := by
  intro source h
  rcases List.mem_cons.mp h with rfl | h
  · exact hfile
  · rw [innerSources, List.mem_append, List.mem_append, List.mem_map, List.mem_map,
      List.mem_map] at h
    rcases h with ⟨names, -, rfl⟩ | ⟨x, hx, rfl⟩ | ⟨x, hx, rfl⟩
    · trivial
    · exact stands_descend hd hroot (List.mem_filter.mp (mem_inOrderOf.mp hx)).1
    · exact stands_descend hd hroot (List.mem_filter.mp hx).1

theorem map_read_eq_ok (root : Path) {list : List Source} (h : ∀ source ∈ list, source.OnDisk d) :
    list.map (Source.read d root) = items.map .ok ↔ List.Forall₂ Source.Gives list items := by
  induction list generalizing items with
  | nil => cases items <;> simp
  | cons source list ih =>
    cases items with
    | nil => simp
    | cons item items =>
      rw [List.map_cons, List.map_cons, List.cons.injEq, List.forall₂_cons,
        Source.read_eq_ok (h source List.mem_cons_self),
        ih fun other hother => h other (List.mem_cons_of_mem _ hother)]

/-- What opening comes to is what the outline says. -/
theorem openAt_outline (hfile : d.isFile (moduleFileOf d path) = true)
    (hname : isModuleFile (moduleFileOf d path) = true) :
    (openAt d path).map (fun _ => ()) = (outline d (moduleFileOf d path)).map fun _ => () := by
  have hcomes := load_comesTo d (moduleFileOf d path)
  unfold openAt
  simp only [hfile, hname, Bool.and_self, if_true]
  cases houtline : outline d (moduleFileOf d path) with
  | error e =>
    rw [houtline] at hcomes
    obtain ⟨after, hload⟩ := hcomes
    rw [hload]
    rfl
  | ok o =>
    rw [houtline] at hcomes
    obtain ⟨after, hload, -⟩ := hcomes
    rw [hload]
    rfl

/-- What opening the project at a path comes to, where `sources` has to be read for it. -/
structure Opens (d : Disk) (path root : Path) (sources : List Source) : Prop where
  succeeds : (∃ ast, openAt d path = .ok ast) ↔
    ∃ items, List.Forall₂ Source.Gives sources items ∧ entityCount items ≤ Entity.slotLimit
  fails : ∀ e, openAt d path = .error e ↔
    ∃ before source after items, sources = before ++ source :: after ∧
      List.Forall₂ Source.Gives before items ∧ entityCount items ≤ Entity.slotLimit ∧
      (source.Offends root e ∨
        ∃ item, source.Gives item ∧ Entity.slotLimit < entityCount (items ++ [item]) ∧
          e = .refused .slotsExhausted)
  holds : ∀ ast items, openAt d path = .ok ast → List.Forall₂ Source.Gives sources items →
    Contents ast.store (items.filterMap Item.module?) (items.filterMap Item.type?)

theorem map_unit_eq_ok {α : Type} {outcome : Except OpenError α} :
    (∃ a, outcome = .ok a) ↔ (outcome.map fun _ => ()) = .ok () := by
  cases outcome with
  | ok a => exact ⟨fun _ => rfl, fun _ => ⟨a, rfl⟩⟩
  | error e => exact ⟨nofun, nofun⟩

theorem map_unit_eq_error {α : Type} {outcome : Except OpenError α} {e : OpenError} :
    outcome = .error e ↔ (outcome.map fun _ => ()) = .error e := by
  cases outcome with
  | ok a => exact ⟨nofun, nofun⟩
  | error other =>
    constructor
    · exact fun h => congrArg Except.error (Except.error.inj h)
    · exact fun h => congrArg Except.error (Except.error.inj h)

section Sources

variable (hd : d.IsDirectory) (hfile : d.isFile (moduleFileOf d path) = true)
  (hname : isModuleFile (moduleFileOf d path) = true)
  (hroot : d.resolve (folderOf (moduleFileOf d path)) =
    .ok (.present (folderOf (moduleFileOf d path)).place .folder))
  (hstands : Stands d (moduleFileOf d path) bytes)

include hd hfile hname hroot

theorem openAt_tally (bytes : ByteArray) :
    (openAt d path).map (fun _ => ()) =
      (tally primitiveNodes.length ((sources d (moduleFileOf d path) bytes).map
        (Source.read d (folderOf (moduleFileOf d path))))).map fun _ => () := by
  rw [openAt_outline hfile hname, ← outline_tally hd hname hroot bytes]
  cases outline d (moduleFileOf d path) <;> rfl

include hstands

theorem openAt_succeeds :
    (∃ ast, openAt d path = .ok ast) ↔
      ∃ items, List.Forall₂ Source.Gives (sources d (moduleFileOf d path) bytes) items ∧
        entityCount items ≤ Entity.slotLimit := by
  have hdisk := onDisk_of_mem_sources hd hroot hstands
  rw [map_unit_eq_ok, openAt_tally hd hfile hname hroot bytes, ← map_unit_eq_ok]
  simp only [tally_eq_ok (show primitiveNodes.length ≤ Entity.slotLimit by decide),
    map_read_eq_ok _ hdisk]
  constructor
  · rintro ⟨count, items, hgives, rfl, hle⟩
    exact ⟨items, hgives, hle⟩
  · rintro ⟨items, hgives, hle⟩
    exact ⟨_, items, hgives, rfl, hle⟩

theorem openAt_fails (e : OpenError) :
    openAt d path = .error e ↔
      ∃ before source after items,
        sources d (moduleFileOf d path) bytes = before ++ source :: after ∧
        List.Forall₂ Source.Gives before items ∧ entityCount items ≤ Entity.slotLimit ∧
        (source.Offends (folderOf (moduleFileOf d path)) e ∨
          ∃ item, source.Gives item ∧ Entity.slotLimit < entityCount (items ++ [item]) ∧
            e = .refused .slotsExhausted) := by
  have hdisk := onDisk_of_mem_sources hd hroot hstands
  have hcount : ∀ items item, entityCount (items ++ [item]) =
      primitiveNodes.length + (items.map Item.size).sum + item.size := by
    intro items item
    rw [entityCount, List.map_append, List.sum_append, ← Nat.add_assoc]
    rfl
  rw [map_unit_eq_error, openAt_tally hd hfile hname hroot bytes, ← map_unit_eq_error,
    tally_eq_error (show primitiveNodes.length ≤ Entity.slotLimit by decide)]
  constructor
  · rintro ⟨items, outcome, rest, hsplit, hle, hwhy⟩
    obtain ⟨before, others, hsources, hbefore, hothers⟩ := List.map_eq_append_iff.mp hsplit
    obtain ⟨source, after, rfl, rfl, -⟩ := List.map_eq_cons_iff.mp hothers
    have hin : source.OnDisk d := hdisk source (by simp [hsources])
    have hgives := (map_read_eq_ok _ fun other hother =>
      hdisk other (by simp [hsources, hother])).mp hbefore
    refine ⟨before, source, after, items, hsources, hgives, hle, ?_⟩
    rcases hwhy with hoffends | ⟨item, hitem, hfull, he⟩
    · exact Or.inl ((Source.read_eq_error hin).mp hoffends)
    · exact Or.inr ⟨item, (Source.read_eq_ok hin).mp hitem, hcount items item ▸ hfull, he⟩
  · rintro ⟨before, source, after, items, hsources, hgives, hle, hwhy⟩
    have hin : source.OnDisk d := hdisk source (by simp [hsources])
    have hbefore := (map_read_eq_ok (folderOf (moduleFileOf d path)) fun other hother =>
      hdisk other (by simp [hsources, hother])).mpr hgives
    refine ⟨items, source.read d (folderOf (moduleFileOf d path)),
      after.map (Source.read d (folderOf (moduleFileOf d path))), ?_, hle, ?_⟩
    · rw [hsources, List.map_append, hbefore, List.map_cons]
    · rcases hwhy with hoffends | ⟨item, hitem, hfull, he⟩
      · exact Or.inl ((Source.read_eq_error hin).mpr hoffends)
      · exact Or.inr ⟨item, (Source.read_eq_ok hin).mpr hitem, hcount items item ▸ hfull, he⟩

end Sources

def Source.moduleFile? : Source → Option Path
  | .module file _ => some file
  | _ => none

def Source.typeFile? : Source → Option Path
  | .type file _ => some file
  | _ => none

variable {list : List Source}

/-- The modules among the items are those of the module files, as these are described. -/
theorem modules_of_gives (h : List.Forall₂ Source.Gives list items)
    (hdisk : ∀ source ∈ list, source.OnDisk d) :
    (items.filterMap Item.module?).map Prod.fst = list.filterMap Source.moduleFile? ∧
      ∀ x ∈ items.filterMap Item.module?, describeModule d x.1 = .ok x.2 := by
  induction h with
  | nil => exact ⟨rfl, by simp⟩
  | cons hgives _ ih =>
    obtain ⟨hfiles, hdescribed⟩ := ih fun source hin => hdisk source (List.mem_cons_of_mem _ hin)
    have hsource := hdisk _ List.mem_cons_self
    cases hgives with
    | folder _ => exact ⟨hfiles, hdescribed⟩
    | type _ _ => exact ⟨hfiles, hdescribed⟩
    | @module file bytes text m htext hmeaning =>
      have hm : describeModule d file = .ok m := hmeaning.describeModule (htext.readText hsource)
      exact ⟨congrArg (file :: ·) hfiles, List.forall_mem_cons.mpr ⟨hm, hdescribed⟩⟩

theorem types_of_gives (h : List.Forall₂ Source.Gives list items)
    (hdisk : ∀ source ∈ list, source.OnDisk d) :
    (items.filterMap Item.type?).map Prod.fst = list.filterMap Source.typeFile? ∧
      ∀ x ∈ items.filterMap Item.type?, describeType d x.1 = .ok x.2 := by
  induction h with
  | nil => exact ⟨rfl, by simp⟩
  | cons hgives _ ih =>
    obtain ⟨hfiles, hdescribed⟩ := ih fun source hin => hdisk source (List.mem_cons_of_mem _ hin)
    have hsource := hdisk _ List.mem_cons_self
    cases hgives with
    | folder _ => exact ⟨hfiles, hdescribed⟩
    | module _ _ => exact ⟨hfiles, hdescribed⟩
    | @type file bytes text t htext hmeaning =>
      have ht : describeType d file = .ok t := hmeaning.describeType (htext.readText hsource)
      exact ⟨congrArg (file :: ·) hfiles, List.forall_mem_cons.mpr ⟨ht, hdescribed⟩⟩

/-- Descriptions are determined by the files. -/
theorem eq_of_described {α : Type} {describe : Path → Except OpenError α} {a b : List (Path × α)}
    (hfiles : a.map Prod.fst = b.map Prod.fst) (ha : ∀ x ∈ a, describe x.1 = .ok x.2)
    (hb : ∀ x ∈ b, describe x.1 = .ok x.2) : a = b := by
  induction a generalizing b with
  | nil => exact (List.map_eq_nil_iff.mp hfiles.symm).symm
  | cons x a ih =>
    cases b with
    | nil => cases hfiles
    | cons y b =>
      obtain ⟨hfile, hrest⟩ := List.cons.inj hfiles
      have hx := ha x List.mem_cons_self
      rw [hfile] at hx
      have hdescription := Except.ok.inj (hx.symm.trans (hb y List.mem_cons_self))
      rw [Prod.ext hfile hdescription, ih hrest (fun z hz => ha z (List.mem_cons_of_mem _ hz))
        fun z hz => hb z (List.mem_cons_of_mem _ hz)]

theorem moduleFiles_of_sources (hd : d.IsDirectory) (projectFile : Path) (bytes : ByteArray) :
    (sources d projectFile bytes).filterMap Source.moduleFile? =
      allModuleFiles projectFile ((otherFilesBelow d (folderOf projectFile).place).map
        (Disk.descend (folderOf projectFile) ·.1)) := by
  rw [allModuleFiles, moduleFiles_eq hd]
  simp [sources, innerSources, Source.moduleFile?, List.filterMap_append, List.filterMap_map,
    Function.comp_def, List.filterMap_eq_map']

theorem typeFiles_of_sources (projectFile : Path) (bytes : ByteArray) :
    (sources d projectFile bytes).filterMap Source.typeFile? =
      typeFiles ((otherFilesBelow d (folderOf projectFile).place).map
        (Disk.descend (folderOf projectFile) ·.1)) := by
  rw [typeFiles, List.filter_map, sources, List.filterMap_cons_none rfl]
  simp [innerSources, Source.typeFile?, List.filterMap_append, List.filterMap_map,
    Function.comp_def, List.filterMap_eq_map']

theorem holds_of_openAt {ast : Ast} (hd : d.IsDirectory) (hopen : openAt d path = .ok ast)
    (hroot : d.resolve (folderOf (moduleFileOf d path)) =
      .ok (.present (folderOf (moduleFileOf d path)).place .folder))
    (hstands : Stands d (moduleFileOf d path) bytes)
    (hgives : List.Forall₂ Source.Gives (sources d (moduleFileOf d path) bytes) items) :
    Contents ast.store (items.filterMap Item.module?) (items.filterMap Item.type?) := by
  obtain ⟨-, hname, hload⟩ := load_of_openAt hopen
  obtain ⟨files, modules, types, hscan, hloaded⟩ := load_outline hload
  have hfiles : files = (otherFilesBelow d (folderOf (moduleFileOf d path)).place).map
      (Disk.descend (folderOf (moduleFileOf d path)) ·.1) := by
    rw [scan_of_folder hd hname hroot] at hscan
    split at hscan
    · cases hscan
    · exact (Except.ok.inj hscan).symm
  have hdisk := onDisk_of_mem_sources hd hroot hstands
  obtain ⟨hmoduleFiles, hmodules⟩ := modules_of_gives hgives hdisk
  obtain ⟨htypeFiles, htypes⟩ := types_of_gives hgives hdisk
  rw [moduleFiles_of_sources hd, ← hfiles] at hmoduleFiles
  rw [typeFiles_of_sources, ← hfiles, ← hloaded.isType] at htypeFiles
  rw [eq_of_described htypeFiles htypes hloaded.described]
  exact hloaded.contents hmoduleFiles hmodules

/-- Opening a project comes to what its sources say. It succeeds exactly if all of them are in order
and there are slots for all that they describe; otherwise it fails for the first that is not in
order or has no slots left. The sources are the module file of the project, then the folders below
it, then the other module files by depth, then the type files, and what is found below a project is
in the order of its names. An opened project holds what its sources describe and nothing else. -/
theorem opens_by_sources (hd : d.IsDirectory) (hfile : d.isFile (moduleFileOf d path) = true)
    (hname : isModuleFile (moduleFileOf d path) = true)
    (hfolder : (folderOf (moduleFileOf d path)).isEmpty = false) :
    ∃ bytes, d.read (moduleFileOf d path) = .ok bytes ∧
      Opens d path (folderOf (moduleFileOf d path)) (sources d (moduleFileOf d path) bytes) ∧
      (d.filesBelow (folderOf (moduleFileOf d path)).place).Pairwise fun x y => x.1 < y.1 := by
  obtain ⟨folder, hparent⟩ := Path.exists_parent (p := moduleFileOf d path)
    (by rw [parts_of_isModuleFile hname, List.getLast?_concat])
  have hfolderOf : folderOf (moduleFileOf d path) = folder := by
    rw [folderOf, hparent, Option.getD_some]
  have hroot : d.resolve (folderOf (moduleFileOf d path)) =
      .ok (.present (folderOf (moduleFileOf d path)).place .folder) := by
    rw [hfolderOf] at hfolder ⊢
    exact Disk.resolve_parent hfile hparent hfolder
  obtain ⟨bytes, hread, hstands⟩ := stands_of_isFile hfile
  refine ⟨bytes, hread, ⟨?_, ?_, ?_⟩, hd.sorted_filesBelow _⟩
  · exact openAt_succeeds hd hfile hname hroot hstands
  · exact openAt_fails hd hfile hname hroot hstands
  · exact fun ast items hopen hgives => holds_of_openAt hd hopen hroot hstands hgives

end Open

theorem shelf_isDirectory : shelf.IsDirectory :=
  ⟨by decide +kernel, by decide +kernel, by decide +kernel, by decide +kernel⟩

/-- A class with a member and a function, a struct, and a module with a library inside. -/
theorem opens_by_sources_shelf :
    shelf.IsDirectory ∧ shelf.isFile (moduleFileOf shelf shelfPath) = true ∧
      isModuleFile (moduleFileOf shelf shelfPath) = true ∧
      (folderOf (moduleFileOf shelf shelfPath)).isEmpty = false ∧
      (∃ ast, openAt shelf shelfPath = .ok ast) ∧
      ∃ bytes, shelf.read (moduleFileOf shelf shelfPath) = .ok bytes ∧
        Opens shelf shelfPath (folderOf (moduleFileOf shelf shelfPath))
          (sources shelf (moduleFileOf shelf shelfPath) bytes) ∧
        (shelf.filesBelow (folderOf (moduleFileOf shelf shelfPath)).place).Pairwise
          fun x y => x.1 < y.1 := by
  have hfile : shelf.isFile (moduleFileOf shelf shelfPath) = true := by decide +kernel
  have hname : isModuleFile (moduleFileOf shelf shelfPath) = true := by decide +kernel
  have hfolder : (folderOf (moduleFileOf shelf shelfPath)).isEmpty = false := by decide +kernel
  have hopen : (openAt shelf shelfPath).isOk = true := by decide +kernel
  refine ⟨shelf_isDirectory, hfile, hname, hfolder, ?_,
    opens_by_sources shelf_isDirectory hfile hname hfolder⟩
  cases hrun : openAt shelf shelfPath with
  | ok ast => exact ⟨ast, rfl⟩
  | error e =>
    rw [hrun] at hopen
    cases hopen

/-- A name of 252 bytes. -/
def longName : List Char := List.replicate 63 '𝄞'

/-- A project with a module inside, in folders with long names. -/
def burrow : Disk where
  entries := [
    ([longName], .folder),
    ([longName, "Module.rift".toList], .file "".toUTF8),
    ([longName, longName], .folder),
    ([longName, longName, "Module.rift".toList], .file "".toUTF8)]

/-- Out of a folder and into it again, so many times. -/
def detour : Nat → List Char
  | 0 => longName
  | n + 1 => longName ++ "/../".toList ++ detour n

def burrowPath : Path := ⟨detour 14⟩

/-- Both files of a project describe modules, and still it cannot be opened by every path: the path
that leads on to the inner file is too long. -/
theorem detour_too_long :
    burrow.IsDirectory ∧ burrow.isFile (moduleFileOf burrow burrowPath) = true ∧
      isModuleFile (moduleFileOf burrow burrowPath) = true ∧
      (folderOf (moduleFileOf burrow burrowPath)).isEmpty = false ∧
      (∀ x ∈ burrow.entries, ∀ bytes, x.2 = .file bytes →
        x.1.getLast? = some moduleFileName.toList ∧
          ∃ text m, text.toUTF8 = bytes ∧ SaysModule text m) ∧
      openAt burrow burrowPath = .error
        (.unreadable ((burrowPath.join ⟨longName⟩).child moduleFileName) .nameTooLong) := by
  refine ⟨⟨by decide +kernel, by decide +kernel, by decide +kernel, by decide +kernel⟩,
    by decide +kernel, by decide +kernel, by decide +kernel, ?_, ?_⟩
  · have hblank : SaysModule "" ⟨none, .executable⟩ := .blank (by decide)
    simp only [burrow, List.forall_mem_cons]
    refine ⟨nofun, ?_, nofun, ?_, by simp⟩
    · rintro bytes ⟨⟩
      exact ⟨rfl, "", _, rfl, hblank⟩
    · rintro bytes ⟨⟩
      exact ⟨rfl, "", _, rfl, hblank⟩
  · have hcheck : (match openAt burrow burrowPath with
        | .ok _ => false
        | .error e => decide (e = .unreadable
            ((burrowPath.join ⟨longName⟩).child moduleFileName) .nameTooLong)) = true := by
      decide +kernel
    cases hrun : openAt burrow burrowPath with
    | ok ast =>
      rw [hrun] at hcheck
      cases hcheck
    | error e =>
      rw [hrun] at hcheck
      rw [of_decide_eq_true hcheck]

end ModuleCompiler.Project
