import ModuleCompiler.Proofs.Header

/-!
Functions in the headers of more than one module. A module has the functions at most two levels
below it, whatever lies between, so a function is listed for its parent and for the parent of that,
where these are modules, and for no other module. Two modules share a function exactly where one is
a child of the other and the function is a child of the inner one.
-/

namespace ModuleCompiler.Store

variable {s : Store} {m n f parent child : Entity}

/-- The entity `child` is among the children of `parent`. -/
def Lists (s : Store) (parent child : Entity) : Prop :=
  ∃ list, s.children parent = .ok list ∧ child ∈ list

/-- The entity holds what a query for functions asks for. -/
def IsFunction (s : Store) (f : Entity) : Prop :=
  s.has .identifier f = .ok true ∧ s.has .functionTag f = .ok true

/-- The entity `f` is a child of `m` or a child of a child. -/
def InRange (s : Store) (m f : Entity) : Prop :=
  s.Lists m f ∨ ∃ between, s.Lists m between ∧ s.Lists between f

theorem Sound.lists_iff (h : s.Sound) : s.Lists parent child ↔ child ∈ s.childList parent := by
  by_cases hparent : s.isValid parent
  · simp [Lists, children_of_isValid hparent]
  · have hdown : s.down parent = none := h.component?_of_not_isValid .children hparent
    simp [Lists, children, get?_of_not_isValid hparent, childList, hdown, bind, Except.bind]

theorem mem_scan_functions :
    f ∈ Query.scan ⟨.identifier, [.functionTag]⟩ s ↔ s.IsFunction f := by
  rw [Query.mem_scan, IsFunction]
  constructor
  · exact fun h => ⟨h.2 _ (by simp [Query.kinds]), h.2 _ (by simp [Query.kinds])⟩
  · exact fun h => ⟨((has_eq_true s _ f).mp h.1).1, by simpa [Query.kinds] using h⟩

theorem Sound.mem_below_two (h : s.Sound) : f ∈ s.below functionDepth [m] ↔ s.InRange m f := by
  simp [functionDepth, below, nextLevel, InRange, h.lists_iff]

theorem Sound.mem_functionsUnder (h : s.Sound) :
    f ∈ s.functionsUnder m ↔ s.IsFunction f ∧ s.InRange m f := by
  rw [functionsUnder, List.mem_filter, h.mem_below_two, decide_eq_true_iff, mem_scan_functions,
    and_comm]

/-- An entity is listed by one parent only. -/
theorem Linked.lists_unique (h : s.Linked) (hm : s.Lists m child) (hn : s.Lists n child) :
    m = n := by
  have hup := h.up_of_mem_childList (h.sound.lists_iff.mp hm)
  have hup' := h.up_of_mem_childList (h.sound.lists_iff.mp hn)
  exact Option.some.inj (hup.symm.trans hup')

/-- Of two entities that have a third in range, one lists the other, which lists the third. -/
theorem Linked.inRange_both_iff (h : s.Linked) (hne : m ≠ n) :
    s.InRange m f ∧ s.InRange n f ↔
      s.Lists m n ∧ s.Lists n f ∨ s.Lists n m ∧ s.Lists m f := by
  constructor
  · rintro ⟨hm | ⟨x, hmx, hxf⟩, hn | ⟨y, hny, hyf⟩⟩
    · exact absurd (h.lists_unique hm hn) hne
    · obtain rfl := h.lists_unique hm hyf
      exact Or.inr ⟨hny, hm⟩
    · obtain rfl := h.lists_unique hn hxf
      exact Or.inl ⟨hmx, hn⟩
    · obtain rfl := h.lists_unique hxf hyf
      exact absurd (h.lists_unique hmx hny) hne
  · rintro (⟨hmn, hnf⟩ | ⟨hnm, hmf⟩)
    · exact ⟨Or.inr ⟨n, hmn, hnf⟩, Or.inl hnf⟩
    · exact ⟨Or.inl hmf, Or.inr ⟨m, hnm, hmf⟩⟩

/-- No three entities have another in range. -/
theorem Linked.eq_or_eq_of_inRange (h : s.Linked) {k : Entity} (hne : m ≠ n)
    (hm : s.InRange m f) (hn : s.InRange n f) (hk : s.InRange k f) : k = m ∨ k = n := by
  by_contra hother
  obtain ⟨hkm, hkn⟩ := not_or.mp hother
  rcases (h.inRange_both_iff hne).mp ⟨hm, hn⟩ with ⟨-, hnf⟩ | ⟨-, hmf⟩
  · rcases (h.inRange_both_iff hkm).mp ⟨hk, hm⟩ with ⟨-, hmf⟩ | ⟨-, hkf⟩
    · exact hne (h.lists_unique hmf hnf)
    · exact hkn (h.lists_unique hkf hnf)
  · rcases (h.inRange_both_iff hkn).mp ⟨hk, hn⟩ with ⟨-, hnf⟩ | ⟨-, hkf⟩
    · exact hne (h.lists_unique hmf hnf)
    · exact hkm (h.lists_unique hkf hmf)

/-- After any run the functions of a module are listed once each, and its header declares and
defines just these. Two modules have a function in common exactly if one module is a child of the
other and the function is a child of the inner one, and no function belongs to three modules. -/
theorem function_shared_iff_nested (hs : s.Reachable) (hm : s.has .module m = .ok true)
    (hn : s.has .module n = .ok true) (hne : m ≠ n) :
    ∃ own other, s.moduleFunctions m = .ok own ∧ s.moduleFunctions n = .ok other ∧ own.Nodup ∧
      (∃ types, s.header m =
        .ok (HeaderText.render s.memberTypeName ⟨types, own.map s.signatureOf⟩)) ∧
      (∀ f, f ∈ own ∧ f ∈ other ↔
        s.IsFunction f ∧ (s.Lists m n ∧ s.Lists n f ∨ s.Lists n m ∧ s.Lists m f)) ∧
      ∀ f ∈ own, f ∈ other → ∀ k third, s.has .module k = .ok true →
        s.moduleFunctions k = .ok third → f ∈ third → k = m ∨ k = n := by
  have h := hs.linked
  have hvalid : ∀ {k}, s.has .module k = .ok true → s.isValid k :=
    fun {k} hk => ((has_eq_true s _ k).mp hk).1
  refine ⟨_, _, h.moduleFunctions_run (hvalid hm), h.moduleFunctions_run (hvalid hn),
    h.nodup_functionsUnder (hvalid hm), ⟨_, h.header_run (hvalid hm)⟩, ?_, ?_⟩
  · intro f
    rw [h.sound.mem_functionsUnder, h.sound.mem_functionsUnder, ← and_and_left,
      h.inRange_both_iff hne]
  · intro f hown hother k third hk hrun hthird
    rw [h.moduleFunctions_run (hvalid hk)] at hrun
    obtain rfl := Except.ok.inj hrun
    exact h.eq_or_eq_of_inRange hne (h.sound.mem_functionsUnder.mp hown).2
      (h.sound.mem_functionsUnder.mp hother).2 (h.sound.mem_functionsUnder.mp hthird).2

/-- A module inside a module, with a function and with a class that has a function. -/
def innerModuleRun : List Request :=
  [.create, .create, .create, .create, .create, .insert .module ⟨0, 0⟩ .executable,
    .insert .module ⟨1, 0⟩ .staticLibrary, .insert .identifier ⟨2, 0⟩ "start",
    .insert .functionTag ⟨2, 0⟩ (), .insert .typeInfo ⟨3, 0⟩ ⟨"Lamp", .classType⟩,
    .insert .classTag ⟨3, 0⟩ (), .insert .identifier ⟨4, 0⟩ "light",
    .insert .functionTag ⟨4, 0⟩ (), .addChild ⟨0, 0⟩ ⟨1, 0⟩, .addChild ⟨1, 0⟩ ⟨2, 0⟩,
    .addChild ⟨1, 0⟩ ⟨3, 0⟩, .addChild ⟨3, 0⟩ ⟨4, 0⟩]

theorem function_shared_iff_nested_inner :
    (Ast.reached innerModuleRun).store.has .module ⟨0, 0⟩ = .ok true ∧
    (Ast.reached innerModuleRun).store.has .module ⟨1, 0⟩ = .ok true ∧
    ∃ own other, (Ast.reached innerModuleRun).store.moduleFunctions ⟨0, 0⟩ = .ok own ∧
      (Ast.reached innerModuleRun).store.moduleFunctions ⟨1, 0⟩ = .ok other ∧
      ∀ f, f ∈ own ∧ f ∈ other ↔ (Ast.reached innerModuleRun).store.IsFunction f ∧
        ((Ast.reached innerModuleRun).store.Lists ⟨0, 0⟩ ⟨1, 0⟩ ∧
            (Ast.reached innerModuleRun).store.Lists ⟨1, 0⟩ f ∨
          (Ast.reached innerModuleRun).store.Lists ⟨1, 0⟩ ⟨0, 0⟩ ∧
            (Ast.reached innerModuleRun).store.Lists ⟨0, 0⟩ f) := by
  have houter : (Ast.reached innerModuleRun).store.has .module ⟨0, 0⟩ = .ok true := by
    decide +kernel
  have hinner : (Ast.reached innerModuleRun).store.has .module ⟨1, 0⟩ = .ok true := by
    decide +kernel
  obtain ⟨own, other, hown, hother, -, -, hshared, -⟩ :=
    function_shared_iff_nested ⟨_, rfl⟩ houter hinner (by decide)
  exact ⟨houter, hinner, own, other, hown, hother, hshared⟩

/-- The function of the inner module stands in both headers, that of its class in one only. -/
theorem function_in_both_headers :
    Ast.carriedOut innerModuleRun = true ∧
    (Ast.reached innerModuleRun).store.moduleFunctions ⟨0, 0⟩ = .ok [⟨2, 0⟩] ∧
    (Ast.reached innerModuleRun).store.moduleFunctions ⟨1, 0⟩ = .ok [⟨2, 0⟩, ⟨4, 0⟩] ∧
    (Ast.reached innerModuleRun).store.headerText ⟨0, 0⟩ = ⟨[], ["void start()"]⟩ ∧
    (Ast.reached innerModuleRun).store.headerText ⟨1, 0⟩ =
      ⟨[⟨"Lamp", []⟩], ["void start()", "void Lamp_light(Lamp& self)"]⟩ := by
  decide +kernel

end ModuleCompiler.Store
