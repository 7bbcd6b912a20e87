import ModuleCompiler.Checked

/-!
Lists gone through with a test that may fail. Where it fails nowhere the pass has the result of the
plain function on lists; and where the pass has a result, it failed nowhere.
-/

namespace ModuleCompiler

section Test

variable {α ε : Type} {test : α → Except ε Bool} {p : α → Bool} {l : List α}

theorem filterChecked_run (h : ∀ a ∈ l, test a = .ok (p a)) :
    filterChecked test l = .ok (l.filter p) := by
  induction l with
  | nil => rfl
  | cons a rest ih =>
    have hrest := ih fun b hb => h b (by simp [hb])
    simp only [filterChecked, h a (by simp), hrest, bind, Except.bind, pure, Except.pure,
      List.filter_cons]

theorem allChecked_run (h : ∀ a ∈ l, test a = .ok (p a)) :
    allChecked test l = .ok (l.all p) := by
  induction l with
  | nil => rfl
  | cons a rest ih =>
    have hrest := ih fun b hb => h b (by simp [hb])
    simp only [allChecked, h a (by simp), bind, Except.bind, List.all_cons]
    cases p a with
    | true => exact hrest
    | false => rfl

end Test

section Map

variable {α β γ ε : Type} {f : α → Except ε β} {l : List α} {bs : List β}

/-- The results may be listed beside the elements from the start. -/
theorem mapChecked_fst {l : List (α × β)} (h : ∀ x ∈ l, f x.1 = .ok x.2) :
    mapChecked f (l.map Prod.fst) = .ok (l.map Prod.snd) := by
  induction l with
  | nil => rfl
  | cons x l ih =>
    have hrest := ih fun y hy => h y (by simp [hy])
    simp [mapChecked, h x (by simp), hrest, bind, Except.bind, pure, Except.pure]

theorem mapChecked_run {g : α → β} (h : ∀ a ∈ l, f a = .ok (g a)) :
    mapChecked f l = .ok (l.map g) := by
  have hall : ∀ x ∈ l.map fun a => (a, g a), f x.1 = .ok x.2 := by simpa using h
  simpa [Function.comp_def] using mapChecked_fst hall

theorem exists_mapChecked (h : ∀ a ∈ l, ∃ b, f a = .ok b) : ∃ bs, mapChecked f l = .ok bs := by
  induction l with
  | nil => exact ⟨[], rfl⟩
  | cons a l ih =>
    obtain ⟨b, hb⟩ := h a (by simp)
    obtain ⟨bs, hbs⟩ := ih fun x hx => h x (by simp [hx])
    exact ⟨b :: bs, by simp only [mapChecked, hb, hbs]; rfl⟩

theorem mapChecked_cons_eq_ok {a : α} (h : mapChecked f (a :: l) = .ok bs) :
    ∃ b rest, f a = .ok b ∧ mapChecked f l = .ok rest ∧ bs = b :: rest := by
  cases hb : f a with
  | error e => simp [mapChecked, hb, bind, Except.bind] at h
  | ok b =>
    cases hrest : mapChecked f l with
    | error e => simp [mapChecked, hb, hrest, bind, Except.bind] at h
    | ok rest =>
      refine ⟨b, rest, rfl, rfl, ?_⟩
      simpa [mapChecked, hb, hrest, bind, Except.bind, pure, Except.pure] using h.symm

theorem mem_mapChecked (h : mapChecked f l = .ok bs) {b : β} :
    b ∈ bs ↔ ∃ a ∈ l, f a = .ok b := by
  induction l generalizing bs with
  | nil =>
    obtain rfl := Except.ok.inj h
    simp
  | cons a l ih =>
    obtain ⟨x, rest, hx, hrest, rfl⟩ := mapChecked_cons_eq_ok h
    rw [List.mem_cons, ih hrest]
    constructor
    · rintro (rfl | ⟨y, hy, hb⟩)
      · exact ⟨a, by simp, hx⟩
      · exact ⟨y, by simp [hy], hb⟩
    · rintro ⟨y, hy, hb⟩
      rcases List.mem_cons.mp hy with rfl | hy
      · exact Or.inl (Except.ok.inj (hb.symm.trans hx))
      · exact Or.inr ⟨y, hy, hb⟩

theorem exists_mem_mapChecked (h : mapChecked f l = .ok bs) {a : α} (ha : a ∈ l) :
    ∃ b ∈ bs, f a = .ok b := by
  induction l generalizing bs with
  | nil => cases ha
  | cons x l ih =>
    obtain ⟨b, rest, hb, hrest, rfl⟩ := mapChecked_cons_eq_ok h
    rcases List.mem_cons.mp ha with rfl | ha
    · exact ⟨b, by simp, hb⟩
    · obtain ⟨c, hc, hfc⟩ := ih hrest ha
      exact ⟨c, by simp [hc], hfc⟩

theorem mapChecked_comp (h : mapChecked f l = .ok bs) {g : α → Except ε γ} {k : β → γ}
    (hg : ∀ a ∈ l, ∀ b, f a = .ok b → g a = .ok (k b)) : mapChecked g l = .ok (bs.map k) := by
  induction l generalizing bs with
  | nil =>
    obtain rfl := Except.ok.inj h
    rfl
  | cons a l ih =>
    obtain ⟨b, rest, hb, hrest, rfl⟩ := mapChecked_cons_eq_ok h
    have hmap := ih hrest fun x hx => hg x (by simp [hx])
    simp only [mapChecked, hg a (by simp) b hb, hmap]
    rfl

end Map

end ModuleCompiler
