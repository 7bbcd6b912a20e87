import Mathlib.Data.List.DropRight
import Mathlib.Data.List.TakeWhile
import ModuleCompiler.Path

/-!
The parts of paths. Appending a name appends one part, however the path before it is spelled, and
going to the parent takes the last part away.
-/

namespace ModuleCompiler.Path

theorem pieces_of_no_slash {cs : List Char} (h : '/' ∉ cs) : pieces cs = [cs] := by
  induction cs with
  | nil => rfl
  | cons c cs ih =>
    have hc : c ≠ '/' := fun heq => h (by simp [heq])
    have hrest : '/' ∉ cs := fun hin => h (by simp [hin])
    rw [pieces, if_neg hc, ih hrest]

theorem pieces_append_slash (a b : List Char) : pieces (a ++ '/' :: b) = pieces a ++ pieces b := by
  induction a with
  | nil => simp [pieces]
  | cons c a ih =>
    by_cases hc : c = '/'
    · simp [pieces, hc, ih]
    · obtain ⟨p, ps, hp⟩ := List.exists_cons_of_ne_nil (pieces_ne_nil a)
      simp [pieces, hc, ih, hp]

theorem no_slash_of_mem_pieces {cs piece : List Char} (h : piece ∈ pieces cs) : '/' ∉ piece := by
  induction cs generalizing piece with
  | nil =>
    rw [List.mem_singleton.mp h]
    exact List.not_mem_nil
  | cons c cs ih =>
    obtain ⟨p, ps, hp⟩ := List.exists_cons_of_ne_nil (pieces_ne_nil cs)
    by_cases hc : c = '/'
    · simp only [pieces, hc, if_true, List.mem_cons] at h
      rcases h with rfl | h
      · exact List.not_mem_nil
      · exact ih h
    · simp only [pieces, hc, if_false, hp, List.mem_cons] at h
      rcases h with rfl | h
      · have hfirst : '/' ∉ p := ih (by simp [hp])
        simp [Ne.symm hc, hfirst]
      · exact ih (by simp [hp, h])

theorem pieces_unite {ps : List (List Char)} (hne : ps ≠ []) (h : ∀ p ∈ ps, '/' ∉ p) :
    pieces (unite ps) = ps := by
  induction ps with
  | nil => exact absurd rfl hne
  | cons p ps ih =>
    have hp := pieces_of_no_slash (h p (by simp))
    cases ps with
    | nil => exact hp
    | cons q qs =>
      have hrest := ih (by simp) fun x hx => h x (by simp [hx])
      rw [unite, pieces_append_slash, hp, hrest]
      rfl

/-- The parts that pieces of the body stand for. -/
def bodyParts (ps : List (List Char)) : List Part := (ps.filter (!isVoid ·)).map partOfPiece

theorem parts_eq (p : Path) :
    p.parts = leadParts (splitLead p.chars).1 ++ bodyParts (pieces (splitLead p.chars).2) := rfl

theorem bodyParts_append (ps qs : List (List Char)) :
    bodyParts (ps ++ qs) = bodyParts ps ++ bodyParts qs := by
  simp [bodyParts]

theorem bodyParts_of_void {ps : List (List Char)} (h : ∀ p ∈ ps, isVoid p = true) :
    bodyParts ps = [] := by
  simp only [bodyParts, List.map_eq_nil_iff, List.filter_eq_nil_iff]
  intro p hp
  simp [h p hp]

theorem trimVoid_append_void (ps : List (List Char)) :
    ∃ tail, ps = trimVoid ps ++ tail ∧ ∀ p ∈ tail, isVoid p = true := by
  refine ⟨(ps.reverse.takeWhile isVoid).reverse, ?_, ?_⟩
  · rw [trimVoid, ← List.reverse_append, List.takeWhile_append_dropWhile, List.reverse_reverse]
  · intro p hp
    exact List.mem_takeWhile_imp (List.mem_reverse.mp hp)

theorem bodyParts_trimVoid (ps : List (List Char)) : bodyParts (trimVoid ps) = bodyParts ps := by
  obtain ⟨tail, hps, htail⟩ := trimVoid_append_void ps
  conv => rhs; rw [hps]
  rw [bodyParts_append, bodyParts_of_void htail, List.append_nil]

theorem bodyParts_pieces_unite {ps : List (List Char)} (h : ∀ p ∈ ps, '/' ∉ p) :
    bodyParts (pieces (unite ps)) = bodyParts ps := by
  by_cases hne : ps = []
  · rw [hne]
    rfl
  · rw [pieces_unite hne h]

/-- A text that can be the name of an entry in a folder. -/
def IsName (name : List Char) : Prop :=
  name ≠ [] ∧ name ≠ ['.'] ∧ name ≠ ['.', '.'] ∧ '/' ∉ name

instance (name : List Char) : Decidable (IsName name) :=
  inferInstanceAs (Decidable (_ ∧ _ ∧ _ ∧ _))

theorem IsName.bodyParts {name : List Char} (h : IsName name) :
    bodyParts (pieces name) = [.name name] := by
  obtain ⟨hne, hdot, hdots, hslash⟩ := h
  rw [pieces_of_no_slash hslash]
  simp [Path.bodyParts, isVoid, partOfPiece, hne, hdot, hdots]

/-- Nothing is split off a path that opens with neither a slash nor a lone dot. -/
theorem splitLead_of_ne {c : Char} {cs : List Char} (hslash : c ≠ '/')
    (hdot : c = '.' → ∃ d r, cs = d :: r ∧ d ≠ '/') : splitLead (c :: cs) = ([], c :: cs) := by
  by_cases hc : c = '.'
  · obtain ⟨d, r, rfl, hd⟩ := hdot hc
    subst hc
    unfold splitLead
    split <;> simp_all
  · unfold splitLead
    split <;> simp_all

theorem splitLead_append_slash {cs : List Char} (h : cs ≠ []) (rest : List Char) :
    splitLead (cs ++ '/' :: rest) = ((splitLead cs).1, (splitLead cs).2 ++ '/' :: rest) := by
  obtain ⟨c, cs, rfl⟩ := List.exists_cons_of_ne_nil h
  by_cases hslash : c = '/'
  · subst hslash
    rfl
  by_cases hdot : c = '.'
  · subst hdot
    cases cs with
    | nil => rfl
    | cons d r =>
      by_cases hd : d = '/'
      · subst hd
        rfl
      · rw [splitLead_of_ne hslash fun _ => ⟨d, r, rfl, hd⟩]
        exact splitLead_of_ne hslash fun _ => ⟨d, r ++ '/' :: rest, rfl, hd⟩
  · rw [splitLead_of_ne hslash fun heq => absurd heq hdot]
    exact splitLead_of_ne hslash fun heq => absurd heq hdot

/-- A piece that names something has no part of a lead in it. -/
theorem splitLead_of_piece {piece : List Char} (hvoid : isVoid piece = false)
    (hslash : '/' ∉ piece) (rest : List Char) :
    splitLead (piece ++ rest) = ([], piece ++ rest) := by
  cases piece with
  | nil => cases hvoid
  | cons c cs =>
    refine splitLead_of_ne (fun heq => hslash (by simp [heq])) ?_
    rintro rfl
    cases cs with
    | nil => cases hvoid
    | cons d r => exact ⟨d, r ++ rest, rfl, fun heq => hslash (by simp [heq])⟩

theorem parts_append_slash {cs : List Char} (h : cs ≠ []) (rest : List Char) :
    parts ⟨cs ++ '/' :: rest⟩ = parts ⟨cs⟩ ++ bodyParts (pieces rest) := by
  rw [parts_eq, parts_eq, splitLead_append_slash h, pieces_append_slash, bodyParts_append,
    List.append_assoc]

theorem IsName.isVoid {name : List Char} (h : IsName name) : isVoid name = false := by
  simp [Path.isVoid, h.1, h.2.1]

theorem join_name {p : Path} {name : List Char} (h : '/' ∉ name) :
    p.join ⟨name⟩ =
      if p.chars = [] then ⟨name⟩
      else if p.chars.getLast? = some '/' then ⟨p.chars ++ name⟩
      else ⟨p.chars ++ '/' :: name⟩ := by
  unfold join
  split
  case h_1 _ r hname =>
    have hname : name = '/' :: r := hname
    exact absurd (by simp [hname]) h
  case h_2 hlast _ => rw [if_pos (List.getLast?_eq_none_iff.mp hlast)]
  case h_3 hlast _ =>
    have hne : p.chars ≠ [] := fun hnil => by simp [hnil] at hlast
    rw [if_neg hne, if_pos hlast]
  case h_4 c hslash hlast _ =>
    have hne : p.chars ≠ [] := fun hnil => by simp [hnil] at hlast
    have hother : p.chars.getLast? ≠ some '/' := fun heq => hslash (by simpa [hlast] using heq)
    rw [if_neg hne, if_neg hother]

theorem parts_join {p : Path} {name : List Char} (h : IsName name) :
    (p.join ⟨name⟩).parts = p.parts ++ [.name name] := by
  obtain ⟨cs⟩ := p
  rw [join_name h.2.2.2, ← h.bodyParts]
  split
  · rename_i hempty
    have hlead := splitLead_of_piece h.isVoid h.2.2.2 []
    rw [List.append_nil] at hlead
    rw [parts_eq, hlead, show cs = [] from hempty]
    rfl
  · rename_i hne
    split
    · rename_i hlast
      obtain ⟨a, rfl⟩ := List.getLast?_eq_some_iff.mp hlast
      rw [List.append_assoc]
      by_cases ha : a = []
      · rw [ha]
        rfl
      · show parts ⟨a ++ '/' :: name⟩ = parts ⟨a ++ '/' :: []⟩ ++ _
        rw [parts_append_slash ha, parts_append_slash ha]
        simp [Path.bodyParts, pieces, Path.isVoid]
    · exact parts_append_slash hne name

/-- A path without a lead opens with a piece that names something. -/
theorem pieces_of_no_lead {cs : List Char} (h : (splitLead cs).1 = []) (hne : cs ≠ []) :
    ∃ piece ps, pieces cs = piece :: ps ∧ isVoid piece = false := by
  obtain ⟨c, cs, rfl⟩ := List.exists_cons_of_ne_nil hne
  obtain ⟨p, ps, hp⟩ := List.exists_cons_of_ne_nil (pieces_ne_nil cs)
  have hc : c ≠ '/' := by
    rintro rfl
    cases h
  refine ⟨c :: p, ps, by simp [pieces, hc, hp], ?_⟩
  by_contra hvoid
  obtain ⟨rfl, rfl⟩ : c = '.' ∧ p = [] := by simpa [isVoid] using hvoid
  -- The piece before the first slash is empty only if there is nothing before it.
  cases cs with
  | nil => cases h
  | cons d r =>
    have hd : d = '/' := by
      by_contra hd
      obtain ⟨q, qs, hq⟩ := List.exists_cons_of_ne_nil (pieces_ne_nil r)
      simp [pieces, hd, hq] at hp
    subst hd
    cases h

theorem splitLead_cases (cs : List Char) :
    (∃ body, splitLead cs = (['/'], body)) ∨ splitLead cs = (['.'], []) ∨
      (∃ r, splitLead cs = (['.'], '/' :: r)) ∨ splitLead cs = ([], cs) := by
  unfold splitLead
  split <;> simp

theorem parts_ne_nil {p : Path} (h : p.chars ≠ []) : p.parts ≠ [] := by
  rw [parts_eq]
  rcases splitLead_cases p.chars with ⟨body, hs⟩ | hs | ⟨r, hs⟩ | hs
  · simp [hs, leadParts]
  · simp [hs, leadParts]
  · simp [hs, leadParts]
  · obtain ⟨piece, ps, hpieces, hvoid⟩ := pieces_of_no_lead (by rw [hs]) h
    simp [hs, hpieces, bodyParts, hvoid]

theorem unite_cons (p : List Char) (ps : List (List Char)) :
    ∃ rest, unite (p :: ps) = p ++ rest := by
  cases ps with
  | nil => exact ⟨[], (List.append_nil p).symm⟩
  | cons q qs => exact ⟨_, rfl⟩

/-- The first pieces of a body, up to one that names something, are the body of what is kept. -/
theorem splitLead_of_body {cs : List Char} {l more : List (List Char)}
    (hpieces : pieces (splitLead cs).2 = l ++ more) (hlast : trimVoid l = l) :
    splitLead ((splitLead cs).1 ++ unite l) = ((splitLead cs).1, unite l) := by
  have hvoid : l ≠ [[]] := by
    rintro rfl
    cases hlast
  cases l with
  | nil =>
    rcases splitLead_cases cs with ⟨body, hs⟩ | hs | ⟨r, hs⟩ | hs <;> rw [hs] <;> rfl
  | cons piece l =>
    rcases splitLead_cases cs with ⟨body, hs⟩ | hs | ⟨r, hs⟩ | hs
    · rw [hs]
      rfl
    · rw [hs] at hpieces
      obtain ⟨rfl, rfl, -⟩ : piece = [] ∧ l = [] ∧ more = [] := by
        simpa [pieces] using hpieces.symm
      exact absurd rfl hvoid
    · rw [hs] at hpieces ⊢
      obtain ⟨rfl, hrest⟩ : piece = [] ∧ _ := by simpa [pieces] using hpieces.symm
      cases l with
      | nil => exact absurd rfl hvoid
      | cons q qs => rfl
    · rw [hs] at hpieces ⊢
      have hne : cs ≠ [] := by
        rintro rfl
        obtain ⟨rfl, rfl, -⟩ : piece = [] ∧ l = [] ∧ more = [] := by
          simpa [pieces] using hpieces.symm
        exact hvoid rfl
      obtain ⟨first, ps, hfirst, hnamed⟩ := pieces_of_no_lead (by rw [hs]) hne
      obtain ⟨rfl, -⟩ : first = piece ∧ _ := by simpa [hfirst] using hpieces
      obtain ⟨rest, hrest⟩ := unite_cons first l
      have hslash : '/' ∉ first := no_slash_of_mem_pieces (by rw [hfirst]; simp)
      rw [hrest]
      exact splitLead_of_piece hnamed hslash rest

/-- The path of which the first pieces of a body are kept, up to one that names something. -/
theorem parts_of_lead {cs : List Char} {l more : List (List Char)}
    (hpieces : pieces (splitLead cs).2 = l ++ more) (hlast : trimVoid l = l) :
    parts ⟨(splitLead cs).1 ++ unite l⟩ = leadParts (splitLead cs).1 ++ bodyParts l := by
  have hslash : ∀ piece ∈ l, '/' ∉ piece := fun piece hpiece =>
    no_slash_of_mem_pieces (by rw [hpieces]; exact List.mem_append_left _ hpiece)
  rw [parts_eq, splitLead_of_body hpieces hlast, bodyParts_pieces_unite hslash]

theorem parent_of_nil {p : Path} (h : trimVoid (pieces (splitLead p.chars).2) = []) :
    p.parent = if (splitLead p.chars).1 = ['.'] then some empty else none := by
  simp only [parent, h]

theorem parent_of_concat {p : Path} {l : List (List Char)} {last : List Char}
    (h : trimVoid (pieces (splitLead p.chars).2) = l ++ [last]) :
    p.parent = some ⟨(splitLead p.chars).1 ++ unite (trimVoid l)⟩ := by
  obtain ⟨x, xs, hcons⟩ := List.exists_cons_of_ne_nil (List.concat_ne_nil last l)
  simp only [parent, h, hcons]
  rw [← hcons, List.dropLast_concat]

/-- The parent of a path has the first pieces of its body, up to one that names something, and
lacks just one part. -/
theorem parent_split {p q : Path} (h : p.parent = some q) :
    (q = empty ∧ p.parts = [.here]) ∨
    ∃ l more last, q = ⟨(splitLead p.chars).1 ++ unite l⟩ ∧
      pieces (splitLead p.chars).2 = l ++ more ∧ more ≠ [] ∧ trimVoid l = l ∧
      bodyParts (pieces (splitLead p.chars).2) = bodyParts l ++ [partOfPiece last] := by
  obtain ⟨tail, htail, -⟩ := trimVoid_append_void (pieces (splitLead p.chars).2)
  rcases List.eq_nil_or_concat (trimVoid (pieces (splitLead p.chars).2)) with hnil | ⟨l, last, hl⟩
  · rw [parent_of_nil hnil] at h
    split at h
    · rename_i hdot
      refine Or.inl ⟨(Option.some.inj h).symm, ?_⟩
      rw [parts_eq, hdot, ← bodyParts_trimVoid, hnil]
      rfl
    · cases h
  · rw [List.concat_eq_append] at hl
    rw [parent_of_concat hl] at h
    obtain ⟨dropped, hdropped, -⟩ := trimVoid_append_void l
    have hnamed : isVoid last = false := getLast?_trimVoid _ last (by rw [hl]; simp)
    refine Or.inr ⟨trimVoid l, dropped ++ last :: tail, last, (Option.some.inj h).symm, ?_, by simp,
      List.rdropWhile_idempotent isVoid l, ?_⟩
    · rw [htail, hl]
      conv => lhs; rw [hdropped]
      simp
    · rw [← bodyParts_trimVoid, hl, bodyParts_append, bodyParts_trimVoid]
      simp [bodyParts, hnamed]

theorem parts_parent {p q : Path} (h : p.parent = some q) : q.parts = p.parts.dropLast := by
  rcases parent_split h with ⟨rfl, hhere⟩ | ⟨l, more, last, rfl, hpieces, -, hlast, hbody⟩
  · rw [hhere]
    rfl
  · rw [parts_of_lead hpieces hlast, parts_eq p, hbody, ← List.append_assoc, List.dropLast_concat]

theorem exists_parent {p : Path} {name : List Char} (h : p.parts.getLast? = some (.name name)) :
    ∃ q, p.parent = some q := by
  rcases List.eq_nil_or_concat (trimVoid (pieces (splitLead p.chars).2)) with hnil | ⟨l, last, hl⟩
  · rw [parts_eq, ← bodyParts_trimVoid, hnil] at h
    rcases splitLead_cases p.chars with ⟨body, hs⟩ | hs | ⟨r, hs⟩ | hs <;> rw [hs] at h <;> cases h
  · rw [List.concat_eq_append] at hl
    exact ⟨_, parent_of_concat hl⟩

theorem eq_append_splitLead (cs : List Char) : cs = (splitLead cs).1 ++ (splitLead cs).2 := by
  unfold splitLead
  split <;> rfl

/-- The pieces of a path go on from those of its parent, unless the parent is all lead. -/
theorem pieces_parent {p q : Path} (h : p.parent = some q) :
    q.chars = [] ∨ q.chars = ['.'] ∨ q.chars = ['/'] ∨
      ∃ more, more ≠ [] ∧ pieces p.chars = pieces q.chars ++ more := by
  rcases parent_split h with ⟨rfl, -⟩ | ⟨l, more, last, rfl, hpieces, hmore, hlast, -⟩
  · exact Or.inl rfl
  have hchars := eq_append_splitLead p.chars
  have hslash : ∀ piece ∈ l, '/' ∉ piece := fun piece hpiece =>
    no_slash_of_mem_pieces (by rw [hpieces]; exact List.mem_append_left _ hpiece)
  have hvoid : l ≠ [[]] := by
    rintro rfl
    cases hlast
  by_cases hl : l = []
  · subst hl
    rcases splitLead_cases p.chars with ⟨body, hs⟩ | hs | ⟨r, hs⟩ | hs <;> rw [hs] <;> simp [unite]
  have hunite := pieces_unite hl hslash
  refine Or.inr (Or.inr (Or.inr ⟨more, hmore, ?_⟩))
  rcases splitLead_cases p.chars with ⟨body, hs⟩ | hs | ⟨r, hs⟩ | hs
  · rw [hs] at hpieces hchars ⊢
    simp [hchars, pieces, hpieces, hunite]
  · rw [hs] at hpieces
    obtain ⟨piece, l, rfl⟩ := List.exists_cons_of_ne_nil hl
    obtain ⟨rfl, rfl, -⟩ : piece = [] ∧ l = [] ∧ more = [] := by simpa [pieces] using hpieces.symm
    exact absurd rfl hvoid
  · -- The slash after the dot is the first void piece of the body.
    rw [hs] at hpieces hchars ⊢
    obtain ⟨piece, l, rfl⟩ := List.exists_cons_of_ne_nil hl
    obtain ⟨rfl, hrest⟩ : piece = [] ∧ pieces r = l ++ more := by
      simpa [pieces, eq_comm] using hpieces
    cases l with
    | nil => exact absurd rfl hvoid
    | cons second l =>
      have hbody : pieces (unite (second :: l)) = second :: l :=
        pieces_unite (by simp) fun piece hpiece => hslash piece (by simp [hpiece])
      simp [hchars, pieces, unite, hbody, hrest]
  · rw [hs] at hpieces ⊢
    simpa [hunite] using hpieces

end ModuleCompiler.Path
