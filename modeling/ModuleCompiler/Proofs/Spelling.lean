import ModuleCompiler.Proofs.Containment
import ModuleCompiler.Proofs.Reopening

/-!
How long paths are. A path that goes on from another as a text is at least as long as the shortest
way to spell the place it leads to from there: what leads down to that place are names that the path
itself has. So a folder that could be made by such a path can be listed by the path that a walk
finds it under.
-/

namespace ModuleCompiler

namespace Path

variable {p q r : Path} {loc names : List (List Char)}

/-- The pieces to which those of an appended path are added. -/
def stem (p : Path) : List (List Char) :=
  if p.chars.getLast? = some '/' then (pieces p.chars).dropLast else pieces p.chars

theorem stem_of_slash {cs : List Char} (h : p.chars = cs ++ ['/']) :
    p.stem = pieces cs ∧ pieces p.chars = p.stem ++ [[]] := by
  have hpieces : pieces p.chars = pieces cs ++ [[]] := by
    rw [h, pieces_append_slash]
    rfl
  have hstem : p.stem = pieces cs := by
    rw [stem, if_pos (by simp [h]), hpieces, List.dropLast_concat]
  exact ⟨hstem, hstem ▸ hpieces⟩

theorem stem_of_not_slash (h : p.chars.getLast? ≠ some '/') : p.stem = pieces p.chars := if_neg h

/-- All pieces but for an empty one at the end. -/
theorem stem_append (p : Path) :
    ∃ tail, pieces p.chars = p.stem ++ tail ∧ (tail = [] ∨ tail = [[]]) := by
  by_cases h : p.chars.getLast? = some '/'
  · obtain ⟨cs, hcs⟩ := List.getLast?_eq_some_iff.mp h
    exact ⟨[[]], (stem_of_slash hcs).2, Or.inr rfl⟩
  · exact ⟨[], by rw [stem_of_not_slash h, List.append_nil], Or.inl rfl⟩

theorem stepsOf_stem (p : Path) : stepsOf p.stem = p.steps := by
  obtain ⟨tail, hpieces, htail⟩ := stem_append p
  rw [steps, hpieces, stepsOf_append]
  rcases htail with rfl | rfl
  · rw [show stepsOf [] = [] from rfl, List.append_nil]
  · rw [show stepsOf [[]] = [] from rfl, List.append_nil]

theorem pieces_join (hne : p.chars ≠ []) (h : q.chars.head? ≠ some '/') :
    pieces (p.join q).chars = p.stem ++ pieces q.chars := by
  unfold join
  split
  case h_1 _ rest hq => simp [hq] at h
  case h_2 hlast _ => exact absurd (List.getLast?_eq_none_iff.mp hlast) hne
  case h_3 hlast _ =>
    obtain ⟨cs, hcs⟩ := List.getLast?_eq_some_iff.mp hlast
    rw [hcs, (stem_of_slash hcs).1, List.append_assoc, List.singleton_append, pieces_append_slash]
  case h_4 last hother hlast _ =>
    have hslash : p.chars.getLast? ≠ some '/' := by
      rw [hlast]
      intro heq
      exact hother (Option.some.inj heq)
    rw [pieces_append_slash, stem_of_not_slash hslash]

theorem stem_join (hne : p.chars ≠ []) (h : q.chars.head? ≠ some '/') :
    p.stem <+: (p.join q).stem := by
  have hpieces := pieces_join hne h
  obtain ⟨tail, hsplit, htail⟩ := stem_append (p.join q)
  rw [hpieces] at hsplit
  rcases htail with rfl | rfl
  · rw [List.append_nil] at hsplit
    rw [← hsplit]
    exact List.prefix_append ..
  · -- An empty piece at the end is the last of the appended ones.
    obtain ⟨init, last, hq⟩ := (List.eq_nil_or_concat' (pieces q.chars)).resolve_left
      (pieces_ne_nil _)
    rw [hq, ← List.append_assoc] at hsplit
    rw [← (List.append_inj' hsplit rfl).1]
    exact List.prefix_append ..

theorem chars_join_ne_nil (hne : p.chars ≠ []) : (p.join q).chars ≠ [] := by
  unfold join
  split
  · rename_i hq
    simp [hq]
  · rename_i hlast _
    exact absurd (List.getLast?_eq_none_iff.mp hlast) hne
  · simp [hne]
  · simp

theorem prefix_join (h : q.chars.head? ≠ some '/') : p.chars <+: (p.join q).chars := by
  unfold join
  split
  case h_1 _ rest hq => simp [hq] at h
  case h_2 hlast _ =>
    rw [List.getLast?_eq_none_iff.mp hlast]
    exact List.nil_prefix
  case h_3 => exact List.prefix_append ..
  case h_4 => exact List.prefix_append ..

/-- A path that goes on from another as a text. -/
structure GoesOn (p q : Path) : Prop where
  stem : p.stem <+: q.stem
  ne_nil : q.chars ≠ []

theorem GoesOn.join (h : GoesOn p q) (hr : r.chars.head? ≠ some '/') : GoesOn p (q.join r) :=
  ⟨h.stem.trans (stem_join h.ne_nil hr), chars_join_ne_nil h.ne_nil⟩

theorem GoesOn.descend (h : GoesOn p q) (hnames : ∀ name ∈ names, IsName name) :
    GoesOn p (Disk.descend q names) := by
  induction names generalizing q with
  | nil => exact h
  | cons name names ih =>
    exact ih (h.join (hnames name (by simp)).stays.1) fun x hx => hnames x (by simp [hx])

/-- A path that goes on from another as a text, or goes only a part of its way. -/
def Follows (p q : Path) : Prop := p.stem <+: q.stem ∨ q.steps <+: p.steps

theorem GoesOn.follows (h : GoesOn p q) : Follows p q := Or.inl h.stem

theorem Follows.parent (h : Follows p q) (hparent : q.parent = some r) : Follows p r := by
  have hsteps := steps_parent hparent
  rcases h with h | h
  · have hvoid : r.steps = [] → Follows p r := fun hnil => Or.inr (hnil ▸ List.nil_prefix)
    rcases pieces_parent hparent with hr | hr | hr | ⟨more, -, hpieces⟩
    · exact hvoid (by rw [steps, hr]; rfl)
    · exact hvoid (by rw [steps, hr]; rfl)
    · exact hvoid (by rw [steps, hr]; rfl)
    · -- Both begin the pieces of the path, so one begins the other.
      obtain ⟨tail, hq, -⟩ := stem_append q
      obtain ⟨tail', hr, -⟩ := stem_append r
      have hfirst : p.stem <+: pieces q.chars := h.trans (hq ▸ List.prefix_append ..)
      have hsecond : r.stem <+: pieces q.chars := by
        rw [hpieces, hr, List.append_assoc]
        exact List.prefix_append ..
      rcases List.prefix_or_prefix_of_prefix hfirst hsecond with hstem | hstem
      · exact Or.inl hstem
      · refine Or.inr ?_
        rw [← stepsOf_stem, ← stepsOf_stem]
        exact hstem.filter _
  · refine Or.inr (List.IsPrefix.trans ?_ h)
    rw [hsteps]
    exact List.dropLast_prefix _

/-- A place is reached by going up from another a number of times and then down by steps that were
taken. -/
theorem exists_placeFrom_eq (loc moves : List (List Char)) :
    ∃ k down, k ≤ loc.length ∧ placeFrom loc moves = loc.take k ++ down ∧ down.Sublist moves := by
  induction moves generalizing loc with
  | nil => exact ⟨loc.length, [], Nat.le_refl _, by simp [placeFrom], .slnil⟩
  | cons step rest ih =>
    unfold placeFrom
    split
    · obtain ⟨k, down, hk, heq, hsub⟩ := ih loc
      exact ⟨k, down, hk, heq, hsub.cons _⟩
    · split
      · obtain ⟨k, down, hk, heq, hsub⟩ := ih loc.dropLast
        rw [List.length_dropLast] at hk
        refine ⟨k, down, by omega, ?_, hsub.cons _⟩
        rw [heq, List.dropLast_eq_take, List.take_take, Nat.min_eq_left hk]
      · obtain ⟨k, down, hk, heq, hsub⟩ := ih (loc ++ [step])
        rw [List.length_append, List.length_singleton] at hk
        rcases Nat.lt_or_eq_of_le hk with hlt | rfl
        · refine ⟨k, down, by omega, ?_, hsub.cons _⟩
          rw [heq, List.take_append_of_le_length (by omega)]
        · refine ⟨loc.length, step :: down, Nat.le_refl _, ?_, hsub.cons_cons _⟩
          rw [heq, List.take_of_length_le (by simp), List.take_length, List.append_assoc,
            List.singleton_append]

theorem sublist_of_placeFrom {moves : List (List Char)} (h : placeFrom loc moves = loc ++ names) :
    names.Sublist moves := by
  obtain ⟨k, down, hk, heq, hsub⟩ := exists_placeFrom_eq loc moves
  rw [h] at heq
  nth_rewrite 1 [← List.take_append_drop k loc] at heq
  rw [List.append_assoc] at heq
  have hdown := List.append_cancel_left heq
  exact (List.sublist_append_right ..).trans (hdown ▸ hsub)

end Path

namespace Disk

open ModuleCompiler.Path (pieces)

variable {p q root : Path} {names : List (List Char)}

/-- The bytes that pieces take with a slash after each. -/
def span (ps : List (List Char)) : Nat := (ps.map fun piece => byteLength piece + 1).sum

theorem span_append (a b : List (List Char)) : span (a ++ b) = span a + span b := by
  simp [span]

theorem span_sublist {a b : List (List Char)} (h : a.Sublist b) : span a ≤ span b := by
  induction h with
  | slnil => exact Nat.le_refl _
  | cons x _ ih => exact ih.trans (by simp [span])
  | cons_cons x _ ih => simpa [span] using ih

theorem span_pieces (cs : List Char) : span (pieces cs) = byteLength cs + 1 := by
  induction cs with
  | nil => rfl
  | cons c cs ih =>
    obtain ⟨first, rest, hp⟩ := List.exists_cons_of_ne_nil (Path.pieces_ne_nil cs)
    rw [hp] at ih
    by_cases hc : c = '/'
    · rw [hc]
      simp only [Path.pieces, if_true, hp]
      simp only [span, List.map_cons, List.sum_cons, byteLength] at ih ⊢
      rw [ih]
      rw [show '/'.utf8Size = 1 from rfl]
      omega
    · simp only [Path.pieces, hc, if_false, hp]
      simp only [span, List.map_cons, List.sum_cons, byteLength] at ih ⊢
      omega

theorem span_stem_le (p : Path) : span p.stem ≤ byteLength p.chars + 1 := by
  obtain ⟨tail, hpieces, -⟩ := Path.stem_append p
  rw [← span_pieces, hpieces, span_append]
  exact Nat.le_add_right _ _

theorem le_span_stem (p : Path) : byteLength p.chars ≤ span p.stem := by
  have hspan := span_pieces p.chars
  obtain ⟨tail, hpieces, rfl | rfl⟩ := Path.stem_append p
  · rw [hpieces, span_append] at hspan
    simp only [span, List.map_nil, List.sum_nil] at hspan ⊢
    omega
  · rw [hpieces, span_append] at hspan
    simp only [span, List.map_cons, List.map_nil, List.sum_cons, List.sum_nil, byteLength]
      at hspan ⊢
    omega

theorem stem_join_name {name : List Char} (hne : p.chars ≠ []) (hname : Path.IsName name) :
    (p.join ⟨name⟩).stem = p.stem ++ [name] := by
  have hpieces := Path.pieces_join (q := ⟨name⟩) hne hname.stays.1
  rw [Path.pieces_of_no_slash hname.2.2.2] at hpieces
  obtain ⟨tail, hsplit, rfl | rfl⟩ := Path.stem_append (p.join ⟨name⟩)
  · rw [← hpieces, hsplit, List.append_nil]
  · rw [hpieces] at hsplit
    have hnil := (List.append_inj' hsplit rfl).2
    exact absurd (List.cons.inj hnil).1 hname.1

theorem stem_descend (hne : root.chars ≠ []) (hnames : ∀ name ∈ names, Path.IsName name) :
    (descend root names).stem = root.stem ++ names := by
  induction names generalizing root with
  | nil => simp [descend]
  | cons name names ih =>
    have hname := hnames name (by simp)
    show (descend (root.join ⟨name⟩) names).stem = _
    rw [ih (chars_join_ne_nil hname root) fun x hx => hnames x (by simp [hx]),
      stem_join_name hne hname, List.append_assoc, List.singleton_append]

theorem byteLength_descend (hne : root.chars ≠ []) (hnames : ∀ name ∈ names, Path.IsName name)
    (hsome : names ≠ []) :
    byteLength (descend root names).chars + 1 = span root.stem + span names := by
  obtain ⟨init, last, rfl⟩ := (List.eq_nil_or_concat' names).resolve_left hsome
  have hlast := hnames last (by simp)
  have hinit : ∀ name ∈ init, Path.IsName name := fun name hname => hnames name (by simp [hname])
  have hpieces := Path.pieces_join (q := ⟨last⟩) (chars_descend_ne_nil hne hinit) hlast.stays.1
  rw [Path.pieces_of_no_slash hlast.2.2.2, stem_descend hne hinit] at hpieces
  rw [← span_pieces, ← span_append, ← List.append_assoc, ← hpieces]
  simp [descend]

open Project (scanRoot parent_moduleFile scanRoot_ne_nil moduleFileName)

/-- The folder that is gone through is not spelled longer than the path it was opened by. -/
theorem span_scanRoot_le (hne : p.chars ≠ []) : span (scanRoot p).stem ≤ span p.stem := by
  have hpieces : pieces (p.child moduleFileName).chars = p.stem ++ [moduleFileName.toList] := by
    rw [Path.child, Path.pieces_join hne (by decide)]
    rfl
  have hle := le_span_stem p
  rcases Path.pieces_parent (parent_moduleFile p) with hroot | hroot | hroot | ⟨more, hmore, hsplit⟩
  · exact absurd hroot (scanRoot_ne_nil hne)
  · -- The path itself begins with the dot, and is the dot or longer.
    have hdot : (scanRoot p).stem = [['.']] := by
      rw [Path.stem, hroot]
      rfl
    have hfirst := Path.prefix_of_parent (parent_moduleFile p)
    rw [hroot] at hfirst
    obtain ⟨c, rest, hp⟩ := List.exists_cons_of_ne_nil hne
    rw [hdot]
    cases rest with
    | nil =>
      have hbegin : [c] <+: (p.child moduleFileName).chars := by
        rw [← hp]
        exact Path.prefix_join (by decide)
      have hc : ['.'] = [c] := List.prefix_of_prefix_length_le hfirst hbegin (Nat.le_refl _)
        |>.eq_of_length rfl
      rw [Path.stem, hp, ← hc]
      decide
    | cons c' rest =>
      rw [hp] at hle
      have h1 := Char.utf8Size_pos c
      have h2 := Char.utf8Size_pos c'
      have h3 : span [['.']] = 2 := rfl
      simp only [byteLength] at hle
      omega
  · have hslash : (scanRoot p).stem = [[]] := by
      rw [Path.stem, hroot]
      rfl
    obtain ⟨c, rest, hp⟩ := List.exists_cons_of_ne_nil hne
    rw [hp] at hle
    have h1 := Char.utf8Size_pos c
    have h2 : span [[]] = 1 := rfl
    rw [hslash]
    simp only [byteLength] at hle
    omega
  · obtain ⟨init, last, rfl⟩ := (List.eq_nil_or_concat' more).resolve_left hmore
    rw [hpieces, ← List.append_assoc] at hsplit
    obtain ⟨tail, hroot, -⟩ := Path.stem_append (scanRoot p)
    rw [(List.append_inj' hsplit rfl).1, hroot, List.append_assoc, span_append]
    exact Nat.le_add_right _ _

/-- A path that goes on from another is at least as long as the one under which a walk finds what it
leads to. -/
theorem byteLength_descend_le (hne : p.chars ≠ []) (hstem : p.stem <+: q.stem)
    (hplace : q.place = p.place ++ names) (hnames : ∀ name ∈ names, Path.IsName name)
    (hsome : names ≠ []) :
    byteLength (descend (scanRoot p) names).chars ≤ byteLength q.chars := by
  obtain ⟨more, hmore⟩ := hstem
  have hsub : names.Sublist more := by
    have hmoves : Path.placeFrom p.place (Path.stepsOf more) = p.place ++ names := by
      rw [← hplace, Path.place_eq q, Path.place_eq p, ← Path.stepsOf_stem q, ← hmore,
        Path.stepsOf_append, Path.stepsOf_stem, Path.placeFrom_append]
    exact (Path.sublist_of_placeFrom hmoves).trans List.filter_sublist
  have hlength := byteLength_descend (scanRoot_ne_nil hne) hnames hsome
  have hroot := span_scanRoot_le hne
  have hspan := span_sublist hsub
  have hq := span_stem_le q
  rw [← hmore, span_append] at hq
  omega

end Disk

end ModuleCompiler
