/-!
Paths as text, and the rules that read them. A path is cut at its slashes; an empty piece and a
lone dot name nothing, except that a path which starts with a dot keeps that dot. Two paths may be
spelled differently and still have the same parts.
-/

namespace ModuleCompiler

/-- A path exactly as it was written. -/
structure Path where
  chars : List Char
  deriving DecidableEq, Inhabited

namespace Path

/-- One step of a path. -/
inductive Part where
  | root
  | here
  | up
  | name (text : List Char)
  deriving DecidableEq

def ofString (text : String) : Path := ⟨text.toList⟩

def toText (p : Path) : String := String.ofList p.chars

def empty : Path := ⟨[]⟩

def isEmpty (p : Path) : Bool := p.chars.isEmpty

/-- The stretches between slashes, empty ones included. -/
def pieces : List Char → List (List Char)
  | [] => [[]]
  | c :: cs =>
    if c = '/' then [] :: pieces cs
    else match pieces cs with
      | [] => [[c]]
      | p :: ps => (c :: p) :: ps

/-- The text whose pieces are given. -/
def unite : List (List Char) → List Char
  | [] => []
  | [p] => p
  | p :: q :: ps => p ++ '/' :: unite (q :: ps)

/-- Splits off what stands before the body: the root slash, or a dot that opens the path. -/
def splitLead : List Char → List Char × List Char
  | '/' :: rest => (['/'], rest)
  | ['.'] => (['.'], [])
  | '.' :: '/' :: rest => (['.'], '/' :: rest)
  | cs => ([], cs)

/-- A piece of the body that names nothing. -/
def isVoid (piece : List Char) : Bool := piece = [] || piece = ['.']

def partOfPiece (piece : List Char) : Part :=
  if piece = ['.', '.'] then .up else .name piece

def leadParts (lead : List Char) : List Part :=
  if lead = ['/'] then [.root] else if lead = ['.'] then [.here] else []

/-- The steps of a path, in order. -/
def parts (p : Path) : List Part :=
  let (lead, body) := splitLead p.chars
  leadParts lead ++ ((pieces body).filter (!isVoid ·)).map partOfPiece

/-- The number of steps. -/
def depth (p : Path) : Nat := p.parts.length

/-- Equality up to spelling. -/
def same (p q : Path) : Bool := p.parts = q.parts

/-- Whether the steps of `base` open the steps of `p`. -/
def startsWith (p base : Path) : Bool := base.parts.isPrefixOf p.parts

/-- Drops the pieces at the end that name nothing. -/
def trimVoid (ps : List (List Char)) : List (List Char) :=
  (ps.reverse.dropWhile isVoid).reverse

/-- The path without its last step; a root or an empty path has none. -/
def parent (p : Path) : Option Path :=
  let (lead, body) := splitLead p.chars
  match trimVoid (pieces body) with
  | [] => if lead = ['.'] then some empty else none
  | q :: qs => some ⟨lead ++ unite (trimVoid (q :: qs).dropLast)⟩

/-- The last step, when it is a name. -/
def fileName (p : Path) : Option (List Char) :=
  match p.parts.getLast? with
  | some (.name text) => some text
  | _ => none

/-- A file name cut at its last dot. A dot that opens the name does not count. -/
def splitAtDot (name : List Char) : List Char × Option (List Char) :=
  let after := (name.reverse.takeWhile (· ≠ '.')).reverse
  match name.length - after.length with
  | 0 => (name, none)
  | 1 => (name, none)
  | n + 2 => (name.take (n + 1), some after)

/-- The file name without its extension. -/
def fileStem (p : Path) : Option (List Char) := p.fileName.map fun n => (splitAtDot n).1

def extension (p : Path) : Option (List Char) := p.fileName.bind fun n => (splitAtDot n).2

/-- Appends a path; a rooted one takes over, and a slash is put between where there is none. -/
def join (p q : Path) : Path :=
  match q.chars, p.chars.getLast? with
  | '/' :: _, _ => q
  | _, none => q
  | _, some '/' => ⟨p.chars ++ q.chars⟩
  | _, some _ => ⟨p.chars ++ '/' :: q.chars⟩

/-- Appends a path given as text. -/
def child (p : Path) (text : String) : Path := p.join (ofString text)

theorem pieces_ne_nil (cs : List Char) : pieces cs ≠ [] := by
  cases cs with
  | nil => simp [pieces]
  | cons c cs =>
    unfold pieces
    split
    · simp
    · split <;> simp

theorem unite_pieces (cs : List Char) : unite (pieces cs) = cs := by
  induction cs with
  | nil => rfl
  | cons c cs ih =>
    obtain ⟨q, qs, hp⟩ := List.exists_cons_of_ne_nil (pieces_ne_nil cs)
    rw [hp] at ih
    by_cases hc : c = '/'
    · simp only [pieces, hc, if_true, hp, unite, ih, List.nil_append]
    · cases qs with
      | nil => simpa [pieces, hc, hp, unite] using ih
      | cons r rs =>
        simp only [pieces, hc, if_false, hp, unite, List.cons_append] at ih ⊢
        rw [ih]

theorem length_unite_le_append (ps qs : List (List Char)) :
    (unite ps).length ≤ (unite (ps ++ qs)).length := by
  induction ps with
  | nil => simp [unite]
  | cons p ps ih =>
    cases ps with
    | nil => cases qs <;> simp [unite]
    | cons r rs =>
      simp only [List.cons_append, unite, List.length_append, List.length_cons] at ih ⊢
      omega

theorem length_unite_concat_pos (ps : List (List Char)) (last : List Char) (h : last ≠ []) :
    (unite ps).length < (unite (ps ++ [last])).length := by
  have hlast := List.length_pos_iff.mpr h
  induction ps with
  | nil => simpa [unite] using hlast
  | cons p ps ih =>
    cases ps with
    | nil => simp [unite]
    | cons r rs =>
      simp only [List.cons_append, unite, List.length_append, List.length_cons] at ih ⊢
      omega

theorem trimVoid_append (ps : List (List Char)) : ∃ tail, ps = trimVoid ps ++ tail := by
  refine ⟨(ps.reverse.takeWhile isVoid).reverse, ?_⟩
  rw [trimVoid, ← List.reverse_append, List.takeWhile_append_dropWhile, List.reverse_reverse]

theorem length_unite_trimVoid_le (ps : List (List Char)) :
    (unite (trimVoid ps)).length ≤ (unite ps).length := by
  obtain ⟨tail, h⟩ := trimVoid_append ps
  have := length_unite_le_append (trimVoid ps) tail
  rwa [← h] at this

/-- What is left after trimming ends in a piece that names something. -/
theorem getLast?_trimVoid (ps : List (List Char)) (last : List Char)
    (h : (trimVoid ps).getLast? = some last) : isVoid last = false := by
  rw [trimVoid, List.getLast?_reverse] at h
  have := List.head?_dropWhile_not isVoid ps.reverse
  rw [h] at this
  simpa using this

theorem length_splitLead (cs : List Char) :
    (splitLead cs).1.length + (splitLead cs).2.length = cs.length := by
  unfold splitLead
  split <;> simp <;> omega

theorem length_parent_lt {p q : Path} (h : p.parent = some q) :
    q.chars.length < p.chars.length := by
  have hlead := length_splitLead p.chars
  revert h hlead
  unfold parent
  rcases splitLead p.chars with ⟨lead, body⟩
  cases ht : trimVoid (pieces body) with
  | nil =>
    intro h hlead
    simp only [ht] at h hlead
    by_cases hl : lead = ['.']
    · rw [if_pos hl, Option.some.injEq] at h
      subst h hl
      simp only [empty, List.length_nil, List.length_cons] at hlead ⊢
      omega
    · rw [if_neg hl] at h
      cases h
  | cons r rs =>
    intro h hlead
    simp only [ht, Option.some.injEq] at h hlead
    subst h
    simp only [List.length_append]
    have h1 := length_unite_trimVoid_le ((r :: rs).dropLast)
    have hne : (r :: rs) ≠ [] := by simp
    have hvoid := getLast?_trimVoid (pieces body) ((r :: rs).getLast hne)
      (by rw [ht, List.getLast?_eq_some_getLast hne])
    have hlast : (r :: rs).getLast hne ≠ [] := by
      intro hnil
      simp [hnil, isVoid] at hvoid
    have h2 := length_unite_concat_pos (r :: rs).dropLast _ hlast
    rw [List.dropLast_concat_getLast hne] at h2
    have h3 := length_unite_trimVoid_le (pieces body)
    rw [unite_pieces, ht] at h3
    omega

end Path

end ModuleCompiler
