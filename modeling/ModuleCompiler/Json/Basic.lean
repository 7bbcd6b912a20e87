/-!
JSON texts, read strictly. A string may hold escapes that pair up to no character; such a string
is well formed but has no text.
-/

namespace ModuleCompiler

inductive Json where
  | null
  | bool (value : Bool)
  | number (lexeme : List Char)
  | string (text : Option String)
  | array (items : List Json)
  | object (members : List (Option String × Json))

namespace Json

/-- Only these four characters may stand between tokens. -/
def isSpace (c : Char) : Bool := c = ' ' || c = '\t' || c = '\n' || c = '\r'

def skipSpace (cs : List Char) : List Char := cs.dropWhile isSpace

/-- Splits off a run of digits that is not empty. -/
def digits? (cs : List Char) : Option (List Char × List Char) :=
  match cs.takeWhile Char.isDigit with
  | [] => none
  | d :: ds => some (d :: ds, cs.dropWhile Char.isDigit)

/-- The digits before the point: a zero stands alone. -/
def integer? : List Char → Option (List Char × List Char)
  | '0' :: rest =>
    match rest with
    | d :: _ => if d.isDigit then none else some (['0'], rest)
    | [] => some (['0'], [])
  | cs => digits? cs

def fraction? : List Char → Option (List Char × List Char)
  | '.' :: rest => (digits? rest).map fun (ds, after) => ('.' :: ds, after)
  | cs => some ([], cs)

/-- Splits off the sign of an exponent. -/
def exponentSign : List Char → List Char × List Char
  | '+' :: rest => (['+'], rest)
  | '-' :: rest => (['-'], rest)
  | cs => ([], cs)

def exponent? : List Char → Option (List Char × List Char)
  | [] => some ([], [])
  | c :: rest =>
    if c = 'e' || c = 'E' then
      let (sign, digits) := exponentSign rest
      (digits? digits).map fun (ds, after) => (c :: sign ++ ds, after)
    else some ([], c :: rest)

def unsigned? (cs : List Char) : Option (List Char × List Char) := do
  let (whole, cs) ← integer? cs
  let (part, cs) ← fraction? cs
  let (power, cs) ← exponent? cs
  return (whole ++ part ++ power, cs)

def number? : List Char → Option (List Char × List Char)
  | '-' :: rest => (unsigned? rest).map fun (ds, after) => ('-' :: ds, after)
  | cs => unsigned? cs

/-- A character of a string, or the sixteen bits of an escape by number. -/
inductive Code where
  | char (c : Char)
  | bits (n : Nat)

def hexDigit? (c : Char) : Option Nat :=
  if c.isDigit then some (c.toNat - '0'.toNat)
  else if 'a' ≤ c ∧ c ≤ 'f' then some (c.toNat - 'a'.toNat + 10)
  else if 'A' ≤ c ∧ c ≤ 'F' then some (c.toNat - 'A'.toNat + 10)
  else none

def hexQuad? (a b c d : Char) : Option Nat := do
  let high := (← hexDigit? a) * 16 + (← hexDigit? b)
  let low := (← hexDigit? c) * 16 + (← hexDigit? d)
  return high * 256 + low

def escapedChar? : Char → Option Char
  | '"' => some '"'
  | '\\' => some '\\'
  | '/' => some '/'
  | 'b' => some (Char.ofNat 0x8)
  | 'f' => some (Char.ofNat 0xc)
  | 'n' => some '\n'
  | 'r' => some '\r'
  | 't' => some '\t'
  | _ => none

/-- The codes up to the closing quote, and what follows it. -/
def codes? : List Char → Option (List Code × List Char)
  | [] => none
  | '"' :: rest => some ([], rest)
  | '\\' :: 'u' :: a :: b :: c :: d :: rest => do
    let n ← hexQuad? a b c d
    let (codes, after) ← codes? rest
    return (.bits n :: codes, after)
  | '\\' :: c :: rest => do
    let e ← escapedChar? c
    let (codes, after) ← codes? rest
    return (.char e :: codes, after)
  | c :: rest => do
    if c.toNat < 0x20 then none
    let (codes, after) ← codes? rest
    return (.char c :: codes, after)

/-- Sixteen bits that are the first half of a pair. -/
def isHighHalf (n : Nat) : Bool := 0xd800 ≤ n && n ≤ 0xdbff

/-- Sixteen bits that are the second half of a pair. -/
def isLowHalf (n : Nat) : Bool := 0xdc00 ≤ n && n ≤ 0xdfff

/-- The character that a pair of halves stands for. -/
def charOfHalves (high low : Nat) : Char :=
  Char.ofNat (0x10000 + (high - 0xd800) * 0x400 + (low - 0xdc00))

/-- The characters that codes stand for. Halves count only as a pair, first before second. -/
def charsOfCodes : List Code → Option (List Char)
  | [] => some []
  | .char c :: rest => (charsOfCodes rest).map (c :: ·)
  | .bits high :: .bits low :: rest =>
    if isHighHalf high then
      if isLowHalf low then (charsOfCodes rest).map (charOfHalves high low :: ·) else none
    else if isLowHalf high then none
    else (charsOfCodes (.bits low :: rest)).map (Char.ofNat high :: ·)
  | .bits n :: rest =>
    if isHighHalf n || isLowHalf n then none else (charsOfCodes rest).map (Char.ofNat n :: ·)

/-- Reads a string after its opening quote. -/
def string? (cs : List Char) : Option (Option String × List Char) :=
  (codes? cs).map fun (codes, after) => ((charsOfCodes codes).map String.ofList, after)

def keyword? (word : List Char) (value : Json) (cs : List Char) : Option (Json × List Char) :=
  if word.isPrefixOf cs then some (value, cs.drop word.length) else none

/-- Reads the name of a member and the colon after it. -/
def memberName? (cs : List Char) : Option (Option String × List Char) :=
  match skipSpace cs with
  | '"' :: rest => do
    let (name, after) ← string? rest
    match skipSpace after with
    | ':' :: value => return (name, value)
    | _ => none
  | _ => none

mutual

/-- Reads a value. The number bounds the steps; every second step takes a character off. -/
def value? : Nat → List Char → Option (Json × List Char)
  | 0, _ => none
  | fuel + 1, cs =>
    match skipSpace cs with
    | '\x7b' :: rest =>
      match skipSpace rest with
      | '\x7d' :: after => some (.object [], after)
      | _ => (members? fuel rest).map fun (members, after) => (.object members, after)
    | '[' :: rest =>
      match skipSpace rest with
      | ']' :: after => some (.array [], after)
      | _ => (items? fuel rest).map fun (items, after) => (.array items, after)
    | '"' :: rest => (string? rest).map fun (text, after) => (.string text, after)
    | 't' :: rest => keyword? ['r', 'u', 'e'] (.bool true) rest
    | 'f' :: rest => keyword? ['a', 'l', 's', 'e'] (.bool false) rest
    | 'n' :: rest => keyword? ['u', 'l', 'l'] .null rest
    | other => (number? other).map fun (lexeme, after) => (.number lexeme, after)

/-- Reads the items of an array that is not empty, and its closing bracket. -/
def items? : Nat → List Char → Option (List Json × List Char)
  | 0, _ => none
  | fuel + 1, cs => do
    let (item, rest) ← value? fuel cs
    match skipSpace rest with
    | ']' :: after => return ([item], after)
    | ',' :: more =>
      let (items, after) ← items? fuel more
      return (item :: items, after)
    | _ => none

/-- Reads the members of an object that is not empty, and its closing brace. -/
def members? : Nat → List Char → Option (List (Option String × Json) × List Char)
  | 0, _ => none
  | fuel + 1, cs => do
    let (name, rest) ← memberName? cs
    let (value, rest) ← value? fuel rest
    match skipSpace rest with
    | '\x7d' :: after => return ([(name, value)], after)
    | ',' :: more =>
      let (members, after) ← members? fuel more
      return ((name, value) :: members, after)
    | _ => none

end

/-- Reads a text that is one value and nothing else. -/
def parse? (text : List Char) : Option Json :=
  match value? (2 * text.length + 2) text with
  | some (value, rest) => if (skipSpace rest).isEmpty then some value else none
  | none => none

end Json

end ModuleCompiler
