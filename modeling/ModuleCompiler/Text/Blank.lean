/-!
White space: the characters with the Unicode property White_Space.
-/

namespace ModuleCompiler.Text

/-- The ranges of code points with the property, in order. -/
def blankRanges : List (Nat × Nat) :=
  [(0x9, 0xd), (0x20, 0x20), (0x85, 0x85), (0xa0, 0xa0), (0x1680, 0x1680), (0x2000, 0x200a),
    (0x2028, 0x2029), (0x202f, 0x202f), (0x205f, 0x205f), (0x3000, 0x3000)]

def isBlankChar (c : Char) : Bool :=
  blankRanges.any fun (first, last) => first ≤ c.toNat && c.toNat ≤ last

/-- Whether a text holds nothing but white space. -/
def isBlank (text : String) : Bool := text.toList.all isBlankChar

end ModuleCompiler.Text
