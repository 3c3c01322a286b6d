/-!
# White space

The characters with the Unicode property White_Space, and the removal of them at both ends
of a text.
-/

namespace LoxLang.Text

/-- The ranges of code points with the property White_Space. -/
def whiteSpaceRanges : List (Nat × Nat) :=
  [(0x9, 0xD), (0x20, 0x20), (0x85, 0x85), (0xA0, 0xA0), (0x1680, 0x1680), (0x2000, 0x200A),
   (0x2028, 0x2029), (0x202F, 0x202F), (0x205F, 0x205F), (0x3000, 0x3000)]

/-- The character has the property White_Space. -/
def isWhiteSpace (c : Char) : Bool :=
  whiteSpaceRanges.any fun (first, last) => first ≤ c.toNat && c.toNat ≤ last

/-- The text without white space at its ends. -/
def trimChars (cs : List Char) : List Char :=
  ((cs.dropWhile isWhiteSpace).reverse.dropWhile isWhiteSpace).reverse

/-- The text without white space at its ends. -/
def trim (text : String) : String := String.ofList (trimChars text.toList)

/-- The lines of a text, given the characters of the first line before it in reverse. What
follows the last line feed is a line only if it is not empty. -/
def linesAfter (before : List Char) : List Char → List (List Char)
  | [] => if before.isEmpty then [] else [before.reverse]
  | c :: rest =>
    if c == '\n' then before.reverse :: linesAfter [] rest else linesAfter (c :: before) rest

/-- The lines of a text, without their line feeds. -/
def lines (text : String) : List String := (linesAfter [] text.toList).map String.ofList

end LoxLang.Text
