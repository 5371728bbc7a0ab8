/-!
# White space

Words of a script are separated by white space, and white space at the end of a
hex line is ignored.  White space means the characters with the Unicode property
`White_Space`, which are more than the ASCII ones: the no-break space and the
ideographic space belong to it, the zero-width space does not.

The text layer works on lists of characters, so that every reader below is a
recursion on its input.
-/

namespace IspStream.Text

/-- The code points with the property `White_Space`, as ranges in ascending
order with both ends included. -/
def blankRanges : List (Nat × Nat) :=
  [(0x09, 0x0D), (0x20, 0x20), (0x85, 0x85), (0xA0, 0xA0), (0x1680, 0x1680),
    (0x2000, 0x200A), (0x2028, 0x2029), (0x202F, 0x202F), (0x205F, 0x205F), (0x3000, 0x3000)]

/-- Whether a character is white space. -/
def isBlank (character : Char) : Bool :=
  blankRanges.any fun range =>
    decide (range.1 ≤ character.toNat) && decide (character.toNat ≤ range.2)

/-- Every character that core counts as white space is white space here. -/
theorem isBlank_of_isWhitespace {character : Char} (h : character.isWhitespace = true) :
    isBlank character = true := by
  simp only [Char.isWhitespace, Bool.or_eq_true, decide_eq_true_eq] at h
  rcases h with ((h | h) | h) | h <;> subst h <;> decide

example : (blankRanges.map fun range => range.2 + 1 - range.1).sum = 25 := by decide

example : isBlank '\u200b' = false := by decide

/-! ## Trimming -/

/-- The text without the white space it starts with. -/
def trimStart (text : List Char) : List Char := text.dropWhile isBlank

/-- The text without the white space it ends with. -/
def trimEnd (text : List Char) : List Char := (text.reverse.dropWhile isBlank).reverse

/-- The text without white space at either end. -/
def trim (text : List Char) : List Char := trimEnd (trimStart text)

/-- Splits a text into its first word and what follows the white space behind
it, if there is any. -/
def splitWord (text : List Char) : List Char × Option (List Char) :=
  let word := text.takeWhile fun character => !isBlank character
  match text.dropWhile fun character => !isBlank character with
  | [] => (word, none)
  | rest => (word, some (trimStart rest))

end IspStream.Text
