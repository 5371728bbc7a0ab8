/-!
# Text without terminal controls

A text that goes to an error log must not steer a terminal, so control characters
and control sequences are taken out of it.  A sequence starts at the escape
character, and the characters behind that decide how it goes on:

* an escape sequence ends at its first character that is no intermediate one;
* a control sequence, behind `[`, ends at its final character;
* a device control string, behind `P`, has a header like that of a control
  sequence, and a body;
* other control strings, behind `X`, `^` or `_`, have a body only;
* a system command, behind `]`, ends at a bell.

A body ends at the string terminator.  Two control characters cancel any sequence,
and another escape character starts a new one.

What is left of a text is its plain part.  A sequence that never ends hides
the rest of the text, and possibly the line end.
-/

namespace IspStream.Text.Terminal

/-- Whether a character has a code in a range, with both ends included. -/
def within (first last : Nat) (character : Char) : Bool :=
  decide (first ≤ character.toNat) && decide (character.toNat ≤ last)

/-- Intermediate characters of a sequence. -/
def isIntermediate : Char → Bool := within 0x20 0x2F

/-- Parameter characters of a sequence. -/
def isParameter : Char → Bool := within 0x30 0x3F

/-- Parameter characters that mark a private sequence, and may only come first. -/
def isPrivateMark : Char → Bool := within 0x3C 0x3F

/-- Final characters of a control sequence and of the header of a device control
string. -/
def isFinal : Char → Bool := within 0x40 0x7E

/-- The control characters that separate words or lines. -/
def isLayout (character : Char) : Bool := ['\t', '\n', '\x0c', '\r'].contains character

/-- Whether a character ends the body of a control string.  The string terminator
is the byte `9C`, whichever character it is a part of. -/
def endsBody (character : Char) : Bool := (String.utf8EncodeChar character).contains 0x9C

/-- Where in a text a reader stands. -/
inductive Mode where
  /-- In plain text. -/
  | plain
  /-- Directly behind an escape character. -/
  | escape
  /-- Behind an escape character and intermediate ones. -/
  | escapeIntermediate
  /-- In a control sequence. -/
  | sequence
  /-- At the start of the header of a device control string. -/
  | header
  /-- Behind a parameter of the header. -/
  | headerParameter
  /-- Behind an intermediate character of the header. -/
  | headerIntermediate
  /-- In the body of a control string. -/
  | body
  /-- In a system command. -/
  | command
deriving DecidableEq, Repr

namespace Mode

/-- The mode that a character behind an escape character leads to. -/
def behindEscape (character : Char) : Mode :=
  if character = '[' then sequence
  else if character = ']' then command
  else if character = 'P' then header
  else if character = 'X' ∨ character = '^' ∨ character = '_' then body
  else if isIntermediate character then escapeIntermediate
  else if isParameter character ∨ isFinal character then plain
  else escape

/-- The mode behind a character that neither cancels nor starts a sequence. -/
def continued (mode : Mode) (character : Char) : Mode :=
  match mode with
  | plain => plain
  | escape => behindEscape character
  | escapeIntermediate =>
    if isParameter character ∨ isFinal character then plain else escapeIntermediate
  | sequence => if isFinal character then plain else sequence
  | header =>
    if isFinal character then body
    else if isIntermediate character then headerIntermediate
    else if isParameter character then headerParameter
    else header
  | headerParameter =>
    -- a private mark in the wrong place spoils the header
    if isFinal character ∨ isPrivateMark character then body
    else if isIntermediate character then headerIntermediate
    else headerParameter
  | headerIntermediate =>
    -- and so does a parameter behind an intermediate character
    if isFinal character ∨ isParameter character then body else headerIntermediate
  | body => if endsBody character then plain else body
  | command => if character = '\x07' then plain else command

/-- The mode behind a character. -/
def next (mode : Mode) (character : Char) : Mode :=
  if character = '\x1b' then escape
  else if character = '\x18' ∨ character = '\x1a' then plain
  else mode.continued character

/-- Whether a character is shown.  White space that separates lines is shown within
an escape or control sequence too, but not within a string. -/
def isShown (mode : Mode) (character : Char) : Bool :=
  match mode with
  | plain => isLayout character || (decide (0x20 ≤ character.toNat) && character != '\x7f')
  | escape | escapeIntermediate | sequence => isLayout character
  | header | headerParameter | headerIntermediate | body | command => false

end Mode

/-- The characters that are shown from a mode on. -/
def shown : Mode → List Char → List Char
  | _, [] => []
  | mode, character :: rest =>
    let later := shown (mode.next character) rest
    if mode.isShown character then character :: later else later

/-- The plain part of a text. -/
def plainPart (text : String) : String := String.ofList (shown .plain text.toList)

example : plainPart "a\x1b[1mb\x1b(Bc\x07\x7f\n" = "abc\n" := by decide +kernel

example : plainPart "a\x1b]title\x07b\x1bXhidden\x1b\\c" = "abc" := by decide +kernel

example : plainPart "a\x1b[\n" = "a\n" ∧ plainPart "a\x1b]\n" = "a" := by decide +kernel

/-- A text without control characters is plain as a whole. -/
theorem shown_of_forall {text : List Char}
    (h : ∀ character ∈ text, 0x20 ≤ character.toNat ∧ character ≠ '\x7f') :
    shown .plain text = text := by
  induction text with
  | nil => rfl
  | cons character rest ih =>
      obtain ⟨hcode, hdelete⟩ := h character List.mem_cons_self
      have hrest := ih fun other hother => h other (List.mem_cons_of_mem _ hother)
      have hnext : Mode.plain.next character = .plain := by
        have hescape : character ≠ '\x1b' := by rintro rfl; exact absurd hcode (by decide)
        simp [Mode.next, Mode.continued, hescape]
      simp [shown, hnext, hrest, Mode.isShown, hcode, hdelete]

end IspStream.Text.Terminal
