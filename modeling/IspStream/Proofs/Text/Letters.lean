import IspStream.Text.Blank

/-!
# Letters in either case

Only ASCII letters have another case here.  So what is to hold of a character and its upper
case is checked for the ASCII characters, one by one, and there is nothing to check beyond
(`forall_of_ascii`).
-/

namespace IspStream.Text

/-- Beyond ASCII there are no letters to convert. -/
theorem toUpper_of_le {character : Char} (h : 0x80 ≤ character.toNat) :
    character.toUpper = character := by
  refine dif_neg fun hlower => ?_
  have hlast : character.toNat ≤ 0x7A := hlower.2
  omega

theorem toLower_of_le {character : Char} (h : 0x80 ≤ character.toNat) :
    character.toLower = character := by
  refine dif_neg fun hupper => ?_
  have hlast : character.toNat ≤ 0x5A := hupper.2
  omega

/-- What holds of the ASCII characters, and of all that have no other case, holds of every
character. -/
theorem forall_of_ascii {motive : Char → Prop} (character : Char)
    (hascii : ∀ code < 0x80, motive (Char.ofNat code))
    (hother : character.toUpper = character → character.toLower = character → motive character) :
    motive character := by
  rcases Nat.lt_or_ge character.toNat 0x80 with hsmall | hlarge
  · rw [← Char.ofNat_toNat character]
    exact hascii _ hsmall
  · exact hother (toUpper_of_le hlarge) (toLower_of_le hlarge)

theorem toUpper_or_toLower (character : Char) :
    character.toUpper = character ∨ character.toLower = character :=
  forall_of_ascii (motive := fun character =>
      character.toUpper = character ∨ character.toLower = character)
    character (by decide) fun hupper _ => Or.inl hupper

@[simp] theorem toLower_toUpper (character : Char) :
    character.toUpper.toLower = character.toLower :=
  forall_of_ascii (motive := fun character => character.toUpper.toLower = character.toLower)
    character (by decide) fun hupper _ => by rw [hupper]

@[simp] theorem toUpper_toLower (character : Char) :
    character.toLower.toUpper = character.toUpper :=
  forall_of_ascii (motive := fun character => character.toLower.toUpper = character.toUpper)
    character (by decide) fun _ hlower => by rw [hlower]

@[simp] theorem toUpper_toUpper (character : Char) :
    character.toUpper.toUpper = character.toUpper :=
  forall_of_ascii (motive := fun character => character.toUpper.toUpper = character.toUpper)
    character (by decide) fun hupper _ => by rw [hupper, hupper]

@[simp] theorem toLower_toLower (character : Char) :
    character.toLower.toLower = character.toLower :=
  forall_of_ascii (motive := fun character => character.toLower.toLower = character.toLower)
    character (by decide) fun _ hlower => by rw [hlower, hlower]

/-- Two spellings of one character are its own two cases. -/
theorem eq_toUpper_or_eq_toLower {old new : Char} (h : new.toUpper = old.toUpper) :
    new = old.toUpper ∨ new = old.toLower := by
  rcases toUpper_or_toLower new with hupper | hlower
  · exact Or.inl (hupper.symm.trans h)
  · right
    calc new
      _ = new.toUpper.toLower := by rw [toLower_toUpper, hlower]
      _ = old.toLower := by rw [h, toLower_toUpper]

/-- A character without cases has no other spelling. -/
theorem eq_of_toUpper_eq {character separator : Char} (hupper : separator.toUpper = separator)
    (hlower : separator.toLower = separator) (h : character.toUpper = separator.toUpper) :
    character = separator := by
  rcases eq_toUpper_or_eq_toLower h with hsame | hsame
  · exact hsame.trans hupper
  · exact hsame.trans hlower

theorem isBlank_toUpper (character : Char) : isBlank character.toUpper = isBlank character := by
  refine forall_of_ascii
    (motive := fun character => isBlank character.toUpper = isBlank character)
    character (by decide) fun hupper _ => ?_
  rw [hupper]

end IspStream.Text
