import IspStream.Proofs.Decoding.Placement
import IspStream.Proofs.Script.Refinement

/-!
# A hex text and a script in one image

The firmware and the command stream are put into the same image, one after the other.  Either
run lays bytes over the image: which bytes these are, for which cells, and what the run answers
depends on the capacity of the image and not on what its cells hold (`Image.Overlaid`).  That
is so for a script with programming commands as well, since these read an image of their own.

Two overlays commute in every cell that only one of them covers (`get?_eq_of_none`), and in a
cell that both cover the later one shows.  `decode_and_compile` says this of a text and a
script, with the covered cells written out.
-/

namespace IspStream

namespace Image

open Record

/-- The second image is the first one with bytes laid over it: a cell holds the byte that there
is for it, and what it held before if there is none. -/
def Overlaid (bytes? : Nat → Option UInt8) (before after : Image) : Prop :=
  ∀ cell, after.get? cell = (bytes? cell).or (before.get? cell)

variable {image first second both other : Image} {upper? lower? : Nat → Option UInt8}
  {text : String} {offset cell stop : Nat}

/-! ## Two overlays -/

theorem Overlaid.get?_of_some {byte : UInt8} (h : Overlaid upper? image first)
    (hcell : upper? cell = some byte) : first.get? cell = some byte := by
  rw [h cell, hcell, Option.some_or]

/-- The order of two overlays does not show in a cell that only one of them covers. -/
theorem Overlaid.get?_eq_of_none (hfirst : Overlaid lower? image first)
    (hboth : Overlaid upper? first both) (hsecond : Overlaid upper? image second)
    (hother : Overlaid lower? second other) (h : lower? cell = none ∨ upper? cell = none) :
    both.get? cell = other.get? cell := by
  rw [hboth cell, hfirst cell, hother cell, hsecond cell]
  rcases h with hnone | hnone
  · rw [hnone, Option.none_or, Option.none_or]
  · rw [hnone, Option.none_or, Option.none_or]

/-! ## A text as an overlay -/

/-- The cells that decoding a text with an offset writes. -/
def Filled (text : String) (offset cell : Nat) : Prop :=
  ∃ write ∈ placementsOfText text, offset + write.address = cell

/-- The byte of a text for a cell: the last one that is placed there. -/
def textByte? (text : String) (offset cell : Nat) : Option UInt8 :=
  if offset ≤ cell then Write.last? (placementsOfText text) (cell - offset) else none

theorem textByte?_eq_none_iff : textByte? text offset cell = none ↔ ¬Filled text offset cell := by
  unfold textByte? Filled
  split
  · rw [Write.last?_eq_none_iff]
    constructor
    · rintro hnone ⟨write, hwrite, hcell⟩
      exact hnone write hwrite (by omega)
    · intro hfree write hwrite haddress
      exact hfree ⟨write, hwrite, by omega⟩
  · simp only [true_iff]
    rintro ⟨write, -, hcell⟩
    omega

/-- Whether a text is decoded, and up to where, depends on the capacity only. -/
theorem decode_eq_ok_of_capacity (h : (image.decode text offset).result = .ok stop)
    (hcapacity : other.capacity = image.capacity) :
    (other.decode text offset).result = .ok stop := by
  rw [decode_eq_ok_iff] at h ⊢
  rwa [Fits, hcapacity]

theorem overlaid_decode (h : (image.decode text offset).result = .ok stop) :
    Overlaid (textByte? text offset) image (image.decode text offset).image := by
  obtain ⟨haccepted, hfits, -⟩ := decode_eq_ok_iff.mp h
  intro cell
  rw [decode_of_fits haccepted hfits, get?_apply, textByte?, writesOfText_eq_placementsOfText]
  by_cases hoffset : offset ≤ cell
  · rw [if_pos hoffset]
    split
    · rfl
    · -- behind the end of the image nothing is placed
      have hnone : Write.last? (placementsOfText text) (cell - offset) = none := by
        rw [Write.last?_eq_none_iff]
        intro write hwrite haddress
        have hroom := hfits write (by rwa [writesOfText_eq_placementsOfText])
        omega
      rw [hnone, Option.none_or]
  · rw [if_neg hoffset, if_neg fun h => hoffset h.1, Option.none_or]

end Image

namespace Compiler

open Image

variable {compiler : Compiler} {image other : Image} {text script : String} {bytes : List UInt8}
  {offset position stop final : Nat}

/-! ## A script as an overlay -/

/-- The byte of a command stream for a cell. -/
def streamByte? (bytes : List UInt8) (position cell : Nat) : Option UInt8 :=
  if position ≤ cell then bytes[cell - position]? else none

theorem streamByte?_eq_none_iff {cell : Nat} :
    streamByte? bytes position cell = none ↔ cell < position ∨ position + bytes.length ≤ cell := by
  unfold streamByte?
  split
  · rw [List.getElem?_eq_none_iff]
    omega
  · simp only [true_iff]
    omega

theorem Holds.overlaid {outcome : Outcome} (h : Holds image position bytes outcome) :
    Overlaid (streamByte? bytes position) image outcome.image := by
  intro cell
  cases hbyte : streamByte? bytes position cell with
  | none => rw [Option.none_or, h.outside cell (streamByte?_eq_none_iff.mp hbyte)]
  | some byte =>
      unfold streamByte? at hbyte
      split at hbyte
      · have hindex := (List.getElem?_eq_some_iff.mp hbyte).1
        have hinside := h.inside (cell - position) hindex
        rw [Nat.add_sub_cancel' (by assumption), hbyte] at hinside
        rw [hinside, Option.some_or]
      · cases hbyte

/-- A script that is compiled writes the same bytes into every image of the same capacity. -/
theorem exists_holds (h : (compiler.compile script image position).result = .ok final) :
    ∃ bytes, compiler.denote script = some bytes ∧ final = position + bytes.length ∧
      ∀ other : Image, other.capacity = image.capacity →
        Holds other position bytes (compiler.compile script other position) := by
  obtain ⟨bytes, hscript, hroom⟩ := denotes_of_compileLines h
  refine ⟨bytes, hscript, ?_, fun other hcapacity => holds_compile hscript ?_⟩
  · have hresult := (holds_compile hscript hroom).result_eq
    rw [h] at hresult
    exact Except.ok.inj hresult
  · rw [hcapacity]
    exact hroom

/-- **A text and a script commute where they do not overlap.**  Each of them can be put into the
image in front of the other or behind it, and answers the same.  Both orders leave the same
cells, but for those that the text fills and that belong to the command stream: these hold the
byte of the script if it comes last, and the last byte that the text has for them if the text
comes last. -/
theorem decode_and_compile (compiler : Compiler)
    (hdecode : (image.decode text offset).result = .ok stop)
    (hcompile : (compiler.compile script image position).result = .ok final) :
    let scriptLast := compiler.compile script (image.decode text offset).image position
    let textLast := (compiler.compile script image position).image.decode text offset
    scriptLast.result = .ok final ∧ textLast.result = .ok stop ∧
    ((∀ cell, Filled text offset cell → cell < position ∨ final ≤ cell) →
      scriptLast.image = textLast.image) ∧
    (∀ cell, ¬Filled text offset cell ∨ cell < position ∨ final ≤ cell →
      scriptLast.image.get? cell = textLast.image.get? cell) ∧
    ∃ bytes, compiler.denote script = some bytes ∧ final = position + bytes.length ∧
      ∀ cell, Filled text offset cell → position ≤ cell → cell < final →
        ∃ scriptByte lastByte, bytes[cell - position]? = some scriptByte ∧
          Write.last? (Record.placementsOfText text) (cell - offset) = some lastByte ∧
          scriptLast.image.get? cell = some scriptByte ∧
          textLast.image.get? cell = some lastByte := by
  intro scriptLast textLast
  obtain ⟨bytes, hscript, rfl, hholds⟩ := exists_holds hcompile
  have hcompiled := hholds image rfl
  have hscriptLast : Holds _ position bytes scriptLast := hholds _ (capacity_decode_of_ok hdecode)
  have htextLast : textLast.result = .ok stop :=
    decode_eq_ok_of_capacity hdecode hcompiled.capacity_eq
  have hagree : ∀ cell, ¬Filled text offset cell ∨ cell < position ∨
      position + bytes.length ≤ cell → scriptLast.image.get? cell = textLast.image.get? cell := by
    intro cell hcell
    apply (overlaid_decode hdecode).get?_eq_of_none hscriptLast.overlaid hcompiled.overlaid
      (overlaid_decode htextLast)
    rwa [textByte?_eq_none_iff, streamByte?_eq_none_iff]
  refine ⟨hscriptLast.result_eq, htextLast, fun hdisjoint => ext_get? fun cell => ?_, hagree,
    bytes, hscript, rfl, fun cell hfilled hfrom hto => ?_⟩
  · apply hagree
    by_cases hfilled : Filled text offset cell
    · exact Or.inr (hdisjoint cell hfilled)
    · exact Or.inl hfilled
  · obtain ⟨scriptByte, hscriptByte⟩ : ∃ byte, streamByte? bytes position cell = some byte := by
      rw [← Option.ne_none_iff_exists', ne_eq, streamByte?_eq_none_iff]
      omega
    obtain ⟨lastByte, hlastByte⟩ : ∃ byte, textByte? text offset cell = some byte := by
      rw [← Option.ne_none_iff_exists', ne_eq, textByte?_eq_none_iff]
      exact not_not_intro hfilled
    have hscriptCell := hscriptLast.overlaid.get?_of_some hscriptByte
    have htextCell := (overlaid_decode htextLast).get?_of_some hlastByte
    obtain ⟨write, -, hoffset⟩ := hfilled
    rw [streamByte?, if_pos hfrom] at hscriptByte
    rw [textByte?, if_pos (by omega)] at hlastByte
    exact ⟨scriptByte, lastByte, hscriptByte, hlastByte, hscriptCell, htextCell⟩

/-- The text fills the cells 0 and 1, and the script writes the cells 1 and 2. -/
theorem decode_and_compile_overlap :
    let compiler : Compiler := ⟨⟨16, 64, none⟩, fun _ => .ok ""⟩
    let text := ":020000000A0BE9"
    let scriptLast := compiler.compile "wait 7" ((Image.blank 4).decode text 0).image 1
    let textLast := (compiler.compile "wait 7" (Image.blank 4) 1).image.decode text 0
    ((Image.blank 4).decode text 0).result = .ok 2 ∧
      (compiler.compile "wait 7" (Image.blank 4) 1).result = .ok 3 ∧
      scriptLast.result = .ok 3 ∧ textLast.result = .ok 2 ∧
      scriptLast.image.slice 0 4 = [0x0A, 6, 7, 0xFF] ∧
      textLast.image.slice 0 4 = [0x0A, 0x0B, 7, 0xFF] := by
  intro compiler text scriptLast textLast
  have hdecode : ((Image.blank 4).decode text 0).result = .ok 2 := by decide +kernel
  have hcompile : (compiler.compile "wait 7" (Image.blank 4) 1).result = .ok 3 := by
    decide +kernel
  obtain ⟨hscriptLast, htextLast, -⟩ := decode_and_compile compiler hdecode hcompile
  exact ⟨hdecode, hcompile, hscriptLast, htextLast, by decide +kernel, by decide +kernel⟩

end Compiler

end IspStream
