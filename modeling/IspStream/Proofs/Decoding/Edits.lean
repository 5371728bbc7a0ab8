import IspStream.Proofs.Decoding.Alike
import IspStream.Proofs.Text.Lines

/-!
# Edits that make no difference

An `Edit` says what becomes of one line of a hex text: it is spelled differently, removed, or
split, or a new line is put in front of the next one.  The edits of a whole text are a list in
the order of its lines, in which a line that stays as it is counts as one that is spelled
differently.  Lines are what stands between line feeds here, so that a carriage return at the
end of a line is white space there, and a text that ends in a line feed has an empty line behind
it.

The lines before and after a harmless edit decode alike (`Edit.Harmless.alike`), and
`Image.decodeLines_of_edits` follows both runs through the edits, from the first one to the
last.  It keeps count of the lines that the edits so far had before and have now, because the
error of the second run is that of the first one in the line that corresponds (`EndsAlike`).
-/

namespace IspStream

open Record

/-- What becomes of one line of a text. -/
inductive Edit where
  /-- The line is spelled differently. -/
  | respell (old new : List Char)
  /-- A line is put in front of the next one. -/
  | insert (line : List Char)
  /-- The line is removed. -/
  | remove (line : List Char)
  /-- The line is replaced by lines that carry its payload piece by piece. -/
  | split (line : List Char) (pieces : List (List Char))

namespace Edit

/-- The lines before the edit. -/
def old : Edit → List (List Char)
  | respell line _ | remove line | split line _ => [line]
  | insert _ => []

/-- The lines after the edit. -/
def new : Edit → List (List Char)
  | respell _ line | insert line => [line]
  | remove _ => []
  | split _ pieces => pieces

/-- The edit makes no difference. -/
def Harmless : Edit → Prop
  | respell old new => Respelled old new
  | insert line | remove line => Idle line
  | split line pieces =>
    ∃ record, parse (Text.trimEnd line) = .ok record ∧ record.kind = .data ∧
      Carries record.address.toNat record.data pieces

end Edit

/-- Two runs before and after edits end alike: with the same answer, or with the same error in
lines that correspond.  The line of the error is the one that an edit is about, and its new
number counts the lines that the edits in front of it leave, and the pieces in front of the
failing one if the line itself was split. -/
inductive EndsAlike (edits : List Edit) : Except Error Nat → Except Error Nat → Prop where
  /-- Both runs succeed. -/
  | ok (final : Nat) : EndsAlike edits (.ok final) (.ok final)
  /-- Both runs fail. -/
  | error {before after : List Edit} {edit : Edit} {error : Error} {index : Nat}
      (edits_eq : edits = before ++ edit :: after) (old_ne : edit.old ≠ [])
      (line : error.line? = some ((before.flatMap Edit.old).length + 1))
      (inside : index < edit.new.length) :
      EndsAlike edits (.error error)
        (.error (error.atLine ((before.flatMap Edit.new).length + index + 1)))

/-- The lines before and after a harmless edit decode alike. -/
theorem Edit.Harmless.alike {edit : Edit} (h : edit.Harmless) (offset : Nat) (bases : Bases)
    (image : Image) : Alike offset edit.old edit.new bases image := by
  cases edit with
  | respell old new => exact alike_of_ofLine_eq (Respelled.ofLine_eq h) offset bases image
  | insert line => exact Idle.alike_insert h offset bases image
  | remove line => exact Idle.alike_remove h offset bases image
  | split line pieces =>
      obtain ⟨record, haccepted, hdata, hcarries⟩ := h
      exact hcarries.alike haccepted hdata offset bases image

/-! ## All edits -/

namespace Image

variable {edits : List Edit} {offset number : Nat} {lines : List (List Char)} {bases : Bases}
  {stop : Nat} {image : Image}

/-- Edited lines are decoded as they were before, from the line behind edits that are done. -/
theorem decodeLines_of_edits (done edits : List Edit) (h : ∀ edit ∈ edits, edit.Harmless)
    (bases : Bases) (stop : Nat) (image : Image) :
    let one := decodeLines offset ((done.flatMap Edit.old).length + 1) (edits.flatMap Edit.old)
      bases stop image
    let two := decodeLines offset ((done.flatMap Edit.new).length + 1) (edits.flatMap Edit.new)
      bases stop image
    two.image = one.image ∧ EndsAlike (done ++ edits) one.result two.result := by
  induction edits generalizing done bases stop image with
  | nil => exact ⟨rfl, .ok stop⟩
  | cons edit rest ih =>
      rw [List.forall_mem_cons] at h
      intro one two
      have hone : one = decodeLines offset ((done.flatMap Edit.old).length + 1)
          (edit.old ++ rest.flatMap Edit.old) bases stop image := rfl
      have htwo : two = decodeLines offset ((done.flatMap Edit.new).length + 1)
          (edit.new ++ rest.flatMap Edit.new) bases stop image := rfl
      cases h.1.alike offset bases image with
      | pass same fits =>
          -- the edit is done, and both runs go on in the same state
          rw [decodeLines_append same.old_accepted fits] at hone
          rw [decodeLines_append same.new_accepted (same.writes_eq ▸ fits), ← same.writes_eq,
            ← same.run_eq] at htwo
          have hrest := ih (done ++ [edit]) h.2 (bases.run (ofLines edit.old))
            (max stop (Write.stop (writesOf bases (ofLines edit.old))))
            (image.apply offset (writesOf bases (ofLines edit.old)))
          simp only [List.flatMap_append, List.flatMap_singleton, List.length_append,
            List.append_assoc, List.singleton_append, Nat.add_right_comm _ _ 1] at hrest
          rw [hone, htwo]
          exact hrest
      | fail number old_fails new_fails =>
          rw [old_fails.decode_eq] at hone
          rw [new_fails.decode_eq] at htwo
          rw [Nat.add_right_comm,
            ← Error.atLine_atLine _ ((done.flatMap Edit.old).length + 1)] at htwo
          rw [hone, htwo]
          exact ⟨rfl, .error rfl (List.ne_nil_of_length_pos old_fails.inside)
            (Error.line?_atLine number _) new_fails.inside⟩

/-! ## A whole text -/

theorem decodeLines_congr {others : List (List Char)} (h : lines.map ofLine = others.map ofLine) :
    decodeLines offset number lines bases stop image =
      decodeLines offset number others bases stop image := by
  induction lines generalizing others number bases stop image with
  | nil => rw [List.map_eq_nil_iff.mp h.symm]
  | cons line rest ih =>
      obtain ⟨other, more, rfl, hline, hrest⟩ := List.map_eq_cons_iff.mp h.symm
      simp only [decodeLines_cons, hline, ih hrest.symm]

/-- An empty line at the end makes no difference. -/
theorem decodeLines_concat_nil :
    decodeLines offset number (lines ++ [[]]) bases stop image =
      decodeLines offset number lines bases stop image := by
  induction lines generalizing number bases stop image with
  | nil => rfl
  | cons line rest ih => simp only [List.cons_append, decodeLines_cons, ih]

/-- For decoding, the lines of a text are what stands between its line feeds. -/
theorem decode_eq_splitOn (image : Image) (text : String) (offset : Nat) :
    image.decode text offset = decodeLines offset 1 (text.toList.splitOn '\n') {} 0 image := by
  have hreturn : ∀ line, ofLine (Text.dropReturn line) = ofLine line := by
    intro line
    rcases Text.eq_dropReturn_or line with hsame | hline
    · rw [hsame]
    · conv_rhs => rw [hline]
      exact (ofLine_append _ (by decide)).symm
  obtain ⟨ended, last, hpieces, hlines⟩ := Text.exists_last_line text.toList
  have hended : (ended.map Text.dropReturn).map ofLine = ended.map ofLine := by
    rw [List.map_map]
    exact List.map_congr_left fun line _ => hreturn line
  rw [decode, hlines, hpieces]
  split
  · rename_i hlast
    rw [hlast, decodeLines_concat_nil, List.append_nil]
    exact decodeLines_congr hended
  · apply decodeLines_congr
    rw [List.map_append, List.map_append, hended]

/-- **The layout of a hex text does not matter.**  After harmless edits a text is decoded into
the same image, also when the decoding fails, and with the same answer, or the same error in
the line that the failing one has become. -/
theorem decode_of_edits {text other : String} (hharmless : ∀ edit ∈ edits, edit.Harmless)
    (hold : text.toList.splitOn '\n' = edits.flatMap Edit.old)
    (hnew : other.toList.splitOn '\n' = edits.flatMap Edit.new) (image : Image) (offset : Nat) :
    (image.decode other offset).image = (image.decode text offset).image ∧
      EndsAlike edits (image.decode text offset).result (image.decode other offset).result := by
  rw [decode_eq_splitOn, decode_eq_splitOn, hold, hnew]
  exact decodeLines_of_edits [] edits hharmless {} 0 image

/-- A record that runs into the end of an image still does so behind other lines, and in pieces
of which the first one fits. -/
theorem decode_of_edits_torn_record :
    let text := ":010000000af5\n:03000200010203F5\n:00000001FF\n"
    let other :=
      ":010000000AF5 \r\n:00000001ff\r\n \r\n:020002000102F9\r\n:0100040003F8\r\n:00000001FF"
    let edits : List Edit := [
      .respell ":010000000af5".toList ":010000000AF5 \r".toList,
      .insert ":00000001ff\r".toList,
      .insert " \r".toList,
      .split ":03000200010203F5".toList [":020002000102F9\r".toList, ":0100040003F8\r".toList],
      .respell ":00000001FF".toList ":00000001FF".toList,
      .remove []]
    (∀ edit ∈ edits, edit.Harmless) ∧
      text.toList.splitOn '\n' = edits.flatMap Edit.old ∧
      other.toList.splitOn '\n' = edits.flatMap Edit.new ∧
      ((blank 4).decode text 0).result = .error (.capacity 4 4 2) ∧
      ((blank 4).decode other 0).result = .error (.capacity 4 4 5) ∧
      EndsAlike edits ((blank 4).decode text 0).result ((blank 4).decode other 0).result ∧
      ((blank 4).decode other 0).image = ((blank 4).decode text 0).image ∧
      ((blank 4).decode other 0).image.slice 0 4 = [0x0A, 0xFF, 1, 2] := by
  intro text other edits
  have hrespell :
      Respelled (":010000000af5".toList ++ []) (":010000000AF5".toList ++ [' ', '\r']) :=
    .mk (by decide) (by decide) (by decide)
  have hmark : Idle ":00000001ff\r".toList :=
    .endOfFile (show _ = Except.ok ⟨0, .endOfFile, []⟩ by decide +kernel) rfl
  have hfirst : parse (Text.trimEnd ":020002000102F9\r".toList) = .ok ⟨2, .data, [1, 2]⟩ := by
    decide +kernel
  have hsecond : parse (Text.trimEnd ":0100040003F8\r".toList) = .ok ⟨4, .data, [3]⟩ := by
    decide +kernel
  have hcarries : Carries 2 [1, 2, 3] [":020002000102F9\r".toList, ":0100040003F8\r".toList] :=
    .cons hfirst (fun _ => rfl) (.cons hsecond (fun _ => rfl) (.nil 5))
  have hrecord : parse (Text.trimEnd ":03000200010203F5".toList) = .ok ⟨2, .data, [1, 2, 3]⟩ := by
    decide +kernel
  have hharmless : ∀ edit ∈ edits, edit.Harmless := by
    simp only [edits, List.forall_mem_cons]
    exact ⟨hrespell, hmark, .blank (by decide), ⟨_, hrecord, rfl, hcarries⟩, .refl _,
      .blank (by decide), nofun⟩
  have hold : text.toList.splitOn '\n' = edits.flatMap Edit.old := by decide +kernel
  have hnew : other.toList.splitOn '\n' = edits.flatMap Edit.new := by decide +kernel
  obtain ⟨himage, hends⟩ := decode_of_edits hharmless hold hnew (blank 4) 0
  exact ⟨hharmless, hold, hnew, by decide +kernel, by decide +kernel, hends, himage,
    by decide +kernel⟩

end Image

end IspStream
