import IspStream.Proofs.Decoding.Writes
import IspStream.Script.Compile
import Mathlib.Data.List.Basic

/-!
# Emitting bytes onto a tape

A tape takes bytes field by field, as many of the leading fields as fit
(`Tape.writeFields_eq`).  That the fields of a whole plan are written is the same as
that its bytes fit as one piece, because a prefix of what fits fits as well, and then
they stand on the tape one after the other.  `emit_of_hasRoom` and
`emit_of_not_hasRoom` are the two halves.

Room has to be asked for with care.  A plan without instructions writes nothing and
so succeeds even where the position lies behind the end of the image.
-/

namespace IspStream

namespace Tape

variable {tape : Tape} {first second bytes : List UInt8} {fields : List (List UInt8)}

/-- There is room for bytes, if there are any. -/
def HasRoom (tape : Tape) (bytes : List UInt8) : Prop := bytes = [] ∨ tape.Fits bytes

instance (tape : Tape) (bytes : List UInt8) : Decidable (tape.HasRoom bytes) :=
  inferInstanceAs (Decidable (_ ∨ _))

/-! ## Writing in pieces -/

@[simp] theorem write_nil (tape : Tape) : tape.write [] = tape := rfl

theorem write_write (tape : Tape) (first second : List UInt8) :
    (tape.write first).write second = tape.write (first ++ second) := by
  have himage : ((tape.write first).write second).image = (tape.write (first ++ second)).image := by
    refine Image.ext_get? fun cell => ?_
    simp only [write, Image.get?_store, Image.capacity_store, List.length_append]
    -- the cell belongs to the first piece, or it is for the second one
    by_cases hfirst : cell < tape.position + first.length
    · rw [if_neg (by omega)]
      by_cases hinside : tape.position ≤ cell ∧ cell < tape.image.capacity
      · rw [if_pos ⟨hinside.1, hfirst, hinside.2⟩, if_pos ⟨hinside.1, by omega, hinside.2⟩,
          List.getElem?_append_left (by omega)]
      · rw [if_neg (by omega), if_neg (by omega)]
    · have hsplit : (tape.position + first.length ≤ cell ∧
          cell < tape.position + first.length + second.length ∧ cell < tape.image.capacity) ↔
          (tape.position ≤ cell ∧ cell < tape.position + (first.length + second.length) ∧
            cell < tape.image.capacity) := by
        omega
      simp only [hsplit]
      split
      · rw [List.getElem?_append_right (by omega), Nat.sub_sub]
      · rw [if_neg (by omega)]
  have hposition : ((tape.write first).write second).position =
      (tape.write (first ++ second)).position := by
    simp only [write, List.length_append, Nat.add_assoc]
  cases h : (tape.write first).write second
  cases h' : tape.write (first ++ second)
  rw [h, h'] at himage hposition
  cases himage
  cases hposition
  rfl

theorem fits_append :
    tape.Fits (first ++ second) ↔ tape.Fits first ∧ (tape.write first).Fits second := by
  simp only [Fits, List.length_append, capacity_write]
  simp only [write]
  omega

theorem hasRoom_append :
    tape.HasRoom (first ++ second) ↔ tape.HasRoom first ∧ (tape.write first).HasRoom second := by
  cases first with
  | nil => simp [HasRoom]
  | cons byte more =>
      cases second with
      | nil => simp [HasRoom]
      | cons next rest =>
          rw [HasRoom, HasRoom, HasRoom, fits_append]
          simp

/-- Written bytes are found between the two positions. -/
theorem slice_write (h : tape.HasRoom bytes) :
    (tape.write bytes).image.slice tape.position (tape.write bytes).position = bytes := by
  refine List.ext_getElem? fun index => ?_
  simp only [write, Image.getElem?_slice, Image.get?_store]
  by_cases hindex : index < bytes.length
  · have hfits : tape.position + bytes.length ≤ tape.image.capacity :=
      h.resolve_left (List.ne_nil_of_length_pos (by omega))
    rw [if_pos (by omega), if_pos (by omega), Nat.add_sub_cancel_left]
  · rw [if_neg (by omega), List.getElem?_eq_none (by omega)]

/-- Where an overflow is reported does not depend on what was written before. -/
theorem overflow_write (number : Nat) (h : tape.HasRoom bytes) :
    (tape.write bytes).overflow number = tape.overflow number := by
  have hreach : max (tape.position + bytes.length) tape.image.capacity =
      max tape.position tape.image.capacity := by
    rcases h with rfl | hfits
    · rfl
    · unfold Fits at hfits
      omega
  unfold overflow
  rw [capacity_write]
  exact congrArg (Error.capacity · tape.image.capacity number) hreach

/-! ## Fields -/

/-- The number of leading fields that fit. -/
def fitting : Tape → List (List UInt8) → Nat
  | _, [] => 0
  | tape, field :: rest => if tape.Fits field then (tape.write field).fitting rest + 1 else 0

theorem fitting_le (tape : Tape) (fields : List (List UInt8)) :
    tape.fitting fields ≤ fields.length := by
  induction fields generalizing tape with
  | nil => exact Nat.le_refl 0
  | cons field rest ih =>
      rw [fitting]
      split
      · exact Nat.succ_le_succ (ih _)
      · exact Nat.zero_le _

/-- Writing fields writes those that fit. -/
theorem writeFields_eq (tape : Tape) (fields : List (List UInt8)) :
    tape.writeFields fields =
      (tape.write (fields.take (tape.fitting fields)).flatten,
        decide (tape.fitting fields = fields.length)) := by
  induction fields generalizing tape with
  | nil => rfl
  | cons field rest ih =>
      rw [writeFields, fitting]
      split
      · rw [ih, write_write, List.take_succ_cons, List.flatten_cons, List.length_cons]
        simp only [Nat.add_right_cancel_iff]
      · rfl

/-- The leading fields that fit do so as one piece. -/
theorem fits_fitting (h : 0 < tape.fitting fields) :
    tape.Fits (fields.take (tape.fitting fields)).flatten := by
  induction fields generalizing tape with
  | nil => cases h
  | cons field rest ih =>
      rw [fitting] at h ⊢
      split
      · rename_i hfield
        rw [List.take_succ_cons, List.flatten_cons]
        rcases Nat.eq_zero_or_pos ((tape.write field).fitting rest) with hnone | hsome
        · rw [hnone, List.take_zero, List.flatten_nil, List.append_nil]
          exact hfield
        · exact fits_append.mpr ⟨hfield, ih hsome⟩
      · rename_i hfield
        rw [if_neg hfield] at h
        cases h

theorem hasRoom_fitting (tape : Tape) (fields : List (List UInt8)) :
    tape.HasRoom (fields.take (tape.fitting fields)).flatten := by
  rcases Nat.eq_zero_or_pos (tape.fitting fields) with hnone | hsome
  · rw [hnone]
    exact Or.inl rfl
  · exact Or.inr (fits_fitting hsome)

/-- No more leading fields fit as one piece than one by one. -/
theorem le_fitting {count : Nat} (hcount : count ≤ fields.length)
    (h : tape.Fits (fields.take count).flatten) : count ≤ tape.fitting fields := by
  induction fields generalizing tape count with
  | nil => exact hcount
  | cons field rest ih =>
      cases count with
      | zero => exact Nat.zero_le _
      | succ more =>
          rw [List.take_succ_cons, List.flatten_cons, fits_append] at h
          rw [fitting, if_pos h.1]
          exact Nat.succ_le_succ (ih (Nat.le_of_succ_le_succ hcount) h.2)

theorem writeFields_of_fits (h : tape.Fits fields.flatten) :
    tape.writeFields fields = (tape.write fields.flatten, true) := by
  have hall : tape.fitting fields = fields.length :=
    Nat.le_antisymm (tape.fitting_le fields)
      (le_fitting (Nat.le_refl _) (by rwa [List.take_length]))
  rw [writeFields_eq, hall, List.take_length, decide_eq_true rfl]

theorem writeFields_append (first second : List (List UInt8)) :
    tape.writeFields (first ++ second) =
      match tape.writeFields first with
      | (after, true) => after.writeFields second
      | (after, false) => (after, false) := by
  induction first generalizing tape with
  | nil => rfl
  | cons field rest ih =>
      rw [List.cons_append, writeFields, writeFields]
      split
      · exact ih
      · rfl

end Tape

/-! ## Instructions -/

/-- No instruction is without bytes, and the first of them is in its first field. -/
theorem Instruction.exists_fields (instruction : Instruction) :
    ∃ byte first rest, instruction.fields = (byte :: first) :: rest := by
  cases instruction <;> exact ⟨_, _, _, rfl⟩

theorem Instruction.bytes_ne_nil (instruction : Instruction) : instruction.bytes ≠ [] := by
  obtain ⟨byte, first, rest, hfields⟩ := instruction.exists_fields
  rw [bytes, hfields]
  exact List.cons_ne_nil byte _

/-- The fields of instructions hold their bytes. -/
theorem Instruction.flatten_fields (instructions : List Instruction) :
    (instructions.flatMap fields).flatten = instructions.flatMap bytes := by
  rw [List.flatten_eq_flatMap, List.flatMap_assoc]
  simp only [List.flatMap_id]
  rfl

namespace Script

variable {tape : Tape} {parts : List Part}

/-- The bytes of parts. -/
def partBytes (parts : List Part) : List UInt8 :=
  parts.flatMap fun part => part.instruction.bytes

/-- The fields of parts. -/
def partFields (parts : List Part) : List (List UInt8) :=
  parts.flatMap fun part => part.instruction.fields

theorem flatten_partFields (parts : List Part) : (partFields parts).flatten = partBytes parts := by
  unfold partFields partBytes
  rw [← List.flatMap_map Part.instruction, Instruction.flatten_fields, List.flatMap_map]

theorem emit_of_hasRoom (h : tape.HasRoom (partBytes parts)) :
    emit tape parts = ⟨tape.write (partBytes parts), parts.flatMap Part.notices, true⟩ := by
  induction parts generalizing tape with
  | nil => rfl
  | cons part rest ih =>
      rw [partBytes, List.flatMap_cons, ← partBytes, Tape.hasRoom_append] at h
      have hfits : tape.Fits part.instruction.fields.flatten :=
        h.1.resolve_left part.instruction.bytes_ne_nil
      simp only [emit, Tape.writeFields_of_fits hfits]
      have hrest := ih h.2
      rw [Instruction.bytes] at hrest
      rw [hrest, Tape.write_write]
      rfl

/-- Emitting instructions one by one writes their fields one by one. -/
theorem emit_eq_writeFields (tape : Tape) (parts : List Part) :
    ((emit tape parts).tape, (emit tape parts).complete) = tape.writeFields (partFields parts) := by
  induction parts generalizing tape with
  | nil => rfl
  | cons part rest ih =>
      rw [partFields, List.flatMap_cons, ← partFields, Tape.writeFields_append, emit]
      cases tape.writeFields part.instruction.fields with
      | mk after complete =>
          cases complete with
          | true => exact ih after
          | false => rfl

/-- Without room for everything, emitting stops behind the fields that fit. -/
theorem emit_of_not_hasRoom (h : ¬tape.HasRoom (partBytes parts)) :
    (emit tape parts).tape =
        tape.write ((partFields parts).take (tape.fitting (partFields parts))).flatten ∧
      (emit tape parts).complete = false := by
  have hwritten := (emit_eq_writeFields tape parts).trans (Tape.writeFields_eq ..)
  obtain ⟨htape, hcomplete⟩ := Prod.ext_iff.mp hwritten
  refine ⟨htape, hcomplete.trans (decide_eq_false fun hall => h ?_)⟩
  have hroom := tape.hasRoom_fitting (partFields parts)
  rwa [hall, List.take_length, flatten_partFields] at hroom

/-! ## Plans -/

theorem emitPlan_of_hasRoom (number : Nat) (command : Command) {plan : Plan}
    (h : tape.HasRoom plan.bytes) :
    emitPlan tape number command plan =
      { tape := tape.write plan.bytes
        notices := plan.parts.flatMap Part.notices ++ plan.closing ++
          [.compiled number command tape.position (tape.position + plan.bytes.length)] } := by
  simp only [emitPlan, emit_of_hasRoom (show tape.HasRoom (partBytes plan.parts) from h)]
  rfl

/-- A plan for which there is no room is written up to the first field that does not fit. -/
theorem emitPlan_of_not_hasRoom (number : Nat) (command : Command) {plan : Plan}
    (h : ¬tape.HasRoom plan.bytes) :
    ∃ notices, emitPlan tape number command plan =
      { tape := tape.write ((partFields plan.parts).take
          (tape.fitting (partFields plan.parts))).flatten
        notices := notices
        error? := some (tape.overflow number) } := by
  obtain ⟨htape, hcomplete⟩ :=
    emit_of_not_hasRoom (show ¬tape.HasRoom (partBytes plan.parts) from h)
  refine ⟨(emit tape plan.parts).notices, ?_⟩
  simp only [emitPlan, hcomplete, htape, Tape.overflow_write number (tape.hasRoom_fitting _)]
  rfl

end Script

end IspStream
