import IspStream.Proofs.Decoding.AddressMap
import IspStream.Proofs.Script.Emission
import IspStream.Proofs.Script.Instructions

/-!
# Compiling refines the denotation

A line that denotes bytes for which there is room moves the tape behind these bytes,
and any other line stops the compilation.  Both follow from what planning and
emitting do, and by induction on the lines the same is true of a whole script:
`compile_refines` says that compiling succeeds exactly if the script denotes bytes
for which there is room, and that these bytes are then all that changes.
-/

namespace IspStream.Compiler

open Script

variable {compiler : Compiler} {number : Nat} {tape : Tape} {line : List Char}
  {lines done : List (List Char)} {bytes : List UInt8}

/-! ## One line -/

theorem compileLine_of_denotes (number : Nat) (hline : compiler.denoteLine line = some bytes)
    (hroom : tape.HasRoom bytes) :
    ∃ notices, compiler.compileLine number tape line = ⟨tape.write bytes, notices, none⟩ := by
  rw [denoteLine] at hline
  rw [compileLine]
  cases hparse : Line.parse line with
  | empty =>
      rw [hparse] at hline
      cases hline
      exact ⟨[], rfl⟩
  | unknown word =>
      rw [hparse] at hline
      cases hline
      exact ⟨_, rfl⟩
  | known command texts =>
      rw [hparse] at hline
      simp only at hline
      rw [← bytes_plan number] at hline
      cases hplan : compiler.plan number command texts with
      | mk notices result =>
          rw [hplan] at hline
          cases result with
          | error error => cases hline
          | ok plan =>
              cases hline
              simp only [hplan, emitPlan_of_hasRoom number command hroom]
              exact ⟨_, rfl⟩

/-- A line that compiles denotes bytes for which there is room. -/
theorem denotes_of_compileLine (h : (compiler.compileLine number tape line).error? = none) :
    ∃ bytes, compiler.denoteLine line = some bytes ∧ tape.HasRoom bytes := by
  rw [denoteLine]
  rw [compileLine] at h
  cases hparse : Line.parse line with
  | empty => exact ⟨[], rfl, Or.inl rfl⟩
  | unknown word => exact ⟨[], rfl, Or.inl rfl⟩
  | known command texts =>
      rw [hparse] at h
      simp only at h ⊢
      rw [← bytes_plan number]
      cases hplan : compiler.plan number command texts with
      | mk notices result =>
          rw [hplan] at h
          cases result with
          | error error => cases h
          | ok plan =>
              -- without room, emitting the plan would have stopped with an error
              refine ⟨plan.bytes, rfl, Classical.byContradiction fun hroom => ?_⟩
              obtain ⟨_, hstopped⟩ := emitPlan_of_not_hasRoom number command hroom
              simp only [hstopped] at h
              cases h

/-! ## Many lines -/

/-- Lines that denote bytes for which there is room only move the tape. -/
theorem compileLines_append (number : Nat) (rest : List (List Char))
    (hdone : compiler.denoteLines done = some bytes) (hroom : tape.HasRoom bytes) :
    ∃ notices, compiler.compileLines number (done ++ rest) tape =
      (compiler.compileLines (number + done.length) rest (tape.write bytes)).after notices := by
  induction done generalizing number tape bytes with
  | nil =>
      cases hdone
      exact ⟨[], rfl⟩
  | cons line more ih =>
      rw [denoteLines_cons, Option.bind_eq_some_iff] at hdone
      obtain ⟨first, hline, hmore⟩ := hdone
      obtain ⟨behind, hbehind, rfl⟩ := Option.map_eq_some_iff.mp hmore
      rw [Tape.hasRoom_append] at hroom
      obtain ⟨earlier, hearlier⟩ := compileLine_of_denotes number hline hroom.1
      obtain ⟨later, hlater⟩ := ih (number + 1) hbehind hroom.2
      refine ⟨earlier ++ later, ?_⟩
      rw [List.cons_append, compileLines, hearlier]
      simp only
      rw [hlater, Outcome.after_after, Tape.write_write, List.length_cons,
        Nat.add_comm more.length 1, Nat.add_assoc]

theorem compileLines_of_denotes (number : Nat) (hlines : compiler.denoteLines lines = some bytes)
    (hroom : tape.HasRoom bytes) :
    ∃ notices, compiler.compileLines number lines tape =
      ⟨(tape.write bytes).image, notices, .ok (tape.write bytes).position⟩ := by
  obtain ⟨notices, hcompiled⟩ := compileLines_append number [] hlines hroom
  refine ⟨notices, ?_⟩
  rw [List.append_nil] at hcompiled
  rw [hcompiled, compileLines]
  simp only [Outcome.after, Outcome.stop, List.append_nil]

theorem denotes_of_compileLines {final : Nat}
    (h : (compiler.compileLines number lines tape).result = .ok final) :
    ∃ bytes, compiler.denoteLines lines = some bytes ∧ tape.HasRoom bytes := by
  induction lines generalizing number tape with
  | nil => exact ⟨[], rfl, Or.inl rfl⟩
  | cons line rest ih =>
      rw [compileLines] at h
      cases hcompiled : compiler.compileLine number tape line with
      | mk after notices error? =>
          rw [hcompiled] at h
          cases error? with
          | some error => cases h
          | none =>
              obtain ⟨first, hline, hfirst⟩ :=
                denotes_of_compileLine (show (compiler.compileLine number tape line).error? = none
                  by rw [hcompiled])
              obtain ⟨_, hwritten⟩ := compileLine_of_denotes number hline hfirst
              rw [hcompiled] at hwritten
              cases hwritten
              obtain ⟨behind, hrest, hbehind⟩ := ih h
              exact ⟨first ++ behind, by rw [denoteLines_cons, hline, hrest]; rfl,
                Tape.hasRoom_append.mpr ⟨hfirst, hbehind⟩⟩

/-! ## A whole script -/

/-- Bytes have been written at a position of an image, and nothing else. -/
structure Written (image : Image) (position : Nat) (bytes : List UInt8) (after : Image) :
    Prop where
  room : bytes = [] ∨ position + bytes.length ≤ image.capacity
  capacity_eq : after.capacity = image.capacity
  inside : ∀ index < bytes.length, after.get? (position + index) = bytes[index]?
  outside : ∀ cell, cell < position ∨ position + bytes.length ≤ cell →
    after.get? cell = image.get? cell

theorem written_write {image : Image} {position : Nat}
    (hroom : Tape.HasRoom ⟨image, position⟩ bytes) :
    Written image position bytes (Tape.write ⟨image, position⟩ bytes).image := by
  refine ⟨hroom, Image.capacity_store .., ?_, ?_⟩
  · intro index hindex
    have hfits : position + bytes.length ≤ image.capacity :=
      hroom.resolve_left (List.ne_nil_of_length_pos (by omega))
    simp only [Tape.write, Image.get?_store]
    rw [if_pos (by omega), Nat.add_sub_cancel_left]
  · intro cell houtside
    simp only [Tape.write, Image.get?_store]
    rw [if_neg (by omega)]

namespace Written

variable {image after other : Image} {position cell : Nat}

/-- What was written determines the image. -/
theorem unique (h : Written image position bytes after)
    (hother : Written image position bytes other) : after = other := by
  refine Image.ext_get? fun cell => ?_
  by_cases hinside : position ≤ cell ∧ cell < position + bytes.length
  · obtain ⟨index, rfl⟩ := Nat.exists_eq_add_of_le hinside.1
    have hindex : index < bytes.length := Nat.add_lt_add_iff_left.mp hinside.2
    rw [h.inside index hindex, hother.inside index hindex]
  · have houtside : cell < position ∨ position + bytes.length ≤ cell := by omega
    rw [h.outside cell houtside, hother.outside cell houtside]

/-- No cell in front of the position or behind the end of the image is touched. -/
theorem get?_eq (h : Written image position bytes after)
    (hcell : cell < position ∨ image.capacity ≤ cell) : after.get? cell = image.get? cell := by
  rcases hcell with hbefore | hbehind
  · exact h.outside cell (Or.inl hbefore)
  · rw [Image.get?_eq_none_iff.mpr hbehind, Image.get?_eq_none_iff, h.capacity_eq]
    exact hbehind

end Written

/-- The outcome of writing bytes at a position: they stand there, the cells around
them are as before, and the answer is the position behind them. -/
structure Holds (image : Image) (position : Nat) (bytes : List UInt8) (outcome : Outcome) :
    Prop where
  result_eq : outcome.result = .ok (position + bytes.length)
  capacity_eq : outcome.image.capacity = image.capacity
  inside : ∀ index < bytes.length, outcome.image.get? (position + index) = bytes[index]?
  outside : ∀ cell, cell < position ∨ position + bytes.length ≤ cell →
    outcome.image.get? cell = image.get? cell

/-- A script that denotes bytes for which there is room is compiled into these bytes. -/
theorem compile_of_denotes {script : String} {image : Image} {position : Nat}
    (hscript : compiler.denote script = some bytes)
    (hroom : Tape.HasRoom ⟨image, position⟩ bytes) :
    ∃ notices, compiler.compile script image position =
      ⟨(Tape.write ⟨image, position⟩ bytes).image, notices, .ok (position + bytes.length)⟩ :=
  compileLines_of_denotes 1 hscript hroom

theorem holds_compile {script : String} {image : Image} {position : Nat}
    (hscript : compiler.denote script = some bytes)
    (hroom : bytes = [] ∨ position + bytes.length ≤ image.capacity) :
    Holds image position bytes (compiler.compile script image position) := by
  obtain ⟨notices, hcompile⟩ := compile_of_denotes hscript hroom
  have hwritten : Written image position bytes _ := written_write hroom
  rw [hcompile]
  exact ⟨rfl, hwritten.capacity_eq, hwritten.inside, hwritten.outside⟩

end IspStream.Compiler
