import IspStream.Proofs.Script.Refinement
import IspStream.Proofs.Script.Refusal

/-!
# Failed compilations

A compilation fails at the first line that cannot be compiled, for one of two reasons.
Something may be wrong with the command, and then nothing of the line is written.  Or
the command denotes instructions for which there is no room, and then their leading
fields are written as far as they fit.  The lines before are written as a whole in
either case, and `compile_fails_iff` says that this describes every failure.
-/

namespace IspStream

/-! ## Leading fields -/

namespace Instruction

variable {list : List Instruction} {count : Nat}

/-- The bytes of the first fields of instructions. -/
def leading (instructions : List Instruction) (count : Nat) : List UInt8 :=
  ((instructions.flatMap fields).take count).flatten

theorem leading_of_le (h : (list.flatMap fields).length ≤ count) :
    leading list count = list.flatMap bytes := by
  rw [leading, List.take_of_length_le h, flatten_fields]

theorem leading_eq_nil (hlist : list ≠ []) (h : leading list count = []) : count = 0 := by
  cases list with
  | nil => exact absurd rfl hlist
  | cons instruction rest =>
      cases count with
      | zero => rfl
      | succ more =>
          obtain ⟨byte, first, behind, hfields⟩ := instruction.exists_fields
          rw [leading, List.flatMap_cons, hfields] at h
          cases h

end Instruction

namespace Compiler

open Script

/-! ## How a compilation fails -/

/-- A command stands in a numbered line of a script, behind lines that denote bytes. -/
def Reaches (compiler : Compiler) (script : String) (number : Nat) (bytes : List UInt8)
    (command : Command) (texts : List (List Char)) : Prop :=
  ∃ done line rest, Text.lines script.toList = done ++ line :: rest ∧
    number = done.length + 1 ∧ compiler.denoteLines done = some bytes ∧
    Line.parse line = .known command texts

/-- How compiling a script fails: with which error, and what it leaves in the image. -/
inductive Fails (compiler : Compiler) (script : String) (image : Image) (position : Nat) :
    Error → Image → Prop where
  /-- Something is wrong with a command. -/
  | refused {number : Nat} {bytes : List UInt8} {command : Command} {texts : List (List Char)}
      {error : Error} {after : Image}
      (reached : compiler.Reaches script number bytes command texts)
      (reason : compiler.refusal? number command texts = some error)
      (own_line : ∀ fault line, error = .script fault line → line = number)
      (written : Written image position bytes after) :
      Fails compiler script image position error after
  /-- The instructions of a command do not fit. -/
  | overflow {number : Nat} {bytes : List UInt8} {command : Command} {texts : List (List Char)}
      {instructions : List Instruction} {count : Nat} {after : Image}
      (reached : compiler.Reaches script number bytes command texts)
      (meaning : compiler.commandInstructions command texts = some instructions)
      (nonempty : instructions ≠ [])
      (exceeds : image.capacity <
        position + (bytes ++ instructions.flatMap Instruction.bytes).length)
      (proper : count < (instructions.flatMap Instruction.fields).length)
      (longest : ∀ other, position + (bytes ++ Instruction.leading instructions other).length ≤
        image.capacity → other ≤ count)
      (whole : (∀ memory, command ≠ .program memory) → count = 0)
      (written : Written image position (bytes ++ Instruction.leading instructions count) after) :
      Fails compiler script image position
        (.capacity (max position image.capacity) image.capacity number) after

variable {compiler : Compiler} {number : Nat} {tape : Tape} {line : List Char}
  {lines done rest : List (List Char)} {bytes : List UInt8} {command : Command}
  {texts : List (List Char)} {list : List Instruction} {error : Error} {script : String}
  {image after : Image} {position : Nat} {notices : List Notice}

/-! ## One line -/

/-- A command with which something is wrong leaves the tape alone. -/
theorem compileLine_of_refusal? (hline : Line.parse line = .known command texts)
    (h : compiler.refusal? number command texts = some error) :
    ∃ notices, compiler.compileLine number tape line = ⟨tape, notices, some error⟩ := by
  rw [← errorOf?_plan] at h
  rw [compileLine, hline]
  cases hplan : compiler.plan number command texts with
  | mk notices result =>
      rw [hplan] at h
      cases result with
      | ok plan => cases h
      | error _ =>
          cases h
          simp only [hplan]
          exact ⟨notices, rfl⟩

/-- Instructions without room are written up to the first field that does not fit. -/
theorem compileLine_of_not_hasRoom (hline : Line.parse line = .known command texts)
    (h : compiler.commandInstructions command texts = some list)
    (hroom : ¬tape.HasRoom (list.flatMap Instruction.bytes)) :
    ∃ notices, compiler.compileLine number tape line =
      ⟨tape.write (Instruction.leading list (tape.fitting (list.flatMap Instruction.fields))),
        notices, some (tape.overflow number)⟩ := by
  rw [← instructions_plan number] at h
  rw [compileLine, hline]
  cases hplan : compiler.plan number command texts with
  | mk notices result =>
      rw [hplan] at h
      cases result with
      | error _ => cases h
      | ok plan =>
          cases h
          rw [bytes_planInstructions] at hroom
          obtain ⟨_, hstopped⟩ := emitPlan_of_not_hasRoom number command hroom
          simp only [hplan, hstopped]
          rw [Instruction.leading, planInstructions, List.flatMap_map]
          exact ⟨_, rfl⟩

/-- A line is not compiled only if something is wrong with its command or the
instructions of the command have no room. -/
theorem cause_of_compileLine (h : (compiler.compileLine number tape line).error? = some error) :
    ∃ command texts, Line.parse line = .known command texts ∧
      (compiler.refusal? number command texts = some error ∨
        ∃ list, compiler.commandInstructions command texts = some list ∧
          ¬tape.HasRoom (list.flatMap Instruction.bytes)) := by
  -- a line that denotes bytes for which there is room is compiled
  have hfails : ∀ bytes, compiler.denoteLine line = some bytes → ¬tape.HasRoom bytes := by
    intro bytes hline hroom
    obtain ⟨_, hcompiled⟩ := compileLine_of_denotes number hline hroom
    rw [hcompiled] at h
    cases h
  cases hparse : Line.parse line with
  | empty => exact absurd (Or.inl rfl) (hfails [] (by rw [denoteLine, hparse]))
  | unknown word => exact absurd (Or.inl rfl) (hfails [] (by rw [denoteLine, hparse]))
  | known command texts =>
      refine ⟨command, texts, rfl, ?_⟩
      cases hreason : compiler.refusal? number command texts with
      | some first =>
          obtain ⟨_, hcompiled⟩ := compileLine_of_refusal? hparse hreason
          rw [hcompiled] at h
          exact Or.inl h
      | none =>
          obtain ⟨list, hlist⟩ := (refusal?_eq_none_iff number command texts).mp hreason
          refine Or.inr ⟨list, hlist, hfails _ ?_⟩
          rw [← bytes_lineInstructions, lineInstructions, hparse]
          exact congrArg (Option.map _) hlist

/-! ## The first line that fails -/

theorem exists_failing_line (h : (compiler.compileLines number lines tape).result = .error error) :
    ∃ done line rest bytes, lines = done ++ line :: rest ∧
      compiler.denoteLines done = some bytes ∧ tape.HasRoom bytes ∧
      (compiler.compileLine (number + done.length) (tape.write bytes) line).error? =
        some error := by
  induction lines generalizing number tape with
  | nil => cases h
  | cons line rest ih =>
      rw [compileLines] at h
      cases hcompiled : compiler.compileLine number tape line with
      | mk after notices error? =>
          rw [hcompiled] at h
          cases error? with
          | some first =>
              cases h
              exact ⟨[], line, rest, [], rfl, rfl, Or.inl rfl,
                congrArg LineOutcome.error? hcompiled⟩
          | none =>
              obtain ⟨first, hline, hfirst⟩ :=
                denotes_of_compileLine (congrArg LineOutcome.error? hcompiled)
              obtain ⟨_, hwritten⟩ := compileLine_of_denotes number hline hfirst
              rw [hcompiled] at hwritten
              cases hwritten
              obtain ⟨done, next, behind, bytes, rfl, hdone, hroom, hnext⟩ := ih h
              refine ⟨line :: done, next, behind, first ++ bytes, rfl, ?_,
                Tape.hasRoom_append.mpr ⟨hfirst, hroom⟩, ?_⟩
              · rw [denoteLines_cons, hline, hdone]
                rfl
              · rw [Tape.write_write] at hnext
                rwa [List.length_cons, Nat.add_comm done.length 1, ← Nat.add_assoc]

/-- A line that is not compiled stops the run, and its tape is what is left. -/
theorem compileLines_of_compileLine (rest : List (List Char))
    (hdone : compiler.denoteLines done = some bytes) (hroom : tape.HasRoom bytes)
    {stopped : Tape} (hline : compiler.compileLine (number + done.length) (tape.write bytes) line =
      ⟨stopped, notices, some error⟩) :
    ∃ notices, compiler.compileLines number (done ++ line :: rest) tape =
      ⟨stopped.image, notices, .error error⟩ := by
  obtain ⟨earlier, hlines⟩ := compileLines_append number (line :: rest) hdone hroom
  refine ⟨earlier ++ notices, ?_⟩
  rw [hlines, compileLines, hline]
  rfl

theorem compile_of_compileLine (hsplit : Text.lines script.toList = done ++ line :: rest)
    (hdone : compiler.denoteLines done = some bytes)
    (hroom : Tape.HasRoom ⟨image, position⟩ bytes) {stopped : Tape}
    (hline : compiler.compileLine (done.length + 1) (Tape.write ⟨image, position⟩ bytes) line =
      ⟨stopped, notices, some error⟩) :
    ∃ notices, compiler.compile script image position =
      ⟨stopped.image, notices, .error error⟩ := by
  rw [compile, hsplit]
  rw [Nat.add_comm] at hline
  exact compileLines_of_compileLine rest hdone hroom hline

theorem compile_of_refusal? (hreached : compiler.Reaches script number bytes command texts)
    (hroom : Tape.HasRoom ⟨image, position⟩ bytes)
    (hreason : compiler.refusal? number command texts = some error) :
    ∃ notices, compiler.compile script image position =
      ⟨(Tape.write ⟨image, position⟩ bytes).image, notices, .error error⟩ := by
  obtain ⟨done, line, rest, hsplit, rfl, hdone, hline⟩ := hreached
  obtain ⟨_, hcompiled⟩ := compileLine_of_refusal? hline hreason
  exact compile_of_compileLine hsplit hdone hroom hcompiled

theorem compile_of_not_hasRoom (hreached : compiler.Reaches script number bytes command texts)
    (hroom : Tape.HasRoom ⟨image, position⟩ bytes)
    (hmeaning : compiler.commandInstructions command texts = some list)
    (hfull : ¬(Tape.write ⟨image, position⟩ bytes).HasRoom (list.flatMap Instruction.bytes)) :
    let count := (Tape.write ⟨image, position⟩ bytes).fitting (list.flatMap Instruction.fields)
    ∃ notices, compiler.compile script image position =
      ⟨(Tape.write ⟨image, position⟩ (bytes ++ Instruction.leading list count)).image, notices,
        .error (.capacity (max position image.capacity) image.capacity number)⟩ := by
  intro count
  obtain ⟨done, line, rest, hsplit, rfl, hdone, hline⟩ := hreached
  obtain ⟨_, hcompiled⟩ := compileLine_of_not_hasRoom hline hmeaning hfull
  rw [Tape.write_write, Tape.overflow_write _ hroom] at hcompiled
  exact compile_of_compileLine hsplit hdone hroom hcompiled

/-! ## Overflows -/

/-- The fields of the instructions that fit behind earlier bytes are the longest part of
them for which there is room. -/
theorem fails_of_not_hasRoom (hreached : compiler.Reaches script number bytes command texts)
    (hroom : Tape.HasRoom ⟨image, position⟩ bytes)
    (hmeaning : compiler.commandInstructions command texts = some list)
    (hfull : ¬(Tape.write ⟨image, position⟩ bytes).HasRoom (list.flatMap Instruction.bytes)) :
    let count := (Tape.write ⟨image, position⟩ bytes).fitting (list.flatMap Instruction.fields)
    compiler.Fails script image position
      (.capacity (max position image.capacity) image.capacity number)
      (Tape.write ⟨image, position⟩ (bytes ++ Instruction.leading list count)).image := by
  intro count
  let start : Tape := ⟨image, position⟩
  have hproper : count < (list.flatMap Instruction.fields).length := by
    refine Nat.lt_of_le_of_ne (Tape.fitting_le ..) fun hall => hfull ?_
    rw [← Instruction.leading_of_le (Nat.le_of_eq hall.symm)]
    exact Tape.hasRoom_fitting ..
  have hwhole : (∀ memory, command ≠ .program memory) → count = 0 := by
    intro hcommand
    obtain ⟨instruction, rfl, rfl⟩ := eq_singleton_of_commandInstructions hmeaning hcommand
    cases instruction with
    | program memory => exact absurd rfl (hcommand memory)
    | _ => exact Nat.lt_one_iff.mp hproper
  refine .overflow hreached hmeaning ?_ ?_ hproper ?_ hwhole
    (written_write (Tape.hasRoom_append.mpr ⟨hroom, Tape.hasRoom_fitting ..⟩))
  · rintro rfl
    exact hfull (Or.inl rfl)
  · refine Nat.lt_of_not_le fun hle => hfull (Or.inr ?_)
    exact (Tape.fits_append.mp (show start.Fits _ from hle)).2
  · intro other hother
    have hfits : (start.write bytes).Fits (Instruction.leading list other) :=
      (Tape.fits_append.mp (show start.Fits _ from hother)).2
    -- all the fields together do not fit, so there are not that many
    refine Tape.le_fitting (Nat.le_of_not_lt fun hmore => hfull (Or.inr ?_)) hfits
    rwa [Instruction.leading_of_le (Nat.le_of_lt hmore)] at hfits

/-- There is only one longest part for which there is room. -/
theorem eq_fitting {count : Nat} (hnonempty : list ≠ [])
    (hproper : count < (list.flatMap Instruction.fields).length)
    (hlongest : ∀ other, position + (bytes ++ Instruction.leading list other).length ≤
      image.capacity → other ≤ count)
    (hroom : Tape.HasRoom ⟨image, position⟩ (bytes ++ Instruction.leading list count)) :
    count = (Tape.write ⟨image, position⟩ bytes).fitting (list.flatMap Instruction.fields) := by
  obtain ⟨hearlier, hleading⟩ := Tape.hasRoom_append.mp hroom
  refine Nat.le_antisymm ?_ ?_
  · rcases hleading with hnone | hfits
    · rw [Instruction.leading_eq_nil hnonempty hnone]
      exact Nat.zero_le _
    · exact Tape.le_fitting (Nat.le_of_lt hproper) hfits
  · rcases Tape.hasRoom_append.mpr ⟨hearlier, Tape.hasRoom_fitting _ _⟩ with hnone | hfits
    · rw [Instruction.leading_eq_nil hnonempty (List.append_eq_nil_iff.mp hnone).2]
      exact Nat.zero_le _
    · exact hlongest _ hfits

/-! ## Every failure -/

theorem compile_of_fails (h : compiler.Fails script image position error after) :
    ∃ notices, compiler.compile script image position = ⟨after, notices, .error error⟩ := by
  cases h with
  | refused hreached hreason _ hwritten =>
      obtain rfl := hwritten.unique (written_write hwritten.room)
      exact compile_of_refusal? hreached hwritten.room hreason
  | overflow hreached hmeaning hnonempty hexceeds hproper hlongest _ hwritten =>
      have hwhole : Tape.HasRoom ⟨image, position⟩ (_ ++ _) := hwritten.room
      have hearlier := (Tape.hasRoom_append.mp hwhole).1
      obtain rfl := hwritten.unique (written_write hwhole)
      obtain rfl := eq_fitting hnonempty hproper hlongest hwhole
      refine compile_of_not_hasRoom hreached hearlier hmeaning fun hfull => ?_
      rcases Tape.hasRoom_append.mpr ⟨hearlier, hfull⟩ with hnone | hfits
      · rw [← Instruction.leading_of_le le_rfl] at hnone
        have hfields := Instruction.leading_eq_nil hnonempty (List.append_eq_nil_iff.mp hnone).2
        rw [hfields] at hproper
        exact Nat.not_lt_zero _ hproper
      · exact Nat.not_le.mpr hexceeds hfits

theorem fails_of_compile
    (h : compiler.compile script image position = ⟨after, notices, .error error⟩) :
    compiler.Fails script image position error after := by
  obtain ⟨done, line, rest, bytes, hsplit, hdone, hroom, herror⟩ :=
    exists_failing_line (congrArg Outcome.result h)
  rw [Nat.add_comm] at herror
  obtain ⟨command, texts, hline, hcause⟩ := cause_of_compileLine herror
  have hreached : compiler.Reaches script (done.length + 1) bytes command texts :=
    ⟨done, line, rest, hsplit, rfl, hdone, hline⟩
  rcases hcause with hreason | ⟨list, hmeaning, hfull⟩
  · obtain ⟨_, hcompile⟩ := compile_of_refusal? hreached hroom hreason
    rw [h] at hcompile
    cases hcompile
    exact .refused hreached hreason (fun _ _ herror => line_of_refusal? (herror ▸ hreason))
      (written_write hroom)
  · obtain ⟨_, hcompile⟩ := compile_of_not_hasRoom hreached hroom hmeaning hfull
    rw [h] at hcompile
    cases hcompile
    exact fails_of_not_hasRoom hreached hroom hmeaning hfull

theorem Fails.exists_written (h : compiler.Fails script image position error after) :
    ∃ bytes, Written image position bytes after := by
  cases h with
  | refused _ _ _ hwritten => exact ⟨_, hwritten⟩
  | overflow _ _ _ _ _ _ _ hwritten => exact ⟨_, hwritten⟩

/-- **Every failure is one of the two kinds.**  Compiling fails with an error, and leaves
an image behind, exactly as the first line that cannot be compiled says.  Whether it
fails or not, it touches no cell in front of the position. -/
theorem compile_fails_iff (compiler : Compiler) (script : String) (image : Image)
    (position : Nat) :
    (∀ error after,
      (∃ notices, compiler.compile script image position = ⟨after, notices, .error error⟩) ↔
        compiler.Fails script image position error after) ∧
    ∀ cell, cell < position ∨ image.capacity ≤ cell →
      (compiler.compile script image position).image.get? cell = image.get? cell := by
  refine ⟨fun error after => ⟨fun ⟨_, h⟩ => fails_of_compile h, compile_of_fails⟩, ?_⟩
  intro cell hcell
  cases hcompile : compiler.compile script image position with
  | mk after notices result =>
      cases result with
      | error error =>
          obtain ⟨bytes, hwritten⟩ := (fails_of_compile hcompile).exists_written
          exact hwritten.get?_eq hcell
      | ok final =>
          obtain ⟨bytes, hscript, hroom⟩ :=
            denotes_of_compileLines (congrArg Outcome.result hcompile)
          obtain ⟨_, hwritten⟩ := compile_of_denotes hscript hroom
          rw [hcompile] at hwritten
          cases hwritten
          exact (written_write hroom).get?_eq hcell

-- the opcode and the address of the transfer fit behind the first line, its length does not
example :
    let compiler : Compiler := ⟨⟨4, 64, none⟩, fun _ => .ok ":0100020012EB\n"⟩
    let outcome := compiler.compile "end\nflash a.hex, 0, 0" (Image.blank 8) 1
    outcome.result = .error (.capacity 8 8 2) ∧
      outcome.image.slice 0 8 = [0xFF, 0xFF, 0x05, 0, 0, 0, 2, 0xFF] := by
  decide +kernel

end Compiler

end IspStream
