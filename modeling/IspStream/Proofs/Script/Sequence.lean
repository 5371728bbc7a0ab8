import IspStream.Proofs.Script.Failure
import IspStream.Proofs.Text.Lines

/-!
# Scripts one after the other

Compiling two scripts with a line feed between them is compiling the first and then, where
that one ends, the second (`compile_sequence`).  The compiler carries nothing from line to
line but the tape, and the line number only for what it reports.

## Strategy

* **The tape.**  A run over lines put together is a run over the first ones and then over
  the others (`compileLines_append_eq`).
* **The seam.**  In front of the line feed the last line of the first script is complete.
  It may be empty then, or lose a carriage return, and neither makes a difference to the
  compiler (`compileLines_complete`).
* **The line numbers.**  What stops a compilation is an `Obstacle`.  Whether there is one
  does not depend on the number of the line, and only some errors mention that number.
-/

namespace IspStream

namespace Outcome

variable {outcome : Outcome} {next : Tape → Outcome}

/-- Goes on with another run where an outcome ends, unless it is a failure. -/
def andThen (outcome : Outcome) (next : Tape → Outcome) : Outcome :=
  match outcome.result with
  | .ok position => (next ⟨outcome.image, position⟩).after outcome.notices
  | .error _ => outcome

theorem andThen_of_ok {position : Nat} (h : outcome.result = .ok position) :
    outcome.andThen next = (next ⟨outcome.image, position⟩).after outcome.notices := by
  rw [andThen, h]

theorem andThen_of_error {error : Error} (h : outcome.result = .error error) :
    outcome.andThen next = outcome := by
  rw [andThen, h]

theorem andThen_after (outcome : Outcome) (earlier : List Notice) (next : Tape → Outcome) :
    (outcome.after earlier).andThen next = (outcome.andThen next).after earlier := by
  have hsame : (outcome.after earlier).result = outcome.result := rfl
  cases hresult : outcome.result with
  | ok position =>
      rw [andThen_of_ok hresult, andThen_of_ok (hsame.trans hresult), after_after]
      rfl
  | error error => rw [andThen_of_error hresult, andThen_of_error (hsame.trans hresult)]

end Outcome

namespace Script

/-- What a line can fail on. -/
inductive Obstacle where
  /-- A fault of the line itself. -/
  | fault (reason : Fault)
  /-- An image of the given size that has no room for the instructions of the line. -/
  | noRoom (address size : Nat)
  /-- A file that the line names, which is not there or is not decoded. -/
  | file (error : Error)
deriving DecidableEq, Repr

/-- The error for an obstacle in a numbered line.  What is wrong with a file does not depend
on where the script names it. -/
def Obstacle.error (number : Nat) : Obstacle → Error
  | .fault reason => .script reason number
  | .noRoom address size => .capacity address size number
  | .file error => error

end Script

namespace Compiler

open Script

/-- What a line fails on when the tape stands in front of it. -/
inductive Meets (compiler : Compiler) (tape : Tape) (line : List Char) : Obstacle → Prop where
  | fault {command : Command} {texts : List (List Char)} {reason : Fault}
      (parsed : Line.parse line = .known command texts)
      (first : parameterFault? command texts = some reason) :
      Meets compiler tape line (.fault reason)
  | file {command : Command} {texts : List (List Char)} {name : String} {error : Error}
      (parsed : Line.parse line = .known command texts)
      (faultless : parameterFault? command texts = none)
      (named : file? command texts = some name)
      (unreadable : compiler.fileError? name = some error) :
      Meets compiler tape line (.file error)
  | noRoom {command : Command} {texts : List (List Char)} {instructions : List Instruction}
      (parsed : Line.parse line = .known command texts)
      (meaning : compiler.commandInstructions command texts = some instructions)
      (full : ¬tape.HasRoom (instructions.flatMap Instruction.bytes)) :
      Meets compiler tape line
        (.noRoom (max tape.position tape.image.capacity) tape.image.capacity)

/-- Compiling lines stops at the one with an index, behind lines that are compiled. -/
def StopsAt (compiler : Compiler) (tape : Tape) (lines : List (List Char)) (index : Nat)
    (obstacle : Obstacle) : Prop :=
  ∃ done line rest bytes, lines = done ++ line :: rest ∧ done.length = index ∧
    compiler.denoteLines done = some bytes ∧ tape.HasRoom bytes ∧
    compiler.Meets (tape.write bytes) line obstacle

variable {compiler : Compiler} {number index : Nat} {tape : Tape} {line other : List Char}
  {lines : List (List Char)} {obstacle : Obstacle} {error : Error}

/-! ## Obstacles -/

/-- The tape behind a line that fails does not depend on the number of the line. -/
theorem compileLine_of_meets (h : compiler.Meets tape line obstacle) :
    ∃ stopped, ∀ number, ∃ notices,
      compiler.compileLine number tape line = ⟨stopped, notices, some (obstacle.error number)⟩ := by
  cases h with
  | fault hline hfault =>
      refine ⟨tape, fun number => compileLine_of_refusal? hline ?_⟩
      rw [refusal?, hfault]
      rfl
  | file hline hnone hname herror =>
      refine ⟨tape, fun number => compileLine_of_refusal? hline ?_⟩
      rw [refusal?, hnone]
      exact Option.bind_eq_some_iff.mpr ⟨_, hname, herror⟩
  | noRoom hline hmeaning hfull =>
      exact ⟨_, fun number => compileLine_of_not_hasRoom hline hmeaning hfull⟩

theorem exists_meets (h : (compiler.compileLine number tape line).error? = some error) :
    ∃ obstacle, compiler.Meets tape line obstacle := by
  obtain ⟨command, texts, hline, hreason | ⟨list, hmeaning, hfull⟩⟩ := cause_of_compileLine h
  · rw [refusal?] at hreason
    cases hfault : parameterFault? command texts with
    | some fault => exact ⟨_, .fault hline hfault⟩
    | none =>
        rw [hfault] at hreason
        obtain ⟨name, hname, herror⟩ := Option.bind_eq_some_iff.mp hreason
        exact ⟨_, .file hline hfault hname herror⟩
  · exact ⟨_, .noRoom hline hmeaning hfull⟩

theorem compileLines_of_stopsAt (h : compiler.StopsAt tape lines index obstacle) :
    ∃ image, ∀ number, ∃ notices, compiler.compileLines number lines tape =
      ⟨image, notices, .error (obstacle.error (number + index))⟩ := by
  obtain ⟨done, line, rest, bytes, rfl, rfl, hdone, hroom, hmeets⟩ := h
  obtain ⟨stopped, hline⟩ := compileLine_of_meets hmeets
  refine ⟨stopped.image, fun number => ?_⟩
  obtain ⟨_, hstopped⟩ := hline (number + done.length)
  exact compileLines_of_compileLine rest hdone hroom hstopped

theorem exists_stopsAt (h : (compiler.compileLines number lines tape).result = .error error) :
    ∃ index obstacle, compiler.StopsAt tape lines index obstacle := by
  obtain ⟨done, line, rest, bytes, hlines, hdone, hroom, herror⟩ := exists_failing_line h
  obtain ⟨obstacle, hmeets⟩ := exists_meets herror
  exact ⟨_, obstacle, done, line, rest, bytes, hlines, rfl, hdone, hroom, hmeets⟩

/-- The image and the end do not depend on the line numbers. -/
theorem compileLines_renumber (compiler : Compiler) (number other : Nat)
    (lines : List (List Char)) (tape : Tape) :
    (compiler.compileLines number lines tape).image =
        (compiler.compileLines other lines tape).image ∧
      ∀ final, (compiler.compileLines number lines tape).result = .ok final →
        (compiler.compileLines other lines tape).result = .ok final := by
  cases hresult : (compiler.compileLines number lines tape).result with
  | ok final =>
      obtain ⟨bytes, hlines, hroom⟩ := denotes_of_compileLines hresult
      obtain ⟨_, hone⟩ := compileLines_of_denotes number hlines hroom
      obtain ⟨_, htwo⟩ := compileLines_of_denotes other hlines hroom
      rw [hone] at hresult
      rw [hone, htwo]
      exact ⟨rfl, fun _ hfinal => hresult.trans hfinal⟩
  | error error =>
      obtain ⟨index, obstacle, hstops⟩ := exists_stopsAt hresult
      obtain ⟨image, hcompiled⟩ := compileLines_of_stopsAt hstops
      obtain ⟨_, hone⟩ := hcompiled number
      obtain ⟨_, htwo⟩ := hcompiled other
      rw [hone, htwo]
      exact ⟨rfl, fun _ hfinal => nomatch hfinal⟩

/-! ## Lines put together -/

/-- A run goes on behind the first lines if they are compiled, and else it has ended. -/
theorem compileLines_append_eq (number : Nat) (first second : List (List Char)) (tape : Tape) :
    compiler.compileLines number (first ++ second) tape =
      (compiler.compileLines number first tape).andThen
        (compiler.compileLines (number + first.length) second) := by
  induction first generalizing number tape with
  | nil => rfl
  | cons line rest ih =>
      rw [List.cons_append, compileLines, compileLines]
      cases compiler.compileLine number tape line with
      | mk after earlier error? =>
          cases error? with
          | some error => rfl
          | none =>
              simp only [ih, Outcome.andThen_after, List.length_cons, Nat.add_comm rest.length 1,
                ← Nat.add_assoc]

theorem compileLine_of_parse (h : Line.parse line = Line.parse other) :
    compiler.compileLine number tape line = compiler.compileLine number tape other := by
  rw [compileLine, compileLine, h]

/-- A line feed behind a script completes its last line and makes no difference else. -/
theorem compileLines_complete (text : List Char) :
    compiler.compileLines number ((text.splitOn '\n').map Text.dropReturn) tape =
      compiler.compileLines number (Text.lines text) tape := by
  obtain ⟨ended, last, hpieces, hlines⟩ := Text.exists_last_line text
  have hlast : ∀ number, compiler.compileLines number [Text.dropReturn last] =
      compiler.compileLines number (if last = [] then [] else [last]) := by
    intro number
    funext tape
    split
    · rename_i hnone
      rw [hnone]
      rfl
    · rw [compileLines, compileLines, compileLine_of_parse (Line.parse_dropReturn last)]
  rw [hpieces, hlines, List.map_append, List.map_singleton, compileLines_append_eq,
    compileLines_append_eq, hlast]

/-! ## Two scripts -/

/-- Behind a line feed a compilation goes on with the second script, whose first line has the
next number. -/
theorem compile_append (first second : String) (image : Image) (position : Nat) :
    compiler.compile (first ++ "\n" ++ second) image position =
      (compiler.compile first image position).andThen
        (compiler.compileLines (1 + (first.toList.count '\n' + 1))
          (Text.lines second.toList)) := by
  have htext : (first ++ "\n" ++ second).toList = first.toList ++ '\n' :: second.toList := by
    rw [String.toList_append, String.toList_append, List.append_assoc]
    rfl
  rw [compile, compile, htext, Text.lines_append, compileLines_append_eq, compileLines_complete,
    List.length_map, Text.length_splitOn]

/-- **Scripts compose.**  If the first script fails, nothing comes after it.  If it ends at a
position, the second one is compiled there.  What stops that one is reported with the line
number that it has in both, unless it is a file. -/
theorem compile_sequence (compiler : Compiler) (first second : String) (image : Image)
    (position : Nat) :
    let one := compiler.compile first image position
    let both := compiler.compile (first ++ "\n" ++ second) image position
    (∀ error, one.result = .error error →
      both.result = .error error ∧ both.image = one.image) ∧
    ∀ middle, one.result = .ok middle →
      let two := compiler.compile second one.image middle
      both.image = two.image ∧
      (∀ final, two.result = .ok final → both.result = .ok final) ∧
      (∀ error, two.result = .error error → ∃ index obstacle,
        compiler.StopsAt ⟨one.image, middle⟩ (Text.lines second.toList) index obstacle) ∧
      ∀ index obstacle,
        compiler.StopsAt ⟨one.image, middle⟩ (Text.lines second.toList) index obstacle →
          two.result = .error (obstacle.error (index + 1)) ∧
          both.result =
            .error (obstacle.error (index + 1 + (first.toList.count '\n' + 1))) := by
  intro one both
  have hboth : both = one.andThen _ := compile_append first second image position
  constructor
  · intro error herror
    rw [hboth, Outcome.andThen_of_error herror]
    exact ⟨herror, rfl⟩
  · intro middle hmiddle two
    rw [hboth, Outcome.andThen_of_ok hmiddle]
    obtain ⟨himage, hresult⟩ := compiler.compileLines_renumber 1
      (1 + (first.toList.count '\n' + 1)) (Text.lines second.toList) ⟨one.image, middle⟩
    refine ⟨himage.symm, hresult, fun error herror => exists_stopsAt herror, ?_⟩
    intro index obstacle hstops
    obtain ⟨_, hcompiled⟩ := compileLines_of_stopsAt hstops
    obtain ⟨_, halone⟩ := hcompiled 1
    obtain ⟨_, hbehind⟩ := hcompiled (1 + (first.toList.count '\n' + 1))
    rw [Nat.add_comm index 1, Nat.add_right_comm 1 index]
    exact ⟨congrArg Outcome.result halone, congrArg Outcome.result hbehind⟩

-- the first script ends in a carriage return and has one line, and the fault is in line 2 of
-- the second
example :
    let compiler : Compiler := ⟨⟨16, 64, none⟩, fun _ => .ok ""⟩
    let both := compiler.compile ("wait 1\r" ++ "\n" ++ ";\nwait") (Image.blank 8) 0
    both.result = .error (.script (.missingParameter .wait 0) 3) ∧
      both.image.slice 0 3 = [6, 1, 0xFF] := by
  decide +kernel

end Compiler

end IspStream
