import IspStream.Proofs.Script.Content
import IspStream.Proofs.Script.Sequence
import IspStream.Proofs.Text.Words

/-!
# The statements of a script

A command reads as many parameters as it needs, and it reads them without the white space
around them.  These parameters are its operands, and a command with its operands is a
statement.  Lines that are blank or begin with an unknown word are no statements.

Compiling a script depends on its statements only (`compileLines_of_statements`).

## Strategy

* **One line.**  Whatever is asked about the parameters of a command has the same answer for
  its operands (`parameterFault?_operands`, `commandInstructions_operands`).  Hence lines with
  the same statement denote the same bytes, fail on the same obstacle and leave the same tape.
* **Many lines.**  The bytes of lines are those of their statements (`denoteLines_eq`), so if
  there is room for them, nothing else counts.  Otherwise a run stops at a line with a
  statement, and the other lines have the same statement behind the same ones
  (`StopsAt.of_statements`), at an index of its own.
-/

namespace IspStream

namespace Script

/-- The parameters that a command reads, without the white space around them. -/
def operands (command : Command) (texts : List (List Char)) : List (List Char) :=
  (texts.take command.arity).map Text.trim

/-- The command of a line and its operands. -/
def Line.statement? (line : List Char) : Option (Command × List (List Char)) :=
  match parse line with
  | .empty | .unknown _ => none
  | .known command texts => some (command, operands command texts)

/-- The statements of lines in order. -/
def statements (lines : List (List Char)) : List (Command × List (List Char)) :=
  lines.filterMap Line.statement?

variable {command : Command} {texts others : List (List Char)} {index : Nat}
  {line other : List Char}

/-! ## Operands in the place of parameters -/

theorem length_operands (command : Command) (texts : List (List Char)) :
    (operands command texts).length = min command.arity texts.length := by
  rw [operands, List.length_map, List.length_take]

theorem getElem?_operands (texts : List (List Char)) (h : index < command.arity) :
    (operands command texts)[index]? = texts[index]?.map Text.trim := by
  rw [operands, List.getElem?_map, List.getElem?_take, if_pos h]

theorem value?_operands (texts : List (List Char)) (h : index < command.arity) :
    value? (operands command texts) index = value? texts index := by
  rw [value?, getElem?_operands texts h, value?, Option.bind_map]
  simp only [Function.comp_def, Text.trim_trim]

theorem name?_operands (texts : List (List Char)) (h : 0 < command.arity) :
    name? (operands command texts) = name? texts := by
  rw [name?, getElem?_operands texts h, name?, Option.map_map]
  simp only [Function.comp_def, Text.trim_trim]

theorem integerFault?_operands (texts : List (List Char)) (h : index < command.arity) :
    integerFault? (operands command texts) index = integerFault? texts index := by
  rw [integerFault?, getElem?_operands texts h, integerFault?, Option.bind_map]
  simp only [Function.comp_def, Text.trim_trim]

theorem nameFault?_operands (texts : List (List Char)) (h : 0 < command.arity) :
    nameFault? command (operands command texts) = nameFault? command texts := by
  rw [nameFault?, getElem?_operands texts h, nameFault?, Option.bind_map]
  simp only [Function.comp_def, Text.trim_trim]

theorem faults_operands (command : Command) (texts : List (List Char)) :
    faults command (operands command texts) = faults command texts := by
  have hintegers : (List.range command.arity).map (integerFault? (operands command texts)) =
      (List.range command.arity).map (integerFault? texts) :=
    List.map_congr_left fun index hindex =>
      integerFault?_operands texts (List.mem_range.mp hindex)
  cases command with
  | program memory =>
      have harity : (Command.program memory).arity = 3 := rfl
      rw [faults, nameFault?_operands texts (by omega), integerFault?_operands texts (by omega),
        integerFault?_operands texts (by omega), faults]
  | _ => exact hintegers

theorem parameterFault?_operands (command : Command) (texts : List (List Char)) :
    parameterFault? command (operands command texts) = parameterFault? command texts := by
  rw [parameterFault?, parameterFault?, faults_operands, length_operands]
  rcases Nat.lt_or_ge texts.length command.arity with hfew | henough
  · rw [Nat.min_eq_right hfew.le]
  · rw [if_neg (by omega), if_neg (by omega)]

theorem file?_operands (command : Command) (texts : List (List Char)) :
    file? command (operands command texts) = file? command texts := by
  cases command with
  | program memory => exact name?_operands texts (Nat.succ_pos 2)
  | _ => rfl

/-! ## Lines with a statement -/

theorem exists_parse_of_statement? {list : List (List Char)}
    (h : Line.statement? line = some (command, list)) :
    ∃ texts, Line.parse line = .known command texts ∧ operands command texts = list := by
  unfold Line.statement? at h
  split at h
  · cases h
  · cases h
  · rename_i found texts hline
    cases h
    exact ⟨texts, hline, rfl⟩

theorem statement?_of_parse (h : Line.parse line = .known command texts) :
    Line.statement? line = some (command, operands command texts) := by
  rw [Line.statement?, h]

theorem Line.statement?_congr (h : content other = content line) :
    statement? other = statement? line := by
  rw [statement?, parse, h, statement?, parse]

theorem Line.statement?_eq_none_of_content (h : content line = []) : statement? line = none := by
  rw [statement?, parse, h]
  rfl

/-- A line with the statement of another one has the same command and operands. -/
theorem exists_parse_eq (hline : Line.parse line = .known command texts)
    (h : Line.statement? other = Line.statement? line) :
    ∃ others, Line.parse other = .known command others ∧
      operands command others = operands command texts := by
  rw [statement?_of_parse hline] at h
  exact exists_parse_of_statement? h

/-! ## Scripts -/

/-- Neither the line ends of a text nor an empty line at its end make statements. -/
theorem statements_lines (text : List Char) :
    statements (Text.lines text) = statements (text.splitOn '\n') := by
  obtain ⟨ended, last, hpieces, hlines⟩ := Text.exists_last_line text
  have hended : statements (ended.map Text.dropReturn) = statements ended := by
    rw [statements, List.filterMap_map, statements]
    refine List.filterMap_congr fun line _ => ?_
    rw [Function.comp_apply, Line.statement?, Line.parse_dropReturn, Line.statement?]
  have hlast : statements (if last = [] then [] else [last]) = statements [last] := by
    split
    · rename_i hnil
      rw [hnil]
      rfl
    · rfl
  rw [hlines, hpieces, statements, List.filterMap_append, statements, List.filterMap_append]
  exact congrArg₂ (· ++ ·) hended hlast

theorem statements_replace {before after : List (List Char)}
    (h : Line.statement? other = Line.statement? line) :
    statements (before ++ other :: after) = statements (before ++ line :: after) := by
  rw [statements, statements, List.filterMap_append, List.filterMap_append, List.filterMap_cons,
    List.filterMap_cons, h]

end Script

namespace Compiler

open Script

variable {compiler : Compiler} {tape : Tape} {command : Command}
  {texts others : List (List Char)} {line other : List Char} {lines more : List (List Char)}
  {index number : Nat} {obstacle : Obstacle}

theorem commandInstructions_operands (command : Command) (texts : List (List Char)) :
    compiler.commandInstructions command (operands command texts) =
      compiler.commandInstructions command texts := by
  cases command with
  | disconnect | finish => rfl
  | connect | wait | countDown | spiWrite | spiVerify =>
      simp (disch := decide) only [commandInstructions, value?_operands]
  | program memory =>
      have harity : (Command.program memory).arity = 3 := rfl
      simp (disch := omega) only [commandInstructions, value?_operands, name?_operands]

theorem denoteCommand_operands (command : Command) (texts : List (List Char)) :
    compiler.denoteCommand command (operands command texts) =
      compiler.denoteCommand command texts := by
  rw [← bytes_commandInstructions, commandInstructions_operands, bytes_commandInstructions]

theorem refusal?_operands (number : Nat) (command : Command) (texts : List (List Char)) :
    compiler.refusal? number command (operands command texts) =
      compiler.refusal? number command texts := by
  rw [refusal?, parameterFault?_operands, file?_operands, refusal?]

/-- The bytes that a statement denotes. -/
def denoteStatement (compiler : Compiler) (statement : Command × List (List Char)) :
    Option (List UInt8) :=
  compiler.denoteCommand statement.1 statement.2

/-! ## One line -/

theorem denoteLine_eq (line : List Char) :
    compiler.denoteLine line =
      match Line.statement? line with
      | none => some []
      | some statement => compiler.denoteStatement statement := by
  rw [denoteLine, Line.statement?]
  cases Line.parse line with
  | empty | unknown word => rfl
  | known command texts => exact (denoteCommand_operands command texts).symm

/-- Lines with the same statement do the same to the tape. -/
theorem effect_compileLine_of_statement? (compiler : Compiler)
    (hline : Line.parse line = .known command texts)
    (h : Line.statement? other = Line.statement? line) (number : Nat) (tape : Tape) :
    (compiler.compileLine number tape other).effect =
      (compiler.compileLine number tape line).effect := by
  obtain ⟨others, hother, hoperands⟩ := exists_parse_eq hline h
  refine effect_compileLine_congr number tape hother hline ?_ ?_
  · rw [← refusal?_operands, hoperands, refusal?_operands]
  · rw [← commandInstructions_operands, hoperands, commandInstructions_operands]

/-- Lines with the same statement fail on the same. -/
theorem Meets.of_statement? (hmeets : compiler.Meets tape line obstacle)
    (h : Line.statement? other = Line.statement? line) : compiler.Meets tape other obstacle := by
  cases hmeets with
  | fault parsed first =>
      obtain ⟨others, hother, hoperands⟩ := exists_parse_eq parsed h
      refine .fault hother ?_
      rwa [← parameterFault?_operands, hoperands, parameterFault?_operands]
  | file parsed faultless named unreadable =>
      obtain ⟨others, hother, hoperands⟩ := exists_parse_eq parsed h
      refine .file hother ?_ ?_ unreadable
      · rwa [← parameterFault?_operands, hoperands, parameterFault?_operands]
      · rwa [← file?_operands, hoperands, file?_operands]
  | noRoom parsed meaning full =>
      obtain ⟨others, hother, hoperands⟩ := exists_parse_eq parsed h
      refine .noRoom hother ?_ full
      rwa [← commandInstructions_operands, hoperands, commandInstructions_operands]

/-- A line that fails on something has a statement. -/
theorem Meets.exists_parse (hmeets : compiler.Meets tape line obstacle) :
    ∃ command texts, Line.parse line = .known command texts := by
  cases hmeets with
  | fault parsed _ | file parsed _ _ _ | noRoom parsed _ _ => exact ⟨_, _, parsed⟩

/-! ## Many lines -/

/-- The bytes of lines are those of their statements. -/
theorem denoteLines_eq (lines : List (List Char)) :
    compiler.denoteLines lines =
      ((statements lines).mapM compiler.denoteStatement).map List.flatten := by
  induction lines with
  | nil => rfl
  | cons line rest ih =>
      rw [denoteLines_cons, denoteLine_eq, ih]
      cases hline : Line.statement? line with
      | none =>
          rw [statements, statements, List.filterMap_cons_none hline]
          cases (rest.filterMap Line.statement?).mapM compiler.denoteStatement <;> rfl
      | some statement =>
          rw [statements, statements, List.filterMap_cons_some hline, List.mapM_cons]
          simp only
          cases compiler.denoteStatement statement with
          | none => rfl
          | some first =>
              cases (rest.filterMap Line.statement?).mapM compiler.denoteStatement <;> rfl

/-- Two compilations end at the same position, or each of them stops at a line that fails on
the same and is reported with its own number. -/
inductive EndsAlike (compiler : Compiler) (tape : Tape) (lines others : List (List Char)) :
    Except Error Nat → Except Error Nat → Prop where
  | ok (final : Nat) : EndsAlike compiler tape lines others (.ok final) (.ok final)
  | error {index place : Nat} {obstacle : Obstacle}
      (stops : compiler.StopsAt tape lines index obstacle)
      (other_stops : compiler.StopsAt tape others place obstacle) :
      EndsAlike compiler tape lines others (.error (obstacle.error (index + 1)))
        (.error (obstacle.error (place + 1)))

theorem denoteLines_of_statements (h : statements more = statements lines) :
    compiler.denoteLines more = compiler.denoteLines lines := by
  rw [denoteLines_eq, h, denoteLines_eq]

/-- Where a run stops, a run over lines with the same statements does so at the same one. -/
theorem StopsAt.of_statements (hstops : compiler.StopsAt tape lines index obstacle)
    (h : statements more = statements lines) :
    ∃ place, compiler.StopsAt tape more place obstacle ∧
      ∀ number other, (compiler.compileLines number more tape).image =
        (compiler.compileLines other lines tape).image := by
  obtain ⟨done, line, rest, bytes, rfl, -, hdone, hroom, hmeets⟩ := hstops
  obtain ⟨command, texts, hline⟩ := hmeets.exists_parse
  -- lines without a statement may stand in front of the line that fails, and belong to the
  -- ones that are compiled
  rw [statements, statements, List.filterMap_append, List.filterMap_cons,
    statement?_of_parse hline] at h
  obtain ⟨front, behind, rfl, hfront, hbehind⟩ := List.filterMap_eq_append_iff.mp h
  obtain ⟨idle, other, others, rfl, hidle, hother, -⟩ := List.filterMap_eq_cons_iff.mp hbehind
  have hsame : Line.statement? other = Line.statement? line :=
    hother.trans (statement?_of_parse hline).symm
  have hstatements : statements (front ++ idle) = statements done := by
    rw [statements, List.filterMap_append, hfront, List.filterMap_eq_nil_iff.mpr hidle,
      List.append_nil, statements]
  have hotherDone := (denoteLines_of_statements hstatements).trans hdone
  refine ⟨(front ++ idle).length, ⟨front ++ idle, other, others, bytes,
    (List.append_assoc ..).symm, rfl, hotherDone, hroom, hmeets.of_statement? hsame⟩, ?_⟩
  obtain ⟨stopped, hcompiled⟩ := compileLine_of_meets hmeets
  obtain ⟨otherStopped, hotherCompiled⟩ := compileLine_of_meets (hmeets.of_statement? hsame)
  have htapes : otherStopped = stopped := by
    have heffect :=
      effect_compileLine_of_statement? compiler hline hsame 0 (tape.write bytes)
    obtain ⟨_, hone⟩ := hcompiled 0
    obtain ⟨_, htwo⟩ := hotherCompiled 0
    rw [hone, htwo] at heffect
    exact congrArg Prod.fst heffect
  intro number number'
  obtain ⟨_, hone⟩ := hcompiled (number' + done.length)
  obtain ⟨_, htwo⟩ := hotherCompiled (number + (front ++ idle).length)
  obtain ⟨_, hlines⟩ := compileLines_of_compileLine rest hdone hroom hone
  obtain ⟨_, hmore⟩ := compileLines_of_compileLine others hotherDone hroom htwo
  rw [hlines, ← List.append_assoc, hmore, htapes]

/-- Lines with the same statements leave the same image, and their compilations end alike. -/
theorem compileLines_of_statements (h : statements more = statements lines) :
    (compiler.compileLines 1 more tape).image = (compiler.compileLines 1 lines tape).image ∧
      compiler.EndsAlike tape lines more (compiler.compileLines 1 lines tape).result
        (compiler.compileLines 1 more tape).result := by
  cases hresult : (compiler.compileLines 1 lines tape).result with
  | ok final =>
      obtain ⟨bytes, hlines, hroom⟩ := denotes_of_compileLines hresult
      obtain ⟨_, hone⟩ := compileLines_of_denotes 1 hlines hroom
      obtain ⟨_, htwo⟩ :=
        compileLines_of_denotes 1 ((denoteLines_of_statements h).trans hlines) hroom
      rw [hone] at hresult
      rw [hone, htwo]
      cases hresult
      exact ⟨rfl, .ok _⟩
  | error error =>
      obtain ⟨index, obstacle, hstops⟩ := exists_stopsAt hresult
      obtain ⟨place, hother, himage⟩ := hstops.of_statements h
      obtain ⟨_, hcompiled⟩ := compileLines_of_stopsAt hstops
      obtain ⟨_, hone⟩ := hcompiled 1
      obtain ⟨_, hotherCompiled⟩ := compileLines_of_stopsAt hother
      obtain ⟨_, htwo⟩ := hotherCompiled 1
      refine ⟨himage 1 1, ?_⟩
      rw [hone] at hresult
      rw [htwo, ← hresult, Nat.add_comm 1 index, Nat.add_comm 1 place]
      exact .error hstops hother

end Compiler

end IspStream
