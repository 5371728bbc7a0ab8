import IspStream.Proofs.Script.Failure
import IspStream.Proofs.Script.Size

/-!
# What a line reports

Compiling a line reports in three places.  The line itself may be unknown or have too many
parameters, decoding a file may meet records of unknown types, and emitting reports the blocks
of a file and at last the line.  This file says what the reports of one line are, without
planning or emitting it: `Compiler.Completes` is the log of a line that is compiled, and
`Compiler.Stops` that of a line that is not.

## Strategy

* **Warnings** come while a command is planned, so they do not depend on the tape
  (`notices_plan`).
* **Blocks** are reported part by part, each behind its last byte.  So the blocks in the log
  are those that fit as a whole (`exists_notices_emit`).
* A plan either has one instruction without a report (`exists_instruction`) or carries the
  blocks of a file (`exists_upload`), and each case is read off what emitting a plan does.
-/

namespace IspStream

/-! ## Decoding -/

namespace Record

/-- The lines in front of the one that stops a run over numbered lines. -/
def linesBefore (number : Nat) (lines : List (List Char)) : Except Error Nat → List (List Char)
  | .ok _ => lines
  | .error error => lines.take (error.line?.getD number - number)

/-- Decoding reports on the first lines, and then is at the end or fails in the next one. -/
structure ReportsFirst (number : Nat) (lines : List (List Char)) (outcome : Outcome)
    (count : Nat) : Prop where
  notices : outcome.notices = reportsOf number (lines.take count)
  all : ∀ final, outcome.result = .ok final → count = lines.length
  next : ∀ error, outcome.result = .error error → error.line? = some (number + count)

variable {number count : Nat} {line : List Char} {lines rest : List (List Char)}
  {outcome : Outcome}

theorem ReportsFirst.cons {record? : Option Record} (hline : ofLine line = .ok record?)
    (h : ReportsFirst (number + 1) rest outcome count) :
    ReportsFirst number (line :: rest)
      (outcome.after (record?.toList.flatMap fun record => record.reports number))
      (count + 1) where
  notices := by
    rw [List.take_succ_cons, reportsOf, hline, Outcome.after, h.notices]
    rfl
  all final hfinal := by rw [h.all final hfinal, List.length_cons]
  next error herror := by rw [h.next error herror, Nat.add_assoc, Nat.add_comm 1 count]

theorem ReportsFirst.notices_eq (h : ReportsFirst number lines outcome count) :
    outcome.notices = reportsOf number (linesBefore number lines outcome.result) := by
  rw [h.notices]
  cases hresult : outcome.result with
  | ok final => rw [linesBefore, h.all final hresult, List.take_length]
  | error error =>
      rw [linesBefore, h.next error hresult, Option.getD_some, Nat.add_sub_cancel_left]

end Record

namespace Image

open Record

theorem reportsFirst_decodeLines (offset number : Nat) (lines : List (List Char))
    (bases : Bases) (stop : Nat) (image : Image) :
    ∃ count, ReportsFirst number lines (decodeLines offset number lines bases stop image)
      count := by
  induction lines generalizing number bases stop image with
  | nil => exact ⟨0, rfl, fun _ _ => rfl, nofun⟩
  | cons line rest ih =>
      rw [decodeLines_cons]
      have hhere : ∀ (image : Image) (error : Error), error.line? = some number →
          ReportsFirst number (line :: rest) (.stop image (.error error)) 0 := by
        intro image error herror
        refine ⟨rfl, nofun, fun other hother => ?_⟩
        cases hother
        exact herror
      cases hline : ofLine line with
      | error fault => exact ⟨0, hhere _ _ rfl⟩
      | ok record? =>
          cases record? with
          | none =>
              obtain ⟨count, hrest⟩ := ih (number + 1) bases stop image
              exact ⟨count + 1, hrest.cons hline⟩
          | some record =>
              simp only
              split
              · obtain ⟨count, hrest⟩ := ih (number + 1) _ _ _
                refine ⟨count + 1, ?_⟩
                rw [← List.append_nil (record.reports number)]
                exact hrest.cons hline
              · exact ⟨0, hhere _ _ rfl⟩

/-- Decoding reports on all lines in front of the one at which it fails. -/
theorem notices_decode (image : Image) (text : String) (offset : Nat) :
    (image.decode text offset).notices =
      reportsOf 1 (linesBefore 1 (Text.lines text.toList) (image.decode text offset).result) := by
  obtain ⟨count, hreports⟩ := reportsFirst_decodeLines offset 1 (Text.lines text.toList) {} 0 image
  exact hreports.notices_eq

end Image

/-! ## The log of a line -/

namespace Script

/-- What a programming command uploads: blocks of a file for addresses of a memory. -/
structure Upload where
  /-- The memory to program. -/
  memory : Memory
  /-- The path of the file. -/
  path : String
  /-- The target address of the file's first cell. -/
  start : Int
  /-- The blocks of data in the file. -/
  blocks : List Block

/-- The report of a block, with its target address modulo `2 ^ 32`. -/
def Upload.report (upload : Upload) (block : Block) : Notice :=
  .emitted upload.memory block upload.path
    (UInt32.ofNat ((upload.start + block.first) % 2 ^ 32).toNat)

/-- The report that there is nothing to upload. -/
def Upload.closing (upload : Upload) : List Notice :=
  if upload.blocks = [] then [.nothingEmitted upload.path] else []

end Script

namespace Compiler

open Script

/-- The upload that a programming command asks for, if its parameters and its file are as
they should be. -/
def upload? (compiler : Compiler) (memory : Memory) (texts : List (List Char)) :
    Option Upload := do
  let name ← name? texts
  let start ← value? texts 1
  let pageSize ← value? texts 2
  let (image, stop) ← compiler.content? name
  return ⟨memory, compiler.resolve name, start,
    Block.blocks (compiler.settings.bound pageSize.toNat) (image.slice 0 stop)⟩

/-- The warnings about a file: one for each record of an unknown type in the lines that are
decoded. -/
def fileWarnings (compiler : Compiler) (name : String) : List Notice :=
  match compiler.read (compiler.resolve name) with
  | .error _ => []
  | .ok text =>
    let loaded := (Image.blank compiler.settings.targetMemorySize).decode text 0
    Record.reportsOf 1 (Record.linesBefore 1 (Text.lines text.toList) loaded.result)

/-- The warnings about the command of a numbered line.  Its file is not read before its
parameters are as they should be. -/
def commandWarnings (compiler : Compiler) (number : Nat) (command : Command)
    (texts : List (List Char)) : List Notice :=
  (if command.arity < texts.length then [.surplusParameters command number] else []) ++
    match parameterFault? command texts with
    | some _ => []
    | none => (file? command texts).elim [] compiler.fileWarnings

/-- The warnings about a numbered line. -/
def lineWarnings (compiler : Compiler) (number : Nat) (line : List Char) : List Notice :=
  match Line.parse line with
  | .empty => []
  | .unknown word => [.unknownCommand word number]
  | .known command texts => compiler.commandWarnings number command texts

/-- A numbered line is compiled from one position up to another one, and this is its log. -/
inductive Completes (compiler : Compiler) (number : Nat) (line : List Char) (start : Nat) :
    Nat → List Notice → Prop where
  /-- There is no command in the line. -/
  | idle (silent : ∀ command texts, Line.parse line ≠ .known command texts) :
      Completes compiler number line start start (compiler.lineWarnings number line)
  /-- The command has an instruction of its own. -/
  | single {command : Command} {texts : List (List Char)} {bytes : List UInt8}
      (parsed : Line.parse line = .known command texts)
      (own : ∀ memory, command ≠ .program memory)
      (meaning : compiler.denoteCommand command texts = some bytes) :
      Completes compiler number line start (start + bytes.length)
        (compiler.lineWarnings number line ++
          [.compiled number command start (start + bytes.length)])
  /-- The command programs the blocks of a file. -/
  | upload {memory : Memory} {texts : List (List Char)} {upload : Upload}
      (parsed : Line.parse line = .known (.program memory) texts)
      (meaning : compiler.upload? memory texts = some upload) :
      Completes compiler number line start (start + Block.cost upload.blocks)
        (compiler.lineWarnings number line ++ upload.blocks.map upload.report ++
          upload.closing ++
          [.compiled number (.program memory) start (start + Block.cost upload.blocks)])

/-- A numbered line is not compiled at a position of an image, for some error, and this is
its log. -/
inductive Stops (compiler : Compiler) (capacity number : Nat) (line : List Char) (start : Nat) :
    Error → List Notice → Prop where
  /-- Something is wrong with the command. -/
  | refused {command : Command} {texts : List (List Char)} {error : Error}
      (parsed : Line.parse line = .known command texts)
      (reason : compiler.refusal? number command texts = some error) :
      Stops compiler capacity number line start error (compiler.lineWarnings number line)
  /-- There is no room for the instruction of the command. -/
  | single {command : Command} {texts : List (List Char)} {bytes : List UInt8}
      (parsed : Line.parse line = .known command texts)
      (own : ∀ memory, command ≠ .program memory)
      (meaning : compiler.denoteCommand command texts = some bytes)
      (full : capacity < start + bytes.length) :
      Stops compiler capacity number line start (.capacity (max start capacity) capacity number)
        (compiler.lineWarnings number line)
  /-- There is room for some blocks of a file only.  These are in the log. -/
  | upload {memory : Memory} {texts : List (List Char)} {upload : Upload} {count : Nat}
      (parsed : Line.parse line = .known (.program memory) texts)
      (meaning : compiler.upload? memory texts = some upload)
      (proper : count < upload.blocks.length)
      (whole : ∀ other ≤ upload.blocks.length,
        other ≤ count ↔ other = 0 ∨ start + Block.cost (upload.blocks.take other) ≤ capacity) :
      Stops compiler capacity number line start (.capacity (max start capacity) capacity number)
        (compiler.lineWarnings number line ++
          (upload.blocks.take count).map upload.report)

end Compiler

/-! ## Emitting -/

theorem Block.cost_eq_zero_iff {blocks : List Block} : cost blocks = 0 ↔ blocks = [] := by
  cases blocks with
  | nil => exact iff_of_true rfl rfl
  | cons block rest =>
      rw [cost]
      exact iff_of_false (by omega) (List.cons_ne_nil block rest)

namespace Script

variable {tape : Tape} {parts : List Part}

/-- The reports are those of the first parts, as many as there is room for. -/
theorem exists_notices_emit (tape : Tape) (parts : List Part) :
    ∃ count, (emit tape parts).notices = (parts.take count).flatMap Part.notices ∧
      ∀ other ≤ parts.length, other ≤ count ↔ tape.HasRoom (partBytes (parts.take other)) := by
  induction parts generalizing tape with
  | nil =>
      refine ⟨0, rfl, fun other hother => iff_of_true hother ?_⟩
      rw [List.take_nil]
      exact Or.inl rfl
  | cons part rest ih =>
      have hnone : tape.HasRoom (partBytes ((part :: rest).take 0)) := Or.inl rfl
      have hsome : ∀ other, partBytes ((part :: rest).take (other + 1)) =
          part.instruction.bytes ++ partBytes (rest.take other) := fun _ => rfl
      -- the first part is emitted, and more parts behind it, or nothing is
      by_cases hpart : tape.HasRoom part.instruction.bytes
      · have hfits : tape.Fits part.instruction.fields.flatten :=
          hpart.resolve_left part.instruction.bytes_ne_nil
        obtain ⟨count, hnotices, hcount⟩ := ih (tape.write part.instruction.bytes)
        refine ⟨count + 1, ?_, fun other hother => ?_⟩
        · rw [emit, Tape.writeFields_of_fits hfits]
          exact congrArg (part.notices ++ ·) hnotices
        · cases other with
          | zero => exact iff_of_true (Nat.zero_le _) hnone
          | succ other =>
              rw [hsome, Tape.hasRoom_append, and_iff_right hpart, Nat.succ_le_succ_iff]
              exact hcount other (Nat.le_of_succ_le_succ hother)
      · have hstopped : (emit tape [part]).complete = false :=
          (emit_of_not_hasRoom (show ¬tape.HasRoom (partBytes [part]) by
            rwa [partBytes, List.flatMap_singleton])).2
        refine ⟨0, ?_, fun other hother => ?_⟩
        · rw [emit] at hstopped ⊢
          split
          · rename_i hwritten
            rw [hwritten] at hstopped
            cases hstopped
          · rfl
        · cases other with
          | zero => exact iff_of_true (Nat.zero_le _) hnone
          | succ other =>
              rw [hsome, Tape.hasRoom_append]
              exact iff_of_false (Nat.not_succ_le_zero other) fun h => hpart h.1

/-- Without room for a plan, the parts for which there is room are reported. -/
theorem exists_emitPlan_of_not_hasRoom (number : Nat) (command : Command) {plan : Plan}
    (h : ¬tape.HasRoom plan.bytes) :
    ∃ stopped count, emitPlan tape number command plan =
        ⟨stopped, (plan.parts.take count).flatMap Part.notices, some (tape.overflow number)⟩ ∧
      count < plan.parts.length ∧ ∀ other ≤ plan.parts.length,
        other ≤ count ↔ tape.HasRoom (partBytes (plan.parts.take other)) := by
  obtain ⟨count, hnotices, hcount⟩ := exists_notices_emit tape plan.parts
  obtain ⟨htape, hcomplete⟩ :=
    emit_of_not_hasRoom (show ¬tape.HasRoom (partBytes plan.parts) from h)
  refine ⟨(emit tape plan.parts).tape, count, ?_, ?_, hcount⟩
  · simp only [emitPlan, hcomplete, hnotices, htape,
      Tape.overflow_write number (tape.hasRoom_fitting _)]
    rfl
  · refine Nat.lt_of_not_le fun hall => h ?_
    have hwhole := (hcount _ (Nat.le_refl _)).mp hall
    rwa [List.take_length] at hwhole

/-- A plan carries the blocks of an upload, one part for each of them. -/
structure Plan.Carries (plan : Plan) (upload : Upload) : Prop where
  length_eq : plan.parts.length = upload.blocks.length
  size : ∀ count, (partBytes (plan.parts.take count)).length =
    Block.cost (upload.blocks.take count)
  reports : ∀ count, (plan.parts.take count).flatMap Part.notices =
    (upload.blocks.take count).map upload.report
  closing_eq : plan.closing = upload.closing

theorem Plan.Carries.length_bytes {plan : Plan} {upload : Upload} (h : plan.Carries upload) :
    plan.bytes.length = Block.cost upload.blocks := by
  have hall := h.size plan.parts.length
  rwa [List.take_length, h.length_eq, List.take_length] at hall

theorem Plan.Carries.flatMap_notices {plan : Plan} {upload : Upload} (h : plan.Carries upload) :
    plan.parts.flatMap Part.notices = upload.blocks.map upload.report := by
  have hall := h.reports plan.parts.length
  rwa [List.take_length, h.length_eq, List.take_length] at hall

end Script

/-! ## Planning -/

namespace Compiler

open Script

variable {compiler : Compiler} {number : Nat} {command : Command} {memory : Memory}
  {texts : List (List Char)} {plan : Plan}

theorem notices_planFile (request : Request) :
    (compiler.planFile request).notices = compiler.fileWarnings request.name := by
  rw [planFile, fileWarnings, Image.load]
  cases compiler.read (compiler.resolve request.name) with
  | error fault => rfl
  | ok text => exact Image.notices_decode ..

/-- Planning a command gives the warnings about it. -/
theorem notices_plan (number : Nat) (command : Command) (texts : List (List Char)) :
    (compiler.plan number command texts).notices =
      compiler.commandWarnings number command texts := by
  unfold Compiler.plan commandWarnings
  split
  · rename_i hfew
    rw [if_neg (Nat.lt_asymm hfew), parameterFault?, if_pos hfew]
    rfl
  · rename_i henough
    rw [← errorOf?_read (Nat.not_lt.mp henough)]
    cases hread : Order.read ⟨command, texts⟩ with
    | error fault => exact (List.append_nil _).symm
    | ok order =>
        rw [← file?_of_read hread]
        cases order with
        | single instruction => exact (List.append_nil _).symm
        | file request => exact congrArg (_ ++ ·) (notices_planFile request)

/-- The order behind a plan. -/
theorem exists_order (h : (compiler.plan number command texts).result = .ok plan) :
    ∃ order, Order.read ⟨command, texts⟩ = .ok order ∧
      match order with
      | .single instruction => plan = { parts := [{ instruction }] }
      | .file request => (compiler.planFile request).result = .ok plan := by
  unfold Compiler.plan at h
  split at h
  · cases h
  · cases hread : Order.read ⟨command, texts⟩ with
    | error fault =>
        rw [hread] at h
        cases h
    | ok order =>
        rw [hread] at h
        refine ⟨order, rfl, ?_⟩
        cases order with
        | single instruction =>
            cases h
            rfl
        | file request => exact h

/-- The plan for any command but a programming one is an instruction without a report. -/
theorem exists_instruction (h : (compiler.plan number command texts).result = .ok plan)
    (hown : ∀ memory, command ≠ .program memory) :
    ∃ instruction, plan = { parts := [{ instruction }] } := by
  obtain ⟨order, hread, hplan⟩ := exists_order h
  cases order with
  | single instruction => exact ⟨instruction, hplan⟩
  | file request =>
      have hfile := file?_of_read hread
      cases command with
      | program memory => exact absurd rfl (hown memory)
      | _ => cases hfile

/-- The order of a programming command asks for the file that its parameters name. -/
theorem read_program {order : Order} (h : Order.read ⟨.program memory, texts⟩ = .ok order) :
    ∃ name start pageSize, name? texts = some name ∧ value? texts 1 = some start ∧
      value? texts 2 = some pageSize ∧ order = .file ⟨memory, name, start, pageSize⟩ := by
  have hread : (Order.read ⟨.program memory, texts⟩).toOption = some order := by
    rw [h]
    rfl
  simp only [Order.read, toOption_bind, toOption_pure, toOption_fileName, toOption_integer,
    Option.bind_eq_some_iff] at hread
  obtain ⟨name, hname, start, hstart, pageSize, hpageSize, horder⟩ := hread
  exact ⟨name, start, pageSize, hname, hstart, hpageSize, (Option.some.inj horder).symm⟩

theorem planFile_eq_ok {request : Request} (h : (compiler.planFile request).result = .ok plan) :
    ∃ image stop, compiler.content? request.name = some (image, stop) ∧
      plan = compiler.planImage request (compiler.resolve request.name) image stop := by
  rw [planFile, Image.load] at h
  rw [content?]
  cases hread : compiler.read (compiler.resolve request.name) with
  | error fault =>
      rw [hread] at h
      cases h
  | ok text =>
      rw [hread] at h
      simp only at h ⊢
      cases hdecode :
          ((Image.blank compiler.settings.targetMemorySize).decode text 0).result with
      | error error =>
          rw [hdecode] at h
          cases h
      | ok stop =>
          rw [hdecode] at h
          cases h
          exact ⟨_, stop, rfl, rfl⟩

theorem partBytes_map_part {request : Request} {path : String} {image : Image} {stop bound : Nat}
    {blocks : List Block} (h : ∀ block ∈ blocks, block ∈ image.blocks stop bound) :
    partBytes (blocks.map (part request path image)) =
      blocks.flatMap (denoteBlock request.memory request.start request.pageSize image) :=
  (List.flatMap_map ..).trans
    (List.flatMap_congr fun block hblock => bytes_program (h block hblock))

theorem carries_planImage (request : Request) (path : String) (image : Image) (stop : Nat) :
    (compiler.planImage request path image stop).Carries
      ⟨request.memory, path, request.start,
        image.blocks stop (compiler.settings.bound request.pageSize.toNat)⟩ where
  length_eq := List.length_map ..
  size count := by
    rw [planImage, ← List.map_take, partBytes_map_part fun _ => List.mem_of_mem_take,
      length_flatMap_denoteBlock fun _ => List.mem_of_mem_take]
  reports count := by
    rw [planImage, ← List.map_take, List.flatMap_map, List.map_eq_flatMap]
    rfl
  closing_eq := by
    simp only [planImage, Upload.closing, List.isEmpty_iff]

/-- The plan for a programming command carries the blocks of its upload. -/
theorem exists_upload
    (h : (compiler.plan number (.program memory) texts).result = .ok plan) :
    ∃ upload, compiler.upload? memory texts = some upload ∧ plan.Carries upload := by
  obtain ⟨order, hread, hplan⟩ := exists_order h
  obtain ⟨name, start, pageSize, hname, hstart, hpageSize, rfl⟩ := read_program hread
  obtain ⟨image, stop, hcontent, rfl⟩ := planFile_eq_ok hplan
  refine ⟨_, ?_, carries_planImage _ _ image stop⟩
  rw [upload?, hname, hstart, hpageSize]
  simp only [Option.bind_eq_bind, Option.bind_some, hcontent]
  rfl

/-! ## One line -/

variable {tape : Tape} {line : List Char}

/-- The outcome of a numbered line has the log of a line that is compiled, or else that of a line
that is not. -/
def Logs (compiler : Compiler) (number : Nat) (line : List Char) (tape : Tape)
    (outcome : LineOutcome) : Prop :=
  match outcome.error? with
  | none => compiler.Completes number line tape.position outcome.tape.position outcome.notices
  | some error =>
    compiler.Stops tape.image.capacity number line tape.position error outcome.notices

/-- What emitting a plan does in a line, behind the warnings. -/
def emitLine (compiler : Compiler) (number : Nat) (tape : Tape) (line : List Char)
    (command : Command) (plan : Plan) : LineOutcome :=
  let outcome := emitPlan tape number command plan
  { outcome with notices := compiler.lineWarnings number line ++ outcome.notices }

theorem compileLine_of_silent (h : ∀ command texts, Line.parse line ≠ .known command texts) :
    compiler.compileLine number tape line = ⟨tape, compiler.lineWarnings number line, none⟩ := by
  unfold compileLine lineWarnings
  cases hparse : Line.parse line with
  | empty | unknown word => rfl
  | known command texts => exact absurd hparse (h command texts)

theorem compileLine_of_known (hline : Line.parse line = .known command texts) :
    compiler.compileLine number tape line =
      match (compiler.plan number command texts).result with
      | .error error => ⟨tape, compiler.lineWarnings number line, some error⟩
      | .ok plan => compiler.emitLine number tape line command plan := by
  unfold compileLine emitLine lineWarnings
  simp only [hline, ← notices_plan]
  cases compiler.plan number command texts with
  | mk notices result => cases result <;> rfl

theorem denoteCommand_of_plan (h : (compiler.plan number command texts).result = .ok plan) :
    compiler.denoteCommand command texts = some plan.bytes := by
  rw [← bytes_plan number, h]
  rfl

/-- An instruction of its own is reported with its line only. -/
theorem logs_single (hline : Line.parse line = .known command texts)
    (hown : ∀ memory, command ≠ .program memory)
    (hplan : (compiler.plan number command texts).result = .ok plan) :
    compiler.Logs number line tape (compiler.emitLine number tape line command plan) := by
  have hmeaning := denoteCommand_of_plan hplan
  obtain ⟨instruction, rfl⟩ := exists_instruction hplan hown
  unfold emitLine
  by_cases hroom : tape.HasRoom (Plan.bytes { parts := [{ instruction }] })
  · rw [emitPlan_of_hasRoom number command hroom]
    exact .single hline hown hmeaning
  · obtain ⟨stopped, count, hemit, hcount, -⟩ :=
      exists_emitPlan_of_not_hasRoom number command hroom
    obtain rfl := Nat.lt_one_iff.mp hcount
    simp only [hemit, List.take_zero, List.flatMap_nil, List.append_nil]
    exact .single hline hown hmeaning (Nat.lt_of_not_le fun hfits => hroom (Or.inr hfits))

/-- The blocks of a file are reported one by one. -/
theorem logs_upload (hline : Line.parse line = .known (.program memory) texts)
    (hplan : (compiler.plan number (.program memory) texts).result = .ok plan) :
    compiler.Logs number line tape (compiler.emitLine number tape line (.program memory) plan) := by
  obtain ⟨upload, hupload, hcarries⟩ := exists_upload hplan
  unfold emitLine
  by_cases hroom : tape.HasRoom plan.bytes
  · rw [emitPlan_of_hasRoom number _ hroom, hcarries.length_bytes, hcarries.flatMap_notices,
      hcarries.closing_eq]
    simp only [Logs, Tape.write, hcarries.length_bytes, ← List.append_assoc]
    exact .upload hline hupload
  · obtain ⟨stopped, count, hemit, hcount, hwhole⟩ :=
      exists_emitPlan_of_not_hasRoom number (.program memory) hroom
    simp only [hemit, hcarries.reports]
    rw [hcarries.length_eq] at hcount hwhole
    refine .upload hline hupload hcount fun other hother => (hwhole other hother).trans ?_
    have hnonempty : upload.blocks ≠ [] := List.ne_nil_of_length_pos (Nat.zero_lt_of_lt hcount)
    rw [Tape.HasRoom, Tape.Fits, ← List.length_eq_zero_iff, hcarries.size,
      Block.cost_eq_zero_iff, List.take_eq_nil_iff, or_iff_left hnonempty]

/-- **The log of a line.**  Whatever becomes of a line, its log follows from the line and the
position alone. -/
theorem logs_compileLine (compiler : Compiler) (number : Nat) (tape : Tape) (line : List Char) :
    compiler.Logs number line tape (compiler.compileLine number tape line) := by
  cases hline : Line.parse line with
  | empty | unknown word =>
      have hsilent : ∀ command texts, Line.parse line ≠ .known command texts := by
        rw [hline]
        nofun
      rw [compileLine_of_silent hsilent]
      exact .idle hsilent
  | known command texts =>
      rw [compileLine_of_known hline]
      cases hplan : (compiler.plan number command texts).result with
      | error error =>
          refine .refused hline ?_
          rw [← errorOf?_plan, hplan]
          rfl
      | ok plan =>
          cases command with
          | program memory => exact logs_upload hline hplan
          | _ => exact logs_single hline nofun hplan

end Compiler

end IspStream
