import IspStream.Proofs.Safety.Commands
import IspStream.Proofs.Safety.Decoding
import IspStream.Proofs.Safety.Encoding
import IspStream.Proofs.Safety.Splitting
import IspStream.Proofs.Script.Refinement
import IspStream.Proofs.Script.Refusal

/-!
# Compiling without a hazard

The command stream is written from one position to the next, and the compiler adds the
length of each field before it looks for room.  All these positions lie within the bytes
that the lines denote, up to the first refused line (`denotedBytes`), so that they are
words if the end of these bytes is one.

Two hazards are left, and what they hinge on is carried along (`Hinges`).  The settings say
how long the image is that a file is decoded into (`Allocates`), and the instructions that are
emitted as a whole are counted in 32 bits (`Counts`).

* **Plans.**  A file is decoded from the offset zero on, and its blocks lie inside the
  scratch image, which makes their lengths and payloads safe (`planImage_eq`).  It takes a
  scratch image (`hinges_planFile`).
* **The tape.**  Fields are written to a part of the image of their own length
  (`put_eq`), as long as the end of the fields is a word (`writeFields_eq`).  The counter moves
  on behind the last field of an instruction (`hinges_emit`).
* **Lines.**  The pattern leaves no command out (`captures_content`).  A compiled line moves
  the tape behind the bytes that it denotes, and that is the induction
  (`hinges_compileLines`): a script is compiled without a hazard exactly if each line that
  compiling comes to is affordable (`hinges_compile`).
-/

namespace IspStream.Guarded

open Script

variable {compiler : Compiler} {tape : Tape} {image : Image} {line : List Char}
  {lines : List (List Char)} {script : String} {position : Nat}

/-! ## Guarded compiling -/

/-- The instruction for one block.  The length in front of the payload is that of the block. -/
def partFor (request : Request) (path : String) (image : Image) (block : Block) : Checked Part := do
  let length ← length block
  let payload ← payload image.cells.toList block
  if payload.length ≠ length then .error .length
  else
    let address := UInt32.ofInt (request.start + block.first)
    return { instruction :=
               .program request.memory address (UInt16.ofInt request.pageSize) payload
             notices := [.emitted request.memory block path address] }

/-- The plan for the content of a file.  That nothing is emitted is said where the file has no
block. -/
def planImage (compiler : Compiler) (request : Request) (path : String) (image : Image)
    (stop : Nat) : Checked Plan := do
  let blocks ← blocks image.cells.toList stop (compiler.settings.bound request.pageSize.toNat)
  let parts ← blocks.mapM (partFor request path image)
  return { parts
           closing := if blocks.isEmpty then [.nothingEmitted path] else [] }

/-- The plan for programming a file.  The image that the file is decoded into has the length
that the settings ask for. -/
def planFile (compiler : Compiler) (request : Request) : Checked Planned := do
  let cells ← allocate compiler.settings.targetMemorySize IspStream.blank
  let path := compiler.resolve request.name
  let loaded ← load ⟨cells⟩ compiler.read path 0
  match loaded.result with
  | .error error => return ⟨loaded.notices, .error error⟩
  | .ok stop =>
    let plan ← planImage compiler request path loaded.image stop
    return ⟨loaded.notices, .ok plan⟩

def plan (compiler : Compiler) (number : Nat) (command : Command) (texts : List (List Char)) :
    Checked Planned :=
  if texts.length < command.arity then
    .ok ⟨[], .error (.script (.missingParameter command texts.length) number)⟩
  else do
    let surplus :=
      if command.arity < texts.length then [Notice.surplusParameters command number] else []
    match ← (order ⟨command, texts⟩).run with
    | .error fault => return ⟨surplus, .error (.script fault number)⟩
    | .ok (.single instruction) => return ⟨surplus, .ok { parts := [{ instruction }] }⟩
    | .ok (.file request) =>
      let planned ← planFile compiler request
      return { planned with notices := surplus ++ planned.notices }

/-- Writes a field into the part of the image that is there for it, if there is one. -/
def put (tape : Tape) (field : List UInt8) : Checked (Tape × Bool) := do
  let stop ← add tape.position field.length
  if tape.position ≤ stop ∧ stop ≤ tape.image.capacity then
    let target ← slice tape.image.cells.toList tape.position stop
    if target.length ≠ field.length then .error .length
    else return (⟨(tape.image.store tape.position field).1, stop⟩, true)
  else return (tape, false)

def writeFields : Tape → List (List UInt8) → Checked (Tape × Bool)
  | tape, [] => .ok (tape, true)
  | tape, field :: rest => do
    match ← put tape field with
    | (tape, true) => writeFields tape rest
    | (tape, false) => return (tape, false)

/-- Emits instructions and counts those that are emitted as a whole.  An instruction that is the
only one of its command is counted as well, which is far from the limit. -/
def emit : Nat → Tape → List Part → Checked Emission
  | _, tape, [] => .ok ⟨tape, [], true⟩
  | count, tape, part :: rest => do
    match ← writeFields tape part.instruction.fields with
    | (tape, true) =>
      let count ← advanceCounter count
      let emission ← emit count tape rest
      return { emission with notices := part.notices ++ emission.notices }
    | (tape, false) => return ⟨tape, [], false⟩

def emitPlan (tape : Tape) (number : Nat) (command : Command) (plan : Plan) :
    Checked LineOutcome := do
  let start := tape.position
  let emission ← emit 0 tape plan.parts
  if emission.complete then
    return { tape := emission.tape
             notices := emission.notices ++ plan.closing ++
               [.compiled number command start emission.tape.position] }
  else
    return { tape := emission.tape
             notices := emission.notices
             error? := some (emission.tape.overflow number) }

/-- Plans a command and emits its plan. -/
def compileCommand (compiler : Compiler) (number : Nat) (tape : Tape) (command : Command)
    (texts : List (List Char)) : Checked LineOutcome := do
  match ← plan compiler number command texts with
  | ⟨notices, .error error⟩ => return { tape, notices, error? := some error }
  | ⟨notices, .ok plan⟩ =>
    let outcome ← emitPlan tape number command plan
    return { outcome with notices := notices ++ outcome.notices }

/-- Compiles a line.  What the pattern rejects has to be empty. -/
def compileLine (compiler : Compiler) (number : Nat) (tape : Tape) (line : List Char) :
    Checked LineOutcome := do
  let head := Line.content line
  match captures head with
  | none => if head.isEmpty then return { tape } else .error .fallback
  | some groups =>
    let first ← group groups 1
    let word := String.ofList (first.map Char.toUpper)
    let texts := Line.parameters groups[2]?.join
    match Command.ofName? word with
    | none => return { tape, notices := [.unknownCommand word number] }
    | some command => compileCommand compiler number tape command texts

def compileLines (compiler : Compiler) : Nat → List (List Char) → Tape → Checked Outcome
  | _, [], tape => .ok (.stop tape.image (.ok tape.position))
  | index, line :: rest, tape => do
    let number ← add index 1
    match ← compileLine compiler number tape line with
    | ⟨tape, notices, none⟩ =>
      let outcome ← compileLines compiler number rest tape
      return outcome.after notices
    | ⟨tape, notices, some error⟩ => return ⟨tape.image, notices, .error error⟩

def compile (compiler : Compiler) (script : String) (image : Image) (position : Nat) :
    Checked Outcome :=
  compileLines compiler 0 (Text.lines script.toList) ⟨image, position⟩

/-! ## Plans -/

theorem partFor_eq {request : Request} {path : String} {stop bound : Nat} {block : Block}
    (h : image.capacity < wordLimit) (hmem : block ∈ image.blocks stop bound) :
    partFor request path image block = .ok (Compiler.part request path image block) := by
  have hlength : ¬(image.payload block).length ≠ block.length :=
    not_not_intro (Image.length_payload hmem)
  simp only [partFor, length_eq h hmem, payload_eq h hmem, bind, Except.bind, if_neg hlength]
  rfl

theorem planImage_eq (h : image.capacity < wordLimit) (request : Request) (path : String)
    (stop : Nat) :
    planImage compiler request path image stop =
      .ok (compiler.planImage request path image stop) := by
  unfold planImage Compiler.planImage
  simp only [blocks_eq h, bind, Except.bind, mapM_eq fun block hmem => partFor_eq h hmem]
  rfl

/-- The files have room in the memory of a machine, and the settings hold words. -/
structure Sized (compiler : Compiler) : Prop where
  /-- Every byte of a file has an index. -/
  files : ∀ path text, compiler.read path = .ok text → Indexed text
  /-- The length of the scratch image is a word. -/
  scratch : compiler.settings.targetMemorySize < wordLimit

/-- The hazards of asking for too much: for an image that is longer than any list, because the
settings ask for it, or for a count that leaves its word. -/
def Excess (compiler : Compiler) (hazard : Hazard) : Prop :=
  hazard = .allocation ∧ lengthLimit ≤ compiler.settings.targetMemorySize ∨ hazard = .overflow

theorem hinges_planFile (h : Sized compiler) (request : Request) :
    Hinges (compiler.settings.targetMemorySize < lengthLimit) (Excess compiler)
      (planFile compiler request) (compiler.planFile request) := by
  refine .mono (fun _ => Or.inl)
    ((hinges_allocate compiler.settings.targetMemorySize IspStream.blank).bind ?_)
  have hload : load (Image.blank compiler.settings.targetMemorySize) compiler.read
      (compiler.resolve request.name) 0 = .ok _ := load_eq (h.files _) (Nat.zero_le _) _
  change (load (Image.blank compiler.settings.targetMemorySize) compiler.read
    (compiler.resolve request.name) 0).bind _ = _
  unfold Compiler.planFile
  simp only [hload, bind, Except.bind]
  generalize hloaded : (Image.blank compiler.settings.targetMemorySize).load compiler.read
    (compiler.resolve request.name) 0 = loaded
  cases hresult : loaded.result with
  | error error => rfl
  | ok stop =>
      have hdecoded : ∃ text, loaded =
          (Image.blank compiler.settings.targetMemorySize).decode text 0 := by
        rw [Image.load] at hloaded
        split at hloaded
        · subst hloaded
          cases hresult
        · exact ⟨_, hloaded.symm⟩
      obtain ⟨text, rfl⟩ := hdecoded
      have hcapacity := Image.capacity_decode_of_ok hresult
      rw [Image.capacity_blank] at hcapacity
      have hspace : _ < wordLimit := hcapacity ▸ h.scratch
      simp only [planImage_eq hspace]
      rfl

/-- If a command asks for a file, there is an image to decode it into.  Nothing is asked for
while there is a fault in the parameters. -/
def Allocates (compiler : Compiler) (command : Command) (texts : List (List Char)) : Prop :=
  ∀ name, parameterFault? command texts = none → file? command texts = some name →
    compiler.settings.targetMemorySize < lengthLimit

theorem hinges_plan {command : Command} {texts : List (List Char)} (h : Sized compiler)
    (hclock : Clocked command texts) (number : Nat) :
    Hinges (Allocates compiler command texts) (Excess compiler)
      (plan compiler number command texts) (compiler.plan number command texts) := by
  unfold plan Compiler.plan
  split
  · rename_i hfew
    have hfault : parameterFault? command texts = some _ := if_pos hfew
    refine .of_eq (fun name hnone => ?_) rfl
    rw [hfault] at hnone
    cases hnone
  · rename_i henough
    have horder : (order ⟨command, texts⟩).run = .ok (Order.read ⟨command, texts⟩) :=
      order_eq (Nat.le_of_not_lt henough) hclock
    have hfault := errorOf?_read (Nat.le_of_not_lt henough)
    simp only [horder, bind, Except.bind]
    cases hread : Order.read ⟨command, texts⟩ with
    | error fault =>
        refine .of_eq (fun name hnone => ?_) rfl
        rw [← hfault, hread] at hnone
        cases hnone
    | ok order =>
        rw [hread] at hfault
        have hfile := file?_of_read hread
        cases order with
        | single instruction =>
            refine .of_eq (fun name _ hname => ?_) rfl
            rw [← hfile] at hname
            cases hname
        | file request =>
            have hasked : Allocates compiler command texts ↔
                compiler.settings.targetMemorySize < lengthLimit :=
              ⟨fun h => h request.name hfault.symm hfile.symm, fun h _ _ _ => h⟩
            exact .congr hasked ((hinges_planFile h request).bind rfl)

/-! ## The tape -/

theorem put_eq {field : List UInt8} (h : tape.position + field.length < wordLimit) :
    put tape field =
      .ok (if tape.Fits field then (tape.write field, true) else (tape, false)) := by
  unfold put
  simp only [add_eq h, bind, Except.bind, Nat.le_add_right, true_and]
  by_cases hfits : tape.position + field.length ≤ tape.image.capacity
  · have htarget : slice tape.image.cells.toList tape.position (tape.position + field.length) =
        .ok _ := slice_eq (Nat.le_add_right ..) hfits
    have hlength : (tape.image.cells.toList.extract tape.position
        (tape.position + field.length)).length = field.length := by
      have hbehind : (tape.image.cells.toList.drop tape.position).length =
          tape.image.capacity - tape.position := List.length_drop ..
      rw [List.extract_eq_take_drop, List.length_take, hbehind]
      omega
    simp only [if_pos hfits, htarget, hlength, ne_eq, not_true_eq_false, if_false]
    rw [if_pos (show tape.Fits field from hfits)]
    rfl
  · rw [if_neg hfits, if_neg (show ¬tape.Fits field from hfits)]
    rfl

theorem writeFields_eq {fields : List (List UInt8)}
    (h : tape.position + fields.flatten.length < wordLimit) :
    writeFields tape fields = .ok (tape.writeFields fields) := by
  induction fields generalizing tape with
  | nil => rfl
  | cons field rest ih =>
      rw [List.flatten_cons, List.length_append, ← Nat.add_assoc] at h
      have hput : put tape field = .ok _ := put_eq (Nat.lt_of_le_of_lt (Nat.le_add_right ..) h)
      rw [writeFields, hput, Tape.writeFields]
      by_cases hfits : tape.Fits field
      · rw [if_pos hfits, if_pos hfits]
        exact ih h
      · rw [if_neg hfits, if_neg hfits]
        rfl

/-- Not all fields of an instruction are written where there is no room for its bytes. -/
theorem writeFields_of_not_fits {instruction : Instruction} (h : ¬tape.Fits instruction.bytes) :
    ∃ after, tape.writeFields instruction.fields = (after, false) := by
  rw [Tape.writeFields_eq]
  refine ⟨_, Prod.ext rfl (decide_eq_false fun hall => ?_)⟩
  have hroom := tape.hasRoom_fitting instruction.fields
  rw [hall, List.take_length] at hroom
  exact h (hroom.resolve_left instruction.bytes_ne_nil)

/-- The instructions that are written as a whole can be counted. -/
def Counts (count : Nat) (tape : Tape) (list : List Instruction) : Prop :=
  ∀ number ≤ list.length, tape.HasRoom ((list.take number).flatMap Instruction.bytes) →
    count + number < counterLimit

theorem Counts.lt_limit {count : Nat} {list : List Instruction} (h : Counts count tape list) :
    count < counterLimit :=
  h 0 (Nat.zero_le _) (Or.inl rfl)

theorem counts_cons {count : Nat} {instruction : Instruction} {rest : List Instruction}
    (hcount : count < counterLimit) :
    Counts count tape (instruction :: rest) ↔
      (tape.Fits instruction.bytes → Counts (count + 1) (tape.write instruction.bytes) rest) := by
  constructor
  · intro h hfits number hnumber hroom
    have hmore := h (number + 1) (Nat.succ_le_succ hnumber) (by
      rw [List.take_succ_cons, List.flatMap_cons, Tape.hasRoom_append]
      exact ⟨Or.inr hfits, hroom⟩)
    omega
  · intro h number hnumber hroom
    cases number with
    | zero => exact hcount
    | succ number =>
        rw [List.take_succ_cons, List.flatMap_cons, Tape.hasRoom_append] at hroom
        have hfits := hroom.1.resolve_left instruction.bytes_ne_nil
        have hmore := h hfits number (Nat.le_of_succ_le_succ hnumber) hroom.2
        omega

/-- Emitting meets no hazard but that the counter leaves its word. -/
theorem hinges_emit {parts : List Part} {count : Nat} (hcount : count < counterLimit)
    (h : tape.position + (partBytes parts).length < wordLimit) :
    Hinges (Counts count tape (parts.map Part.instruction)) (· = .overflow)
      (emit count tape parts) (Script.emit tape parts) := by
  induction parts generalizing count tape with
  | nil =>
      refine .of_eq (fun number hnumber _ => ?_) rfl
      obtain rfl := Nat.le_zero.mp hnumber
      exact hcount
  | cons part rest ih =>
      rw [partBytes, List.flatMap_cons, ← partBytes, List.length_append, ← Nat.add_assoc] at h
      have hfields : writeFields tape part.instruction.fields = .ok _ :=
        writeFields_eq (Nat.lt_of_le_of_lt (Nat.le_add_right ..) h)
      refine .congr (counts_cons hcount) ?_
      rw [emit, hfields, Script.emit]
      simp only [bind, Except.bind]
      by_cases hfits : tape.Fits part.instruction.bytes
      · have hwritten : tape.writeFields part.instruction.fields = (tape.write _, true) :=
          Tape.writeFields_of_fits hfits
        simp only [hwritten]
        refine .congr ?_ ((hinges_advanceCounter count).andThen fun hnext => (ih hnext h).bind rfl)
        exact ⟨fun hcounts => ⟨(hcounts hfits).lt_limit, hcounts hfits⟩, fun h _ => h.2⟩
      · obtain ⟨after, hwritten⟩ := writeFields_of_not_fits hfits
        simp only [hwritten]
        exact .of_eq (fun hroom => absurd hroom hfits) rfl

theorem hinges_emitPlan {plan : Plan} (h : tape.position + plan.bytes.length < wordLimit)
    (number : Nat) (command : Command) :
    Hinges (Counts 0 tape (Compiler.planInstructions plan)) (· = .overflow)
      (emitPlan tape number command plan) (Script.emitPlan tape number command plan) := by
  refine (hinges_emit (by decide) h).bind ?_
  unfold Script.emitPlan
  by_cases hcomplete : (Script.emit tape plan.parts).complete = true
  · simp only [if_pos hcomplete]
    rfl
  · simp only [if_neg hcomplete]
    rfl

/-! ## Commands -/

/-- A command is compiled without a hazard exactly if there is an image for its file and its
instructions can be counted. -/
theorem hinges_compileCommand {command : Command} {texts : List (List Char)}
    (h : Sized compiler) (hclock : Clocked command texts)
    (hroom : ∀ bytes, compiler.denoteCommand command texts = some bytes →
      tape.position + bytes.length < wordLimit)
    (number : Nat) (hline : Line.parse line = .known command texts) :
    Hinges
      (Allocates compiler command texts ∧
        ∀ list, compiler.commandInstructions command texts = some list → Counts 0 tape list)
      (Excess compiler) (compileCommand compiler number tape command texts)
      (compiler.compileLine number tape line) := by
  have hlist : (compiler.plan number command texts).result.toOption.map
      Compiler.planInstructions = _ := Compiler.instructions_plan number command texts
  rw [← Compiler.bytes_plan number] at hroom
  simp only [Compiler.compileLine, hline]
  refine (hinges_plan h hclock number).andThen fun _ => ?_
  generalize compiler.plan number command texts = planned at hlist hroom ⊢
  obtain ⟨notices, result⟩ := planned
  cases result with
  | error error =>
      refine .of_eq (fun list hsome => ?_) rfl
      rw [← hlist] at hsome
      cases hsome
  | ok plan =>
      have hcounts : (∀ list, compiler.commandInstructions command texts = some list →
          Counts 0 tape list) ↔ Counts 0 tape (Compiler.planInstructions plan) := by
        rw [← hlist]
        exact ⟨fun h => h _ rfl, fun h _ hsome => Option.some.inj hsome ▸ h⟩
      have hemit := hinges_emitPlan (hroom plan.bytes rfl) number command
      exact .congr hcounts ((hemit.mono fun _ => Or.inr).bind rfl)

/-! ## Lines -/

/-- Compiling a line asks for no more than a machine with any memory has. -/
structure Affordable (compiler : Compiler) (tape : Tape) (line : List Char) : Prop where
  /-- There is an image to decode the file of the line into. -/
  allocates : ∀ command texts, Line.parse line = .known command texts →
    Allocates compiler command texts
  /-- The instructions that are written as a whole can be counted. -/
  counts : ∀ list, compiler.lineInstructions line = some list → Counts 0 tape list

theorem affordable_of_known {command : Command} {texts : List (List Char)}
    (hline : Line.parse line = .known command texts) :
    Affordable compiler tape line ↔ Allocates compiler command texts ∧
      ∀ list, compiler.commandInstructions command texts = some list → Counts 0 tape list := by
  have hlist : compiler.lineInstructions line = compiler.commandInstructions command texts := by
    rw [Compiler.lineInstructions, hline]
  constructor
  · rintro ⟨hallocates, hcounts⟩
    exact ⟨hallocates command texts hline, hlist ▸ hcounts⟩
  · rintro ⟨hallocates, hcounts⟩
    refine ⟨fun _ _ hother => ?_, hlist.symm ▸ hcounts⟩
    rw [hline] at hother
    cases hother
    exact hallocates

/-- What is not a command asks for nothing. -/
theorem affordable_of_not_known (h : ∀ command texts, Line.parse line ≠ .known command texts) :
    Affordable compiler tape line := by
  refine ⟨fun command texts hparse => absurd hparse (h command texts), fun list hlist => ?_⟩
  rw [Compiler.lineInstructions] at hlist
  cases hparse : Line.parse line with
  | known command texts => exact absurd hparse (h command texts)
  | empty | unknown word =>
      rw [hparse] at hlist
      cases hlist
      intro number hnumber _
      obtain rfl := Nat.le_zero.mp hnumber
      decide

/-- The pattern finds the command that a line asks for, and takes nothing else for one. -/
theorem compileLine_eq (hfeed : '\n' ∉ line) (number : Nat) :
    compileLine compiler number tape line =
      match Line.parse line with
      | .known command texts => compileCommand compiler number tape command texts
      | _ => .ok (compiler.compileLine number tape line) := by
  unfold compileLine Compiler.compileLine
  simp only [captures_content hfeed]
  by_cases hcontent : Line.content line = []
  · simp only [hcontent, parse_of_empty hcontent, if_true, List.isEmpty_nil]
    rfl
  · simp only [if_neg hcontent, parse_of_content hcontent]
    generalize Text.splitWord (Line.content line) = parts
    obtain ⟨first, behind?⟩ := parts
    have hgroup : group [some (Line.content line), some first, behind?] 1 = .ok first := rfl
    have hjoin : ([some (Line.content line), some first, behind?] :
        List (Option (List Char)))[2]?.join = behind? := rfl
    simp only [hgroup, hjoin, bind, Except.bind]
    cases Command.ofName? (String.ofList (first.map Char.toUpper)) <;> rfl

/-- A line is compiled without a hazard exactly if it is affordable. -/
theorem hinges_compileLine (h : Sized compiler) (hfeed : '\n' ∉ line)
    (hclock : ∀ command texts, Line.parse line = .known command texts → Clocked command texts)
    (hroom : ∀ bytes, compiler.denoteLine line = some bytes →
      tape.position + bytes.length < wordLimit)
    (number : Nat) :
    Hinges (Affordable compiler tape line) (Excess compiler)
      (compileLine compiler number tape line) (compiler.compileLine number tape line) := by
  rw [compileLine_eq hfeed]
  cases hline : Line.parse line with
  | empty | unknown word =>
      refine .of_eq (affordable_of_not_known fun command texts hknown => ?_) rfl
      rw [hline] at hknown
      cases hknown
  | known command texts =>
      have hcommand : ∀ bytes, compiler.denoteCommand command texts = some bytes →
          tape.position + bytes.length < wordLimit := by
        rw [Compiler.denoteLine, hline] at hroom
        exact hroom
      exact .congr (affordable_of_known hline)
        (hinges_compileCommand h (hclock command texts hline) hcommand number hline)

/-! ## Scripts -/

/-- The bytes that lines denote, up to the first line that denotes none. -/
def denotedBytes (compiler : Compiler) : List (List Char) → List UInt8
  | [] => []
  | line :: rest =>
    match compiler.denoteLine line with
    | none => []
    | some bytes => bytes ++ denotedBytes compiler rest

/-- Without a refused line these are all the bytes. -/
theorem denotedBytes_of_denoteLines {bytes : List UInt8}
    (h : compiler.denoteLines lines = some bytes) : denotedBytes compiler lines = bytes := by
  induction lines generalizing bytes with
  | nil =>
      cases h
      rfl
  | cons line rest ih =>
      rw [Compiler.denoteLines_cons] at h
      obtain ⟨first, hfirst, hrest⟩ := Option.bind_eq_some_iff.mp h
      obtain ⟨others, hothers, rfl⟩ := Option.map_eq_some_iff.mp hrest
      rw [denotedBytes, hfirst, ih hothers]

/-- A compiled line has moved the tape behind its bytes. -/
theorem tape_of_compileLine {number : Nat} {after : Tape} {notices : List Notice}
    (h : compiler.compileLine number tape line = ⟨after, notices, none⟩) :
    ∃ bytes, compiler.denoteLine line = some bytes ∧ tape.HasRoom bytes ∧
      after = tape.write bytes := by
  obtain ⟨bytes, hdenotes, hroom⟩ := Compiler.denotes_of_compileLine
    (congrArg LineOutcome.error? h)
  obtain ⟨_, hwritten⟩ := Compiler.compileLine_of_denotes number hdenotes hroom
  rw [hwritten] at h
  exact ⟨bytes, hdenotes, hroom, (congrArg LineOutcome.tape h).symm⟩

/-- Each line that compiling comes to is affordable.  It comes to a line if the lines before
denote bytes for which there is room. -/
def Affords (compiler : Compiler) (lines : List (List Char)) (tape : Tape) : Prop :=
  ∀ done line rest bytes, lines = done ++ line :: rest →
    compiler.denoteLines done = some bytes → tape.HasRoom bytes →
      Affordable compiler (tape.write bytes) line

theorem affords_cons {rest : List (List Char)} :
    Affords compiler (line :: rest) tape ↔
      Affordable compiler tape line ∧
        ∀ bytes, compiler.denoteLine line = some bytes → tape.HasRoom bytes →
          Affords compiler rest (tape.write bytes) := by
  constructor
  · intro h
    refine ⟨h [] line rest [] rfl rfl (Or.inl rfl), ?_⟩
    rintro bytes hbytes hroom done other more behind rfl hbehind hmore
    have hdone : compiler.denoteLines (line :: done) = some (bytes ++ behind) := by
      rw [Compiler.denoteLines_cons, hbytes, Option.bind_some, hbehind]
      rfl
    rw [Tape.write_write]
    exact h (line :: done) other more _ rfl hdone (Tape.hasRoom_append.mpr ⟨hroom, hmore⟩)
  · rintro ⟨hline, hrest⟩ done other more bytes hlines hdone hroom
    cases done with
    | nil =>
        cases hlines
        cases hdone
        exact hline
    | cons first done =>
        cases hlines
        rw [Compiler.denoteLines_cons] at hdone
        obtain ⟨own, hown, hbehind⟩ := Option.bind_eq_some_iff.mp hdone
        obtain ⟨behind, hlater, rfl⟩ := Option.map_eq_some_iff.mp hbehind
        rw [Tape.hasRoom_append] at hroom
        rw [← Tape.write_write]
        exact hrest own hown hroom.1 done other more behind rfl hlater hroom.2

theorem hinges_compileLines (h : Sized compiler) (hfeeds : ∀ line ∈ lines, '\n' ∉ line)
    (hclocks : ∀ line ∈ lines, ∀ command texts, Line.parse line = .known command texts →
      Clocked command texts)
    {index : Nat} (hindex : index + lines.length < wordLimit)
    (hroom : tape.position + (denotedBytes compiler lines).length < wordLimit) :
    Hinges (Affords compiler lines tape) (Excess compiler)
      (compileLines compiler index lines tape) (compiler.compileLines (index + 1) lines tape) := by
  induction lines generalizing index tape with
  | nil => exact .of_eq (fun done _ _ _ hlines => absurd hlines.symm (by simp)) rfl
  | cons line rest ih =>
      obtain ⟨hfeed, hfeeds⟩ := List.forall_mem_cons.mp hfeeds
      obtain ⟨hclock, hclocks⟩ := List.forall_mem_cons.mp hclocks
      rw [List.length_cons] at hindex
      have hown : ∀ bytes, compiler.denoteLine line = some bytes →
          tape.position + bytes.length < wordLimit := by
        intro bytes hbytes
        simp only [denotedBytes, hbytes, List.length_append] at hroom
        omega
      rw [compileLines, Compiler.compileLines, add_eq (by omega)]
      refine .congr affords_cons
        ((hinges_compileLine h hfeed hclock hown (index + 1)).andThen fun _ => ?_)
      generalize hcompiled : compiler.compileLine (index + 1) tape line = outcome
      obtain ⟨after, notices, error?⟩ := outcome
      cases error? with
      | some error =>
          -- behind a line that is not compiled there is nothing to afford
          refine .of_eq (fun bytes hbytes hfits => ?_) rfl
          obtain ⟨_, hdone⟩ := Compiler.compileLine_of_denotes (index + 1) hbytes hfits
          rw [hcompiled] at hdone
          cases hdone
      | none =>
          obtain ⟨bytes, hdenotes, hfits, rfl⟩ := tape_of_compileLine hcompiled
          have hlater : (tape.write bytes).position + (denotedBytes compiler rest).length <
              wordLimit := by
            simp only [denotedBytes, hdenotes, List.length_append, ← Nat.add_assoc] at hroom
            exact hroom
          have hrest : (∀ other, compiler.denoteLine line = some other → tape.HasRoom other →
              Affords compiler rest (tape.write other)) ↔
              Affords compiler rest (tape.write bytes) := by
            rw [hdenotes]
            exact ⟨fun h => h bytes rfl hfits, fun h _ hother _ => Option.some.inj hother ▸ h⟩
          exact .congr hrest ((ih hfeeds hclocks (by omega) hlater).bind rfl)

/-- What compiling a script from a position on relies on. -/
structure Admissible (compiler : Compiler) (script : String) (position : Nat) : Prop where
  /-- Whatever the script refers to has room in the memory of a machine. -/
  sized : Sized compiler
  /-- The script has room there as well. -/
  indexed : Indexed script
  /-- No frequency of the script is next to the least word. -/
  clocked : ∀ line ∈ Text.lines script.toList, ∀ command texts,
    Line.parse line = .known command texts → Clocked command texts
  /-- The end of the command stream is a word. -/
  ends : position + (denotedBytes compiler (Text.lines script.toList)).length < wordLimit

/-- A script is compiled without a hazard, be it with success or not, exactly if the lines that
compiling comes to are affordable. -/
theorem hinges_compile (h : Admissible compiler script position) (image : Image) :
    Hinges (Affords compiler (Text.lines script.toList) ⟨image, position⟩) (Excess compiler)
      (compile compiler script image position) (compiler.compile script image position) := by
  have hlines : 0 + (Text.lines script.toList).length < wordLimit := by
    rw [Nat.zero_add]
    exact h.indexed.length_lines_lt
  exact hinges_compileLines h.sized (fun _ => Text.not_mem_of_mem_lines) h.clocked hlines h.ends

-- the last word is no end of a command stream, and a lower frequency is out of reach
example : compile ⟨⟨4, 64, none⟩, fun _ => .ok ""⟩ "end" (Image.blank 4) (2 ^ 64 - 1) =
    .error .overflow := by rfl

example : divider (leastFrequency - 1) = .error .overflow := by decide +kernel

end IspStream.Guarded
