import IspStream.Proofs.Script.Reports

/-!
# The log of a compilation

A compilation reports every command that it has compiled with the cells that it was compiled
into.  These entries account for every byte of the command stream (`compile_accounts`): each is
for one line with a known command, they go from the start position to the final one without a
gap, and the cells of each hold the bytes of its line.  Around the entries there is nothing but
the reports of blocks, which `Compiler.Completes` and `Compiler.Stops` describe line by line, and
one warning for everything that is skipped.

## Strategy

The run over the lines is described once, by induction on them (`exists_recorded`): lines that
are compiled one after the other (`Compiler.Completed`), and at last a line that is not.  That
the entries tile the cells and which warnings there are follows from this description alone,
again by induction, where each line adds one entry or none (`Completes.entries_eq`).  Only the
bytes of a line need the tape.  They stay where they are, because a run leaves the cells in front
of its position alone (`get?_compileLines`).
-/

namespace IspStream

/-! ## Entries and warnings -/

/-- An entry of a log: a numbered line and its command, compiled into the cells from `start` up
to, but not including, `stop`. -/
structure Entry where
  /-- The number of the line. -/
  line : Nat
  /-- The command of the line. -/
  command : Command
  /-- The first cell. -/
  start : Nat
  /-- The end of the cells. -/
  stop : Nat
deriving DecidableEq, Repr

/-- A cell belongs to an entry if it was compiled into this cell. -/
instance : Membership Nat Entry where
  mem entry cell := entry.start ≤ cell ∧ cell < entry.stop

instance (cell : Nat) (entry : Entry) : Decidable (cell ∈ entry) :=
  inferInstanceAs (Decidable (entry.start ≤ cell ∧ cell < entry.stop))

namespace Notice

/-- The entry that a notice is. -/
def entry? : Notice → Option Entry
  | compiled line command start stop => some ⟨line, command, start, stop⟩
  | _ => none

/-- The entries of a log in order. -/
def entries (log : List Notice) : List Entry := log.filterMap entry?

/-- The warnings of a log in order. -/
def warnings (log : List Notice) : List Notice := log.filter fun notice => notice.level = .warning

variable {notice : Notice} {log : List Notice}

@[simp] theorem entries_append (first second : List Notice) :
    entries (first ++ second) = entries first ++ entries second :=
  List.filterMap_append

@[simp] theorem warnings_append (first second : List Notice) :
    warnings (first ++ second) = warnings first ++ warnings second :=
  List.filter_append ..

/-- All notices are warnings. -/
def Warning (log : List Notice) : Prop := ∀ notice ∈ log, notice.level = .warning

/-- No notice is a warning. -/
def Detail (log : List Notice) : Prop := ∀ notice ∈ log, notice.level = .detail

theorem Warning.entries_eq (h : Warning log) : entries log = [] := by
  refine List.filterMap_eq_nil_iff.mpr fun notice hmem => ?_
  have hlevel := h notice hmem
  cases notice <;> first | rfl | cases hlevel

theorem Warning.warnings_eq (h : Warning log) : warnings log = log :=
  List.filter_eq_self.mpr fun notice hmem => decide_eq_true (h notice hmem)

theorem Detail.warnings_eq (h : Detail log) : warnings log = [] :=
  List.filter_eq_nil_iff.mpr fun notice hmem => by simp [h notice hmem]

end Notice

theorem Record.warning_reportsOf (number : Nat) (lines : List (List Char)) :
    Notice.Warning (reportsOf number lines) := by
  induction lines generalizing number with
  | nil => exact List.forall_mem_nil _
  | cons line rest ih =>
      refine List.forall_mem_append.mpr ⟨List.forall_mem_flatMap.mpr fun record _ => ?_, ih _⟩
      unfold reports
      split
      · exact List.forall_mem_singleton.mpr rfl
      · exact List.forall_mem_nil _

/-- Entries are in the order of their lines and cover the cells from `first` up to, but not
including, `last`, each once. -/
structure Tiles (first last : Nat) (entries : List Entry) : Prop where
  ascending : entries.Pairwise fun earlier later => earlier.line < later.line
  starts : ∀ entry ∈ entries.head?, entry.start = first
  connected : entries.IsChain fun earlier later => later.start = earlier.stop
  ends : (entries.getLast?.map Entry.stop).getD first = last
  ordered : first ≤ last
  covers : ∀ cell, entries.countP (fun entry => cell ∈ entry) =
    if first ≤ cell ∧ cell < last then 1 else 0

namespace Tiles

variable {first last : Nat} {entry : Entry} {rest : List Entry}

theorem nil (first : Nat) : Tiles first first [] where
  ascending := .nil
  starts := nofun
  connected := .nil
  ends := rfl
  ordered := Nat.le_refl first
  covers cell := by rw [List.countP_nil, if_neg (by omega)]

theorem cons (hstart : entry.start = first) (hentry : entry.start ≤ entry.stop)
    (hlines : ∀ other ∈ rest, entry.line < other.line) (h : Tiles entry.stop last rest) :
    Tiles first last (entry :: rest) where
  ascending := .cons hlines h.ascending
  starts other hother := by
    cases hother
    exact hstart
  connected := by
    cases rest with
    | nil => exact .singleton entry
    | cons next more => exact .cons_cons (h.starts next rfl) h.connected
  ends := by
    have hends := h.ends
    cases rest with
    | nil => exact hends
    | cons next more =>
        rw [List.getLast?_cons_cons]
        obtain ⟨final, hfinal⟩ : ∃ final, (next :: more).getLast? = some final :=
          ⟨_, List.getLast?_eq_some_getLast (List.cons_ne_nil next more)⟩
        rwa [hfinal] at hends ⊢
  ordered := hstart ▸ hentry.trans h.ordered
  covers cell := by
    have hmem : cell ∈ entry ↔ entry.start ≤ cell ∧ cell < entry.stop := Iff.rfl
    have hordered := h.ordered
    rw [List.countP_cons, h.covers]
    simp only [hmem, decide_eq_true_eq]
    split_ifs <;> omega

end Tiles

/-! ## Cells -/

theorem Tape.get?_write {tape : Tape} {cell : Nat} (bytes : List UInt8)
    (h : cell < tape.position) :
    (tape.write bytes).image.get? cell = tape.image.get? cell := by
  simp only [Tape.write, Image.get?_store]
  rw [if_neg (by omega)]

theorem Image.slice_congr {image other : Image} {first stop : Nat}
    (h : ∀ cell < stop, image.get? cell = other.get? cell) :
    image.slice first stop = other.slice first stop := by
  refine List.ext_getElem? fun index => ?_
  rw [getElem?_slice, getElem?_slice]
  split
  · rename_i hinside
    exact h _ hinside
  · rfl

/-! ## Logs of many lines -/

namespace Script

/-- The command of a line, if it is a known one. -/
def Line.command? (line : List Char) : Option Command :=
  match parse line with
  | .empty | .unknown _ => none
  | .known command _ => some command

/-- The lines with a known command, with their numbers. -/
def commandLines : Nat → List (List Char) → List (Nat × List Char)
  | _, [] => []
  | number, line :: rest =>
    if Line.command? line = none then commandLines (number + 1) rest
    else (number, line) :: commandLines (number + 1) rest

end Script

namespace Compiler

open Script Notice

/-- The warnings about lines from the given line number on. -/
def linesWarnings (compiler : Compiler) : Nat → List (List Char) → List Notice
  | _, [] => []
  | number, line :: rest =>
    compiler.lineWarnings number line ++ compiler.linesWarnings (number + 1) rest

/-- Lines are compiled one after the other from one position up to another one, and this is
their log. -/
inductive Completed (compiler : Compiler) :
    Nat → Nat → List (List Char) → Nat → List Notice → Prop where
  | nil {number start : Nat} : Completed compiler number start [] start []
  | cons {number start middle stop : Nat} {line : List Char} {rest : List (List Char)}
      {notices more : List Notice} (first : compiler.Completes number line start middle notices)
      (behind : Completed compiler (number + 1) middle rest stop more) :
      Completed compiler number start (line :: rest) stop (notices ++ more)

/-- A run over numbered lines of which the first ones are compiled up to a position: it is at
the end, or it stops at the next line, which adds the rest of the log. -/
inductive Ending (compiler : Compiler) (capacity number : Nat) (lines done : List (List Char))
    (final : Nat) : Except Error Nat → List Notice → Prop where
  /-- All lines are compiled. -/
  | ok (all : done = lines) : Ending compiler capacity number lines done final (.ok final) []
  /-- A line is not compiled. -/
  | error {line : List Char} {rest : List (List Char)} {error : Error} {tail : List Notice}
      (split : lines = done ++ line :: rest)
      (stops : compiler.Stops capacity (number + done.length) line final error tail) :
      Ending compiler capacity number lines done final (.error error) tail

/-- An entry is for a numbered line, and its cells hold the bytes of that line. -/
structure Backs (compiler : Compiler) (image : Image) (numbered : Nat × List Char)
    (entry : Entry) : Prop where
  line_eq : entry.line = numbered.1
  command_eq : Line.command? numbered.2 = some entry.command
  bytes_eq : compiler.denoteLine numbered.2 = some (image.slice entry.start entry.stop)

/-- The outcome of a run over numbered lines of which the first ones are compiled, each with
its own log, and what the next one adds to the log. -/
structure Recorded (compiler : Compiler) (number : Nat) (lines : List (List Char)) (tape : Tape)
    (outcome : Outcome) (done : List (List Char)) (final : Nat) (log tail : List Notice) :
    Prop where
  completed : compiler.Completed number tape.position done final log
  notices_eq : outcome.notices = log ++ tail
  ending : compiler.Ending tape.image.capacity number lines done final outcome.result tail
  backed : List.Forall₂ (compiler.Backs outcome.image) (commandLines number done) (entries log)

variable {compiler : Compiler} {number start stop capacity final : Nat} {line : List Char}
  {lines done rest : List (List Char)} {notices log tail : List Notice} {error : Error}
  {tape : Tape} {outcome : Outcome}

/-! ## What a line adds -/

theorem warning_fileWarnings (name : String) : Warning (compiler.fileWarnings name) := by
  unfold fileWarnings
  split
  · exact List.forall_mem_nil _
  · exact Record.warning_reportsOf 1 _

theorem warning_commandWarnings (number : Nat) (command : Command) (texts : List (List Char)) :
    Warning (compiler.commandWarnings number command texts) := by
  refine List.forall_mem_append.mpr ⟨?_, ?_⟩
  · split
    · exact List.forall_mem_singleton.mpr rfl
    · exact List.forall_mem_nil _
  · split
    · exact List.forall_mem_nil _
    · cases file? command texts with
      | none => exact List.forall_mem_nil _
      | some name => exact warning_fileWarnings name

theorem warning_lineWarnings (number : Nat) (line : List Char) :
    Warning (compiler.lineWarnings number line) := by
  unfold lineWarnings
  split
  · exact List.forall_mem_nil _
  · exact List.forall_mem_singleton.mpr rfl
  · exact warning_commandWarnings number _ _

@[simp] theorem entries_lineWarnings (number : Nat) (line : List Char) :
    entries (compiler.lineWarnings number line) = [] :=
  (warning_lineWarnings number line).entries_eq

@[simp] theorem warnings_lineWarnings (number : Nat) (line : List Char) :
    warnings (compiler.lineWarnings number line) = compiler.lineWarnings number line :=
  (warning_lineWarnings number line).warnings_eq

@[simp] theorem entries_reports (upload : Upload) (blocks : List Block) :
    entries (blocks.map upload.report) = [] := by
  rw [entries, List.filterMap_map]
  exact List.filterMap_eq_nil_iff.mpr fun _ _ => rfl

@[simp] theorem warnings_reports (upload : Upload) (blocks : List Block) :
    warnings (blocks.map upload.report) = [] :=
  Detail.warnings_eq (List.forall_mem_map.mpr fun _ _ => rfl)

@[simp] theorem entries_closing (upload : Upload) : entries upload.closing = [] := by
  unfold Upload.closing
  split <;> rfl

@[simp] theorem warnings_closing (upload : Upload) : warnings upload.closing = [] := by
  unfold Upload.closing
  split <;> rfl

/-- A line without a command has no entry and takes no cells.  A line with a command has one
entry, for all the cells that it takes. -/
theorem Completes.entries_eq (h : compiler.Completes number line start stop notices) :
    (Line.command? line = none ∧ entries notices = [] ∧ stop = start) ∨
      ∃ command, Line.command? line = some command ∧
        entries notices = [⟨number, command, start, stop⟩] ∧ start ≤ stop := by
  cases h with
  | idle silent =>
      refine Or.inl ⟨?_, entries_lineWarnings number line, rfl⟩
      unfold Line.command?
      split
      · rfl
      · rfl
      · rename_i hline
        exact absurd hline (silent _ _)
  | single parsed _ _ =>
      refine Or.inr ⟨_, by rw [Line.command?, parsed], ?_, Nat.le_add_right ..⟩
      rw [entries_append, entries_lineWarnings]
      rfl
  | upload parsed _ =>
      refine Or.inr ⟨_, by rw [Line.command?, parsed], ?_, Nat.le_add_right ..⟩
      simp only [entries_append, entries_lineWarnings, entries_reports, entries_closing]
      rfl

theorem Completes.warnings_eq (h : compiler.Completes number line start stop notices) :
    warnings notices = compiler.lineWarnings number line := by
  cases h with
  | idle _ => exact warnings_lineWarnings number line
  | single _ _ _ =>
      rw [warnings_append, warnings_lineWarnings]
      exact List.append_nil _
  | upload _ _ =>
      simp only [warnings_append, warnings_lineWarnings, warnings_reports, warnings_closing,
        List.append_nil]
      exact List.append_nil _

theorem Stops.entries_eq (h : compiler.Stops capacity number line start error notices) :
    entries notices = [] := by
  cases h with
  | refused _ _ | single _ _ _ _ => exact entries_lineWarnings number line
  | upload _ _ _ _ =>
      rw [entries_append, entries_lineWarnings, entries_reports]
      rfl

theorem Stops.warnings_eq (h : compiler.Stops capacity number line start error notices) :
    warnings notices = compiler.lineWarnings number line := by
  cases h with
  | refused _ _ | single _ _ _ _ => exact warnings_lineWarnings number line
  | upload _ _ _ _ =>
      rw [warnings_append, warnings_lineWarnings, warnings_reports, List.append_nil]

/-! ## What many lines add -/

theorem Completed.tiles (h : compiler.Completed number start done stop log) :
    Tiles start stop (entries log) ∧ ∀ entry ∈ entries log, number ≤ entry.line := by
  induction h with
  | nil => exact ⟨.nil _, fun _ hmem => absurd hmem List.not_mem_nil⟩
  | cons first _ ih =>
      obtain ⟨htiles, hlines⟩ := ih
      rw [entries_append]
      obtain ⟨-, hnone, rfl⟩ | ⟨command, -, hone, hle⟩ := first.entries_eq
      · rw [hnone]
        exact ⟨htiles, fun entry hmem => Nat.le_of_succ_le (hlines entry hmem)⟩
      · rw [hone, List.singleton_append]
        refine ⟨.cons rfl hle hlines htiles, fun entry hmem => ?_⟩
        rcases List.mem_cons.mp hmem with rfl | hbehind
        · exact Nat.le_refl _
        · exact Nat.le_of_succ_le (hlines entry hbehind)

theorem Completed.warnings_eq (h : compiler.Completed number start done stop log) :
    warnings log = compiler.linesWarnings number done := by
  induction h with
  | nil => rfl
  | cons first _ ih => rw [warnings_append, first.warnings_eq, ih, linesWarnings]

theorem linesWarnings_append (number : Nat) (first second : List (List Char)) :
    compiler.linesWarnings number (first ++ second) =
      compiler.linesWarnings number first ++
        compiler.linesWarnings (number + first.length) second := by
  induction first generalizing number with
  | nil => rfl
  | cons line rest ih =>
      rw [List.cons_append, linesWarnings, linesWarnings, ih, List.append_assoc,
        List.length_cons, Nat.add_right_comm, Nat.add_assoc]

theorem Ending.cons {result : Except Error Nat} (line : List Char)
    (h : compiler.Ending capacity (number + 1) lines done final result tail) :
    compiler.Ending capacity number (line :: lines) (line :: done) final result tail := by
  cases h with
  | ok all => exact .ok (congrArg _ all)
  | error split stops =>
      refine .error (congrArg _ split) ?_
      rwa [List.length_cons, Nat.add_comm done.length 1, ← Nat.add_assoc]

theorem Ending.entries_eq {result : Except Error Nat}
    (h : compiler.Ending capacity number lines done final result tail) : entries tail = [] := by
  cases h with
  | ok _ => rfl
  | error _ stops => exact stops.entries_eq

theorem Ending.warnings_eq {result : Except Error Nat}
    (h : compiler.Ending capacity number lines done final result tail) :
    compiler.linesWarnings number done ++ warnings tail =
      compiler.linesWarnings number (lines.take (done.length + 1)) := by
  cases h with
  | ok all =>
      rw [all, List.take_of_length_le (Nat.le_succ _)]
      exact List.append_nil _
  | error split stops =>
      rw [split, List.take_length_add_append, linesWarnings_append, stops.warnings_eq]
      exact congrArg _ (List.append_nil _).symm

/-! ## The run -/

/-- Whatever becomes of a line, the tape is behind some bytes that were written. -/
theorem exists_write_compileLine (compiler : Compiler) (number : Nat) (tape : Tape)
    (line : List Char) :
    ∃ bytes, (compiler.compileLine number tape line).tape = tape.write bytes := by
  cases herror : (compiler.compileLine number tape line).error? with
  | none =>
      obtain ⟨bytes, hline, hroom⟩ := denotes_of_compileLine herror
      obtain ⟨_, hcompiled⟩ := compileLine_of_denotes number hline hroom
      exact ⟨bytes, congrArg LineOutcome.tape hcompiled⟩
  | some error =>
      obtain ⟨command, texts, hline, hreason | ⟨list, hmeaning, hfull⟩⟩ :=
        cause_of_compileLine herror
      · obtain ⟨notices, hcompiled⟩ :
            ∃ notices, compiler.compileLine number tape line = ⟨tape, notices, some error⟩ :=
          compileLine_of_refusal? hline hreason
        exact ⟨[], congrArg LineOutcome.tape hcompiled⟩
      · obtain ⟨notices, hcompiled⟩ :
            ∃ notices, compiler.compileLine number tape line = ⟨_, notices, _⟩ :=
          compileLine_of_not_hasRoom hline hmeaning hfull
        exact ⟨_, congrArg LineOutcome.tape hcompiled⟩

/-- A run leaves the cells in front of its position alone. -/
theorem get?_compileLines {cell : Nat} (number : Nat) (lines : List (List Char))
    (h : cell < tape.position) :
    (compiler.compileLines number lines tape).image.get? cell = tape.image.get? cell := by
  induction lines generalizing number tape with
  | nil => rfl
  | cons line rest ih =>
      obtain ⟨bytes, hwritten⟩ := exists_write_compileLine compiler number tape line
      rw [compileLines]
      cases hcompiled : compiler.compileLine number tape line with
      | mk after notices error? =>
          rw [hcompiled] at hwritten
          obtain rfl := hwritten
          cases error? with
          | some error => exact Tape.get?_write bytes h
          | none =>
              rw [← Tape.get?_write bytes h]
              exact ih (number + 1) (Nat.lt_of_lt_of_le h (Nat.le_add_right ..))

/-- What was written for a line is still there at the end of the run. -/
theorem denoteLine_of_compileLine {after : Tape} (next : Nat) (rest : List (List Char))
    (h : compiler.compileLine number tape line = ⟨after, notices, none⟩) :
    compiler.denoteLine line = some
      ((compiler.compileLines next rest after).image.slice tape.position after.position) := by
  obtain ⟨bytes, hmeaning, hroom⟩ := denotes_of_compileLine (congrArg LineOutcome.error? h)
  obtain ⟨_, hcompiled⟩ := compileLine_of_denotes number hmeaning hroom
  rw [h] at hcompiled
  cases hcompiled
  rw [hmeaning]
  refine congrArg some ((Tape.slice_write hroom).symm.trans ?_)
  exact Image.slice_congr fun cell hcell => (get?_compileLines next rest hcell).symm

/-- A line that is compiled, in front of a run. -/
theorem Recorded.cons {after : Tape}
    (hline : compiler.compileLine number tape line = ⟨after, notices, none⟩)
    (h : compiler.Recorded (number + 1) rest after (compiler.compileLines (number + 1) rest after)
      done final log tail) :
    compiler.Recorded number (line :: rest) tape
      ((compiler.compileLines (number + 1) rest after).after notices) (line :: done) final
      (notices ++ log) tail := by
  have hfirst : compiler.Completes number line tape.position after.position notices := by
    have hlogs := logs_compileLine compiler number tape line
    rwa [hline] at hlogs
  have hcapacity : after.image.capacity = tape.image.capacity := by
    obtain ⟨bytes, hwritten⟩ := exists_write_compileLine compiler number tape line
    rw [hline] at hwritten
    rw [show after = tape.write bytes from hwritten, Tape.capacity_write]
  refine ⟨.cons hfirst h.completed, ?_, ?_, ?_⟩
  · rw [Outcome.after, h.notices_eq, List.append_assoc]
  · have hending := h.ending
    rw [hcapacity] at hending
    exact hending.cons line
  · rw [Notice.entries_append, commandLines]
    obtain ⟨hsilent, hnone, -⟩ | ⟨command, hcommand, hone, -⟩ := hfirst.entries_eq
    · rw [if_pos hsilent, hnone]
      exact h.backed
    · rw [if_neg (by rw [hcommand]; exact Option.some_ne_none command), hone]
      exact .cons ⟨rfl, hcommand, denoteLine_of_compileLine (number + 1) rest hline⟩ h.backed

/-- A run describes itself in its log. -/
theorem exists_recorded (compiler : Compiler) (number : Nat) (lines : List (List Char))
    (tape : Tape) :
    ∃ done final log tail,
      compiler.Recorded number lines tape (compiler.compileLines number lines tape) done final log
        tail := by
  induction lines generalizing number tape with
  | nil => exact ⟨[], tape.position, [], [], .nil, rfl, .ok rfl, .nil⟩
  | cons line rest ih =>
      have hlogs := logs_compileLine compiler number tape line
      rw [compileLines]
      cases hcompiled : compiler.compileLine number tape line with
      | mk after notices error? =>
          rw [hcompiled] at hlogs
          cases error? with
          | some error =>
              exact ⟨[], tape.position, [], notices, .nil, rfl, .error rfl hlogs, .nil⟩
          | none =>
              obtain ⟨done, final, log, tail, hrest⟩ := ih (number + 1) after
              exact ⟨line :: done, final, notices ++ log, tail, hrest.cons hcompiled⟩

/-! ## A whole script -/

/-- The log of a compilation accounts for what it does.  `done` are the lines that are
compiled, up to the position `final`. -/
structure Accounts (compiler : Compiler) (lines : List (List Char)) (tape : Tape)
    (outcome : Outcome) (done : List (List Char)) (final : Nat) : Prop where
  /-- Line by line, the log consists of what the lines report. -/
  recorded : ∃ log tail, compiler.Completed 1 tape.position done final log ∧
    outcome.notices = log ++ tail ∧
    compiler.Ending tape.image.capacity 1 lines done final outcome.result tail
  /-- The entries are those of the compiled commands, whose bytes stand in their cells. -/
  backed : List.Forall₂ (compiler.Backs outcome.image) (commandLines 1 done)
    (entries outcome.notices)
  /-- The entries make up what is written by the compiled lines. -/
  tiles : Tiles tape.position final (entries outcome.notices)
  /-- There is one warning for everything that is skipped, up to the line that fails. -/
  warned : warnings outcome.notices = compiler.linesWarnings 1 (lines.take (done.length + 1))

/-- **The log accounts for every byte.**  Whether or not a compilation succeeds, its log
consists of what its lines report.  The entries are those of the commands that are compiled,
they cover the cells from the start position up to the final one, and the warnings are those
about the lines that are read. -/
theorem compile_accounts (compiler : Compiler) (script : String) (image : Image)
    (position : Nat) :
    ∃ done final, compiler.Accounts (Text.lines script.toList) ⟨image, position⟩
      (compiler.compile script image position) done final := by
  obtain ⟨done, final, log, tail, hrecorded⟩ :=
    exists_recorded compiler 1 (Text.lines script.toList) ⟨image, position⟩
  have hentries : entries (compiler.compile script image position).notices = entries log := by
    rw [compile, hrecorded.notices_eq, Notice.entries_append, hrecorded.ending.entries_eq,
      List.append_nil]
  refine ⟨done, final, ⟨log, tail, hrecorded.completed, hrecorded.notices_eq,
    hrecorded.ending⟩, ?_, ?_, ?_⟩
  · rw [hentries]
    exact hrecorded.backed
  · rw [hentries]
    exact hrecorded.completed.tiles.1
  · rw [compile, hrecorded.notices_eq, Notice.warnings_append,
      hrecorded.completed.warnings_eq, hrecorded.ending.warnings_eq]

-- the second of two blocks, with one cell each, does not fit behind the first one
example :
    let text := ":01000000AA55\n:0000000AF6\n:01000A00AA4B\n"
    let compiler : Compiler := ⟨⟨64, 4, none⟩, fun _ => .ok text⟩
    let log := (compiler.compile "nop\nend\nflash a, 0x100, 0" (Image.blank 20) 0).notices
    entries log = [⟨2, .finish, 0, 1⟩] ∧
      warnings log = [.unknownCommand "NOP" 1, .unknownRecord 0x0A 2] ∧
      log.getLast? = some (.emitted .flash ⟨0, 0⟩ "a" 0x100) := by
  decide +kernel

end Compiler

end IspStream
