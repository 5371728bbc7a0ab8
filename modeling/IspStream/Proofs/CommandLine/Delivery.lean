import IspStream.Proofs.CommandLine.Warnings
import IspStream.Proofs.Encoding.Restore
import IspStream.Proofs.Files.Saving
import IspStream.Proofs.Script.Refinement

/-!
# What a successful run delivers

A run that ends with status zero leaves one hex file behind.  Read back into a blank
flash, it holds the base firmware in front of the script region, the command stream in
it and nothing behind the stream.  Base firmware with data behind the stream is cut off
(`decode_hexText_eq_iff`), and this is what the warning of an overlap is about: without
the warning, the file is everything that was compiled (`run_delivers`).
-/

namespace IspStream.CommandLine

/-- The blank flash of the controller. -/
def flash : Image := Image.blank 0x20000

/-- The base firmware of a job in the flash, and its end. -/
inductive BaseLoaded (read : Files.Reader) : Option String → Image → Nat → Prop where
  /-- There is no base firmware. -/
  | absent : BaseLoaded read none flash 0
  /-- The base firmware is in a file. -/
  | file {path text : String} {stop : Nat} (found : read path = .ok text)
      (decoded : (flash.decode text 0).result = .ok stop) :
      BaseLoaded read (some path) (flash.decode text 0).image stop

/-- Some notice says that the base firmware overlaps the script region. -/
def WarnsOverlap (notices : List Notice) : Prop :=
  ∃ stop start, .baseOverlap stop start ∈ notices

/-- A hex text stands for base firmware up to the script region and a stream in it. -/
structure Flashes (base : Image) (stream : List UInt8) (text : String) : Prop where
  decodes : ∃ final, (flash.decode text 0).result = .ok final
  base_cells : ∀ cell < 0x1000, (flash.decode text 0).image.get? cell = base.get? cell
  stream_cells : ∀ index < stream.length,
    (flash.decode text 0).image.get? (0x1000 + index) = stream[index]?
  blank_cells : ∀ cell, 0x1000 + stream.length ≤ cell → cell < 0x20000 →
    (flash.decode text 0).image.get? cell = some 0xFF

/-- What a job has done to a file tree when it is through. -/
structure Delivered (job : Job) (tree : Files.Tree) (report : Report) (after : Files.Tree)
    (base : Image) (stop : Nat) (script : String) (stream : List UInt8) (text : String)
    (place : Files.Place) : Prop where
  base_loaded : BaseLoaded tree.read job.base? base stop
  script_read : tree.read job.script = .ok script
  denotes : (Job.compiler tree.read).denote script = some stream
  compiled : Compiler.Holds base 0x1000 stream
    ((Job.compiler tree.read).compile script base 0x1000)
  saved : tree.Saved job.output text.toUTF8 after place
  read_back : after.read job.output = .ok text
  flashes : Flashes base stream text
  warns_iff : WarnsOverlap report.notices ↔ 0x1000 < stop
  lossless : ¬WarnsOverlap report.notices →
    (flash.decode text 0).image = ((Job.compiler tree.read).compile script base 0x1000).image
  lossless_iff :
    (flash.decode text 0).image = ((Job.compiler tree.read).compile script base 0x1000).image ↔
      ∀ cell, 0x1000 + stream.length ≤ cell → cell < 0x20000 → base.get? cell = some blank

variable {job : Job} {tree after : Files.Tree} {read : Files.Reader} {base : Image}
  {stop final : Nat} {stream : List UInt8} {outcome : Outcome} {base? : Option String}
  {notices : List Notice} {ready : Ready}

/-! ## Base firmware -/

theorem BaseLoaded.capacity_eq (h : BaseLoaded read base? base stop) : base.capacity = 0x20000 := by
  cases h with
  | absent => exact Image.capacity_blank _
  | file _ hdecoded => rw [Image.capacity_decode_of_ok hdecoded, flash, Image.capacity_blank]

theorem BaseLoaded.blank_behind {cell : Nat} (h : BaseLoaded read base? base stop)
    (hbehind : stop ≤ cell) (hcell : cell < 0x20000) : base.get? cell = some blank := by
  have hflash : flash.get? cell = some blank := by
    unfold flash
    rw [Image.get?_blank, if_pos hcell]
  cases h with
  | absent => exact hflash
  | file _ hdecoded =>
      rw [Image.get?_decode_of_le hdecoded (by rwa [Nat.zero_add]), hflash]

theorem not_warnsOverlap (h : Notice.Inner notices) : ¬WarnsOverlap notices := by
  rintro ⟨_, _, hmem⟩
  exact h _ hmem rfl

theorem warnsOverlap_append {first second : List Notice} (h : Notice.Inner second) :
    WarnsOverlap (first ++ second) ↔ WarnsOverlap first := by
  constructor
  · rintro ⟨stop, start, hmem⟩
    rcases List.mem_append.mp hmem with hfirst | hsecond
    · exact ⟨stop, start, hfirst⟩
    · exact absurd rfl (h _ hsecond)
  · rintro ⟨stop, start, hmem⟩
    exact ⟨stop, start, List.mem_append_left _ hmem⟩

theorem warnsOverlap_guard {first : List Notice} (h : Notice.Inner first) (stop : Nat) :
    WarnsOverlap (first ++ if 0x1000 < stop then [.baseOverlap stop 0x1000] else []) ↔
      0x1000 < stop := by
  split
  · rename_i hoverlap
    exact iff_of_true ⟨_, _, List.mem_append_right _ List.mem_cons_self⟩ hoverlap
  · rename_i hclear
    rw [List.append_nil]
    exact iff_of_false (not_warnsOverlap h) hclear

theorem result_loadBase {path : String} (hbase : job.base? = some path) :
    (job.loadBase read).result = (flash.load read path 0).result := by
  unfold Job.loadBase
  rw [hbase]
  simp only
  split
  · rfl
  · split <;> rfl

theorem loadBase_of_decode {path text : String} (hbase : job.base? = some path)
    (hread : read path = .ok text) (hdecode : (flash.decode text 0).result = .ok stop) :
    job.loadBase read =
      ⟨(flash.decode text 0).image, (flash.decode text 0).notices ++
        if 0x1000 < stop then [.baseOverlap stop 0x1000] else [], .ok stop⟩ := by
  have hload : (Image.blank Job.layout.controllerMemorySize).load read path 0 =
      flash.decode text 0 := by
    rw [Image.load, hread]
    rfl
  unfold Job.loadBase
  rw [hbase]
  simp only [hload, hdecode]
  by_cases hoverlap : 0x1000 < stop
  · rw [if_pos hoverlap]
    exact if_pos hoverlap
  · rw [if_neg hoverlap, List.append_nil, ← hdecode]
    exact if_neg hoverlap

/-- The base firmware is loaded, and there is a warning exactly if it reaches into the
script region. -/
theorem baseLoaded_of_loadBase (h : (job.loadBase read).result = .ok stop) :
    BaseLoaded read job.base? (job.loadBase read).image stop ∧
      (WarnsOverlap (job.loadBase read).notices ↔ 0x1000 < stop) := by
  cases hbase : job.base? with
  | none =>
      have hload : job.loadBase read = ⟨flash, [.noBase], .ok 0⟩ := by
        rw [Job.loadBase, hbase]
        rfl
      rw [hload] at h ⊢
      cases h
      refine ⟨.absent, iff_of_false ?_ (Nat.not_lt_zero _)⟩
      rintro ⟨_, _, hmem⟩
      cases List.mem_singleton.mp hmem
  | some path =>
      rw [result_loadBase hbase, Image.load] at h
      cases hread : read path with
      | error fault =>
          rw [hread] at h
          cases h
      | ok text =>
          rw [hread] at h
          rw [loadBase_of_decode hbase hread h]
          exact ⟨.file hread h, warnsOverlap_guard (Image.inner_decode flash text 0) stop⟩

/-! ## The hex file -/

section

variable (hbase : BaseLoaded read base? base stop)
  (hcompiled : Compiler.Holds base 0x1000 stream outcome)
  (hroom : 0x1000 + stream.length ≤ 0x20000)

include hbase hcompiled

theorem capacity_compiled : outcome.image.capacity = 0x20000 :=
  hcompiled.capacity_eq.trans hbase.capacity_eq

theorem flash_eq_blank : flash = Image.blank outcome.image.capacity := by
  rw [capacity_compiled hbase hcompiled, flash]

include hroom

theorem stream_inside : 0x1000 + stream.length ≤ outcome.image.capacity :=
  hroom.trans_eq (capacity_compiled hbase hcompiled).symm

theorem restored_hexText : Image.Restored outcome.image (0x1000 + stream.length) flash 0
    (flash.decode (outcome.image.hexText (0x1000 + stream.length)) 0) := by
  rw [flash_eq_blank hbase hcompiled]
  exact Image.restored_blank (hroom.trans (by decide)) (stream_inside hbase hcompiled hroom)

/-- The hex file holds what was compiled, up to the end of the stream. -/
theorem get?_decode_hexText {cell : Nat} (hcell : cell < 0x20000) :
    (flash.decode (outcome.image.hexText (0x1000 + stream.length)) 0).image.get? cell =
      if cell < 0x1000 + stream.length then outcome.image.get? cell else some blank := by
  rw [flash_eq_blank hbase hcompiled]
  exact Image.get?_decode_hexText_blank (hroom.trans (by decide))
    (stream_inside hbase hcompiled hroom)
    (hcell.trans_eq (capacity_compiled hbase hcompiled).symm)

theorem flashes_hexText :
    Flashes base stream (outcome.image.hexText (0x1000 + stream.length)) := by
  refine ⟨(restored_hexText hbase hcompiled hroom).succeeds, ?_, ?_, ?_⟩
  · intro cell hcell
    rw [get?_decode_hexText hbase hcompiled hroom (by omega), if_pos (by omega)]
    exact hcompiled.outside cell (Or.inl hcell)
  · intro index hindex
    rw [get?_decode_hexText hbase hcompiled hroom (by omega), if_pos (by omega)]
    exact hcompiled.inside index hindex
  · intro cell hbehind hcell
    rw [get?_decode_hexText hbase hcompiled hroom hcell, if_neg (by omega)]
    rfl

/-- The hex file holds all that was compiled exactly if the base firmware has no data
behind the stream. -/
theorem decode_hexText_eq_iff :
    (flash.decode (outcome.image.hexText (0x1000 + stream.length)) 0).image = outcome.image ↔
      ∀ cell, 0x1000 + stream.length ≤ cell → cell < 0x20000 → base.get? cell = some blank := by
  constructor
  · intro hequal cell hbehind hcell
    rw [← hcompiled.outside cell (Or.inr hbehind), ← hequal,
      get?_decode_hexText hbase hcompiled hroom hcell, if_neg (Nat.not_lt.mpr hbehind)]
  · intro hblank
    refine Image.ext_get? fun cell => ?_
    by_cases hcell : cell < 0x20000
    · rw [get?_decode_hexText hbase hcompiled hroom hcell]
      split
      · rfl
      · rename_i hbehind
        have hcut := Nat.le_of_not_lt hbehind
        rw [hcompiled.outside cell (Or.inr hcut), hblank cell hcut hcell]
    · have hcompiledEnd := capacity_compiled hbase hcompiled
      have hdecodedEnd := (restored_hexText hbase hcompiled hroom).capacity_eq.trans
        (Image.capacity_blank 0x20000)
      rw [Image.get?_eq_none_iff.mpr (by omega), Image.get?_eq_none_iff.mpr (by omega)]

end

/-! ## Runs -/

theorem status_of_prepare {report : Report} (h : job.prepare read = .error report) :
    report.status = 1 := by
  unfold Job.prepare at h
  simp only at h
  split at h
  · cases h
    rfl
  · split at h
    · cases h
      rfl
    · cases h

theorem read_of_compileFile {compiler : Compiler} {path : String} {image : Image}
    {position : Nat} (h : (compiler.compileFile path image position).result = .ok final) :
    ∃ script, compiler.read path = .ok script ∧
      compiler.compileFile path image position = compiler.compile script image position := by
  unfold Compiler.compileFile at h ⊢
  split at h
  · cases h
  · rename_i script hscript
    exact ⟨script, hscript, rfl⟩

/-- A job that gets ready has loaded its base firmware and compiled its script. -/
theorem compiled_of_prepare (h : job.prepare read = .ok ready) :
    ∃ stop script final,
      (job.loadBase read).result = .ok stop ∧ read job.script = .ok script ∧
      ((Job.compiler read).compile script (job.loadBase read).image 0x1000).result = .ok final ∧
      ready.text =
        ((Job.compiler read).compile script (job.loadBase read).image 0x1000).image.hexText final ∧
      ∃ others, Notice.Inner others ∧ ready.notices = (job.loadBase read).notices ++ others := by
  unfold Job.prepare at h
  simp only at h
  split at h
  · cases h
  · rename_i stop hbase
    split at h
    · cases h
    · rename_i final hfinal
      cases h
      obtain ⟨script, hscript, hcompile⟩ := read_of_compileFile hfinal
      have hinner := Compiler.inner_compileFile (Job.compiler read) job.script
        (job.loadBase read).image 0x1000
      refine ⟨stop, script, final, hbase, hscript, hcompile ▸ hfinal, ?_, _, hinner, rfl⟩
      exact congrArg (fun outcome : Outcome => outcome.image.hexText final) hcompile

theorem saved_of_run {arguments : List String} (hstart : start arguments = .ok job)
    (hstatus : (run arguments tree).1.status = 0) :
    ∃ ready, job.prepare tree.read = .ok ready ∧
      tree.save job.output ready.text.toUTF8 = ((run arguments tree).2, .ok ()) ∧
      (run arguments tree).1.notices = ready.notices := by
  unfold run at hstatus ⊢
  simp only [hstart] at hstatus ⊢
  cases hprepare : job.prepare tree.read with
  | error report =>
      rw [hprepare] at hstatus
      have hfailed := status_of_prepare hprepare
      simp only at hstatus
      rw [hstatus] at hfailed
      cases hfailed
  | ok ready =>
      simp only [hprepare] at hstatus ⊢
      cases hsave : tree.save job.output ready.text.toUTF8 with
      | mk saved result =>
          rw [hsave] at hstatus
          cases result with
          | error fault => cases hstatus
          | ok _ => exact ⟨ready, rfl, hsave, rfl⟩

theorem prepare_of_denotes {script : String} (hload : (job.loadBase read).result = .ok stop)
    (hscript : read job.script = .ok script)
    (hdenotes : (Job.compiler read).denote script = some stream)
    (hroom : 0x1000 + stream.length ≤ 0x20000) : ∃ ready, job.prepare read = .ok ready := by
  have hcapacity := (baseLoaded_of_loadBase hload).1.capacity_eq
  have hspace : stream = [] ∨ 0x1000 + stream.length ≤ (job.loadBase read).image.capacity :=
    Or.inr (hroom.trans_eq hcapacity.symm)
  have hresult : ((Job.compiler read).compileFile job.script (job.loadBase read).image
      Job.layout.scriptStart).result = .ok (0x1000 + stream.length) := by
    unfold Compiler.compileFile
    rw [show (Job.compiler read).read job.script = .ok script from hscript]
    exact (Compiler.holds_compile hdenotes hspace).result_eq
  unfold Job.prepare
  simp only [hload, hresult]
  exact ⟨_, rfl⟩

/-- A run ends with status zero if the base firmware can be loaded, the script denotes a
stream for which there is room, and the hex file can be saved. -/
theorem status_of_denotes {arguments : List String} {script : String}
    (hstart : start arguments = .ok job) (hload : (job.loadBase tree.read).result = .ok stop)
    (hscript : tree.read job.script = .ok script)
    (hdenotes : (Job.compiler tree.read).denote script = some stream)
    (hroom : 0x1000 + stream.length ≤ 0x20000)
    (hsave : ∀ content, (tree.save job.output content).2 = .ok ()) :
    (run arguments tree).1.status = 0 := by
  obtain ⟨ready, hprepare⟩ := prepare_of_denotes hload hscript hdenotes hroom
  unfold run
  simp only [hstart, hprepare, hsave]
  rfl

/-- **A run with status zero delivers the stream.**  The hex file that it leaves behind
stands for the base firmware in front of the script region and the stream in it, and
without a warning it stands for all that was compiled.  No other file has changed. -/
theorem run_delivers {arguments : List String} (hstart : start arguments = .ok job)
    (hstatus : (run arguments tree).1.status = 0) :
    ∃ base stop script stream text place,
      Delivered job tree (run arguments tree).1 (run arguments tree).2 base stop script stream
        text place := by
  obtain ⟨ready, hprepare, hsave, hnotices⟩ := saved_of_run hstart hstatus
  obtain ⟨stop, script, final, hload, hscript, hfinal, htext, others, hothers, hready⟩ :=
    compiled_of_prepare hprepare
  obtain ⟨hbase, hwarns⟩ := baseLoaded_of_loadBase hload
  obtain ⟨stream, hdenotes, hroom⟩ := Compiler.denotes_of_compileLines hfinal
  have hholds : Compiler.Holds _ 0x1000 stream _ := Compiler.holds_compile hdenotes hroom
  obtain rfl : 0x1000 + stream.length = final := Except.ok.inj (hholds.result_eq.symm.trans hfinal)
  obtain ⟨place, hsaved⟩ := Files.Tree.saved_of_save hsave
  have hspace : 0x1000 + stream.length ≤ 0x20000 := by
    rcases hroom with rfl | hfits
    · decide
    · exact hbase.capacity_eq ▸ hfits
  have hwarning : WarnsOverlap (run arguments tree).1.notices ↔ 0x1000 < stop := by
    rw [hnotices, hready, warnsOverlap_append hothers, hwarns]
  have hlossless := decode_hexText_eq_iff hbase hholds hspace
  rw [htext] at hsaved
  refine ⟨_, stop, script, stream, _, place, hbase, hscript, hdenotes, hholds, hsaved,
    hsaved.read_eq, flashes_hexText hbase hholds hspace, hwarning, ?_, hlossless⟩
  intro hquiet
  have hstop : stop ≤ 0x1000 := Nat.le_of_not_lt fun hlt => hquiet (hwarning.mpr hlt)
  exact hlossless.mpr fun cell hbehind hcell => hbase.blank_behind (by omega) hcell

/-- Base firmware of one byte, and a script of one line. -/
theorem run_delivers_wait :
    let tree : Files.Tree :=
      ⟨[(["s"], .file "wait 1".toUTF8), (["b"], .file ":0100000012ED\n".toUTF8)], []⟩
    let arguments := ["-b", "b", "s", "o/x"]
    let job : Job := { script := "s", output := "o/x", base? := some "b" }
    start arguments = .ok job ∧ (run arguments tree).1.status = 0 ∧
      ∃ base stop script stream text place,
        Delivered job tree (run arguments tree).1 (run arguments tree).2 base stop script stream
          text place := by
  intro tree arguments job
  have hstart : start arguments = .ok job := by
    with_unfolding_all rfl
  have hread : tree.read "b" = .ok ":0100000012ED\n" := by
    decide +kernel
  have hwrites : Record.writesOfText ":0100000012ED\n" = [⟨0, 0x12⟩] := by
    decide +kernel
  have haccepted : Record.Accepted (Text.lines ":0100000012ED\n".toList) := by
    rw [show Text.lines ":0100000012ED\n".toList = [":0100000012ED".toList] by decide +kernel]
    refine List.forall_mem_singleton.mpr ⟨some ⟨0, .data, [0x12]⟩, ?_⟩
    decide +kernel
  have hfits : flash.Fits 0 (Record.writesOfText ":0100000012ED\n") := by
    rw [hwrites, flash]
    refine List.forall_mem_singleton.mpr ?_
    rw [Image.capacity_blank]
    decide
  have hload : (job.loadBase tree.read).result = .ok 1 := by
    have hdecode : (flash.decode ":0100000012ED\n" 0).result = .ok 1 :=
      Image.decode_eq_ok_iff.mpr ⟨haccepted, hfits, by rw [hwrites]; rfl⟩
    rw [loadBase_of_decode rfl hread hdecode]
  have hscript : tree.read "s" = .ok "wait 1" := by
    decide +kernel
  have hdenotes : (Job.compiler tree.read).denote "wait 1" = some [0x06, 0x01] := by
    decide +kernel
  have hsave : ∀ content, (tree.save "o/x" content).2 = .ok () := by
    intro content
    with_unfolding_all rfl
  have hstatus : (run arguments tree).1.status = 0 :=
    status_of_denotes hstart hload hscript hdenotes (by decide) hsave
  exact ⟨hstart, hstatus, run_delivers hstart hstatus⟩

end IspStream.CommandLine
