import IspStream.Proofs.CommandLine.Delivery

/-!
# What a failed run leaves behind

A run ends with status one if the base firmware cannot be loaded, the script cannot be
read or compiled, or the hex file cannot be saved, and for no other reason
(`Job.Fails`).  The whole job but the saving is done before any file is touched, and
saving settles where the text goes before it puts it there.  So all that a failed run can
leave behind are directories on the way to the hex file, and every file is as it was,
also if the hex file was to replace the script or the base firmware
(`run_fails_iff`).
-/

namespace IspStream.CommandLine

variable {job : Job} {tree after : Files.Tree} {read : Files.Reader} {error : Error}
  {report : Report} {arguments : List String}

/-! ## How a job fails -/

/-- How a job fails over a file tree: with which error, and what tree it leaves. -/
inductive Job.Fails (job : Job) (tree : Files.Tree) : Error → Files.Tree → Prop where
  /-- The base firmware cannot be loaded. -/
  | base {path : String} {error : Error} (given : job.base? = some path)
      (refused : (flash.load tree.read path 0).result = .error error) :
      Fails job tree error tree
  /-- The script cannot be read. -/
  | script {base : Image} {stop : Nat} {fault : Files.Fault}
      (loaded : BaseLoaded tree.read job.base? base stop)
      (unread : tree.read job.script = .error fault) :
      Fails job tree (.file job.script fault) tree
  /-- The script cannot be compiled. -/
  | compile {base : Image} {stop : Nat} {script : String} {error : Error}
      (loaded : BaseLoaded tree.read job.base? base stop)
      (found : tree.read job.script = .ok script)
      (refused : ((Job.compiler tree.read).compile script base 0x1000).result = .error error) :
      Fails job tree error tree
  /-- The hex file cannot be saved. -/
  | save {base : Image} {stop final : Nat} {script : String} {fault : Files.Fault}
      {after : Files.Tree} (loaded : BaseLoaded tree.read job.base? base stop)
      (found : tree.read job.script = .ok script)
      (compiled : ((Job.compiler tree.read).compile script base 0x1000).result = .ok final)
      (refused : tree.save job.output
        (((Job.compiler tree.read).compile script base 0x1000).image.hexText final).toUTF8 =
          (after, .error fault)) :
      Fails job tree (.file job.output fault) after

/-- A failed job has made directories on the way to its hex file at most. -/
theorem Job.Fails.grown (h : job.Fails tree error after) :
    tree.Grown (Files.Within job.output) after := by
  cases h with
  | base => exact .refl tree _
  | script => exact .refl tree _
  | compile => exact .refl tree _
  | save _ _ _ hsave => exact Files.Tree.grown_of_save hsave

/-! ## Getting ready -/

/-- Loading the base firmware is loading a hex file, if there is one. -/
theorem loadBase_eq_error_iff : (job.loadBase read).result = .error error ↔
    ∃ path, job.base? = some path ∧ (flash.load read path 0).result = .error error := by
  constructor
  · intro h
    cases hbase : job.base? with
    | none =>
        rw [Job.loadBase, hbase] at h
        cases h
    | some path => exact ⟨path, rfl, (result_loadBase hbase).symm.trans h⟩
  · rintro ⟨path, hbase, h⟩
    exact (result_loadBase hbase).trans h

/-- The base firmware of a job in the flash is what the job goes on with. -/
theorem BaseLoaded.loadBase_eq {base : Image} {stop : Nat}
    (h : BaseLoaded read job.base? base stop) :
    (job.loadBase read).result = .ok stop ∧ (job.loadBase read).image = base := by
  generalize hbase : job.base? = base? at h
  cases h with
  | absent =>
      rw [Job.loadBase, hbase]
      exact ⟨rfl, rfl⟩
  | file hread hdecode =>
      rw [loadBase_of_decode hbase hread hdecode]
      exact ⟨rfl, rfl⟩

/-- A job that does not get ready fails without a change to the files. -/
theorem fails_of_prepare (h : job.prepare tree.read = .error report) :
    ∃ error, job.Fails tree error tree := by
  unfold Job.prepare at h
  simp only at h
  split at h
  · rename_i error hbase
    cases h
    obtain ⟨path, hgiven, hrefused⟩ := loadBase_eq_error_iff.mp hbase
    exact ⟨error, .base hgiven hrefused⟩
  · rename_i stop hbase
    have hloaded := (baseLoaded_of_loadBase hbase).1
    split at h
    · rename_i error hcompile
      cases h
      unfold Compiler.compileFile at hcompile
      split at hcompile
      · rename_i fault hscript
        cases hcompile
        exact ⟨_, .script hloaded hscript⟩
      · rename_i script hscript
        exact ⟨error, .compile hloaded hscript hcompile⟩
    · cases h

/-- A job that fails before its hex file is saved does not get ready. -/
theorem prepare_of_fails (h : job.Fails tree error after) :
    (after = tree ∧ ∃ report, job.prepare tree.read = .error report ∧
      report.complaint = "Error: " ++ error.message ++ "\n") ∨
    ∃ fault, error = .file job.output fault ∧ ∃ ready, job.prepare tree.read = .ok ready ∧
      tree.save job.output ready.text.toUTF8 = (after, .error fault) := by
  cases h with
  | base hgiven hrefused =>
      refine Or.inl ⟨rfl, ?_⟩
      unfold Job.prepare
      simp only [loadBase_eq_error_iff.mpr ⟨_, hgiven, hrefused⟩]
      exact ⟨_, rfl, rfl⟩
  | script hloaded hscript =>
      refine Or.inl ⟨rfl, ?_⟩
      obtain ⟨hbase, -⟩ := hloaded.loadBase_eq
      unfold Job.prepare Compiler.compileFile
      simp only [hbase, Job.compiler, hscript]
      exact ⟨_, rfl, rfl⟩
  | compile hloaded hscript hrefused =>
      refine Or.inl ⟨rfl, ?_⟩
      obtain ⟨hbase, rfl⟩ := hloaded.loadBase_eq
      unfold Job.prepare Compiler.compileFile
      simp only [hbase, show (Job.compiler tree.read).read job.script = _ from hscript,
        show Job.layout.scriptStart = 0x1000 from rfl, hrefused]
      exact ⟨_, rfl, rfl⟩
  | save hloaded hscript hcompile hsave =>
      refine Or.inr ⟨_, rfl, ?_⟩
      obtain ⟨hbase, rfl⟩ := hloaded.loadBase_eq
      unfold Job.prepare Compiler.compileFile
      simp only [hbase, show (Job.compiler tree.read).read job.script = _ from hscript,
        show Job.layout.scriptStart = 0x1000 from rfl, hcompile]
      exact ⟨_, rfl, hsave⟩

/-! ## Runs -/

/-- Without a job, a run has nothing that could fail. -/
theorem status_of_start (h : start arguments = .error report) :
    report.status = 0 ∨ report.status = 2 := by
  unfold start at h
  split at h
  · cases h
    exact Or.inl rfl
  · cases h
    exact Or.inl rfl
  · cases h
    exact Or.inr rfl
  · split at h
    · cases h
      exact Or.inl rfl
    · cases h

/-- The run of a failing job has status one and shows the error. -/
theorem run_of_fails (hstart : start arguments = .ok job) (h : job.Fails tree error after) :
    (run arguments tree).1.status = 1 ∧ (run arguments tree).2 = after ∧
      (run arguments tree).1.complaint = "Error: " ++ error.message ++ "\n" := by
  rcases prepare_of_fails h with ⟨rfl, report, hprepare, hcomplaint⟩ |
    ⟨fault, rfl, ready, hprepare, hsave⟩
  · have hrun : run arguments after = (report, after) := by
      simp only [run, hstart, hprepare]
    rw [hrun]
    exact ⟨status_of_prepare hprepare, rfl, hcomplaint⟩
  · have hrun : run arguments tree = (job.conclude ready (.error fault), after) := by
      simp only [run, hstart, hprepare, hsave]
    rw [hrun]
    exact ⟨rfl, rfl, rfl⟩

theorem fails_of_status (h : (run arguments tree).1.status = 1) :
    ∃ job error, start arguments = .ok job ∧ job.Fails tree error (run arguments tree).2 := by
  unfold run at h ⊢
  cases hstart : start arguments with
  | error report =>
      simp only [hstart] at h
      rcases status_of_start hstart with hzero | htwo
      · rw [hzero] at h
        cases h
      · rw [htwo] at h
        cases h
  | ok job =>
      simp only [hstart] at h ⊢
      cases hprepare : job.prepare tree.read with
      | error report =>
          obtain ⟨error, hfails⟩ := fails_of_prepare hprepare
          exact ⟨job, error, rfl, hfails⟩
      | ok ready =>
          obtain ⟨stop, script, final, hload, hscript, hcompile, htext, -⟩ :=
            compiled_of_prepare hprepare
          have hloaded := (baseLoaded_of_loadBase hload).1
          rw [hprepare] at h
          simp only [htext] at h ⊢
          cases hsave : tree.save job.output (((Job.compiler tree.read).compile script
              (job.loadBase tree.read).image 0x1000).image.hexText final).toUTF8 with
          | mk saved result =>
              rw [hsave] at h
              cases result with
              | ok _ => cases h
              | error fault =>
                  exact ⟨job, _, rfl, .save hloaded hscript hcompile hsave⟩

/-- **A failed run leaves the files alone.**  A run has status one exactly if its job
fails, and then it shows the error.  Every file keeps its content and no file is new, and
all that is new are directories that the path of the hex file is within. -/
theorem run_fails_iff (arguments : List String) (tree : Files.Tree) :
    ((run arguments tree).1.status = 1 ↔
      ∃ job error after, start arguments = .ok job ∧ job.Fails tree error after) ∧
    ((run arguments tree).1.status = 1 → tree.SameFiles (run arguments tree).2) ∧
    ∀ job error after, start arguments = .ok job → job.Fails tree error after →
      (run arguments tree).2 = after ∧ tree.Grown (Files.Within job.output) after ∧
      (run arguments tree).1.complaint = "Error: " ++ error.message ++ "\n" := by
  refine ⟨⟨?_, ?_⟩, ?_, ?_⟩
  · intro hstatus
    obtain ⟨job, error, hstart, hfails⟩ := fails_of_status hstatus
    exact ⟨job, error, _, hstart, hfails⟩
  · rintro ⟨job, error, after, hstart, hfails⟩
    exact (run_of_fails hstart hfails).1
  · intro hstatus
    obtain ⟨job, error, -, hfails⟩ := fails_of_status hstatus
    exact hfails.grown.sameFiles
  · intro job error after hstart hfails
    obtain ⟨-, hafter, hcomplaint⟩ := run_of_fails hstart hfails
    exact ⟨hafter, hfails.grown, hcomplaint⟩

/-- A hex file that is to be saved where its path asks for a directory. -/
theorem run_fails_iff_directory :
    let tree : Files.Tree := ⟨[(["s"], .file "wait 1".toUTF8)], []⟩
    (run ["s", "o/x/"] tree).1.status = 1 ∧ tree.SameFiles (run ["s", "o/x/"] tree).2 ∧
      tree.get? ["o"] = none ∧ (run ["s", "o/x/"] tree).2.get? ["o"] = some .directory ∧
      (run ["s", "o/x/"] tree).1.complaint =
        "Error: Failed to access file 'o/x/': Is a directory (os error 21)\n" := by
  intro tree
  let job : Job := { script := "s", output := "o/x/" }
  have hstart : start ["s", "o/x/"] = .ok job := by
    with_unfolding_all rfl
  have hscript : tree.read job.script = .ok "wait 1" := by
    decide +kernel
  have hdenotes : (Job.compiler tree.read).denote "wait 1" = some [0x06, 0x01] := by
    decide +kernel
  have hroom : 0x1000 + [0x06, 0x01].length ≤ flash.capacity := by
    rw [flash, Image.capacity_blank]
    decide
  have hcompile := (Compiler.holds_compile hdenotes (Or.inr hroom)).result_eq
  have hrefused : ∀ content, (tree.save "o/x/" content).2 = .error .isDirectory := by
    intro content
    with_unfolding_all rfl
  have hmade : ∀ content, (tree.save "o/x/" content).1.get? ["o"] = some .directory := by
    intro content
    with_unfolding_all rfl
  have hfails : job.Fails tree (.file "o/x/" .isDirectory) _ :=
    .save .absent hscript hcompile (Prod.ext rfl (hrefused _))
  obtain ⟨hiff, hsame, hends⟩ := run_fails_iff ["s", "o/x/"] tree
  obtain ⟨hafter, -, hcomplaint⟩ := hends job _ _ hstart hfails
  have hstatus := hiff.mpr ⟨job, _, _, hstart, hfails⟩
  refine ⟨hstatus, hsame hstatus, by decide +kernel, ?_, hcomplaint.trans (by decide +kernel)⟩
  rw [hafter]
  exact hmade _

end IspStream.CommandLine
