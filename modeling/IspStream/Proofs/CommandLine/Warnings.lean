import IspStream.CommandLine.Job
import IspStream.Proofs.Decoding.AddressMap

/-!
# Where warnings come from

Decoding and compiling never report in the name of the command line
(`Image.inner_decode`, `Compiler.inner_compileFile`).  So a warning of the command line
says what the command line itself has found.
-/

namespace IspStream

/-- None of the notices is from the command line. -/
def Notice.Inner (notices : List Notice) : Prop :=
  ∀ notice ∈ notices, notice.source ≠ .commandLine

open Notice (Inner)

variable {first second : List Notice}

theorem inner_nil : Inner [] := fun _ h => absurd h List.not_mem_nil

theorem inner_append : Inner (first ++ second) ↔ Inner first ∧ Inner second :=
  List.forall_mem_append

theorem inner_singleton {notice : Notice} (h : notice.source ≠ .commandLine) : Inner [notice] :=
  List.forall_mem_singleton.mpr h

/-! ## Decoding -/

theorem Record.inner_reports (record : Record) (number : Nat) : Inner (record.reports number) := by
  unfold reports
  split
  · exact inner_singleton nofun
  · exact inner_nil

theorem Image.inner_decodeLines (offset number : Nat) (lines : List (List Char)) (bases : Bases)
    (stop : Nat) (image : Image) :
    Inner (decodeLines offset number lines bases stop image).notices := by
  induction lines generalizing number bases stop image with
  | nil => exact inner_nil
  | cons line rest ih =>
      rw [decodeLines_cons]
      split
      · exact inner_nil
      · exact ih _ _ _ _
      · split
        · exact inner_append.mpr ⟨Record.inner_reports _ _, ih _ _ _ _⟩
        · exact inner_nil

theorem Image.inner_decode (image : Image) (text : String) (offset : Nat) :
    Inner (image.decode text offset).notices :=
  inner_decodeLines offset 1 _ _ _ image

theorem Image.inner_load (image : Image) (read : Files.Reader) (path : String) (offset : Nat) :
    Inner (image.load read path offset).notices := by
  unfold load
  split
  · exact inner_nil
  · exact inner_decode image _ offset

/-! ## Compiling -/

namespace Script

/-- The notices that a plan holds ready are not from the command line. -/
def Plan.Inner (plan : Plan) : Prop :=
  (∀ part ∈ plan.parts, Notice.Inner part.notices) ∧ Notice.Inner plan.closing

theorem inner_emit {parts : List Part} (h : ∀ part ∈ parts, Inner part.notices) (tape : Tape) :
    Inner (emit tape parts).notices := by
  induction parts generalizing tape with
  | nil => exact inner_nil
  | cons part rest ih =>
      rw [List.forall_mem_cons] at h
      unfold emit
      split
      · exact inner_append.mpr ⟨h.1, ih h.2 _⟩
      · exact inner_nil

theorem inner_emitPlan {plan : Plan} (h : plan.Inner) (tape : Tape) (number : Nat)
    (command : Command) : Inner (emitPlan tape number command plan).notices := by
  have hparts := inner_emit h.1 tape
  simp only [emitPlan]
  split
  · exact inner_append.mpr ⟨inner_append.mpr ⟨hparts, h.2⟩, inner_singleton nofun⟩
  · exact hparts

end Script

namespace Compiler

open Script

variable (compiler : Compiler)

theorem inner_planImage (request : Request) (path : String) (image : Image) (stop : Nat) :
    (compiler.planImage request path image stop).Inner := by
  unfold planImage
  refine ⟨?_, ?_⟩
  · intro part hpart
    obtain ⟨block, -, rfl⟩ := List.mem_map.mp hpart
    exact inner_singleton nofun
  · simp only
    split
    · exact inner_singleton nofun
    · exact inner_nil

theorem inner_planFile (request : Request) :
    Inner (compiler.planFile request).notices ∧
      ∀ plan, (compiler.planFile request).result = .ok plan → plan.Inner := by
  refine ⟨Image.inner_load _ _ _ _, fun plan hplan => ?_⟩
  simp only [planFile] at hplan
  cases hloaded : ((Image.blank compiler.settings.targetMemorySize).load compiler.read
      (compiler.resolve request.name) 0).result with
  | error error =>
      rw [hloaded] at hplan
      cases hplan
  | ok stop =>
      rw [hloaded] at hplan
      cases hplan
      exact compiler.inner_planImage request _ _ stop

theorem inner_plan (number : Nat) (command : Command) (texts : List (List Char)) :
    Inner (compiler.plan number command texts).notices ∧
      ∀ plan, (compiler.plan number command texts).result = .ok plan → plan.Inner := by
  have hsurplus : Inner
      (if command.arity < texts.length then [.surplusParameters command number] else []) := by
    split
    · exact inner_singleton nofun
    · exact inner_nil
  unfold plan
  split
  · exact ⟨inner_nil, nofun⟩
  · simp only
    split
    · exact ⟨hsurplus, nofun⟩
    · refine ⟨hsurplus, fun plan hplan => ?_⟩
      cases hplan
      exact ⟨List.forall_mem_singleton.mpr inner_nil, inner_nil⟩
    · rename_i request _
      obtain ⟨hnotices, hplan⟩ := compiler.inner_planFile request
      exact ⟨inner_append.mpr ⟨hsurplus, hnotices⟩, hplan⟩

theorem inner_compileLine (number : Nat) (tape : Tape) (line : List Char) :
    Inner (compiler.compileLine number tape line).notices := by
  unfold compileLine
  split
  · exact inner_nil
  · exact inner_singleton nofun
  · rename_i command texts _
    obtain ⟨hnotices, hplan⟩ := compiler.inner_plan number command texts
    split
    · rename_i notices error hresult
      rw [hresult] at hnotices
      exact hnotices
    · rename_i notices plan hresult
      rw [hresult] at hnotices hplan
      exact inner_append.mpr ⟨hnotices, inner_emitPlan (hplan plan rfl) tape number command⟩

theorem inner_compileLines (number : Nat) (lines : List (List Char)) (tape : Tape) :
    Inner (compiler.compileLines number lines tape).notices := by
  induction lines generalizing number tape with
  | nil => exact inner_nil
  | cons line rest ih =>
      have hline := compiler.inner_compileLine number tape line
      unfold compileLines
      split
      · rename_i hcompiled
        rw [hcompiled] at hline
        exact inner_append.mpr ⟨hline, ih _ _⟩
      · rename_i hcompiled
        rw [hcompiled] at hline
        exact hline

theorem inner_compileFile (path : String) (image : Image) (position : Nat) :
    Inner (compiler.compileFile path image position).notices := by
  unfold compileFile
  split
  · exact inner_nil
  · exact compiler.inner_compileLines 1 _ _

end Compiler

end IspStream
