import IspStream.Proofs.Script.Refinement
import IspStream.Proofs.Stream.Reader

/-!
# The compiled stream can be read back

As long as a file that a script names has fewer than 2^32 cells, every payload fits its
length field.  So the reader of instructions gets along with any stream that compiling
leaves behind (`read_compiled`), whatever its payloads hold, and no two scripts with
different instructions compile to the same stream.
-/

namespace IspStream.Compiler

open Script

variable {compiler : Compiler}

/-! ## Payloads -/

/-- The image that a file is decoded into has the capacity of the target memory. -/
theorem capacity_of_content? {name : String} {image : Image} {stop : Nat}
    (h : compiler.content? name = some (image, stop)) :
    image.capacity = compiler.settings.targetMemorySize := by
  obtain ⟨text, -, hdecode, rfl⟩ := decoded_of_content? h
  rw [Image.capacity_decode_of_ok hdecode, Image.capacity_blank]

/-- Only the programming commands have instructions with a payload, and no payload is
longer than the image it comes from. -/
theorem sized_of_mem_commandInstructions {command : Command} {texts : List (List Char)}
    {list : List Instruction} {instruction : Instruction}
    (hsize : compiler.settings.targetMemorySize < 2 ^ 32)
    (h : compiler.commandInstructions command texts = some list) (hmem : instruction ∈ list) :
    instruction.Sized := by
  by_cases hprogram : ∀ memory, command ≠ .program memory
  · obtain ⟨_, rfl, rfl⟩ := eq_singleton_of_commandInstructions h hprogram
    obtain rfl := List.mem_singleton.mp hmem
    cases instruction with
    | program memory => exact absurd rfl (hprogram memory)
    | _ => trivial
  · obtain ⟨memory, hmemory⟩ := not_forall_not.mp hprogram
    subst hmemory
    simp only [commandInstructions, fileInstructions, Option.bind_eq_bind,
      Option.bind_eq_some_iff] at h
    obtain ⟨name, -, start, -, pageSize, -, ⟨image, stop⟩, hcontent, hlist⟩ := h
    cases hlist
    obtain ⟨block, hblock, rfl⟩ := List.mem_map.mp hmem
    have hcapacity : image.capacity = _ := capacity_of_content? hcontent
    have hinside : block.last < image.capacity := (Image.inside_of_mem_blocks hblock).2
    change (image.payload block).length < 2 ^ 32
    rw [Image.length_payload hblock, Block.length]
    omega

theorem sized_of_mem_linesInstructions {lines : List (List Char)} {list : List Instruction}
    (hsize : compiler.settings.targetMemorySize < 2 ^ 32)
    (h : compiler.linesInstructions lines = some list) :
    ∀ instruction ∈ list, instruction.Sized := by
  induction lines generalizing list with
  | nil =>
      cases h
      exact fun _ hmem => absurd hmem List.not_mem_nil
  | cons line rest ih =>
      rw [linesInstructions_cons, Option.bind_eq_some_iff] at h
      obtain ⟨first, hfirst, hrest⟩ := h
      obtain ⟨others, hothers, rfl⟩ := Option.map_eq_some_iff.mp hrest
      intro instruction hmem
      rcases List.mem_append.mp hmem with hhere | hlater
      · unfold lineInstructions at hfirst
        split at hfirst
        · cases hfirst
          cases hhere
        · cases hfirst
          cases hhere
        · exact sized_of_mem_commandInstructions hsize hfirst hhere
      · exact ih hothers instruction hlater

/-! ## Streams -/

/-- The bytes that compiling leaves between its two positions are those of the
instructions, and reading them gives the instructions back. -/
theorem read_compiled {script : String} {image : Image} {position final : Nat}
    (hsize : compiler.settings.targetMemorySize < 2 ^ 32)
    (hcompiles : (compiler.compile script image position).result = .ok final) :
    ∃ list, compiler.instructions script = some list ∧
      (compiler.compile script image position).image.slice position final =
        list.flatMap Instruction.bytes ∧
      Instruction.readAll?
        ((compiler.compile script image position).image.slice position final) = some list := by
  obtain ⟨bytes, hscript, hroom⟩ := denotes_of_compileLines hcompiles
  obtain ⟨notices, hcompile⟩ := compile_of_denotes hscript hroom
  have hdenotes : compiler.denote script = some bytes := hscript
  rw [denote, ← bytes_linesInstructions] at hdenotes
  obtain ⟨list, hlist, rfl⟩ := Option.map_eq_some_iff.mp hdenotes
  have hslice : (compiler.compile script image position).image.slice position final =
      list.flatMap Instruction.bytes := by
    rw [hcompile] at hcompiles ⊢
    obtain rfl := Except.ok.inj hcompiles
    exact Tape.slice_write hroom
  refine ⟨list, hlist, hslice, ?_⟩
  rw [hslice]
  exact Instruction.readAll?_flatMap_bytes (sized_of_mem_linesInstructions hsize hlist)

/-- **The command stream is uniquely decodable.**  One reader recovers from every compiled
stream the instructions of its script and consumes every byte, so that two scripts with
equal streams have equal instructions. -/
theorem instructions_of_stream (first second : Compiler) (script other : String)
    (image target : Image) (position start final stop : Nat)
    (hfirst : first.settings.targetMemorySize < 2 ^ 32)
    (hsecond : second.settings.targetMemorySize < 2 ^ 32)
    (hcompiles : (first.compile script image position).result = .ok final)
    (hother : (second.compile other target start).result = .ok stop) :
    let stream := (first.compile script image position).image.slice position final
    ∃ list, first.instructions script = some list ∧
      stream = list.flatMap Instruction.bytes ∧
      Instruction.readAll? stream = some list ∧
      (stream = (second.compile other target start).image.slice start stop →
        second.instructions other = some list) := by
  intro stream
  obtain ⟨list, hlist, hstream, hread⟩ := read_compiled hfirst hcompiles
  obtain ⟨others, hothers, -, hreadOther⟩ := read_compiled hsecond hother
  refine ⟨list, hlist, hstream, hread, ?_⟩
  intro hequal
  have hsame : some list = some others :=
    calc some list
      _ = Instruction.readAll? stream := hread.symm
      _ = Instruction.readAll? ((second.compile other target start).image.slice start stop) :=
        congrArg Instruction.readAll? hequal
      _ = some others := hreadOther
  rw [hothers, hsame]

/-- Two scripts whose payload holds the codes of two commands and a blank cell. -/
theorem instructions_of_stream_payload :
    let first : Compiler := ⟨⟨4, 64, none⟩, fun _ => .ok ":0300000001FF02FB\n"⟩
    let second : Compiler := ⟨⟨8, 1, some "d"⟩, fun _ => .ok ":00000001FF\r\n:0300000001FF02FB"⟩
    let outcome := first.compile "flash a.hex, 0, 0\nend" (Image.blank 32) 4
    let other := second.compile "; b\nFLASH b,0x0,65536\nEnd 1" (Image.blank 64) 0
    outcome.result = .ok 19 ∧ other.result = .ok 15 ∧
      outcome.image.slice 4 19 = other.image.slice 0 15 ∧
      ∃ list, first.instructions "flash a.hex, 0, 0\nend" = some list ∧
        second.instructions "; b\nFLASH b,0x0,65536\nEnd 1" = some list ∧
        Instruction.readAll? (outcome.image.slice 4 19) = some list := by
  intro first second outcome other
  have hcompiles : outcome.result = .ok 19 := by
    decide +kernel
  have hother : other.result = .ok 15 := by
    decide +kernel
  have hequal : outcome.image.slice 4 19 = other.image.slice 0 15 := by
    decide +kernel
  obtain ⟨list, hlist, -, hread, hsame⟩ := instructions_of_stream first second
    "flash a.hex, 0, 0\nend" "; b\nFLASH b,0x0,65536\nEnd 1" (Image.blank 32) (Image.blank 64)
    4 0 19 15 (by decide) (by decide) hcompiles hother
  exact ⟨hcompiles, hother, hequal, list, hlist, hsame hequal, hread⟩

end IspStream.Compiler
