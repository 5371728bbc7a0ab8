import IspStream.Proofs.Safety.Counting

/-!
# The pipeline without a hazard

`pipeline_meets_no_hazard` puts together what the modules before it say about reading records,
decoding, encoding, splitting and compiling.

Two things are too much for compiling, and they are the only ones: an image that is longer
than any list, and more instructions of a command than its counter counts.  Both take unusual
settings, and `unaffordable_settings` has a script for each of them, which is a single line.

* **A long image.**  The settings ask for it, and whatever the file is, there is no image to
  decode it into.
* **Many instructions.**  The file is the checkered image as hex text
  (`fileInstructions_checkered`), and the image that the instructions are written to has just
  the room that they need (`compile_checkered`).
-/

namespace IspStream.Guarded

open Script Compiler

variable {compiler : Compiler} {tape : Tape} {list : List Instruction} {count : Nat}

/-! ## A script that asks for a file -/

theorem parse_flash : Line.parse "flash a.hex, 0, 0".toList =
    .known (.program .flash) ["a.hex".toList, " 0".toList, " 0".toList] := by
  decide +kernel

theorem lines_flash : Text.lines "flash a.hex, 0, 0".toList = ["flash a.hex, 0, 0".toList] := by
  decide +kernel

theorem lineInstructions_flash (compiler : Compiler) :
    compiler.lineInstructions "flash a.hex, 0, 0".toList =
      compiler.fileInstructions .flash "a.hex" 0 0 := by
  have hname : name? ["a.hex".toList, " 0".toList, " 0".toList] = some "a.hex" := by
    decide +kernel
  have hstart : value? ["a.hex".toList, " 0".toList, " 0".toList] 1 = some 0 := by decide +kernel
  have hpage : value? ["a.hex".toList, " 0".toList, " 0".toList] 2 = some 0 := by decide +kernel
  rw [lineInstructions, parse_flash]
  simp only [commandInstructions, hname, hstart, hpage, Option.bind_eq_bind, Option.bind_some]

/-- The line alone is an admissible script if its instructions end at a word. -/
theorem admissible_flash (h : Sized compiler)
    (hlist : compiler.fileInstructions .flash "a.hex" 0 0 = some list)
    (hends : (list.flatMap Instruction.bytes).length < wordLimit) :
    Admissible compiler "flash a.hex, 0, 0" 0 := by
  refine ⟨h, by decide +kernel, ?_, ?_⟩
  · rw [lines_flash]
    rintro line hmem command texts hparse rfl
    rw [List.mem_singleton.mp hmem, parse_flash] at hparse
    cases hparse
  · have hdenotes : compiler.denoteLine "flash a.hex, 0, 0".toList = _ :=
      (bytes_lineInstructions _).symm
    rw [lineInstructions_flash, hlist, Option.map_some] at hdenotes
    rw [lines_flash, denotedBytes, hdenotes]
    simpa only [denotedBytes, List.append_nil, Nat.zero_add] using hends

/-- A file without data denotes no instructions, whatever image it is decoded into. -/
theorem fileInstructions_closing (settings : Settings) :
    fileInstructions ⟨settings, fun _ => .ok ":00000001FF\n"⟩ .flash "a.hex" 0 0 = some [] := by
  have hdecode : (Image.blank settings.targetMemorySize).decode ":00000001FF\n" 0 =
      ⟨Image.blank settings.targetMemorySize, [], .ok 0⟩ := rfl
  have hfile : fileInstructions ⟨settings, fun _ => .ok ":00000001FF\n"⟩ .flash "a.hex" 0 0 =
      some _ := fileInstructions_of_decode .flash 0 0 rfl (congrArg Outcome.result hdecode)
  have hnone : (Image.blank settings.targetMemorySize).blocks
      (Image.blank settings.targetMemorySize).capacity (settings.bound 0) = [] := by
    refine Image.blocks_eq_nil_of_blank fun index hindex => ?_
    rw [Image.capacity_blank] at hindex
    rw [Image.get?_blank, if_pos hindex]
  rw [hfile, hdecode, imageInstructions, Int.toNat_zero, hnone]
  rfl

/-! ## The checkered file -/

/-- A compiler that finds the checkered image in every file, and that splits at every blank
cell. -/
def checkeredCompiler (count : Nat) : Compiler :=
  ⟨⟨2 * count, 0, none⟩, fun _ => .ok ((checkered count).hexText (2 * count))⟩

/-- The checkered image denotes `count` instructions of twelve bytes each. -/
theorem fileInstructions_checkered (hspace : 2 * count ≤ 2 ^ 32) :
    ∃ list, (checkeredCompiler count).fileInstructions .flash "a.hex" 0 0 = some list ∧
      list.length = count ∧ (list.flatMap Instruction.bytes).length = 12 * count := by
  obtain ⟨stop, hdecode, himage⟩ := decode_checkered hspace
  have hfile : (checkeredCompiler count).fileInstructions .flash "a.hex" 0 0 =
      some (imageInstructions (checkeredCompiler count).settings .flash 0 0 (checkered count)) := by
    rw [← himage]
    exact fileInstructions_of_decode .flash 0 0 rfl hdecode
  have hbound : (checkeredCompiler count).settings.bound (0 : Int).toNat = 0 := rfl
  have hlength : (imageInstructions (checkeredCompiler count).settings .flash 0 0
      (checkered count)).length = count := by
    rw [length_imageInstructions, hbound, blocks_checkered, List.length_map, List.length_range]
  have htwelve : ∀ instruction ∈ imageInstructions (checkeredCompiler count).settings .flash 0 0
      (checkered count), instruction.bytes.length = 12 :=
    fun instruction hmem => length_bytes_checkered hbound hmem
  have hmost := length_flatMap_le fun instruction hmem => Nat.le_of_eq (htwelve instruction hmem)
  have hleast := le_length_flatMap fun instruction hmem =>
    Nat.le_of_eq (htwelve instruction hmem).symm
  exact ⟨_, hfile, hlength, by omega⟩

theorem admissible_checkered (hspace : 2 * count ≤ 2 ^ 32) :
    Admissible (checkeredCompiler count) "flash a.hex, 0, 0" 0 := by
  have hlimit : wordLimit = 2 ^ 64 := rfl
  obtain ⟨list, hlist, -, hbytes⟩ := fileInstructions_checkered hspace
  refine admissible_flash ⟨fun _ text htext => ?_, ?_⟩ hlist ?_
  · cases htext
    exact indexed_hexText ((Nat.min_le_left ..).trans hspace)
  · change 2 * count < wordLimit
    omega
  · omega

/-- The counter leaves its word behind the last of 2^31 instructions. -/
theorem compile_checkered (hspace : 2 * count ≤ 2 ^ 32) (hcount : counterLimit ≤ count) :
    compile (checkeredCompiler count) "flash a.hex, 0, 0" (Image.blank (12 * count)) 0 =
      .error .overflow := by
  obtain ⟨list, hlist, hlength, hbytes⟩ := fileInstructions_checkered hspace
  have hnot : ¬Affords (checkeredCompiler count) (Text.lines "flash a.hex, 0, 0".toList)
      ⟨Image.blank (12 * count), 0⟩ := by
    rw [lines_flash, affords_cons]
    rintro ⟨⟨-, hcounts⟩, -⟩
    have hroom : Tape.Fits ⟨Image.blank (12 * count), 0⟩ (list.flatMap Instruction.bytes) := by
      rw [Tape.Fits, Image.capacity_blank, hbytes, Nat.zero_add]
    have hcounted := hcounts list ((lineInstructions_flash _).trans hlist) list.length
      (Nat.le_refl _) (by rw [List.take_length]; exact Or.inr hroom)
    omega
  obtain ⟨hazard, ⟨rfl, hlong⟩ | rfl, hmet⟩ :=
    (hinges_compile (admissible_checkered hspace) (Image.blank (12 * count))).error hnot
  · have hlimit : lengthLimit = 2 ^ 63 := rfl
    change lengthLimit ≤ 2 * count at hlong
    omega
  · exact hmet

/-! ## Everything together -/

/-- **The pipeline meets no hazard.**  In everything that reads, decodes, encodes, splits and
compiles, each index and each cut is inside its list and between two characters, no number
leaves its word, and no fallback is taken, as long as compiling comes to affordable lines only.
Otherwise it asks for an image that is longer than any list, or its counter leaves its word.  No
line is like that unless the settings ask for such an image, or for a gap of no blank cell in
an image of almost 2^32 cells and for room behind twelve times 2^31 cells. -/
theorem pipeline_meets_no_hazard :
    (∀ line, parse line = .ok (Record.parse line)) ∧
    (∀ (image : Image) text offset, Indexed text → offset ≤ greatestOffset →
      decode image text offset = .ok (image.decode text offset)) ∧
    (∀ text, ∀ write ∈ Record.writesOfText text, write.address ≤ greatestAddress) ∧
    (∀ (image : Image) length room, image.capacity < wordLimit →
      encode image length room = .ok (image.encode length room) ∧
      hexText image length = .ok (image.hexText length)) ∧
    (∀ (image : Image) stop bound, image.capacity < wordLimit →
      blocks image.cells.toList stop bound = .ok (image.blocks stop bound) ∧
      ∀ block ∈ image.blocks stop bound, length block = .ok block.length ∧
        payload image.cells.toList block = .ok (image.payload block)) ∧
    (∀ text, captures text = none ↔ ∀ word behind?, ¬Matches text word behind?) ∧
    (∀ compiler script (image : Image) position, Admissible compiler script position →
      (Affords compiler (Text.lines script.toList) ⟨image, position⟩ →
        compile compiler script image position = .ok (compiler.compile script image position)) ∧
      (¬Affords compiler (Text.lines script.toList) ⟨image, position⟩ →
        compile compiler script image position = .error .allocation ∧
          lengthLimit ≤ compiler.settings.targetMemorySize ∨
        compile compiler script image position = .error .overflow)) ∧
    (∀ compiler lines (tape : Tape), compiler.settings.targetMemorySize < lengthLimit →
      (1 ≤ compiler.settings.minimumBound ∨ compiler.settings.targetMemorySize + 2 ≤ 2 ^ 32 ∨
        tape.image.capacity < 12 * counterLimit) →
      Affords compiler lines tape) := by
  refine ⟨parse_eq, fun image _ _ htext hoffset => decode_eq htext hoffset image,
    fun _ _ => address_le_of_mem_writesOfText,
    fun _ length room h => ⟨encode_eq h length room, hexText_eq h length⟩,
    fun _ stop bound h => ⟨blocks_eq h stop bound,
      fun _ hmem => ⟨length_eq h hmem, payload_eq h hmem⟩⟩,
    fun _ => captures_eq_none_iff, ?_, fun _ _ _ => affords_of_moderate⟩
  intro compiler script image position hadmissible
  have hcompile := hinges_compile hadmissible image
  refine ⟨hcompile.ok, fun hnot => ?_⟩
  obtain ⟨hazard, ⟨rfl, hspace⟩ | rfl, hmet⟩ := hcompile.error hnot
  · exact Or.inl ⟨hmet, hspace⟩
  · exact Or.inr hmet

/-- A script with both a frequency and a file. -/
theorem pipeline_meets_no_hazard_flash :
    Admissible ⟨⟨4, 64, none⟩, fun _ => .ok ":0100020012EB\n"⟩
        "connect 4000000\nflash a.hex, -2, 0" 2 ∧
      compile ⟨⟨4, 64, none⟩, fun _ => .ok ":0100020012EB\n"⟩
          "connect 4000000\nflash a.hex, -2, 0" (Image.blank 16) 2 =
        .ok (Compiler.compile ⟨⟨4, 64, none⟩, fun _ => .ok ":0100020012EB\n"⟩
          "connect 4000000\nflash a.hex, -2, 0" (Image.blank 16) 2) := by
  have hlines : Text.lines "connect 4000000\nflash a.hex, -2, 0".toList =
      ["connect 4000000".toList, "flash a.hex, -2, 0".toList] := by decide +kernel
  have hconnect : Line.parse "connect 4000000".toList = .known .connect ["4000000".toList] := by
    decide +kernel
  have hflash : Line.parse "flash a.hex, -2, 0".toList =
      .known (.program .flash) ["a.hex".toList, " -2".toList, " 0".toList] := by
    decide +kernel
  have hfrequency : value? ["4000000".toList] 0 = some 4000000 := by decide +kernel
  have hadmissible : Admissible ⟨⟨4, 64, none⟩, fun _ => .ok ":0100020012EB\n"⟩
      "connect 4000000\nflash a.hex, -2, 0" 2 := by
    refine ⟨⟨fun _ text htext => ?_, by decide⟩, by decide +kernel, ?_, by decide +kernel⟩
    · cases htext
      decide +kernel
    · rw [hlines]
      rintro line hmem command texts hparse rfl frequency hvalue
      rcases List.mem_cons.mp hmem with rfl | hmem
      · rw [hconnect] at hparse
        cases hparse
        rw [hfrequency] at hvalue
        cases hvalue
        decide
      · rw [List.mem_singleton.mp hmem, hflash] at hparse
        cases hparse
  obtain ⟨-, -, -, -, -, -, hcompile, hmoderate⟩ := pipeline_meets_no_hazard
  exact ⟨hadmissible, (hcompile _ _ _ _ hadmissible).1
    (hmoderate _ _ _ (by decide) (Or.inl (by decide)))⟩

/-- **Settings that ask for too much.**  A scratch image of 2^63 cells is longer than any list,
and the checkered image of 2^32 cells has one instruction too many for the counter. -/
theorem unaffordable_settings :
    (Admissible ⟨⟨2 ^ 63, 64, none⟩, fun _ => .ok ":00000001FF\n"⟩ "flash a.hex, 0, 0" 0 ∧
      compile ⟨⟨2 ^ 63, 64, none⟩, fun _ => .ok ":00000001FF\n"⟩ "flash a.hex, 0, 0"
        (Image.blank 16) 0 = .error .allocation) ∧
    (Admissible (checkeredCompiler (2 ^ 31)) "flash a.hex, 0, 0" 0 ∧
      compile (checkeredCompiler (2 ^ 31)) "flash a.hex, 0, 0" (Image.blank (12 * 2 ^ 31)) 0 =
        .error .overflow) := by
  have hsized : Sized ⟨⟨2 ^ 63, 64, none⟩, fun _ => .ok ":00000001FF\n"⟩ := by
    refine ⟨fun _ text htext => ?_, by decide⟩
    cases htext
    decide +kernel
  refine ⟨⟨admissible_flash hsized (fileInstructions_closing _) (by decide), rfl⟩, ?_, ?_⟩
  · exact admissible_checkered (by decide)
  · exact compile_checkered (by decide) (by decide)

end IspStream.Guarded
