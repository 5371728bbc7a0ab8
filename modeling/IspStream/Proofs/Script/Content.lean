import IspStream.Proofs.Encoding.Restore
import IspStream.Proofs.Script.Failure

/-!
# Only the content of a file counts

There are many ways to write the same memory down as hex text: the records may be long or
short, stand in any order, overlap or be padded with blank cells.  A programming command
does not see the difference (`programming_depends_on_content`).

## Strategy

* **The end of the file.**  The compiler splits the decoded image only up to the end that
  decoding reports, and that end does depend on the text.  But no data lies behind it, and
  blank cells at the end make no difference to the blocks (`Image.BlankFrom.blocks_eq`).
* **The tape.**  What a command does to the tape, and whether and how it fails there, follows
  from the instructions that it denotes (`effect_compileLine`).
* **A whole script.**  With files of the same content every command denotes the same
  instructions, or is refused for the same reason, so that line by line the same is done to
  the tape (`Alike.effect_compileLines_eq`).
-/

namespace IspStream

/-! ## Outcomes without notices -/

namespace Script

/-- What compiling a line leaves behind, apart from the notices. -/
def LineOutcome.effect (outcome : LineOutcome) : Tape × Option Error :=
  (outcome.tape, outcome.error?)

end Script

/-- What a run leaves behind, apart from the notices. -/
def Outcome.effect (outcome : Outcome) : Image × Except Error Nat :=
  (outcome.image, outcome.result)

/-! ## The same content -/

/-- Two hex texts are decoded, and into the same image. -/
structure SameContent (capacity : Nat) (text other : String) : Prop where
  decoded : ∃ stop, ((Image.blank capacity).decode text 0).result = .ok stop
  other_decoded : ∃ stop, ((Image.blank capacity).decode other 0).result = .ok stop
  image_eq : ((Image.blank capacity).decode text 0).image =
    ((Image.blank capacity).decode other 0).image

/-- A record padded with blank cells has a different end and the same content. -/
theorem sameContent_padded : SameContent 8 ":0100020012EB\n" ":0300020012FFFFEB\n" :=
  ⟨⟨3, by decide +kernel⟩, ⟨5, by decide +kernel⟩, by decide +kernel⟩

namespace Image

variable {capacity stop length : Nat} {text : String}

/-- Only cells of the image are encoded. -/
theorem hexText_min (image : Image) (length : Nat) :
    image.hexText (min length image.capacity) = image.hexText length := by
  rw [hexText, hexText, records, records, Nat.min_assoc, Nat.min_self]

/-- The hex text of a decoded image has the same content as the text it comes from, provided
that it reaches as far. -/
theorem sameContent_hexText (hspace : capacity ≤ 2 ^ 32)
    (h : ((blank capacity).decode text 0).result = .ok stop) (hlength : stop ≤ length) :
    SameContent capacity text (((blank capacity).decode text 0).image.hexText length) := by
  have hcapacity := capacity_decode_of_ok h
  rw [capacity_blank] at hcapacity
  have hblank := blankFrom_decode h
  generalize hcontent : ((blank capacity).decode text 0).image = content at hcapacity hblank ⊢
  subst hcapacity
  have hle : min length content.capacity ≤ content.capacity := Nat.min_le_right ..
  have hback := restored_blank (hle.trans hspace) hle
  rw [hexText_min] at hback
  refine ⟨⟨stop, h⟩, hback.succeeds, hcontent.trans (ext_get? fun cell => ?_)⟩
  by_cases hcell : cell < content.capacity
  · have hread := get?_decode_hexText_blank (hle.trans hspace) hle hcell
    rw [hexText_min] at hread
    rw [hread]
    split
    · rfl
    · exact hblank cell (by omega) hcell
  · rw [get?_eq_none_iff.mpr (Nat.le_of_not_lt hcell), eq_comm, get?_eq_none_iff,
      hback.capacity_eq, capacity_blank]
    exact Nat.le_of_not_lt hcell

end Image

namespace Compiler

open Script

variable {compiler : Compiler} {settings : Settings} {one two : Files.Reader} {tape : Tape}
  {line : List Char} {command : Command} {texts : List (List Char)} {list : List Instruction}
  {name text other : String} {memory : Memory} {start pageSize : Int} {stop : Nat}

/-! ## One command -/

/-- The bytes for all data of an image. -/
def imageBytes (settings : Settings) (memory : Memory) (start pageSize : Int) (image : Image) :
    List UInt8 :=
  (image.blocks image.capacity (settings.bound pageSize.toNat)).flatMap
    (denoteBlock memory start pageSize image)

/-- The instructions for all data of an image. -/
def imageInstructions (settings : Settings) (memory : Memory) (start pageSize : Int)
    (image : Image) : List Instruction :=
  (image.blocks image.capacity (settings.bound pageSize.toNat)).map fun block =>
    .program memory (UInt32.ofInt (start + block.first)) (UInt16.ofInt pageSize)
      (image.payload block)

theorem bytes_imageInstructions (image : Image) :
    (imageInstructions settings memory start pageSize image).flatMap Instruction.bytes =
      imageBytes settings memory start pageSize image := by
  rw [imageInstructions, List.flatMap_map]
  exact List.flatMap_congr fun block hblock => bytes_program hblock

/-- A file that is decoded denotes the instructions for its content, whatever end decoding
reports. -/
theorem fileInstructions_of_decode (memory : Memory) (start pageSize : Int)
    (hread : compiler.read (compiler.resolve name) = .ok text)
    (h : ((Image.blank compiler.settings.targetMemorySize).decode text 0).result = .ok stop) :
    compiler.fileInstructions memory name start pageSize =
      some (imageInstructions compiler.settings memory start pageSize
        ((Image.blank compiler.settings.targetMemorySize).decode text 0).image) := by
  have hblocks := (Image.blankFrom_decode h).blocks_eq (Image.blankFrom_capacity _)
    (compiler.settings.bound pageSize.toNat)
  rw [fileInstructions, content?, hread, imageInstructions, ← hblocks]
  simp only [h]
  rfl

/-- Files with the same content denote the same instructions. -/
theorem fileInstructions_of_sameContent {otherName : String} (memory : Memory)
    (start pageSize : Int) (h : SameContent settings.targetMemorySize text other)
    (hone : one (resolve ⟨settings, one⟩ name) = .ok text)
    (htwo : two (resolve ⟨settings, two⟩ otherName) = .ok other) :
    fileInstructions ⟨settings, one⟩ memory name start pageSize =
      fileInstructions ⟨settings, two⟩ memory otherName start pageSize := by
  obtain ⟨stop, hstop⟩ := h.decoded
  obtain ⟨final, hfinal⟩ := h.other_decoded
  rw [fileInstructions_of_decode memory start pageSize hone hstop,
    fileInstructions_of_decode memory start pageSize htwo hfinal, ← h.image_eq]

/-- What a command does to the tape follows from its instructions. -/
theorem effect_compileLine (number : Nat) (tape : Tape)
    (hline : Line.parse line = .known command texts)
    (h : compiler.commandInstructions command texts = some list) :
    (compiler.compileLine number tape line).effect =
      if tape.HasRoom (list.flatMap Instruction.bytes) then
        (tape.write (list.flatMap Instruction.bytes), none)
      else
        (tape.write (Instruction.leading list (tape.fitting (list.flatMap Instruction.fields))),
          some (tape.overflow number)) := by
  split
  · rename_i hroom
    have hdenotes : compiler.denoteLine line = some (list.flatMap Instruction.bytes) := by
      rw [denoteLine, hline]
      simp only [← bytes_commandInstructions, h, Option.map_some]
    obtain ⟨_, hcompiled⟩ := compileLine_of_denotes number hdenotes hroom
    rw [hcompiled, LineOutcome.effect]
  · rename_i hfull
    obtain ⟨_, hcompiled⟩ := compileLine_of_not_hasRoom hline h hfull
    rw [hcompiled, LineOutcome.effect]

/-- Commands that are refused for the same reason or denote the same instructions do the same
to the tape. -/
theorem effect_compileLine_congr {first second : Compiler} {otherLine : List Char}
    {others : List (List Char)} (number : Nat) (tape : Tape)
    (hline : Line.parse line = .known command texts)
    (hother : Line.parse otherLine = .known command others)
    (hrefusal : first.refusal? number command texts = second.refusal? number command others)
    (hlist : first.commandInstructions command texts =
      second.commandInstructions command others) :
    (first.compileLine number tape line).effect =
      (second.compileLine number tape otherLine).effect := by
  cases hreason : first.refusal? number command texts with
  | some error =>
      obtain ⟨_, hone⟩ := compileLine_of_refusal? hline hreason
      obtain ⟨_, htwo⟩ := compileLine_of_refusal? hother (hrefusal ▸ hreason)
      rw [hone, htwo]
      rfl
  | none =>
      obtain ⟨list, hmeaning⟩ := (refusal?_eq_none_iff number command texts).mp hreason
      rw [effect_compileLine number tape hline hmeaning,
        effect_compileLine number tape hother (hlist ▸ hmeaning)]

/-! ## Whole scripts -/

/-- At every path there is the same file, or there are files with the same content. -/
def Alike (capacity : Nat) (one two : Files.Reader) : Prop :=
  ∀ path, one path = two path ∨
    ∃ text other, one path = .ok text ∧ two path = .ok other ∧ SameContent capacity text other

namespace Alike

/-- Both compilers look for a file in the same place. -/
theorem file (h : Alike settings.targetMemorySize one two) (name : String) :
    Compiler.read ⟨settings, one⟩ (resolve ⟨settings, one⟩ name) =
        Compiler.read ⟨settings, two⟩ (resolve ⟨settings, two⟩ name) ∨
      ∃ text other, Compiler.read ⟨settings, one⟩ (resolve ⟨settings, one⟩ name) = .ok text ∧
        Compiler.read ⟨settings, two⟩ (resolve ⟨settings, two⟩ name) = .ok other ∧
        SameContent settings.targetMemorySize text other :=
  h (resolve ⟨settings, one⟩ name)

theorem fileInstructions_eq (h : Alike settings.targetMemorySize one two) (memory : Memory)
    (name : String) (start pageSize : Int) :
    fileInstructions ⟨settings, one⟩ memory name start pageSize =
      fileInstructions ⟨settings, two⟩ memory name start pageSize := by
  rcases h.file name with hsame | ⟨text, other, hone, htwo, hcontent⟩
  · rw [fileInstructions, content?, hsame, fileInstructions, content?]
  · exact fileInstructions_of_sameContent memory start pageSize hcontent hone htwo

theorem fileError?_eq (h : Alike settings.targetMemorySize one two) (name : String) :
    fileError? ⟨settings, one⟩ name = fileError? ⟨settings, two⟩ name := by
  rcases h.file name with hsame | ⟨text, other, hone, htwo, hcontent⟩
  · rw [fileError?, hsame, fileError?]
    rfl
  · obtain ⟨stop, hstop⟩ := hcontent.decoded
    obtain ⟨final, hfinal⟩ := hcontent.other_decoded
    rw [fileError?, hone, fileError?, htwo]
    simp only [hstop, hfinal]
    rfl

theorem commandInstructions_eq (h : Alike settings.targetMemorySize one two) (command : Command)
    (texts : List (List Char)) :
    commandInstructions ⟨settings, one⟩ command texts =
      commandInstructions ⟨settings, two⟩ command texts := by
  cases command with
  | program memory => simp only [commandInstructions, h.fileInstructions_eq]
  | _ => rfl

theorem refusal?_eq (h : Alike settings.targetMemorySize one two) (number : Nat)
    (command : Command) (texts : List (List Char)) :
    refusal? ⟨settings, one⟩ number command texts =
      refusal? ⟨settings, two⟩ number command texts := by
  rw [refusal?, refusal?, funext h.fileError?_eq]

theorem effect_compileLine_eq (h : Alike settings.targetMemorySize one two) (number : Nat)
    (tape : Tape) (line : List Char) :
    (compileLine ⟨settings, one⟩ number tape line).effect =
      (compileLine ⟨settings, two⟩ number tape line).effect := by
  cases hline : Line.parse line with
  | empty | unknown word => rw [compileLine, compileLine, hline]
  | known command texts =>
      exact effect_compileLine_congr number tape hline hline (h.refusal?_eq ..)
        (h.commandInstructions_eq ..)

theorem effect_compileLines_eq (h : Alike settings.targetMemorySize one two) (number : Nat)
    (lines : List (List Char)) (tape : Tape) :
    (compileLines ⟨settings, one⟩ number lines tape).effect =
      (compileLines ⟨settings, two⟩ number lines tape).effect := by
  induction lines generalizing number tape with
  | nil => rfl
  | cons line rest ih =>
      have heffect := h.effect_compileLine_eq number tape line
      rw [compileLines, compileLines]
      cases hone : compileLine ⟨settings, one⟩ number tape line with
      | mk after notices error? =>
          cases htwo : compileLine ⟨settings, two⟩ number tape line with
          | mk other others other? =>
              rw [hone, htwo] at heffect
              obtain ⟨rfl, rfl⟩ := Prod.mk.inj heffect
              cases error? with
              | some error => rfl
              | none => exact ih (number + 1) after

end Alike

/-! ## A file put in the place of another one -/

/-- Files with a text at a path. -/
def provide (read : Files.Reader) (path text : String) : Files.Reader :=
  fun other => if other = path then .ok text else read other

/-- A line programs a memory with the content of a file that the compiler finds. -/
def Programs (compiler : Compiler) (line : List Char) (memory : Memory) (start pageSize : Int)
    (text : String) : Prop :=
  ∃ texts name, Line.parse line = .known (.program memory) texts ∧ name? texts = some name ∧
    value? texts 1 = some start ∧ value? texts 2 = some pageSize ∧
    compiler.read (compiler.resolve name) = .ok text

/-- No compilation tells two hex texts apart. -/
structure Interchangeable (settings : Settings) (text other : String) : Prop where
  /-- A line that programs a memory with either does the same to the tape.  It writes all data
  of their content, or it fails because there is no room for that. -/
  line : ∀ (one two : Files.Reader) (number : Nat) (tape : Tape) (first second : List Char)
      (memory : Memory) (start pageSize : Int),
    Programs ⟨settings, one⟩ first memory start pageSize text →
    Programs ⟨settings, two⟩ second memory start pageSize other →
      let left := Compiler.compileLine ⟨settings, one⟩ number tape first
      let right := Compiler.compileLine ⟨settings, two⟩ number tape second
      let bytes := imageBytes settings memory start pageSize
        ((Image.blank settings.targetMemorySize).decode text 0).image
      left.tape = right.tape ∧ left.error? = right.error? ∧
        (tape.HasRoom bytes → left.error? = none ∧ left.tape = tape.write bytes) ∧
        (¬tape.HasRoom bytes → left.error? = some (tape.overflow number))
  /-- A script leaves the same image and the same result when one is put in the place of the
  other. -/
  script : ∀ (read : Files.Reader) (path script : String) (image : Image) (position : Nat),
    let left := Compiler.compile ⟨settings, provide read path text⟩ script image position
    let right := Compiler.compile ⟨settings, provide read path other⟩ script image position
    left.image = right.image ∧ left.result = right.result

theorem alike_provide {capacity : Nat} (read : Files.Reader) (path : String)
    (h : SameContent capacity text other) :
    Alike capacity (provide read path text) (provide read path other) := by
  intro place
  by_cases hplace : place = path
  · exact Or.inr ⟨text, other, if_pos hplace, if_pos hplace, h⟩
  · exact Or.inl ((if_neg hplace).trans (if_neg hplace).symm)

/-- A line that programs a memory denotes the instructions for its file. -/
theorem Programs.exists_instructions (h : Programs compiler line memory start pageSize text) :
    ∃ texts name, Line.parse line = .known (.program memory) texts ∧
      compiler.read (compiler.resolve name) = .ok text ∧
      compiler.commandInstructions (.program memory) texts =
        compiler.fileInstructions memory name start pageSize := by
  obtain ⟨texts, name, hline, hname, hstart, hpage, hread⟩ := h
  refine ⟨texts, name, hline, hread, ?_⟩
  rw [commandInstructions, hname, hstart, hpage]
  rfl

theorem interchangeable_of_sameContent (h : SameContent settings.targetMemorySize text other) :
    Interchangeable settings text other := by
  constructor
  · intro one two number tape first second memory start pageSize hfirst hsecond left right
    obtain ⟨texts, name, hline, hread, hone⟩ := hfirst.exists_instructions
    obtain ⟨others, otherName, hother, hotherRead, htwo⟩ := hsecond.exists_instructions
    obtain ⟨stop, hstop⟩ := h.decoded
    have hlist := fileInstructions_of_decode memory start pageSize hread hstop
    have hsame := fileInstructions_of_sameContent memory start pageSize h hread hotherRead
    have hleft : left.effect = _ := effect_compileLine number tape hline (hone.trans hlist)
    have hright : right.effect = _ :=
      effect_compileLine number tape hother (htwo.trans (hsame.symm.trans hlist))
    have heffect : left.effect = right.effect := hleft.trans hright.symm
    rw [bytes_imageInstructions] at hleft
    refine ⟨congrArg Prod.fst heffect, congrArg Prod.snd heffect, fun hroom => ?_, fun hfull => ?_⟩
    · rw [if_pos hroom] at hleft
      exact ⟨congrArg Prod.snd hleft, congrArg Prod.fst hleft⟩
    · rw [if_neg hfull] at hleft
      exact congrArg Prod.snd hleft
  · intro read path script image position
    exact Prod.mk.inj ((alike_provide read path h).effect_compileLines_eq 1
      (Text.lines script.toList) ⟨image, position⟩)

/-- **Only the content of a file counts.**  Hex texts that are decoded into the same image can
be put in the place of each other, and in particular a text can be replaced by the hex text
of the image that it is decoded into. -/
theorem programming_depends_on_content (settings : Settings) :
    (∀ text other, SameContent settings.targetMemorySize text other →
      Interchangeable settings text other) ∧
    (settings.targetMemorySize ≤ 2 ^ 32 → ∀ text stop length,
      let decoded := (Image.blank settings.targetMemorySize).decode text 0
      decoded.result = .ok stop → stop ≤ length →
        Interchangeable settings text (decoded.image.hexText length)) := by
  constructor
  · intro text other h
    exact interchangeable_of_sameContent h
  · intro hspace text stop length decoded hdecoded hlength
    exact interchangeable_of_sameContent (Image.sameContent_hexText hspace hdecoded hlength)

/-- A padded record in the place of a short one, and its hex text in the place of both. -/
theorem programming_depends_on_content_padded :
    let settings : Settings := ⟨8, 64, none⟩
    let text := ":0100020012EB\n"
    let padded := ":0300020012FFFFEB\n"
    let decoded := (Image.blank 8).decode padded 0
    let tape : Tape := ⟨Image.blank 20, 2⟩
    let left := Compiler.compileLine ⟨settings, fun _ => .ok text⟩ 1 tape
      "flash a.hex, 4, 0".toList
    let right := Compiler.compileLine ⟨settings, fun _ => .ok padded⟩ 1 tape
      "Flash b.hex, 0x4, 0 ; padded".toList
    SameContent settings.targetMemorySize text padded ∧ decoded.result = .ok 5 ∧
      left.tape = right.tape ∧ left.error? = none ∧ left.tape.position = 14 ∧
      Interchangeable settings padded (decoded.image.hexText 6) := by
  intro settings text padded decoded tape left right
  obtain ⟨hcontent, hencoded⟩ := programming_depends_on_content settings
  have hdecoded : decoded.result = .ok 5 := by decide +kernel
  have hleft : Programs ⟨settings, fun _ => .ok text⟩ "flash a.hex, 4, 0".toList .flash 4 0 text :=
    ⟨["a.hex".toList, " 4".toList, " 0".toList], "a.hex", by decide +kernel, by decide +kernel,
      by decide +kernel, by decide +kernel, rfl⟩
  have hright : Programs ⟨settings, fun _ => .ok padded⟩ "Flash b.hex, 0x4, 0 ; padded".toList
      .flash 4 0 padded :=
    ⟨["b.hex".toList, " 0x4".toList, " 0".toList], "b.hex", by decide +kernel, by decide +kernel,
      by decide +kernel, by decide +kernel, rfl⟩
  obtain ⟨htape, -, -, -⟩ := (hcontent text padded sameContent_padded).line _ _ 1 tape _ _ .flash 4 0
    hleft hright
  exact ⟨sameContent_padded, hdecoded, htape, by decide +kernel, by decide +kernel,
    hencoded (by decide) padded 5 6 hdecoded (by decide)⟩

end Compiler

end IspStream
