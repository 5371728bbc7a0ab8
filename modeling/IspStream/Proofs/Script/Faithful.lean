import IspStream.Proofs.Script.Refinement
import IspStream.Proofs.Target.Replay

/-!
# Programming commands reproduce the file

A programming command is compiled into one transfer for each block of the file, and
replaying the transfers gives a memory that holds the decoded file at its start
address and is erased elsewhere (`program_reproduces`).  Splitting puts every cell
with data into some block, and behind the end that decoding reports there is no data,
so that it does no harm that splitting stops there.
-/

namespace IspStream.Compiler

open Script Transfer

variable {compiler : Compiler} {memory : Memory} {start pageSize : Int} {image : Image}

/-! ## Blocks as transfers -/

/-- The transfer for a block of an image. -/
def transfer (memory : Memory) (start pageSize : Int) (image : Image) (block : Block) :
    Transfer where
  opcode := programCode memory
  address := place start block.first
  length := UInt32.ofNat block.length
  pageSize := UInt16.ofInt pageSize
  payload := image.payload block

theorem bytes_transfer (block : Block) :
    (transfer memory start pageSize image block).bytes =
      denoteBlock memory start pageSize image block := by
  have hlength : bigEndian 4 (UInt32.ofNat block.length).toNat = bigEndian 4 block.length :=
    calc bigEndian 4 (UInt32.ofNat block.length).toNat
      _ = bigEndian 4 (block.length % 256 ^ 4) := congrArg (bigEndian 4) UInt32.toNat_ofNat'
      _ = bigEndian 4 block.length := bigEndian_mod 4 block.length
  rw [denoteBlock, word_four, word_two, word_natCast, ← hlength]
  rfl

theorem carries_transfer {stop bound : Nat} {block : Block} (hcapacity : image.capacity < 2 ^ 32)
    (h : block ∈ image.blocks stop bound) :
    Carries (programCode memory) start pageSize image block
      (transfer memory start pageSize image block) := by
  obtain ⟨hends, hinside⟩ := Image.inside_of_mem_blocks h
  have hlength := Image.length_payload h
  have hblock : block.length = block.last - block.first + 1 := rfl
  refine ⟨rfl, rfl, ?_, ?_, rfl, rfl, ?_, ?_⟩
  · change (UInt32.ofNat block.length).toNat = (image.payload block).length
    rw [UInt32.toNat_ofNat', Nat.mod_eq_of_lt (by omega), hlength]
  · change 1 ≤ (image.payload block).length
    omega
  · change (image.payload block).head? ≠ _
    rw [List.head?_eq_getElem?, Image.getElem?_payload, if_pos (by omega), Nat.add_zero]
    exact Image.first_ne_blank_of_mem_blocks h
  · change (image.payload block).getLast? ≠ _
    have hlast : block.first + (block.length - 1) = block.last := by omega
    rw [List.getLast?_eq_getElem?, hlength, Image.getElem?_payload, hlast, if_pos le_rfl]
    exact Image.last_ne_blank_of_mem_blocks h

/-! ## The whole file -/

/-- A programming command that denotes bytes denotes those of the blocks of its file. -/
theorem denoteCommand_program {texts : List (List Char)} {name text : String} {bytes : List UInt8}
    (hname : name? texts = some name) (hstart : value? texts 1 = some start)
    (hpage : value? texts 2 = some pageSize)
    (hread : compiler.read (compiler.resolve name) = .ok text)
    (h : compiler.denoteCommand (.program memory) texts = some bytes) :
    let loaded := (Image.blank compiler.settings.targetMemorySize).decode text 0
    ∃ stop, loaded.result = .ok stop ∧ bytes =
      (loaded.image.blocks stop (compiler.settings.bound pageSize.toNat)).flatMap
        (denoteBlock memory start pageSize loaded.image) := by
  rw [denoteCommand, hname, hstart, hpage] at h
  change compiler.denoteFile memory name start pageSize = some bytes at h
  rw [denoteFile, content?, hread] at h
  simp only at h ⊢
  cases hresult : ((Image.blank compiler.settings.targetMemorySize).decode text 0).result with
  | error error =>
      rw [hresult] at h
      cases h
  | ok stop =>
      rw [hresult] at h
      exact ⟨stop, rfl, (Option.some.inj h).symm⟩

/-- The blocks of a decoded file hold all its data, since none of it lies behind the
end that decoding reports. -/
theorem exists_block_of_data {text : String} {stop capacity index : Nat} (bound : Nat)
    (hdecode : ((Image.blank capacity).decode text 0).result = .ok stop)
    (himage : ((Image.blank capacity).decode text 0).image = image)
    (hindex : index < image.capacity) (hdata : image.get? index ≠ some blank) :
    ∃ block ∈ image.blocks stop bound, index ∈ block := by
  subst himage
  refine Image.exists_mem_blocks bound (Nat.lt_of_not_le fun hle => hdata ?_) hindex hdata
  exact Image.blankFrom_decode hdecode index hle hindex

/-- **A programming command reproduces the file.**  Whatever the start address, the
page size and the shortest gap are: the bytes between the two positions of the tape
are transfers for ascending blocks of the decoded file, and carrying these out on an
erased memory copies the file to its start address and does nothing else. -/
theorem program_reproduces (compiler : Compiler) (number : Nat) (tape : Tape) (line : List Char)
    (memory : Memory) (texts : List (List Char)) (name text : String) (start pageSize : Int)
    (hline : Line.parse line = .known (.program memory) texts)
    (hname : name? texts = some name) (hstart : value? texts 1 = some start)
    (hpage : value? texts 2 = some pageSize)
    (hread : compiler.read (compiler.resolve name) = .ok text)
    (hsize : compiler.settings.targetMemorySize < 2 ^ 32)
    (hcompiles : (compiler.compileLine number tape line).error? = none) :
    let image := ((Image.blank compiler.settings.targetMemorySize).decode text 0).image
    let after := (compiler.compileLine number tape line).tape
    image.capacity = compiler.settings.targetMemorySize ∧
    ∃ (blocks : List Block) (transfers : List Transfer),
      after.position = tape.position + (transfers.flatMap Transfer.bytes).length ∧
      after.image.slice tape.position after.position = transfers.flatMap Transfer.bytes ∧
      List.Forall₂ (Carries (programCode memory) start pageSize image) blocks transfers ∧
      (∀ block ∈ blocks, block.first ≤ block.last ∧ block.last < image.capacity) ∧
      blocks.Pairwise (fun earlier later => earlier.last < later.first) ∧
      Reproduces start image transfers ∧
      ((∀ index < image.capacity, image.get? index = some blank) → after = tape) := by
  obtain ⟨bytes, hdenotes, hroom⟩ := denotes_of_compileLine hcompiles
  obtain ⟨notices, hcompiled⟩ := compileLine_of_denotes number hdenotes hroom
  rw [denoteLine, hline] at hdenotes
  obtain ⟨stop, hdecode, hbytes⟩ := denoteCommand_program hname hstart hpage hread hdenotes
  have hcapacity := Image.capacity_decode_of_ok hdecode
  rw [Image.capacity_blank] at hcapacity
  intro image after
  have hafter : after = tape.write bytes := congrArg LineOutcome.tape hcompiled
  have hspace : image.capacity < 2 ^ 32 := hcapacity ▸ hsize
  -- the transfers are those for the blocks that splitting finds
  let blocks := image.blocks stop (compiler.settings.bound pageSize.toNat)
  let transfers := blocks.map (transfer memory start pageSize image)
  have htransfers : transfers.flatMap Transfer.bytes = bytes :=
    calc transfers.flatMap Transfer.bytes
      _ = blocks.flatMap fun block => (transfer memory start pageSize image block).bytes :=
        List.flatMap_map ..
      _ = blocks.flatMap (denoteBlock memory start pageSize image) :=
        List.flatMap_congr fun block _ => bytes_transfer block
      _ = bytes := hbytes.symm
  have hcarries : List.Forall₂ (Carries (programCode memory) start pageSize image) blocks
      transfers := by
    rw [List.forall₂_map_right_iff, List.forall₂_same]
    exact fun block hblock => carries_transfer hspace hblock
  refine ⟨hcapacity, blocks, transfers, ?_, ?_, hcarries, fun _ => Image.inside_of_mem_blocks,
    (Block.partition_blocks _ _).ascending, ?_, fun hblank => ?_⟩
  · rw [hafter, htransfers]
    rfl
  · rw [hafter, htransfers]
    exact Tape.slice_write hroom
  · refine reproduces_of_carries hcarries (Nat.le_of_lt hspace) (fun _ => Image.inside_of_mem_blocks) ?_
    exact fun index => exists_block_of_data _ hdecode rfl
  · have hnone : blocks = [] := Image.blocks_eq_nil_of_blank hblank
    rw [hafter, hbytes, show image.blocks stop _ = [] from hnone]
    rfl

/-- A file with two blocks, the first of which goes to an address below zero. -/
theorem program_reproduces_two_blocks :
    let text := ":0600000012FFFF3456FF61\n"
    let compiler : Compiler := ⟨⟨6, 1, none⟩, fun _ => .ok text⟩
    let image := ((Image.blank 6).decode text 0).image
    let outcome := compiler.compileLine 1 ⟨Image.blank 32, 2⟩ "flash a.hex, -2, 0".toList
    Line.parse "flash a.hex, -2, 0".toList =
        .known (.program .flash) ["a.hex".toList, " -2".toList, " 0".toList] ∧
      outcome.error? = none ∧ image.blocks 6 1 = [⟨0, 0⟩, ⟨3, 4⟩] ∧
      outcome.tape.image.slice 2 outcome.tape.position =
        [0x05, 0xFF, 0xFF, 0xFF, 0xFE, 0, 0, 0, 1, 0, 0, 0x12] ++
          [0x05, 0, 0, 0, 1, 0, 0, 0, 2, 0, 0, 0x34, 0x56] ∧
      ∃ (blocks : List Block) (transfers : List Transfer),
        outcome.tape.image.slice 2 outcome.tape.position = transfers.flatMap Transfer.bytes ∧
        List.Forall₂ (Carries 0x05 (-2) 0 image) blocks transfers ∧
        blocks.Pairwise (fun earlier later => earlier.last < later.first) ∧
        Reproduces (-2) image transfers := by
  intro text compiler image outcome
  have hline : Line.parse "flash a.hex, -2, 0".toList =
      .known (.program .flash) ["a.hex".toList, " -2".toList, " 0".toList] := by
    decide +kernel
  have hcompiles : outcome.error? = none := by
    decide +kernel
  obtain ⟨-, blocks, transfers, -, hemitted, hcarries, -, hascending, hreproduces, -⟩ :=
    program_reproduces compiler 1 ⟨Image.blank 32, 2⟩ "flash a.hex, -2, 0".toList .flash
      ["a.hex".toList, " -2".toList, " 0".toList] "a.hex" text (-2) 0 hline
      (by decide +kernel) (by decide +kernel) (by decide +kernel) rfl (by decide) hcompiles
  exact ⟨hline, hcompiles, by decide +kernel, by decide +kernel, blocks, transfers, hemitted,
    hcarries, hascending, hreproduces⟩

end IspStream.Compiler
