import IspStream.Proofs.Encoding.Writer
import IspStream.Proofs.Safety.Compiling
import IspStream.Proofs.Script.Size
import Mathlib.Algebra.Order.BigOperators.Group.List
import Mathlib.Algebra.Order.Group.Nat

/-!
# How many instructions there are to count

A programming command counts the instructions that it emits as a whole, and its counter ends
in front of 2^31.

* **Enough.**  A file has that many blocks only if blank runs of one cell separate them and
  the scratch image has almost 2^32 cells, and they are emitted as a whole only if there is
  room for twelve bytes each.  Whatever rules one of these out keeps the counter in its word
  (`affords_of_moderate`).
* **Not enough.**  The checkered image, in which every second cell holds data, shows that
  this is sharp: its file has as many blocks as there can be (`blocks_checkered`), and each of
  them takes an instruction of twelve bytes (`length_bytes_checkered`).
-/

namespace IspStream.Guarded

open Script Compiler

variable {compiler : Compiler} {tape : Tape} {line : List Char} {list : List Instruction}
  {memory : Memory} {start pageSize : Int} {image : Image} {stop bound count : Nat}

/-! ## Lengths -/

theorem length_flatMap_le {α β : Type} {list : List α} {pieces : α → List β} {most : Nat}
    (h : ∀ entry ∈ list, (pieces entry).length ≤ most) :
    (list.flatMap pieces).length ≤ list.length * most := by
  have hsum := (list.map fun entry => (pieces entry).length).sum_le_card_nsmul most
    (List.forall_mem_map.mpr h)
  rwa [List.length_map, ← List.length_flatMap] at hsum

theorem le_length_flatMap {α β : Type} {list : List α} {pieces : α → List β} {least : Nat}
    (h : ∀ entry ∈ list, least ≤ (pieces entry).length) :
    list.length * least ≤ (list.flatMap pieces).length := by
  have hsum := (list.map fun entry => (pieces entry).length).card_nsmul_le_sum least
    (List.forall_mem_map.mpr h)
  rwa [List.length_map, ← List.length_flatMap] at hsum

/-! ## Settings for which the counter is enough -/

/-- A line denotes one instruction at most, or those for the data of a decoded file. -/
theorem cases_of_lineInstructions (h : compiler.lineInstructions line = some list) :
    list.length ≤ 1 ∨
      ∃ (image : Image) (stop : Nat) (memory : Memory) (start pageSize : Int),
        image.capacity = compiler.settings.targetMemorySize ∧ stop ≤ greatestAddress + 1 ∧
          image.BlankFrom stop ∧
          list = imageInstructions compiler.settings memory start pageSize image := by
  rw [lineInstructions] at h
  cases hline : Line.parse line with
  | empty | unknown word =>
      rw [hline] at h
      cases h
      exact Or.inl (Nat.zero_le 1)
  | known command texts =>
      rw [hline] at h
      by_cases hprogram : ∃ memory, command = .program memory
      · obtain ⟨memory, rfl⟩ := hprogram
        simp only [commandInstructions, Option.bind_eq_bind, Option.bind_eq_some_iff] at h
        obtain ⟨name, -, start, -, pageSize, -, hfile⟩ := h
        obtain ⟨⟨image, stop⟩, hcontent, -⟩ := Option.bind_eq_some_iff.mp hfile
        obtain ⟨text, hread, hdecode, rfl⟩ := decoded_of_content? hcontent
        rw [fileInstructions_of_decode memory start pageSize hread hdecode] at hfile
        have hcapacity := Image.capacity_decode_of_ok hdecode
        rw [Image.capacity_blank] at hcapacity
        exact Or.inr ⟨_, stop, memory, start, pageSize, hcapacity, stop_le_of_decode hdecode,
          Image.blankFrom_decode hdecode, (Option.some.inj hfile).symm⟩
      · obtain ⟨instruction, rfl, -⟩ := eq_singleton_of_commandInstructions h
          fun memory hmemory => hprogram ⟨memory, hmemory⟩
        exact Or.inl (Nat.le_refl 1)

theorem length_imageInstructions (settings : Settings) (memory : Memory) (start pageSize : Int)
    (image : Image) :
    (imageInstructions settings memory start pageSize image).length =
      (image.blocks image.capacity (settings.bound pageSize.toNat)).length :=
  List.length_map ..

/-- An instruction for a block takes eleven bytes and those of the block. -/
theorem twelve_le_of_mem_imageInstructions {settings : Settings} {instruction : Instruction}
    (h : instruction ∈ imageInstructions settings memory start pageSize image) :
    12 ≤ instruction.bytes.length := by
  obtain ⟨block, hblock, rfl⟩ := List.mem_map.mp h
  rw [bytes_program hblock, length_denoteBlock hblock, Block.length]
  omega

/-- Room for instructions of twelve bytes is room for few of them. -/
theorem mul_length_le_of_hasRoom (hlist : ∀ instruction ∈ list, 12 ≤ instruction.bytes.length)
    (h : tape.HasRoom (list.flatMap Instruction.bytes)) :
    12 * list.length ≤ tape.image.capacity := by
  have hbytes : list.length * 12 ≤ (list.flatMap Instruction.bytes).length :=
    le_length_flatMap hlist
  rcases h with hnone | hfits
  · rw [hnone] at hbytes
    simp only [List.length_nil] at hbytes
    omega
  · unfold Tape.Fits at hfits
    omega

/-- Neither a long run of blank cells between two blocks nor a small image leaves room for too
many instructions. -/
theorem counts_of_moderate (h : compiler.lineInstructions line = some list)
    (hmoderate : 1 ≤ compiler.settings.minimumBound ∨
      compiler.settings.targetMemorySize + 2 ≤ 2 ^ 32 ∨
      tape.image.capacity < 12 * counterLimit) :
    Counts 0 tape list := by
  intro number hnumber hroom
  have hlimit : counterLimit = 2 ^ 31 := rfl
  obtain hone | ⟨image, stop, memory, start, pageSize, hcapacity, hstop, hblank, rfl⟩ :=
    cases_of_lineInstructions h
  · omega
  · have hbound : compiler.settings.minimumBound ≤ compiler.settings.bound pageSize.toNat :=
      Nat.le_max_left ..
    have hlength := length_imageInstructions compiler.settings memory start pageSize image
    rw [← hblank.blocks_eq (Image.blankFrom_capacity image)] at hlength
    unfold greatestAddress at hstop
    rcases hmoderate with hgap | hspace | hsmall
    · have hcount := mul_length_blocks_le image stop (hgap.trans hbound)
      omega
    · have hcount := mul_length_blocks_le image stop
        (Nat.zero_le (compiler.settings.bound pageSize.toNat))
      omega
    · have hwritten := mul_length_le_of_hasRoom (fun instruction hmem =>
        twelve_le_of_mem_imageInstructions (List.mem_of_mem_take hmem)) hroom
      rw [List.length_take, Nat.min_eq_left hnumber] at hwritten
      omega

/-- With such settings everything that compiling comes to is affordable. -/
theorem affords_of_moderate {lines : List (List Char)}
    (hspace : compiler.settings.targetMemorySize < lengthLimit)
    (hmoderate : 1 ≤ compiler.settings.minimumBound ∨
      compiler.settings.targetMemorySize + 2 ≤ 2 ^ 32 ∨
      tape.image.capacity < 12 * counterLimit) :
    Affords compiler lines tape := by
  intro done line rest bytes _ _ _
  refine ⟨fun command texts _ name _ _ => hspace, fun list hlist => counts_of_moderate hlist ?_⟩
  rwa [Tape.capacity_write]

/-! ## The checkered image -/

/-- An image in which every second cell holds data, from the first one on. -/
def checkered (count : Nat) : Image :=
  ⟨Array.ofFn fun cell : Fin (2 * count) => if cell.val % 2 = 0 then 0 else blank⟩

@[simp] theorem capacity_checkered (count : Nat) : (checkered count).capacity = 2 * count :=
  Array.size_ofFn

theorem get?_checkered (count address : Nat) :
    (checkered count).get? address =
      if address < 2 * count then some (if address % 2 = 0 then 0 else blank) else none := by
  rw [checkered, Image.get?, Array.getElem?_ofFn]
  split <;> rfl

theorem isData_checkered_iff (count position : Nat) :
    Block.IsData ((checkered count).slice 0 (2 * count)) position ↔
      position < 2 * count ∧ position % 2 = 0 := by
  rw [Image.isData_slice_iff, get?_checkered]
  constructor
  · rintro ⟨hinside, byte, hbyte, hdata⟩
    rw [if_pos hinside] at hbyte
    refine ⟨hinside, Classical.byContradiction fun hodd => hdata ?_⟩
    rw [← Option.some.inj hbyte, if_neg hodd]
  · rintro ⟨hinside, heven⟩
    rw [if_pos hinside, if_pos heven]
    exact ⟨hinside, 0, rfl, by decide⟩

/-- Every data cell of the checkered image is a block of its own. -/
theorem blocks_checkered (count : Nat) :
    (checkered count).blocks (checkered count).capacity 0 =
      (List.range count).map fun index => ⟨2 * index, 2 * index⟩ := by
  rw [capacity_checkered]
  refine (Block.partition_blocks 0 _).unique ⟨?_, ?_, ?_⟩
  · intro block hmem
    obtain ⟨index, hindex, rfl⟩ := List.mem_map.mp hmem
    rw [List.mem_range] at hindex
    have hdata : Block.IsData ((checkered count).slice 0 (2 * count)) (2 * index) :=
      (isData_checkered_iff count _).mpr ⟨by omega, by omega⟩
    refine ⟨⟨Nat.le_refl _, hdata, hdata, fun position hlow hhigh => ?_⟩, ?_, ?_⟩
    · exact ⟨2 * index, hdata, hhigh, hlow⟩
    · intro position hposition hbefore
      have := ((isData_checkered_iff count position).mp hposition).2
      simp only at hbefore ⊢
      omega
    · intro position hposition hbehind
      have := ((isData_checkered_iff count position).mp hposition).2
      simp only at hbehind ⊢
      omega
  · intro position hposition
    obtain ⟨hinside, heven⟩ := (isData_checkered_iff count position).mp hposition
    refine ⟨⟨2 * (position / 2), 2 * (position / 2)⟩, ?_, ?_⟩
    · exact List.mem_map.mpr ⟨position / 2, List.mem_range.mpr (by omega), rfl⟩
    · change 2 * (position / 2) ≤ position ∧ position ≤ 2 * (position / 2)
      omega
  · rw [List.pairwise_map]
    refine List.pairwise_lt_range.imp fun hlt => ?_
    simp only
    omega

/-- So each of them is programmed by an instruction of twelve bytes. -/
theorem length_bytes_checkered {settings : Settings} {instruction : Instruction}
    (hbound : settings.bound pageSize.toNat = 0)
    (h : instruction ∈ imageInstructions settings memory start pageSize (checkered count)) :
    instruction.bytes.length = 12 := by
  obtain ⟨block, hblock, rfl⟩ := List.mem_map.mp h
  rw [bytes_program hblock, length_denoteBlock hblock]
  rw [hbound, blocks_checkered] at hblock
  obtain ⟨index, -, rfl⟩ := List.mem_map.mp hblock
  rw [Block.length, Nat.sub_self]

/-- The checkered image as hex text is decoded into the checkered image. -/
theorem decode_checkered (hspace : 2 * count ≤ 2 ^ 32) :
    ∃ stop, ((Image.blank (2 * count)).decode
        ((checkered count).hexText (2 * count)) 0).result = .ok stop ∧
      ((Image.blank (2 * count)).decode ((checkered count).hexText (2 * count)) 0).image =
        checkered count := by
  have hall : 2 * count ≤ (checkered count).capacity := Nat.le_of_eq (capacity_checkered count).symm
  have hback := Image.restored_blank hspace hall
  rw [capacity_checkered] at hback
  obtain ⟨stop, hstop⟩ := hback.succeeds
  refine ⟨stop, hstop, Image.ext_get? fun cell => ?_⟩
  by_cases hcell : cell < 2 * count
  · have hread := Image.get?_decode_hexText_blank hspace hall (hcell.trans_le hall)
    rw [capacity_checkered, if_pos hcell] at hread
    exact hread
  · have houtside := hback.outside cell (Or.inr (by omega))
    rw [houtside, Image.get?_blank, get?_checkered, if_neg hcell, if_neg hcell]

/-! ## The size of a hex text -/

/-- Each chunk has two records at most. -/
theorem length_records_le (image : Image) (length : Nat) :
    (image.records length).length ≤ Image.chunkCount (min length image.capacity) * 2 + 1 := by
  have hchunk : ∀ index ∈ List.range (Image.chunkCount (min length image.capacity)),
      (Image.windowRecords index ++
        image.cellRecords (min length image.capacity) index).length ≤ 2 := by
    intro index _
    rw [Image.windowRecords, Image.cellRecords, List.length_append]
    split <;> split <;> simp only [List.length_nil, List.length_singleton] <;> omega
  have hchunks := length_flatMap_le hchunk
  rw [List.length_range] at hchunks
  rw [Image.records_eq, List.length_append, List.length_singleton]
  exact Nat.succ_le_succ hchunks

/-- The hex text of an image with addresses of 32 bits has room in the memory of a machine. -/
theorem indexed_hexText {length : Nat} (hspace : min length image.capacity ≤ 2 ^ 32) :
    Indexed (image.hexText length) := by
  have hline : ∀ record ∈ image.records length, (record.line ++ ['\n']).length ≤ 522 := by
    intro record hmem
    have hdata := Image.length_data_le_of_mem_records hmem
    rw [List.length_append, Record.length_line, List.length_singleton]
    omega
  have hsize : size (image.hexText length).toList = (image.hexText length).toList.length :=
    size_eq_length fun character hmem => utf8Size_of_ascii (Image.ascii_hexText hmem)
  have hlines := length_flatMap_le hline
  have hrecords := length_records_le image length
  have hchunks : Image.chunkCount (min length image.capacity) ≤ 2 ^ 32 := by
    simp only [Image.chunkCount, Image.chunkSize]
    omega
  have hlimit : wordLimit = 2 ^ 64 := rfl
  rw [Indexed, hsize, Image.toList_hexText, List.flatMap_map]
  omega

end IspStream.Guarded
