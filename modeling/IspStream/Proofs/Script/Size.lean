import IspStream.Proofs.Blocks.Merging
import IspStream.Proofs.Script.Content
import Mathlib.Data.Nat.Find

/-!
# The size of a programming command

Every block of a file costs eleven bytes besides its cells: opcode, address, length and page
size.  A gap that is left out has to make up for that, and it does as soon as it is longer
than ten cells.  So with a minimum bound of ten or more, splitting never makes the command
stream longer (`program_size`): what a command costs lies below the cost of one block for all
the data, and it falls with the page size, since a smaller page size means a smaller bound and
a greater bound merges blocks (`merged_blocks`).
-/

namespace IspStream

namespace Block

/-- The number of bytes for programming blocks. -/
def cost : List Block → Nat
  | [] => 0
  | block :: rest => 11 + block.length + cost rest

/-- Data lies at two positions, and none outside them. -/
structure Extent (cells : List UInt8) (first last : Nat) : Prop where
  first_data : IsData cells first
  last_data : IsData cells last
  between : ∀ position, IsData cells position → first ≤ position ∧ position ≤ last

/-- More than ten cells lie between two blocks. -/
def Distant (earlier later : Block) : Prop := earlier.last + 11 < later.first

variable {bound fine coarse : Nat} {cells : List UInt8} {group rest : List Block}
  {block whole : Block}

theorem cost_append (front rest : List Block) : cost (front ++ rest) = cost front + cost rest := by
  induction front with
  | nil => exact (Nat.zero_add _).symm
  | cons block more ih => rw [List.cons_append, cost, cost, ih, ← Nat.add_assoc]

/-! ## Distant blocks -/

/-- From the start of the first block to the end of the last one there are at least as many
cells as the blocks cost, but for the header of one block. -/
theorem cost_add_first_le (hends : ∀ block ∈ group, block.first ≤ block.last)
    (hgroup : group.IsChain Distant) :
    ∀ first ∈ group.head?, ∀ last ∈ group.getLast?, cost group + first.first ≤ last.last + 12 := by
  induction group with
  | nil => intro first hfirst; cases hfirst
  | cons one rest ih =>
      rintro first hfirst last hlast
      obtain rfl := Option.some.inj hfirst
      have hone := hends one List.mem_cons_self
      cases rest with
      | nil =>
          obtain rfl : one = last := Option.some.inj hlast
          rw [cost, cost, length]
          omega
      | cons next more =>
          obtain ⟨hgap, hrest⟩ := List.isChain_cons_cons.mp hgroup
          have hbehind := ih (fun block hmem => hends block (List.mem_cons_of_mem _ hmem)) hrest
            next rfl last (by rwa [List.getLast?_cons_cons] at hlast)
          rw [cost, length]
          unfold Distant at hgap
          omega

/-- Merging distant blocks makes them dearer. -/
theorem cost_le_of_spans (hends : ∀ block ∈ group, block.first ≤ block.last)
    (hgroup : group.IsChain Distant) (hspans : Spans group whole) :
    cost group ≤ 11 + whole.length := by
  obtain ⟨first, hfirst, hstart⟩ := Option.map_eq_some_iff.mp hspans.starts
  obtain ⟨last, hlast, hend⟩ := Option.map_eq_some_iff.mp hspans.ends
  have := cost_add_first_le hends hgroup first hfirst last hlast
  rw [length]
  omega

theorem cost_flatten_le {groups : List (List Block)} {wholes : List Block}
    (hspans : List.Forall₂ Spans groups wholes)
    (hends : ∀ block ∈ groups.flatten, block.first ≤ block.last)
    (hgroups : groups.flatten.IsChain Distant) : cost groups.flatten ≤ cost wholes := by
  induction hspans with
  | nil => exact Nat.le_refl 0
  | @cons group whole _ _ hone _ ih =>
      rw [List.flatten_cons] at hends hgroups
      have hfirst := cost_le_of_spans (fun block hmem => hends block (List.mem_append_left _ hmem))
        hgroups.left_of_append hone
      have hrest := ih (fun block hmem => hends block (List.mem_append_right _ hmem))
        hgroups.right_of_append
      rw [List.flatten_cons, cost_append, cost]
      omega

/-! ## The blocks of a memory -/

theorem first_le_last_of_mem_blocks (h : block ∈ blocks bound cells) : block.first ≤ block.last :=
  ((partition_blocks bound cells).complete block h).first_le_last

theorem isChain_distant_blocks (hbound : 10 ≤ bound) (cells : List UInt8) :
    (blocks bound cells).IsChain Distant := by
  refine (partition_blocks bound cells).splits.apart.imp ?_
  rintro earlier later ⟨count, hcount, hnext, -⟩
  unfold Distant
  omega

/-- A greater bound does not lower the cost. -/
theorem cost_blocks_le (hbound : 10 ≤ fine) (hle : fine ≤ coarse) (cells : List UInt8) :
    cost (blocks fine cells) ≤ cost (blocks coarse cells) := by
  obtain ⟨groups, hflatten, hspans, -, -⟩ :=
    ((partition_blocks fine cells).merged hle (partition_blocks coarse cells)).groups
  have hends : ∀ block ∈ groups.flatten, block.first ≤ block.last := by
    rw [hflatten]
    exact fun _ => first_le_last_of_mem_blocks
  have hdistant : groups.flatten.IsChain Distant := by
    rw [hflatten]
    exact isChain_distant_blocks hbound cells
  rw [← hflatten]
  exact cost_flatten_le hspans hends hdistant

/-- Splitting costs no more than one block for all the data. -/
theorem cost_blocks_le_extent {first last : Nat} (hbound : 10 ≤ bound)
    (h : Extent cells first last) : cost (blocks bound cells) ≤ 11 + (last - first + 1) := by
  have hpartition := partition_blocks bound cells
  have hnonempty : blocks bound cells ≠ [] := by
    obtain ⟨block, hmem, -⟩ := hpartition.covers first h.first_data
    exact List.ne_nil_of_mem hmem
  have hhead := hpartition.complete _ (List.head_mem hnonempty)
  have hlast := hpartition.complete _ (List.getLast_mem hnonempty)
  have := cost_add_first_le (fun _ => first_le_last_of_mem_blocks)
    (isChain_distant_blocks hbound cells) _ (List.head_mem_head? hnonempty) _
    (List.getLast_mem_getLast? hnonempty)
  have := (h.between _ hhead.first_data).1
  have := (h.between _ hlast.last_data).2
  omega

theorem exists_extent {position : Nat} (h : IsData cells position) :
    ∃ first last, Extent cells first last := by
  classical
  have hexists : ∃ position, IsData cells position := ⟨position, h⟩
  refine ⟨Nat.find hexists, Nat.findGreatest (IsData cells) cells.length, Nat.find_spec hexists,
    Nat.findGreatest_spec h.lt_length.le h, fun other hother => ⟨?_, ?_⟩⟩
  · exact Nat.find_min' hexists hother
  · exact Nat.le_findGreatest hother.lt_length.le hother

end Block

theorem Settings.bound_mono (settings : Settings) {one other : Nat} (h : one ≤ other) :
    settings.bound one ≤ settings.bound other := by
  unfold bound
  omega

namespace Compiler

open Script

/-- A line denotes one instruction for each block, and the bytes that these cost.  When it is
compiled, the tape moves on by as many. -/
structure Sized (compiler : Compiler) (line : List Char) (blocks : List Block) : Prop where
  instructions : ∃ list, compiler.lineInstructions line = some list ∧ list.length = blocks.length
  bytes : ∃ bytes, compiler.denoteLine line = some bytes ∧ bytes.length = Block.cost blocks
  moves : ∀ number tape, (compiler.compileLine number tape line).error? = none →
    (compiler.compileLine number tape line).tape.position = tape.position + Block.cost blocks

variable {compiler : Compiler} {line text : List Char} {memory : Memory} {start pageSize : Int}

/-- The bytes for a block are its cells and eleven others. -/
theorem length_denoteBlock {image : Image} {stop bound : Nat} {block : Block}
    (h : block ∈ image.blocks stop bound) :
    (denoteBlock memory start pageSize image block).length = 11 + block.length := by
  have hpayload := Image.length_payload h
  rw [Image.payload] at hpayload
  simp only [denoteBlock, word, List.length_append, List.length_singleton, length_bigEndian,
    hpayload]

theorem length_flatMap_denoteBlock {image : Image} {stop bound : Nat} {blocks : List Block}
    (h : ∀ block ∈ blocks, block ∈ image.blocks stop bound) :
    (blocks.flatMap (denoteBlock memory start pageSize image)).length = Block.cost blocks := by
  induction blocks with
  | nil => rfl
  | cons block rest ih =>
      rw [List.flatMap_cons, List.length_append, length_denoteBlock (h block List.mem_cons_self),
        ih fun other hother => h other (List.mem_cons_of_mem _ hother), Block.cost]

theorem sized_of_programs {text : String} {stop : Nat}
    (h : Programs compiler line memory start pageSize text)
    (hdecode : ((Image.blank compiler.settings.targetMemorySize).decode text 0).result = .ok stop) :
    Sized compiler line
      (((Image.blank compiler.settings.targetMemorySize).decode text 0).image.blocks stop
        (compiler.settings.bound pageSize.toNat)) := by
  obtain ⟨texts, name, hline, hread, hinstructions⟩ := h.exists_instructions
  have hlist := hinstructions.trans
    (fileInstructions_of_decode memory start pageSize hread hdecode)
  rw [(Image.blankFrom_decode hdecode).blocks_eq (Image.blankFrom_capacity _)]
  generalize ((Image.blank compiler.settings.targetMemorySize).decode text 0).image = image at hlist ⊢
  have hinstructionsLine : compiler.lineInstructions line =
      some (imageInstructions compiler.settings memory start pageSize image) := by
    rw [lineInstructions, hline]
    exact hlist
  have hbytes : compiler.denoteLine line =
      some (imageBytes compiler.settings memory start pageSize image) := by
    rw [← bytes_lineInstructions, hinstructionsLine, Option.map_some, bytes_imageInstructions]
  have hlength : (imageBytes compiler.settings memory start pageSize image).length =
      Block.cost (image.blocks image.capacity (compiler.settings.bound pageSize.toNat)) :=
    length_flatMap_denoteBlock fun _ hmem => hmem
  refine ⟨⟨_, hinstructionsLine, List.length_map ..⟩, ⟨_, hbytes, hlength⟩, ?_⟩
  intro number tape hcompiles
  obtain ⟨bytes, hdenotes, hroom⟩ := denotes_of_compileLine hcompiles
  obtain ⟨notices, hcompiled⟩ := compileLine_of_denotes number hdenotes hroom
  obtain rfl := Option.some.inj (hdenotes.symm.trans hbytes)
  rw [hcompiled, ← hlength]
  rfl

/-- **Splitting saves bytes.**  Let two lines program a memory with the content of the same
file, which holds data.  The one with the smaller page size denotes no fewer instructions and
no more bytes, and neither denotes more bytes than one block for all the data would take. -/
theorem program_size (compiler : Compiler) (line other : List Char) (memory otherMemory : Memory)
    (start otherStart pageSize otherSize : Int) (text : String) (stop index : Nat)
    (hminimum : 10 ≤ compiler.settings.minimumBound)
    (hline : Programs compiler line memory start pageSize text)
    (hother : Programs compiler other otherMemory otherStart otherSize text)
    (hdecode : ((Image.blank compiler.settings.targetMemorySize).decode text 0).result = .ok stop)
    (hdata : Block.IsData
      ((Image.blank compiler.settings.targetMemorySize).decode text 0).image.cells.toList index)
    (hle : pageSize ≤ otherSize) :
    let image := ((Image.blank compiler.settings.targetMemorySize).decode text 0).image
    let blocks := image.blocks stop (compiler.settings.bound pageSize.toNat)
    let others := image.blocks stop (compiler.settings.bound otherSize.toNat)
    Sized compiler line blocks ∧ Sized compiler other others ∧
      Block.cost blocks ≤ Block.cost others ∧ others.length ≤ blocks.length ∧
      ∃ first last, Block.Extent image.cells.toList first last ∧
        Block.cost others ≤ 11 + (last - first + 1) := by
  intro image blocks others
  have hbound : compiler.settings.bound pageSize.toNat ≤ compiler.settings.bound otherSize.toNat :=
    compiler.settings.bound_mono (Int.toNat_le_toNat hle)
  have hten : ∀ size, 10 ≤ compiler.settings.bound size :=
    fun size => hminimum.trans (Nat.le_max_left ..)
  have hall : ∀ position, Block.IsData (image.slice 0 stop) position ↔
      Block.IsData image.cells.toList position := by
    intro position
    rw [(Image.blankFrom_decode hdecode).isData_iff, Block.IsData, Array.getElem?_toList]
    rfl
  obtain ⟨first, last, hextent⟩ := Block.exists_extent hdata
  have hslice : Block.Extent (image.slice 0 stop) first last :=
    ⟨(hall _).mpr hextent.first_data, (hall _).mpr hextent.last_data,
      fun position hposition => hextent.between position ((hall position).mp hposition)⟩
  refine ⟨sized_of_programs hline hdecode, sized_of_programs hother hdecode, ?_, ?_,
    first, last, hextent, ?_⟩
  · exact Block.cost_blocks_le (hten _) hbound _
  · exact ((Block.partition_blocks _ _).merged hbound (Block.partition_blocks _ _)).length_le
  · exact Block.cost_blocks_le_extent (hten _) hslice

/-- Two cells with fifteen blank ones between them, which make one block for pages of eight
cells. -/
theorem program_size_two_cells :
    let text := ":01000000AA55\n:01001000AA45\n"
    let compiler : Compiler := ⟨⟨20, 10, none⟩, fun _ => .ok text⟩
    Sized compiler "flash a, 0, 0".toList [⟨0, 0⟩, ⟨16, 16⟩] ∧
      Sized compiler "eeprom a, 5, 8".toList [⟨0, 16⟩] ∧
      Block.cost [⟨0, 0⟩, ⟨16, 16⟩] = 24 ∧ Block.cost [⟨0, 16⟩] = 28 := by
  intro text compiler
  have hsize := program_size compiler "flash a, 0, 0".toList "eeprom a, 5, 8".toList .flash .eeprom
    0 5 0 8 text 17 0 (by decide)
    ⟨["a".toList, " 0".toList, " 0".toList], "a", by decide +kernel, by decide +kernel,
      by decide +kernel, by decide +kernel, rfl⟩
    ⟨["a".toList, " 5".toList, " 8".toList], "a", by decide +kernel, by decide +kernel,
      by decide +kernel, by decide +kernel, rfl⟩
    (by decide +kernel) ⟨0xAA, by decide +kernel, by decide⟩ (by decide)
  have hblocks : ((Image.blank 20).decode text 0).image.blocks 17 10 = [⟨0, 0⟩, ⟨16, 16⟩] := by
    decide +kernel
  have hothers : ((Image.blank 20).decode text 0).image.blocks 17 16 = [⟨0, 16⟩] := by
    decide +kernel
  exact ⟨hblocks ▸ hsize.1, hothers ▸ hsize.2.1, by decide, by decide⟩

end Compiler

end IspStream
