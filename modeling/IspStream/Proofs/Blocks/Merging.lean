import IspStream.Proofs.Blocks.Scan
import Mathlib.Algebra.BigOperators.Group.List.Basic

/-!
# Splitting with a greater bound

With a greater bound there are fewer blocks, and they are the old ones put together: where
no more blank cells than the greater bound lie between two neighbours, these are merged, and
everywhere else they stay apart (`merged_blocks`).

Nothing here follows a scan.  The blocks for either bound are a `Partition`, and a block
for the smaller bound is dense for the greater one too.  So it lies within a block for the
greater bound as soon as it has a cell in common with one (`Dense.within`), which its first
cell sees to.  The blocks within one and the same block form its group.
-/

namespace IspStream.Block

/-! ## Blocks within blocks -/

/-- A block lies within another one. -/
def Within (part whole : Block) : Prop := whole.first ≤ part.first ∧ part.last ≤ whole.last

instance (part whole : Block) : Decidable (part.Within whole) :=
  inferInstanceAs (Decidable (_ ∧ _))

/-- Between two blocks there are only blank cells, and as many as are allowed. -/
def Apart (cells : List UInt8) (allowed : Nat → Prop) (earlier later : Block) : Prop :=
  ∃ count, allowed count ∧ earlier.last + 1 + count = later.first ∧
    BlankRun cells (earlier.last + 1) count

/-- A block reaches from the start of the first block of a group to the end of the last one. -/
structure Spans (group : List Block) (block : Block) : Prop where
  starts : group.head?.map Block.first = some block.first
  ends : group.getLast?.map Block.last = some block.last

/-- Some blocks are others with neighbours merged, exactly where at most `bound` blank cells
lie between them. -/
structure Merged (bound : Nat) (cells : List UInt8) (parts wholes : List Block) : Prop where
  /-- Every block has gone into one of the merged ones. -/
  within : ∀ part ∈ parts, ∃! whole, whole ∈ wholes ∧ part.Within whole
  /-- The merged blocks are the spans of groups of neighbours.  The groups are one behind the
  other all the blocks, with short gaps inside a group and long ones from group to group. -/
  groups : ∃ groups : List (List Block), groups.flatten = parts ∧
    List.Forall₂ Spans groups wholes ∧
    (∀ group ∈ groups, group.IsChain (Apart cells (· ≤ bound))) ∧
    groups.IsChain fun earlier later =>
      ∀ one ∈ earlier.getLast?, ∀ other ∈ later.head?, Apart cells (bound < ·) one other
  /-- Merging leaves no more blocks than there were. -/
  length_le : wholes.length ≤ parts.length

variable {fine coarse : Nat} {cells : List UInt8} {parts wholes : List Block}
  {part whole : Block}

theorem Dense.within {position : Nat} (hpart : Dense coarse cells part)
    (hwhole : Complete coarse cells whole) (hmem : position ∈ part) (hshared : position ∈ whole) :
    part.Within whole :=
  ⟨hpart.first_le hwhole hmem hshared, hpart.le_last hwhole hmem hshared⟩

/-- A block goes into the one that holds its first cell, and into no other. -/
theorem Partition.existsUnique_within (h : Partition coarse cells wholes) (hle : fine ≤ coarse)
    (hpart : Dense fine cells part) : ∃! whole, whole ∈ wholes ∧ part.Within whole := by
  have hstart : part.first ∈ part := ⟨le_rfl, hpart.first_le_last⟩
  obtain ⟨whole, hwhole, hshared⟩ := h.covers part.first hpart.first_data
  refine ⟨whole, ⟨hwhole, (hpart.mono hle).within (h.complete whole hwhole) hstart hshared⟩, ?_⟩
  rintro other ⟨hother, hwithin⟩
  exact (h.complete other hother).eq_of_mem (h.complete whole hwhole)
    ⟨hwithin.1, hpart.first_le_last.trans hwithin.2⟩ hshared

/-! ## Groups -/

/-- The blocks that lie within a block. -/
def group (parts : List Block) (whole : Block) : List Block := parts.filter (·.Within whole)

theorem mem_group : part ∈ group parts whole ↔ part ∈ parts ∧ part.Within whole := by
  simp [group]

section

variable (hle : fine ≤ coarse) (hparts : Partition fine cells parts)
  (hwholes : Partition coarse cells wholes)

include hle hparts hwholes

/-- The groups are one behind the other all the blocks. -/
theorem flatten_groups : (wholes.map (group parts)).flatten = parts := by
  have hmem : ∀ part, part ∈ (wholes.map (group parts)).flatten ↔ part ∈ parts := by
    intro part
    rw [List.mem_flatten]
    constructor
    · rintro ⟨list, hlist, hpart⟩
      obtain ⟨whole, -, rfl⟩ := List.mem_map.mp hlist
      exact (mem_group.mp hpart).1
    · intro hpart
      obtain ⟨whole, ⟨hwhole, hwithin⟩, -⟩ :=
        hwholes.existsUnique_within hle (hparts.complete part hpart).toDense
      exact ⟨_, List.mem_map_of_mem hwhole, mem_group.mpr ⟨hpart, hwithin⟩⟩
  refine eq_of_ascending (fun part hpart => ?_) hmem ?_ hparts.ascending
  · exact (hparts.complete part ((hmem part).mp hpart)).first_le_last
  · rw [List.pairwise_flatten, List.forall_mem_map, List.pairwise_map]
    refine ⟨fun whole _ => hparts.ascending.filter _, hwholes.ascending.imp ?_⟩
    intro earlier later hlt one hone other hother
    have hbefore := (mem_group.mp hone).2
    have hbehind := (mem_group.mp hother).2
    exact hbefore.2.trans_lt (hlt.trans_le hbehind.1)

/-- Data in a block belongs to a block of its group. -/
theorem exists_mem_group {position : Nat} (hwhole : whole ∈ wholes)
    (hdata : IsData cells position) (hmem : position ∈ whole) :
    ∃ part ∈ group parts whole, position ∈ part := by
  obtain ⟨part, hpart, hposition⟩ := hparts.covers position hdata
  have hwithin := ((hparts.complete part hpart).toDense.mono hle).within
    (hwholes.complete whole hwhole) hposition hmem
  exact ⟨part, mem_group.mpr ⟨hpart, hwithin⟩, hposition⟩

theorem spans_group (hwhole : whole ∈ wholes) : Spans (group parts whole) whole := by
  have hcomplete := hwholes.complete whole hwhole
  have hascending : (group parts whole).Pairwise fun earlier later => earlier.last < later.first :=
    hparts.ascending.filter _
  have hends : ∀ part ∈ group parts whole,
      whole.first ≤ part.first ∧ part.first ≤ part.last ∧ part.last ≤ whole.last := by
    intro part hpart
    obtain ⟨hmem, hwithin⟩ := mem_group.mp hpart
    exact ⟨hwithin.1, (hparts.complete part hmem).first_le_last, hwithin.2⟩
  constructor
  · obtain ⟨part, hpart, hfirst, -⟩ := exists_mem_group hle hparts hwholes hwhole
      hcomplete.first_data ⟨le_rfl, hcomplete.first_le_last⟩
    -- no block of the group ends in front of the one with the first cell
    cases hgroup : group parts whole with
    | nil => rw [hgroup] at hpart; cases hpart
    | cons head rest =>
        rw [hgroup] at hpart hascending hends
        have hhead := hends head List.mem_cons_self
        have hstart := hends part hpart
        rcases List.mem_cons.mp hpart with rfl | hrest
        · exact congrArg some (by omega)
        · have := (List.pairwise_cons.mp hascending).1 part hrest
          omega
  · obtain ⟨part, hpart, -, hlast⟩ := exists_mem_group hle hparts hwholes hwhole
      hcomplete.last_data ⟨hcomplete.first_le_last, le_rfl⟩
    rcases List.eq_nil_or_concat (group parts whole) with hnone | ⟨front, last, hgroup⟩
    · rw [hnone] at hpart
      cases hpart
    · rw [List.concat_eq_append] at hgroup
      rw [hgroup] at hpart hascending hends ⊢
      have hend := hends last (by simp)
      have hstart := hends part hpart
      rw [List.getLast?_concat]
      rcases List.mem_append.mp hpart with hfront | hsame
      · have := (List.pairwise_append.mp hascending).2.2 part hfront last (by simp)
        omega
      · obtain rfl := List.mem_singleton.mp hsame
        exact congrArg some (by omega)

theorem nil_notMem_groups : [] ∉ wholes.map (group parts) := by
  intro hnone
  obtain ⟨whole, hwhole, hgroup⟩ := List.mem_map.mp hnone
  have hspans := spans_group hle hparts hwholes hwhole
  rw [hgroup] at hspans
  cases hspans.starts

/-- Inside a group no gap is longer than the greater bound, because it lies in a block for
that bound. -/
theorem isChain_group (hwhole : whole ∈ wholes) :
    (group parts whole).IsChain (Apart cells (· ≤ coarse)) := by
  have hapart : (wholes.map (group parts)).flatten.IsChain (Apart cells (fine < ·)) :=
    (flatten_groups hle hparts hwholes).symm ▸ hparts.splits.apart
  have hgroup := ((List.isChain_flatten (nil_notMem_groups hle hparts hwholes)).mp hapart).1 _
    (List.mem_map_of_mem hwhole)
  refine hgroup.imp_of_mem_imp fun earlier later hearlier hlater => ?_
  rintro ⟨count, -, hnext, hblank⟩
  obtain ⟨hmem, hbefore⟩ := mem_group.mp hearlier
  have hbehind := (mem_group.mp hlater).2
  have hlong := (hparts.complete earlier hmem).first_le_last
  have hshort := (hparts.complete later (mem_group.mp hlater).1).first_le_last
  obtain ⟨hfirst, -⟩ := hbefore
  obtain ⟨-, hlast⟩ := hbehind
  exact ⟨count, hwholes.splits.gaps whole hwhole _ count (by omega) (by omega) hblank, hnext, hblank⟩

/-- From group to group the gaps are those between the blocks for the greater bound. -/
theorem isChain_groups : (wholes.map (group parts)).IsChain fun earlier later =>
    ∀ one ∈ earlier.getLast?, ∀ other ∈ later.head?, Apart cells (coarse < ·) one other := by
  rw [List.isChain_map]
  have hapart : wholes.IsChain (Apart cells (coarse < ·)) := hwholes.splits.apart
  refine hapart.imp_of_mem_imp fun earlier later hearlier hlater hgap one hone other hother => ?_
  have hends := (spans_group hle hparts hwholes hearlier).ends
  have hstarts := (spans_group hle hparts hwholes hlater).starts
  rw [Option.mem_def.mp hone] at hends
  rw [Option.mem_def.mp hother] at hstarts
  obtain ⟨count, hlong, hnext, hblank⟩ := hgap
  rw [← Option.some.inj hends, ← Option.some.inj hstarts] at hnext
  rw [← Option.some.inj hends] at hblank
  exact ⟨count, hlong, hnext, hblank⟩

theorem Partition.merged : Merged coarse cells parts wholes where
  within := fun part hpart =>
    hwholes.existsUnique_within hle (hparts.complete part hpart).toDense
  groups := by
    refine ⟨wholes.map (group parts), flatten_groups hle hparts hwholes, ?_, ?_,
      isChain_groups hle hparts hwholes⟩
    · rw [List.forall₂_map_left_iff, List.forall₂_same]
      exact fun whole hwhole => spans_group hle hparts hwholes hwhole
    · rw [List.forall_mem_map]
      exact fun whole hwhole => isChain_group hle hparts hwholes hwhole
  length_le := by
    have hnonempty := nil_notMem_groups hle hparts hwholes
    calc wholes.length
      _ = ((wholes.map (group parts)).map List.length).length := by simp
      _ ≤ ((wholes.map (group parts)).map List.length).sum := by
        refine List.length_le_sum_of_one_le _ fun size hsize => ?_
        obtain ⟨list, hlist, rfl⟩ := List.mem_map.mp hsize
        exact List.length_pos_of_ne_nil fun hnil => hnonempty (hnil ▸ hlist)
      _ = parts.length := by rw [← List.length_flatten, flatten_groups hle hparts hwholes]

end

/-- **A greater bound merges blocks.**  The blocks of the first `length` cells of a buffer for
one bound are those for a smaller bound, merged exactly where the greater bound allows it. -/
theorem merged_blocks (buffer : List UInt8) (length : Nat) (hle : fine ≤ coarse) :
    Merged coarse (buffer.take length) (blocks fine (buffer.take length))
      (blocks coarse (buffer.take length)) :=
  (partition_blocks fine _).merged hle (partition_blocks coarse _)

/-- Of three blocks the first two are merged. -/
theorem merged_blocks_three :
    0 ≤ 1 ∧ blocks 0 [1, 0xFF, 2, 0xFF, 0xFF, 3] = [⟨0, 0⟩, ⟨2, 2⟩, ⟨5, 5⟩] ∧
      blocks 1 [1, 0xFF, 2, 0xFF, 0xFF, 3] = [⟨0, 2⟩, ⟨5, 5⟩] ∧
      Merged 1 [1, 0xFF, 2, 0xFF, 0xFF, 3] [⟨0, 0⟩, ⟨2, 2⟩, ⟨5, 5⟩] [⟨0, 2⟩, ⟨5, 5⟩] := by
  have hfine : blocks 0 [1, 0xFF, 2, 0xFF, 0xFF, 3] = [⟨0, 0⟩, ⟨2, 2⟩, ⟨5, 5⟩] := by decide +kernel
  have hcoarse : blocks 1 [1, 0xFF, 2, 0xFF, 0xFF, 3] = [⟨0, 2⟩, ⟨5, 5⟩] := by decide +kernel
  have hmerged := merged_blocks [1, 0xFF, 2, 0xFF, 0xFF, 3] 6 (show 0 ≤ 1 by decide)
  rw [List.take_of_length_le (by decide), hfine, hcoarse] at hmerged
  exact ⟨by decide, hfine, hcoarse, hmerged⟩

end IspStream.Block
