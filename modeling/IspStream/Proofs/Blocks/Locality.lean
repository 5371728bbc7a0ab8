import IspStream.Proofs.Blocks.Scan

/-!
# Splitting is local

Where two memories lie one behind the other with more than `bound` blank cells in between, the
blocks are those of the first memory and then those of the second one, moved to where it starts
(`blocks_gap_append`).  It does not matter on which side of the seam further blank cells stand.

A scan of the whole hands out the last block of the first memory from the middle of the gap,
whereas a scan of that memory alone does so at its end.  The proof avoids the comparison.  That
a block is complete says something about the data near it and nothing else, so a memory that
is `Isolated` in a greater one keeps its complete blocks, and an ascending list of them that
holds all data is the only one.
-/

namespace IspStream.Block

/-- A block that begins and ends later. -/
def shift (distance : Nat) (block : Block) : Block :=
  ⟨distance + block.first, distance + block.last⟩

/-- The data of a memory stands in a greater one, from a start on, and more than `bound` cells
away from all other data there. -/
structure Isolated (bound : Nat) (part whole : List UInt8) (start : Nat) : Prop where
  data : ∀ position, IsData part position → IsData whole (start + position)
  far : ∀ other, IsData whole other →
    (∃ position, IsData part position ∧ other = start + position) ∨
    ∀ position, IsData part position →
      other + bound + 1 < start + position ∨ start + position + bound + 1 < other

variable {bound gap start position : Nat} {first second part whole : List UInt8} {block : Block}

/-! ## Complete blocks of an isolated memory -/

theorem mem_shift : start + position ∈ block.shift start ↔ position ∈ block := by
  rw [mem_iff, mem_iff, shift]
  exact and_congr Nat.add_le_add_iff_left Nat.add_le_add_iff_left

/-- A complete block stays complete, since what is added lies too far away. -/
theorem Isolated.complete (h : Isolated bound part whole start)
    (hblock : Complete bound part block) : Complete bound whole (block.shift start) where
  first_le_last := Nat.add_le_add_left hblock.first_le_last start
  first_data := h.data _ hblock.first_data
  last_data := h.data _ hblock.last_data
  near := by
    intro window hlow hhigh
    simp only [shift] at hlow hhigh
    obtain ⟨data, hdata, hbehind, hwithin⟩ :=
      hblock.near (window - start) (by omega) (by omega)
    exact ⟨start + data, h.data data hdata, by omega, by omega⟩
  before := by
    intro other hother hlt
    simp only [shift] at hlt ⊢
    rcases h.far other hother with ⟨data, hdata, rfl⟩ | hfar
    · have := hblock.before data hdata (by omega)
      omega
    · have := hfar block.first hblock.first_data
      omega
  behind := by
    intro other hother hlt
    simp only [shift] at hlt ⊢
    rcases h.far other hother with ⟨data, hdata, rfl⟩ | hfar
    · have := hblock.behind data hdata (by omega)
      omega
    · have := hfar block.last hblock.last_data
      omega

/-! ## The two sides of a gap -/

theorem isData_append :
    IsData (first ++ second) position ↔
      IsData first position ∨ ∃ place, IsData second place ∧ position = first.length + place := by
  rcases Nat.lt_or_ge position first.length with hbefore | hbehind
  · rw [IsData, List.getElem?_append_left hbefore]
    refine (or_iff_left ?_).symm
    rintro ⟨place, -, rfl⟩
    omega
  · obtain ⟨place, rfl⟩ := Nat.exists_eq_add_of_le hbehind
    rw [IsData, List.getElem?_append_right hbehind, Nat.add_sub_cancel_left]
    constructor
    · exact fun hdata => Or.inr ⟨place, hdata, rfl⟩
    · rintro (hdata | ⟨other, hdata, hsame⟩)
      · have := hdata.lt_length
        omega
      · obtain rfl := Nat.add_left_cancel hsame
        exact hdata

theorem not_isData_replicate : ¬IsData (List.replicate gap blank) position := by
  rintro ⟨cell, hcell, hdata⟩
  exact hdata (List.mem_replicate.mp (List.mem_of_getElem? hcell)).2

/-- All data lies on one side of the gap or on the other. -/
theorem isData_gap_append :
    IsData (first ++ List.replicate gap blank ++ second) position ↔
      IsData first position ∨
        ∃ place, IsData second place ∧ position = first.length + gap + place := by
  rw [isData_append, isData_append, List.length_append, List.length_replicate]
  refine or_congr_left (or_iff_left ?_)
  rintro ⟨place, hdata, -⟩
  exact not_isData_replicate hdata

theorem isolated_first (second : List UInt8) (hgap : bound < gap) :
    Isolated bound first (first ++ List.replicate gap blank ++ second) 0 where
  data := fun position hdata => isData_gap_append.mpr (Or.inl (by rwa [Nat.zero_add]))
  far := by
    intro other hother
    rcases isData_gap_append.mp hother with hfirst | ⟨place, -, rfl⟩
    · exact Or.inl ⟨other, hfirst, (Nat.zero_add other).symm⟩
    · refine Or.inr fun position hdata => Or.inr ?_
      have := hdata.lt_length
      omega

theorem isolated_second (first : List UInt8) (hgap : bound < gap) :
    Isolated bound second (first ++ List.replicate gap blank ++ second) (first.length + gap) where
  data := fun position hdata => isData_gap_append.mpr (Or.inr ⟨position, hdata, rfl⟩)
  far := by
    intro other hother
    rcases isData_gap_append.mp hother with hfirst | hsecond
    · refine Or.inr fun position _ => Or.inl ?_
      have := hfirst.lt_length
      omega
    · exact Or.inl hsecond

/-- **Splitting is local.**  A gap of more than `bound` blank cells separates what is in front
of it from what is behind it: both have the blocks that they have by themselves. -/
theorem blocks_gap_append (bound gap : Nat) (first second : List UInt8) (hgap : bound < gap) :
    blocks bound (first ++ List.replicate gap blank ++ second) =
      blocks bound first ++ (blocks bound second).map (shift (first.length + gap)) := by
  have hfirst := partition_blocks bound first
  have hsecond := partition_blocks bound second
  refine (partition_blocks bound _).unique ⟨?_, ?_, ?_⟩
  · intro block hblock
    rcases List.mem_append.mp hblock with hleft | hright
    · have hcomplete := (isolated_first second hgap).complete (hfirst.complete block hleft)
      rwa [shift, Nat.zero_add, Nat.zero_add] at hcomplete
    · obtain ⟨original, hmem, rfl⟩ := List.mem_map.mp hright
      exact (isolated_second first hgap).complete (hsecond.complete original hmem)
  · intro position hdata
    rcases isData_gap_append.mp hdata with hleft | ⟨place, hright, rfl⟩
    · obtain ⟨block, hblock, hmem⟩ := hfirst.covers position hleft
      exact ⟨block, List.mem_append_left _ hblock, hmem⟩
    · obtain ⟨block, hblock, hmem⟩ := hsecond.covers place hright
      exact ⟨_, List.mem_append_right _ (List.mem_map_of_mem hblock), mem_shift.mpr hmem⟩
  · refine List.pairwise_append.mpr ⟨hfirst.ascending, ?_, ?_⟩
    · exact hsecond.ascending.map _ fun earlier later hlt => Nat.add_lt_add_left hlt _
    · intro earlier hearlier later hlater
      obtain ⟨original, -, rfl⟩ := List.mem_map.mp hlater
      have := (hfirst.complete earlier hearlier).last_data.lt_length
      simp only [shift]
      omega

/-- Blank cells on both sides of a gap of two cells. -/
theorem blocks_gap_append_two :
    1 < 2 ∧ blocks 1 [1, 0xFF] = [⟨0, 0⟩] ∧ blocks 1 [0xFF, 2, 0xFF, 3] = [⟨1, 3⟩] ∧
      blocks 1 ([1, 0xFF] ++ List.replicate 2 blank ++ [0xFF, 2, 0xFF, 3]) =
        [⟨0, 0⟩, ⟨5, 7⟩] := by
  have hfirst : blocks 1 [1, 0xFF] = [⟨0, 0⟩] := by decide +kernel
  have hsecond : blocks 1 [0xFF, 2, 0xFF, 3] = [⟨1, 3⟩] := by decide +kernel
  have hjoined := blocks_gap_append 1 2 [1, 0xFF] [0xFF, 2, 0xFF, 3] (by decide)
  rw [hfirst, hsecond] at hjoined
  exact ⟨by decide, hfirst, hsecond, hjoined⟩

end IspStream.Block
