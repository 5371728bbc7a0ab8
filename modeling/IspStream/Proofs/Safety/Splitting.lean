import IspStream.Proofs.Blocks.Payload
import IspStream.Proofs.Safety.Operations

/-!
# Splitting without a hazard

Splitting goes through a buffer with an index, and subtracts from it the end of the open
block.  The index is inside the buffer while the scan goes on, and the open block has ended
in front of it: this is all that the guarded scan needs (`advance_eq`).  The ends of a
finished block lie in order and inside the buffer, which makes its length and its payload
safe (`length_eq`, `payload_eq`).

Two blocks are more than the bound apart, so that there is no more than one block for every
`bound + 2` cells or so (`mul_length_blocks_le`).
-/

namespace IspStream.Guarded

open Block (Scan)

variable {buffer : List UInt8} {bound position stop : Nat} {opened : Option Block} {block : Block}
  {image : Image}

/-! ## Guarded splitting -/

/-- The open block behind the cell at a position, and whether that cell ends it. -/
def visit (buffer : List UInt8) (bound position : Nat) (opened : Option Block) :
    Checked (Option Block × Bool) := do
  let cell ← index buffer position
  if cell = blank then
    match opened with
    | none => return (none, false)
    | some block =>
      let distance ← subtract position block.last
      return (some block, decide (bound < distance))
  else return (some (Block.extend opened position), false)

/-- Goes on until the open block is complete.  The second part of the answer is the
position where this was noticed. -/
def advance (buffer : List UInt8) (bound position : Nat) (opened : Option Block) :
    Checked (Option Block × Nat) :=
  if position < buffer.length then
    match visit buffer bound position opened with
    | .error hazard => .error hazard
    | .ok (opened, true) => .ok (opened, position)
    | .ok (opened, false) =>
      match h : add position 1 with
      | .error hazard => .error hazard
      | .ok next =>
        have : next = position + 1 := eq_of_add h
        advance buffer bound next opened
  else .ok (opened, position)
termination_by buffer.length - position

/-- No cell ends a block that is not open. -/
theorem ne_none_of_visit {after : Option Block}
    (h : visit buffer bound position opened = .ok (after, true)) : opened ≠ none := by
  rintro rfl
  unfold visit at h
  cases hcell : index buffer position with
  | error hazard =>
      rw [hcell] at h
      cases h
  | ok cell =>
      simp only [hcell, bind, Except.bind] at h
      split at h <;> cases h

theorem le_of_advance {found : Option Block} {next : Nat}
    (h : advance buffer bound position opened = .ok (found, next)) :
    position ≤ next ∧ (opened = none → found ≠ none → position < next ∧ position < buffer.length) := by
  fun_induction advance buffer bound position opened with
  | case1 => cases h
  | case2 position opened _ after hvisit =>
      cases h
      exact ⟨Nat.le_refl _, fun hnone => absurd hnone (ne_none_of_visit hvisit)⟩
  | case3 => cases h
  | case4 position opened hinside after hvisit hnext ih =>
      have hle := (ih h).1
      exact ⟨by omega, fun _ _ => ⟨by omega, hinside⟩⟩
  | case5 position opened =>
      cases h
      exact ⟨Nat.le_refl _, fun hnone hsome => absurd hnone hsome⟩

/-- Only a data cell opens a block, so that a call that finds one has moved on. -/
theorem lt_of_advance {next : Nat}
    (h : advance buffer bound position none = .ok (some block, next)) :
    position < next ∧ position < buffer.length :=
  (le_of_advance h).2 rfl (Option.some_ne_none block)

/-- All blocks from a position on. -/
def run (buffer : List UInt8) (bound position : Nat) : Checked (List Block) :=
  match h : advance buffer bound position none with
  | .error hazard => .error hazard
  | .ok (none, _) => .ok []
  | .ok (some block, next) => do
    have := lt_of_advance h
    let blocks ← run buffer bound next
    return block :: blocks
termination_by buffer.length - position

/-- The blocks of the first `length` cells. -/
def blocks (cells : List UInt8) (length bound : Nat) : Checked (List Block) := do
  let buffer ← slice cells 0 (min length cells.length)
  run buffer bound 0

def length (block : Block) : Checked Nat := do
  let distance ← subtract block.last block.first
  add distance 1

def payload (cells : List UInt8) (block : Block) : Checked (List UInt8) := do
  let stop ← add block.last 1
  slice cells block.first stop

/-! ## The scan -/

/-- The open block ends in front of the position. -/
def Behind (position : Nat) (opened : Option Block) : Prop :=
  ∀ block, opened = some block → block.last < position

/-- A visit takes the step of the scan. -/
theorem visit_eq {cell : UInt8} (hcell : buffer[position]? = some cell)
    (hopened : Behind position opened) :
    visit buffer bound position opened =
      .ok (if cell = blank then (opened, Block.closesAt bound position opened)
        else (some (Block.extend opened position), false)) := by
  unfold visit
  simp only [index_eq hcell, bind, Except.bind]
  split
  · cases opened with
    | none => rfl
    | some block =>
        simp only [subtract_eq (Nat.le_of_lt (hopened block rfl))]
        rfl
  · rfl

theorem advance_of_closed {after : Option Block} (hinside : position < buffer.length)
    (hvisit : visit buffer bound position opened = .ok (after, true)) :
    advance buffer bound position opened = .ok (after, position) := by
  rw [advance, if_pos hinside, hvisit]

theorem advance_of_open {after : Option Block} (hlimit : buffer.length < wordLimit)
    (hinside : position < buffer.length)
    (hvisit : visit buffer bound position opened = .ok (after, false)) :
    advance buffer bound position opened = advance buffer bound (position + 1) after := by
  have hadd : add position 1 = .ok (position + 1) := add_eq (by omega)
  rw [advance, if_pos hinside, hvisit]
  simp only
  split
  · rename_i heq
    rw [hadd] at heq
    cases heq
  · rename_i heq
    rw [hadd] at heq
    cases heq
    rfl

/-- A guarded call is a call of the scan. -/
theorem advance_eq (bound : Nat) (hlimit : buffer.length < wordLimit)
    (hopened : Behind position opened) :
    ∃ found next, advance buffer bound position opened = .ok (found, next) ∧
      Scan.advance bound (buffer.drop position) position opened =
        (found, ⟨buffer.drop next, next⟩) := by
  generalize hcells : buffer.drop position = cells
  induction cells generalizing position opened with
  | nil =>
      have hend : ¬position < buffer.length := Nat.not_lt.mpr (List.drop_eq_nil_iff.mp hcells)
      rw [advance, if_neg hend]
      exact ⟨opened, position, rfl, by rw [hcells]; rfl⟩
  | cons cell rest ih =>
      have hinside : position < buffer.length := by
        have := congrArg List.length hcells
        rw [List.length_drop, List.length_cons] at this
        omega
      have hcell : buffer[position]? = some cell := by
        rw [← List.head?_drop, hcells, List.head?_cons]
      have hrest : buffer.drop (position + 1) = rest := by
        rw [← List.tail_drop, hcells, List.tail_cons]
      have hvisit : visit buffer bound position opened = .ok _ := visit_eq hcell hopened
      rw [Scan.advance]
      by_cases hblank : cell = blank
      · rw [if_pos hblank] at hvisit ⊢
        by_cases hclosed : Block.closesAt bound position opened = true
        · rw [hclosed] at hvisit
          rw [if_pos hclosed, advance_of_closed hinside hvisit]
          exact ⟨opened, position, rfl, by rw [hcells]⟩
        · rw [Bool.not_eq_true] at hclosed
          rw [hclosed] at hvisit
          rw [hclosed, if_neg Bool.false_ne_true, advance_of_open hlimit hinside hvisit]
          exact ih (fun block hblock => Nat.lt_succ_of_lt (hopened block hblock)) hrest
      · rw [if_neg hblank] at hvisit ⊢
        rw [advance_of_open hlimit hinside hvisit]
        refine ih ?_ hrest
        rintro _ ⟨⟩
        cases opened <;> exact Nat.lt_succ_self position

theorem run_of_advance_none {next : Nat}
    (h : advance buffer bound position none = .ok (none, next)) :
    run buffer bound position = .ok [] := by
  rw [run]
  split <;> simp_all

theorem run_of_advance_some {next : Nat}
    (h : advance buffer bound position none = .ok (some block, next)) :
    run buffer bound position = (run buffer bound next).map (block :: ·) := by
  rw [run]
  split
  · simp_all
  · simp_all
  · rename_i heq
    rw [h] at heq
    cases heq
    rfl

/-- The guarded calls hand out the blocks of the scan. -/
theorem run_eq (hlimit : buffer.length < wordLimit) (scan : Scan)
    (hscan : scan.cells = buffer.drop scan.position) :
    run buffer bound scan.position = .ok (scan.run bound).1 := by
  induction hsize : scan.cells.length using Nat.strong_induction_on generalizing scan with
  | _ size ih =>
      have hopened : Behind scan.position none := by
        rintro block ⟨⟩
      obtain ⟨found, next, hadvance, hnext⟩ := advance_eq bound hlimit hopened
      rw [← hscan] at hnext
      change scan.next bound = _ at hnext
      cases found with
      | none => rw [run_of_advance_none hadvance, Scan.run_of_none hnext]
      | some block =>
          have hless := Scan.length_next_lt hnext
          rw [hsize] at hless
          rw [run_of_advance_some hadvance, Scan.run_of_some hnext, ih _ hless ⟨_, next⟩ rfl rfl]
          rfl

/-- Splitting meets no hazard. -/
theorem blocks_eq (h : image.capacity < wordLimit) (stop bound : Nat) :
    blocks image.cells.toList stop bound = .ok (image.blocks stop bound) := by
  have hle : min stop image.cells.toList.length ≤ image.cells.toList.length := Nat.min_le_right ..
  have hbuffer : image.cells.toList.extract 0 (min stop image.cells.toList.length) =
      image.slice 0 stop := by
    rw [Image.slice, Array.toList_extract, List.extract_eq_take_drop, List.extract_eq_take_drop,
      Nat.sub_zero, Nat.sub_zero]
    exact List.take_eq_take_iff.mpr (by rw [List.drop_zero]; omega)
  have hlength : (image.slice 0 stop).length < wordLimit := by
    rw [Image.length_slice]
    omega
  rw [blocks, slice_eq (Nat.zero_le _) hle, hbuffer]
  exact run_eq hlength (Scan.start (image.slice 0 stop)) rfl

/-! ## Finished blocks -/

theorem length_eq (h : image.capacity < wordLimit) (hmem : block ∈ image.blocks stop bound) :
    length block = .ok block.length := by
  obtain ⟨hends, hinside⟩ := Image.inside_of_mem_blocks hmem
  rw [length, subtract_eq hends]
  exact add_eq (by omega)

theorem payload_eq (h : image.capacity < wordLimit) (hmem : block ∈ image.blocks stop bound) :
    payload image.cells.toList block = .ok (image.payload block) := by
  obtain ⟨hends, hinside⟩ := Image.inside_of_mem_blocks hmem
  have hadd : add block.last 1 = .ok (block.last + 1) := add_eq (by omega)
  rw [payload, hadd]
  change slice image.cells.toList block.first (block.last + 1) = _
  rw [slice_eq (by omega) hinside, ← Array.toList_extract]
  rfl

/-! ## The number of blocks -/

/-- Blocks that are more than `gap` cells apart take `gap + 2` cells each, apart from the last
one. -/
theorem mul_length_le {blocks : List Block} {start count gap : Nat}
    (hstart : start ≤ count + gap + 1)
    (hfirst : ∀ block ∈ blocks.head?, start ≤ block.first)
    (hinside : ∀ block ∈ blocks, block.first ≤ block.last ∧ block.last < count)
    (hapart : blocks.IsChain fun earlier later => earlier.last + gap + 2 ≤ later.first) :
    start + (gap + 2) * blocks.length ≤ count + gap + 1 := by
  induction blocks generalizing start with
  | nil => simpa using hstart
  | cons block rest ih =>
      obtain ⟨⟨hends, hlast⟩, hrest⟩ := List.forall_mem_cons.mp hinside
      obtain ⟨hnext, hchain⟩ := List.isChain_cons.mp hapart
      have hblock : start ≤ block.first := hfirst block rfl
      have hmore : block.last + gap + 2 + (gap + 2) * rest.length ≤ count + gap + 1 :=
        ih (by omega) hnext hrest hchain
      rw [List.length_cons, Nat.mul_succ]
      omega

/-- The number of blocks is bounded by the number of cells, the better the greater the bound
is. -/
theorem mul_length_blocks_le (image : Image) (stop : Nat) {gap bound : Nat} (hgap : gap ≤ bound) :
    (gap + 2) * (image.blocks stop bound).length ≤ min stop image.capacity + gap + 1 := by
  have hsplits := (Block.partition_blocks bound (image.slice 0 stop)).splits
  have hapart : (image.blocks stop bound).IsChain
      fun earlier later => earlier.last + gap + 2 ≤ later.first := by
    refine hsplits.apart.imp ?_
    rintro earlier later ⟨count, hcount, hfirst, -⟩
    omega
  have hinside : ∀ block ∈ image.blocks stop bound,
      block.first ≤ block.last ∧ block.last < min stop image.capacity := by
    intro block hmem
    obtain ⟨hends, hlast⟩ := hsplits.inside block hmem
    rw [Image.length_slice] at hlast
    exact ⟨hends, hlast⟩
  have hcount := mul_length_le (Nat.zero_le _) (fun _ _ => Nat.zero_le _) hinside hapart
  omega

end IspStream.Guarded
