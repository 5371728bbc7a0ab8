import IspStream.Block
import Mathlib.Data.List.Chain

/-!
# What it means to split a memory into blocks

`Splits` says in full what the blocks of a memory are: they start and end with
data, together they hold all data, they stand in ascending order, more than
`bound` blank cells lie between two neighbours, and no longer run of blank cells
than that lies inside one of them.

A list of blocks is not convenient to reason about, because the conditions speak
of neighbours.  `Complete` therefore describes one block by itself: it is dense,
and all other data is more than `bound` cells away.  `Partition` says that a list
consists of complete blocks, covers the data and ascends, and
`splits_iff_partition` shows that this comes to the same.

* `Partition.mem_iff`: the members of a partition are the complete blocks, all of
  them;
* `Partition.unique`: so there is only one partition, being an ascending list.
-/

namespace IspStream.Block

/-! ## Data and blank cells -/

/-- There is a cell at the position, and it is not blank. -/
def IsData (cells : List UInt8) (position : Nat) : Prop :=
  ∃ cell, cells[position]? = some cell ∧ cell ≠ blank

/-- From the position on there are at least `count` cells, and these are blank. -/
def BlankRun (cells : List UInt8) (position count : Nat) : Prop :=
  ∀ index < count, cells[position + index]? = some blank

theorem IsData.lt_length {cells : List UInt8} {position : Nat} (h : IsData cells position) :
    position < cells.length := by
  obtain ⟨cell, hcell, -⟩ := h
  exact (List.getElem?_eq_some_iff.mp hcell).1

/-- A cell that is not data is blank. -/
theorem getElem?_of_not_isData {cells : List UInt8} {position : Nat}
    (hlength : position < cells.length) (h : ¬ IsData cells position) :
    cells[position]? = some blank := by
  rw [List.getElem?_eq_getElem hlength]
  by_contra hne
  exact h ⟨cells[position], List.getElem?_eq_getElem hlength, fun heq => hne (by rw [heq])⟩

theorem not_isData_of_getElem? {cells : List UInt8} {position : Nat}
    (h : cells[position]? = some blank) : ¬ IsData cells position := by
  rintro ⟨cell, hcell, hne⟩
  rw [h] at hcell
  exact hne (Option.some_inj.mp hcell).symm

/-- A stretch of cells without data is a run of blank cells. -/
theorem blankRun_of_forall {cells : List UInt8} {position count : Nat}
    (hlength : position + count ≤ cells.length)
    (h : ∀ data, IsData cells data → position ≤ data → position + count ≤ data) :
    BlankRun cells position count := by
  intro index hindex
  refine getElem?_of_not_isData (by omega) fun hdata => ?_
  have := h _ hdata (Nat.le_add_right ..)
  omega

/-! ## The conditions on the blocks -/

/-- The blocks are those of the cells: what splitting with the given bound means. -/
structure Splits (bound : Nat) (cells : List UInt8) (blocks : List Block) : Prop where
  /-- Every block lies inside the memory. -/
  inside : ∀ block ∈ blocks, block.first ≤ block.last ∧ block.last < cells.length
  /-- Every block starts and ends with data. -/
  ends : ∀ block ∈ blocks, IsData cells block.first ∧ IsData cells block.last
  /-- Every data cell belongs to exactly one block. -/
  covers : ∀ position, IsData cells position → ∃! block, block ∈ blocks ∧ position ∈ block
  /-- The blocks stand in ascending order. -/
  ascending : blocks.Pairwise fun earlier later => earlier.last < later.first
  /-- Neighbours are separated by a run of more than `bound` blank cells. -/
  apart : blocks.IsChain fun earlier later =>
    ∃ count, bound < count ∧ earlier.last + 1 + count = later.first ∧
      BlankRun cells (earlier.last + 1) count
  /-- No run of blank cells inside a block is longer than `bound`. -/
  gaps : ∀ block ∈ blocks, ∀ position count, block.first ≤ position →
    position + count ≤ block.last + 1 → BlankRun cells position count → count ≤ bound

/-- A block with data at both ends and in every window of `bound + 1` cells. -/
structure Dense (bound : Nat) (cells : List UInt8) (block : Block) : Prop where
  first_le_last : block.first ≤ block.last
  first_data : IsData cells block.first
  last_data : IsData cells block.last
  near : ∀ position, block.first ≤ position → position + bound ≤ block.last →
    ∃ data, IsData cells data ∧ position ≤ data ∧ data ≤ position + bound

/-- A dense block such that all other data is more than `bound` cells away. -/
structure Complete (bound : Nat) (cells : List UInt8) (block : Block) : Prop
    extends Dense bound cells block where
  before : ∀ position, IsData cells position → position < block.first →
    position + bound + 1 < block.first
  behind : ∀ position, IsData cells position → block.last < position →
    block.last + bound + 1 < position

/-- An ascending list of complete blocks that holds all data. -/
structure Partition (bound : Nat) (cells : List UInt8) (blocks : List Block) : Prop where
  complete : ∀ block ∈ blocks, Complete bound cells block
  covers : ∀ position, IsData cells position → ∃ block ∈ blocks, position ∈ block
  ascending : blocks.Pairwise fun earlier later => earlier.last < later.first

variable {bound : Nat} {cells : List UInt8} {blocks : List Block}

/-- A block stays dense when it grows by the next data cell, provided that the run
of blank cells in between is not too long. -/
theorem Dense.extend {block : Block} {position : Nat} (h : Dense bound cells block)
    (hdata : IsData cells position) (hlast : block.last < position)
    (hnear : position ≤ block.last + bound + 1) :
    Dense bound cells ⟨block.first, position⟩ where
  first_le_last := h.first_le_last.trans hlast.le
  first_data := h.first_data
  last_data := hdata
  near := by
    intro window hlow hhigh
    simp only at hlow hhigh
    rcases Nat.lt_or_ge block.last (window + bound) with hbehind | hinside
    · rcases Nat.lt_or_ge block.last window with hnew | hold
      · -- the window is the blank run together with the new cell
        exact ⟨position, hdata, by omega, by omega⟩
      · exact ⟨block.last, h.last_data, hold, by omega⟩
    · exact h.near window hlow hinside

/-- A greater bound asks for less data. -/
theorem Dense.mono {greater : Nat} {block : Block} (h : Dense bound cells block)
    (hle : bound ≤ greater) : Dense greater cells block where
  first_le_last := h.first_le_last
  first_data := h.first_data
  last_data := h.last_data
  near := by
    intro position hlow hhigh
    obtain ⟨data, hdata, hbehind, hwithin⟩ := h.near position hlow (by omega)
    exact ⟨data, hdata, hbehind, by omega⟩

/-! ## Complete blocks do not overlap -/

theorem mem_iff {block : Block} {position : Nat} :
    position ∈ block ↔ block.first ≤ position ∧ position ≤ block.last := Iff.rfl

/-- A dense block that shares a position with a complete one does not start before it. -/
theorem Dense.first_le {one other : Block} (hone : Dense bound cells one)
    (hother : Complete bound cells other) {position : Nat} (hmemOne : position ∈ one)
    (hmemOther : position ∈ other) : other.first ≤ one.first := by
  by_contra hlt
  rw [mem_iff] at hmemOne hmemOther
  -- the window right before `other` lies inside `one`, but holds no data
  have hfar := hother.before one.first hone.first_data (by omega)
  obtain ⟨data, hdata, hlow, hhigh⟩ :=
    hone.near (other.first - (bound + 1)) (by omega) (by omega)
  have := hother.before data hdata (by omega)
  omega

theorem Dense.le_last {one other : Block} (hone : Dense bound cells one)
    (hother : Complete bound cells other) {position : Nat} (hmemOne : position ∈ one)
    (hmemOther : position ∈ other) : one.last ≤ other.last := by
  by_contra hlt
  rw [mem_iff] at hmemOne hmemOther
  have hfar := hother.behind one.last hone.last_data (by omega)
  obtain ⟨data, hdata, hlow, hhigh⟩ := hone.near (other.last + 1) (by omega) (by omega)
  have := hother.behind data hdata (by omega)
  omega

theorem Complete.eq_of_mem {one other : Block} (hone : Complete bound cells one)
    (hother : Complete bound cells other) {position : Nat} (hmemOne : position ∈ one)
    (hmemOther : position ∈ other) : one = other := by
  have hfirst := (hother.toDense.first_le hone hmemOther hmemOne).antisymm
    (hone.toDense.first_le hother hmemOne hmemOther)
  have hlast := (hone.toDense.le_last hother hmemOne hmemOther).antisymm
    (hother.toDense.le_last hone hmemOther hmemOne)
  cases one
  cases other
  exact congrArg₂ Block.mk hfirst hlast

/-! ## A partition is unique -/

theorem Partition.mem_iff (h : Partition bound cells blocks) {block : Block} :
    block ∈ blocks ↔ Complete bound cells block := by
  constructor
  · exact h.complete block
  · intro hcomplete
    obtain ⟨other, hmem, hfirst⟩ := h.covers block.first hcomplete.first_data
    have hstart : block.first ∈ block := ⟨le_rfl, hcomplete.first_le_last⟩
    rwa [hcomplete.eq_of_mem (h.complete other hmem) hstart hfirst]

/-- Two ascending lists of the same blocks are equal. -/
theorem eq_of_ascending {others : List Block}
    (hends : ∀ block ∈ blocks, block.first ≤ block.last)
    (hmem : ∀ block, block ∈ blocks ↔ block ∈ others)
    (hblocks : blocks.Pairwise fun earlier later => earlier.last < later.first)
    (hothers : others.Pairwise fun earlier later => earlier.last < later.first) :
    blocks = others := by
  have hnodup : ∀ list : List Block, (∀ block ∈ list, block.first ≤ block.last) →
      list.Pairwise (fun earlier later => earlier.last < later.first) → list.Nodup := by
    intro list hlist hascending
    refine hascending.imp_of_mem fun {earlier later} hearlier _ hlt heq => ?_
    subst heq
    exact absurd (hlist earlier hearlier) (not_le.mpr hlt)
  have hothersEnds : ∀ block ∈ others, block.first ≤ block.last :=
    fun block hblock => hends block ((hmem block).mpr hblock)
  have hperm : blocks.Perm others := (List.perm_ext_iff_of_nodup (hnodup _ hends hblocks)
    (hnodup _ hothersEnds hothers)).mpr hmem
  refine hperm.eq_of_pairwise (fun one other hone hother hforth hback => ?_) hblocks hothers
  -- no block lies both before and behind another one
  have := hends one hone
  have := hothersEnds other hother
  omega

theorem Partition.unique {others : List Block} (h : Partition bound cells blocks)
    (hothers : Partition bound cells others) : blocks = others :=
  eq_of_ascending (fun block hmem => (h.complete block hmem).first_le_last)
    (fun _ => h.mem_iff.trans hothers.mem_iff.symm) h.ascending hothers.ascending

/-! ## Only where the data lies counts -/

theorem Complete.congr {other : List UInt8} {block : Block}
    (hdata : ∀ position, IsData cells position ↔ IsData other position)
    (h : Complete bound cells block) : Complete bound other block where
  first_le_last := h.first_le_last
  first_data := (hdata _).mp h.first_data
  last_data := (hdata _).mp h.last_data
  near := by
    intro position hlow hhigh
    obtain ⟨data, hmem, hnear⟩ := h.near position hlow hhigh
    exact ⟨data, (hdata data).mp hmem, hnear⟩
  before := fun position hposition => h.before position ((hdata position).mpr hposition)
  behind := fun position hposition => h.behind position ((hdata position).mpr hposition)

theorem Partition.congr {other : List UInt8}
    (hdata : ∀ position, IsData cells position ↔ IsData other position)
    (h : Partition bound cells blocks) : Partition bound other blocks where
  complete := fun block hmem => (h.complete block hmem).congr hdata
  covers := fun position hposition => h.covers position ((hdata position).mpr hposition)
  ascending := h.ascending

/-! ## Splitting is partitioning -/

/-- Two members of a list are equal or stand in one order or the other. -/
theorem trichotomy_of_pairwise {α : Type} {R : α → α → Prop} {list : List α} {one other : α}
    (h : list.Pairwise R) (hone : one ∈ list) (hother : other ∈ list) :
    one = other ∨ R one other ∨ R other one := by
  obtain ⟨first, hfirst, rfl⟩ := List.getElem_of_mem hone
  obtain ⟨second, hsecond, rfl⟩ := List.getElem_of_mem hother
  rw [List.pairwise_iff_getElem] at h
  rcases Nat.lt_trichotomy first second with hlt | rfl | hlt
  · exact Or.inr (Or.inl (h first second hfirst hsecond hlt))
  · exact Or.inl rfl
  · exact Or.inr (Or.inr (h second first hsecond hfirst hlt))

theorem Splits.dense (h : Splits bound cells blocks) {block : Block} (hmem : block ∈ blocks) :
    Dense bound cells block where
  first_le_last := (h.inside block hmem).1
  first_data := (h.ends block hmem).1
  last_data := (h.ends block hmem).2
  near := by
    intro position hlow hhigh
    by_contra hnone
    push Not at hnone
    have hlast := (h.inside block hmem).2
    have hrun : BlankRun cells position (bound + 1) :=
      blankRun_of_forall (by omega) fun data hdata hle => hnone data hdata hle
    have := h.gaps block hmem position (bound + 1) hlow (by omega) hrun
    omega

/-- Blocks of a splitting are far apart, whether or not they are neighbours. -/
theorem Splits.pairwise_apart (h : Splits bound cells blocks) :
    blocks.Pairwise fun earlier later => earlier.last + bound + 1 < later.first := by
  rw [List.pairwise_iff_getElem]
  intro first second hfirst hsecond hlt
  obtain ⟨count, hcount, hsum, -⟩ :=
    (List.isChain_iff_getElem.mp h.apart) first (by omega)
  rcases Nat.lt_or_ge (first + 1) second with hlater | hnext
  · have := (List.pairwise_iff_getElem.mp h.ascending) (first + 1) second (by omega) hsecond hlater
    have := (h.inside _ (List.getElem_mem (l := blocks) (n := first + 1) (by omega))).1
    omega
  · obtain rfl : second = first + 1 := by omega
    omega

theorem Splits.partition (h : Splits bound cells blocks) : Partition bound cells blocks where
  ascending := h.ascending
  covers := fun position hdata => (h.covers position hdata).exists
  complete := by
    intro block hmem
    refine ⟨h.dense hmem, ?_, ?_⟩
    · intro position hdata hlt
      obtain ⟨other, hother, hlow, hhigh⟩ := (h.covers position hdata).exists
      rcases trichotomy_of_pairwise h.pairwise_apart hother hmem with rfl | hbefore | hbehind
      · omega
      · omega
      · have := (h.inside block hmem).1
        omega
    · intro position hdata hlt
      obtain ⟨other, hother, hlow, hhigh⟩ := (h.covers position hdata).exists
      rcases trichotomy_of_pairwise h.pairwise_apart hother hmem with rfl | hbefore | hbehind
      · omega
      · have := (h.inside block hmem).1
        omega
      · omega

/-- Between two neighbours there is no data. -/
theorem Partition.not_between (h : Partition bound cells blocks) {index : Nat}
    (hindex : index + 1 < blocks.length) {position : Nat} (hdata : IsData cells position)
    (hlow : blocks[index].last < position) : blocks[index + 1].first ≤ position := by
  obtain ⟨block, hmem, hfirst, hlast⟩ := h.covers position hdata
  obtain ⟨place, hplace, rfl⟩ := List.getElem_of_mem hmem
  have hascending := List.pairwise_iff_getElem.mp h.ascending
  rcases Nat.lt_trichotomy place (index + 1) with hlt | rfl | hlt
  · -- this block ends before the gap
    rcases Nat.lt_or_ge place index with hearlier | hsame
    · have := hascending place index hplace (by omega) hearlier
      have := (h.complete _ (List.getElem_mem (l := blocks) (n := index) (by omega))).first_le_last
      omega
    · obtain rfl : place = index := by omega
      omega
  · exact hfirst
  · have := hascending (index + 1) place hindex hplace hlt
    have := (h.complete _ (List.getElem_mem hindex)).first_le_last
    omega

theorem Partition.splits (h : Partition bound cells blocks) : Splits bound cells blocks where
  inside := fun block hmem =>
    ⟨(h.complete block hmem).first_le_last, (h.complete block hmem).last_data.lt_length⟩
  ends := fun block hmem => ⟨(h.complete block hmem).first_data, (h.complete block hmem).last_data⟩
  ascending := h.ascending
  covers := by
    intro position hdata
    obtain ⟨block, hmem, hposition⟩ := h.covers position hdata
    exact ⟨block, ⟨hmem, hposition⟩, fun other hother =>
      (h.complete other hother.1).eq_of_mem (h.complete block hmem) hother.2 hposition⟩
  apart := by
    rw [List.isChain_iff_getElem]
    intro index hindex
    have hfirst := (h.complete _ (List.getElem_mem hindex)).first_data
    have hlt := List.pairwise_iff_getElem.mp h.ascending index (index + 1) (by omega) hindex
      (by omega)
    have hfar := (h.complete _ (List.getElem_mem (l := blocks) (n := index) (by omega))).behind
      _ hfirst hlt
    refine ⟨blocks[index + 1].first - (blocks[index].last + 1), by omega, by omega,
      blankRun_of_forall ?_ fun data hdata hle => ?_⟩
    · have := hfirst.lt_length
      omega
    · have := h.not_between hindex hdata (by omega)
      omega
  gaps := by
    intro block hmem position count hlow hhigh hrun
    by_contra hlong
    obtain ⟨data, hdata, hle, hwithin⟩ :=
      (h.complete block hmem).near position hlow (by omega)
    have hblank := hrun (data - position) (by omega)
    rw [Nat.add_sub_cancel' hle] at hblank
    exact not_isData_of_getElem? hblank hdata

theorem splits_iff_partition : Splits bound cells blocks ↔ Partition bound cells blocks :=
  ⟨Splits.partition, Partition.splits⟩

end IspStream.Block
