import IspStream.Proofs.Blocks.Splits
import Mathlib.Logic.Function.Iterate

/-!
# The scan finds the blocks

A scan hands out one block per call and goes on from the cell at which it noticed
the end of that block.  `blocks_characterization` says what the calls amount to:
they come to an end, what they hand out is the one list that `Splits` the cells,
and a scan at its end stays there.

The proof follows a scan through the memory `cells`.  Inside a call, `Searching`
describes the open block: it is dense, it holds all data behind the position
where the call started, and the current run of blank cells is no longer than the
bound.  At the end of a call, `Found` adds that all data ahead is more than the
bound away, so the block is complete.  This also says that nothing behind a scan
reaches across its position (`Separated`), which is what the next call needs.
-/

namespace IspStream.Block.Scan

/-- Calling `next` until there is no block hands out the blocks and ends with the
scan `last`. -/
inductive Yields (bound : Nat) : Scan → List Block → Scan → Prop
  | done {scan last : Scan} : scan.next bound = (none, last) → Yields bound scan [] last
  | block {scan after last : Scan} {block : Block} {blocks : List Block} :
      scan.next bound = (some block, after) → Yields bound after blocks last →
        Yields bound scan (block :: blocks) last

/-- The scan after some further calls, whatever they hand out. -/
def skip (bound calls : Nat) (scan : Scan) : Scan :=
  (fun current : Scan => (current.next bound).2)^[calls] scan

variable {bound start : Nat} {cells : List UInt8}

/-! ## What is known inside a call -/

/-- No data between the start of the call and the position, or an open block with
all of it. -/
def Searching (bound : Nat) (cells : List UInt8) (start position : Nat) : Option Block → Prop
  | none => ∀ data, IsData cells data → start ≤ data → position ≤ data
  | some block =>
    Dense bound cells block ∧ start ≤ block.first ∧ block.last < position ∧
      position ≤ block.last + bound + 1 ∧
      ∀ data, IsData cells data → start ≤ data → data < position → data ∈ block

/-- The block that a call hands out, when the scan behind it stands at `stop`. -/
structure Found (bound : Nat) (cells : List UInt8) (start stop : Nat) (block : Block) : Prop where
  dense : Dense bound cells block
  start_le : start ≤ block.first
  last_lt : block.last < stop
  within : ∀ data, IsData cells data → start ≤ data → data < stop → data ∈ block
  far : ∀ data, IsData cells data → stop ≤ data → block.last + bound + 1 < data

theorem Searching.blank {position : Nat} {opened : Option Block}
    (h : Searching bound cells start position opened)
    (hcell : cells[position]? = some IspStream.blank)
    (hopen : closesAt bound position opened = false) :
    Searching bound cells start (position + 1) opened := by
  have hnot : ¬ IsData cells position := not_isData_of_getElem? hcell
  have hbehind : ∀ data, IsData cells data → data < position + 1 → data < position := by
    intro data hdata hlt
    rcases Nat.lt_succ_iff_lt_or_eq.mp hlt with hlt | rfl
    · exact hlt
    · exact absurd hdata hnot
  cases opened with
  | none =>
      intro data hdata hstart
      by_contra hlt
      have := h data hdata hstart
      have := hbehind data hdata (by omega)
      omega
  | some block =>
      obtain ⟨hdense, hfirst, hlast, -, hwithin⟩ := h
      simp only [closesAt, decide_eq_false_iff_not] at hopen
      exact ⟨hdense, hfirst, by omega, by omega, fun data hdata hstart hlt =>
        hwithin data hdata hstart (hbehind data hdata hlt)⟩

theorem Searching.data {position : Nat} {opened : Option Block}
    (h : Searching bound cells start position opened) (hstart : start ≤ position)
    (hdata : IsData cells position) :
    Searching bound cells start (position + 1) (some (extend opened position)) := by
  cases opened with
  | none =>
      refine ⟨⟨le_rfl, hdata, hdata, fun window hlow hhigh => ?_⟩, hstart, Nat.lt_succ_self _,
        by simp only [extend]; omega, fun other hother hle hlt => ?_⟩
      · simp only [extend] at hlow hhigh
        exact ⟨position, hdata, by omega, by omega⟩
      · have := h other hother hle
        exact ⟨this, Nat.le_of_lt_succ hlt⟩
  | some block =>
      obtain ⟨hdense, hfirst, hlast, hnear, hwithin⟩ := h
      refine ⟨hdense.extend hdata hlast hnear, hfirst, Nat.lt_succ_self _,
        by simp only [extend]; omega, fun other hother hle hlt => ?_⟩
      rcases Nat.lt_succ_iff_lt_or_eq.mp hlt with hlt | rfl
      · have := hwithin other hother hle hlt
        exact ⟨this.1, hlt.le⟩
      · exact ⟨hdense.first_le_last.trans hlast.le, le_rfl⟩

/-- A call ends at the end of the cells, or on the blank cell that closes the block. -/
theorem advance_spec (bound start : Nat) (cells rest : List UInt8) :
    ∀ (position : Nat) (opened : Option Block), cells.drop position = rest → start ≤ position →
      Searching bound cells start position opened →
      ∃ stop, (advance bound rest position opened).2 = ⟨cells.drop stop, stop⟩ ∧
        match (advance bound rest position opened).1 with
        | none => cells.drop stop = [] ∧ ∀ data, IsData cells data → ¬ start ≤ data
        | some block => Found bound cells start stop block := by
  induction rest with
  | nil =>
      intro position opened hdrop hstart h
      have hlength : cells.length ≤ position := List.drop_eq_nil_iff.mp hdrop
      refine ⟨position, by rw [advance, hdrop], ?_⟩
      cases opened with
      | none =>
          refine ⟨hdrop, fun data hdata hle => ?_⟩
          have := h data hdata hle
          have := hdata.lt_length
          omega
      | some block =>
          obtain ⟨hdense, hfirst, hlast, -, hwithin⟩ := h
          refine ⟨hdense, hfirst, hlast, hwithin, fun data hdata hle => ?_⟩
          have := hdata.lt_length
          omega
  | cons cell rest ih =>
      intro position opened hdrop hstart h
      have hcell : cells[position]? = some cell := by
        rw [← List.head?_drop, hdrop, List.head?_cons]
      have htail : cells.drop (position + 1) = rest := by
        rw [← List.tail_drop, hdrop, List.tail_cons]
      unfold advance
      split
      · rename_i hblank
        rw [hblank] at hcell
        split
        · rename_i hcloses
          cases opened with
          | none => exact absurd hcloses (by simp [closesAt])
          | some block =>
              obtain ⟨hdense, hfirst, hlast, -, hwithin⟩ := h
              simp only [closesAt, decide_eq_true_eq] at hcloses
              refine ⟨position, by rw [hdrop], hdense, hfirst, hlast, hwithin, ?_⟩
              intro data hdata hle
              have hne : data ≠ position := by
                rintro rfl
                exact not_isData_of_getElem? hcell hdata
              omega
        · rename_i hopen
          exact ih (position + 1) opened htail (by omega)
            (h.blank hcell (Bool.eq_false_iff.mpr hopen))
      · rename_i hdata
        exact ih (position + 1) _ htail (by omega) (h.data hstart ⟨cell, hcell, hdata⟩)

/-! ## From call to call -/

/-- Data behind the position and data ahead of it are more than the bound apart. -/
def Separated (bound : Nat) (cells : List UInt8) (position : Nat) : Prop :=
  ∀ behind ahead, IsData cells behind → IsData cells ahead → behind < position →
    position ≤ ahead → behind + bound + 1 < ahead

theorem Found.complete {stop : Nat} {block : Block} (h : Found bound cells start stop block)
    (hstart : Separated bound cells start) : Complete bound cells block := by
  refine ⟨h.dense, fun data hdata hlt => ?_, fun data hdata hlt => ?_⟩
  · have hbehind : data < start := by
      by_contra hle
      have hlast := h.dense.first_le_last
      have := h.last_lt
      have hmem := h.within data hdata (by omega) (by omega)
      exact absurd hmem.1 (by omega)
    exact hstart data block.first hdata h.dense.first_data hbehind h.start_le
  · have hahead : stop ≤ data := by
      by_contra hle
      have hfirst := h.dense.first_le_last
      have := h.start_le
      have hmem := h.within data hdata (by omega) (by omega)
      exact absurd hmem.2 (by omega)
    exact h.far data hdata hahead

theorem Found.separated {stop : Nat} {block : Block} (h : Found bound cells start stop block) :
    Separated bound cells stop := by
  intro behind ahead hbehind hahead hlt hle
  have hfar := h.far ahead hahead hle
  have hlast : behind ≤ block.last := by
    rcases Nat.lt_or_ge behind start with hbefore | hstart
    · have := h.start_le
      have := h.dense.first_le_last
      omega
    · exact (h.within behind hbehind hstart hlt).2
  omega

/-! ## A whole run -/

theorem run_of_none {scan last : Scan} (h : scan.next bound = (none, last)) :
    scan.run bound = ([], last) := by
  rw [run]
  split
  · rename_i after heq
    rw [h] at heq
    cases heq
    rfl
  · rename_i block after heq
    rw [h] at heq
    cases heq

theorem run_of_some {scan after : Scan} {block : Block}
    (h : scan.next bound = (some block, after)) :
    scan.run bound = (block :: (after.run bound).1, (after.run bound).2) := by
  rw [run]
  split
  · rename_i last heq
    rw [h] at heq
    cases heq
  · rename_i other middle heq
    rw [h] at heq
    cases heq
    rfl

/-- What holds between a scan at a position and the blocks that it hands out. -/
structure Ran (bound : Nat) (cells : List UInt8) (start : Nat) (blocks : List Block)
    (last : Scan) : Prop where
  complete : ∀ block ∈ blocks, Complete bound cells block
  start_le : ∀ block ∈ blocks, start ≤ block.first
  covers : ∀ data, IsData cells data → start ≤ data → ∃ block ∈ blocks, data ∈ block
  ascending : blocks.Pairwise fun earlier later => earlier.last < later.first
  ends : last.cells = []

/-- A call that finds a block goes in front of what the calls after it find. -/
theorem Ran.cons {stop : Nat} {block : Block} {blocks : List Block} {last : Scan}
    (hrest : Ran bound cells stop blocks last) (hfound : Found bound cells start stop block)
    (hseparated : Separated bound cells start) : Ran bound cells start (block :: blocks) last where
  complete := by
    rintro other (_ | ⟨_, hother⟩)
    · exact hfound.complete hseparated
    · exact hrest.complete other hother
  start_le := by
    rintro other (_ | ⟨_, hother⟩)
    · exact hfound.start_le
    · have := hrest.start_le other hother
      have := hfound.start_le
      have := hfound.dense.first_le_last
      have := hfound.last_lt
      omega
  covers := by
    intro data hdata hle
    rcases Nat.lt_or_ge data stop with hlt | hge
    · exact ⟨block, List.mem_cons_self, hfound.within data hdata hle hlt⟩
    · obtain ⟨other, hother, hmem⟩ := hrest.covers data hdata hge
      exact ⟨other, List.mem_cons_of_mem _ hother, hmem⟩
  ascending := by
    refine List.pairwise_cons.mpr ⟨fun other hother => ?_, hrest.ascending⟩
    exact hfound.last_lt.trans_le (hrest.start_le other hother)
  ends := hrest.ends

theorem ran_run (bound : Nat) (cells : List UInt8) (scan : Scan) :
    ∀ start, scan = ⟨cells.drop start, start⟩ → Separated bound cells start →
      Ran bound cells start (scan.run bound).1 (scan.run bound).2 := by
  induction hsize : scan.cells.length using Nat.strong_induction_on generalizing scan with
  | _ size ih =>
      rintro start rfl hseparated
      obtain ⟨stop, hafter, hresult⟩ := advance_spec bound start cells (cells.drop start)
        start none rfl le_rfl (fun data _ hle => hle)
      cases hnext : next bound ⟨cells.drop start, start⟩ with
      | mk result after =>
          have hunfold : advance bound (cells.drop start) start none = (result, after) := hnext
          rw [hunfold] at hafter hresult
          cases result with
          | none =>
              rw [run_of_none hnext]
              obtain ⟨hend, hnone⟩ := hresult
              have hcells : after.cells = cells.drop stop := congrArg Scan.cells hafter
              exact ⟨by simp, by simp, fun data hdata hle => absurd hle (hnone data hdata),
                List.Pairwise.nil, hcells.trans hend⟩
          | some block =>
              have hfound : Found bound cells start stop block := hresult
              rw [run_of_some hnext]
              have hlt := length_next_lt hnext
              exact (ih after.cells.length (by rw [← hsize]; exact hlt) after rfl stop
                hafter hfound.separated).cons hfound hseparated

/-- A scan of the whole memory has nothing behind it. -/
theorem ran_run_start (bound : Nat) (cells : List UInt8) :
    Ran bound cells 0 ((Scan.start cells).run bound).1 ((Scan.start cells).run bound).2 :=
  ran_run bound cells (Scan.start cells) 0 rfl fun _ _ _ _ hlt => absurd hlt (Nat.not_lt_zero _)

theorem yields_run (bound : Nat) (scan : Scan) :
    Yields bound scan (scan.run bound).1 (scan.run bound).2 := by
  induction hsize : scan.cells.length using Nat.strong_induction_on generalizing scan with
  | _ size ih =>
      cases hnext : scan.next bound with
      | mk result after =>
          cases result with
          | none =>
              rw [run_of_none hnext]
              exact .done hnext
          | some block =>
              rw [run_of_some hnext]
              have hlt := length_next_lt hnext
              exact .block hnext (ih after.cells.length (by omega) after rfl)

/-- A scan without cells ahead stays where it is. -/
theorem next_of_cells_eq_nil {scan : Scan} (h : scan.cells = []) :
    scan.next bound = (none, scan) := by
  obtain ⟨ahead, position⟩ := scan
  cases h
  rfl

theorem skip_of_cells_eq_nil {scan : Scan} (h : scan.cells = []) (calls : Nat) :
    scan.skip bound calls = scan := by
  induction calls with
  | zero => rfl
  | succ calls ih =>
      rw [skip, Function.iterate_succ_apply', ← skip, ih, next_of_cells_eq_nil h]

end Scan

theorem partition_blocks (bound : Nat) (cells : List UInt8) :
    Partition bound cells (blocks bound cells) := by
  have hran := Scan.ran_run_start bound cells
  exact ⟨hran.complete, fun position hdata => hran.covers position hdata (Nat.zero_le _),
    hran.ascending⟩

/-- Cells with data at the same positions have the same blocks. -/
theorem blocks_congr (bound : Nat) {cells other : List UInt8}
    (hdata : ∀ position, IsData cells position ↔ IsData other position) :
    blocks bound cells = blocks bound other :=
  ((partition_blocks bound cells).congr hdata).unique (partition_blocks bound other)

/-- **What splitting hands out.**  For every buffer, every length and every bound
the calls of a scan of the first `length` cells come to an end, and from then on
there is no block any more.  The blocks handed out are the only list that splits
these cells. -/
theorem blocks_characterization (buffer : List UInt8) (length bound : Nat) :
    ∃ last : Scan,
      Scan.Yields bound (Scan.start (buffer.take length)) (blocks bound (buffer.take length)) last ∧
      (∀ calls, ((last.skip bound calls).next bound).1 = none) ∧
      ∀ candidate, Splits bound (buffer.take length) candidate ↔
        candidate = blocks bound (buffer.take length) := by
  have hran := Scan.ran_run_start bound (buffer.take length)
  have hpartition := partition_blocks bound (buffer.take length)
  refine ⟨_, Scan.yields_run _ _, fun calls => ?_, fun candidate => ⟨fun h => ?_, ?_⟩⟩
  · rw [Scan.skip_of_cells_eq_nil hran.ends, Scan.next_of_cells_eq_nil hran.ends]
  · exact h.partition.unique hpartition
  · rintro rfl
    exact hpartition.splits

end IspStream.Block
