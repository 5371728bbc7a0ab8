import IspStream.Text.Integer
import Mathlib.Data.List.Basic

/-!
# Operations with a hazard

Reading a list at an index, cutting it, cutting a text between two of its bytes, adding and
subtracting in words of 64 bits, counting in a word of 32 bits, asking for a list of a given
length: each of these is only defined for some operands.  A guarded operation answers with a
hazard for all the others.

The modules next to this one repeat what runs with guarded operations in every place that
needs one, step by step, and with a hazard in every branch that is there only because an
operation could fail.  A guarded function that agrees with the running one has met no
hazard on its way.

A list is asked for where its length is a number that nothing in memory stands behind.  Lists
that grow by what is in memory already are left to the memory of the machine.
-/

namespace IspStream.Guarded

/-- Why an operation is not defined for its operands. -/
inductive Hazard where
  /-- An index is behind the end. -/
  | index
  /-- A part of a list or of a text is not inside it. -/
  | slice
  /-- A text is cut inside a character. -/
  | boundary
  /-- Two lengths differ that have to agree. -/
  | length
  /-- A number leaves its word. -/
  | overflow
  /-- A list is asked for that is longer than any list. -/
  | allocation
  /-- A branch is taken that is there only as a fallback. -/
  | fallback
deriving DecidableEq, Repr

/-- What answers with a hazard or with a value. -/
abbrev Checked (α : Type) := Except Hazard α

/-- The first number that has no word. -/
def wordLimit : Nat := 0x10000000000000000

/-- The first number that a counter does not reach, being a signed word of 32 bits. -/
def counterLimit : Nat := 0x80000000

/-- The first number that is no length, the size of a list in bytes being a signed word. -/
def lengthLimit : Nat := 0x8000000000000000

variable {α β σ τ : Type} {list : List α} {text : List Char} {first second stop offset : Nat}

/-! ## Numbers -/

def add (first second : Nat) : Checked Nat :=
  if first + second < wordLimit then .ok (first + second) else .error .overflow

def multiply (first second : Nat) : Checked Nat :=
  if first * second < wordLimit then .ok (first * second) else .error .overflow

def subtract (first second : Nat) : Checked Nat :=
  if second ≤ first then .ok (first - second) else .error .overflow

/-- Subtraction of signed words. -/
def subtractSigned (first second : Int) : Checked Int :=
  if Text.Integer.minimum ≤ first - second ∧ first - second ≤ Text.Integer.maximum then
    .ok (first - second)
  else .error .overflow

/-- Moves a counter on by one. -/
def advanceCounter (count : Nat) : Checked Nat :=
  if count + 1 < counterLimit then .ok (count + 1) else .error .overflow

theorem add_eq (h : first + second < wordLimit) : add first second = .ok (first + second) :=
  if_pos h

theorem eq_of_add {sum : Nat} (h : add first second = .ok sum) : sum = first + second := by
  unfold add at h
  split at h
  · cases h
    rfl
  · cases h

theorem multiply_eq (h : first * second < wordLimit) :
    multiply first second = .ok (first * second) :=
  if_pos h

theorem subtract_eq (h : second ≤ first) : subtract first second = .ok (first - second) :=
  if_pos h

/-! ## Lists -/

def index (list : List α) (position : Nat) : Checked α :=
  match list[position]? with
  | some entry => .ok entry
  | none => .error .index

def slice (list : List α) (first stop : Nat) : Checked (List α) :=
  if first ≤ stop ∧ stop ≤ list.length then .ok (list.extract first stop) else .error .slice

/-- An array of equal bytes. -/
def allocate (length : Nat) (byte : UInt8) : Checked (Array UInt8) :=
  if length < lengthLimit then .ok (Array.replicate length byte) else .error .allocation

theorem index_eq {position : Nat} {entry : α} (h : list[position]? = some entry) :
    index list position = .ok entry := by
  rw [index, h]

theorem slice_eq (hfirst : first ≤ stop) (hstop : stop ≤ list.length) :
    slice list first stop = .ok (list.extract first stop) :=
  if_pos ⟨hfirst, hstop⟩

theorem slice_append_left (front back : List α) :
    slice (front ++ back) 0 front.length = .ok front := by
  have hstop : front.length ≤ (front ++ back).length := by
    rw [List.length_append]
    exact Nat.le_add_right ..
  rw [slice_eq (Nat.zero_le _) hstop, List.extract_eq_take_drop]
  exact congrArg Except.ok List.take_left

theorem slice_append_right (front back : List α) :
    slice (front ++ back) front.length (front ++ back).length = .ok back := by
  have hfirst : front.length ≤ (front ++ back).length := by
    rw [List.length_append]
    exact Nat.le_add_right ..
  rw [slice_eq hfirst (Nat.le_refl _), List.extract_eq_take_drop, List.drop_left,
    List.length_append, Nat.add_sub_cancel_left, List.take_length]

/-! ## Texts -/

/-- A text in two parts, the first of which has the given number of bytes. -/
def cut : List Char → Nat → Checked (List Char × List Char)
  | text, 0 => .ok ([], text)
  | [], _ + 1 => .error .slice
  | character :: rest, offset + 1 =>
    if character.utf8Size ≤ offset + 1 then do
      let (front, back) ← cut rest (offset + 1 - character.utf8Size)
      return (character :: front, back)
    else .error .boundary

/-- The part of a text between two offsets, which are counted in bytes. -/
def part (text : List Char) (first stop : Nat) : Checked (List Char) := do
  let (front, _) ← cut text stop
  let (_, middle) ← cut front first
  return middle

/-- A text of characters of one byte each can be cut everywhere. -/
theorem cut_eq (htext : ∀ character ∈ text, character.utf8Size = 1) (h : offset ≤ text.length) :
    cut text offset = .ok (text.take offset, text.drop offset) := by
  induction text generalizing offset with
  | nil =>
      obtain rfl := Nat.le_zero.mp h
      rfl
  | cons character rest ih =>
      cases offset with
      | zero => rfl
      | succ offset =>
          obtain ⟨hone, hrest⟩ := List.forall_mem_cons.mp htext
          rw [cut, hone, if_pos (Nat.le_add_left 1 offset), Nat.add_sub_cancel,
            ih hrest (Nat.le_of_succ_le_succ h)]
          rfl

theorem part_eq (htext : ∀ character ∈ text, character.utf8Size = 1) (hfirst : first ≤ stop)
    (hstop : stop ≤ text.length) : part text first stop = .ok (text.extract first stop) := by
  have hfront : ∀ character ∈ text.take stop, character.utf8Size = 1 :=
    fun character hmem => htext character (List.mem_of_mem_take hmem)
  have hmiddle : cut (text.take stop) first = .ok _ :=
    cut_eq hfront (by rw [List.length_take]; omega)
  rw [part, cut_eq htext hstop]
  change (cut (text.take stop) first).bind _ = _
  rw [hmiddle, List.extract_eq_take_drop, ← List.drop_take]
  rfl

/-! ## Fallbacks -/

/-- A value that has to be there. -/
def expect : Option α → Checked α
  | some value => .ok value
  | none => .error .fallback

/-! ## Conditions -/

/-- There is a value under a condition, and one of some hazards otherwise. -/
structure Hinges (condition : Prop) (hazards : Hazard → Prop) (checked : Checked α) (value : α) :
    Prop where
  /-- The condition is enough. -/
  ok : condition → checked = .ok value
  /-- The condition is needed. -/
  error : ¬condition → ∃ hazard, hazards hazard ∧ checked = .error hazard

namespace Hinges

variable {condition other : Prop} {hazards more : Hazard → Prop} {checked : Checked α} {value : α}
  {next : α → Checked β} {result : β}

theorem of_eq (hcondition : condition) (h : checked = .ok value) :
    Hinges condition hazards checked value :=
  ⟨fun _ => h, fun hnot => absurd hcondition hnot⟩

theorem congr (hcondition : other ↔ condition) (h : Hinges condition hazards checked value) :
    Hinges other hazards checked value :=
  ⟨fun hother => h.ok (hcondition.mp hother), fun hnot => h.error (mt hcondition.mpr hnot)⟩

theorem mono (hmore : ∀ hazard, hazards hazard → more hazard)
    (h : Hinges condition hazards checked value) : Hinges condition more checked value where
  ok := h.ok
  error := by
    intro hnot
    obtain ⟨hazard, hhazard, hchecked⟩ := h.error hnot
    exact ⟨hazard, hmore hazard hhazard, hchecked⟩

/-- A second condition may come up behind the first one. -/
theorem andThen (h : Hinges condition hazards checked value)
    (hnext : condition → Hinges other hazards (next value) result) :
    Hinges (condition ∧ other) hazards (checked >>= next) result where
  ok := by
    rintro ⟨hcondition, hother⟩
    rw [h.ok hcondition]
    exact (hnext hcondition).ok hother
  error := by
    intro hnot
    by_cases hcondition : condition
    · rw [h.ok hcondition]
      exact (hnext hcondition).error fun hother => hnot ⟨hcondition, hother⟩
    · obtain ⟨hazard, hhazard, hchecked⟩ := h.error hcondition
      rw [hchecked]
      exact ⟨hazard, hhazard, rfl⟩

/-- What follows without a hazard changes the value only. -/
theorem bind (h : Hinges condition hazards checked value) (hnext : next value = .ok result) :
    Hinges condition hazards (checked >>= next) result :=
  (h.andThen fun _ => of_eq trivial hnext).congr (iff_of_eq (and_true condition)).symm

end Hinges

theorem hinges_allocate (length : Nat) (byte : UInt8) :
    Hinges (length < lengthLimit) (fun hazard => hazard = .allocation ∧ lengthLimit ≤ length)
      (allocate length byte) (Array.replicate length byte) :=
  ⟨fun h => if_pos h, fun h => ⟨.allocation, ⟨rfl, Nat.le_of_not_lt h⟩, if_neg h⟩⟩

theorem hinges_advanceCounter (count : Nat) :
    Hinges (count + 1 < counterLimit) (· = .overflow) (advanceCounter count) (count + 1) :=
  ⟨fun h => if_pos h, fun h => ⟨.overflow, rfl, if_neg h⟩⟩

/-! ## Loops -/

/-- A guarded loop agrees with a loop if its steps do. -/
theorem foldlM_eq {step : τ → α → Checked τ} {next : σ → α → σ} {view : σ → τ}
    (hstep : ∀ state, ∀ entry ∈ list, step (view state) entry = .ok (view (next state entry)))
    (state : σ) : list.foldlM step (view state) = .ok (view (list.foldl next state)) := by
  induction list generalizing state with
  | nil => rfl
  | cons entry rest ih =>
      obtain ⟨hentry, hrest⟩ : step (view state) entry = .ok (view (next state entry)) ∧ _ :=
        ⟨hstep state entry List.mem_cons_self,
          fun state other hother => hstep state other (List.mem_cons_of_mem entry hother)⟩
      rw [List.foldlM_cons, hentry]
      exact ih hrest (next state entry)

theorem mapM_eq {step : α → Checked β} {map : α → β}
    (hstep : ∀ entry ∈ list, step entry = .ok (map entry)) :
    list.mapM step = .ok (list.map map) := by
  induction list with
  | nil => rfl
  | cons entry rest ih =>
      rw [List.mapM_cons, hstep entry List.mem_cons_self,
        ih fun other hother => hstep other (List.mem_cons_of_mem entry hother)]
      rfl

end IspStream.Guarded
