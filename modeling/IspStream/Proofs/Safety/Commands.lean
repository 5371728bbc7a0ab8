import IspStream.Proofs.Safety.Operations
import IspStream.Proofs.Script.Instructions
import Mathlib.Data.List.TakeWhile

/-!
# Reading a command without a hazard

A script line without its comment is matched with the pattern `^(\S+)(?:\s+(.*))?$`, in which
the dot stands for every character but a line feed.  The language of the pattern is
`Matches`, and `captures` finds the groups for every text of that language and for no other
(`captures_eq_none_iff`).  So the pattern rejects a trimmed line only if nothing is left of
it, because a line holds no line feed (`captures_content`).

The parameters are taken by their index, which relies on the check of their number before
(`order_eq`).  The clock subtracts each of its frequencies from the requested one, which is
safe unless the request is close to the least signed word (`divider_eq`).
-/

namespace IspStream.Guarded

open Script

/-! ## The line pattern -/

/-- How the pattern matches a text: the word, and what stands behind white space. -/
inductive Matches : List Char → List Char → Option (List Char) → Prop where
  /-- The optional part is missing. -/
  | word {word : List Char} (nonempty : word ≠ [])
      (solid : ∀ character ∈ word, Text.isBlank character = false) : Matches word word none
  /-- The optional part is there. -/
  | parameters {word gap behind : List Char} (nonempty : word ≠ [])
      (solid : ∀ character ∈ word, Text.isBlank character = false) (separated : gap ≠ [])
      (blank : ∀ character ∈ gap, Text.isBlank character = true) (single : '\n' ∉ behind) :
      Matches (word ++ (gap ++ behind)) word (some behind)

/-- The groups of the pattern, the whole match first.  The optional part takes as much white
space as there is. -/
def captures (text : List Char) : Option (List (Option (List Char))) :=
  let word := text.takeWhile fun character => !Text.isBlank character
  if word.isEmpty then none
  else
    match text.dropWhile fun character => !Text.isBlank character with
    | [] => some [some text, some word, none]
    | rest =>
      let behind := Text.trimStart rest
      if behind.contains '\n' then none else some [some text, some word, some behind]

/-- A group that has to take part in the match. -/
def group (groups : List (Option (List Char))) (position : Nat) : Checked (List Char) := do
  match ← index groups position with
  | some text => return text
  | none => .error .index

variable {text word : List Char} {behind? : Option (List Char)} {groups : List (Option (List Char))}

theorem captures_of_matches (h : Matches text word behind?) :
    ∃ groups, captures text = some groups := by
  have hsolid : ∀ {word : List Char}, (∀ character ∈ word, Text.isBlank character = false) →
      ∀ character ∈ word, (!Text.isBlank character) = true := by
    intro word hword character hmem
    rw [hword character hmem, Bool.not_false]
  unfold captures
  cases h with
  | word hnonempty hword =>
      rw [List.takeWhile_eq_self_iff.mpr (hsolid hword),
        List.dropWhile_eq_nil_iff.mpr (hsolid hword), if_neg (by rwa [List.isEmpty_iff])]
      exact ⟨_, rfl⟩
  | @parameters _ gap behind hnonempty hword hseparated hblank hsingle =>
      obtain ⟨first, more, rfl⟩ := List.exists_cons_of_ne_nil hseparated
      have hfirst : ¬(!Text.isBlank first) = true := by
        rw [hblank first List.mem_cons_self]
        decide
      have htake : (first :: (more ++ behind)).takeWhile (fun character => !Text.isBlank character)
          = [] := List.takeWhile_cons_of_neg hfirst
      have hdrop : (first :: (more ++ behind)).dropWhile (fun character => !Text.isBlank character)
          = first :: (more ++ behind) := List.dropWhile_cons_of_neg hfirst
      have hbehind : ¬((Text.trimStart (first :: (more ++ behind))).contains '\n') = true := by
        rw [List.contains_iff_mem, Text.trimStart, ← List.cons_append,
          List.dropWhile_append_of_pos hblank]
        exact fun hmem => hsingle ((List.dropWhile_sublist _).subset hmem)
      rw [List.takeWhile_append_of_pos (hsolid hword), List.dropWhile_append_of_pos (hsolid hword),
        List.cons_append, htake, hdrop, List.append_nil, if_neg (by rwa [List.isEmpty_iff])]
      simp only [if_neg hbehind]
      exact ⟨_, rfl⟩

/-- What is left behind the first word starts with white space. -/
theorem gap_ne_nil (h : text.dropWhile (fun character => !Text.isBlank character) ≠ []) :
    (text.dropWhile fun character => !Text.isBlank character).takeWhile Text.isBlank ≠ [] := by
  have hhead := List.head?_dropWhile_not (fun character => !Text.isBlank character) text
  obtain ⟨first, rest, hrest⟩ := List.exists_cons_of_ne_nil h
  rw [hrest] at hhead ⊢
  have hfirst : Text.isBlank first = true := by simpa using hhead
  rw [List.takeWhile_cons_of_pos hfirst]
  exact List.cons_ne_nil _ _

theorem matches_of_captures (h : captures text = some groups) :
    ∃ word behind?, groups = [some text, some word, behind?] ∧ Matches text word behind? := by
  have hsplit : text.takeWhile (fun character => !Text.isBlank character) ++
      text.dropWhile (fun character => !Text.isBlank character) = text :=
    List.takeWhile_append_dropWhile
  have hsolid : ∀ character ∈ text.takeWhile (fun character => !Text.isBlank character),
      Text.isBlank character = false := by
    intro character hmem
    have hpositive := List.mem_takeWhile_imp hmem
    simpa using hpositive
  unfold captures at h
  simp only at h
  split at h
  · cases h
  · rename_i hword
    rw [List.isEmpty_iff] at hword
    split at h
    · rename_i hrest
      cases h
      rw [hrest, List.append_nil] at hsplit
      rw [hsplit] at hword hsolid ⊢
      exact ⟨_, _, rfl, .word hword hsolid⟩
    · rename_i hrest
      split at h
      · cases h
      · rename_i hsingle
        cases h
        have hmatch := Matches.parameters hword hsolid (gap_ne_nil hrest)
          (fun character => List.mem_takeWhile_imp) (by rwa [List.contains_iff_mem] at hsingle)
        rw [Text.trimStart, List.takeWhile_append_dropWhile, hsplit] at hmatch
        exact ⟨_, _, rfl, hmatch⟩

/-- The groups are found for the language of the pattern. -/
theorem captures_eq_none_iff : captures text = none ↔ ∀ word behind?, ¬Matches text word behind? := by
  constructor
  · intro h word behind? hmatch
    obtain ⟨groups, hgroups⟩ := captures_of_matches hmatch
    rw [h] at hgroups
    cases hgroups
  · intro h
    cases hcaptures : captures text with
    | none => rfl
    | some groups =>
        obtain ⟨word, behind?, -, hmatch⟩ := matches_of_captures hcaptures
        exact absurd hmatch (h word behind?)

theorem takeWhile_eq_nil_iff (hfirst : ∀ first ∈ text.head?, Text.isBlank first = false) :
    (text.takeWhile fun character => !Text.isBlank character) = [] ↔ text = [] := by
  cases text with
  | nil => simp
  | cons first rest => simp [hfirst first rfl]

/-- The pattern matches every text that starts with a character of a word, unless there is a
line feed in it. -/
theorem captures_eq (hfeed : '\n' ∉ text)
    (hfirst : ∀ first ∈ text.head?, Text.isBlank first = false) :
    captures text =
      if text = [] then none
      else some [some text, some (Text.splitWord text).1, (Text.splitWord text).2] := by
  have hbehind : ¬((Text.trimStart
      (text.dropWhile fun character => !Text.isBlank character)).contains '\n') = true := by
    rw [List.contains_iff_mem]
    exact fun hmem => hfeed ((List.dropWhile_sublist _).subset ((List.dropWhile_sublist _).subset hmem))
  rw [captures, Text.splitWord]
  simp only [List.isEmpty_iff, takeWhile_eq_nil_iff hfirst]
  generalize text.dropWhile (fun character => !Text.isBlank character) = rest at hbehind ⊢
  split
  · rfl
  · cases rest with
    | nil => rfl
    | cons first more => exact if_neg hbehind

theorem isBlank_of_mem_head?_trim {first : Char} (h : first ∈ (Text.trim text).head?) :
    Text.isBlank first = false := by
  have hprefix : Text.trim text <+: Text.trimStart text := by
    rw [← List.reverse_suffix, Text.trim, Text.trimEnd, List.reverse_reverse]
    exact List.dropWhile_suffix _
  have hhead := List.head?_dropWhile_not Text.isBlank text
  obtain ⟨rest, hrest⟩ := hprefix
  rw [← Text.trimStart, ← hrest, List.head?_append, h] at hhead
  exact hhead

/-- The pattern matches every line unless nothing is left of it. -/
theorem captures_content {line : List Char} (hline : '\n' ∉ line) :
    captures (Line.content line) =
      if Line.content line = [] then none
      else
        some [some (Line.content line), some (Text.splitWord (Line.content line)).1,
          (Text.splitWord (Line.content line)).2] := by
  refine captures_eq (fun hmem => hline ?_) fun first => isBlank_of_mem_head?_trim
  have hcontent := (List.dropWhile_sublist _).subset (List.mem_reverse.mp hmem)
  exact (List.takeWhile_sublist _).subset ((List.dropWhile_sublist _).subset
    (List.mem_reverse.mp hcontent))

/-- What a line asks for, when something is left of it. -/
theorem parse_of_content {line : List Char} (h : Line.content line ≠ []) :
    Line.parse line =
      let word := String.ofList ((Text.splitWord (Line.content line)).1.map Char.toUpper)
      match Command.ofName? word with
      | none => .unknown word
      | some command => .known command (Line.parameters (Text.splitWord (Line.content line)).2) := by
  have hword : (Text.splitWord (Line.content line)).1 ≠ [] := by
    rw [Text.splitWord]
    intro hnil
    refine h ((takeWhile_eq_nil_iff fun first => isBlank_of_mem_head?_trim).mp ?_)
    revert hnil
    split <;> exact id
  unfold Line.parse
  cases hsplit : Text.splitWord (Line.content line) with
  | mk word rest =>
      rw [hsplit] at hword
      cases word with
      | nil => exact absurd rfl hword
      | cons first more => rfl

theorem parse_of_empty {line : List Char} (h : Line.content line = []) :
    Line.parse line = .empty := by
  rw [Line.parse, h]
  rfl

/-! ## The clock -/

/-- The least frequency that all frequencies of the clock can be subtracted from. -/
def leastFrequency : Int := Text.Integer.minimum + 4000000

def improve (request : Int) (choice : Clock.Choice) (entry : Nat × Nat) : Checked Clock.Choice := do
  let distance ← subtractSigned request (entry.1 : Int)
  return if 0 ≤ distance ∧ distance < choice.distance then ⟨entry.2, distance⟩ else choice

def divider (request : Int) : Checked Nat := do
  let choice ← Clock.frequencies.zipIdx.foldlM (improve request) ⟨Clock.fallback, Clock.cutoff⟩
  return choice.divider

theorem divider_eq {request : Int} (hleast : leastFrequency ≤ request)
    (hgreatest : request ≤ Text.Integer.maximum) : divider request = .ok (Clock.divider request) := by
  have hstep : ∀ choice, ∀ entry ∈ Clock.frequencies.zipIdx,
      improve request choice entry = .ok (Clock.Choice.improve request choice entry) := by
    intro choice entry hentry
    have hfrequency : entry.1 ≤ 4000000 := by
      revert entry
      decide
    have hdistance : subtractSigned request (entry.1 : Int) = .ok (request - entry.1) := by
      unfold leastFrequency at hleast
      exact if_pos ⟨by omega, by omega⟩
    rw [improve, hdistance]
    rfl
  have hchoice : Clock.frequencies.zipIdx.foldlM (improve request)
      ⟨Clock.fallback, Clock.cutoff⟩ = .ok (id _) :=
    foldlM_eq hstep ⟨Clock.fallback, Clock.cutoff⟩
  rw [divider, hchoice]
  rfl

/-! ## Parameters -/

/-- What answers with a hazard, a fault of the line or a value. -/
abbrev Reading (α : Type) := ExceptT Fault (Except Hazard) α

variable {α β : Type}

def parameter (texts : List (List Char)) (position : Nat) : Reading (List Char) :=
  ExceptT.lift (index texts position)

def integer (texts : List (List Char)) (position : Nat) : Reading Int := do
  let text ← parameter texts position
  ExceptT.mk (.ok (Script.integer text))

def byte (texts : List (List Char)) (position : Nat) : Reading UInt8 := do
  let value ← integer texts position
  return UInt8.ofInt value

def fileName (parameters : Parameters) (position : Nat) : Reading String := do
  let text ← parameter parameters.texts position
  let name := Text.trim text
  if name.isEmpty then throw (.emptyFileName parameters.command)
  return String.ofList name

def order (parameters : Parameters) : Reading Order := do
  let texts := parameters.texts
  match parameters.command with
  | .connect =>
    let frequency ← integer texts 0
    let divider ← ExceptT.lift (divider frequency)
    return .single (.connect (UInt8.ofNat divider))
  | .disconnect => return .single .disconnect
  | .spiWrite =>
    let first ← byte texts 0
    let second ← byte texts 1
    let third ← byte texts 2
    let fourth ← byte texts 3
    return .single (.spiWrite first second third fourth)
  | .spiVerify =>
    let first ← byte texts 0
    let second ← byte texts 1
    let third ← byte texts 2
    let fourth ← byte texts 3
    let expected ← byte texts 4
    return .single (.spiVerify first second third fourth expected)
  | .program memory =>
    let name ← fileName parameters 0
    let start ← integer texts 1
    let pageSize ← integer texts 2
    return .file ⟨memory, name, start, pageSize⟩
  | .wait =>
    let value ← byte texts 0
    return .single (.wait value)
  | .countDown =>
    let value ← integer texts 0
    return .single (.countDown (UInt16.ofInt value))
  | .finish => return .single .finish

/-- Guarded readings follow each other as readings do. -/
theorem reading_bind {first : Reading α} {next : α → Reading β} {value : Except Fault α}
    {later : α → Except Fault β} (hfirst : first = .ok value)
    (hnext : ∀ result, value = .ok result → next result = .ok (later result)) :
    (first >>= next) = .ok (value >>= later) := by
  subst hfirst
  cases value with
  | error fault => rfl
  | ok result => exact hnext result rfl

variable {command : Command} {texts : List (List Char)} {position : Nat}

theorem parameter_eq (h : position < texts.length) :
    parameter texts position = .ok (Parameters.get ⟨command, texts⟩ position) := by
  rw [parameter, index_eq (List.getElem?_eq_getElem h), Parameters.get,
    List.getElem?_eq_getElem h]
  rfl

theorem integer_eq (h : position < texts.length) :
    integer texts position = .ok (Parameters.integer ⟨command, texts⟩ position) :=
  reading_bind (parameter_eq h) fun _ _ => rfl

theorem byte_eq (h : position < texts.length) :
    byte texts position = .ok (Parameters.byte ⟨command, texts⟩ position) :=
  reading_bind (integer_eq h) fun _ _ => rfl

theorem fileName_eq (h : position < texts.length) :
    fileName ⟨command, texts⟩ position = .ok (Parameters.fileName ⟨command, texts⟩ position) := by
  refine reading_bind (parameter_eq h) fun text _ => ?_
  dsimp only
  split <;> rfl

theorem le_maximum_of_value? {value : Int} (h : value? texts position = some value) :
    value ≤ Text.Integer.maximum := by
  obtain ⟨text, -, hliteral⟩ := Option.bind_eq_some_iff.mp h
  have hrange := (Option.filter_eq_some_iff.mp hliteral).2
  rw [Bool.and_eq_true, decide_eq_true_eq, decide_eq_true_eq] at hrange
  exact hrange.2

/-- No frequency is next to the least word. -/
def Clocked (command : Command) (texts : List (List Char)) : Prop :=
  command = .connect → ∀ frequency ∈ value? texts 0, leastFrequency ≤ frequency

/-- The parameters are there, because their number is checked before. -/
theorem order_eq (hcount : command.arity ≤ texts.length) (hclock : Clocked command texts) :
    order ⟨command, texts⟩ = .ok (Order.read ⟨command, texts⟩) := by
  have hindex : ∀ {position}, position < command.arity → position < texts.length :=
    fun hposition => hposition.trans_le hcount
  cases command with
  | disconnect | finish => rfl
  | connect =>
      refine reading_bind (integer_eq (hindex (by decide))) fun frequency hread => ?_
      have hfrequency : value? texts 0 = some frequency := by
        rw [← toOption_integer .connect, hread]
        rfl
      have hdivider : divider frequency = .ok (Clock.divider frequency) :=
        divider_eq (hclock rfl frequency hfrequency) (le_maximum_of_value? hfrequency)
      change (ExceptT.lift (divider frequency) >>= _ : Reading Order) = _
      rw [hdivider]
      rfl
  | wait => exact reading_bind (byte_eq (hindex (by decide))) fun _ _ => rfl
  | countDown => exact reading_bind (integer_eq (hindex (by decide))) fun _ _ => rfl
  | spiWrite =>
      exact reading_bind (byte_eq (hindex (by decide))) fun _ _ =>
        reading_bind (byte_eq (hindex (by decide))) fun _ _ =>
        reading_bind (byte_eq (hindex (by decide))) fun _ _ =>
        reading_bind (byte_eq (hindex (by decide))) fun _ _ => rfl
  | spiVerify =>
      exact reading_bind (byte_eq (hindex (by decide))) fun _ _ =>
        reading_bind (byte_eq (hindex (by decide))) fun _ _ =>
        reading_bind (byte_eq (hindex (by decide))) fun _ _ =>
        reading_bind (byte_eq (hindex (by decide))) fun _ _ =>
        reading_bind (byte_eq (hindex (by decide))) fun _ _ => rfl
  | program memory =>
      have hindex : ∀ {position}, position < 3 → position < texts.length :=
        fun hposition => hposition.trans_le hcount
      exact reading_bind (fileName_eq (hindex (by decide))) fun _ _ =>
        reading_bind (integer_eq (hindex (by decide))) fun _ _ =>
        reading_bind (integer_eq (hindex (by decide))) fun _ _ => rfl

end IspStream.Guarded
