import IspStream.Text.Blank
import Mathlib.Data.List.TakeWhile
import Mathlib.Data.List.Basic

/-!
# White space around words and between commas

White space at an end of a text is gone after trimming, whatever else is there, and the two
ends do not get in each other's way (`trimStart_trimEnd`).  So a text may be trimmed once
more, before or after white space is put around it.

Commas are no white space.  The parts between them are therefore the same after trimming,
whether or not the whole was trimmed before (`parts_trim`).
-/

namespace IspStream.Text

/-- There is nothing but white space. -/
def Blank (text : List Char) : Prop := ∀ character ∈ text, isBlank character = true

/-- There is no white space. -/
def Solid (text : List Char) : Prop := ∀ character ∈ text, isBlank character = false

-- characters are finitely many, and a search for the instance may find all of them
instance (text : List Char) : Decidable (Blank text) := List.decidableBAll _ text

instance (text : List Char) : Decidable (Solid text) := List.decidableBAll _ text

variable {blanks text word rest : List Char}

theorem Blank.notMem (h : Blank text) (character : Char) (hsolid : isBlank character = false) :
    character ∉ text := by
  intro hmem
  rw [h character hmem] at hsolid
  cases hsolid

/-! ## Trimming -/

@[simp] theorem trimStart_nil : trimStart [] = [] := rfl

@[simp] theorem trimEnd_nil : trimEnd [] = [] := rfl

theorem trimStart_cons (first : Char) (rest : List Char) :
    trimStart (first :: rest) = if isBlank first = true then trimStart rest else first :: rest :=
  List.dropWhile_cons

theorem trimEnd_cons (first : Char) (rest : List Char) :
    trimEnd (first :: rest) =
      if isBlank first = true ∧ trimEnd rest = [] then [] else first :: trimEnd rest := by
  simp only [trimEnd, List.reverse_cons, List.dropWhile_append, List.isEmpty_iff,
    List.reverse_eq_nil_iff]
  by_cases hrest : rest.reverse.dropWhile isBlank = []
  · rw [if_pos hrest, hrest, List.dropWhile_cons]
    split <;> simp [*]
  · simp [hrest]

theorem trimStart_append (h : Blank blanks) (text : List Char) :
    trimStart (blanks ++ text) = trimStart text :=
  List.dropWhile_append_of_pos h

theorem trimEnd_append (text : List Char) (h : Blank blanks) :
    trimEnd (text ++ blanks) = trimEnd text := by
  rw [trimEnd, List.reverse_append, List.dropWhile_append_of_pos (by simpa [Blank] using h),
    trimEnd]

/-- The two ends of a text do not get in each other's way. -/
theorem trimStart_trimEnd (text : List Char) : trimStart (trimEnd text) = trim text := by
  rw [trim]
  induction text with
  | nil => rfl
  | cons first rest ih =>
      rw [trimStart_cons, trimEnd_cons]
      by_cases hfirst : isBlank first = true
      · rw [if_pos hfirst, ← ih]
        split
        · rename_i hrest
          rw [hrest.2]
        · rw [trimStart_cons, if_pos hfirst]
      · rw [if_neg (fun h => hfirst h.1), if_neg hfirst, trimStart_cons, if_neg hfirst,
          trimEnd_cons, if_neg (fun h => hfirst h.1)]

theorem trim_append_left (h : Blank blanks) (text : List Char) :
    trim (blanks ++ text) = trim text := by
  rw [trim, trimStart_append h, trim]

theorem trim_append_right (text : List Char) (h : Blank blanks) :
    trim (text ++ blanks) = trim text := by
  rw [← trimStart_trimEnd, trimEnd_append text h, trimStart_trimEnd]

/-- Trimming takes white space away at both ends. -/
theorem exists_trim (text : List Char) :
    ∃ lead trail, Blank lead ∧ Blank trail ∧ text = lead ++ (trim text ++ trail) := by
  refine ⟨text.takeWhile isBlank, ((trimStart text).reverse.takeWhile isBlank).reverse,
    fun _ => List.mem_takeWhile_imp,
    fun _ hmem => List.mem_takeWhile_imp (List.mem_reverse.mp hmem), ?_⟩
  rw [trim, trimEnd, ← List.reverse_append, List.takeWhile_append_dropWhile, List.reverse_reverse,
    trimStart, List.takeWhile_append_dropWhile]

@[simp] theorem trim_trim (text : List Char) : trim (trim text) = trim text := by
  obtain ⟨lead, trail, hlead, htrail, htext⟩ := exists_trim text
  conv_rhs => rw [htext, trim_append_left hlead, trim_append_right _ htrail]

theorem trim_eq_nil_iff : trim text = [] ↔ Blank text := by
  constructor
  · intro h
    obtain ⟨lead, trail, hlead, htrail, htext⟩ := exists_trim text
    rw [htext, h]
    intro character hmem
    rcases List.mem_append.mp hmem with hmem | hmem
    · exact hlead character hmem
    · exact htrail character hmem
  · intro h
    rw [← List.append_nil text, trim_append_left h]
    rfl

theorem trimEnd_eq_nil_iff : trimEnd text = [] ↔ trim text = [] := by
  constructor
  · intro h
    rw [← trimStart_trimEnd, h, trimStart_nil]
  · intro h
    rw [← List.nil_append text, trimEnd_append [] (trim_eq_nil_iff.mp h), trimEnd_nil]

/-- What is left by trimming at the end begins as before. -/
theorem head?_trimEnd {first : Char} (h : first ∈ (trimEnd text).head?) : first ∈ text.head? := by
  cases text with
  | nil => exact h
  | cons character rest =>
      rw [trimEnd_cons] at h
      split at h
      · cases h
      · exact h

/-! ## Words -/

theorem trimEnd_append_of_solid (hword : Solid word) (rest : List Char) :
    trimEnd (word ++ rest) = word ++ trimEnd rest := by
  induction word with
  | nil => rfl
  | cons first more ih =>
      have hfirst := hword first List.mem_cons_self
      rw [List.cons_append, trimEnd_cons, if_neg (by simp [hfirst]),
        ih fun character hmem => hword character (List.mem_cons_of_mem _ hmem), List.cons_append]

/-- A text that starts with a word is trimmed behind it. -/
theorem trim_append_of_solid (hword : Solid word) (hne : word ≠ []) (rest : List Char) :
    trim (word ++ rest) = word ++ trimEnd rest := by
  obtain ⟨first, more, rfl⟩ := List.exists_cons_of_ne_nil hne
  have hfirst := hword first List.mem_cons_self
  rw [trim, List.cons_append, trimStart_cons, if_neg (by simp [hfirst]), ← List.cons_append,
    trimEnd_append_of_solid hword]

/-- The first word ends where white space follows it. -/
theorem splitWord_append (hword : Solid word) (hrest : ∀ first ∈ rest.head?, isBlank first = true) :
    splitWord (word ++ rest) = (word, if rest = [] then none else some (trimStart rest)) := by
  have hsolid : ∀ character ∈ word, (!isBlank character) = true := by
    intro character hmem
    rw [hword character hmem]
    rfl
  rw [splitWord, List.takeWhile_append_of_pos hsolid, List.dropWhile_append_of_pos hsolid]
  cases rest with
  | nil => simp
  | cons first more => simp [hrest first rfl]

/-- A text that is not blank begins with a word, apart from white space. -/
theorem exists_word (h : trim text ≠ []) :
    ∃ lead word rest, text = lead ++ word ++ rest ∧ Blank lead ∧ word ≠ [] ∧ Solid word ∧
      ∀ first ∈ rest.head?, isBlank first = true := by
  cases hstart : trimStart text with
  | nil => exact absurd (by rw [trim, hstart, trimEnd_nil]) h
  | cons first more =>
      have hfirst := List.head?_dropWhile_not isBlank text
      rw [← trimStart, hstart, List.head?_cons] at hfirst
      refine ⟨text.takeWhile isBlank, (first :: more).takeWhile fun character => !isBlank character,
        (first :: more).dropWhile fun character => !isBlank character, ?_,
        fun _ => List.mem_takeWhile_imp, ?_, ?_, ?_⟩
      · rw [List.append_assoc, List.takeWhile_append_dropWhile, ← hstart, trimStart,
          List.takeWhile_append_dropWhile]
      · rw [List.takeWhile_cons_of_pos (by simpa using hfirst)]
        exact List.cons_ne_nil _ _
      · intro character hmem
        simpa using List.mem_takeWhile_imp hmem
      · intro character hcharacter
        have hblank :=
          List.head?_dropWhile_not (fun character => !isBlank character) (first :: more)
        rw [Option.mem_def.mp hcharacter] at hblank
        simpa using hblank

/-! ## Commas -/

/-- The parts between the commas of a text, without white space around them. -/
def parts (text : List Char) : List (List Char) := (text.splitOn ',').map trim

theorem parts_append_comma (text rest : List Char) :
    parts (text ++ ',' :: rest) = parts text ++ parts rest := by
  rw [parts, List.splitOn_append_cons_self, List.map_append, parts, parts]

theorem parts_append_left (h : Blank blanks) (text : List Char) :
    parts (blanks ++ text) = parts text := by
  induction blanks with
  | nil => rfl
  | cons first more ih =>
      have hfirst : (first == ',') = false := by
        rw [beq_eq_false_iff_ne]
        rintro rfl
        exact h.notMem ',' (by decide) List.mem_cons_self
      have hskip : ∀ piece, trim (first :: piece) = trim piece := by
        intro piece
        rw [trim, trimStart_cons, if_pos (h first List.mem_cons_self), trim]
      rw [← ih fun character hmem => h character (List.mem_cons_of_mem _ hmem), List.cons_append,
        parts, List.splitOn_cons_eq_if_modifyHead, hfirst, parts]
      cases (more ++ text).splitOn ',' with
      | nil => rfl
      | cons piece others => simp [hskip]

/-- White space at the end of a text is at the end of its last part.

The induction is about the ends of the parts only, because a character in front of a part can
keep white space from being trimmed there. -/
theorem parts_append_right (text : List Char) (h : Blank blanks) :
    parts (text ++ blanks) = parts text := by
  have hends : ((text ++ blanks).splitOn ',').map trimEnd = (text.splitOn ',').map trimEnd := by
    induction text with
    | nil =>
        rw [List.nil_append, List.splitOn_eq_singleton (h.notMem ',' (by decide)), List.splitOn_nil,
          List.map_singleton, List.map_singleton]
        exact congrArg (fun piece => [piece]) (trimEnd_append [] h)
    | cons first rest ih =>
        rw [List.cons_append, List.splitOn_cons_eq_if_modifyHead,
          List.splitOn_cons_eq_if_modifyHead]
        split
        · rw [List.map_cons, List.map_cons, ih]
        · cases hpieces : (rest ++ blanks).splitOn ',' with
          | nil => exact absurd hpieces (List.splitOn_ne_nil ',' _)
          | cons piece more =>
              cases hothers : rest.splitOn ',' with
              | nil => exact absurd hothers (List.splitOn_ne_nil ',' _)
              | cons other others =>
                  rw [hpieces, hothers, List.map_cons, List.map_cons, List.cons.injEq] at ih
                  simp [trimEnd_cons, ih]
  have hstarts := congrArg (List.map trimStart) hends
  simpa only [parts, List.map_map, Function.comp_def, trimStart_trimEnd] using hstarts

theorem parts_trim (text : List Char) : parts (trim text) = parts text := by
  obtain ⟨lead, trail, hlead, htrail, htext⟩ := exists_trim text
  conv_rhs => rw [htext, parts_append_left hlead, parts_append_right _ htrail]

end IspStream.Text
