import IspStream.Proofs.Text.Words
import IspStream.Script.Line
import IspStream.Text.Lines

/-!
# The lines of texts put together

Behind a line feed a text goes on as if it started there, and in front of it every line is
complete (`lines_append`).  So a text in front of a line feed has the lines that it has by
itself, apart from its last one: an empty one counts as a line there, and a carriage return
at its end belongs to the line end.  `exists_last_line` names that line.  Since it is not
empty if it counts as a line, a text has no more lines than characters
(`length_lines_le`).

A script line does not notice the difference, since a carriage return at its end is white
space (`parse_dropReturn`).
-/

namespace IspStream

namespace Text

/-! ## Lines -/

/-- A text has one piece more than it has separators. -/
theorem length_splitOn (separator : Char) (text : List Char) :
    (text.splitOn separator).length = text.count separator + 1 := by
  induction text with
  | nil => simp
  | cons first rest ih =>
      rw [List.splitOn_cons_eq_if_modifyHead, List.count_cons]
      split
      · rw [List.length_cons, ih]
      · rw [List.length_modifyHead, ih]

theorem eq_dropReturn_or (line : List Char) :
    dropReturn line = line ∨ line = dropReturn line ++ ['\r'] := by
  unfold dropReturn
  split
  · rename_i hreturn
    exact Or.inr (List.dropLast_append_getLast? '\r' hreturn).symm
  · exact Or.inl rfl

/-- Every line in front of a line feed is complete. -/
theorem lines_append (first second : List Char) :
    lines (first ++ '\n' :: second) = (first.splitOn '\n').map dropReturn ++ lines second := by
  have hne := List.splitOn_ne_nil '\n' second
  rw [lines, lines, List.splitOn_append_cons_self, List.dropLast_append_of_ne_nil hne,
    List.map_append, List.getLast?_append_of_ne_nil _ hne]
  rcases (second.splitOn '\n').getLast? with _ | _ | ⟨character, rest⟩
  · rfl
  · rfl
  · exact List.append_assoc ..

/-- The last line of a text is not ended, and if it is empty it is none. -/
theorem exists_last_line (text : List Char) :
    ∃ ended last, text.splitOn '\n' = ended ++ [last] ∧
      lines text = ended.map dropReturn ++ if last = [] then [] else [last] := by
  rcases List.eq_nil_or_concat (text.splitOn '\n') with hnone | ⟨ended, last, hpieces⟩
  · exact absurd hnone (List.splitOn_ne_nil '\n' text)
  · rw [List.concat_eq_append] at hpieces
    refine ⟨ended, last, hpieces, ?_⟩
    rw [lines, hpieces, List.dropLast_concat, List.getLast?_concat]
    cases last with
    | nil => exact (List.append_nil _).symm
    | cons character rest => rfl

/-- The pieces of a text are what it holds besides its separators. -/
theorem flatten_splitOn (separator : Char) (text : List Char) :
    (text.splitOn separator).flatten = text.filter (· != separator) := by
  induction text with
  | nil => rfl
  | cons first rest ih =>
      rw [List.splitOn_cons_eq_if_modifyHead, List.filter_cons]
      by_cases hfirst : (first == separator) = true
      · rw [if_pos hfirst, if_neg (by simpa using hfirst), List.flatten_cons, List.nil_append, ih]
      · rw [if_neg hfirst, if_pos (by simpa using hfirst), ← ih]
        cases hpieces : rest.splitOn separator with
        | nil => exact absurd hpieces (List.splitOn_ne_nil separator rest)
        | cons piece more => rfl

/-- No line holds a line feed. -/
theorem not_mem_of_mem_lines {line text : List Char} (h : line ∈ lines text) : '\n' ∉ line := by
  have hpieces : ∀ piece ∈ text.splitOn '\n', '\n' ∉ piece := by
    intro piece hpiece hfeed
    have hmem := List.mem_flatten.mpr ⟨piece, hpiece, hfeed⟩
    rw [flatten_splitOn, List.mem_filter] at hmem
    exact absurd hmem.2 (by decide)
  obtain ⟨ended, last, hsplit, hlines⟩ := exists_last_line text
  rw [hsplit] at hpieces
  rw [hlines, List.mem_append] at h
  rcases h with hended | hlast
  · obtain ⟨piece, hpiece, rfl⟩ := List.mem_map.mp hended
    intro hfeed
    refine hpieces piece (List.mem_append_left _ hpiece) ?_
    unfold dropReturn at hfeed
    split at hfeed
    · exact (List.dropLast_sublist _).subset hfeed
    · exact hfeed
  · split at hlast
    · cases hlast
    · obtain rfl := List.mem_singleton.mp hlast
      exact hpieces line (List.mem_append_right _ List.mem_cons_self)

/-- Every line has a character of its own, the last one since it is not empty. -/
theorem length_lines_le (text : List Char) : (lines text).length ≤ text.length := by
  obtain ⟨ended, last, hsplit, hlines⟩ := exists_last_line text
  have hcount := length_splitOn '\n' text
  have hle : text.count '\n' ≤ text.length := List.count_le_length
  rw [hsplit, List.length_append, List.length_singleton] at hcount
  rw [hlines, List.length_append, List.length_map]
  split
  · rw [List.length_nil]
    omega
  · rename_i hlast
    have hmore : text.count '\n' ≠ text.length := by
      intro hall
      obtain ⟨character, rest, rfl⟩ := List.exists_cons_of_ne_nil hlast
      have hmem : character ∈ text.filter (· != '\n') := by
        rw [← flatten_splitOn, hsplit, List.flatten_append]
        exact List.mem_append_right _ (by simp)
      obtain ⟨htext, hfeed⟩ := List.mem_filter.mp hmem
      exact bne_iff_ne.mp hfeed (List.count_eq_length.mp hall character htext).symm
    rw [List.length_singleton]
    omega

end Text

namespace Script.Line

/-- A line without its comment. -/
def uncommented (line : List Char) : List Char := line.takeWhile (· != ';')

variable {line blanks : List Char}

theorem uncommented_append (h : ';' ∉ line) (rest : List Char) :
    uncommented (line ++ rest) = line ++ uncommented rest :=
  List.takeWhile_append_of_pos fun _ hmem => bne_iff_ne.mpr (ne_of_mem_of_not_mem hmem h)

theorem uncommented_append_of_mem (h : ';' ∈ line) (rest : List Char) :
    uncommented (line ++ rest) = uncommented line := by
  rw [uncommented, List.takeWhile_append, if_neg]
  · rfl
  · intro hall
    rw [← (List.takeWhile_prefix _).eq_of_length hall] at h
    exact absurd (List.mem_takeWhile_imp h) (by decide)

theorem uncommented_eq_self (h : ';' ∉ line) : uncommented line = line := by
  rw [← List.append_nil line, uncommented_append h, uncommented, List.takeWhile_nil]

/-- White space at the end of a script line makes no difference, in a comment or not. -/
theorem content_append_blanks (line : List Char) (h : Text.Blank blanks) :
    content (line ++ blanks) = content line := by
  by_cases hcomment : ';' ∈ line
  · exact congrArg Text.trim (uncommented_append_of_mem hcomment blanks)
  · rw [content, ← uncommented, uncommented_append hcomment,
      uncommented_eq_self (h.notMem ';' (by decide)), Text.trim_append_right _ h, content,
      ← uncommented, uncommented_eq_self hcomment]

theorem blank_return : Text.Blank ['\r'] := by decide

/-- A carriage return at the end of a script line makes no difference. -/
theorem parse_dropReturn (line : List Char) : parse (Text.dropReturn line) = parse line := by
  rcases Text.eq_dropReturn_or line with hsame | hreturn
  · rw [hsame]
  · have hcontent : content line = content (Text.dropReturn line) := by
      calc content line
        _ = content (Text.dropReturn line ++ ['\r']) := congrArg content hreturn
        _ = content (Text.dropReturn line) := content_append_blanks _ blank_return
    rw [parse, parse, hcontent]

end Script.Line

end IspStream
