import IspStream.Proofs.Script.Statements
import IspStream.Proofs.Text.Letters
import Mathlib.Logic.Relation

/-!
# The spelling of a script

A script may be laid out in many ways.  `Line.Respelled` lists what may be done to a line,
`Line.Idle` which lines may be put between others, and `Respelled` says that a script comes
from another one by such an edit.  However many edits are made or undone, the compiler leaves
the same image and its result is the same (`compile_of_spelledAlike`).

## Strategy

By `compileLines_of_statements` it is enough that the statements stay the same, and these can
be read off the texts between line feeds (`statements_lines`).

* **The ends of a line and its comment.**  They are gone before a line is split into words, so
  that the content of the line is the same.
* **The first word.**  A line whose first word is known is a command and a text behind it
  (`statement?_word`).  The command depends on the word in upper case, and the operands on the
  fields of the text, which are trimmed.  So white space next to the word or to a comma is not
  seen.
* **Further parameters.**  They are fields behind those that the command reads.
-/

namespace IspStream

namespace Script

namespace Line

open Text (Blank)

/-! ## Edits of a line -/

/-- A word of a script line, in front of its comment. -/
structure Word (word : List Char) : Prop where
  ne_nil : word ≠ []
  solid : Text.Solid word
  uncommented : ';' ∉ word

/-- A text behind which a word is complete. -/
def Follows (rest : List Char) : Prop :=
  ∀ first ∈ rest.head?, Text.isBlank first = true ∨ first = ';'

/-- A comment with its semicolon, or no text at all. -/
def Comment (text : List Char) : Prop := ∀ first ∈ text.head?, first = ';'

/-- An edit that makes no difference to what a line asks for. -/
inductive Respelled : List Char → List Char → Prop where
  /-- The first word is written with other ASCII cases. -/
  | case {lead word other rest : List Char} (indent : Blank lead) (first : Word word)
      (ends : Follows rest) (upper_eq : other.map Char.toUpper = word.map Char.toUpper) :
      Respelled (lead ++ word ++ rest) (lead ++ other ++ rest)
  /-- There is other white space at the start. -/
  | leading {old new : List Char} (old_blank : Blank old) (new_blank : Blank new)
      (rest : List Char) : Respelled (old ++ rest) (new ++ rest)
  /-- There is other white space at the end, or in front of the comment. -/
  | trailing {old new comment : List Char} (front : List Char) (old_blank : Blank old)
      (new_blank : Blank new) (closing : Comment comment) :
      Respelled (front ++ old ++ comment) (front ++ new ++ comment)
  /-- There is other white space between the first word and what follows. -/
  | separator {lead word old new : List Char} (indent : Blank lead) (first : Word word)
      (old_blank : Blank old) (old_ne : old ≠ []) (new_blank : Blank new) (new_ne : new ≠ [])
      (rest : List Char) : Respelled (lead ++ word ++ old ++ rest) (lead ++ word ++ new ++ rest)
  /-- There is other white space on the two sides of a comma, which is separated from the first
  word and no part of a comment. -/
  | comma {lead word gap front old new old' new' : List Char} (indent : Blank lead)
      (first : Word word) (gap_blank : Blank gap) (gap_ne : gap ≠ []) (plain : ';' ∉ front)
      (old_blank : Blank old) (new_blank : Blank new) (old_blank' : Blank old')
      (new_blank' : Blank new') (rest : List Char) :
      Respelled (lead ++ word ++ (gap ++ front ++ old ++ ',' :: (old' ++ rest)))
        (lead ++ word ++ (gap ++ front ++ new ++ ',' :: (new' ++ rest)))
  /-- There is a comment at the end. -/
  | comment (line text : List Char) : Respelled line (line ++ ';' :: text)
  /-- A command that reads parameters and has all of them has further ones. -/
  | surplus {head more comment : List Char} {command : Command} {texts : List (List Char)}
      (parsed : parse head = .known command texts) (reads : 0 < command.arity)
      (complete : command.arity ≤ texts.length) (plain : ';' ∉ head) (more_plain : ';' ∉ more)
      (closing : Comment comment) : Respelled (head ++ comment) (head ++ ',' :: more ++ comment)

/-- A line that asks for nothing the compiler does. -/
inductive Idle : List Char → Prop where
  /-- The line is blank. -/
  | blank {line : List Char} (blank : Blank line) : Idle line
  /-- There is only a comment. -/
  | comment {lead : List Char} (indent : Blank lead) (text : List Char) :
      Idle (lead ++ ';' :: text)
  /-- The first word is no command in any ASCII case. -/
  | unknown {lead word rest : List Char} (indent : Blank lead) (first : Word word)
      (ends : Follows rest)
      (unknown : ∀ command : Command, word.map Char.toUpper ≠ command.name.toList) :
      Idle (lead ++ word ++ rest)

variable {lead word other rest text comment line : List Char} {command : Command}

/-! ## The text in front of the comment -/

theorem uncommented_of_comment (h : Comment comment) : uncommented comment = [] := by
  cases comment with
  | nil => rfl
  | cons first more =>
      obtain rfl := h first rfl
      rfl

theorem uncommented_append_comment (text : List Char) (h : Comment comment) :
    uncommented (text ++ comment) = uncommented text := by
  by_cases hcomment : ';' ∈ text
  · exact uncommented_append_of_mem hcomment comment
  · rw [uncommented_append hcomment, uncommented_of_comment h, List.append_nil,
      uncommented_eq_self hcomment]

theorem head?_uncommented (h : Follows rest) :
    ∀ first ∈ (uncommented rest).head?, Text.isBlank first = true := by
  intro first hfirst
  cases rest with
  | nil => cases hfirst
  | cons character more =>
      rcases h character rfl with hblank | rfl
      · rw [uncommented, List.takeWhile_cons] at hfirst
        split at hfirst
        · cases hfirst
          exact hblank
        · cases hfirst
      · cases hfirst

theorem content_append_comment (line : List Char) (h : Comment comment) :
    content (line ++ comment) = content line :=
  congrArg Text.trim (uncommented_append_comment line h)

theorem content_append_left (h : Blank lead) (line : List Char) :
    content (lead ++ line) = content line := by
  have huncommented := uncommented_append (h.notMem ';' (by decide)) line
  calc content (lead ++ line)
    _ = Text.trim (lead ++ uncommented line) := congrArg Text.trim huncommented
    _ = content line := Text.trim_append_left h _

/-! ## The first word and the fields behind it -/

/-- The parts between commas in the text behind a word, without white space around them.
There are none in a blank text. -/
def fields (text : List Char) : List (List Char) :=
  if Text.trim text = [] then [] else Text.parts text

theorem fields_append_left (h : Blank lead) (text : List Char) :
    fields (lead ++ text) = fields text := by
  rw [fields, Text.trim_append_left h, Text.parts_append_left h, fields]

theorem fields_append_comma (text rest : List Char) :
    fields (text ++ ',' :: rest) = Text.parts text ++ Text.parts rest := by
  have hcomma : Text.trim (text ++ ',' :: rest) ≠ [] := by
    intro hnil
    exact (Text.trim_eq_nil_iff.mp hnil).notMem ',' (by decide)
      (List.mem_append_right _ List.mem_cons_self)
  rw [fields, if_neg hcomma, Text.parts_append_comma]

/-- The operands of a command are the first fields. -/
theorem operands_parameters (command : Command) (text : List Char) :
    operands command
        (parameters (if Text.trimEnd text = [] then none else some (Text.trim text))) =
      (fields text).take command.arity := by
  simp only [fields, Text.trimEnd_eq_nil_iff]
  split
  · rw [parameters, operands, List.take_nil, List.map_nil]
  · rw [parameters, operands, List.map_take, ← Text.parts_trim, Text.parts]

/-- What a line with a first word asks for. -/
theorem statement?_word (hlead : Blank lead) (hword : Word word) (hrest : Follows rest) :
    statement? (lead ++ word ++ rest) =
      (Command.ofName? (String.ofList (word.map Char.toUpper))).map fun command =>
        (command, (fields (uncommented rest)).take command.arity) := by
  have hcontent : content (lead ++ word ++ rest) = word ++ Text.trimEnd (uncommented rest) := by
    have huncommented := uncommented_append hword.uncommented rest
    rw [List.append_assoc, content_append_left hlead, content, ← uncommented, huncommented,
      Text.trim_append_of_solid hword.solid hword.ne_nil]
  have hbehind : ∀ first ∈ (Text.trimEnd (uncommented rest)).head?,
      Text.isBlank first = true := by
    intro first hfirst
    exact head?_uncommented hrest first (Text.head?_trimEnd hfirst)
  rw [statement?, parse, hcontent, Text.splitWord_append hword.solid hbehind,
    Text.trimStart_trimEnd]
  obtain ⟨first, more, rfl⟩ := List.exists_cons_of_ne_nil hword.ne_nil
  simp only
  cases Command.ofName? (String.ofList ((first :: more).map Char.toUpper)) with
  | none => rfl
  | some command => exact congrArg (fun list => some (command, list)) (operands_parameters ..)

/-! ## Edited lines -/

/-- Writing a word in another case gives a word. -/
theorem Word.of_upper_eq (h : Word word) (hupper : other.map Char.toUpper = word.map Char.toUpper) :
    Word other := by
  have hletter : ∀ character ∈ other, ∃ old ∈ word, character.toUpper = old.toUpper := by
    intro character hmem
    have hmap := List.mem_map_of_mem (f := Char.toUpper) hmem
    rw [hupper] at hmap
    obtain ⟨old, hold, hsame⟩ := List.mem_map.mp hmap
    exact ⟨old, hold, hsame.symm⟩
  refine ⟨?_, ?_, ?_⟩
  · rintro rfl
    exact h.ne_nil (List.map_eq_nil_iff.mp hupper.symm)
  · intro character hmem
    obtain ⟨old, hold, hsame⟩ := hletter character hmem
    rw [← Text.isBlank_toUpper, hsame, Text.isBlank_toUpper]
    exact h.solid old hold
  · intro hmem
    obtain ⟨old, hold, hsame⟩ := hletter ';' hmem
    have hsemicolon := Text.eq_of_toUpper_eq (by decide) (by decide) hsame.symm
    exact h.uncommented (hsemicolon ▸ hold)

/-- White space is what a word may be followed by. -/
theorem follows_append {gap : List Char} (h : Blank gap) (hne : gap ≠ []) (rest : List Char) :
    Follows (gap ++ rest) := by
  intro first hfirst
  obtain ⟨character, more, rfl⟩ := List.exists_cons_of_ne_nil hne
  cases hfirst
  exact Or.inl (h first List.mem_cons_self)

/-- A command that has what it reads is a word with enough parts behind it. -/
theorem exists_parts {texts : List (List Char)} (hparse : parse line = .known command texts)
    (hreads : 0 < command.arity) (hcomplete : command.arity ≤ texts.length)
    (hplain : ';' ∉ line) :
    ∃ lead word rest, line = lead ++ word ++ rest ∧ Blank lead ∧ Word word ∧ Follows rest ∧
      Command.ofName? (String.ofList (word.map Char.toUpper)) = some command ∧
      Text.trim rest ≠ [] ∧ command.arity ≤ (Text.parts rest).length := by
  have hleft : Text.trim line ≠ [] := by
    intro hnil
    rw [← uncommented_eq_self hplain] at hnil
    have hnone := statement?_eq_none_of_content hnil
    rw [statement?_of_parse hparse] at hnone
    cases hnone
  obtain ⟨lead, word, rest, rfl, hlead, hne, hsolid, hblank⟩ := Text.exists_word hleft
  have hword : Word word := ⟨hne, hsolid, fun hmem => hplain (by simp [hmem])⟩
  have hrest : Follows rest := fun first hfirst => Or.inl (hblank first hfirst)
  have hstatement := statement?_word hlead hword hrest
  rw [statement?_of_parse hparse, uncommented_eq_self fun hmem => hplain (by simp [hmem])]
    at hstatement
  obtain ⟨_, hname, hsame⟩ := Option.map_eq_some_iff.mp hstatement.symm
  obtain ⟨rfl, hoperands⟩ := Prod.mk.inj hsame
  have hcount := congrArg List.length hoperands
  rw [List.length_take, length_operands, fields] at hcount
  split at hcount
  · rw [List.length_nil] at hcount
    omega
  · rename_i hsome
    exact ⟨lead, word, rest, rfl, hlead, hword, hrest, hname, hsome, by omega⟩

/-- Further parameters stand behind those that a command reads. -/
theorem statement?_surplus {more : List Char} {texts : List (List Char)}
    (hparse : parse line = .known command texts) (hreads : 0 < command.arity)
    (hcomplete : command.arity ≤ texts.length) (hplain : ';' ∉ line) (hmore : ';' ∉ more) :
    statement? (line ++ ',' :: more) = statement? line := by
  obtain ⟨lead, word, rest, rfl, hlead, hword, hrest, hname, hsome, hcount⟩ :=
    exists_parts hparse hreads hcomplete hplain
  have hbehind : Follows (rest ++ ',' :: more) := by
    cases rest with
    | nil => exact absurd rfl hsome
    | cons first others => exact hrest
  have hrestPlain : ';' ∉ rest := fun hmem => hplain (by simp [hmem])
  have hbehindPlain : ';' ∉ rest ++ ',' :: more := by simp [hrestPlain, hmore]
  rw [List.append_assoc, statement?_word hlead hword hbehind, statement?_word hlead hword hrest,
    hname, Option.map_some, Option.map_some, uncommented_eq_self hbehindPlain,
    uncommented_eq_self hrestPlain, fields_append_comma, fields, if_neg hsome,
    List.take_append_of_le_length hcount]

/-- White space on the two sides of a comma is on the outside of the parts there. -/
theorem statement?_comma {gap front blanks blanks' : List Char} (hlead : Blank lead)
    (hword : Word word) (hgap : Blank gap) (hne : gap ≠ []) (hplain : ';' ∉ front)
    (hbefore : Blank blanks) (hafter : Blank blanks') (rest : List Char) :
    statement? (lead ++ word ++ (gap ++ front ++ blanks ++ ',' :: (blanks' ++ rest))) =
      (Command.ofName? (String.ofList (word.map Char.toUpper))).map fun command =>
        (command, (Text.parts front ++ Text.parts (uncommented rest)).take command.arity) := by
  have hends : Follows (gap ++ front ++ blanks ++ ',' :: (blanks' ++ rest)) := by
    rw [List.append_assoc, List.append_assoc]
    exact follows_append hgap hne _
  have huncommented : uncommented (gap ++ front ++ blanks ++ ',' :: (blanks' ++ rest)) =
      gap ++ front ++ blanks ++ ',' :: (blanks' ++ uncommented rest) := by
    have hfront : ';' ∉ gap ++ front ++ blanks ++ ',' :: blanks' := by
      simp [hplain, hgap.notMem ';' (by decide), hbefore.notMem ';' (by decide),
        hafter.notMem ';' (by decide)]
    simpa using uncommented_append hfront rest
  rw [statement?_word hlead hword hends, huncommented, fields_append_comma,
    Text.parts_append_right _ hbefore, Text.parts_append_left hgap, Text.parts_append_left hafter]

/-- A respelled line makes the same statement. -/
theorem Respelled.statement?_eq (h : Respelled line other) :
    statement? other = statement? line := by
  cases h with
  | case indent first ends upper_eq =>
      rw [statement?_word indent first ends,
        statement?_word indent (first.of_upper_eq upper_eq) ends, upper_eq]
  | leading old_blank new_blank rest =>
      refine statement?_congr ?_
      rw [content_append_left old_blank, content_append_left new_blank]
  | trailing front old_blank new_blank closing =>
      refine statement?_congr ?_
      rw [content_append_comment _ closing, content_append_comment _ closing,
        content_append_blanks _ old_blank, content_append_blanks _ new_blank]
  | separator indent first old_blank old_ne new_blank new_ne rest =>
      rw [List.append_assoc _ _ rest, List.append_assoc _ _ rest,
        statement?_word indent first (follows_append old_blank old_ne rest),
        statement?_word indent first (follows_append new_blank new_ne rest),
        uncommented_append (old_blank.notMem ';' (by decide)),
        uncommented_append (new_blank.notMem ';' (by decide)), fields_append_left old_blank,
        fields_append_left new_blank]
  | comma indent first gap_blank gap_ne plain old_blank new_blank old_blank' new_blank' rest =>
      rw [statement?_comma indent first gap_blank gap_ne plain old_blank old_blank',
        statement?_comma indent first gap_blank gap_ne plain new_blank new_blank']
  | comment line text =>
      have hcomment : Comment (';' :: text) := fun _ hfirst => (Option.some.inj hfirst).symm
      exact statement?_congr (content_append_comment line hcomment)
  | surplus parsed reads complete plain more_plain closing =>
      rw [statement?_congr (content_append_comment _ closing),
        statement?_congr (content_append_comment _ closing),
        statement?_surplus parsed reads complete plain more_plain]

/-- An idle line makes no statement. -/
theorem Idle.statement?_eq_none (h : Idle line) : statement? line = none := by
  cases h with
  | blank blank =>
      refine statement?_eq_none_of_content ?_
      rw [← List.append_nil line, content_append_left blank]
      rfl
  | comment indent text =>
      refine statement?_eq_none_of_content ?_
      rw [content_append_left indent]
      rfl
  | @unknown lead word rest indent first ends unknown =>
      have hname : Command.ofName? (String.ofList (word.map Char.toUpper)) = none := by
        refine List.find?_eq_none.mpr fun command _ hfound => unknown command ?_
        rw [beq_iff_eq.mp hfound, String.toList_ofList]
      rw [statement?_word indent first ends, hname, Option.map_none]

end Line

/-! ## Edits of a script -/

/-- A script is edited at one place, where the lines of a script are what stands between its
line feeds. -/
inductive Respelled (script other : String) : Prop where
  /-- One line is respelled. -/
  | line {before after : List (List Char)} {line new : List Char}
      (old_lines : script.toList.splitOn '\n' = before ++ line :: after)
      (new_lines : other.toList.splitOn '\n' = before ++ new :: after)
      (respelled : Line.Respelled line new)
  /-- One line feed gets a carriage return in front of it. -/
  | line_end {before after : List (List Char)} {line : List Char}
      (old_lines : script.toList.splitOn '\n' = before ++ line :: after)
      (new_lines : other.toList.splitOn '\n' = before ++ (line ++ ['\r']) :: after)
      (ended : after ≠ [])
  /-- There is one more idle line. -/
  | insert {before after : List (List Char)} {line : List Char}
      (old_lines : script.toList.splitOn '\n' = before ++ after)
      (new_lines : other.toList.splitOn '\n' = before ++ line :: after)
      (idle : Line.Idle line)

/-- One script comes from the other by edits that are made or undone. -/
def SpelledAlike : String → String → Prop := Relation.EqvGen Respelled

/-- Edits keep the statements. -/
theorem Respelled.statements_eq {script other : String} (h : Respelled script other) :
    statements (Text.lines other.toList) = statements (Text.lines script.toList) := by
  rw [statements_lines, statements_lines]
  cases h with
  | line old_lines new_lines respelled =>
      rw [old_lines, new_lines, statements_replace respelled.statement?_eq]
  | line_end old_lines new_lines ended =>
      rw [old_lines, new_lines]
      exact statements_replace
        (Line.statement?_congr (Line.content_append_blanks _ Line.blank_return))
  | insert old_lines new_lines idle =>
      rw [old_lines, new_lines, statements, List.filterMap_append,
        List.filterMap_cons_none idle.statement?_eq_none, ← List.filterMap_append, statements]

theorem SpelledAlike.statements_eq {script other : String} (h : SpelledAlike script other) :
    statements (Text.lines other.toList) = statements (Text.lines script.toList) := by
  induction h with
  | rel _ _ hedit => exact hedit.statements_eq
  | refl _ => rfl
  | symm _ _ _ ih => exact ih.symm
  | trans _ _ _ _ _ first second => exact second.trans first

end Script

namespace Compiler

open Script

/-- **The spelling of a script does not matter.**  Edits that change the layout of a script
change neither the image nor the result, except that the line that fails may have another
number. -/
theorem compile_of_spelledAlike (compiler : Compiler) {script other : String}
    (h : SpelledAlike script other) (image : Image) (position : Nat) :
    let one := compiler.compile script image position
    let two := compiler.compile other image position
    two.image = one.image ∧
      compiler.EndsAlike ⟨image, position⟩ (Text.lines script.toList) (Text.lines other.toList)
        one.result two.result :=
  compileLines_of_statements h.statements_eq

/-- A command is written in upper case and gets a parameter too many, and a comment stands in
front of it. -/
theorem compile_of_spelledAlike_wait :
    let compiler : Compiler := ⟨⟨16, 64, none⟩, fun _ => .ok ""⟩
    let one := compiler.compile "wait x" (Image.blank 8) 0
    let two := compiler.compile ";\nWAIT x,2" (Image.blank 8) 0
    SpelledAlike "wait x" ";\nWAIT x,2" ∧ two.image = one.image ∧
      compiler.EndsAlike ⟨Image.blank 8, 0⟩ (Text.lines "wait x".toList)
        (Text.lines ";\nWAIT x,2".toList) one.result two.result ∧
      one.result = .error (.script (.invalidInteger "x") 1) ∧
      two.result = .error (.script (.invalidInteger "x") 2) := by
  intro compiler one two
  have hcase : Line.Respelled "wait x".toList "WAIT x".toList :=
    .case (by decide : Text.Blank []) (⟨by decide, by decide, by decide⟩ : Line.Word "wait".toList)
      (Line.follows_append (by decide : Text.Blank [' ']) (by decide) ['x'])
      (by decide : "WAIT".toList.map _ = _)
  have hsurplus : Line.Respelled "WAIT x".toList "WAIT x,2".toList :=
    .surplus (by decide +kernel : Line.parse "WAIT x".toList = .known .wait ["x".toList])
      (by decide) (by decide) (by decide) (by decide : ';' ∉ "2".toList) (nofun : Line.Comment [])
  have hspelled : SpelledAlike "wait x" ";\nWAIT x,2" :=
    .trans _ "WAIT x" _
      (.rel _ _ (.line (by decide : _ = [] ++ "wait x".toList :: [])
        (by decide : _ = [] ++ "WAIT x".toList :: []) hcase))
      (.trans _ "WAIT x,2" _
        (.rel _ _ (.line (by decide : _ = [] ++ "WAIT x".toList :: [])
          (by decide : _ = [] ++ "WAIT x,2".toList :: []) hsurplus))
        (.rel _ _ (.insert (by decide : _ = [] ++ ["WAIT x,2".toList])
          (by decide : _ = [] ++ ";".toList :: ["WAIT x,2".toList])
          (.comment (by decide : Text.Blank []) []))))
  exact ⟨hspelled, (compile_of_spelledAlike compiler hspelled (Image.blank 8) 0).1,
    (compile_of_spelledAlike compiler hspelled (Image.blank 8) 0).2, by decide +kernel,
    by decide +kernel⟩

end Compiler

end IspStream
