import IspStream.Command
import IspStream.Text.Blank

/-!
# Script lines

A semicolon starts a comment.  The first word of what is left is the command, in
any mixture of ASCII cases, and what follows the white space behind it is a list
of parameters with commas between them.  White space around a parameter is no
part of it, but is kept until the parameter is read.
-/

namespace IspStream.Script

/-- What a script line asks for. -/
inductive Line where
  /-- Nothing: the line is blank or a comment. -/
  | empty
  /-- Something unknown, with the first word in upper case. -/
  | unknown (word : String)
  /-- A command with its parameters. -/
  | known (command : Command) (parameters : List (List Char))
deriving DecidableEq, Repr

namespace Line

/-- A line without its comment and without white space around the rest. -/
def content (line : List Char) : List Char := Text.trim (line.takeWhile (· != ';'))

/-- The parameters in the text behind a command.  Without white space behind the
command there is no such text. -/
def parameters : Option (List Char) → List (List Char)
  | none => []
  | some text => text.splitOn ','

/-- Reads a script line. -/
def parse (line : List Char) : Line :=
  match Text.splitWord (content line) with
  | ([], _) => empty
  | (word, rest) =>
    let word := String.ofList (word.map Char.toUpper)
    match Command.ofName? word with
    | none => unknown word
    | some command => known command (parameters rest)

example : parse "  wAiT 1, 2 ; 3".toList = known .wait ["1".toList, " 2".toList] := by
  decide +kernel

example : parse "WAIT,1".toList = unknown "WAIT,1" := by decide +kernel

end Line

end IspStream.Script
