/-!
# Lines

A line ends at a line feed, and one carriage return directly before that line
feed belongs to the line end.  A text that ends in a line feed has no further
empty line, and a last line without a line feed keeps its carriage return.
-/

namespace IspStream.Text

/-- A line without the carriage return of its line end. -/
def dropReturn (line : List Char) : List Char :=
  if line.getLast? = some '\r' then line.dropLast else line

/-- The lines of a text. -/
def lines (text : List Char) : List (List Char) :=
  let pieces := text.splitOn '\n'
  -- every piece but the last one was ended by a line feed
  let ended := pieces.dropLast.map dropReturn
  match pieces.getLast? with
  | some (character :: rest) => ended ++ [character :: rest]
  | _ => ended

example : lines "a\r\n\nb\r".toList = ["a".toList, [], "b\r".toList] := by decide

example : lines "a\r\r\n".toList = ["a\r".toList] := by decide

end IspStream.Text
