/-!
# Lines of a text

A line ends at a line feed, or at the end of the text if anything follows the last line feed. A
carriage return right before a line feed belongs to the line's end; any other one is part of the
line.
-/

namespace ContextFree.Text

/-- Puts a character in front of the first line, which is begun if there is none. -/
def prepend (c : Char) : List (List Char) → List (List Char)
  | [] => [[c]]
  | line :: rest => (c :: line) :: rest

/-- The lines of a text, without the characters that end them. -/
def lines : List Char → List (List Char)
  | [] => []
  | '\r' :: '\n' :: rest => [] :: lines rest
  | '\n' :: rest => [] :: lines rest
  | c :: rest => prepend c (lines rest)

end ContextFree.Text
