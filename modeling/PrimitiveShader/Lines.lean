/-!
# Lines of a text

A line ends at a line feed, together with the carriage return right before it if there is one. What
stands behind the last line feed is a line too, unless it is empty. A carriage return anywhere else
is a character like any other.
-/

namespace PrimitiveShader

namespace Lines

/-- Puts a character in front of the first line. -/
def consChar (c : Char) : List (List Char) → List (List Char)
  | [] => [[c]]
  | line :: rest => (c :: line) :: rest

/-- The lines of a list of characters. -/
def split : List Char → List (List Char)
  | [] => []
  | '\n' :: rest => [] :: split rest
  | '\r' :: '\n' :: rest => [] :: split rest
  | c :: rest => consChar c (split rest)

end Lines

/-- The lines of a text. -/
def splitLines (text : String) : List String := (Lines.split text.toList).map String.ofList

end PrimitiveShader
