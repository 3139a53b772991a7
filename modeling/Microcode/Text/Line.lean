/-!
The lines of a text.  A line ends in a line feed, or in a carriage return and a line feed; the last
line may end with the text.  A carriage return anywhere else belongs to its line.
-/

namespace Microcode.Text

/-- The lines of a text, without their endings.  A text that ends in a line ending has no empty
line after it. -/
def lines : List Char → List (List Char)
  | [] => []
  | '\n' :: rest => [] :: lines rest
  | '\r' :: '\n' :: rest => [] :: lines rest
  | c :: rest =>
    match lines rest with
    | [] => [[c]]
    | line :: more => (c :: line) :: more

def joinLines : List (List Char) → List Char
  | [] => []
  | [line] => line
  | line :: more => line ++ '\n' :: joinLines more

end Microcode.Text
