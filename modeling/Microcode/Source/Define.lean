/-!
Named replacements in a source text.  A defined name is replaced wherever it stands as a whole word
outside quotes; what replaces it is searched for names again, down to a fixed depth.
-/

namespace Microcode.Source

/-- A name starts with a letter or an underscore.  Only ASCII letters form names here. -/
def isNameStart (c : Char) : Bool := c.isAlpha || c == '_'

def isNameChar (c : Char) : Bool := c.isAlphanum || c == '_'

/-- Names and what stands for them.  Of two entries for one name the first counts. -/
structure Defines where
  entries : List (List Char × List Char) := []

namespace Defines

def get? (d : Defines) (name : List Char) : Option (List Char) := d.entries.lookup name

def contains (d : Defines) (name : List Char) : Bool := (d.get? name).isSome

def insert (d : Defines) (name value : List Char) : Defines := ⟨(name, value) :: d.entries.filter (·.1 != name)⟩

def erase (d : Defines) (name : List Char) : Defines := ⟨d.entries.filter (·.1 != name)⟩

/-- The table of a list of texts; a later definition of a name counts. -/
def ofList (pairs : List (String × String)) : Defines :=
  pairs.foldl (fun d (name, value) => d.insert name.toList value.toList) {}

end Defines

/-- Each word outside quotes replaced.  A quote opens a string and the next one closes it; what
follows a digit belongs to its number and is no word. -/
def replaceWords (replace : List Char → List Char) (quoted : Bool) (text : List Char) : List Char := match text with
  | [] => []
  | c :: rest =>
    if c = '"' then c :: replaceWords replace (!quoted) rest
    else if !quoted && isNameStart c then
      replace (c :: rest.takeWhile isNameChar) ++ replaceWords replace quoted (rest.dropWhile isNameChar)
    else if c.isDigit then
      (c :: rest.takeWhile isNameChar) ++ replaceWords replace quoted (rest.dropWhile isNameChar)
    else c :: replaceWords replace quoted rest
termination_by text.length
decreasing_by all_goals
    have := (List.dropWhile_sublist isNameChar (l := rest)).length_le
    simp_all +arith

def expansionDepth : Nat := 16

/-- The text with every defined name replaced; a replacement is itself expanded while depth is left,
and then taken as it is. -/
def Defines.expand (d : Defines) : Nat → List Char → List Char
  | 0 => replaceWords (fun word => (d.get? word).getD word) false
  | depth + 1 =>
    replaceWords (fun word =>
      match d.get? word with
      | some value => d.expand depth value
      | none => word) false

def Defines.expandLine (d : Defines) (line : List Char) : List Char := d.expand expansionDepth line

end Microcode.Source
