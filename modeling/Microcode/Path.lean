/-!
Paths of files: names with slashes between them.
-/

namespace Microcode.Path

/-- A path, last character first, without the slashes and single dots that it ends in.  A dot that is the
whole path stays, and so does the slash of the root. -/
def trimEnd : List Char → List Char
  | ['/'] => ['/']
  | '/' :: rest => trimEnd rest
  | '.' :: '/' :: rest => trimEnd ('/' :: rest)
  | cs => cs

/-- The path of the directory that a path is in; none for the root and for the empty path. -/
def parent? (path : String) : Option String := match trimEnd path.toList.reverse with
  | [] | ['/'] => none
  | cs => some (String.ofList (trimEnd (cs.dropWhile (· != '/'))).reverse)

/-- The paths of a directory and of those that it is in, the nearest first; at most so many. -/
def ancestors : Nat → String → List String
  | 0, path => [path]
  | depth + 1, path =>
    path :: match parent? path with
      | some up => ancestors depth up
      | none => []

def selfAndAncestors (path : String) : List String := ancestors path.length path

def join (directory path : String) : String := if path.startsWith "/" || directory.isEmpty then path
  else if directory.endsWith "/" then directory ++ path
  else directory ++ "/" ++ path

/-- A file name, last character first, without its last dot and what follows.  A dot in front does not
count. -/
def stem (name : List Char) : List Char := match name.dropWhile (· != '.') with
  | '.' :: c :: rest => c :: rest
  | _ => name

/-- The path with another extension; a path that names no file stays as it is. -/
def withExtension (path ext : String) : String :=
  let cs := trimEnd path.toList.reverse
  let name := cs.takeWhile (· != '/')
  if name = [] ∨ name = ['.'] ∨ name = ['.', '.'] then path
  else String.ofList (stem name ++ cs.dropWhile (· != '/')).reverse ++ "." ++ ext

end Microcode.Path
