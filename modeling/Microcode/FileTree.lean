/-!
Files by path.  A disk answers what a path holds; a file tree is a disk whose files are known.
-/

namespace Microcode

inductive FileError where
  | notFound
  | notDirectory
  | isDirectory
  | other (text : String)
deriving DecidableEq, Repr

def FileError.message : FileError → String
  | notFound => "No such file or directory (os error 2)"
  | notDirectory => "Not a directory (os error 20)"
  | isDirectory => "Is a directory (os error 21)"
  | other text => text

structure Disk where
  read : String → Except FileError String

def Disk.isFile (d : Disk) (path : String) : Bool := match d.read path with
  | .ok _ | .error (.other _) => true
  | .error _ => false

structure FileTree where
  files : List (List String × String) := []

namespace FileTree

/-- The names on the way that a path goes, without steps that stay where they are. -/
def namesOf (path : String) : List String := (path.splitOn "/").filter fun name => name ≠ "" && name ≠ "."

def ofList (files : List (String × String)) : FileTree := ⟨files.map fun (path, text) => (namesOf path, text)⟩

def file? (t : FileTree) (names : List String) : Option String := t.files.lookup names

def isDirectory (t : FileTree) (names : List String) : Bool := names.isEmpty || t.files.any fun (other, _) =>
    names.isPrefixOf other && names.length < other.length

/-- What steps from a directory outside the tree lead to: nothing is known there but directories on
the way up. -/
def outside (steps : List String) : FileError :=
  if steps.all fun step => step = "" ∨ step = "." ∨ step = ".." then .isDirectory else .notFound

/-- The place that steps from a directory lead to.  The last step need not lead anywhere. -/
def walk (t : FileTree) : List String → List String → Except FileError (List String)
  | place, [] => .ok place
  | place, step :: rest =>
    if step = "" ∨ step = "." then t.walk place rest
    else if step = ".." then
      if place.isEmpty then .error (outside rest) else t.walk place.dropLast rest
    else
      let next := place ++ [step]
      if rest.isEmpty || t.isDirectory next then t.walk next rest
      else if (t.file? next).isSome then .error .notDirectory
      else .error .notFound

def resolve (t : FileTree) (path : String) : Except FileError (List String) := if path.isEmpty then .error .notFound
  else
    let steps := path.splitOn "/"
    if path.startsWith "/" then .error (outside steps) else t.walk [] steps

def read (t : FileTree) (path : String) : Except FileError String := do
  let place ← t.resolve path
  match t.file? place with
  | some text => pure text
  | none => throw (if t.isDirectory place then .isDirectory else .notFound)

/-- The tree after a file has been written.  A path that ends in a slash is that of a directory. -/
def write (t : FileTree) (path text : String) : Except FileError FileTree := do
  let bare := (path.dropEndWhile (· == '/')).toString
  let place ← t.resolve (if bare.isEmpty then path else bare)
  if path.endsWith "/" || t.isDirectory place then throw .isDirectory
  pure ⟨(place, text) :: t.files.filter (·.1 != place)⟩

def changedFrom (t before : FileTree) : List (String × String) :=
  (t.files.filter fun (names, text) => before.file? names != some text).map fun (names, text) =>
    ("/".intercalate names, text)

def disk (t : FileTree) : Disk := ⟨t.read⟩

end FileTree
end Microcode
