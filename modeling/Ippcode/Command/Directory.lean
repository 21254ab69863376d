import Ippcode.Text.Utf8

/-!
# Directories

A directory holds files and folders. A path names a place in it : `Directory.locate` walks along
its parts, of which all but the last must be folders, leaves out empty parts and single dots, and
goes back at double dots. Places are the parts that remain.

Reading and writing are refused with a `FileError`; a refused write changes nothing.
-/

namespace Ippcode

/-! ## What can go wrong with a file -/

/-- Why a file cannot be read or written. -/
inductive FileError where
  | missing
  | notFolder
  | isFolder
  /-- The file is not text in UTF-8. -/
  | notText
  /-- Anything else that the system says. -/
  | system (message : String)
  deriving DecidableEq, Repr

/-- The text of the error. -/
def FileError.message : FileError → String
  | missing => "No such file or directory (os error 2)"
  | notFolder => "Not a directory (os error 20)"
  | isFolder => "Is a directory (os error 21)"
  | notText => "stream did not contain valid UTF-8"
  | system message => message

/-! ## Directories -/

/-- A place in a directory : the folders on the way and the last part. -/
abbrev Place := List String

/-- Files with their bytes, and folders. -/
structure Directory where
  files : List (Place × List UInt8)
  folders : List Place
  deriving DecidableEq

namespace Directory

/-- The directory that holds nothing. -/
def empty : Directory := ⟨[], []⟩

/-- Whether there is a folder at a place. The directory itself is one. -/
def hasFolder (d : Directory) (place : Place) : Bool := place.isEmpty || d.folders.contains place

/-- The bytes of the file at a place. -/
def content? (d : Directory) (place : Place) : Option (List UInt8) := d.files.lookup place

/-! ### Paths -/

/-- The parts of a path, between its slashes. -/
def parts (path : String) : List String :=
  (path.splitOn "/").filter fun part => part != "" && part != "."

/-- Whether a path can only name a folder. -/
def namesFolder (path : String) : Bool := path.endsWith "/" || path.endsWith "/." || path == "."

/-- The place that parts lead to from another place. Nothing is known of what lies outside. -/
def walk (d : Directory) (here : Place) : List String → Except FileError Place
  | [] => .ok here
  | part :: rest =>
    if d.hasFolder here then
      if part ≠ ".." then d.walk (here ++ [part]) rest
      else if here.isEmpty then .error .missing
      else d.walk here.dropLast rest
    else if (d.content? here).isSome then .error .notFolder
    else .error .missing

/-- The place that a path names. -/
def locate (d : Directory) (path : String) : Except FileError Place :=
  if path.isEmpty then .error .missing else d.walk [] (parts path)

/-! ### Reading and writing -/

/-- The bytes of the file that a path names. -/
def read (d : Directory) (path : String) : Except FileError (List UInt8) := do
  let place ← d.locate path
  if d.hasFolder place then throw .isFolder
  match d.content? place with
  | some bytes => if namesFolder path then throw .notFolder else return bytes
  | none => throw .missing

/-- The directory with a file at a place. -/
def put (d : Directory) (place : Place) (bytes : List UInt8) : Directory :=
  { d with files := (place, bytes) :: d.files.filter fun file => file.1 != place }

/-- The directory in which the file that a path names has this content. -/
def write (d : Directory) (path : String) (bytes : List UInt8) : Except FileError Directory := do
  let place ← d.locate path
  if d.hasFolder place || namesFolder path then throw .isFolder
  return d.put place bytes

theorem content?_put (d : Directory) (place other : Place) (bytes : List UInt8) :
    (d.put place bytes).content? other =
      if other = place then some bytes else d.content? other := by
  unfold put content?
  by_cases h : other = place
  · simp [h]
  · have hne : (other == place) = false := by simpa using h
    simp only [List.lookup_cons, hne, h, if_false]
    induction d.files with
    | nil => rfl
    | cons file files ih =>
      obtain ⟨p, b⟩ := file
      by_cases hp : p = place
      · simp [hp, List.lookup_cons, hne, ih]
      · by_cases ho : other = p
        · simp [← ho, h]
        · have hnp : (other == p) = false := by simpa using ho
          simp [hp, List.lookup_cons, hnp, ih]

end Directory

end Ippcode
