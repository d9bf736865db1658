/-!
# Files

Documents are read through a `FileReader`, which answers for every path with bytes or a fault. An
immutable tree of files and directories is one: paths are relative to the root of the tree, what
lies outside of it is an empty directory, and the directories that lead to an entry exist along
with it.
-/

namespace ConfigOverlay

/-- An entry of a file tree. -/
inductive FileEntry where
  | file (content : ByteArray)
  | directory

/-- Files and directories by the names that lead to them; later entries win. -/
structure FileSystem where
  entries : List (List String × FileEntry)

/-- Why a file cannot be read. -/
inductive FileFault where
  | missing
  | notDirectory
  | isDirectory
  | nameTooLong
  | nullCharacter
  | notUtf8
deriving DecidableEq, Repr

/-- The wording of the operating system. -/
def FileFault.message : FileFault → String
  | .missing => "No such file or directory (os error 2)"
  | .notDirectory => "Not a directory (os error 20)"
  | .isDirectory => "Is a directory (os error 21)"
  | .nameTooLong => "File name too long (os error 36)"
  | .nullCharacter => "file name contained an unexpected NUL byte"
  | .notUtf8 => "stream did not contain valid UTF-8"

/-- What is at a path: the bytes of a file, or why there are none. -/
abbrev FileReader := String → Except FileFault ByteArray

/-- The text of the file at a path. -/
def FileReader.text (files : FileReader) (path : String) : Except FileFault String := do
  match String.fromUTF8? (← files path) with
  | some text => return text
  | none => throw .notUtf8

namespace FileSystem

def empty : FileSystem := ⟨[]⟩

/-- The names in a path. -/
def names (path : String) : List String := (path.toList.splitOn '/').map String.ofList

/-- The names that lead to an entry, without empty ones. -/
def location (path : String) : List String := (names path).filter fun n => n ≠ "" ∧ n ≠ "."

/-- Add a file. -/
def addFile (fs : FileSystem) (path : String) (content : ByteArray) : FileSystem :=
  ⟨(location path, .file content) :: fs.entries⟩

/-- Add a directory. -/
def addDirectory (fs : FileSystem) (path : String) : FileSystem :=
  ⟨(location path, .directory) :: fs.entries⟩

/-- The entry at a place of the tree. -/
def find? (fs : FileSystem) (place : List String) : Option FileEntry :=
  match fs.entries.find? fun e => e.1 = place with
  | some (_, entry) => some entry
  | none =>
    if place.isEmpty || fs.entries.any fun e => place.isPrefixOf e.1 then some .directory
    else none

/-- Where a walk along a path stands: so many levels above the root of the tree, or at an entry of
it, whose names are kept innermost first. -/
inductive Place where
  | above (levels : Nat)
  | inside (names : List String) (entry : FileEntry)

/-- One name further. Only a directory has names below it. -/
def step (fs : FileSystem) : Place → String → Except FileFault Place
  | .above n, name =>
    if name = "" ∨ name = "." then .ok (.above n)
    else if name = ".." then .ok (.above (n + 1))
    else if name.utf8ByteSize > 255 then .error .nameTooLong
    else .error .missing
  | .inside _ (.file _), _ => .error .notDirectory
  | .inside place .directory, name =>
    if name = "" ∨ name = "." then .ok (.inside place .directory)
    else if name = ".." then
      match place with
      | [] => .ok (.above 1)
      | _ :: parent => .ok (.inside parent .directory)
    else if name.utf8ByteSize > 255 then .error .nameTooLong
    else match fs.find? (name :: place).reverse with
      | some entry => .ok (.inside (name :: place) entry)
      | none => .error .missing

/-- The bytes of the file at a path. -/
def read (fs : FileSystem) : FileReader := fun path => do
  if path.toList.contains '\x00' then throw .nullCharacter
  if path = "" then throw .missing
  if path.utf8ByteSize > 4095 then throw .nameTooLong
  let start : Place := if path.toList.head? = some '/' then .above 0 else .inside [] .directory
  match ← (names path).foldlM fs.step start with
  | .inside _ (.file content) => return content
  | _ => throw .isDirectory

end FileSystem

end ConfigOverlay
