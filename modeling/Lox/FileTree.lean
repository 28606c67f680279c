/-!
# File trees

Files in nested folders, and what a path leads to among them. A path is followed name by name, so
the first name that leads nowhere decides why the whole path does.
-/

set_option autoImplicit false

namespace Lox

inductive PathFault where
  | missing
  | denied
  | notFolder
  | isFolder
  | nameTooLong
  deriving DecidableEq, Repr

def PathFault.text : PathFault → String
  | .missing => "No such file or directory (os error 2)"
  | .denied => "Permission denied (os error 13)"
  | .notFolder => "Not a directory (os error 20)"
  | .isFolder => "Is a directory (os error 21)"
  | .nameTooLong => "File name too long (os error 36)"

inductive ReadFault where
  | notOpened (fault : PathFault)
  /-- A folder can be opened, but has no contents. -/
  | notMapped
  deriving DecidableEq, Repr

structure Path where
  isAbsolute : Bool
  /-- The names between slashes; slashes in a row count as one. -/
  names : List String
  endsInSlash : Bool
  deriving DecidableEq, Repr

namespace Path

def ofText (text : String) : Path where
  isAbsolute := text.toList.head? == some '/'
  names := (text.splitOn "/").filter fun name => !name.isEmpty
  endsInSlash := text.toList.getLast? == some '/'

def lengthLimit : Nat := 4095

def nameLimit : Nat := 255

end Path

inductive Entry where
  | file (contents : ByteArray)
  | folder

/-- Files in folders. A place is the list of names that lead to it, the outermost first. -/
structure FileTree where
  files : List (List String × ByteArray)
  /-- The folder that relative paths start from. -/
  current : List String

namespace FileTree

/-- What stands at a place: a file, or a folder on the way to one or to the current folder. -/
def entry? (t : FileTree) (place : List String) : Option Entry :=
  match t.files.lookup place with
  | some contents => some (.file contents)
  | none =>
    if place.isPrefixOf t.current || t.files.any fun f => place.isPrefixOf f.1 then some .folder
    else none

def enter (t : FileTree) (folder : List String) (name : String) :
    Except PathFault (List String × Entry) :=
  if name = "." then .ok (folder, .folder)
  -- The outermost folder lies in itself.
  else if name = ".." then .ok (folder.dropLast, .folder)
  else if Path.nameLimit < name.utf8ByteSize then .error .nameTooLong
  else match t.entry? (folder ++ [name]) with
    | some entry => .ok (folder ++ [name], entry)
    | none => .error .missing

def follow (t : FileTree) (folder : List String) : List String →
    Except PathFault (List String × Entry)
  | [] => .ok (folder, .folder)
  | name :: rest =>
    match t.enter folder name with
    | .error fault => .error fault
    | .ok (place, .folder) => t.follow place rest
    | .ok (place, .file contents) =>
      if rest.isEmpty then .ok (place, .file contents) else .error .notFolder

def origin (t : FileTree) (path : Path) : List String :=
  if path.isAbsolute then [] else t.current

def path (text : String) : Except PathFault Path :=
  if text.isEmpty then .error .missing
  else if Path.lengthLimit < text.utf8ByteSize then .error .nameTooLong
  else .ok (.ofText text)

/-- What a path leads to. A slash at its end asks for a folder. -/
def find (t : FileTree) (text : String) : Except PathFault Entry := do
  let path ← path text
  match ← t.follow (t.origin path) path.names with
  | (_, .folder) => return .folder
  | (_, .file contents) => if path.endsInSlash then .error .notFolder else return .file contents

def read (t : FileTree) (text : String) : Except ReadFault ByteArray :=
  match t.find text with
  | .ok (.file contents) => .ok contents
  | .ok .folder => .error .notMapped
  | .error fault => .error (.notOpened fault)

/-- Whether a file can be written under a path: its folder has to exist, and the path must not lead
to a folder itself. -/
def create (t : FileTree) (text : String) : Except PathFault Unit := do
  let path ← path text
  match ← t.follow (t.origin path) path.names.dropLast with
  | (_, .file _) => .error .notFolder
  | (folder, .folder) =>
    if path.endsInSlash then .error .isFolder
    else match path.names.getLast? with
      | none => .error .isFolder
      | some name =>
        match t.enter folder name with
        | .ok (_, .folder) => .error .isFolder
        | .ok (_, .file _) => .ok ()
        | .error .missing => .ok ()
        | .error fault => .error fault

end FileTree

end Lox
