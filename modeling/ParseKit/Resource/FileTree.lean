import ParseKit.Resource.Path

/-!
Files held in memory, written and read by path. A path goes on below folders only, and two dots
go back up. Writing makes the folders on the way; reading finds only what was written.
-/

namespace ParseKit

inductive FileFailure where
  | missing
  | notFolder
  | isFolder
  /-- A segment of the path has more than 255 bytes, or all of it more than 4095. -/
  | nameTooLong
  | nulInName
deriving DecidableEq

def FileFailure.message : FileFailure → String
  | missing => "No such file or directory (os error 2)"
  | notFolder => "Not a directory (os error 20)"
  | isFolder => "Is a directory (os error 21)"
  | nameTooLong => "File name too long (os error 36)"
  | nulInName => "file name contained an unexpected NUL byte"

/-- A file or folder by the way to it from a root folder: so many folders up, then down along
names. -/
structure Place where
  up : Nat
  names : List String
deriving DecidableEq

namespace Place

def root : Place := ⟨0, []⟩

def child (p : Place) (name : String) : Place := ⟨p.up, p.names ++ [name]⟩

def parent (p : Place) : Place :=
  if p.names.isEmpty then ⟨p.up + 1, []⟩ else ⟨p.up, p.names.dropLast⟩

end Place

structure FileTree where
  root : String
  folders : List Place
  files : List (Place × ByteArray)

namespace FileTree

def ofRoot (root : String) : FileTree := ⟨root, [], []⟩

def file? (t : FileTree) (place : Place) : Option ByteArray := t.files.lookup place

/-- Whether there is a folder: one that was made, the root, or one above the root. -/
def isFolder (t : FileTree) (place : Place) : Bool :=
  place.names.isEmpty || t.folders.contains place

def contains (t : FileTree) (place : Place) : Bool := (t.file? place).isSome || t.isFolder place

def step (t : FileTree) (place : Place) (segment : String) : Except FileFailure Place :=
  if (t.file? place).isSome then .error .notFolder
  else if 255 < segment.utf8ByteSize then .error .nameTooLong
  else if Path.isVoid segment.toList then .ok place
  else if segment == ".." then .ok place.parent
  else .ok (place.child segment)

def walk (t : FileTree) (place : Place) : List String → Except FileFailure Place
  | [] => .ok place
  | segment :: rest => do
    let next ← t.step place segment
    if t.contains next then t.walk next rest else throw .missing

def makeFolders (t : FileTree) (place : Place) :
    List String → Except FileFailure (Place × FileTree)
  | [] => .ok (place, t)
  | segment :: rest => do
    let next ← t.step place segment
    let t := if t.contains next then t else { t with folders := next :: t.folders }
    t.makeFolders next rest

/-- Refuses a path that could name nothing, whatever there is. -/
def checkPath (path : Path) : Except FileFailure Unit :=
  if path.text.toList.contains '\x00' then .error .nulInName
  else if path.text.isEmpty then .error .missing
  else if 4095 < path.text.utf8ByteSize then .error .nameTooLong
  else .ok ()

def write (t : FileTree) (path : String) (bytes : ByteArray) : Except FileFailure FileTree := do
  checkPath ((Path.mk t.root).join ⟨path⟩)
  let segments := (Path.segments path.toList).map String.ofList
  let (folder, t) ← t.makeFolders .root segments.dropLast
  let place ← t.step folder (segments.getLastD "")
  if t.isFolder place then throw .isFolder
  else return { t with files := (place, bytes) :: t.files }

/-- Reads the file of a path. Of paths that start elsewhere than at the root folder, only the
start is known to exist. -/
def read (t : FileTree) (path : Path) : Except FileFailure ByteArray := do
  checkPath path
  let segments := (Path.segments path.text.toList).map String.ofList
  let known := segments.head? = some t.root
  let t := if known then t else .ofRoot t.root
  let place ← t.walk .root (if known then segments.tail else segments)
  match t.file? place with
  | some bytes => return bytes
  | none => throw .isFolder

end FileTree

end ParseKit
