/-
The files an assembly can read: absolute paths with contents, and the working directory.

`locate` follows a path part by part, so a path through something that is no directory fails even if it comes
back, and two names of one file lead to the same place.
-/
import SpectrumAsm.Path

namespace SpectrumAsm

inductive FileFault where
  | notFound
  | notDirectory
  | isDirectory
  | nameTooLong
  | nulInName
  | notText
  deriving DecidableEq, Repr

def FileFault.message : FileFault → String
  | notFound => "No such file or directory (os error 2)"
  | notDirectory => "Not a directory (os error 20)"
  | isDirectory => "Is a directory (os error 21)"
  | nameTooLong => "File name too long (os error 36)"
  | nulInName => "file name contained an unexpected NUL byte"
  | notText => "stream did not contain valid UTF-8"

/-- Files with their contents and further directories, all by their absolute parts. -/
structure FileTree where
  workingDir : List String := []
  files : List (List String × ByteArray) := []
  dirs : List (List String) := []

namespace FileTree

def file? (t : FileTree) (place : List String) : Option ByteArray :=
  t.files.lookup place

def insert (t : FileTree) (place : List String) (contents : ByteArray) : FileTree :=
  { t with files := (place, contents) :: t.files.filter (·.1 != place) }

/-- Whether a place is a directory: one that is listed or leads to something that is. -/
def isDir (t : FileTree) (place : List String) : Bool :=
  place.isPrefixOf t.workingDir || t.dirs.any place.isPrefixOf ||
    t.files.any fun f => place.isPrefixOf f.1 && place != f.1

/-- All places there are: the working directory, the directories and the files, and what lies on the
way to them. -/
def places (t : FileTree) : List (List String) :=
  (t.workingDir :: t.dirs ++ t.files.map (·.1)).flatMap fun place =>
    (List.range (place.length + 1)).map place.take

def maxName : Nat := 255

def maxPath : Nat := 4095

def enter (t : FileTree) (place : List String) (part : String) : Except FileFault (List String) :=
  if !t.isDir place then .error .notDirectory
  else if part == "" || part == "." then .ok place
  else if part == ".." then .ok place.dropLast
  else if part.utf8ByteSize > maxName then .error .nameTooLong
  else
    let next := place ++ [part]
    if (t.file? next).isSome || t.isDir next then .ok next else .error .notFound

def follow (t : FileTree) (place : List String) (parts : List String) :
    Except FileFault (List String) :=
  parts.foldlM t.enter place

def checkPath (path : String) : Except FileFault Unit :=
  if path.toList.contains '\x00' then .error .nulInName
  else if path.isEmpty then .error .notFound
  else if path.utf8ByteSize > maxPath then .error .nameTooLong
  else .ok ()

def origin (t : FileTree) (path : String) : List String :=
  if Path.isAbsolute path then [] else t.workingDir

def locate (t : FileTree) (path : String) : Except FileFault (List String) := do
  checkPath path
  t.follow (t.origin path) (Path.parts path)

def canonical? (t : FileTree) (path : String) : Option String :=
  match t.locate path with
  | .ok place => some (Path.ofParts place)
  | .error _ => none

def read (t : FileTree) (path : String) : Except FileFault ByteArray := do
  match t.file? (← t.locate path) with
  | some contents => return contents
  | none => throw .isDirectory

def readText (t : FileTree) (path : String) : Except FileFault String := do
  match String.fromUTF8? (← t.read path) with
  | some text => return text
  | none => throw .notText

/-- The place of a file to be written. All directories on the way have to exist, and the last part
has to be a name. -/
def locateNew (t : FileTree) (path : String) : Except FileFault (List String) := do
  checkPath path
  let parts := (Path.parts path).reverse
  match parts.dropWhile (· == "") with
  | [] => throw .isDirectory
  | last :: before =>
    let place ← t.follow (t.origin path) before.reverse
    if !t.isDir place then throw .notDirectory
    else if parts.head? == some "" || last == "." || last == ".." then throw .isDirectory
    else if last.utf8ByteSize > maxName then throw .nameTooLong
    else if t.isDir (place ++ [last]) then throw .isDirectory
    else return place ++ [last]

end FileTree

end SpectrumAsm
