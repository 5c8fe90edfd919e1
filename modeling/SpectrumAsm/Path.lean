/-
Names of files: parts between slashes, absolute if a slash comes first.
-/
namespace SpectrumAsm.Path

/-- The parts between the slashes; there is always at least one, perhaps empty. -/
def splitSlashes : List Char → List (List Char)
  | [] => [[]]
  | c :: cs =>
    match splitSlashes cs with
    | [] => [[c]]
    | part :: parts => if c == '/' then [] :: part :: parts else (c :: part) :: parts

def parts (path : String) : List String :=
  (splitSlashes path.toList).map String.ofList

def isAbsolute (path : String) : Bool := path.toList.head? == some '/'

def ofParts (parts : List String) : String := "/" ++ "/".intercalate parts

def join (dir path : String) : String :=
  if isAbsolute path || dir.isEmpty then path
  else if dir.toList.getLast? == some '/' then dir ++ path
  else dir ++ "/" ++ path

/-- Slashes and single dots between slashes at the end of a reversed path are left out. -/
def trimEnd : List Char → List Char
  | '.' :: '/' :: cs => trimEnd ('/' :: cs)
  | '/' :: cs => if cs.isEmpty then ['/'] else trimEnd cs
  | cs => cs
termination_by cs => cs.length

/-- The directory part of a path to a file: all up to the last slash, without superfluous slashes
and dots before it. -/
def parent (path : String) : String :=
  String.ofList (trimEnd (path.toList.reverse.dropWhile (· != '/'))).reverse

end SpectrumAsm.Path
