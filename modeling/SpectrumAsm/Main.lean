/-
The assembler as a program: it reads the files below the working directory, runs its command line,
and then writes and prints what the run leaves behind.
-/
import SpectrumAsm.CommandLine.Run

namespace SpectrumAsm.Main

def placeOf (path : String) : List String := (Path.parts path).filter (· != "")

/-- The working directory and all below it. What cannot be read is left out. -/
def loadTree : IO FileTree := do
  let dir ← IO.currentDir
  let mut tree : FileTree := { workingDir := placeOf dir.toString }
  for path in ← dir.walkDir do
    let place := placeOf path.toString
    tree ← try
        if ← path.isDir then pure { tree with dirs := place :: tree.dirs }
        else pure (tree.insert place (← IO.FS.readBinFile path))
      catch _ => pure tree
  return tree

end SpectrumAsm.Main

def main (words : List String) : IO UInt32 := do
  let start ← IO.monoNanosNow
  let r := SpectrumAsm.run words (← SpectrumAsm.Main.loadTree) fun n => UInt64.ofNat (start + n)
  for (place, contents) in r.written do
    IO.FS.writeBinFile (SpectrumAsm.Path.ofParts place) contents
  for line in r.printed do
    IO.println line
  return r.exit
