import LetFn.CommandLine

/-!
# The program

Runs the command line on real files.
-/

open LetFn

/-- The file of a name, read as a whole. -/
def readNamed (name : String) : IO FileRead := do
  try
    return .ofBytes? (some (← IO.FS.readBinFile name))
  catch _ =>
    return .missing

def main (args : List String) : IO UInt32 := do
  let reads ← (args.take 2).mapM fun name => return (name, ← readNamed name)
  let outcome := CommandLine.run (fun name => (reads.lookup name).getD .missing) args
  IO.print outcome.stdout
  IO.eprint outcome.stderr
  return outcome.code
