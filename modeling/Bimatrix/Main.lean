import Bimatrix.Report

/-! # The program

Reads the files that a command names and prints the lines of its report.
-/
namespace Bimatrix

def readContent (path : String) : IO (Option ByteArray) := do
  try
    return some (← IO.FS.readBinFile path)
  catch _ => return none

def snapshot (paths : List String) : IO Files := do
  let contents ← paths.mapM fun path => return (path, ← readContent path)
  return fun path => (contents.find? fun x => x.1 == path).bind Prod.snd

def usage : String :=
  "usage: solve (GAME | --csv P1 P2) [OPTIONS] | random N M [OPTIONS]"

end Bimatrix

open Bimatrix

def main (words : List String) : IO UInt32 := do
  match Command.ofWords? words with
  | .error .help =>
    IO.println usage
    return 0
  | .error .version => return 0
  | .error _ =>
    IO.eprintln usage
    return 2
  | .ok command =>
    match command.run (← snapshot command.paths) with
    | .ok lines =>
      lines.forM IO.println
      return 0
    | .error fault =>
      IO.eprintln fault.message
      return 1
