import TensorCalculus.CommandLine.Report

/-! The command line. -/
namespace TensorCalculus

def failureText : IO.Error → String
  | .noFileOrDirectory .. => "No such file or directory (os error 2)"
  | e => toString e

def readFile (path : String) : IO (Except String String) := do
  match ← (IO.FS.readFile path).toBaseIO with
  | .ok text => return .ok text
  | .error e => return .error (failureText e)

end TensorCalculus

open TensorCalculus in
def main (args : List String) : IO UInt32 := do
  let outcome ← Program.run readFile args
  outcome.remarks.forM IO.eprintln
  outcome.message.forM IO.eprintln
  IO.print outcome.output
  return outcome.status.toUInt32
