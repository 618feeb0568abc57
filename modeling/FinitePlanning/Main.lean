import FinitePlanning.CommandLine.Program

/-!
The command line program on the files of the machine.
-/

namespace FinitePlanning
namespace CommandLine

/-- Whether an action succeeds. -/
def succeeds (act : IO Unit) : IO Bool := do
  try
    act
    return true
  catch _ => return false

def machineFiles : FileSystem IO where
  contains path := succeeds do
    let _ ← IO.FS.Handle.mk path .read
  readText? path := do
    try
      return String.fromUTF8? (← IO.FS.readBinFile path)
    catch _ => return none
  write path text := succeeds (IO.FS.writeFile path text)

end CommandLine
end FinitePlanning

open FinitePlanning in
def main (arguments : List String) : IO UInt32 := do
  let response ← CommandLine.run CommandLine.machineFiles arguments
  let output ← IO.getStdout
  output.putStr response.output
  output.flush
  let verbosity := ((CommandLine.Arguments.parse arguments).toOption.map (·.verbosity)).getD .info
  for entry in response.log do
    if verbosity.shows entry.level then IO.eprintln entry.text
  response.error.forM IO.eprintln
  return response.exitCode.toUInt32
