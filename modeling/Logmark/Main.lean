import Logmark.Command.Run

/-!
The program: the commands on the files of the machine.
-/
namespace Logmark

namespace Program

/-- Whether an action succeeds. -/
def succeeds (action : IO Unit) : IO Bool := do
  try
    action
    return true
  catch _ => return false

/-- The file beside another one that holds its next content until it is complete. -/
def draftPath (path : Text) : Text :=
  Path.entry ((Path.parent? path).getD [])
    ('.' :: (Path.name? path).getD [] ++ ".draft".toList)

end Program

open Program

instance : Files IO where
  isFile path := do
    try
      let real ← IO.FS.realPath (String.ofList path)
      return (← real.metadata).type == .file
    catch _ => return false
  isThere path := succeeds do
    let _ ← IO.FS.realPath (String.ofList path)
  read? path := do
    try
      return some (← IO.FS.readBinFile (String.ofList path))
    catch _ => return none
  canonical? path := do
    try
      return some (← IO.FS.realPath (String.ofList path)).toString.toList
    catch _ => return none
  makeDirectory path := succeeds (IO.FS.createDirAll (String.ofList path))
  write path content := succeeds (IO.FS.writeBinFile (String.ofList path) content)
  replace path content := succeeds do
    let draft := String.ofList (draftPath path)
    IO.FS.writeBinFile draft content
    IO.FS.rename draft (String.ofList path)

namespace Program

/-- The settings file in use unless another is named. -/
def usualSettings? : IO (Option Text) := do
  let configuration? ← IO.getEnv "XDG_CONFIG_HOME"
  let home? ← IO.getEnv "HOME"
  return Settings.usualPath? (configuration?.map String.toList) (home?.map String.toList)

def printLines (lines : List Text) : IO Unit :=
  lines.forM fun line => IO.println (String.ofList line)

/-- Runs the program and gives its exit code. -/
def run (args : List Text) : IO UInt32 := do
  let response : Response ← respond (← usualSettings?) args
  printLines response.lines
  response.complaint?.forM fun complaint => IO.eprintln (String.ofList complaint)
  return response.exitCode.toUInt32

end Program
end Logmark

def main (args : List String) : IO UInt32 := Logmark.Program.run (args.map String.toList)
