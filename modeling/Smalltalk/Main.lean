import Smalltalk.CommandLine.Basic

/-!
# The program

The outer layer: it reads the files that the options name and all of the input, lets
`runCommandLine` do the run, and writes what came of it. Nothing is decided here.
-/

namespace Smalltalk

/-- Reads all that is left of a stream. -/
partial def readAll (stream : IO.FS.Stream) (soFar : ByteArray) : IO ByteArray := do
  let chunk ← stream.read 65536
  if chunk.isEmpty then return soFar else readAll stream (soFar ++ chunk)

/-- Adds those files at the end of paths that can be read. -/
def readFiles (files : Files) : List String → IO Files
  | [] => return files
  | text :: texts => do
    let path := Path.ofString text
    let bytes? ← try some <$> IO.FS.readBinFile text catch _ => pure none
    match bytes? with
    | some bytes => readFiles (files.note path.start bytes.data.toList path.names) texts
    | none => readFiles files texts

/-- Writes the files that a run has made or changed. -/
def writeFiles (before after : Files) : IO Unit := do
  for (location, bytes) in after.entries do
    unless before.get? location == some bytes do
      IO.FS.writeBinFile location.text ⟨bytes.toArray⟩

/-- More steps than a call from outside will ever take. -/
def stepLimit : Nat := 1000000000000000000

/-- Runs the machine with the options of a command line. -/
def runProgram (o : Options) : IO UInt32 := do
  let files ← readFiles (Files.ofList []) (o.image :: o.classFiles)
  let input ← readAll (← IO.getStdin) ByteArray.empty
  let threshold : Level := if o.trace then .info else .warn
  let outcome :=
    runCommandLine stepLimit (some threshold) o files (Text.decodeLossy input.data.toList)
  let stderr ← IO.getStderr
  for event in outcome.events do
    stderr.putStrLn (event.level.name ++ " " ++ event.text)
  stderr.putStr outcome.errors
  let stdout ← IO.getStdout
  stdout.write outcome.output
  stdout.flush
  writeFiles files outcome.files
  return UInt32.ofNat outcome.code

end Smalltalk

/-- The entry point. -/
def main (args : List String) : IO UInt32 := do
  match Smalltalk.Options.parse args with
  | .ok o => Smalltalk.runProgram o
  | .error e =>
    IO.eprintln ("error: " ++ e.message)
    return 2
