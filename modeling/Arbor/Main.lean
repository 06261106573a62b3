import Arbor.CommandLine.Answer
import Std.Time.Format
/-!
# The program

The outside of the program: arguments, clock, files and streams. Standard input is read to its end
before anything runs, and the output is written when everything has run.
-/
namespace Arbor

def ampleFuel : Nat := 4000000000000000000

def Clock.read : IO Clock := do
  let now ← Std.Time.DateTime.now
  return {
    date := now.format "EEE MMM dd uuuu"
    time := Float.ofInt now.timestamp.toMillisecondsSinceUnixEpoch.val }

/-- The bytes of a stream up to its end, after those that were read before. -/
partial def readToEnd (stream : IO.FS.Stream) (before : ByteArray) : IO ByteArray := do
  let bytes ← stream.read 65536
  if bytes.isEmpty then return before else readToEnd stream (before ++ bytes)

def CommandLine.Entry.ofError : IO.Error → CommandLine.Entry
  | .noFileOrDirectory .. => .missing
  | .inappropriateType _ code _ => if code = 21 then .directory else .missing
  | e => .textless (toString e)

def CommandLine.Entry.read (path : String) : IO CommandLine.Entry := do
  try return .ofBytes (← IO.FS.readBinFile path)
  catch e => return .ofError e

end Arbor

def main (arguments : List String) : IO UInt32 := do
  let clock ← Arbor.Clock.read
  let input ← Arbor.readToEnd (← IO.getStdin) .empty
  let entry ← match Arbor.CommandLine.Request.ofArguments arguments with
    | .ok { file := some path, .. } => Arbor.CommandLine.Entry.read path
    | _ => pure .missing
  match Arbor.CommandLine.answer Arbor.ampleFuel arguments clock (fun _ => entry)
      (Arbor.Line.all input) with
  | some a =>
    IO.print a.output
    IO.eprint a.complaint
    return a.code.toUInt32
  | none => return 1
