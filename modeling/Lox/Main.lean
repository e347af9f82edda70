/-
The program: the command line, connected to files and to the standard streams.
-/
import Lox.CommandLine
import Std.Time.DateTime.Timestamp

namespace Lox.Main

open CommandLine

/-- More fuel than any run can use up. -/
def fuel : Nat := 1000000000000000000

/-- A clock that shows the present time at its first reading and moves on by a microsecond with
every other. -/
def startClock : IO (Nat → Number) := do
  let now ← Std.Time.Timestamp.now
  let microseconds := now.toNanosecondsSinceUnixEpoch.val / 1000
  pure fun reading => .ofFloat (Float.ofInt (microseconds + reading) / 1000000)

/-- The number of a system error, which is negative if opening the file met it. -/
def systemNumber (code : UInt32) : Nat :=
  if code < 0x80000000 then code.toNat else (0 - code).toNat

/-- Why a file cannot be read, given what the system reports. -/
def readFault (e : IO.Error) : ReadFault :=
  match e with
  | .noFileOrDirectory .. => .notFound
  | .permissionDenied .. => .accessDenied
  | .inappropriateType _ code _ =>
    if systemNumber code = 20 then .notDirectory else .isDirectory
  | .invalidArgument _ code _ =>
    if systemNumber code = 36 then .nameTooLong else .other (toString e)
  | _ => .other (toString e)

/-- The bytes of a file, or why there are none. -/
def readScript (path : String) : IO (Except ReadFault ByteArray) := do
  try
    let bytes ← IO.FS.readBinFile path
    pure (.ok bytes)
  catch e => pure (.error (readFault e))

/-- The bytes of the next line of a stream, its newline included, behind those read already; none
at the end. -/
partial def readLine (stream : IO.FS.Stream) (line : ByteArray) : IO (Option ByteArray) := do
  let bytes ← stream.read 1
  let line := line ++ bytes
  if bytes.isEmpty || bytes.data.contains 10 then
    pure (if line.isEmpty then none else some line)
  else readLine stream line

/-- Write bytes and text to the standard streams. -/
def respond (output : ByteArray) (errors : String) : IO Unit := do
  let stdout ← IO.getStdout
  stdout.write output
  stdout.flush
  (← IO.getStderr).putStr errors

/-- Prompt for lines and answer them until one ends the prompt.  What a line has printed is written
out at once, so nothing is left of it on the machine. -/
partial def promptLoop (m : Machine) : IO UInt32 := do
  respond promptText.toUTF8 ""
  let line ← readLine (← IO.getStdin) .empty
  let round := answerLine { m with output := .empty none } fuel line
  respond round.machine.output.written round.errors
  match round.exitCode? with
  | some code => pure code.toUInt32
  | none => promptLoop round.machine

/-- Do what the arguments ask for, and give the exit code. -/
def run (arguments : List String) : IO UInt32 := do
  let m := Machine.start (← startClock) none
  match request arguments with
  | .help =>
    respond helpText.toUTF8 ""
    pure 0
  | .version =>
    respond versionText.toUTF8 ""
    pure 0
  | .misuse =>
    respond .empty usageText
    pure misuseCode.toUInt32
  | .prompt => promptLoop m
  | .script path =>
    let transcript := runScript m fuel (← readScript path)
    respond transcript.output transcript.errors
    pure transcript.exitCode.toUInt32

end Lox.Main

/-- The program. -/
def main (arguments : List String) : IO UInt32 := Lox.Main.run arguments
