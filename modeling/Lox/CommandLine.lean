/-
The command line: what is asked for, and what each request answers.

Arguments are taken one after another, and the first that decides the outcome —
an option, or a mistake — decides it whatever follows.  Running a script and
running the prompt are functions from bytes to what appears on the standard
streams; only reading those bytes is left to others.
-/
import Lox.Session

namespace Lox.CommandLine

/-! ### Arguments -/

/-- What the arguments ask for. -/
inductive Request where
  | help
  | version
  | prompt
  | script (path : String)
  /-- The arguments make no sense. -/
  | misuse
deriving DecidableEq, Repr

/-- The request for the script, or for the prompt if there is none. -/
def ofScript? : Option String → Request
  | none => .prompt
  | some path => .script path

/-- Take an argument as the script; there is one at most, and it has a name. -/
def takeScript (script : Option String) (argument : String) (next : Option String → Request) :
    Request :=
  if argument = "" || script.isSome then .misuse else next (some argument)

/-- The request after `--`, behind which every argument is a script. -/
def requestOfPaths (script : Option String) : List String → Request
  | [] => ofScript? script
  | argument :: rest => takeScript script argument fun script => requestOfPaths script rest

/-- The request made by arguments, given the script found before them. -/
def requestAfter (script : Option String) : List String → Request
  | [] => ofScript? script
  | argument :: rest =>
    match argument.toList with
    | ['-', '-'] => requestOfPaths script rest
    | '-' :: '-' :: _ =>
      if argument = "--help" then .help
      else if argument = "--version" then .version
      else .misuse
    | '-' :: 'h' :: _ => .help
    | '-' :: 'V' :: _ => .version
    | '-' :: _ :: _ => .misuse
    | _ => takeScript script argument fun script => requestAfter script rest

/-- The request made by arguments. -/
def request (arguments : List String) : Request := requestAfter none arguments

/-! ### Texts -/

/-- The answer to a request for help. -/
def helpText : String :=
  "Runs a Lox script, or starts an interactive prompt when none is given\n\n" ++
  "Usage: lox [SCRIPT]\n\n" ++
  "Arguments:\n" ++
  "  [SCRIPT]  \n\n" ++
  "Options:\n" ++
  "  -h, --help     Print help\n" ++
  "  -V, --version  Print version\n"

/-- The answer to a request for the version. -/
def versionText : String := "lox 0.1.0\n"

/-- The answer to misuse. -/
def usageText : String := "Usage: lox [SCRIPT]\n"

/-- What is shown before each line is read. -/
def promptText : String := "> "

/-- The exit code of misuse. -/
def misuseCode : Nat := 64

/-- The exit code of input that cannot be read. -/
def unreadableCode : Nat := 74

/-- Why input cannot be read. -/
inductive ReadFault where
  | notFound
  | accessDenied
  /-- The path goes on behind a file that is no directory. -/
  | notDirectory
  | isDirectory
  | nameTooLong
  | invalidUTF8
  /-- Anything else the system has to say. -/
  | other (message : String)
deriving DecidableEq, Repr

/-- The wording of a read fault, as the system has it. -/
def ReadFault.message : ReadFault → String
  | notFound => "No such file or directory (os error 2)"
  | accessDenied => "Permission denied (os error 13)"
  | notDirectory => "Not a directory (os error 20)"
  | isDirectory => "Is a directory (os error 21)"
  | nameTooLong => "File name too long (os error 36)"
  | invalidUTF8 => "stream did not contain valid UTF-8"
  | other message => message

/-! ### Answers -/

/-- What a request leaves on the standard streams, and the code it exits with. -/
structure Transcript where
  output : ByteArray
  errors : String
  exitCode : Nat

/-- Each text on a line of its own. -/
def lines (texts : List String) : String :=
  String.join (texts.map (· ++ "\n"))

/-- The reports of a run, each on a line of its own. -/
def report (result : RunResult) : String :=
  lines (result.diagnostics.map Diagnostic.text)

/-- Run a script, given the bytes of its file or the reason there are none. -/
def runScript (m : Machine) (fuel : Nat) (contents : Except ReadFault ByteArray) : Transcript :=
  let source := do
    match String.fromUTF8? (← contents) with
    | some source => pure source
    | none => throw ReadFault.invalidUTF8
  match source with
  | .error fault => ⟨.empty, lines [fault.message], unreadableCode⟩
  | .ok source =>
    let (result, m) := m.run fuel source
    ⟨m.output.written, report result, result.exitCode⟩

/-! ### The prompt

What is answered to one line is the same whether all lines are there from the start or
each is read when the prompt asks for it.  So a line is answered by itself, and only
what goes along the lines is a loop.
-/

/-- The lines of an input, each with the newline that ends it. -/
def splitLines : List UInt8 → List (List UInt8)
  | [] => []
  | byte :: rest =>
    if byte = 10 then [byte] :: splitLines rest
    else match splitLines rest with
      | [] => [[byte]]
      | line :: more => (byte :: line) :: more

/-- Show text on the machine's output. -/
def display (m : Machine) (text : String) : Machine :=
  { m with output := (m.output.write text).1 }

/-- What comes of a line that was read at the prompt. -/
structure Round where
  /-- The machine that the line leaves. -/
  machine : Machine
  /-- What is reported. -/
  errors : String
  /-- The code with which the prompt exits, if it ends here. -/
  exitCode? : Option Nat

/-- Answer what was read at the prompt.  Whatever goes wrong when a line is run is reported and
does not end the prompt.  A line that is no text ends it, and so does the end of the input, where
there is no line. -/
def answerLine (m : Machine) (fuel : Nat) : Option ByteArray → Round
  | none => ⟨m, "", some 0⟩
  | some line =>
    match String.fromUTF8? line with
    | none => ⟨m, lines [ReadFault.invalidUTF8.message], some unreadableCode⟩
    | some source =>
      let (result, m) := m.run fuel source
      ⟨m, report result, none⟩

/-- What is left when the prompt ends with this round.  `errors` is what was reported before. -/
def Round.transcript (round : Round) (errors : String) : Transcript :=
  ⟨round.machine.output.written, errors ++ round.errors, round.exitCode?.getD 0⟩

/-- Answer lines one after another, showing the prompt before each and at the end.  `errors` is what
was reported before. -/
def runLines (m : Machine) (fuel : Nat) (errors : String) : List (List UInt8) → Transcript
  | [] => (answerLine (display m promptText) fuel none).transcript errors
  | line :: rest =>
    let round := answerLine (display m promptText) fuel (some line.toByteArray)
    if round.exitCode?.isSome then round.transcript errors
    else runLines round.machine fuel (errors ++ round.errors) rest

/-- Run the prompt on an input. -/
def runPrompt (m : Machine) (fuel : Nat) (input : ByteArray) : Transcript :=
  runLines m fuel "" (splitLines input.toList)

end Lox.CommandLine
