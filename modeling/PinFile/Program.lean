import PinFile.Command.Reader
import PinFile.Command.Run
import PinFile.Log

/-!
# The program

One run of the program: it reads its arguments, carries the command out on a file tree, and
answers with an exit status, output, the log lines that the filter lets through, and the tree as
it is then. The status is 0 when the files passed, 1 when they did not, and 2 when the arguments
or the command failed.
-/

namespace PinFile

open Log

/-- What a run of the program gives back. -/
structure RunResult where
  status : Nat
  output : String
  log : List String
  files : FileTree
  deriving DecidableEq, Repr

namespace Program

def title : String := "pin-raider"

def version : String := title ++ " 0.1.0"

def usage : String :=
  "Usage: " ++ title ++ " [OPTIONS] <COMMAND>\n\n"
    ++ "Commands: check, fmt, list, export, diff, snapshot, help\n\n"
    ++ "Options:\n"
    ++ "  -v, --verbose             show more of the log; may be repeated\n"
    ++ "      --log-file <LOG_FILE> also write errors to this file\n"
    ++ "  -h, --help                print this text\n"
    ++ "  -V, --version             print the version\n"

/-- The filter that is asked for, when it can be read, or the one for the verbosity. -/
def filter (asked : Option String) (verbosity : Nat) : Filter :=
  (asked.bind Filter.parse?).getD (.ofVerbosity verbosity)

/-- The event that ends a failed command. -/
def failureEvent (messages : Command.Failure) : Event :=
  ⟨.error, program, ": ".intercalate messages, []⟩

/-- What a finished command comes to. -/
def conclude (w : Command.World) : Except Command.Failure Bool → Nat × List Event
  | .ok true => (0, w.events)
  | .ok false => (1, w.events)
  | .error messages => (2, w.events ++ [failureEvent messages])

/-- The lines of a log file: the errors. -/
def fileLines (events : List Event) : String :=
  String.join ((events.filter (·.level == .error)).map fun e => e.render ++ "\n")

/-- Carries a command out with a filter for the log. -/
def carryOut (command : Command) (f : Filter) (t : FileTree) : RunResult × List Event :=
  let (answer, w) := (Command.run command).run.run ⟨t, "", []⟩
  let (status, events) := conclude w answer
  (⟨status, w.output, (events.filter f.shows).map Event.render, w.files⟩, events)

/-- Carries a command out with errors going to a log file, which is emptied first. -/
def carryOutLogged (command : Command) (f : Filter) (path : String) (t : FileTree) : RunResult :=
  match t.target path with
  | .error fault =>
    ⟨2, "", ["Failed to create log file " ++ path ++ ": " ++ fault.message], t⟩
  | .ok place =>
    let (result, events) := carryOut command f (t.put place (.file []))
    let errors := fileLines events
    if errors.isEmpty then result
    else { result with files := result.files.put place (.file (Text.utf8 errors)) }

/-- Runs the program on arguments. The log filter may be asked for from outside. The names of
`raw` are not spelled in UTF-8; in the arguments and in the tree each stands as the text that it
is shown by. -/
def run (asked : Option String) (args : List String) (t : FileTree) (raw : List String := []) :
    Except Command.Refusal RunResult := do
  let invocation ← Command.read args raw
  let f := filter asked invocation.verbosity
  match invocation.logFile with
  | none => return (carryOut invocation.command f t).1
  | some path => return carryOutLogged invocation.command f path t

end Program

end PinFile
