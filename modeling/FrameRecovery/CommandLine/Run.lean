import FrameRecovery.CommandLine.Arguments
import FrameRecovery.CommandLine.Files
import FrameRecovery.Flow.Graph
import FrameRecovery.Report

namespace FrameRecovery

namespace CommandLine

/-- Why a command fails. -/
inductive Failure where
  | unreadable (path : String) (error : FileError)
  | unwritable (error : FileError)
  | unknownMachine (name : String)
  | badEntry (text : String)
  | noEntry
  | recovery (error : Error)

/-- The wording of a failure. -/
def Failure.message : Failure → String
  | unreadable path e => "Listing file " ++ path ++ " could not be read: " ++ e.message
  | unwritable e => e.message
  | unknownMachine name => "Unknown architecture `" ++ name ++ "`"
  | badEntry text => "Bad entry address `" ++ text ++ "`"
  | noEntry => "Listing does not name an entry point"
  | recovery e => e.message

/-- The lines that name the causes of an error, the nearest first. -/
def causes : Error → String
  | .phaseFailed _ source => "  caused by: " ++ source.message ++ "\n" ++ causes source
  | _ => ""

/-- What a failed command writes. -/
def Failure.text (f : Failure) : String :=
  "Error: " ++ f.message ++ "\n" ++ match f with
    | recovery e => causes e
    | _ => ""

/-- What a command leaves behind, apart from files. -/
structure Outcome where
  exitCode : Nat
  output : String := ""
  errors : String := ""
deriving DecidableEq, Repr

/-- The exit code of a command line that is not understood. -/
def usageCode : Nat := 2

/-- The exit code of a command that ran into a misuse of its own data. -/
def faultCode : Nat := 101

/-- The machine that a listing is for. -/
def machineOf (l : Listing) : Except Failure Machine :=
  match l.architecture with
  | none => .ok .x86
  | some name => match Machine.ofName? name with
    | some m => .ok m
    | none => .error (.unknownMachine name)

/-- The entry of the function: the one asked for, else that of the listing. -/
def entryOf (l : Listing) : Option String → Except Failure Address
  | some text => match Address.ofText? text.toList with
    | some a => .ok a
    | none => .error (.badEntry text)
  | none => match l.entryPoint? with
    | some a => .ok a
    | none => .error .noEntry

/-- What there is to do for a listing, and where its function starts. -/
def prepare (args : Arguments) (text : String) : Except Failure (Task × Address) := do
  let listing ← (Listing.parse text).mapError fun e => Failure.recovery (.listing e)
  let machine ← machineOf listing
  let entry ← entryOf listing args.entry
  return (⟨listing, machine, .ofSwitches args.switches⟩, entry)

/-- The texts that a command produces: the report, and the block graph. -/
structure Products where
  report : String
  graph : String

/-- Recovers the function of a listing. -/
def recover (args : Arguments) (text : String) : Except Fault (Except Failure Products) := do
  match prepare args text with
  | .error e => return .error e
  | .ok (task, entry) =>
    let (result, s) ← (Recovery.advanceTo task args.stopAfter).run.run (.start entry)
    match result with
    | .error e => return .error (.recovery e)
    | .ok () => return .ok ⟨← s.report task.options.showAddresses, ← s.flow.graph⟩

variable {m : Type → Type} [Monad m]

/-- Writes a text to a file, if one is named. -/
def save (files : Files m) (path : Option String) (content : String) :
    ExceptT Failure m Unit := do
  if let some path := path then
    ExceptT.mk do return (← files.write path content).mapError .unwritable

/-- Writes the texts to where they belong, and returns what is left for the standard output. -/
def deliver (files : Files m) (args : Arguments) (p : Products) : m Outcome := do
  let output := if args.output.isSome then "" else p.report
  match ← (save files args.output p.report).run with
  | .error e => return { exitCode := 1, errors := e.text }
  | .ok () =>
    match ← (save files args.graph p.graph).run with
    | .error e => return { exitCode := 1, output, errors := e.text }
    | .ok () => return { exitCode := 0, output }

/-- Runs the command of a command line. -/
def run (files : Files m) (args : List String) : m Outcome := do
  let some args := Arguments.ofList? args | return { exitCode := usageCode }
  match ← files.read args.listing with
  | .error e => return { exitCode := 1, errors := (Failure.unreadable args.listing e).text }
  | .ok text =>
    match recover args text with
    | .error _ => return { exitCode := faultCode }
    | .ok (.error e) => return { exitCode := 1, errors := e.text }
    | .ok (.ok p) => deliver files args p

end CommandLine

end FrameRecovery
