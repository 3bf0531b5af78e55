import FrameRecovery.Options
import FrameRecovery.Phase
import FrameRecovery.Text.Blank

namespace FrameRecovery

namespace CommandLine

/-- The options that stand alone. -/
inductive Flag where
  | verbose
  | silentTerminal
  | blockingTerminal
deriving DecidableEq, Repr

/-- The options that are followed by a value. -/
inductive Setting where
  | entry
  | stopAfter
  | output
  | graph
  | log
  | switch
deriving DecidableEq, Repr

/-- An argument, once it is known what it means. -/
inductive Item where
  | file (path : String)
  | flag (f : Flag)
  /-- A setting with the value that is given for it in this place, if one is -/
  | setting (s : Setting) (value : Option String)
deriving DecidableEq, Repr

/-- The flag of a long option. -/
def Flag.ofName? : String → Option Flag
  | "debug" => some verbose
  | "debug-disable-terminal-logging" => some silentTerminal
  | "debug-forced-blocking-terminal-logging" => some blockingTerminal
  | _ => none

/-- Whether a flag may be given more than once. -/
def Flag.repeats : Flag → Bool
  | verbose => true
  | _ => false

/-- The setting of a long option. -/
def Setting.ofName? : String → Option Setting
  | "entry" => some entry
  | "until" => some stopAfter
  | "output" => some output
  | "debug-output-graphviz" => some graph
  | "log" => some log
  | "advanced-config" => some switch
  | _ => none

/-- Whether a setting may be given more than once. -/
def Setting.repeats : Setting → Bool
  | switch => true
  | _ => false

/-- Whether an argument is an option and so no value: it starts with a hyphen and is more than
    that. -/
def isOption (arg : List Char) : Bool :=
  match arg with
  | '-' :: _ :: _ => true
  | _ => false

/-- A setting whose value is the argument after it, given that, and how many arguments it uses.
    An option after it is no value. -/
def settingBefore (next : Option String) (s : Setting) : Item × Nat :=
  match next with
  | some value => if isOption value.toList then (.setting s none, 0) else (.setting s value, 1)
  | none => (.setting s none, 0)

/-- What a long option means, given the argument after it, and how many of the arguments after
    it are used. -/
def readLong (next : Option String) (body : List Char) : Option (Item × Nat) :=
  match Text.cut? '=' body with
  | some (name, value) =>
    (Setting.ofName? (String.ofList name)).map fun s => (.setting s (String.ofList value), 0)
  | none =>
    match Flag.ofName? (String.ofList body) with
    | some f => some (.flag f, 0)
    | none => (Setting.ofName? (String.ofList body)).map (settingBefore next)

/-- What a group of short options means, given the argument after it, and how many of the
    arguments after it are used. The letter of a setting takes the rest of its group as value,
    and the next argument if there is no rest. -/
def readShort (next : Option String) : List Char → Option (List Item × Nat)
  | [] => some ([], 0)
  | 'd' :: rest => do
    let (items, used) ← readShort next rest
    return (.flag .verbose :: items, used)
  | ['Z'] =>
    let (item, used) := settingBefore next .switch
    some ([item], used)
  | 'Z' :: '=' :: value => some ([.setting .switch (String.ofList value)], 0)
  | 'Z' :: value => some ([.setting .switch (String.ofList value)], 0)
  | _ => none

/-- What the arguments mean one by one; nothing if there is one that means nothing. Behind
    `--` every argument is a file. -/
def readItems (args : List String) : Option (List Item) :=
  match args with
  | [] => some []
  | arg :: rest =>
    match arg.toList with
    | ['-', '-'] => some (rest.map .file)
    | '-' :: '-' :: body => do
      let (item, used) ← readLong rest.head? body
      return item :: (← readItems (rest.drop used))
    | '-' :: c :: body => do
      let (items, used) ← readShort rest.head? (c :: body)
      return items ++ (← readItems (rest.drop used))
    | _ => do
      return .file arg :: (← readItems rest)
termination_by args.length
decreasing_by all_goals simp only [List.length_cons, List.length_drop]; omega

/-- What a command line asks for. -/
structure Arguments where
  listing : String
  entry : Option String
  stopAfter : Phase
  output : Option String
  graph : Option String
  switches : List Switch
deriving DecidableEq, Repr

/-- Whether nothing is given twice that may be given only once. -/
def noneRepeated : List Item → Bool
  | [] => true
  | .flag f :: rest => (f.repeats || !rest.contains (.flag f)) && noneRepeated rest
  | .setting s _ :: rest =>
    (s.repeats || rest.all fun
      | .setting s' _ => s' != s
      | _ => true) && noneRepeated rest
  | .file _ :: rest => noneRepeated rest

/-- The values given for a setting. -/
def valuesOf (s : Setting) (items : List Item) : List String :=
  (items.map fun
    | .setting s' value => if s' = s then value else none
    | _ => none).reduceOption

/-- Whether every setting that is given has a value in one of its places. -/
def allValued (items : List Item) : Bool :=
  items.all fun
    | .setting s _ => !(valuesOf s items).isEmpty
    | _ => true

/-- The files given. -/
def filesOf (items : List Item) : List String :=
  (items.map fun
    | .file path => some path
    | _ => none).reduceOption

/-- The phase to stop after, the last one unless another is named. -/
def phaseOf (items : List Item) : Option Phase :=
  match (valuesOf .stopAfter items).head? with
  | some name => Phase.ofName? name
  | none => some Phase.last

/-- What the command line of a recovery asks for; nothing if it is not understood. -/
def Arguments.ofList? (args : List String) : Option Arguments := do
  let items ← readItems args
  if !noneRepeated items || !allValued items then none
  let [listing] := filesOf items | none
  return {
    listing
    entry := (valuesOf .entry items).head?
    stopAfter := ← phaseOf items
    output := (valuesOf .output items).head?
    graph := (valuesOf .graph items).head?
    switches := ← (valuesOf .switch items).mapM Switch.ofName? }

end CommandLine

end FrameRecovery
