import Pagewright.Path
import Pagewright.Text.Integer

/-! The command line. Options may stand before the command's name and behind it; an option is
given at most once on either side. Arguments are looked at in order, and the first that is not
understood, or that asks for help, decides. -/

namespace Pagewright.Command

/-- What an option takes, or that it only shows a text. -/
inductive Takes where
  | nothing
  | path
  | port
  | shown
deriving DecidableEq

structure Choice where
  name : String
  letter : Option Char
  takes : Takes
deriving DecidableEq

/-- Options found so far, each with its value. -/
abbrev Given := List (String × String)

/-- How far a row of arguments was understood. Before a word the last option may still have a
value that it does not take; then nothing is given. -/
inductive Scan where
  | complete (given : Given)
  | word (given : Option Given) (word : String) (rest : List String)
  | shown
  | refused
deriving DecidableEq

/-- A port number, which may have a plus sign and leading zeros. -/
def readPort? (text : String) : Option Nat := do
  let value ← Text.readInteger64 text.toList
  if 0 ≤ value ∧ value < 65536 then some value.toNat else none

def accepts (takes : Takes) (value : String) : Bool :=
  match takes with
  | .nothing => true
  | .path => !value.isEmpty
  | .port => (readPort? value).isSome
  | .shown => false

/-- Adds an option with its value, unless it was given already or has no such value. -/
def give (choice : Choice) (value : String) (given : Given) : Option Given :=
  if (given.lookup choice.name).isSome || !accepts choice.takes value then none
  else some ((choice.name, value) :: given)

/-- Whether an argument reads as an option and so is no value of the option before it. -/
def readsAsOption (argument : String) : Bool :=
  match argument.toList with
  | '-' :: _ :: _ => true
  | _ => false

/-- What a cluster of letters leaves: options found, or one that needs the next argument. -/
inductive Cluster where
  | done (given : Given)
  | awaiting (given : Given) (choice : Choice)
  | shown
  | refused

/-- Reads letters behind a single dash. The letter of an option with a value takes what is left
of the cluster, without an equals sign in front. -/
def readCluster (choices : List Choice) (given : Given) : List Char → Cluster
  | [] => .done given
  | letter :: rest =>
    match choices.find? (·.letter = some letter) with
    | none => .refused
    | some choice =>
      match choice.takes with
      | .shown => .shown
      | .nothing =>
        match give choice "" given with
        | some given => readCluster choices given rest
        | none => .refused
      | .path | .port =>
        match rest with
        | [] => .awaiting given choice
        | '=' :: value | value =>
          match give choice (String.ofList value) given with
          | some given => .done given
          | none => .refused

/-- Reads arguments up to the first word that is no option. A value in an argument of its own is
looked at once the next option or the end is reached, so a word hides that it is refused. -/
def scan (choices : List Choice) : Option Given → List String → Scan
  | some given, [] => .complete given
  | none, [] => .refused
  | given, argument :: rest =>
    match argument.toList, given with
    | '-' :: _ :: _, none => .refused
    | ['-', '-'], some given => if rest.isEmpty then .complete given else .refused
    | '-' :: '-' :: long, some given =>
      let name := String.ofList (long.takeWhile (· ≠ '='))
      match choices.find? (·.name = name), long.dropWhile (· ≠ '='), rest with
      | none, _, _ => .refused
      | some choice, '=' :: value, rest =>
        if choice.takes = .nothing || choice.takes = .shown then .refused
        else
          match give choice (String.ofList value) given with
          | some given => scan choices (some given) rest
          | none => .refused
      | some choice, _, rest =>
        match choice.takes with
        | .shown => .shown
        | .nothing =>
          match give choice "" given with
          | some given => scan choices (some given) rest
          | none => .refused
        | .path | .port => takeValue choices given choice rest
    | '-' :: letter :: letters, some given =>
      match readCluster choices given (letter :: letters) with
      | .done given => scan choices (some given) rest
      | .awaiting given choice => takeValue choices given choice rest
      | .shown => .shown
      | .refused => .refused
    | _, given => .word given argument rest
where
  takeValue (choices : List Choice) (given : Given) (choice : Choice) : List String → Scan
    | [] => .refused
    | value :: rest =>
      if readsAsOption value then .refused
      else scan choices (give choice value given) rest

/-- What the program is asked to do. -/
inductive Task where
  | initialise (overwrite : Bool)
  | develop (port : Option Nat) (opens : Bool)
  | build (output : Option Path)
  | serve (port : Nat) (directory : Option Path)
deriving DecidableEq

inductive Request where
  | run (settings : Path) (task : Task)
  | shown
  | refused
deriving DecidableEq

def settingsChoice : Choice := ⟨"config", some 'c', .path⟩
def verboseChoice : Choice := ⟨"verbose", some 'v', .nothing⟩
def helpChoice : Choice := ⟨"help", some 'h', .shown⟩
def versionChoice : Choice := ⟨"version", some 'V', .shown⟩

/-- The options that every command has. -/
def sharedChoices : List Choice := [settingsChoice, verboseChoice, helpChoice]

/-- The options of a command, unless there is no such command. -/
def choicesOf? : String → Option (List Choice)
  | "init" => some [⟨"yes", some 'y', .nothing⟩]
  | "dev" => some [⟨"port", some 'p', .port⟩, ⟨"no-open", none, .nothing⟩]
  | "build" => some [⟨"output", some 'o', .path⟩]
  | "serve" => some [⟨"port", some 'p', .port⟩, ⟨"dir", some 'd', .path⟩]
  | _ => none

def pathOf (given : Given) (name : String) : Option Path := (given.lookup name).map Path.mk

def portOf (given : Given) (name : String) : Option Nat := (given.lookup name).bind readPort?

def taskOf (command : String) (given : Given) : Task :=
  match command with
  | "init" => .initialise (given.lookup "yes").isSome
  | "dev" => .develop (portOf given "port") (given.lookup "no-open").isNone
  | "build" => .build (pathOf given "output")
  | _ => .serve ((portOf given "port").getD 4000) (pathOf given "dir")

/-- Help on a command, or on help itself. -/
def readHelp : List String → Request
  | [] => .shown
  | [command] => if command = "help" || (choicesOf? command).isSome then .shown else .refused
  | _ => .refused

/-- Reads a whole command line. Behind the command's name the settings file may be given again,
and that one counts. -/
def readArguments (arguments : List String) : Request :=
  match scan (versionChoice :: sharedChoices) (some []) arguments with
  | .shown => .shown
  | .refused | .complete _ => .refused
  | .word outer command rest =>
    if command = "help" then readHelp rest
    else
      match choicesOf? command with
      | none => .refused
      | some choices =>
        match scan (choices ++ sharedChoices) (some []) rest with
        | .shown => .shown
        | .refused | .word _ _ _ => .refused
        | .complete given =>
          match outer with
          | none => .refused
          | some outer =>
            let settings := (pathOf given "config").or (pathOf outer "config")
            .run (settings.getD ⟨"cwrap.toml"⟩) (taskOf command given)

end Pagewright.Command
