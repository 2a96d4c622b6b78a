import Linewise.Check.File

/-! The command line names one file and perhaps where the settings are. Words are taken from
left to right, and the first that settles the answer does so, whatever follows it. -/

namespace Linewise.CommandLine

inductive Request
  | check (file : Text) (settings? : Option Text)
  | help
  | version
  | invalid
  deriving DecidableEq, Repr

/-- What was taken last is looked at only when the next word is acted on. -/
inductive Pending
  | nothing
  | file (path : Text)
  | settings (path? : Option Text)
  deriving DecidableEq, Repr

structure Taken where
  file? : Option Text := none
  settings? : Option Text := none
  pending : Pending := .nothing
  deriving DecidableEq, Repr

namespace Taken

/-- No path is empty, and the settings are named once. -/
def settle? (taken : Taken) : Option Taken :=
  match taken.pending with
  | .nothing => some taken
  | .file path =>
    if path.isEmpty then none else some { taken with file? := some path, pending := .nothing }
  | .settings none => none
  | .settings (some path) =>
    if path.isEmpty || taken.settings?.isSome then none
    else some { taken with settings? := some path, pending := .nothing }

def hasFile (taken : Taken) : Bool :=
  match taken.pending with
  | .file _ => true
  | .nothing | .settings _ => taken.file?.isSome

def awaitsSettings (taken : Taken) : Bool :=
  taken.pending = .settings none

/-- An answer that is due as soon as nothing before it is wrong. -/
def answer (taken : Taken) (request : Request) : Request :=
  if taken.settle?.isSome then request else .invalid

/-- What the words ask for when no more of them follow. -/
def request (taken : Taken) : Request :=
  match taken.settle? with
  | none => .invalid
  | some settled =>
    match settled.file? with
    | none => .invalid
    | some file => .check file settled.settings?

def withSettings? (taken : Taken) (path? : Option Text) : Option Taken :=
  taken.settle?.map fun settled => { settled with pending := .settings path? }

def withFile? (taken : Taken) (path : Text) : Option Taken :=
  if taken.hasFile then none else taken.settle?.map fun settled => { settled with pending := .file path }

end Taken

/-- What the front of a word makes of it. -/
inductive Word
  | separator
  | long (name : Text) (attached? : Option Text)
  | short (letter : Char)
  | plain
  deriving DecidableEq, Repr

def Word.ofText : Text → Word
  | ['-', '-'] => separator
  | '-' :: '-' :: rest =>
    match rest.dropWhile (· != '=') with
    | [] => long rest none
    | _ :: attached => long (rest.takeWhile (· != '=')) (some attached)
  | '-' :: letter :: _ => short letter
  | _ => plain

def helpName : Text := ['h', 'e', 'l', 'p']

def versionName : Text := ['v', 'e', 'r', 's', 'i', 'o', 'n']

def settingsName : Text := ['c', 'o', 'n', 'f', 'i', 'g']

/-- After the separator every word is a file. -/
def readFiles (taken : Taken) : List Text → Request
  | [] => taken.request
  | word :: words =>
    match taken.withFile? word with
    | none => .invalid
    | some taken => readFiles taken words

def read (taken : Taken) : List Text → Request
  | [] => taken.request
  | word :: words =>
    match Word.ofText word with
    | .separator => readFiles taken words
    | .short letter =>
      if letter = 'h' then taken.answer .help
      else if letter = 'V' then taken.answer .version
      else .invalid
    | .long name attached? =>
      if name = helpName && attached?.isNone then taken.answer .help
      else if name = versionName && attached?.isNone then taken.answer .version
      else if name = settingsName then
        match taken.withSettings? attached? with
        | none => .invalid
        | some taken =>
          match attached? with
          | none => read taken words
          | some _ =>
            match taken.settle? with
            | none => .invalid
            | some taken => read taken words
      else .invalid
    | .plain =>
      if taken.awaitsSettings then read { taken with pending := .settings (some word) } words
      else match taken.withFile? word with
        | none => .invalid
        | some taken => read taken words

def Request.ofWords (words : List Text) : Request :=
  read {} words

def helpText : String :=
  "Usage: sjavac [OPTIONS] <FILE>\n\nArguments:\n  <FILE>  The source file to verify\n\nOptions:\n"
    ++ "      --config <CONFIG>  Path to a sjavac.toml file, or to the directory holding it\n"
    ++ "  -h, --help             Print help\n  -V, --version          Print version\n"

def versionText : String :=
  "sjavac 0.1.0\n"

structure Answer where
  status : Nat
  output : String
  complaint? : Option String := none
  deriving DecidableEq, Repr

/-- A status is printed as well, so that it can be read where no exit code can. -/
def Answer.ofStatus (status : Nat) (complaint? : Option String) : Answer :=
  ⟨status, toString status ++ "\n", complaint?⟩

def Answer.ofReport (report : Report) : Answer :=
  match report.result with
  | .ok _ => .ofStatus report.status none
  | .error failure => .ofStatus report.status (some failure.message)

/-- Without a word about settings, they are those of the directory one is in. -/
def run {m : Type → Type} [Monad m] (read : Reader m) (words : List Text) : m Answer := do
  match Request.ofWords words with
  | .help => pure { status := 0, output := helpText }
  | .version => pure { status := 0, output := versionText }
  | .invalid => pure (.ofStatus 2 (some helpText))
  | .check file settings? =>
    let settings ← Settings.load read (settings?.getD Path.here)
    let report ← Check.file read settings file
    pure (.ofReport report)

end Linewise.CommandLine
