import ScorePlayback.Compile
import ScorePlayback.Listing
import ScorePlayback.SettingsText
import ScorePlayback.Yaml.SoundTable

/-! # The command

Reads settings and a score and prints the sound events and the jumps of every score in it. -/

namespace ScorePlayback

inductive OutputFormat where
  | text | yaml
deriving DecidableEq, Repr

structure Options where
  format : OutputFormat := .text
  events : Bool := false
  jumps : Bool := false
deriving DecidableEq, Repr

namespace Options

/-- Both parts are printed if neither is asked for. -/
def showsEvents (o : Options) : Bool := o.events || !o.jumps

def showsJumps (o : Options) : Bool := o.jumps || !o.events

end Options

/-- Why a file has no text. -/
inductive FileFault where
  | missing
  | notUtf8
  | refused (reason : String)
deriving DecidableEq, Repr

def FileFault.message : FileFault → String
  | .missing => "No such file or directory (os error 2)"
  | .notUtf8 => "stream did not contain valid UTF-8"
  | .refused reason => reason

/-- A file that was opened: its path and its text. -/
structure TextFile where
  path : String
  text : Except FileFault String

/-- What the command prints and returns. -/
structure Outcome where
  output : String
  errors : String
  exitCode : Nat
deriving DecidableEq, Repr

namespace Outcome

def failure (message : String) : Outcome := ⟨"", "Error: " ++ message ++ "\n", 1⟩

def unreadable (path : String) (fault : FileFault) : Outcome :=
  failure ("I/O error on '" ++ path ++ "': " ++ fault.message)

end Outcome

/-! ## Output -/

def scoreHeading (number : Nat) (title : Option String) : String :=
  let suffix := match title with
    | some title => ": " ++ title
    | none => ""
  "== Score " ++ toString number ++ suffix ++ "\n"

def textOutput (o : Options) (number : Nat) (score : Score Float) : String :=
  let table := SoundTable.ofScore score
  scoreHeading number score.title
    ++ (if o.showsEvents then table.eventListing else "")
    ++ (if o.showsJumps then table.jumps.listing else "")

def yamlOutput (o : Options) (score : Score Float) : String :=
  let table := SoundTable.ofScore score
  if o.showsEvents && o.showsJumps then table.yaml.text
  else if o.showsEvents then table.eventsYaml.text
  else table.jumps.yaml.text

def scoreOutput (o : Options) (score : Score Float) (number : Nat) : String :=
  match o.format with
  | .text => textOutput o number score
  | .yaml => yamlOutput o score

/-! ## The command -/

def compileAndPrint (o : Options) (settings : Settings) (source : String) : Outcome :=
  match (compile settings source : Except CompileError (Analysis Float)) with
  | .error e => .failure e.message
  | .ok analysis =>
    { output := String.join ((analysis.document.scores.zipIdx 1).map fun (s, n) => scoreOutput o s n)
      errors := Diagnostic.report analysis.diagnostics
      exitCode := 0 }

def readSettings : Option TextFile → Except Outcome Settings
  | none => .ok {}
  | some ⟨path, .error fault⟩ => .error (.unreadable path fault)
  | some ⟨_, .ok text⟩ => (Settings.read text).mapError fun e => .failure e.message

/-- Runs the command on its files. The settings are read before the score. -/
def runCommand (o : Options) (config : Option TextFile) (score : TextFile) : Outcome :=
  match readSettings config, score with
  | .error outcome, _ => outcome
  | .ok _, ⟨path, .error fault⟩ => .unreadable path fault
  | .ok settings, ⟨_, .ok source⟩ => compileAndPrint o settings source

end ScorePlayback
