import ScorePlayback.CommandLine

/-! # Command line arguments

Switches are long (`--events`, `--format yaml`, `--format=yaml`) or short (`-e`, `-f yaml`,
`-fyaml`), and short ones can be joined (`-ej`). After `--` every argument is a file. Each switch
and the score are given once. -/

namespace ScorePlayback

structure Arguments where
  score : String
  config : Option String := none
  options : Options := {}
deriving DecidableEq, Repr

/-- The switches that take a value. -/
inductive ValuedSwitch where
  | config | format
deriving DecidableEq, Repr

/-- The arguments read so far, and the switch whose value comes next. -/
structure ArgumentReader where
  score : Option String := none
  config : Option String := none
  format : Option OutputFormat := none
  events : Bool := false
  jumps : Bool := false
  awaited : Option ValuedSwitch := none
  filesOnly : Bool := false
deriving DecidableEq, Repr

namespace ArgumentReader

def file? (r : ArgumentReader) (path : String) : Option ArgumentReader :=
  if r.score.isNone then some { r with score := some path } else none

def giveEvents? (r : ArgumentReader) : Option ArgumentReader :=
  if r.events then none else some { r with events := true }

def giveJumps? (r : ArgumentReader) : Option ArgumentReader :=
  if r.jumps then none else some { r with jumps := true }

def formatOfName? : String → Option OutputFormat
  | "text" => some .text
  | "yaml" => some .yaml
  | _ => none

/-- Takes the value of a switch. -/
def giveValue? (r : ArgumentReader) (switch : ValuedSwitch) (value : String) :
    Option ArgumentReader :=
  match switch with
  | .config => if r.config.isNone then some { r with config := some value } else none
  | .format =>
    if r.format.isNone then (formatOfName? value).map fun f => { r with format := some f } else none

/-- Takes what follows a short switch with a value: the value, or nothing if it is the next
argument. -/
def giveShortValue? (r : ArgumentReader) (switch : ValuedSwitch) :
    List Char → Option ArgumentReader
  | [] => some { r with awaited := some switch }
  | '=' :: value => r.giveValue? switch (String.ofList value)
  | value => r.giveValue? switch (String.ofList value)

/-- Reads joined short switches. -/
def shortSwitches? (r : ArgumentReader) : List Char → Option ArgumentReader
  | [] => some r
  | 'e' :: rest => r.giveEvents?.bind fun r => r.shortSwitches? rest
  | 'j' :: rest => r.giveJumps?.bind fun r => r.shortSwitches? rest
  | 'c' :: rest => r.giveShortValue? .config rest
  | 'f' :: rest => r.giveShortValue? .format rest
  | _ => none

def longSwitch? (r : ArgumentReader) (text : List Char) : Option ArgumentReader :=
  let name := String.ofList (text.takeWhile (· ≠ '='))
  match name, text.dropWhile (· ≠ '=') with
  | "events", [] => r.giveEvents?
  | "jumps", [] => r.giveJumps?
  | "config", [] => some { r with awaited := some .config }
  | "format", [] => some { r with awaited := some .format }
  | "config", _ :: value => r.giveValue? .config (String.ofList value)
  | "format", _ :: value => r.giveValue? .format (String.ofList value)
  | _, _ => none

/-- Reads one argument. A value that starts with a dash must be joined to its switch. -/
def next? (r : ArgumentReader) (argument : String) : Option ArgumentReader :=
  if r.filesOnly then r.file? argument
  else match r.awaited, argument.toList with
    | some switch, ['-'] => { r with awaited := none }.giveValue? switch "-"
    | some _, '-' :: _ => none
    | some switch, _ => { r with awaited := none }.giveValue? switch argument
    | none, ['-'] => r.file? argument
    | none, ['-', '-'] => some { r with filesOnly := true }
    | none, '-' :: '-' :: text => r.longSwitch? text
    | none, '-' :: switches => r.shortSwitches? switches
    | none, _ => r.file? argument

/-- The score must be given, and no value may be missing. -/
def finish? (r : ArgumentReader) : Option Arguments :=
  match r.score, r.awaited with
  | some score, none =>
    some { score, config := r.config,
           options := { format := r.format.getD .text, events := r.events, jumps := r.jumps } }
  | _, _ => none

end ArgumentReader

def Arguments.read? (arguments : List String) : Option Arguments :=
  (arguments.foldlM ArgumentReader.next? {}).bind ArgumentReader.finish?

def usage : String :=
  "Usage: score-playback [OPTIONS] <INPUT>\n\nOptions:\n" ++
  "  -c, --config <CONFIG>  YAML configuration file\n" ++
  "  -f, --format <FORMAT>  Output format [default: text] [possible values: text, yaml]\n" ++
  "  -e, --events           Print the sound events (and measure index)\n" ++
  "  -j, --jumps            Print the jump table\n"

end ScorePlayback
