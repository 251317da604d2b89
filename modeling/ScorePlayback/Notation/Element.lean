import ScorePlayback.Notation.Token

/-! # Elements and their names

Every element starts with a name of this closed vocabulary. -/

namespace ScorePlayback

inductive ElementName where
  | document | version | content | score | option | title | paragraph
  | instrument | instrumentName | midi | staves | music
  | note | rest | chord | clef | key | time | barline | times | volta | goBack | goForward
  | tie | slur | beam | tuplet
deriving DecidableEq, Repr

namespace ElementName

def all : List ElementName :=
  [.document, .version, .content, .score, .option, .title, .paragraph, .instrument, .instrumentName, .midi,
   .staves, .music, .note, .rest, .chord, .clef, .key, .time, .barline, .times, .volta, .goBack,
   .goForward, .tie, .slur, .beam, .tuplet]

def text : ElementName → String
  | .document => "lenmusdoc"
  | .version => "vers"
  | .content => "content"
  | .score => "score"
  | .option => "opt"
  | .title => "title"
  | .paragraph => "para"
  | .instrument => "instrument"
  | .instrumentName => "name"
  | .midi => "infoMIDI"
  | .staves => "staves"
  | .music => "musicData"
  | .note => "n"
  | .rest => "r"
  | .chord => "chord"
  | .clef => "clef"
  | .key => "key"
  | .time => "time"
  | .barline => "barline"
  | .times => "times"
  | .volta => "volta"
  | .goBack => "goBack"
  | .goForward => "goFwd"
  | .tie => "tie"
  | .slur => "slur"
  | .beam => "beam"
  | .tuplet => "t"

def ofText? (text : String) : Option ElementName := all.find? fun n => n.text = text

theorem ofText?_text (n : ElementName) : ofText? n.text = some n := by
  cases n <;> decide +kernel

theorem text_of_ofText? {text : String} {n : ElementName} (h : ofText? text = some n) :
    n.text = text := by
  simpa using List.find?_some h

end ElementName

/-- What an atom reads as. -/
inductive AtomKind where
  | label | number | string
deriving DecidableEq, Repr

inductive NodeKind where
  | element (name : ElementName)
  | atom (kind : AtomKind)
deriving DecidableEq, Repr

namespace NodeKind

def text : NodeKind → String
  | .element name => name.text
  | .atom .label => "label"
  | .atom .number => "number"
  | .atom .string => "string"

def isAtom : NodeKind → Bool
  | .element _ => false
  | .atom _ => true

end NodeKind
end ScorePlayback
