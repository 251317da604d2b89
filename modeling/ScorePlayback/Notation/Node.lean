import ScorePlayback.Notation.Element
import ScorePlayback.Numeral

/-! # Trees of elements and atoms -/

namespace ScorePlayback

/-- An element stands at its opening parenthesis, an atom at its first character. -/
inductive Node where
  | element (name : ElementName) (children : List Node) (position : Position)
  | atom (kind : AtomKind) (text : String) (position : Position)
deriving Repr

namespace Node

def kind : Node → NodeKind
  | .element name _ _ => .element name
  | .atom kind _ _ => .atom kind

def position : Node → Position
  | .element _ _ p => p
  | .atom _ _ p => p

def children : Node → List Node
  | .element _ children _ => children
  | .atom _ _ _ => []

/-- The text of an atom, and nothing for an element. -/
def text : Node → String
  | .element _ _ _ => ""
  | .atom _ text _ => text

def isAtom (n : Node) : Bool := n.kind.isAtom

/-- The children that are atoms. -/
def atoms (n : Node) : List Node := n.children.filter isAtom

/-- The text of the first string among the children. -/
def string? (n : Node) : Option String :=
  (n.children.find? fun c => c.kind = .atom .string).map text

/-- The text of an atom that is a label. -/
def label? : Node → Option String
  | .atom .label text _ => some text
  | _ => none

/-- The value of a number written as an integer of at most 64 bits. -/
def integer? : Node → Option Int
  | .atom .number text _ => Numeral.within? Numeral.least64 Numeral.largest64 text.toList
  | _ => none

/-- The value of a number, if it is an integer between `low` and `high`. -/
def count? (low high : Nat) (n : Node) : Option Nat :=
  n.integer?.bind fun v => if low ≤ v && v ≤ high then some v.toNat else none

end Node
end ScorePlayback
