import ScorePlayback.Analysis.NoteSpec

/-! # What is inside an element -/

namespace ScorePlayback

namespace Node

/-- The nodes of a tree. -/
inductive IsWithin (n : Node) : Node → Prop where
  | here : IsWithin n n
  | child {name : ElementName} {children : List Node} {position : Position} {child : Node}
      (hmem : child ∈ children) (h : IsWithin n child) :
      IsWithin n (.element name children position)

theorem IsWithin.trans {n m tree : Node} (h : n.IsWithin m) (hm : m.IsWithin tree) :
    n.IsWithin tree := by
  induction hm with
  | here => exact h
  | child hmem _ ih => exact .child hmem ih

theorem isWithin_of_mem_children {child n : Node} (h : child ∈ n.children) : child.IsWithin n := by
  cases n with
  | element name children position => exact .child h .here
  | atom kind text position => cases h

theorem IsWithin.children {n tree : Node} (h : n.IsWithin tree) :
    ∀ child ∈ n.children, child.IsWithin tree :=
  fun _ hchild => (isWithin_of_mem_children hchild).trans h

/-- All notes and rests in a tree are admitted, whatever tuplets are around them. -/
def Admits (settings : Settings) (admitted : NoteReading → Prop) (tree : Node) : Prop :=
  ∀ (isNote : Bool) (items : List Node) (position : Position),
    (element (NoteOption.elementOf isNote) items position).IsWithin tree →
      ∀ display reading, NoteReading.read settings display isNote items = .ok reading →
        admitted reading

theorem Admits.child {settings : Settings} {admitted : NoteReading → Prop} {tree : Node}
    (h : tree.Admits settings admitted) : ∀ child ∈ tree.children, child.Admits settings admitted :=
  fun _ hchild isNote items position hitem =>
    h isNote items position (hitem.trans (isWithin_of_mem_children hchild))

theorem admits_atom (settings : Settings) (admitted : NoteReading → Prop) (kind : AtomKind)
    (text : String) (position : Position) : (atom kind text position).Admits settings admitted :=
  nofun

theorem admits_element {settings : Settings} {admitted : NoteReading → Prop} {name : ElementName}
    {children : List Node} {position : Position}
    (hchildren : ∀ child ∈ children, child.Admits settings admitted)
    (hown : ∀ isNote, NoteOption.elementOf isNote = name → ∀ display reading,
      NoteReading.read settings display isNote children = .ok reading → admitted reading) :
    (element name children position).Admits settings admitted := by
  intro isNote items place hitem
  cases hitem with
  | here => exact hown isNote rfl
  | child hmem h => exact hchildren _ hmem isNote items place h

/-- An element that is no note or rest admits what its children admit. -/
theorem admits_element_of_ne {settings : Settings} {admitted : NoteReading → Prop}
    {name : ElementName} {children : List Node} {position : Position} (hnote : name ≠ .note)
    (hrest : name ≠ .rest) (hchildren : ∀ child ∈ children, child.Admits settings admitted) :
    (element name children position).Admits settings admitted := by
  refine admits_element hchildren ?_
  rintro (_ | _) rfl
  · exact absurd rfl hrest
  · exact absurd rfl hnote

end Node

end ScorePlayback
