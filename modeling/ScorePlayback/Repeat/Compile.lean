import ScorePlayback.Repeat.Plan
import ScorePlayback.Sound.MeasureIndex

/-! # From repeats to jumps -/

namespace ScorePlayback

/-- A leap back is taken at the first event behind its measure. -/
def Leap.backSlot (index : List Nat) (l : Leap) : JumpSlot where
  triggerMeasure := l.measure
  triggerEvent := firstEvent index (l.measure + 1)
  required := l.times
  applied := 0
  targetMeasure := l.target
  targetEvent := firstEvent index l.target

/-- A skip is taken at the first event of its measure. -/
def Leap.skipSlot (index : List Nat) (l : Leap) : JumpSlot where
  triggerMeasure := l.measure
  triggerEvent := firstEvent index l.measure
  required := l.times
  applied := 0
  targetMeasure := l.target
  targetEvent := firstEvent index l.target

def SectionRepeat.entry (index : List Nat) (r : SectionRepeat) : JumpEntry :=
  ⟨r.back.backSlot index :: r.skip.toList.map (Leap.skipSlot index)⟩

def RepeatPlan.jumpTable (index : List Nat) (p : RepeatPlan) : JumpTable where
  entries := p.repeats.map (SectionRepeat.entry index)
  notices := p.notices

end ScorePlayback
