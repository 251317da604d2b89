/-! # Powers of ten and of two -/

namespace ScorePlayback

def tenTo (n : Nat) : Nat := Nat.pow 10 n

def twoTo (n : Nat) : Nat := Nat.pow 2 n

end ScorePlayback
