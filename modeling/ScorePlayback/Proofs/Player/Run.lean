import ScorePlayback.Proofs.Player.Follow
import ScorePlayback.SoundTable

/-! # Runs of the player

A player stands at an event with the jumps that are left. In one turn it jumps away from the
event or plays it. A run is a list of turns; `playFrom` lists what the run that cannot go on
has played. -/

namespace ScorePlayback

/-- What the player does with an event. -/
inductive Move where
  | play (event : Nat)
  | jump (event target : Nat)
deriving DecidableEq, Repr

namespace Move

def isJump : Move → Bool
  | .play _ => false
  | .jump _ _ => true

def played? : Move → Option Nat
  | .play event => some event
  | .jump _ _ => none

end Move

/-- The events that a list of moves plays. -/
def playedBy (moves : List Move) : List Nat := moves.filterMap Move.played?

def jumpCount (moves : List Move) : Nat := moves.countP Move.isJump

@[simp] theorem playedBy_nil : playedBy [] = [] := rfl

@[simp] theorem playedBy_play (event : Nat) (moves : List Move) :
    playedBy (.play event :: moves) = event :: playedBy moves := rfl

@[simp] theorem playedBy_jump (event target : Nat) (moves : List Move) :
    playedBy (.jump event target :: moves) = playedBy moves := rfl

@[simp] theorem jumpCount_nil : jumpCount [] = 0 := rfl

@[simp] theorem jumpCount_play (event : Nat) (moves : List Move) :
    jumpCount (.play event :: moves) = jumpCount moves :=
  List.countP_cons_of_neg Bool.false_ne_true

@[simp] theorem jumpCount_jump (event target : Nat) (moves : List Move) :
    jumpCount (.jump event target :: moves) = jumpCount moves + 1 :=
  List.countP_cons_of_pos rfl

structure Player where
  jumps : JumpTable
  event : Nat

/-- One turn of a player over `size` events. Behind the last event there is none. -/
inductive Turn (size : Nat) : Player → Move → Player → Prop where
  | jump {jumps rest : JumpTable} {event target : Nat} (hlt : event < size)
      (hf : jumps.follow? event = some (target, rest)) :
      Turn size ⟨jumps, event⟩ (.jump event target) ⟨rest, target⟩
  | play {jumps : JumpTable} {event : Nat} (hlt : event < size)
      (hf : jumps.follow? event = none) :
      Turn size ⟨jumps, event⟩ (.play event) ⟨jumps, event + 1⟩

inductive Run (size : Nat) : Player → List Move → Player → Prop where
  | nil (p : Player) : Run size p [] p
  | cons {p q r : Player} {move : Move} {moves : List Move} :
      Turn size p move q → Run size q moves r → Run size p (move :: moves) r

/-! ## Playing by rules -/

theorem playFrom_of_size_le {size event : Nat} (jumps : JumpTable) (h : size ≤ event) :
    playFrom size jumps event = [] := by
  rw [playFrom]
  simp [Nat.not_lt.mpr h]

theorem playFrom_of_jump {size event target : Nat} {jumps rest : JumpTable} (hlt : event < size)
    (hf : jumps.follow? event = some (target, rest)) :
    playFrom size jumps event = playFrom size rest target := by
  rw [playFrom, if_pos hlt]
  split
  · next h =>
    rw [hf] at h
    obtain ⟨rfl, rfl⟩ := Prod.mk.inj (Option.some.inj h)
    rfl
  · next h => simp [hf] at h

theorem playFrom_of_play {size event : Nat} {jumps : JumpTable} (hlt : event < size)
    (hf : jumps.follow? event = none) :
    playFrom size jumps event = event :: playFrom size jumps (event + 1) := by
  rw [playFrom, if_pos hlt]
  split
  · next h => simp [hf] at h
  · rfl

/-- Where nothing is triggered the player goes on. -/
theorem playFrom_of_quiet {size first : Nat} {jumps : JumpTable} (count : Nat)
    (hle : first + count ≤ size)
    (hf : ∀ event, first ≤ event → event < first + count → jumps.follow? event = none) :
    playFrom size jumps first =
      List.range' first count ++ playFrom size jumps (first + count) := by
  induction count generalizing first with
  | zero => simp
  | succ count ih =>
      rw [playFrom_of_play (by omega) (hf first (Nat.le_refl _) (by omega)),
        ih (by omega) (fun event h₁ h₂ => hf event (by omega) (by omega)),
        List.range'_succ, show first + 1 + count = first + (count + 1) by omega]
      rfl

/-! ## Runs -/

namespace Run

variable {size : Nat} {p q r : Player} {moves : List Move}

theorem append {moves' : List Move} (h : Run size p moves q) (h' : Run size q moves' r) :
    Run size p (moves ++ moves') r := by
  induction h with
  | nil => exact h'
  | cons ht _ ih => exact .cons ht (ih h')

/-- What a run has played comes first in what is played. -/
theorem playFrom_eq (h : Run size p moves q) :
    playFrom size p.jumps p.event = playedBy moves ++ playFrom size q.jumps q.event := by
  induction h with
  | nil => rfl
  | cons ht _ ih =>
      cases ht with
      | jump hlt hf => exact (playFrom_of_jump hlt hf).trans ih
      | play hlt hf => rw [playFrom_of_play hlt hf, ih, playedBy_play, List.cons_append]

/-- Every jump that a run takes was left before it and is not left any more. -/
theorem remaining_eq (h : Run size p moves q) :
    q.jumps.remaining + jumpCount moves = p.jumps.remaining := by
  induction h with
  | nil => rfl
  | cons ht _ ih =>
      cases ht with
      | jump hlt hf =>
          have hr := JumpTable.remaining_of_follow? hf
          rw [jumpCount_jump]
          dsimp only at ih ⊢
          omega
      | play hlt hf => rw [jumpCount_play, ih]

/-- Runs only count jumps; the slots stay as they are. -/
theorem reset_eq (h : Run size p moves q) : q.jumps.reset = p.jumps.reset := by
  induction h with
  | nil => rfl
  | cons ht _ ih =>
      cases ht with
      | jump hlt hf => exact ih.trans (JumpTable.reset_of_follow? hf)
      | play hlt hf => exact ih

/-- Every jump of a run is one of the slots that were there before it. -/
theorem exists_slot (h : Run size p moves q) {event target : Nat}
    (hjump : Move.jump event target ∈ moves) :
    ∃ e ∈ p.jumps.reset.entries, ∃ slot ∈ e.slots,
      slot.triggerEvent = event ∧ slot.targetEvent = target := by
  induction h with
  | nil => simp at hjump
  | cons ht hrun ih =>
      cases ht with
      | play hlt hf => exact ih (by simpa using hjump)
      | jump hlt hf =>
          rcases List.mem_cons.mp hjump with heq | hjump
          · obtain ⟨rfl, rfl⟩ := Move.jump.inj heq
            obtain ⟨e, he, slot, hslot, htrigger, htarget⟩ := JumpTable.target_of_follow? hf
            exact ⟨e.reset, List.mem_map_of_mem he, slot.reset, List.mem_map_of_mem hslot,
              htrigger, htarget⟩
          · exact JumpTable.reset_of_follow? hf ▸ ih hjump

/-- Between two jumps no event is played twice. -/
theorem length_playedBy_le (h : Run size p moves q) :
    (playedBy moves).length ≤ size * jumpCount moves + (size - p.event) := by
  induction h with
  | nil => simp
  | cons ht _ ih =>
      cases ht with
      | jump hlt hf =>
          rw [playedBy_jump, jumpCount_jump, Nat.mul_succ]
          omega
      | play hlt hf =>
          rw [playedBy_play, jumpCount_play, List.length_cons]
          dsimp only at ih ⊢
          omega

theorem lt_size_of_mem_playedBy (h : Run size p moves q) :
    ∀ event ∈ playedBy moves, event < size := by
  induction h with
  | nil => simp
  | cons ht _ ih =>
      cases ht with
      | jump hlt hf => exact ih
      | play hlt hf => simpa [hlt] using ih

end Run

/-- The run that cannot go on: its length is bounded by the jumps that are left. -/
theorem exists_run (size : Nat) (jumps : JumpTable) (event : Nat) :
    ∃ moves final, Run size ⟨jumps, event⟩ moves final ∧ size ≤ final.event ∧
      playedBy moves = playFrom size jumps event := by
  induction jumps, event using playFrom.induct size with
  | case1 jumps event hlt target rest hf ih =>
      obtain ⟨moves, final, hrun, hstop, hplayed⟩ := ih
      refine ⟨.jump event target :: moves, final, .cons (.jump hlt hf) hrun, hstop, ?_⟩
      rw [playedBy_jump, hplayed, playFrom_of_jump hlt hf]
  | case2 jumps event hlt hf ih =>
      obtain ⟨moves, final, hrun, hstop, hplayed⟩ := ih
      refine ⟨.play event :: moves, final, .cons (.play hlt hf) hrun, hstop, ?_⟩
      rw [playedBy_play, hplayed, playFrom_of_play hlt hf]
  | case3 jumps event hge =>
      refine ⟨[], ⟨jumps, event⟩, .nil _, Nat.not_lt.mp hge, ?_⟩
      rw [playFrom_of_size_le jumps (Nat.not_lt.mp hge)]
      rfl

end ScorePlayback
