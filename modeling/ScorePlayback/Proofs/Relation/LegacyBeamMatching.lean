import Mathlib.Data.List.DropRight
import Mathlib.Data.List.Infix
import ScorePlayback.Proofs.Relation.LegacyBeamCalls

/-! # Which legacy beam an end closes

Starts and ends of legacy beams are brackets, and every call in between is about a note of the beam.
Which beams are open, and which notes they have, can be read off the calls, without a stack. -/

namespace ScorePlayback

/-! ## Openings that are not matched -/

namespace LegacyBeamCall

def note : LegacyBeamCall → Nat
  | .enter note _ => note
  | .add note => note
  | .leave note _ => note

def opens : LegacyBeamCall → Bool
  | .enter .. => true
  | _ => false

def closes : LegacyBeamCall → Bool
  | .leave .. => true
  | _ => false

/-- Whether a beam that opens before some calls is still open behind them: up to none of them there
are more ends than starts. -/
def staysOpen (later : List LegacyBeamCall) : Bool :=
  later.inits.all fun part => part.countP closes ≤ part.countP opens

/-- The beams that are open behind some calls, in the order in which they open. The notes of such a
beam are those of all calls from its start. -/
def unclosed : List LegacyBeamCall → List OpenBeam
  | [] => []
  | .enter first start :: later =>
    if staysOpen later then ⟨first :: later.map note, start⟩ :: unclosed later else unclosed later
  | .add _ :: later => unclosed later
  | .leave .. :: later => unclosed later

/-- How many beams from before some calls close with them, if there are enough. A beam stays open if
there are none. -/
def excess : List LegacyBeamCall → Nat
  | [] => 0
  | .enter .. :: later => excess later - 1
  | .add _ :: later => excess later
  | .leave .. :: later => excess later + 1

theorem excess_le_iff (calls : List LegacyBeamCall) (n : Nat) :
    excess calls ≤ n ↔
      ∀ part ∈ calls.inits, part.countP closes ≤ part.countP opens + n := by
  induction calls generalizing n with
  | nil => simp [excess]
  | cons call later ih =>
      cases call with
      | enter first start =>
          rw [excess, Nat.sub_le_iff_le_add, ih]
          simp [closes, opens, List.countP_cons, Nat.add_right_comm _ 1, Nat.add_assoc]
      | add first => simp [excess, ih, closes, opens]
      | leave last stop =>
          cases n with
          | zero =>
              refine iff_of_false (Nat.not_succ_le_zero _) fun h => ?_
              simpa [closes, opens] using h [.leave last stop] (by simp)
          | succ n => simp [excess, ih, closes, opens, List.countP_cons, ← Nat.add_assoc]

theorem staysOpen_iff (later : List LegacyBeamCall) : staysOpen later ↔ excess later = 0 := by
  rw [← Nat.le_zero, excess_le_iff]
  simp [staysOpen]

/-! ### One more call -/

theorem excess_concat_leave (calls : List LegacyBeamCall) (last : Nat) (stop : Position) :
    excess (calls ++ [.leave last stop]) =
      excess calls + if unclosed calls = [] then 1 else 0 := by
  induction calls with
  | nil => rfl
  | cons call later ih =>
      cases call with
      | enter first start =>
          rw [List.cons_append, excess, excess, ih, unclosed]
          by_cases h : excess later = 0
          · simp only [staysOpen_iff, h, if_true, reduceCtorEq, if_false]
            split <;> rfl
          · simp only [staysOpen_iff, h, if_false]
            omega
      | add first => exact ih
      | leave last' stop' =>
          rw [List.cons_append, excess, excess, ih, unclosed]
          omega

theorem excess_concat_of_not_closes (calls : List LegacyBeamCall) {call : LegacyBeamCall}
    (h : call.closes = false) : excess (calls ++ [call]) = excess calls := by
  induction calls with
  | nil => cases call <;> first | rfl | cases h
  | cons call' later ih => cases call' <;> simp only [List.cons_append, excess, ih]

theorem unclosed_concat_of_not_closes (calls : List LegacyBeamCall) {call : LegacyBeamCall}
    (h : call.closes = false) :
    unclosed (calls ++ [call]) = (unclosed calls).map (·.add call.note) ++ unclosed [call] := by
  induction calls with
  | nil => rfl
  | cons call' later ih =>
      cases call' with
      | enter first start =>
          rw [List.cons_append, unclosed, unclosed, ih]
          simp only [staysOpen_iff, excess_concat_of_not_closes later h]
          split <;> simp [OpenBeam.add, note]
      | add | leave => exact ih

theorem unclosed_concat_leave (calls : List LegacyBeamCall) (last : Nat) (stop : Position) :
    unclosed (calls ++ [.leave last stop]) = (unclosed calls).dropLast.map (·.add last) := by
  induction calls with
  | nil => rfl
  | cons call later ih =>
      cases call with
      | enter first start =>
          -- the end takes this beam if it is open and nothing has opened behind it
          rw [List.cons_append, unclosed, unclosed, ih]
          simp only [staysOpen_iff, excess_concat_leave]
          by_cases h : excess later = 0 <;> cases unclosed later <;> simp [h, OpenBeam.add, note]
      | add | leave => exact ih

/-! ### The opening that an end matches -/

theorem unclosed_suffix_append (before later : List LegacyBeamCall) :
    unclosed later <:+ unclosed (before ++ later) := by
  induction before with
  | nil => exact List.suffix_rfl
  | cons call before ih =>
      cases call with
      | enter first start =>
          rw [List.cons_append, unclosed]
          split
          · exact ih.trans (List.suffix_cons _ _)
          · exact ih
      | add | leave => exact ih

/-- An open beam has the note that it opens with. -/
theorem members_ne_nil_of_mem_unclosed {calls : List LegacyBeamCall} {beam : OpenBeam}
    (h : beam ∈ unclosed calls) : beam.members ≠ [] := by
  induction calls with
  | nil => cases h
  | cons call later ih =>
      cases call with
      | enter first start =>
          rw [unclosed] at h
          split at h
          · rcases List.mem_cons.mp h with rfl | h
            · exact List.cons_ne_nil _ _
            · exact ih h
          · exact ih h
      | add | leave => exact ih h

/-- The beam that has opened last of those that are open. -/
theorem getLast?_unclosed_iff {calls : List LegacyBeamCall} {beam : OpenBeam} :
    (unclosed calls).getLast? = some beam ↔
      ∃ before first start between, calls = before ++ .enter first start :: between ∧
        staysOpen between ∧ unclosed between = [] ∧ beam = ⟨first :: between.map note, start⟩ := by
  constructor
  · intro hlast
    induction calls with
    | nil => cases hlast
    | cons call later ih =>
        by_cases hlater : (unclosed later).getLast? = some beam
        · obtain ⟨before, first, start, between, rfl, hbetween⟩ := ih hlater
          exact ⟨call :: before, first, start, between, rfl, hbetween⟩
        · cases call with
          | enter first start =>
              rw [unclosed] at hlast
              split at hlast
              · next hopen =>
                rw [List.getLast?_cons] at hlast
                cases hinner : (unclosed later).getLast? with
                | none =>
                    rw [hinner] at hlast
                    exact ⟨[], first, start, later, rfl, hopen, List.getLast?_eq_none_iff.mp hinner,
                      (Option.some.inj hlast).symm⟩
                | some inner =>
                    rw [hinner] at hlast hlater
                    exact absurd hlast hlater
              · exact absurd hlast hlater
          | add | leave => exact absurd hlast hlater
  · rintro ⟨before, first, start, between, rfl, hopen, hunclosed, rfl⟩
    obtain ⟨outer, houter⟩ := unclosed_suffix_append before (.enter first start :: between)
    rw [← houter, unclosed, if_pos hopen, hunclosed, List.getLast?_concat]

end LegacyBeamCall

/-! ## The open beams -/

namespace LegacyBeams

open LegacyBeamCall

theorem after_concat (b : LegacyBeams) (calls : List LegacyBeamCall) (call : LegacyBeamCall) :
    b.after (calls ++ [call]) = ((b.after calls).tell call).state := by
  rw [after_append]
  rfl

/-- With its last note a beam that has notes has two, so it is never too short. -/
theorem not_length_members_add_lt_two {beam : OpenBeam} (h : beam.members ≠ []) (note : Nat) :
    ¬ (beam.add note).members.length < 2 := by
  have hpos := List.length_pos_iff.mpr h
  rw [OpenBeam.add, List.length_append, List.length_singleton]
  omega

/-- All that an end can do: it closes the beam that has opened last. -/
theorem leave_of_stack_eq {b : LegacyBeams} {calls : List LegacyBeamCall}
    (h : b.stack = (unclosed calls).reverse) (note : Nat) (position : Position) :
    ((b.leave note position).state.stack = ((unclosed calls).dropLast.map (·.add note)).reverse) ∧
      (b.leave note position).closed =
        (unclosed calls).getLast?.map fun beam => (beam.add note).members := by
  rcases List.eq_nil_or_concat (unclosed calls) with hnone | ⟨outer, innermost, hopen⟩
  · simp_all [leave]
  · have hmem : innermost ∈ unclosed calls := by simp [hopen]
    have htwo := not_length_members_add_lt_two (members_ne_nil_of_mem_unclosed hmem) note
    have hstack : b.stack = innermost :: outer.reverse := by simp [h, hopen]
    simp [leave, hstack, hopen, htwo, add]

theorem stack_after (calls : List LegacyBeamCall) :
    (after {} calls).stack = (unclosed calls).reverse := by
  induction calls using List.reverseRecOn with
  | nil => rfl
  | append_singleton calls call ih =>
      rw [after_concat]
      cases call with
      | enter first start =>
          rw [unclosed_concat_of_not_closes calls rfl]
          simp [tell, enter, add, ih, unclosed, staysOpen, note]
      | add note =>
          rw [unclosed_concat_of_not_closes calls rfl]
          simp [tell, add, ih, unclosed, LegacyBeamCall.note]
      | leave last stop =>
          rw [unclosed_concat_leave]
          exact (leave_of_stack_eq ih last stop).1

/-- An end closes the beam that has opened last of those that are open, with the notes of all calls
since then. -/
theorem closed_leave_after_iff {calls : List LegacyBeamCall} {note : Nat} {position : Position}
    {members : List Nat} :
    ((after {} calls).leave note position).closed = some members ↔
      ∃ before first start between, calls = before ++ .enter first start :: between ∧
        staysOpen between ∧ unclosed between = [] ∧
        members = first :: between.map LegacyBeamCall.note ++ [note] := by
  rw [(leave_of_stack_eq (stack_after calls) note position).2, Option.map_eq_some_iff]
  constructor
  · rintro ⟨beam, hlast, rfl⟩
    obtain ⟨before, first, start, between, hcalls, hopen, hunclosed, rfl⟩ :=
      getLast?_unclosed_iff.mp hlast
    exact ⟨before, first, start, between, hcalls, hopen, hunclosed, rfl⟩
  · rintro ⟨before, first, start, between, hcalls, hopen, hunclosed, rfl⟩
    have hlast := getLast?_unclosed_iff.mpr
      ⟨before, first, start, between, hcalls, hopen, hunclosed, rfl⟩
    exact ⟨_, hlast, rfl⟩

/-! ## All calls, and what is left open -/

theorem closedBy_concat (b : LegacyBeams) (calls : List LegacyBeamCall) (call : LegacyBeamCall) :
    b.closedBy (calls ++ [call]) =
      b.closedBy calls ++ ((b.after calls).tell call).closed.toList := by
  rw [closedBy_append, closedBy, closedBy, List.append_nil]

theorem two_le_length_of_mem_closedBy {calls : List LegacyBeamCall} {members : List Nat}
    (h : members ∈ closedBy {} calls) : 2 ≤ members.length := by
  induction calls using List.reverseRecOn with
  | nil => cases h
  | append_singleton calls call ih =>
      rw [closedBy_concat, List.mem_append, Option.mem_toList] at h
      rcases h with h | h
      · exact ih h
      · cases call with
        | enter | add => cases h
        | leave last stop =>
            obtain ⟨_, first, _, between, -, -, -, rfl⟩ := closed_leave_after_iff.mp h
            simp

/-- Every start is the start of a beam that closes, or that is open. -/
theorem length_closedBy_add (calls : List LegacyBeamCall) :
    (closedBy {} calls).length + (unclosed calls).length = calls.countP opens := by
  induction calls using List.reverseRecOn with
  | nil => rfl
  | append_singleton calls call ih =>
      rw [closedBy_concat, List.length_append, List.countP_append, ← ih]
      cases call with
      | enter first start =>
          rw [unclosed_concat_of_not_closes calls rfl]
          simp [tell, unclosed, staysOpen, opens, Nat.add_assoc]
      | add note =>
          rw [unclosed_concat_of_not_closes calls rfl]
          simp [tell, unclosed, opens]
      | leave last stop =>
          rw [unclosed_concat_leave, tell, (leave_of_stack_eq (stack_after calls) last stop).2]
          rcases List.eq_nil_or_concat (unclosed calls) with h | ⟨outer, innermost, h⟩
          · simp [h, opens]
          · simp [h, opens, Nat.add_assoc, Nat.add_comm 1]

theorem finish_after (calls : List LegacyBeamCall) :
    (after {} calls).finish = (unclosed calls).map fun beam =>
      (LegacyFault.beamNeverClosed beam.members.length).diagnostic beam.position := by
  rw [finish, stack_after, List.reverse_reverse]

/-- What comes of the starts and ends of beams in some calls, of one more end, and of the end of
everything. -/
structure AreMatched (calls : List LegacyBeamCall) : Prop where
  /-- The beams that are open, the innermost first, have the notes of all calls since their
  starts. -/
  stack : (after {} calls).stack = (unclosed calls).reverse
  /-- An end without an open beam is reported and changes nothing. -/
  alone : unclosed calls = [] → ∀ note position, (after {} calls).leave note position =
    { state := after {} calls
      closed := none
      diagnostics := [⟨.unmatchedEnd, some position, LegacyFault.beamNotOpen.message⟩] }
  /-- Every other end takes away the beam that has opened last, and its note joins the others. -/
  taken : unclosed calls ≠ [] → ∀ note position,
    ((after {} calls).leave note position).closed ≠ none ∧
      ((after {} calls).leave note position).diagnostics = [] ∧
      ((after {} calls).leave note position).state.stack =
        ((unclosed calls).dropLast.map (·.add note)).reverse
  /-- A beam that closes is open up to its end, and all that has opened since is closed. Its notes
  are those of its start, of all calls in between and of its end. -/
  closed : ∀ note position members,
    ((after {} calls).leave note position).closed = some members ↔
      ∃ before first start between, calls = before ++ .enter first start :: between ∧
        staysOpen between ∧ unclosed between = [] ∧
        members = first :: between.map LegacyBeamCall.note ++ [note]
  two : ∀ members ∈ closedBy {} calls, 2 ≤ members.length
  finish : (after {} calls).finish = (unclosed calls).map fun beam =>
    ⟨.unterminatedLegacyBeam, some beam.position,
      (LegacyFault.beamNeverClosed beam.members.length).message⟩
  accounted : calls.countP opens = (closedBy {} calls).length + (after {} calls).finish.length

/-- Ends match starts as closing brackets match opening ones, and a note is in all beams around
it. -/
theorem areMatched (calls : List LegacyBeamCall) : AreMatched calls where
  stack := stack_after calls
  alone h note position := by
    have hstack : (after {} calls).stack = [] := by rw [stack_after, h, List.reverse_nil]
    simp only [leave, hstack]
    rfl
  taken h note position := by
    obtain ⟨hstate, hclosed⟩ := leave_of_stack_eq (stack_after calls) note position
    refine ⟨by simpa [hclosed] using h, ?_, hstate⟩
    cases hstack : (after {} calls).stack with
    | nil =>
        rw [stack_after, List.reverse_eq_nil_iff] at hstack
        exact absurd hstack h
    | cons innermost outer => simp only [leave, hstack]
  closed _ _ _ := closed_leave_after_iff
  two _ h := two_le_length_of_mem_closedBy h
  finish := finish_after calls
  accounted := by rw [finish_after, List.length_map, length_closedBy_add]

end LegacyBeams

end ScorePlayback
