import Mathlib.Data.List.TakeWhile
import Mathlib.Tactic.Common
import ScorePlayback.Staff.Beam

/-! # Beams as runs of notes

Every segment is chosen from a note and its two neighbours. Taken together, the segments of a level
are beams over the longest runs of notes that reach it. -/

namespace ScorePlayback.BeamSegment

/-! ## Levels and runs -/

/-- The segments of a level, which counts from one. Notes that do not reach it have none. -/
def atLevel (level : Nat) (segments : List (List BeamSegment)) : List (Option BeamSegment) :=
  segments.map fun own => own[level - 1]?

/-- A longest run of notes that reach a level, with the notes of the group around it. -/
structure IsRun (level : Nat) (before run after : List NoteValue) : Prop where
  ne_nil : run ≠ []
  reaches : ∀ value ∈ run, level ≤ value.beams
  left : ∀ value ∈ before.getLast?, value.beams < level
  right : ∀ value ∈ after.head?, value.beams < level

/-- The segments of a run of notes, which may begin with the first note of the group. -/
def ofRun (isFirst : Bool) : Nat → List BeamSegment
  | 0 => []
  | 1 => [if isFirst then .forwardHook else .backwardHook]
  | length + 2 => .begins :: List.replicate length .continues ++ [.ends]

/-- Every beam that begins also ends, and all notes in between continue it. -/
inductive IsPaired : List (Option BeamSegment) → Prop where
  | nil : IsPaired []
  | missing {rest : List (Option BeamSegment)} : IsPaired rest → IsPaired (none :: rest)
  | hook {segment : BeamSegment} {rest : List (Option BeamSegment)}
      (hsegment : segment = .forwardHook ∨ segment = .backwardHook) :
      IsPaired rest → IsPaired (some segment :: rest)
  | beam (length : Nat) {rest : List (Option BeamSegment)} : IsPaired rest →
      IsPaired (some .begins :: List.replicate length (some .continues) ++ some .ends :: rest)

/-! ## One level -/

theorem map_length_ofCounts (before : Option Nat) (counts : List Nat) :
    (ofCounts before counts).map List.length = counts := by
  induction counts generalizing before with
  | nil => rfl
  | cons own rest ih => simp [ofCounts, ih]

theorem length_ofRun (isFirst : Bool) (length : Nat) : (ofRun isFirst length).length = length := by
  match length with
  | 0 | 1 => rfl
  | length + 2 => simp [ofRun]

/-- The segments behind some notes depend only on the last one of them. -/
theorem drop_ofCounts (before : Option Nat) (counts more : List Nat) :
    (ofCounts before (counts ++ more)).drop counts.length =
      ofCounts (counts.getLast?.or before) more := by
  induction counts generalizing before with
  | nil => rfl
  | cons own rest ih =>
      rw [List.cons_append, ofCounts, List.length_cons, List.drop_succ_cons, ih,
        List.getLast?_cons]
      cases rest.getLast? <;> rfl

section

variable {level : Nat} (hlevel : 1 ≤ level)

include hlevel

theorem map_isSome_atLevel (segments : List (List BeamSegment)) :
    (atLevel level segments).map Option.isSome =
      (segments.map List.length).map fun own => decide (level ≤ own) := by
  rw [atLevel, List.map_map, List.map_map]
  refine List.map_congr_left fun own _ => ?_
  rw [Function.comp_apply, Function.comp_apply, Bool.eq_iff_iff, decide_eq_true_iff]
  simp only [isSome_getElem?]
  omega

theorem atLevel_ofCounts_cons (before : Option Nat) (own : Nat) (rest : List Nat) :
    atLevel level (ofCounts before (own :: rest)) =
      (if level ≤ own then some (between before (rest.head?.getD 0) level) else none) ::
        atLevel level (ofCounts (some own) rest) := by
  rw [ofCounts, atLevel, List.map_cons, List.getElem?_map]
  congr 1
  by_cases h : level ≤ own
  · rw [if_pos h, List.getElem?_range' (by omega), Option.map_some]
    congr 2
    omega
  · rw [if_neg h, List.getElem?_eq_none (by simp; omega), Option.map_none]

/-- From its second note on, a run continues and ends. -/
theorem atLevel_ofCounts_inside {before : Nat} {run after : List Nat} (hbefore : level ≤ before)
    (hne : run ≠ []) (hrun : ∀ own ∈ run, level ≤ own) (hafter : after.head?.getD 0 < level) :
    atLevel level (ofCounts (some before) (run ++ after)) =
      List.replicate (run.length - 1) (some .continues) ++
        some .ends :: atLevel level (ofCounts run.getLast? after) := by
  induction run generalizing before with
  | nil => contradiction
  | cons own run ih =>
      obtain ⟨hown, hrun⟩ := List.forall_mem_cons.mp hrun
      rw [List.cons_append, atLevel_ofCounts_cons hlevel, if_pos hown]
      cases run with
      | nil =>
          simp [between, hbefore, Nat.not_le.mpr hafter]
      | cons next run =>
          rw [ih hown (by simp) hrun]
          have hnext : level ≤ next := (List.forall_mem_cons.mp hrun).1
          simp [between, hbefore, hnext, List.replicate_succ, List.getLast?_cons]

/-- The segments of a longest run. -/
theorem atLevel_ofCounts_run {before : Option Nat} {run after : List Nat}
    (hbefore : before.getD 0 < level) (hne : run ≠ []) (hrun : ∀ own ∈ run, level ≤ own)
    (hafter : after.head?.getD 0 < level) :
    atLevel level (ofCounts before (run ++ after)) =
      (ofRun before.isNone run.length).map some ++ atLevel level (ofCounts run.getLast? after) := by
  cases run with
  | nil => contradiction
  | cons own run =>
      obtain ⟨hown, hrun⟩ := List.forall_mem_cons.mp hrun
      rw [List.cons_append, atLevel_ofCounts_cons hlevel, if_pos hown]
      cases run with
      | nil => simp [between, ofRun, Nat.not_le.mpr hbefore, Nat.not_le.mpr hafter]
      | cons next run =>
          rw [atLevel_ofCounts_inside hlevel hown (by simp) hrun hafter]
          have hnext : level ≤ next := (List.forall_mem_cons.mp hrun).1
          simp [between, Nat.not_le.mpr hbefore, hnext, ofRun, List.getLast?_cons]

/-! ### Pairs -/

omit hlevel in
theorem IsPaired.ofRun_append {rest : List (Option BeamSegment)} (h : IsPaired rest)
    (isFirst : Bool) (length : Nat) : IsPaired ((ofRun isFirst length).map some ++ rest) := by
  match length with
  | 0 => exact h
  | 1 =>
      refine .hook ?_ h
      cases isFirst
      · exact .inr rfl
      · exact .inl rfl
  | length + 2 => simpa [ofRun] using IsPaired.beam length h

/-- What follows a note splits into the rest of its run and the notes behind the run. -/
theorem exists_run (counts : List Nat) : ∃ run after, counts = run ++ after ∧
    (∀ own ∈ run, level ≤ own) ∧ after.head?.getD 0 < level := by
  refine ⟨counts.takeWhile (level ≤ ·), counts.dropWhile (level ≤ ·),
    List.takeWhile_append_dropWhile.symm, fun own hown => ?_, ?_⟩
  · simpa using List.mem_takeWhile_imp hown
  · have hhead := List.head?_dropWhile_not (fun own => decide (level ≤ own)) counts
    cases h : (counts.dropWhile (level ≤ ·)).head? with
    | none => exact hlevel
    | some own =>
        rw [h] at hhead
        simpa using hhead

/-- The induction is on the runs, from one to the next, so what is before is not in the same run. -/
theorem isPaired_atLevel (before : Option Nat) (counts : List Nat)
    (h : before.getD 0 < level ∨ counts.head?.getD 0 < level) :
    IsPaired (atLevel level (ofCounts before counts)) := by
  induction hlength : counts.length using Nat.strongRecOn generalizing before counts with
  | ind length ih =>
    subst hlength
    cases counts with
    | nil => exact .nil
    | cons own rest =>
        by_cases hown : level ≤ own
        · have hbefore : before.getD 0 < level := h.resolve_right (Nat.not_lt.mpr hown)
          obtain ⟨run, after, rfl, hrun, hafter⟩ := exists_run hlevel rest
          rw [← List.cons_append, atLevel_ofCounts_run hlevel hbefore (by simp)
            (List.forall_mem_cons.mpr ⟨hown, hrun⟩) hafter]
          have hlength : after.length < (own :: (run ++ after)).length := by
            rw [List.length_cons, List.length_append]
            omega
          exact .ofRun_append (ih after.length hlength _ after (.inr hafter) rfl) _ _
        · rw [atLevel_ofCounts_cons hlevel, if_neg hown]
          refine .missing (ih rest.length (by simp) _ rest (.inl ?_) rfl)
          exact Nat.not_le.mp hown

end

/-! ## A group of notes -/

/-- How the notes of a group are beamed. -/
structure IsBeamed (group : List NoteValue) (segments : List (List BeamSegment)) : Prop where
  /-- Every note has as many segments as beams. -/
  levels : segments.map List.length = group.map NoteValue.beams
  /-- Every longest run of notes that reach a level begins, continues and ends, or is a hook. -/
  runs : ∀ level before run after, 1 ≤ level → group = before ++ run ++ after →
    IsRun level before run after →
      ((atLevel level segments).drop before.length).take run.length =
        (ofRun before.isEmpty run.length).map some
  /-- The notes that have no segment of a level are those that do not reach it. -/
  reached : ∀ level, 1 ≤ level →
    (atLevel level segments).map Option.isSome = group.map fun value => decide (level ≤ value.beams)
  /-- No beam goes on over one of them. -/
  paired : ∀ level, 1 ≤ level → IsPaired (atLevel level segments)

/-- Whatever the values of its notes, the beams of a group are over the runs of each level. -/
theorem isBeamed_ofGroup (group : List NoteValue) : IsBeamed group (ofGroup group) where
  levels := map_length_ofCounts _ _
  runs := by
    rintro level before run after hlevel rfl hrun
    have hleft : ((before.map NoteValue.beams).getLast?.or none).getD 0 < level := by
      rw [Option.or_none, List.getLast?_map]
      cases h : before.getLast? with
      | none => exact hlevel
      | some value => exact hrun.left value h
    have hright : (after.map NoteValue.beams).head?.getD 0 < level := by
      rw [List.head?_map]
      cases h : after.head? with
      | none => exact hlevel
      | some value => exact hrun.right value h
    have hdrop := drop_ofCounts none (before.map NoteValue.beams)
      (run.map NoteValue.beams ++ after.map NoteValue.beams)
    rw [List.length_map, ← List.append_assoc, ← List.map_append, ← List.map_append, ← ofGroup]
      at hdrop
    rw [atLevel, ← List.map_drop, hdrop, ← atLevel, atLevel_ofCounts_run hlevel hleft
      (by simpa using hrun.ne_nil) (by simpa using hrun.reaches) hright]
    have hfirst : ((before.map NoteValue.beams).getLast?.or none).isNone = before.isEmpty := by
      cases before <;> simp
    rw [hfirst, List.length_map, List.take_left']
    rw [List.length_map, length_ofRun]
  reached level hlevel := by
    rw [map_isSome_atLevel hlevel, ofGroup, map_length_ofCounts, List.map_map]
    rfl
  paired level hlevel := isPaired_atLevel hlevel none _ (.inl hlevel)

/-- A single sixteenth note among eighth notes has a hook at the second level. -/
example : ofGroup [.eighth, .sixteenth, .eighth] =
    [[.begins], [.continues, .backwardHook], [.ends]] := by decide

end ScorePlayback.BeamSegment
