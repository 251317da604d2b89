import ScorePlayback.Proofs.Analysis.DocumentScores
import ScorePlayback.Proofs.Analysis.Quotations
import ScorePlayback.Proofs.Notation.Words
import ScorePlayback.Time.Exact

/-! # The lines of a report

A report has one line for each problem, unless a problem quotes a string with a line break. Nothing
else that messages consist of can have one. -/

namespace ScorePlayback

/-! ## Texts on one line -/

def IsOneLine (text : String) : Prop := '\n' ∉ text.toList

namespace IsOneLine

theorem append_iff {s t : String} : IsOneLine (s ++ t) ↔ IsOneLine s ∧ IsOneLine t := by
  simp [IsOneLine]

theorem append {s t : String} (hs : IsOneLine s) (ht : IsOneLine t) : IsOneLine (s ++ t) :=
  append_iff.mpr ⟨hs, ht⟩

/-- A text that is written out is on one line if none of its characters is a line break. -/
theorem ofList {text : List Char} (h : '\n' ∉ text) : IsOneLine (String.ofList text) := by
  rwa [IsOneLine, String.toList_ofList]

theorem natural (n : Nat) : IsOneLine (toString n) := by
  intro h
  have hdigits : (toString n).toList = Nat.toDigits 10 n := by simp [toString, Nat.repr]
  rw [hdigits] at h
  exact absurd (Nat.isDigit_of_mem_toDigits (by decide) (by decide) h) (by decide)

theorem integer (n : Int) : IsOneLine (toString n) := by
  cases n with
  | ofNat n => exact natural n
  | negSucc n => exact append (.ofList (by decide)) (natural (n + 1))

end IsOneLine

/-! ## Messages -/

theorem ElementName.isOneLine_text (name : ElementName) : IsOneLine name.text := by
  cases name <;> exact .ofList (by decide)

theorem NodeKind.isOneLine_text (kind : NodeKind) : IsOneLine kind.text := by
  cases kind with
  | element name => exact name.isOneLine_text
  | atom kind => cases kind <;> exact .ofList (by decide)

theorem RelationKind.isOneLine_text (kind : RelationKind) : IsOneLine kind.text := by
  cases kind <;> exact .ofList (by decide)

theorem Pitch.isOneLine_text (p : Pitch) : IsOneLine p.text := by
  have hsign : IsOneLine (sign p.alter) := by
    unfold sign
    repeat' split
    all_goals exact .ofList (by decide)
  have hletter : IsOneLine p.step.letter.toString := by cases p.step <;> exact .ofList (by decide)
  exact (hsign.append hletter).append (.integer p.octave)

namespace GrammarFault

variable {fault : GrammarFault}

theorem isOneLine_quote (text : String) : IsOneLine (quote text) ↔ IsOneLine text := by
  rw [quote, IsOneLine.append_iff, IsOneLine.append_iff]
  exact ⟨fun h => h.1.2, fun h => ⟨⟨.ofList (by decide), h⟩, .ofList (by decide)⟩⟩

theorem isOneLine_message_of_quoted?_eq_none (h : fault.quoted? = none) :
    IsOneLine fault.message := by
  cases fault with
  | notAllowed _ _ | legacyDisabled _ | unknownOption _ | unknownBeamRole _ | unknownBeamSegment _
  | unknownTupletOption _ | unknownBarline _ => cases h
  | durationMissing name =>
      have hname := (isOneLine_quote name.text).mpr name.isOneLine_text
      exact hname.append (.ofList (by decide))
  | _ => exact .ofList (by decide)

/-- The message has no line break around what it quotes. -/
theorem isOneLine_message_iff {text : String} (h : fault.quoted? = some text) :
    IsOneLine fault.message ↔ IsOneLine text := by
  have hlast {front : String} (hfront : IsOneLine front) :
      IsOneLine (front ++ quote text) ↔ IsOneLine text := by
    rw [IsOneLine.append_iff, isOneLine_quote]
    exact and_iff_right hfront
  cases fault with
  | notAllowed what parent =>
      obtain rfl := Option.some.inj h
      have hparent := (isOneLine_quote parent.text).mpr parent.isOneLine_text
      have hbetween : IsOneLine " is not allowed in " := .ofList (by decide)
      show IsOneLine (quote _ ++ " is not allowed in " ++ quote parent.text) ↔ _
      rw [IsOneLine.append_iff, IsOneLine.append_iff, isOneLine_quote]
      exact ⟨fun h => h.1.1, fun h => ⟨⟨h, hbetween⟩, hparent⟩⟩
  | legacyDisabled option =>
      obtain rfl := Option.some.inj h
      show IsOneLine ("legacy option " ++ quote _ ++ " is disabled") ↔ _
      rw [IsOneLine.append_iff, hlast (.ofList (by decide))]
      exact and_iff_left (.ofList (by decide))
  | unknownOption _ | unknownBeamRole _ | unknownBeamSegment _ | unknownTupletOption _
  | unknownBarline _ =>
      obtain rfl := Option.some.inj h
      exact hlast (.ofList (by decide))
  | _ => cases h

end GrammarFault

theorem RelationFault.isOneLine_message (fault : RelationFault) : IsOneLine fault.message := by
  have hsubject (kind : RelationKind) (key : Nat) : IsOneLine (kind.text ++ " " ++ toString key) :=
    .append (.append kind.isOneLine_text (.ofList (by decide))) (.natural key)
  cases fault with
  | startedAgain kind key line =>
      refine .append (.append (.append (hsubject kind key) ?_) (.natural line)) ?_
      all_goals exact .ofList (by decide)
  | continuedUnstarted kind key | closedUnstarted kind key | neverClosed kind key =>
      exact .append (hsubject kind key) (.ofList (by decide))
  | unequalPitches first last =>
      refine .append (.append (.append (.append ?_ first.isOneLine_text) ?_) last.isOneLine_text) ?_
      all_goals exact .ofList (by decide)

theorem LegacyFault.isOneLine_message (fault : LegacyFault) : IsOneLine fault.message := by
  cases fault with
  | tieReplaced | tieAlone | beamNotOpen => exact .ofList (by decide)
  | tieMisses start next =>
      refine .append (.append (.append (.append ?_ start.isOneLine_text) ?_) next.isOneLine_text) ?_
      all_goals exact .ofList (by decide)
  | beamNeverClosed notes =>
      refine .append (.append ?_ (.natural notes)) ?_
      all_goals exact .ofList (by decide)

namespace Diagnostic

theorem IsOfRelation.isOneLine_message {d : Diagnostic} (h : d.IsOfRelation) :
    IsOneLine d.message := by
  cases h with
  | relation fault position => exact fault.isOneLine_message
  | legacy fault position => exact fault.isOneLine_message

/-- Nothing else in the text of a problem has a line break. -/
theorem isOneLine_text_iff (d : Diagnostic) : IsOneLine d.text ↔ IsOneLine d.message := by
  obtain ⟨kind, position, message⟩ := d
  have hkind : IsOneLine kind.label := by cases kind <;> exact .ofList (by decide)
  have hmessage {front : String} (hfront : IsOneLine front) :
      IsOneLine (front ++ ": " ++ message) ↔ IsOneLine message := by
    rw [IsOneLine.append_iff]
    exact and_iff_right (hfront.append (.ofList (by decide)))
  cases position with
  | none => exact hmessage (hkind.append (.ofList (by decide)))
  | some p =>
      refine hmessage (.append hkind (.append (.append (.append ?_ (.natural p.line)) ?_)
        (.natural p.column)))
      all_goals exact .ofList (by decide)

/-! ## Reports -/

theorem toList_report (ds : List Diagnostic) :
    (report ds).toList = ds.flatMap fun d => d.text.toList ++ ['\n'] := by
  simp [report, List.flatMap_def, Function.comp_def]

/-- Each line of the report is the text of a problem, in the order they were found, and each line
break ends one. -/
structure IsLineByLine (ds : List Diagnostic) : Prop where
  count : (report ds).toList.count '\n' = ds.length
  lines : (report ds).toList.splitOn '\n' = ds.map (fun d => d.text.toList) ++ [[]]

theorem count_report (ds : List Diagnostic) : (report ds).toList.count '\n' =
    (ds.map fun d => d.text.toList.count '\n').sum + ds.length := by
  rw [toList_report]
  induction ds with
  | nil => rfl
  | cons d ds ih =>
      simp only [List.flatMap_cons, List.count_append, ih, List.map_cons, List.sum_cons,
        List.length_cons, List.count_singleton_self]
      omega

theorem splitOn_report {ds : List Diagnostic} (h : ∀ d ∈ ds, IsOneLine d.text) :
    (report ds).toList.splitOn '\n' = ds.map (fun d => d.text.toList) ++ [[]] := by
  rw [toList_report]
  induction ds with
  | nil => rfl
  | cons d ds ih =>
      obtain ⟨hd, hds⟩ := List.forall_mem_cons.mp h
      rw [List.flatMap_cons, List.append_assoc, List.singleton_append,
        List.splitOn_append_cons_self_of_not_mem hd, ih hds, List.map_cons, List.cons_append]

theorem isLineByLine_iff (ds : List Diagnostic) :
    IsLineByLine ds ↔ ∀ d ∈ ds, IsOneLine d.message := by
  simp only [← isOneLine_text_iff]
  refine ⟨fun h d hd => ?_, fun h => ⟨?_, splitOn_report h⟩⟩
  · have hcount := h.count
    rw [count_report] at hcount
    have hsum : (ds.map fun d => d.text.toList.count '\n').sum = 0 := by omega
    have hzero := List.sum_eq_zero_iff_forall_eq_nat.mp hsum _ (List.mem_map_of_mem hd)
    exact List.count_eq_zero.mp hzero
  · have hsum : (ds.map fun d => d.text.toList.count '\n').sum = 0 :=
      List.sum_eq_zero_iff_forall_eq_nat.mpr
        (List.forall_mem_map.mpr fun d hd => List.count_eq_zero.mpr (h d hd))
    rw [count_report, hsum, Nat.zero_add]

/-- The problem quotes a string of the tree that has a line break. Only what is wrong with options
of notes and rests, and with parts of beams and tuplets, can do so. -/
def QuotesBrokenString (tree : Node) (d : Diagnostic) : Prop :=
  ∃ (fault : GrammarFault) (position : Position) (text : String) (place : Position),
    d = fault.diagnostic position ∧ fault.concernsStrings ∧ fault.quoted? = some text ∧
      (Node.atom .string text place).IsWithin tree ∧ ¬ IsOneLine text

theorem IsFoundIn.isOneLine_message_iff {source : String} {tree : Node}
    (hparse : parse source = .ok tree) {d : Diagnostic} (h : d.IsFoundIn tree) :
    IsOneLine d.message ↔ ¬ d.QuotesBrokenString tree := by
  constructor
  · rintro hmessage ⟨fault, position, text, place, rfl, -, hquoted, -, htext⟩
    exact htext ((GrammarFault.isOneLine_message_iff hquoted).mp hmessage)
  · intro hquotes
    cases h with
    | relation h => exact h.isOneLine_message
    | @grammar fault h position =>
        show IsOneLine fault.message
        cases h with
        | nothing hquoted => exact GrammarFault.isOneLine_message_of_quoted?_eq_none hquoted
        | kind kind parent => exact (GrammarFault.isOneLine_message_iff rfl).mpr kind.isOneLine_text
        | @atom kind text place _ hatom hquoted hstring =>
            refine (GrammarFault.isOneLine_message_iff hquoted).mpr ?_
            by_cases hkind : kind = .string
            · subst hkind
              by_contra htext
              exact hquotes ⟨fault, position, text, place, rfl, hstring rfl, hquoted, hatom, htext⟩
            · exact fun hbreak =>
                absurd (isAtomChar_of_parse hparse hatom hkind _ hbreak) (by decide)

end Diagnostic

/-- The report of a text that compiles has one line for each problem if and only if none of them
quotes a string with a line break. -/
theorem isLineByLine_compile_iff {τ : Type} [TimeValue τ] {settings : Settings} {source : String}
    {analysis : Analysis τ} (h : compile settings source = .ok analysis) :
    ∃ tree, parse source = .ok tree ∧ (Diagnostic.IsLineByLine analysis.diagnostics ↔
      ∀ d ∈ analysis.diagnostics, ¬ d.QuotesBrokenString tree) := by
  obtain ⟨tree, hparse, hanalyse⟩ := analyse_of_compile h
  refine ⟨tree, hparse, (Diagnostic.isLineByLine_iff _).trans ?_⟩
  have hfound := isFoundIn_of_analyse settings hanalyse
  exact forall₂_congr fun d hd => (hfound d hd).isOneLine_message_iff hparse

/-- A title with a line break is not quoted. An option is, and it is on one line. -/
theorem isLineByLine_compile_brokenTitle :
    let source := "(score (title \x22a\nb\x22) (instrument (musicData (n c4 q \x22c\x22))))"
    ∃ analysis : Analysis Rat, compile {} source = .ok analysis ∧
      (Diagnostic.report analysis.diagnostics).toList.count '\n' = 1 ∧
      ∃ tree, parse source = .ok tree ∧ (Diagnostic.IsLineByLine analysis.diagnostics ↔
        ∀ d ∈ analysis.diagnostics, ¬ d.QuotesBrokenString tree) := by
  intro source
  have hcount : ((compile {} source : Except CompileError (Analysis Rat)).toOption.map fun analysis =>
      (Diagnostic.report analysis.diagnostics).toList.count '\n') = some 1 := by decide +kernel
  cases h : (compile {} source : Except CompileError (Analysis Rat)) with
  | error e => simp [h, Except.toOption] at hcount
  | ok analysis =>
      simp only [h, Except.toOption, Option.map_some, Option.some.injEq] at hcount
      exact ⟨analysis, rfl, hcount, isLineByLine_compile_iff h⟩

/-- An option that is a string with a line break makes two lines of one problem. -/
theorem not_isLineByLine_brokenOption :
    let source := "(score (vers 2.0) (instrument (musicData (n c4 q \x22a\nb\x22))))"
    ∃ analysis : Analysis Rat, compile {} source = .ok analysis ∧
      analysis.diagnostics.length = 1 ∧ ¬ Diagnostic.IsLineByLine analysis.diagnostics := by
  intro source
  have hall : ((compile {} source : Except CompileError (Analysis Rat)).toOption.map fun analysis =>
      (analysis.diagnostics.length, (Diagnostic.report analysis.diagnostics).toList.count '\n')) =
      some (1, 2) := by decide +kernel
  cases h : (compile {} source : Except CompileError (Analysis Rat)) with
  | error e => simp [h, Except.toOption] at hall
  | ok analysis =>
      simp only [h, Except.toOption, Option.map_some, Option.some.injEq, Prod.mk.injEq] at hall
      obtain ⟨hlength, hcount⟩ := hall
      refine ⟨analysis, rfl, hlength, fun hlines => ?_⟩
      exact absurd (hcount.symm.trans (hlines.count.trans hlength)) (by decide)

end ScorePlayback
