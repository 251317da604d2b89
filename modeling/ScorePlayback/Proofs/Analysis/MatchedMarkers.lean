import ScorePlayback.Proofs.Analysis.MarkerCalls
import ScorePlayback.Time.Exact

/-! # Markers that match

All markers of a relation have the same key as far as 32 bits go. -/

namespace ScorePlayback

/-! ## Written keys -/

/-- A relation is started by a marker, and all its markers have the written key of this one as far
as 32 bits go. -/
def SharesKey (endpoints : List (Endpoint (Option Node))) : Prop :=
  ∃ start ∈ endpoints.head?.bind Endpoint.payload, ∀ e ∈ endpoints, ∀ marker ∈ e.payload,
    marker.writtenKey % 2 ^ 32 = start.writtenKey % 2 ^ 32

/-- All markers are known by their written keys. -/
def KeepsKeys (calls : List (RegistryCall (Option Node))) : Prop :=
  ∀ e pitchOf, .mark e pitchOf ∈ calls →
    ∃ marker, e.payload = some marker ∧ e.key = marker.writtenKey % 2 ^ 32

namespace KeepsKeys

variable {calls : List (RegistryCall (Option Node))} {key : Nat}

theorem of_subset {past : List (RegistryCall (Option Node))} (h : KeepsKeys calls)
    (hsub : past ⊆ calls) : KeepsKeys past := fun e pitchOf he => h e pitchOf (hsub he)

theorem key_eq (h : KeepsKeys calls) {e : Endpoint (Option Node)} {pitchOf : Nat → Option Pitch}
    (he : .mark e pitchOf ∈ calls) {marker : Node} (hmarker : marker ∈ e.payload) :
    marker.writtenKey % 2 ^ 32 = e.key := by
  obtain ⟨marker', hpayload, hkey⟩ := h e pitchOf he
  obtain rfl : marker' = marker := Option.some.inj (hpayload.symm.trans hmarker)
  exact hkey.symm

/-- What is open under a key has been marked with it. -/
theorem sharesKey_append (h : KeepsKeys calls) {o : OpenRelation (Option Node)}
    (ho : RegistryCall.leftOpen none key calls = some o) {more : List (Endpoint (Option Node))}
    (hmore : ∀ e ∈ more, ∀ marker ∈ e.payload, marker.writtenKey % 2 ^ 32 = key) :
    SharesKey (o.endpoints ++ more) := by
  obtain ⟨⟨hkey, pitchOf, hmem⟩, hlater⟩ := RegistryCall.marked_of_leftOpen ho
  obtain ⟨start, hpayload, hstart⟩ := h _ _ hmem
  obtain rfl : key = start.writtenKey % 2 ^ 32 := hkey.symm.trans hstart
  refine ⟨start, hpayload, List.forall_mem_append.mpr ⟨List.forall_mem_cons.mpr ⟨?_, ?_⟩, hmore⟩⟩
  · exact fun marker hmarker => (h.key_eq hmem hmarker).trans hkey
  · intro e he marker hmarker
    rcases hlater e he with hnone | ⟨hkey, pitchOf, hmem⟩
    · rw [hnone] at hmarker
      cases hmarker
    · exact (h.key_eq hmem hmarker).trans hkey

theorem sharesKey_leftOpen (h : KeepsKeys calls) {o : OpenRelation (Option Node)}
    (ho : RegistryCall.leftOpen none key calls = some o) : SharesKey o.endpoints :=
  List.append_nil o.endpoints ▸ h.sharesKey_append ho nofun

theorem sharesKey_ended (h : KeepsKeys calls) :
    ∀ endpoints ∈ RegistryCall.endedAfter none [] calls, SharesKey endpoints := by
  induction calls using List.reverseRecOn with
  | nil => exact nofun
  | append_singleton calls call ih =>
      have hpast := h.of_subset (List.subset_append_left calls [call])
      rw [RegistryCall.endedAfter_concat]
      refine List.forall_mem_append.mpr ⟨ih hpast, fun endpoints hended => ?_⟩
      cases call with
      | continueAll note position => cases hended
      | mark e pitchOf =>
          rw [Option.mem_toList, RegistryCall.ended?] at hended
          split at hended
          · obtain ⟨o, ho, rfl⟩ := Option.map_eq_some_iff.mp hended
            refine hpast.sharesKey_append ho ?_
            refine List.forall_mem_singleton.mpr fun marker hmarker => ?_
            exact h.key_eq (List.mem_append_right _ (List.mem_singleton_self _)) hmarker
          · cases hended

end KeepsKeys

theorem WrittenNote.keepsKeys_callsOf (settings : Settings) (kind : RelationKind)
    (placed : List (WrittenNote × Bool)) : KeepsKeys (callsOf settings kind placed) := by
  intro e pitchOf he
  obtain ⟨⟨⟨w, inChord⟩, note⟩, -, hcall⟩ := List.mem_flatMap.mp he
  rcases List.mem_append.mp hcall with hmarker | hpass
  · obtain ⟨item, -, hitem⟩ := List.mem_filterMap.mp hmarker
    obtain ⟨⟨found, key, role⟩, haddress, hmark⟩ := Option.bind_eq_some_iff.mp hitem
    have hkey := NoteOption.key_of_address? haddress
    dsimp only at hmark
    split at hmark
    · obtain ⟨rfl, -⟩ := RegistryCall.mark.inj (Option.some.inj hmark)
      exact ⟨item, rfl, hkey⟩
    · cases hmark
  · split at hpass
    · cases List.mem_singleton.mp hpass
    · cases hpass

/-! ## Scores -/

/-- The markers of the notes, as they are written, decide which relations a score has. All markers
of a relation have one key as far as 32 bits go. `placed` also says which notes follow another one
of their chord. -/
structure Score.IsMatched {τ : Type} (settings : Settings) (score : Score τ)
    (placed : List (WrittenNote × Bool)) : Prop where
  notes : List.Forall₂ (NoteRest.IsOf settings) score.notes (placed.map Prod.fst)
  inChord : score.notes.map NoteRest.inChord = placed.map Prod.snd
  ended (kind : RelationKind) :
    (endedParts (WrittenNote.callsOf settings kind placed)).Sublist (partsOf kind score.relations)
  /-- Only legacy ties and beams end without markers. -/
  ended_eq (kind : RelationKind) : kind ≠ .tie → kind ≠ .beam →
    endedParts (WrittenNote.callsOf settings kind placed) = partsOf kind score.relations
  sharesKey_ended (kind : RelationKind) : ∀ endpoints ∈
    RegistryCall.endedAfter none [] (WrittenNote.callsOf settings kind placed),
      SharesKey endpoints
  /-- What is joined but never ends shares its key, too. -/
  sharesKey_open (kind : RelationKind) :
    ∀ past, past <+: WrittenNote.callsOf settings kind placed →
      ∀ key, ∀ o ∈ RegistryCall.leftOpen none key past, SharesKey o.endpoints

section

variable {τ : Type} [TimeValue τ]

theorem exists_isMatched_analyseScore (settings : Settings) (node : Node) :
    ∃ placed : List (WrittenNote × Bool), (placed.map Prod.fst).Sublist node.writtenNotes ∧
      (analyseScore settings node.children : ScoreAnalysis τ).score.IsMatched settings placed := by
  obtain ⟨log, hlog, hcovers⟩ := ScoreState.reads_children (τ := τ) settings node.children
  have hplaced := LogEntry.map_fst_placing log
  have hkeys (kind : RelationKind) :=
    WrittenNote.keepsKeys_callsOf settings kind (log.filterMap LogEntry.placing?)
  refine ⟨log.filterMap LogEntry.placing?, hplaced ▸ hcovers.placed, ?_⟩
  exact {
    notes := hplaced ▸ hlog.forall₂_notes
    inChord := hlog.map_inChord
    ended := fun kind => (hlog.follows kind).ended
    ended_eq := fun kind => (hlog.follows kind).ended_eq
    sharesKey_ended := fun kind => (hkeys kind).sharesKey_ended
    sharesKey_open := fun kind past hpast key o ho =>
      ((hkeys kind).of_subset hpast.subset).sharesKey_leftOpen ho }

/-- All markers that join a relation have the written key of its start, as far as 32 bits go. -/
theorem isMatched_of_compile {settings : Settings} {source : String} {analysis : Analysis τ}
    (h : compile settings source = .ok analysis) :
    ∃ tree, parse source = .ok tree ∧
      List.Forall₂ (fun (score : Score τ) element =>
        ∃ placed : List (WrittenNote × Bool), (placed.map Prod.fst).Sublist element.writtenNotes ∧
          score.IsMatched settings placed) analysis.document.scores tree.scoreElements := by
  obtain ⟨tree, htree, hanalyse⟩ := analyse_of_compile h
  refine ⟨tree, htree, forall₂_scores_of_analyse hanalyse fun titled _ => ?_⟩
  obtain ⟨placed, hsub, hmatched⟩ := exists_isMatched_analyseScore (τ := τ) settings titled.1
  exact ⟨placed, hsub, { hmatched with }⟩

end

/-- Slurs with other keys may overlap; each end finds its own start. -/
theorem isMatched_overlappingSlurs :
    let source := "(score (instrument (musicData (n c4 q (slur 1 start)) " ++
      "(n d4 q (slur 2 start) (slur 1 stop)) (n e4 q (slur 2 stop)))))"
    ∃ analysis : Analysis Rat, compile {} source = .ok analysis ∧
      analysis.document.scores.map Score.relations =
        [[⟨.slur, [0, 1], .slur⟩, ⟨.slur, [1, 2], .slur⟩]] ∧
      ∃ tree, parse source = .ok tree ∧
        List.Forall₂ (fun (score : Score Rat) element =>
          ∃ placed : List (WrittenNote × Bool), (placed.map Prod.fst).Sublist element.writtenNotes ∧
            score.IsMatched {} placed) analysis.document.scores tree.scoreElements := by
  intro source
  have hall : ((compile {} source : Except CompileError (Analysis Rat)).toOption.map fun analysis =>
      analysis.document.scores.map Score.relations) =
        some [[⟨.slur, [0, 1], .slur⟩, ⟨.slur, [1, 2], .slur⟩]] := by decide +kernel
  cases h : (compile {} source : Except CompileError (Analysis Rat)) with
  | error e => simp [h, Except.toOption] at hall
  | ok analysis =>
      simp only [h, Except.toOption, Option.map_some, Option.some.injEq] at hall
      exact ⟨analysis, rfl, hall, isMatched_of_compile h⟩

/-- The keys 0 and `2 ^ 32` are not told apart: the end with one of them closes the slur that starts
with the other. -/
theorem not_sharesKey_wrapped :
    let source := "(score (instrument (musicData (n c4 q (slur 0 start)) " ++
      "(n d4 q (slur 4294967296 stop)))))"
    ((compile {} source : Except CompileError (Analysis Rat)).toOption.map fun analysis =>
      (analysis.document.scores.map Score.relations, analysis.diagnostics)) =
        some ([[⟨.slur, [0, 1], .slur⟩]], []) ∧
    ((parse source).toOption.map fun tree => tree.scoreElements.flatMap fun element =>
      (RegistryCall.endedAfter none []
        (WrittenNote.callsOf {} .slur (element.writtenNotes.map (·, false)))).map fun endpoints =>
          endpoints.map fun e => (e.note, e.payload.map Node.writtenKey)) =
        some [[(0, some 0), (1, some 4294967296)]] := by
  intro source
  constructor
  · decide +kernel
  · decide +kernel

end ScorePlayback
