import ScorePlayback.Proofs.Analysis.TupletRatios

/-! # The durations of chords in tuplets

The notes of a chord are read one after the other, and each of them changes the tuplets that are
open for the next one. They sound equally long if they are written so and all tuplets start at the
first note of the chord and end at the last one. -/

namespace ScorePlayback

/-! ## Open tuplets and the next note -/

namespace OpenTuplets

variable {tuplets : OpenTuplets} {markers : List Marker}

/-- What a note with some markers is scaled by, between some open tuplets. -/
def scaleOf {τ : Type} [TimeValue τ] (tuplets : OpenTuplets) (markers : List Marker) : τ :=
  TimeValue.product ((tuplets.remaining (Marker.tupletKeys markers)).map TupletSpec.scale) *
    TimeValue.product ((Marker.tupletSpecs markers).map TupletSpec.scale)

theorem scaleOf_eq (tuplets : OpenTuplets) (markers : List Marker) :
    (tuplets.scaleOf markers : Rat) =
      ((tuplets.remaining (Marker.tupletKeys markers)).map TupletSpec.ratio).prod *
        Marker.startedRatio markers := by
  rw [scaleOf, product_eq_prod, product_eq_prod]
  rfl

/-- Each tuplet is open under the key at its start. -/
structure IsKeyed (tuplets : OpenTuplets) : Prop where
  ascends : Keyed.Ascends tuplets
  key : ∀ e ∈ tuplets, e.2.1 = e.1

theorem IsKeyed.mark (h : tuplets.IsKeyed) (m : Marker) : (tuplets.mark m).IsKeyed := by
  cases m with
  | tupletStart key spec =>
      refine ⟨h.ascends.insert key _, fun e he => ?_⟩
      rcases Keyed.mem_insert he with rfl | he
      · rfl
      · exact h.key e he
  | tupletEnd key => exact ⟨h.ascends.erase key, fun e he => h.key e (List.mem_filter.mp he).1⟩
  | _ => exact h

theorem IsKeyed.foldl_mark (h : tuplets.IsKeyed) (markers : List Marker) :
    (markers.foldl OpenTuplets.mark tuplets).IsKeyed :=
  List.foldlRecOn (motive := IsKeyed) markers _ h fun _ h m _ => h.mark m

theorem IsKeyed.remaining_erase (h : tuplets.IsKeyed) (key : Nat) (keys : List Nat) :
    OpenTuplets.remaining (Keyed.erase key tuplets) keys = tuplets.remaining (key :: keys) := by
  rw [remaining, remaining, Keyed.erase, List.filter_filter]
  refine congrArg (List.filterMap _) (List.filter_congr fun e he => ?_)
  rw [h.key e he]
  by_cases hkey : e.1 = key
  · simp [hkey]
  · have hne : key ≠ e.1 := fun heq => hkey heq.symm
    simp [hkey, hne]

theorem foldl_mark_of_other (h : ∀ m ∈ markers, m.isTuplet = false) (tuplets : OpenTuplets) :
    markers.foldl mark tuplets = tuplets := by
  induction markers with
  | nil => rfl
  | cons m markers ih =>
      obtain ⟨hm, hrest⟩ := List.forall_mem_cons.mp h
      cases m with
      | tupletStart key spec => cases hm
      | tupletEnd key => cases hm
      | _ => exact ih hrest

/-- A tuplet scales the note that starts it as it scales the next one. -/
theorem IsKeyed.scaleOf_tupletStart (h : tuplets.IsKeyed) {key : Nat} (spec : TupletSpec)
    (hkey : key ∉ Marker.tupletKeys markers) :
    ((tuplets.mark (.tupletStart key spec)).scaleOf markers : Rat) =
      tuplets.scaleOf (.tupletStart key spec :: markers) := by
  have hperm : ((tuplets.mark (.tupletStart key spec)).remaining (Marker.tupletKeys markers)).Perm
      (spec :: tuplets.remaining (key :: Marker.tupletKeys markers)) := by
    rw [← h.remaining_erase]
    have hinsert := h.ascends.perm_insert key (key, some spec)
    refine ((hinsert.filter _).filterMap _).trans (.of_eq ?_)
    simp [remaining, hkey]
  have hstarted : Marker.startedRatio (.tupletStart key spec :: markers) =
      spec.ratio * Marker.startedRatio markers := by
    rw [Marker.startedRatio_cons]
    simp [Marker.startedRatio, Marker.tupletSpecs]
  have hkeys : Marker.tupletKeys (.tupletStart key spec :: markers) =
      key :: Marker.tupletKeys markers := rfl
  rw [scaleOf_eq, scaleOf_eq, (hperm.map TupletSpec.ratio).prod_eq, hstarted, hkeys, List.map_cons,
    List.prod_cons, mul_assoc, mul_left_comm]

/-- A note that starts tuplets and ends none is scaled as a note without markers behind it. -/
theorem IsKeyed.scaleOf_foldl_mark (h : tuplets.IsKeyed)
    (hends : ∀ m ∈ markers, m.isTuplet = true → m.role = .starts)
    (hkeys : (Marker.tupletKeys markers).Nodup) :
    ((markers.foldl OpenTuplets.mark tuplets).scaleOf [] : Rat) = tuplets.scaleOf markers := by
  induction markers generalizing tuplets with
  | nil => rfl
  | cons m markers ih =>
      obtain ⟨hm, hrest⟩ := List.forall_mem_cons.mp hends
      cases m with
      | tupletStart key spec =>
          obtain ⟨hkey, hkeys⟩ := List.nodup_cons.mp hkeys
          rw [List.foldl_cons, ih (h.mark _) hrest hkeys, h.scaleOf_tupletStart spec hkey]
      | tupletEnd key => cases hm rfl
      | _ => exact ih h hrest hkeys

/-- A note that ends tuplets and starts none is scaled as if it had no markers. -/
theorem scaleOf_of_ends {τ : Type} [TimeValue τ] (tuplets : OpenTuplets)
    (h : ∀ m ∈ markers, m.isTuplet = true → m.role = .ends) :
    (tuplets.scaleOf markers : τ) = tuplets.scaleOf [] := by
  have hnone : Marker.tupletKeys markers = [] ∧ Marker.tupletSpecs markers = [] := by
    induction markers with
    | nil => exact ⟨rfl, rfl⟩
    | cons m markers ih =>
        obtain ⟨hm, hrest⟩ := List.forall_mem_cons.mp h
        cases m with
        | tupletStart key spec => cases hm rfl
        | _ => exact ih hrest
  rw [scaleOf, hnone.1, hnone.2]
  rfl

end OpenTuplets

/-! ## All notes -/

namespace Linking

variable {τ : Type} [TimeValue τ]

/-- Each note is as long as it is written, scaled by the tuplets that the markers of all notes before
it leave open and by those that it starts. -/
structure TimesBy (marked : List (List Marker)) (l : Linking τ) : Prop where
  length : l.notes.length = marked.length
  opened : l.openTuplets = marked.flatten.foldl OpenTuplets.mark []
  timings : ∀ front markers back, marked = front ++ markers :: back →
    ∀ timing, (l.notes.map NoteRest.timing)[front.length]? = some timing →
      timing.2 = timing.1.units *
        OpenTuplets.scaleOf (front.flatten.foldl OpenTuplets.mark []) markers

theorem timesBy_placeNote {s : Passage τ} {marked : List (List Marker)}
    (h : s.linking.TimesBy marked) (settings : Settings) {reading : NoteReading}
    (hreading : reading.IsWritten) (position : Position) (inChord : Bool) :
    (s.placeNote settings reading position inChord).linking.TimesBy
      (marked ++ [reading.spec.markers]) := by
  have htiming := s.map_placeNote NoteRest.keeps_timing settings hreading position inChord
  refine ⟨?_, ?_, fun front markers back hsplit timing hat => ?_⟩
  · simpa [h.length] using congrArg List.length htiming
  · rw [s.openTuplets_placeNote, h.opened, List.flatten_append, List.foldl_append,
      List.flatten_singleton]
  · rw [htiming] at hat
    rcases List.eq_nil_or_concat back with rfl | ⟨back, last, rfl⟩
    · -- the note itself
      obtain ⟨rfl, hlast⟩ := List.append_inj' hsplit rfl
      obtain rfl := List.singleton_inj.mp hlast
      obtain rfl : (s.realize reading.spec position inChord).timing = timing := by
        simpa [h.length] using hat
      rw [← h.opened]
      exact congrArg (reading.spec.duration.units * ·) (tupletScale_eq _ _)
    · rw [List.concat_eq_append, ← List.cons_append, ← List.append_assoc] at hsplit
      obtain ⟨rfl, -⟩ := List.append_inj' hsplit rfl
      rw [List.getElem?_append_left (by simp [h.length])] at hat
      exact h.timings front markers back rfl timing hat

theorem Logs.exists_timesBy {settings : Settings} {l : Linking τ} {log : List LogEntry}
    (h : Logs settings {} log l) : ∃ marked, l.TimesBy marked ∧
      marked.map (List.map Marker.address) = (log.filterMap LogEntry.placed?).map fun w =>
        w.items.filterMap (Node.address? settings w.isNote) := by
  induction h with
  | nil => exact ⟨[], ⟨rfl, rfl, fun front markers back hsplit => by simp at hsplit⟩, rfl⟩
  | rejected _ r ih =>
      rw [List.filterMap_append, List.filterMap_cons_none rfl, List.filterMap_nil, List.append_nil]
      obtain ⟨marked, hmarked, haddresses⟩ := ih
      exact ⟨marked, ⟨hmarked.length, hmarked.opened, hmarked.timings⟩, haddresses⟩
  | placed _ hread inChord ih =>
      obtain ⟨marked, hmarked, haddresses⟩ := ih
      refine ⟨_, timesBy_placeNote hmarked settings (NoteReading.isWritten_of_read hread) _ inChord,
        ?_⟩
      rw [List.map_append, haddresses, List.filterMap_append, List.map_append]
      exact congrArg (_ ++ [·]) (NoteReading.addresses_of_read hread)

end Linking

/-! ## Notes that sound equally long -/

namespace WrittenNote

/-- What the markers of a note for tuplets are for. -/
def tupletRoles (settings : Settings) (w : WrittenNote) : List Role :=
  ((w.items.filterMap (Node.address? settings w.isNote)).filter (·.1 = .tuplet)).map (·.2.2)

variable {settings : Settings} {w : WrittenNote} {markers : List Marker}

theorem role_of_tupletRoles {role : Role} (h : ∀ found ∈ w.tupletRoles settings, found = role)
    (hitems : markers.map Marker.address =
      w.items.filterMap (Node.address? settings w.isNote)) :
    ∀ m ∈ markers, m.isTuplet = true → m.role = role := by
  intro m hm htuplet
  refine h m.role (List.mem_map.mpr ⟨m.address, List.mem_filter.mpr ⟨?_, ?_⟩, rfl⟩)
  · exact hitems ▸ List.mem_map_of_mem hm
  · cases m with
    | tupletStart key spec => rfl
    | tupletEnd key => rfl
    | _ => cases htuplet

/-- Of some notes in a row only the first one starts tuplets, each under its own key, and only the
last one ends any. -/
structure Enclose (settings : Settings) (first : WrittenNote) (between : List WrittenNote)
    (last : WrittenNote) : Prop where
  keys : (first.tupletKeys settings).Nodup
  starts : ∀ role ∈ first.tupletRoles settings, role = .starts
  between : ∀ w ∈ between, w.tupletRoles settings = []
  ends : ∀ role ∈ last.tupletRoles settings, role = .ends

theorem isTuplet_of_tupletRoles (h : w.tupletRoles settings = [])
    (hitems : markers.map Marker.address =
      w.items.filterMap (Node.address? settings w.isNote)) :
    ∀ m ∈ markers, m.isTuplet = false := by
  intro m hm
  refine Bool.eq_false_iff.mpr fun htuplet => ?_
  have hrole (role : Role) : m.role = role :=
    role_of_tupletRoles (by simp [h]) hitems m hm htuplet
  cases (hrole .starts).symm.trans (hrole .ends)

end WrittenNote

/-- Notes that are written equally long sound so if no tuplet starts behind the first of them and
none ends before the last of them. `placed` are the notes as they are written. -/
structure Score.KeepsDurations (settings : Settings) (score : Score Rat)
    (placed : List WrittenNote) : Prop where
  notes : List.Forall₂ (NoteRest.IsOf settings) score.notes placed
  durations : ∀ front first between last back,
    placed = front ++ first :: (between ++ last :: back) →
      WrittenNote.Enclose settings first between last →
        ∀ m n, score.notes[front.length]? = some m →
          score.notes[front.length + 1 + between.length]? = some n →
            m.written = n.written → m.duration = n.duration

theorem Linking.TimesBy.duration_eq {marked : List (List Marker)} {l : Linking Rat}
    (h : l.TimesBy marked) {front between back : List (List Marker)} {first last : List Marker}
    (hsplit : marked = front ++ first :: (between ++ last :: back))
    (hkeys : (Marker.tupletKeys first).Nodup)
    (hstarts : ∀ m ∈ first, m.isTuplet = true → m.role = .starts)
    (hbetween : ∀ markers ∈ between, ∀ m ∈ markers, m.isTuplet = false)
    (hends : ∀ m ∈ last, m.isTuplet = true → m.role = .ends) {m n : NoteRest Rat}
    (hm : l.notes[front.length]? = some m)
    (hn : l.notes[front.length + 1 + between.length]? = some n) (hwritten : m.written = n.written) :
    m.duration = n.duration := by
  let tuplets : OpenTuplets := front.flatten.foldl OpenTuplets.mark []
  have hkeyed : tuplets.IsKeyed := OpenTuplets.IsKeyed.foldl_mark ⟨.nil, nofun⟩ _
  have hfirst : m.duration = m.written.units * tuplets.scaleOf first :=
    h.timings front first _ hsplit m.timing (by simp [hm])
  have hlast : n.duration = n.written.units *
      OpenTuplets.scaleOf ((front ++ first :: between).flatten.foldl OpenTuplets.mark []) last := by
    refine h.timings (front ++ first :: between) last back (by simp [hsplit]) n.timing ?_
    have hlength : (front ++ first :: between).length = front.length + 1 + between.length := by
      simp [Nat.add_right_comm, Nat.add_assoc]
    rw [hlength, List.getElem?_map, hn]
    rfl
  have hopen : (front ++ first :: between).flatten.foldl OpenTuplets.mark [] =
      first.foldl OpenTuplets.mark tuplets := by
    rw [List.flatten_append, List.flatten_cons, List.foldl_append, List.foldl_append]
    refine OpenTuplets.foldl_mark_of_other (fun m hm => ?_) _
    obtain ⟨markers, hmarkers, hm⟩ := List.mem_flatten.mp hm
    exact hbetween markers hmarkers m hm
  rw [hfirst, hlast, hopen, OpenTuplets.scaleOf_of_ends _ hends,
    hkeyed.scaleOf_foldl_mark hstarts hkeys, hwritten]

theorem exists_keepsDurations_analyseScore (settings : Settings) (node : Node) :
    ∃ placed : List WrittenNote, placed.Sublist node.writtenNotes ∧
      (analyseScore settings node.children).score.KeepsDurations settings placed := by
  obtain ⟨log, hlog, hcovers⟩ := ScoreState.reads_children (τ := Rat) settings node.children
  obtain ⟨marked, hmarked, haddresses⟩ := hlog.exists_timesBy
  refine ⟨log.filterMap LogEntry.placed?, hcovers.placed, hlog.forall₂_notes, ?_⟩
  intro front first between last back hsplit henclose m n hm hn hwritten
  rw [hsplit, List.map_append, List.map_cons, List.map_append, List.map_cons] at haddresses
  obtain ⟨front', rest, rfl, hfront, hrest⟩ := List.map_eq_append_iff.mp haddresses
  obtain ⟨first', rest, rfl, hfirst, hrest⟩ := List.map_eq_cons_iff.mp hrest
  obtain ⟨between', rest, rfl, hbetween, hrest⟩ := List.map_eq_append_iff.mp hrest
  obtain ⟨last', back', rfl, hlast, -⟩ := List.map_eq_cons_iff.mp hrest
  have hfrontLength : front'.length = front.length := by simpa using congrArg List.length hfront
  have hbetweenLength : between'.length = between.length := by
    simpa using congrArg List.length hbetween
  refine hmarked.duration_eq rfl ?_ (WrittenNote.role_of_tupletRoles henclose.starts hfirst) ?_
    (WrittenNote.role_of_tupletRoles henclose.ends hlast) (hfrontLength ▸ hm)
    (hfrontLength ▸ hbetweenLength ▸ hn) hwritten
  · exact (WrittenNote.map_key_filter hfirst ▸ henclose.keys).sublist
      (Marker.tupletKeys_sublist first')
  · intro markers hmarkers
    have hmem : markers.map Marker.address ∈ between.map _ :=
      hbetween ▸ List.mem_map_of_mem hmarkers
    obtain ⟨w, hw, hitems⟩ := List.mem_map.mp hmem
    exact WrittenNote.isTuplet_of_tupletRoles (henclose.between w hw) hitems.symm

/-- All notes of a chord that are written equally long sound so if all tuplets start at its first
note and end at its last one. The same is true of notes that follow each other. Durations are exact
here: a note multiplies the ratios of the tuplets that it starts by themselves, the notes behind it
do so in the order of the keys, and the two products can be rounded in different ways. -/
theorem keepsDurations_of_compile {settings : Settings} {source : String} {analysis : Analysis Rat}
    (h : compile settings source = .ok analysis) :
    ∃ tree, parse source = .ok tree ∧
      List.Forall₂ (fun (score : Score Rat) element =>
        ∃ placed : List WrittenNote, placed.Sublist element.writtenNotes ∧
          score.KeepsDurations settings placed) analysis.document.scores tree.scoreElements := by
  obtain ⟨tree, htree, hanalyse⟩ := analyse_of_compile h
  refine ⟨tree, htree, forall₂_scores_of_analyse hanalyse fun titled _ => ?_⟩
  obtain ⟨placed, hsub, hkeeps⟩ := exists_keepsDurations_analyseScore settings titled.1
  exact ⟨placed, hsub, { hkeeps with }⟩

/-- A chord from whose first to whose last note there is a tuplet, inside another one. -/
theorem keepsDurations_enclosedChord :
    let source := "(score (instrument (musicData (n c4 q (t 1 + 3 2)) " ++
      "(chord (n e4 q (t 2 + 5 4)) (n g4 q) (n b4 q (t 1 -) (t 2 -))))))"
    ∃ analysis : Analysis Rat, compile {} source = .ok analysis ∧
      (analysis.document.scores.map fun score => score.notes.map NoteRest.duration) =
        [[128 / 3, 512 / 15, 512 / 15, 512 / 15]] ∧
      ∃ tree, parse source = .ok tree ∧
        List.Forall₂ (fun (score : Score Rat) element =>
          ∃ placed : List WrittenNote, placed.Sublist element.writtenNotes ∧
            score.KeepsDurations {} placed) analysis.document.scores tree.scoreElements := by
  intro source
  have ⟨analysis, h, hdurations⟩ : ∃ analysis : Analysis Rat, compile {} source = .ok analysis ∧
      (analysis.document.scores.map fun score => score.notes.map NoteRest.duration) =
        [[128 / 3, 512 / 15, 512 / 15, 512 / 15]] :=
    exists_compile_of_characters String.ofList_append.symm (by decide +kernel)
  exact ⟨analysis, h, hdurations, keepsDurations_of_compile h⟩

/-- The tuplet ends at the first note of the chord, so the second one is not scaled. -/
theorem duration_ne_splitChord :
    let source := "(score (vers 2.0) (instrument (musicData (n c4 q (t + 3 2))(n d4 q)" ++
      "(chord (n e4 q (t -))(n g4 q)))))"
    ∃ analysis : Analysis Rat, compile {} source = .ok analysis ∧ analysis.diagnostics = [] ∧
      ∃ score ∈ analysis.document.scores, ∃ m n, score.notes[2]? = some m ∧
        score.notes[3]? = some n ∧ m.inChord = false ∧ n.inChord = true ∧
          m.written = n.written ∧ m.duration ≠ n.duration := by
  intro source
  have ⟨analysis, h, hclean, hscores⟩ : ∃ analysis : Analysis Rat,
      compile {} source = .ok analysis ∧ analysis.diagnostics = [] ∧
        (analysis.document.scores.map fun score =>
          (score.notes.drop 2).map fun n => (n.inChord, n.timing)) =
        [[(false, ⟨.quarter, 0⟩, 128 / 3), (true, ⟨.quarter, 0⟩, 64)]] :=
    exists_compile_of_characters String.ofList_append.symm (by decide +kernel)
  obtain ⟨score, hscore, hnotes⟩ := List.map_eq_singleton_iff.mp hscores
  obtain ⟨m, rest, hdrop, hm, hrest⟩ := List.map_eq_cons_iff.mp hnotes
  obtain ⟨n, rfl, hn⟩ := List.map_eq_singleton_iff.mp hrest
  have hat (i : Nat) : score.notes[2 + i]? = [m, n][i]? := by rw [← List.getElem?_drop, hdrop]
  simp only [NoteRest.timing, Prod.mk.injEq] at hm hn
  refine ⟨analysis, h, hclean, score, hscore ▸ List.mem_singleton_self _, m, n, hat 0, hat 1,
    hm.1, hn.1, hm.2.1.trans hn.2.1.symm, ?_⟩
  rw [hm.2.2, hn.2.2]
  decide +kernel

end ScorePlayback
