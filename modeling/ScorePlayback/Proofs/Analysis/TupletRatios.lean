import Mathlib.Algebra.BigOperators.Group.List.Basic
import ScorePlayback.Proofs.Analysis.CrossLinks
import ScorePlayback.Proofs.Analysis.MatchedMarkers

/-! # Tuplets and durations

How long a note is gets decided before its own markers are told to the registry, from the tuplets
that are open and those that it starts. In a score without problems this is the same as what its
relations say: each tuplet scales all notes from its first to its last one, and nothing else does. -/

namespace ScorePlayback

/-! ## Notes that tuplets span -/

def TupletSpec.ratio (t : TupletSpec) : Rat := t.normal / t.actual

theorem TupletSpec.scale_eq_ratio : (TupletSpec.scale : TupletSpec → Rat) = ratio := rfl

def RelationData.tuplet? : RelationData → Option TupletSpec
  | .tuplet spec => some spec
  | _ => none

/-- A note is not before the first part and not behind the last one. -/
def Relation.spans (r : Relation) (note : Nat) : Bool :=
  r.parts.head?.any (· ≤ note) && r.parts.getLast?.any (note ≤ ·)

/-- What a relation multiplies the duration of a note by, if it does. -/
def Relation.ratioAt? (r : Relation) (note : Nat) : Option Rat :=
  if r.kind = .tuplet ∧ r.spans note then r.data.tuplet?.map TupletSpec.ratio else none

/-- The product of the ratios of all tuplets that span a note. -/
def spanningRatio (relations : List Relation) (note : Nat) : Rat :=
  (relations.filterMap (·.ratioAt? note)).prod

def Score.tupletRatio {τ : Type} (score : Score τ) (note : Nat) : Rat :=
  spanningRatio score.relations note

theorem prod_filterMap_cons {α : Type} (f : α → Option Rat) (a : α) (rest : List α) :
    ((a :: rest).filterMap f).prod = (f a).toList.prod * (rest.filterMap f).prod := by
  cases h : f a with
  | none => simp [h]
  | some ratio => simp [h]

theorem spanningRatio_append (relations more : List Relation) (note : Nat) :
    spanningRatio (relations ++ more) note =
      spanningRatio relations note * spanningRatio more note := by
  rw [spanningRatio, List.filterMap_append, List.prod_append]
  rfl

theorem spanningRatio_eq_one {relations : List Relation} {note : Nat}
    (h : ∀ r ∈ relations, r.ratioAt? note = none) : spanningRatio relations note = 1 := by
  rw [spanningRatio, List.filterMap_eq_nil_iff.mpr h, List.prod_nil]

theorem Relation.ratioAt?_of_kind {r : Relation} (h : r.kind ≠ .tuplet) (note : Nat) :
    r.ratioAt? note = none :=
  if_neg fun hscales => h hscales.1

/-- No note behind all its parts is scaled. -/
theorem Relation.ratioAt?_of_lt {r : Relation} {note : Nat} (h : ∀ part ∈ r.parts, part < note) :
    r.ratioAt? note = none := by
  have hspans : r.spans note = false := by
    cases hlast : r.parts.getLast? with
    | none => simp [spans, hlast]
    | some last =>
        have hlt := h last (List.mem_of_getLast? hlast)
        simp [spans, hlast, hlt]
  simp [ratioAt?, hspans]

/-! ### Open tuplets -/

/-- What an open tuplet multiplies the duration of a note by, as far as it goes. -/
def Endpoint.ratioAt? (start : Endpoint (Option TupletSpec)) (note : Nat) : Option Rat :=
  if start.note ≤ note then start.payload.map TupletSpec.ratio else none

/-- The product of the ratios of all open tuplets that start at a note or before it. -/
def Registry.openRatio (r : Registry (Option TupletSpec)) (note : Nat) : Rat :=
  (r.openStarts.filterMap (·.ratioAt? note)).prod

/-- Tuplets are open since some note at the latest, each under its own key. -/
structure Registry.OpensBy (note : Nat) (r : Registry (Option TupletSpec)) : Prop where
  ascends : Keyed.Ascends r.pending
  start : ∀ e ∈ r.pending,
    e.2.start.key = e.1 ∧ e.2.start.payload.isSome ∧ e.2.start.note ≤ note

namespace Registry

variable {r : Registry (Option TupletSpec)} {note : Nat}

theorem OpensBy.mono (h : r.OpensBy note) {later : Nat} (hle : note ≤ later) : r.OpensBy later :=
  ⟨h.ascends, fun e he => ⟨(h.start e he).1, (h.start e he).2.1, (h.start e he).2.2.trans hle⟩⟩

theorem OpensBy.insert (h : r.OpensBy note) (key : Nat) (position : Position) (spec : TupletSpec) :
    OpensBy note ⟨Keyed.insert key ⟨⟨key, .starts, note, position, some spec⟩, []⟩ r.pending⟩ := by
  refine ⟨h.ascends.insert key _, fun e he => ?_⟩
  rcases Keyed.mem_insert he with rfl | he
  · exact ⟨rfl, rfl, Nat.le_refl note⟩
  · exact h.start e he

theorem OpensBy.erase (h : r.OpensBy note) (key : Nat) :
    OpensBy note ⟨Keyed.erase key r.pending⟩ :=
  ⟨h.ascends.erase key, fun e he => h.start e (List.mem_filter.mp he).1⟩

theorem OpensBy.continueAll (h : r.OpensBy note) (position : Position) :
    (r.continueAll .tuplet note position).OpensBy note :=
  ⟨List.pairwise_map.mpr h.ascends, List.forall_mem_map.mpr h.start⟩

/-- Under a key that nothing is open under, no start has it. -/
theorem OpensBy.key_ne (h : r.OpensBy note) {key : Nat}
    (hnone : Keyed.find? key r.pending = none) : ∀ start ∈ r.openStarts, start.key ≠ key := by
  refine List.forall_mem_map.mpr fun e he hkey => ?_
  obtain rfl : e.1 = key := (h.start e he).1.symm.trans hkey
  have hfound := h.ascends.find?_of_mem he
  simp [hfound] at hnone

theorem openStarts_continueAll (note : Nat) (position : Position) :
    (r.continueAll .tuplet note position).openStarts = r.openStarts := by
  rw [openStarts, continueAll, List.map_map]
  rfl

theorem OpensBy.openRatio_insert (h : r.OpensBy note) {key : Nat}
    (hnone : Keyed.find? key r.pending = none) (o : OpenRelation (Option TupletSpec)) (i : Nat) :
    openRatio ⟨Keyed.insert key o r.pending⟩ i =
      r.openRatio i * (o.start.ratioAt? i).toList.prod := by
  have hperm := h.ascends.perm_insert key o
  rw [Keyed.erase_of_find?_eq_none hnone] at hperm
  have hstarts := (hperm.map fun e => e.2.start).filterMap (·.ratioAt? i)
  rw [mul_comm, openRatio, openStarts, hstarts.prod_eq, List.map_cons, prod_filterMap_cons]
  rfl

theorem OpensBy.openRatio_erase (h : r.OpensBy note) {o : OpenRelation (Option TupletSpec)}
    {key : Nat} (hfind : Keyed.find? key r.pending = some o) (i : Nat) :
    r.openRatio i =
      (o.start.ratioAt? i).toList.prod * openRatio ⟨Keyed.erase key r.pending⟩ i := by
  have hstarts := ((h.ascends.perm_erase hfind).map fun e => e.2.start).filterMap (·.ratioAt? i)
  rw [openRatio, openStarts, hstarts.prod_eq, List.map_cons, prod_filterMap_cons]
  rfl

/-- A tuplet that ends at a note scales what it has scaled while it was open. -/
theorem ratioAt?_closing {o : OpenRelation (Option TupletSpec)} {e : Endpoint (Option TupletSpec)}
    (hpayload : o.start.payload.isSome) {i : Nat} (hi : i ≤ e.note) :
    (closing .tuplet o e).relation.ratioAt? i = o.start.ratioAt? i := by
  obtain ⟨spec, hspec⟩ := Option.isSome_iff_exists.mp hpayload
  have hspans : (closing .tuplet o e).relation.spans i = decide (o.start.note ≤ i) := by
    rw [Relation.spans, closing, List.map_append, List.map_singleton, List.getLast?_concat]
    simp [OpenRelation.endpoints, hi]
  rw [Relation.ratioAt?, hspans, Endpoint.ratioAt?]
  simp [closing, RelationRules.tuplet, RelationData.tuplet?, hspec]

end Registry

/-! ## One marker -/

theorem Marker.tupletKeys_sublist (markers : List Marker) :
    (tupletKeys markers).Sublist ((markers.filter isTuplet).map key) := by
  induction markers with
  | nil => exact .slnil
  | cons m markers ih =>
      cases m with
      | tupletStart key spec => exact ih.cons_cons key
      | tupletEnd key => exact ih.cons key
      | _ => exact ih

/-- The product of the ratios of the tuplets that some markers start. -/
def Marker.startedRatio (markers : List Marker) : Rat :=
  ((tupletSpecs markers).map TupletSpec.ratio).prod

theorem Marker.startedRatio_cons (m : Marker) (markers : List Marker) :
    startedRatio (m :: markers) = startedRatio [m] * startedRatio markers := by
  rw [startedRatio, startedRatio, startedRatio, ← List.prod_append, ← List.map_append]
  congr 2
  exact List.filterMap_append (l := [m]) ..

namespace Linking

variable {τ : Type} {l l' : Linking τ} {note : Nat} {m : Marker}

/-- What the tuplets multiply the duration of a note by, those that have ended and those that are
open. -/
def tupletRatio (l : Linking τ) (note : Nat) : Rat :=
  spanningRatio l.relations note * l.tuplets.openRatio note

/-- What a marker of a note does to the tuplets if there is nothing to report: a start opens one
under a key that is free, and an end needs one that is open. -/
inductive Advances (note : Nat) (l l' : Linking τ) : Marker → Prop where
  | starts {key : Nat} {spec : TupletSpec} (position : Position)
      (hfind : Keyed.find? key l.tuplets.pending = none)
      (htuplets : l'.tuplets =
        ⟨Keyed.insert key ⟨⟨key, .starts, note, position, some spec⟩, []⟩ l.tuplets.pending⟩)
      (hrelations : l'.relations = l.relations) : Advances note l l' (.tupletStart key spec)
  | ends {key : Nat} {o : OpenRelation (Option TupletSpec)} {e : Endpoint (Option TupletSpec)}
      (hfind : Keyed.find? key l.tuplets.pending = some o) (hnote : e.note = note)
      (htuplets : l'.tuplets = ⟨Keyed.erase key l.tuplets.pending⟩)
      (hrelations : l'.relations = l.relations ++ [(Registry.closing .tuplet o e).relation]) :
      Advances note l l' (.tupletEnd key)
  | other {m : Marker} (hm : m.isTuplet = false) (htuplets : l'.tuplets = l.tuplets)
      (new : List Relation) (hrelations : l'.relations = l.relations ++ new)
      (hnew : ∀ r ∈ new, r.kind ≠ .tuplet) : Advances note l l' m

theorem diagnostics_addClosed {π : Type} (l : Linking τ) (closed : Option (ClosedRelation π)) :
    (l.addClosed closed).diagnostics = l.diagnostics := by
  cases closed <;> rfl

theorem advances_other (settings : Settings) (note : Nat) (position : Position) (l : Linking τ)
    (hm : m.isTuplet = false) : Advances note l (l.applyMarker settings note position m) m := by
  obtain ⟨new, hrelations, hkind, -⟩ := closesOwn_applyMarker settings note position l m
  refine .other hm (l.tuplets_applyMarker settings note position hm) new.toList hrelations ?_
  intro r hr htuplet
  have hself := Marker.isTuplet_of_kind ((hkind r (Option.mem_toList.mp hr)).symm.trans htuplet)
  simp [hm] at hself

theorem advances_applyMarker {settings : Settings} {position : Position}
    (hclean : (l.applyMarker settings note position m).diagnostics = []) :
    Advances note l (l.applyMarker settings note position m) m := by
  cases m with
  | tie key role => exact advances_other settings note position l rfl
  | slur key role => exact advances_other settings note position l rfl
  | beam key role segments => exact advances_other settings note position l rfl
  | tupletStart key spec =>
      let e : Endpoint (Option TupletSpec) := ⟨key, .starts, note, position, some spec⟩
      have hmarked := Registry.marked_mark .tuplet l.pitchOf l.tuplets e
      unfold applyMarker at hclean ⊢
      dsimp only at hclean ⊢
      rw [diagnostics_addClosed] at hclean
      have hnone := (List.append_eq_nil_iff.mp hclean).2
      generalize l.tuplets.mark .tuplet l.pitchOf e = told at hmarked hnone ⊢
      cases hmarked with
      | starts _ hfind => exact .starts position hfind rfl rfl
      | startsAgain => cases hnone
      | continues hrole => cases hrole
      | continuesNone hrole => cases hrole
      | ends hrole => cases hrole
      | endsNone hrole => cases hrole
  | tupletEnd key =>
      let e : Endpoint (Option TupletSpec) := ⟨key, .ends, note, position, none⟩
      have hmarked := Registry.marked_mark .tuplet l.pitchOf l.tuplets e
      unfold applyMarker at hclean ⊢
      dsimp only at hclean ⊢
      rw [diagnostics_addClosed] at hclean
      have hnone := (List.append_eq_nil_iff.mp hclean).2
      generalize l.tuplets.mark .tuplet l.pitchOf e = told at hmarked hnone ⊢
      cases hmarked with
      | starts hrole => cases hrole
      | startsAgain hrole => cases hrole
      | continues hrole => cases hrole
      | continuesNone hrole => cases hrole
      | ends _ hfind => exact .ends hfind rfl rfl rfl
      | endsNone => cases hnone

namespace Advances

theorem opensBy (h : Advances note l l' m) (hl : l.tuplets.OpensBy note) :
    l'.tuplets.OpensBy note := by
  cases h with
  | starts position _ htuplets => exact htuplets ▸ hl.insert _ position _
  | ends _ _ htuplets => exact htuplets ▸ hl.erase _
  | other _ htuplets => exact htuplets ▸ hl

/-- A start scales its own note and none before it. Where a tuplet ends nothing changes up to this
note. -/
theorem tupletRatio (h : Advances note l l' m) (hl : l.tuplets.OpensBy note) {i : Nat}
    (hi : i ≤ note) :
    l'.tupletRatio i = l.tupletRatio i * if i = note then Marker.startedRatio [m] else 1 := by
  cases h with
  | @starts key spec position hfind htuplets hrelations =>
      have hstart : (Endpoint.ratioAt? ⟨key, .starts, note, position, some spec⟩ i).toList.prod =
          if i = note then Marker.startedRatio [.tupletStart key spec] else 1 := by
        rw [Endpoint.ratioAt?]
        by_cases heq : i = note
        · simp [heq, Marker.startedRatio, Marker.tupletSpecs]
        · have hbehind : ¬note ≤ i := fun hle => heq (Nat.le_antisymm hi hle)
          simp [heq, hbehind]
      rw [Linking.tupletRatio, hrelations, htuplets, hl.openRatio_insert hfind, hstart,
        ← mul_assoc]
      rfl
  | @ends key o e hfind hnote htuplets hrelations =>
      have hpayload := (hl.start _ (Keyed.mem_of_find? hfind)).2.1
      have hclosing : spanningRatio [(Registry.closing .tuplet o e).relation] i =
          (o.start.ratioAt? i).toList.prod := by
        rw [spanningRatio, prod_filterMap_cons, Registry.ratioAt?_closing hpayload (hnote ▸ hi)]
        exact mul_one _
      have hstarted : Marker.startedRatio [.tupletEnd key] = 1 := rfl
      rw [Linking.tupletRatio, hrelations, htuplets, spanningRatio_append, hclosing, mul_assoc,
        ← hl.openRatio_erase hfind, hstarted, ite_self, mul_one]
      rfl
  | other hm htuplets new hrelations hnew =>
      have hstarted : Marker.startedRatio [m] = 1 := by
        cases m with
        | tupletStart key spec => cases hm
        | _ => rfl
      have hones := spanningRatio_eq_one fun r hr => Relation.ratioAt?_of_kind (hnew r hr) i
      rw [Linking.tupletRatio, hrelations, htuplets, spanningRatio_append, hones, mul_one,
        hstarted, ite_self, mul_one]
      rfl

end Advances

/-! ## All markers of a note -/

section

variable {settings : Settings} {position : Position} {markers : List Marker}

theorem advances_of_foldl
    (hclean : ((m :: markers).foldl (applyMarker settings note position) l).diagnostics = []) :
    Advances note l (l.applyMarker settings note position m) m := by
  have hrest := (ReportsRelations.refl (l.applyMarker settings note position m)).foldl_applyMarker
    settings note position markers
  exact advances_applyMarker (hrest.nothing_reported hclean)

theorem opensBy_foldl (hl : l.tuplets.OpensBy note)
    (hclean : (markers.foldl (applyMarker settings note position) l).diagnostics = []) :
    (markers.foldl (applyMarker settings note position) l).tuplets.OpensBy note := by
  induction markers generalizing l with
  | nil => exact hl
  | cons m markers ih => exact ih ((advances_of_foldl hclean).opensBy hl) hclean

/-- A note is scaled by the tuplets that it starts, on top of those that span it from before. -/
theorem tupletRatio_foldl (hl : l.tuplets.OpensBy note)
    (hclean : (markers.foldl (applyMarker settings note position) l).diagnostics = [])
    {i : Nat} (hi : i ≤ note) :
    (markers.foldl (applyMarker settings note position) l).tupletRatio i =
      l.tupletRatio i * if i = note then Marker.startedRatio markers else 1 := by
  induction markers generalizing l with
  | nil => simp [Marker.startedRatio, Marker.tupletSpecs]
  | cons m markers ih =>
      have hstep := advances_of_foldl hclean
      rw [List.foldl_cons, ih (hstep.opensBy hl) hclean, hstep.tupletRatio hl hi]
      split
      · rw [mul_assoc, ← Marker.startedRatio_cons]
      · rw [mul_one]

/-- If no two markers of a note are for the tuplets with one key, what it starts does not take the
place of anything. -/
theorem find?_of_mem_tupletKeys
    (hclean : (markers.foldl (applyMarker settings note position) l).diagnostics = [])
    (hkeys : ((markers.filter Marker.isTuplet).map Marker.key).Nodup) :
    ∀ key ∈ Marker.tupletKeys markers, Keyed.find? key l.tuplets.pending = none := by
  induction markers generalizing l with
  | nil => exact nofun
  | cons m markers ih =>
      have hstarted := (Marker.tupletKeys_sublist markers).subset
      cases advances_of_foldl hclean with
      | @starts key₀ _ position' hfind htuplets =>
          obtain ⟨hnot, hrest⟩ := List.nodup_cons.mp hkeys
          refine List.forall_mem_cons.mpr ⟨hfind, fun key hkey => ?_⟩
          have hne : key ≠ key₀ := fun heq => hnot (heq ▸ hstarted hkey)
          have hbehind := ih hclean hrest key hkey
          rwa [htuplets, Keyed.find?_insert_of_ne hne] at hbehind
      | @ends key₀ _ _ _ _ htuplets =>
          obtain ⟨hnot, hrest⟩ := List.nodup_cons.mp hkeys
          intro key hkey
          have hne : key ≠ key₀ := fun heq => hnot (heq ▸ hstarted hkey)
          have hbehind := ih hclean hrest key hkey
          rwa [htuplets, Keyed.find?_erase_of_ne hne] at hbehind
      | other hm htuplets =>
          rw [List.filter_cons_of_neg (by simp [hm])] at hkeys
          have hnone : Marker.tupletKeys (m :: markers) = Marker.tupletKeys markers := by
            cases m with
            | tupletStart key spec => cases hm
            | _ => rfl
          rw [hnone]
          exact fun key hkey => htuplets ▸ ih hclean hkeys key hkey

section

variable {inChord : Bool}

theorem applyMarkers_eq_or (settings : Settings) (note : Nat) (position : Position)
    (inChord : Bool) (markers : List Marker) (l : Linking τ) :
    let told := markers.foldl (applyMarker settings note position) l
    l.applyMarkers settings note position inChord markers = told ∨
      l.applyMarkers settings note position inChord markers =
        { told with tuplets := told.tuplets.continueAll .tuplet note position } := by
  unfold applyMarkers
  dsimp only
  split
  · exact .inl rfl
  · exact .inr rfl

theorem diagnostics_applyMarkers (settings : Settings) (note : Nat) (position : Position)
    (inChord : Bool) (markers : List Marker) (l : Linking τ) :
    (l.applyMarkers settings note position inChord markers).diagnostics =
      (markers.foldl (applyMarker settings note position) l).diagnostics := by
  rcases applyMarkers_eq_or settings note position inChord markers l with h | h <;> rw [h]

theorem opensBy_applyMarkers (hl : l.tuplets.OpensBy note)
    (hclean : (l.applyMarkers settings note position inChord markers).diagnostics = []) :
    (l.applyMarkers settings note position inChord markers).tuplets.OpensBy note := by
  have hfold := opensBy_foldl hl ((diagnostics_applyMarkers ..).symm.trans hclean)
  rcases applyMarkers_eq_or settings note position inChord markers l with h | h
  · exact h ▸ hfold
  · exact h ▸ hfold.continueAll position

theorem tupletRatio_applyMarkers (hl : l.tuplets.OpensBy note)
    (hclean : (l.applyMarkers settings note position inChord markers).diagnostics = [])
    {i : Nat} (hi : i ≤ note) :
    (l.applyMarkers settings note position inChord markers).tupletRatio i =
      l.tupletRatio i * if i = note then Marker.startedRatio markers else 1 := by
  rw [← tupletRatio_foldl hl ((diagnostics_applyMarkers ..).symm.trans hclean) hi]
  rcases applyMarkers_eq_or settings note position inChord markers l with h | h
  · rw [h]
  · rw [h, tupletRatio, tupletRatio, Registry.openRatio, Registry.openRatio,
      Registry.openStarts_continueAll]

end

end

end Linking

/-! ## Notes -/

/-- The keys of the tuplets that a note starts or ends, as they are read. -/
def WrittenNote.tupletKeys (settings : Settings) (w : WrittenNote) : List Nat :=
  ((w.items.filterMap (Node.address? settings w.isNote)).filter (·.1 = .tuplet)).map (·.2.1)

theorem WrittenNote.map_key_filter {settings : Settings} {w : WrittenNote} {markers : List Marker}
    (hitems : markers.map Marker.address =
      w.items.filterMap (Node.address? settings w.isNote)) :
    (markers.filter Marker.isTuplet).map Marker.key = w.tupletKeys settings := by
  rw [WrittenNote.tupletKeys, ← hitems, List.filter_map, List.map_map]
  refine congrArg (List.map Marker.key) (List.filter_congr fun m _ => ?_)
  cases m <;> rfl

theorem product_eq_prod (factors : List Rat) : TimeValue.product factors = factors.prod :=
  List.prod_eq_foldl.symm

/-- How long a note is written, and how long it sounds. -/
def NoteRest.timing {τ : Type} (n : NoteRest τ) : WrittenDuration × τ := (n.written, n.duration)

theorem NoteRest.keeps_timing {τ : Type} : Keeps (timing : NoteRest τ → _) :=
  ⟨fun _ => rfl, fun _ _ => rfl⟩

/-- Links in which each note has been scaled by the tuplets that span it, ended or open. -/
structure Linking.IsScaled (l : Linking Rat) : Prop where
  opens : l.tuplets.OpensBy l.notes.length
  durations : ∀ i timing, (l.notes.map NoteRest.timing)[i]? = some timing →
    timing.2 = timing.1.units * l.tupletRatio i

namespace Passage

variable {s : Passage Rat} {settings : Settings} {display : TupletDisplay} {w : WrittenNote}
  {reading : NoteReading}

/-- The scale of the next note, if no tuplet has ended behind it and it takes the place of none. -/
theorem tupletScale_eq_mul (hs : s.linking.IsScaled) (hlinked : s.linking.IsLinked)
    {markers : List Marker}
    (hfree : ∀ key ∈ Marker.tupletKeys markers, Keyed.find? key s.linking.tuplets.pending = none) :
    tupletScale s.linking.tuplets markers =
      s.linking.tupletRatio s.linking.notes.length * Marker.startedRatio markers := by
  have hended : spanningRatio s.linking.relations s.linking.notes.length = 1 :=
    spanningRatio_eq_one fun r hr =>
      Relation.ratioAt?_of_lt (hlinked.parts.relations r hr).2.below
  have hall : (s.linking.tuplets.openStarts.filter fun start =>
      !(Marker.tupletKeys markers).contains start.key) = s.linking.tuplets.openStarts := by
    refine List.filter_eq_self.mpr fun start hstart => ?_
    have hnot : start.key ∉ Marker.tupletKeys markers :=
      fun hkey => hs.opens.key_ne (hfree _ hkey) start hstart rfl
    simpa using hnot
  have hopen : (s.linking.tuplets.openStarts.filterMap Endpoint.payload).map TupletSpec.ratio =
      s.linking.tuplets.openStarts.filterMap (·.ratioAt? s.linking.notes.length) := by
    rw [List.map_filterMap]
    refine List.filterMap_congr fun start hstart => ?_
    obtain ⟨e, he, rfl⟩ := List.mem_map.mp hstart
    rw [Endpoint.ratioAt?, if_pos (hs.opens.start e he).2.2]
  rw [tupletScale, hall, product_eq_prod, product_eq_prod, TupletSpec.scale_eq_ratio, hopen,
    Linking.tupletRatio, hended, one_mul]
  rfl

theorem tupletRatio_beforeMarkers (settings : Settings) (s : Passage Rat) (reading : NoteReading)
    (position : Position) (inChord : Bool) (i : Nat) :
    (s.beforeMarkers settings reading position inChord).tupletRatio i =
      s.linking.tupletRatio i := by
  obtain ⟨new, hrelations, hkinds⟩ :=
    (s.unmarked_beforeMarkers settings reading position inChord).relations
  have hnew : spanningRatio new i = 1 := spanningRatio_eq_one fun r hr =>
    Relation.ratioAt?_of_kind (by rcases hkinds r hr with h | h <;> simp [h]) i
  rw [Linking.tupletRatio, hrelations, s.tuplets_beforeMarkers, spanningRatio_append, hnew, mul_one]
  rfl

theorem opensBy_placeNote (hs : s.linking.tuplets.OpensBy s.linking.notes.length)
    {position : Position} {inChord : Bool}
    (hclean : (s.placeNote settings reading position inChord).linking.diagnostics = []) :
    (s.placeNote settings reading position inChord).linking.tuplets.OpensBy
      s.linking.notes.length := by
  rw [linking_placeNote] at hclean ⊢
  exact Linking.opensBy_applyMarkers (s.tuplets_beforeMarkers .. ▸ hs) hclean

/-- The tuplets that a note starts scale this note, and none before it. -/
theorem tupletRatio_placeNote (hs : s.linking.tuplets.OpensBy s.linking.notes.length)
    {position : Position} {inChord : Bool}
    (hclean : (s.placeNote settings reading position inChord).linking.diagnostics = []) {i : Nat}
    (hi : i ≤ s.linking.notes.length) :
    (s.placeNote settings reading position inChord).linking.tupletRatio i =
      s.linking.tupletRatio i *
        if i = s.linking.notes.length then Marker.startedRatio reading.spec.markers else 1 := by
  rw [linking_placeNote] at hclean ⊢
  rw [Linking.tupletRatio_applyMarkers (s.tuplets_beforeMarkers .. ▸ hs) hclean hi,
    tupletRatio_beforeMarkers]

/-- A note that is placed without a report starts no tuplet that is open. -/
theorem find?_of_placeNote
    (hread : NoteReading.read settings display w.isNote w.items = .ok reading)
    (hkeys : (w.tupletKeys settings).Nodup) {inChord : Bool}
    (hclean : (s.placeNote settings reading w.position inChord).linking.diagnostics = []) :
    ∀ key ∈ Marker.tupletKeys reading.spec.markers,
      Keyed.find? key s.linking.tuplets.pending = none := by
  rw [linking_placeNote, Linking.diagnostics_applyMarkers] at hclean
  have hnodup := WrittenNote.map_key_filter (NoteReading.addresses_of_read hread) ▸ hkeys
  exact s.tuplets_beforeMarkers settings reading w.position inChord ▸
    Linking.find?_of_mem_tupletKeys hclean hnodup

theorem isScaled_placeNote (hs : s.linking.IsScaled) (hlinked : s.linking.IsLinked)
    (hread : NoteReading.read settings display w.isNote w.items = .ok reading)
    (hkeys : (w.tupletKeys settings).Nodup) {inChord : Bool}
    (hclean : (s.placeNote settings reading w.position inChord).linking.diagnostics = []) :
    (s.placeNote settings reading w.position inChord).linking.IsScaled := by
  have htiming := s.map_placeNote NoteRest.keeps_timing settings
    (NoteReading.isWritten_of_read hread) w.position inChord
  have hlength := congrArg List.length htiming
  simp only [List.length_map, List.length_append, List.length_singleton] at hlength
  refine ⟨hlength ▸ (opensBy_placeNote hs.opens hclean).mono (Nat.le_succ _), ?_⟩
  intro i timing hi
  rw [htiming] at hi
  rcases Nat.lt_trichotomy i s.linking.notes.length with hlt | rfl | hgt
  · -- the note was there before
    rw [List.getElem?_append_left (by simpa using hlt)] at hi
    rw [tupletRatio_placeNote hs.opens hclean hlt.le, if_neg hlt.ne, mul_one]
    exact hs.durations i timing hi
  · have hfree := find?_of_placeNote hread hkeys hclean
    obtain rfl : (s.realize reading.spec w.position inChord).timing = timing := by
      simpa using hi
    rw [tupletRatio_placeNote hs.opens hclean le_rfl, if_pos rfl,
      ← tupletScale_eq_mul hs hlinked hfree]
    rfl
  · rw [List.getElem?_eq_none (by simpa using Nat.succ_le_of_lt hgt)] at hi
    cases hi

end Passage

/-! ## Scores -/

namespace Linking

theorem isScaled_of_logs {settings : Settings} {log : List LogEntry} {l : Linking Rat}
    (h : Logs settings {} log l) (hclean : l.diagnostics = [])
    (hkeys : ∀ w ∈ log.filterMap LogEntry.placed?, (w.tupletKeys settings).Nodup) :
    l.IsScaled ∧ l.IsLinked := by
  induction h with
  | nil => exact ⟨⟨⟨.nil, nofun⟩, fun i timing hi => by simp at hi⟩, isLinked_empty⟩
  | rejected h r ih => simp [reject, report] at hclean
  | @placed log s h w reading hread inChord ih =>
      rw [List.filterMap_append, List.forall_mem_append] at hkeys
      have hfront := (s.reportsRelations_placeNote settings reading w.position
        inChord).nothing_reported hclean
      obtain ⟨hscaled, hlinked⟩ := ih (List.append_eq_nil_iff.mp hfront).1 hkeys.1
      have hwritten := NoteReading.isWritten_of_read hread
      exact ⟨Passage.isScaled_placeNote hscaled hlinked hread (hkeys.2 w (by simp [LogEntry.placed?]))
        hclean, Passage.isLinked_placeNote settings hlinked hwritten w.position inChord⟩

/-- If nothing is reported at the end then no tuplet has been open. -/
theorem openStarts_eq_nil_of_finish {τ : Type} {l : Linking τ} (hclean : l.finish.diagnostics = []) :
    l.diagnostics = [] ∧ l.tuplets.openStarts = [] := by
  obtain ⟨hfront, hrest⟩ := List.append_eq_nil_iff.mp hclean
  simp only [List.append_eq_nil_iff, Registry.close, Registry.finish, List.map_eq_nil_iff] at hrest
  obtain ⟨⟨⟨-, hpending⟩, -⟩, -⟩ := hrest
  exact ⟨hfront, by rw [Registry.openStarts, hpending]; rfl⟩

end Linking

theorem duration_of_analyseScore {settings : Settings} {element : Node}
    (hclean : (analyseScore settings element.children : ScoreAnalysis Rat).diagnostics = [])
    (hkeys : ∀ w ∈ element.writtenNotes, (w.tupletKeys settings).Nodup) {i : Nat}
    {note : NoteRest Rat}
    (hnote : (analyseScore settings element.children).score.notes[i]? = some note) :
    note.duration = note.written.units *
      (analyseScore settings element.children : ScoreAnalysis Rat).score.tupletRatio i := by
  obtain ⟨log, hlog, hcovers⟩ := ScoreState.reads_children (τ := Rat) settings element.children
  obtain ⟨hfront, hstarts⟩ := Linking.openStarts_eq_nil_of_finish hclean
  obtain ⟨hscaled, -⟩ := Linking.isScaled_of_logs hlog hfront
    fun w hw => hkeys w (hcovers.placed.subset hw)
  have hduration := hscaled.durations i note.timing (by
    rw [List.getElem?_map]
    exact congrArg (Option.map NoteRest.timing) hnote)
  rw [Linking.tupletRatio, Registry.openRatio, hstarts, List.filterMap_nil, List.prod_nil,
    mul_one] at hduration
  exact hduration

/-- In a score without problems a note sounds as long as it is written, dots included, times the
product of the ratios of all tuplets from whose first to whose last note it is. No note may have two
markers for tuplets with the same key. -/
theorem duration_of_compile {settings : Settings} {source : String} {analysis : Analysis Rat}
    (h : compile settings source = .ok analysis) :
    ∃ tree, parse source = .ok tree ∧
      List.Forall₂ (fun (score : Score Rat) element =>
        (analyseScore settings element.children : ScoreAnalysis Rat).diagnostics = [] →
        (∀ w ∈ element.writtenNotes, (w.tupletKeys settings).Nodup) →
        ∀ (i : Nat) (note : NoteRest Rat), score.notes[i]? = some note →
          note.duration = note.written.units * score.tupletRatio i)
        analysis.document.scores tree.scoreElements := by
  obtain ⟨tree, htree, hanalyse⟩ := analyse_of_compile h
  refine ⟨tree, htree, forall₂_scores_of_analyse hanalyse fun titled _ => ?_⟩
  exact fun hclean hkeys i note hnote => duration_of_analyseScore hclean hkeys hnote

/-- A tuplet inside another one, with an end on the second note of a chord. -/
theorem duration_of_compile_nestedTuplets :
    let source := "(score (instrument (musicData (n c4 q (t 1 + 3 2)) (n d4 q. (t 2 + 5 4)) " ++
      "(chord (n e4 q) (n g4 q (t 2 -))) (n f4 q (t 1 -)) (r h))))"
    ∃ analysis : Analysis Rat, compile {} source = .ok analysis ∧
      (analysis.document.scores.map fun score =>
        (score.notes.map NoteRest.duration, (List.range 6).map score.tupletRatio)) =
          [([128 / 3, 256 / 5, 512 / 15, 512 / 15, 128 / 3, 128],
            [2 / 3, 8 / 15, 8 / 15, 8 / 15, 2 / 3, 1])] ∧
      ∃ tree, parse source = .ok tree ∧
        List.Forall₂ (fun (score : Score Rat) _ =>
          ∀ (i : Nat) (note : NoteRest Rat), score.notes[i]? = some note →
            note.duration = note.written.units * score.tupletRatio i)
          analysis.document.scores tree.scoreElements := by
  intro source
  have hsource : source = String.ofList _ := String.ofList_append.symm
  have ⟨analysis, h, hdurations⟩ : ∃ analysis : Analysis Rat, compile {} source = .ok analysis ∧
      (analysis.document.scores.map fun score =>
        (score.notes.map NoteRest.duration, (List.range 6).map score.tupletRatio)) =
          [([128 / 3, 256 / 5, 512 / 15, 512 / 15, 128 / 3, 128],
            [2 / 3, 8 / 15, 8 / 15, 8 / 15, 2 / 3, 1])] :=
    exists_compile_of_characters hsource (by decide +kernel)
  have helements : ((parse source).toOption.all fun tree => tree.scoreElements.all fun element =>
      (analyseScore {} element.children : ScoreAnalysis Rat).diagnostics = [] ∧
        ∀ w ∈ element.writtenNotes, (w.tupletKeys {}).Nodup) = true := by
    rw [hsource, parse_ofList]
    decide +kernel
  obtain ⟨tree, htree, hscores⟩ := duration_of_compile h
  rw [htree] at helements
  refine ⟨analysis, h, hdurations, tree, htree, List.forall₂_iff_zip.mpr ⟨hscores.length_eq, ?_⟩⟩
  intro score element hpair
  have helement := List.all_eq_true.mp helements element (List.of_mem_zip hpair).2
  obtain ⟨hclean, hkeys⟩ := of_decide_eq_true helement
  exact List.forall₂_zip hscores hpair hclean hkeys

end ScorePlayback
