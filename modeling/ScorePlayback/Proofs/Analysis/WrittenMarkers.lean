import ScorePlayback.Proofs.Analysis.JoinedNotes
import ScorePlayback.Proofs.Analysis.WrittenNotes

/-! # Markers as they are written

Which relation a marker is for can be seen in its text: the kind, the key and the role. Keys that
differ by a multiple of `2 ^ 32` are the same to the registries. -/

namespace ScorePlayback

/-- The integer in front of what a marker says; 0 without one, or if it is negative. -/
def Node.writtenKey (marker : Node) : Nat :=
  match marker.atoms.head?.bind integer? with
  | some (.ofNat key) => key
  | _ => 0

namespace Marker

/-- What decides which relation a marker is for. -/
def address (m : Marker) : RelationKind × Nat × Role := (m.kind, m.key, m.role)

theorem fst_splitKey (marker : Node) : (splitKey marker).1 = marker.writtenKey % 2 ^ 32 := by
  unfold splitKey Node.writtenKey
  cases marker.atoms with
  | nil => rfl
  | cons first rest =>
      simp only [List.head?_cons, Option.bind_some]
      cases first.integer? with
      | none => rfl
      | some value => cases value <;> rfl

variable {item : Node} {m : Marker}

theorem key_of_readTie (h : readTie item = .ok m) : m.key = (splitKey item).1 := by
  unfold readTie at h
  split at h
  · next hsplit =>
    rw [hsplit]
    split at h
    · exact Except.ok.inj h ▸ rfl
    · exact Except.ok.inj h ▸ rfl
    · exact Except.ok.inj h ▸ rfl
    · cases h
  · cases h

theorem key_of_readSlur (h : readSlur item = .ok m) : m.key = (splitKey item).1 := by
  unfold readSlur at h
  split at h
  · next hsplit =>
    rw [hsplit]
    split at h
    · exact Except.ok.inj h ▸ rfl
    · exact Except.ok.inj h ▸ rfl
    · exact Except.ok.inj h ▸ rfl
    · exact Except.ok.inj h ▸ rfl
    · cases h
  · cases h

theorem key_of_readBeam (h : readBeam item = .ok m) : m.key = (splitKey item).1 := by
  unfold readBeam at h
  split at h
  · cases h
  · next key role segments hsplit =>
    rw [hsplit]
    cases hrole : readBeamRole role.text with
    | error fault =>
        rw [hrole] at h
        cases h
    | ok role =>
        cases hsegments : segments.mapM readSegment with
        | error fault =>
            rw [hrole, hsegments] at h
            cases h
        | ok segments =>
            rw [hrole, hsegments] at h
            exact Except.ok.inj h ▸ rfl

/-- The sign of a tuplet says whether it starts or ends there. -/
def tupletRole (item : Node) : Role :=
  if (splitKey item).2.head?.map Node.text = some "-" then .ends else .starts

theorem address_of_readTuplet {display : TupletDisplay} (h : readTuplet display item = .ok m) :
    m.address = (.tuplet, (splitKey item).1, tupletRole item) := by
  unfold readTuplet at h
  simp only [bind, Except.bind] at h
  unfold tupletRole
  split at h
  · cases h
  · next hsplit =>
    rw [hsplit]
    split at h
    · next hsign =>
      obtain rfl := Except.ok.inj h
      simp [address, kind, key, role, hsign]
    · next hsign =>
      split at h
      · split at h
        · cases h
        · obtain rfl := Except.ok.inj h
          simp [address, kind, key, role, hsign]
      · cases h
    · cases h

end Marker

namespace NoteOption

def marker? : NoteOption → Option Marker
  | .marker m => some m
  | _ => none

def address? (option : NoteOption) : Option (RelationKind × Nat × Role) :=
  option.marker?.map Marker.address

end NoteOption

/-- What an option of a note is for, if it is a marker that can be read. -/
def Node.address? (settings : Settings) (isNote : Bool) (item : Node) :
    Option (RelationKind × Nat × Role) :=
  match NoteOption.read settings isNote {} item with
  | .ok option => option.address?
  | .error _ => none

namespace NoteOption

variable {settings : Settings} {isNote : Bool} {display : TupletDisplay} {item : Node}

theorem read_tuplet (display : TupletDisplay) (children : List Node) (position : Position) :
    read settings isNote display (.element .tuplet children position) =
      (Marker.readTuplet display (.element .tuplet children position)).map .marker := rfl

/-- Tuplets around a note do not change what its markers are for. -/
theorem address?_of_read_ok {option : NoteOption}
    (h : read settings isNote display item = .ok option) :
    item.address? settings isNote = option.address? := by
  cases item with
  | atom kind text position =>
      have hread : read settings isNote {} (.atom kind text position) = .ok option := by
        cases kind <;> exact h
      rw [Node.address?, hread]
  | element name children position =>
      cases name with
      | tuplet =>
          rw [read_tuplet] at h
          rw [Node.address?, read_tuplet]
          cases hread : Marker.readTuplet display (.element .tuplet children position) with
          | error fault => rw [hread] at h; cases h
          | ok m =>
              rw [hread] at h
              obtain rfl : .marker m = option := Except.ok.inj h
              cases hplain : Marker.readTuplet {} (.element .tuplet children position) with
              | error fault =>
                  rw [Marker.readTuplet_error display hplain] at hread
                  cases hread
              | ok m' =>
                  refine congrArg some ?_
                  rw [Marker.address_of_readTuplet hread, Marker.address_of_readTuplet hplain]
      | _ =>
          rw [Node.address?]
          split
          · next hread => rw [Except.ok.inj (hread.symm.trans h)]
          · next hread => cases hread.symm.trans h

theorem address?_of_read_error {fault : GrammarFault}
    (h : read settings isNote display item = .error fault) :
    item.address? settings isNote = none := by
  rw [Node.address?, read_error {} h]

theorem ne_marker_of_readLabel {text : String} {m : Marker} :
    readLabel settings isNote text ≠ .ok (.marker m) := by
  unfold readLabel
  repeat' split
  all_goals exact nofun

theorem exists_of_map_marker {read : Except GrammarFault Marker} {m : Marker}
    (h : read.map NoteOption.marker = .ok (.marker m)) : read = .ok m := by
  cases read with
  | ok m' => exact congrArg _ (NoteOption.marker.inj (Except.ok.inj h))
  | error fault => cases h

theorem key_of_read {m : Marker} (h : read settings isNote display item = .ok (.marker m)) :
    m.key = item.writtenKey % 2 ^ 32 := by
  rw [← Marker.fst_splitKey]
  cases item with
  | atom kind text position =>
      cases kind with
      | label => exact absurd h ne_marker_of_readLabel
      | _ => cases h
  | element name children position =>
      cases name with
      | tie =>
          cases isNote with
          | true => exact Marker.key_of_readTie (exists_of_map_marker h)
          | false => cases h
      | slur => exact Marker.key_of_readSlur (exists_of_map_marker h)
      | beam => exact Marker.key_of_readBeam (exists_of_map_marker h)
      | tuplet =>
          exact congrArg (·.2.1) (Marker.address_of_readTuplet (exists_of_map_marker h))
      | _ => cases h

/-- A marker is for its written key, as far as 32 bits go. -/
theorem key_of_address? {address : RelationKind × Nat × Role}
    (h : item.address? settings isNote = some address) :
    address.2.1 = item.writtenKey % 2 ^ 32 := by
  unfold Node.address? at h
  split at h
  · next option hread =>
    cases option with
    | marker m =>
        obtain rfl := Option.some.inj h
        exact key_of_read hread
    | _ => cases h
  · cases h

end NoteOption

/-! ## The markers of a note -/

/-- What is to be known of a marker can be seen in the option it is read from, whatever tuplets are
around. -/
structure NoteOption.Reflects {α : Type} (settings : Settings) (isNote : Bool) (f : Marker → α)
    (g : Node → Option α) : Prop where
  ok : ∀ {display item option}, NoteOption.read settings isNote display item = .ok option →
    g item = option.marker?.map f
  error : ∀ {display item fault}, NoteOption.read settings isNote display item = .error fault →
    g item = none

theorem NoteOption.reflects_address (settings : Settings) (isNote : Bool) :
    Reflects settings isNote Marker.address (Node.address? settings isNote) :=
  ⟨address?_of_read_ok, address?_of_read_error⟩

theorem NoteOption.Reflects.label {α : Type} {settings : Settings} {isNote : Bool} {f : Marker → α}
    {g : Node → Option α} (hg : Reflects settings isNote f g) {item : Node} {text : String}
    (h : item.label? = some text) : g item = none := by
  cases item with
  | element name children position => cases h
  | atom kind text' position =>
      cases kind with
      | label =>
          cases hread : read settings isNote {} (.atom .label text' position) with
          | error fault => exact hg.error hread
          | ok option =>
              rw [hg.ok hread]
              cases option with
              | marker m => exact absurd hread ne_marker_of_readLabel
              | _ => rfl
      | _ => cases h

namespace NoteReading

variable {α : Type} {settings : Settings} {display : TupletDisplay} {isNote : Bool}
  {items : List Node} {reading : NoteReading} {f : Marker → α} {g : Node → Option α}

theorem markers_readOption (hg : NoteOption.Reflects settings isNote f g) (r : NoteReading)
    (item : Node) : (r.readOption settings isNote item).spec.markers.map f =
      r.spec.markers.map f ++ (g item).toList := by
  unfold readOption
  split
  · next option hread =>
    rw [hg.ok hread]
    cases option with
    | marker m => exact List.map_append
    | _ => exact (List.append_nil _).symm
  · next fault hread =>
    rw [hg.error hread]
    exact (List.append_nil _).symm

theorem markers_foldl_readOption (hg : NoteOption.Reflects settings isNote f g)
    (options : List Node) (r : NoteReading) :
    (options.foldl (readOption settings isNote) r).spec.markers.map f =
      r.spec.markers.map f ++ options.filterMap g := by
  induction options generalizing r with
  | nil => exact (List.append_nil _).symm
  | cons item options ih =>
      rw [List.foldl_cons, ih, markers_readOption hg, List.append_assoc]
      simp only [List.filterMap_eq_flatMap_toList, List.flatMap_cons]

/-- The markers of a note are those of its items that can be read. -/
theorem markers_of_read (hg : NoteOption.Reflects settings isNote f g)
    (h : read settings display isNote items = .ok reading) :
    reading.spec.markers.map f = items.filterMap g := by
  obtain ⟨front, options, pitch, duration, rfl, hfront, -, rfl⟩ := exists_options_of_read h
  have hnone : front.filterMap g = [] := by
    refine List.filterMap_eq_nil_iff.mpr fun node hnode => ?_
    obtain ⟨text, htext⟩ := hfront node hnode
    exact hg.label htext
  rw [markers_foldl_readOption hg, List.filterMap_append, hnone]
  rfl

theorem addresses_of_read (h : read settings display isNote items = .ok reading) :
    reading.spec.markers.map Marker.address =
      items.filterMap (Node.address? settings isNote) :=
  markers_of_read (NoteOption.reflects_address settings isNote) h

end NoteReading

end ScorePlayback
