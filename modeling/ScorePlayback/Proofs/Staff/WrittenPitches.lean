import Mathlib
import ScorePlayback.Proofs.Numeral
import ScorePlayback.Staff.Pitch

/-! # Pitches as they are written

A written pitch is the sign of an accidental, the letter of a step and the digit of an octave. The
octave is read like any other number, so zeros and a sign may stand in front of its digit. -/

namespace ScorePlayback

/-! ## Letters of steps -/

theorem eq_or_eq_toUpper {c d : Char} (h : c.toLower = d) : c = d ∨ c = d.toUpper := by
  by_cases hupper : c.isUpper
  · right
    rw [← h, Char.toUpper_toLower_eq_toUpper,
      Char.toUpper_eq_of_not_isLower (Char.not_isLower_of_isUpper hupper)]
  · left
    rw [← h, Char.toLower_eq_of_not_isUpper hupper]

theorem Step.ofLetter?_eq_some_iff {letter : Char} {s : Step} :
    ofLetter? letter = some s ↔ letter = s.letter ∨ letter = s.letter.toUpper := by
  constructor
  · intro h
    apply eq_or_eq_toUpper
    unfold ofLetter? at h
    split at h <;> cases h <;> assumption
  · rintro (rfl | rfl)
    · exact ofLetter?_letter s
    · cases s <;> rfl

namespace Pitch

/-! ## Accidentals -/

/-- The signs that may stand in front of a step, and the accidentals that they write. -/
def accidentals : List (List Char × Option Int) :=
  [([], none), (['+'], some 1), (['#'], some 1), (['-'], some (-1)), (['+', '+'], some 2),
    (['x'], some 2), (['#', '#'], some 2), (['-', '-'], some (-2)), (['='], some 0)]

theorem readAccidental?_eq_some_iff {sign : List Char} {accidental : Option Int} :
    readAccidental? sign = some accidental ↔ (sign, accidental) ∈ accidentals := by
  constructor
  · intro h
    unfold readAccidental? at h
    split_ifs at h <;> cases h <;> simp_all [accidentals, or_assoc]
  · simp only [accidentals, List.mem_cons, Prod.mk.injEq, List.not_mem_nil, or_false]
    rintro (⟨rfl, rfl⟩ | ⟨rfl, rfl⟩ | ⟨rfl, rfl⟩ | ⟨rfl, rfl⟩ | ⟨rfl, rfl⟩ | ⟨rfl, rfl⟩ |
      ⟨rfl, rfl⟩ | ⟨rfl, rfl⟩ | ⟨rfl, rfl⟩) <;> rfl

theorem isSign_of_mem_accidentals {sign : List Char} {accidental : Option Int}
    (h : (sign, accidental) ∈ accidentals) : ∀ c ∈ sign, isSign c := by
  have hall : accidentals.all (fun entry => entry.1.all isSign) = true := rfl
  exact List.all_eq_true.mp (List.all_eq_true.mp hall _ h)

theorem isSign_letter {s : Step} {letter : Char}
    (h : letter = s.letter ∨ letter = s.letter.toUpper) : isSign letter = false := by
  rcases h with rfl | rfl <;> cases s <;> rfl

/-! ## Octaves -/

/-- An octave is one digit, behind whatever a number may have in front. -/
theorem within?_eq_some_iff {text : List Char} {octave : Int} :
    Numeral.within? 0 9 text = some octave ↔ ∃ padding, Numeral.IsPadding octave padding ∧
      ∃ n : Nat, n ≤ 9 ∧ octave = n ∧ text = padding ++ [Nat.digitChar n] := by
  rw [Numeral.within?, Option.filter_eq_some_iff, Numeral.integer?_eq_some_iff]
  constructor
  · rintro ⟨⟨padding, hpadding, rfl⟩, hrange⟩
    obtain ⟨hlow, hhigh⟩ : 0 ≤ octave ∧ octave ≤ 9 := by simpa using hrange
    obtain ⟨n, rfl⟩ := Int.eq_ofNat_of_zero_le hlow
    have hn : n ≤ 9 := by omega
    refine ⟨padding, hpadding, n, hn, rfl, ?_⟩
    rw [Int.natAbs_natCast, Nat.toDigits_of_lt_base (by omega)]
  · rintro ⟨padding, hpadding, n, hn, rfl, rfl⟩
    refine ⟨⟨padding, hpadding, ?_⟩, by simpa using hn⟩
    rw [Int.natAbs_natCast, Nat.toDigits_of_lt_base (by omega)]

/-! ## Pitches -/

/-- A text writes a pitch: the sign of its accidental, the letter of its step in either case, and
the digit of its octave with `padding` in front. -/
inductive IsWritten (padding : List Char) : List Char → Pitch → Prop where
  | intro (step : Step) {sign : List Char} {accidental : Option Int} {letter : Char} {octave : Nat}
      (hsign : (sign, accidental) ∈ accidentals)
      (hletter : letter = step.letter ∨ letter = step.letter.toUpper) (hoctave : octave ≤ 9) :
      IsWritten padding (sign ++ letter :: (padding ++ [Nat.digitChar octave]))
        ⟨step, octave, accidental, accidental.getD 0⟩

/-- The step is the first character that is no sign. -/
theorem read?_append {sign : List Char} (hsign : ∀ c ∈ sign, isSign c) {letter : Char}
    (hletter : isSign letter = false) (octave : List Char) :
    read? (sign ++ letter :: octave) =
      (do
        let accidental ← readAccidental? sign
        let step ← Step.ofLetter? letter
        let octave ← Numeral.within? 0 9 octave
        some ⟨step, octave, accidental, accidental.getD 0⟩) := by
  have hstop : ¬isSign letter = true := by simp [hletter]
  rw [read?, List.takeWhile_append_of_pos hsign, List.dropWhile_append_of_pos hsign,
    List.takeWhile_cons_of_neg hstop, List.dropWhile_cons_of_neg hstop, List.append_nil]

theorem exists_isWritten_of_read? {text : List Char} {p : Pitch} (h : read? text = some p) :
    ∃ padding, Numeral.IsPadding p.octave padding ∧ IsWritten padding text p := by
  unfold read? at h
  split at h
  · cases h
  · next letter behind hrest =>
    obtain ⟨accidental, hsign, h⟩ := Option.bind_eq_some_iff.mp h
    obtain ⟨step, hletter, h⟩ := Option.bind_eq_some_iff.mp h
    obtain ⟨octave, hoctave, h⟩ := Option.bind_eq_some_iff.mp h
    obtain rfl := Option.some.inj h
    obtain ⟨padding, hpadding, n, hn, rfl, rfl⟩ := within?_eq_some_iff.mp hoctave
    refine ⟨padding, hpadding, ?_⟩
    rw [← List.takeWhile_append_dropWhile (p := isSign) (l := text), hrest]
    exact .intro step (readAccidental?_eq_some_iff.mp hsign)
      (Step.ofLetter?_eq_some_iff.mp hletter) hn

theorem IsWritten.read?_eq {padding text : List Char} {p : Pitch} (h : IsWritten padding text p)
    (hpadding : Numeral.IsPadding p.octave padding) : read? text = some p := by
  obtain ⟨step, hsign, hletter, hoctave⟩ := h
  rw [read?_append (isSign_of_mem_accidentals hsign) (isSign_letter hletter),
    readAccidental?_eq_some_iff.mpr hsign, Step.ofLetter?_eq_some_iff.mpr hletter,
    within?_eq_some_iff.mpr ⟨padding, hpadding, _, hoctave, rfl, rfl⟩]
  rfl

/-- Reading accepts the texts that write a pitch, and gives this pitch. Behind the letter may stand
zeros and a sign, which belong to the octave and never to the accidental. -/
theorem read?_eq_some_iff_isWritten {text : List Char} {p : Pitch} :
    read? text = some p ↔
      ∃ padding, Numeral.IsPadding p.octave padding ∧ IsWritten padding text p :=
  ⟨exists_isWritten_of_read?, fun ⟨_, hpadding, h⟩ => h.read?_eq hpadding⟩

example : read? ['x', 'F', '0', '7'] = some ⟨.f, 7, some 2, 2⟩ := rfl

/-- The plus sign behind the step is read as the sign of the octave, though without padding no pitch
is written like this. -/
theorem not_isWritten_signedOctave :
    read? ['c', '+', '4'] = some ⟨.c, 4, none, 0⟩ ∧ ∀ p, ¬IsWritten [] ['c', '+', '4'] p := by
  refine ⟨rfl, fun p h => ?_⟩
  generalize htext : ['c', '+', '4'] = text at h
  cases h with
  | @intro step sign accidental letter octave hsign hletter hoctave =>
      cases sign with
      | nil => simp at htext
      | cons c rest =>
          obtain rfl : 'c' = c := (List.cons.inj htext).1
          exact absurd (isSign_of_mem_accidentals hsign 'c' (List.mem_cons_self ..)) (by decide)

end Pitch
end ScorePlayback
