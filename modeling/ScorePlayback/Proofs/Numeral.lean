import ScorePlayback.Notation.Node

/-! # Numbers as they are written

Numbers that are written out are read back. What is read as a number is written out behind zeros
and perhaps a sign. -/

namespace ScorePlayback

namespace Numeral

/-! ## Digits -/

theorem ofDigits_toDigits (n : Nat) : ofDigits (Nat.toDigits 10 n) = n :=
  Nat.ofDigitChars_eq_foldl.symm.trans Nat.ofDigitChars_ten_toDigits

theorem isDigit_iff {c : Char} : c.isDigit ↔ '0'.toNat ≤ c.toNat ∧ c.toNat ≤ '9'.toNat := by
  simp [Char.isDigit, UInt32.le_iff_toNat_le]

theorem digitValue_lt {c : Char} (h : c.isDigit) : digitValue c < 10 := by
  have hc := isDigit_iff.mp h
  have hzero : '0'.toNat = 48 := rfl
  have hnine : '9'.toNat = 57 := rfl
  rw [digitValue]
  omega

theorem digitChar_digitValue {c : Char} (h : c.isDigit) : Nat.digitChar (digitValue c) = c := by
  have hc := isDigit_iff.mp h
  have hzero : '0'.toNat = 48 := rfl
  apply Char.toNat_inj.mp
  rw [Nat.toNat_digitChar_of_lt_ten (digitValue_lt h), digitValue]
  omega

theorem toDigits_digitValue {c : Char} (h : c.isDigit) :
    Nat.toDigits 10 (digitValue c) = [c] := by
  rw [Nat.toDigits_of_lt_base (digitValue_lt h), digitChar_digitValue h]

/-! ## Zeros and signs in front -/

theorem ofDigits_zeros_append (zeros : Nat) (digits : List Char) :
    ofDigits (List.replicate zeros '0' ++ digits) = ofDigits digits := by
  induction zeros with
  | zero => rfl
  | succ zeros ih => exact ih

/-- Behind a number other than zero, each digit is one more digit of the number. -/
theorem toDigits_append {digits : List Char} (h : ∀ c ∈ digits, c.isDigit) {n : Nat} (hn : 0 < n) :
    Nat.toDigits 10 n ++ digits =
      Nat.toDigits 10 (digits.foldl (fun n c => 10 * n + digitValue c) n) := by
  induction digits generalizing n with
  | nil => simp
  | cons c rest ih =>
      obtain ⟨hc, hrest⟩ := List.forall_mem_cons.mp h
      calc Nat.toDigits 10 n ++ c :: rest
        _ = Nat.toDigits 10 n ++ Nat.toDigits 10 (digitValue c) ++ rest := by
            simp [toDigits_digitValue hc]
        _ = Nat.toDigits 10 (10 * n + digitValue c) ++ rest := by
            rw [Nat.toDigits_append_toDigits (by decide) hn (digitValue_lt hc)]
        _ = _ := ih hrest (by omega)

/-- Digits are those of their number, behind zeros. -/
theorem exists_eq_zeros_append {digits : List Char} (hne : digits ≠ [])
    (h : ∀ c ∈ digits, c.isDigit) :
    ∃ zeros, digits = List.replicate zeros '0' ++ Nat.toDigits 10 (ofDigits digits) := by
  induction digits with
  | nil => exact absurd rfl hne
  | cons c rest ih =>
      obtain ⟨hc, hrest⟩ := List.forall_mem_cons.mp h
      by_cases hzero : digitValue c = 0
      · obtain rfl : '0' = c := by rw [← digitChar_digitValue hc, hzero]; rfl
        cases rest with
        | nil => exact ⟨0, rfl⟩
        | cons d rest =>
            obtain ⟨zeros, hzeros⟩ := ih (List.cons_ne_nil d rest) hrest
            exact ⟨zeros + 1, congrArg ('0' :: ·) hzeros⟩
      · refine ⟨0, ?_⟩
        have happend := toDigits_append hrest (Nat.pos_of_ne_zero hzero)
        rw [toDigits_digitValue hc] at happend
        simpa [ofDigits] using happend

/-- Digits are read as the number whose digits they are behind zeros. -/
theorem natural?_eq_some_iff {text : List Char} {n : Nat} :
    natural? text = some n ↔ ∃ zeros, text = List.replicate zeros '0' ++ Nat.toDigits 10 n := by
  constructor
  · intro h
    obtain ⟨hdigits, rfl⟩ : (text ≠ [] ∧ ∀ c ∈ text, c.isDigit) ∧ ofDigits text = n := by
      simpa [natural?] using h
    exact exists_eq_zeros_append hdigits.1 hdigits.2
  · rintro ⟨zeros, rfl⟩
    have hdigits : ∀ c ∈ List.replicate zeros '0' ++ Nat.toDigits 10 n, c.isDigit := by
      intro c hc
      rcases List.mem_append.mp hc with hc | hc
      · rw [(List.mem_replicate.mp hc).2]
        rfl
      · exact Nat.isDigit_of_mem_toDigits (by decide) (Nat.le_refl 10) hc
    simp [natural?, Nat.toDigits_ne_nil, List.all_eq_true.mpr hdigits, ofDigits_zeros_append,
      ofDigits_toDigits]

/-- A digit is no sign. -/
theorem integer?_of_natural? {text : List Char} {n : Nat} (h : natural? text = some n) :
    integer? text = some (n : Int) := by
  have hdigit : ∀ c ∈ text, c.isDigit := by
    unfold natural? at h
    split at h
    · next hdigits => simpa using (Bool.and_eq_true_iff.mp hdigits).2
    · simp at h
  unfold integer?
  split
  · exact absurd (hdigit '+' (List.mem_cons_self ..)) (by decide)
  · exact absurd (hdigit '-' (List.mem_cons_self ..)) (by decide)
  · rw [h]
    rfl

/-- What may stand in front of the digits of a number: zeros, and in front of them a sign. -/
inductive IsPadding : Int → List Char → Prop where
  | zeros (n count : Nat) : IsPadding n (List.replicate count '0')
  | plus (n count : Nat) : IsPadding n ('+' :: List.replicate count '0')
  | minus (n count : Nat) : IsPadding (-n) ('-' :: List.replicate count '0')

theorem integer?_eq_some_iff {text : List Char} {value : Int} :
    integer? text = some value ↔
      ∃ padding, IsPadding value padding ∧ text = padding ++ Nat.toDigits 10 value.natAbs := by
  constructor
  · intro h
    unfold integer? at h
    split at h
    all_goals
      obtain ⟨n, hread, rfl⟩ := Option.map_eq_some_iff.mp h
      obtain ⟨zeros, rfl⟩ := natural?_eq_some_iff.mp hread
    · exact ⟨_, .plus n zeros, by simp⟩
    · exact ⟨_, .minus n zeros, by simp⟩
    · exact ⟨_, .zeros n zeros, by simp⟩
  · rintro ⟨padding, hpadding, rfl⟩
    have hread (n zeros : Nat) :
        natural? (List.replicate zeros '0' ++ Nat.toDigits 10 n) = some n :=
      natural?_eq_some_iff.mpr ⟨zeros, rfl⟩
    cases hpadding with
    | zeros n count => exact integer?_of_natural? (hread n count)
    | plus n count => simp [integer?, hread]
    | minus n count => simp [integer?, hread]

theorem natural?_toDigits (n : Nat) : natural? (Nat.toDigits 10 n) = some n :=
  natural?_eq_some_iff.mpr ⟨0, rfl⟩

theorem integer?_toDigits (n : Nat) : integer? (Nat.toDigits 10 n) = some (n : Int) :=
  integer?_of_natural? (natural?_toDigits n)

end Numeral

/-! ## Numbers of nodes -/

theorem Node.le_of_count? {low high value : Nat} {n : Node} (h : n.count? low high = some value) :
    low ≤ value := by
  obtain ⟨v, -, hv⟩ := Option.bind_eq_some_iff.mp h
  split at hv
  · next hle =>
    simp only [Bool.and_eq_true, decide_eq_true_eq] at hle
    have := Option.some.inj hv
    omega
  · simp at hv

/-- A number written without sign. -/
def Node.number (n : Nat) (position : Position) : Node := .atom .number (toString n) position

theorem Node.count?_number {low high n : Nat} (position : Position) (hlow : low ≤ n)
    (hhigh : n ≤ high) (hsize : (high : Int) ≤ Numeral.largest64) :
    Node.count? low high (Node.number n position) = some n := by
  have hread : Node.integer? (Node.number n position) = some (n : Int) := by
    have hleast : Numeral.least64 ≤ (n : Int) := by
      unfold Numeral.least64
      omega
    have hlargest : (n : Int) ≤ Numeral.largest64 := by omega
    simp [Node.integer?, Node.number, Numeral.within?, Numeral.integer?_toDigits,
      Option.filter, hleast, hlargest]
  simp [Node.count?, hread, hlow, hhigh]

end ScorePlayback
