import ScorePlayback.Proofs.Analysis.Subtrees
import ScorePlayback.Proofs.Notation.Grammar

/-! # Atoms without breaks

A blank ends an atom, and so do parentheses and quotes. The labels and numbers of a tree have none
of them; only strings have. -/

namespace ScorePlayback

/-! ## Scanning -/

/-- The lexeme is no atom with a blank, a parenthesis or a quote. -/
def Lexeme.IsSolid : Lexeme → Prop
  | .atom text => ∀ c ∈ text.toList, isAtomChar c = true
  | _ => True

namespace ScanMode

/-- So far, the atom that is being read has no blank, parenthesis or quote. -/
def IsSolid : ScanMode → Prop
  | .atom _ text => ∀ c ∈ text, isAtomChar c = true
  | _ => True

theorem isSolid_atomToken (start : Position) {text : List Char}
    (h : ∀ c ∈ text, isAtomChar c = true) : (atomToken start text).lexeme.IsSolid := by
  intro c hc
  rw [String.toList_ofList, List.mem_reverse] at hc
  exact h c hc

theorem isSolid_startToken (p : Position) (c : Char) :
    (startToken p c).1.IsSolid ∧ ∀ token ∈ (startToken p c).2, token.lexeme.IsSolid := by
  unfold startToken
  repeat' split
  case isFalse.isFalse.isFalse.isFalse.isFalse hopen hclose hquote _ hblank =>
    refine ⟨List.forall_mem_singleton.mpr ?_, nofun⟩
    simp [isAtomChar, hopen, hclose, hquote, hblank]
  all_goals simp [IsSolid, Lexeme.IsSolid]

theorem isSolid_extendAtom (start : Position) {text : List Char}
    (h : ∀ c ∈ text, isAtomChar c = true) (p : Position) (c : Char) :
    (extendAtom start text p c).1.IsSolid ∧
      ∀ token ∈ (extendAtom start text p c).2, token.lexeme.IsSolid := by
  unfold extendAtom
  split
  · next hc => exact ⟨List.forall_mem_cons.mpr ⟨hc, h⟩, nofun⟩
  · obtain ⟨hmode, htokens⟩ := isSolid_startToken p c
    exact ⟨hmode, List.forall_mem_cons.mpr ⟨isSolid_atomToken start h, htokens⟩⟩

theorem isSolid_slash : ∀ c ∈ ['/'], isAtomChar c = true :=
  List.forall_mem_singleton.mpr (by decide)

theorem isSolid_step (p : Position) (c : Char) {m : ScanMode} (h : m.IsSolid) :
    (m.step p c).1.IsSolid ∧ ∀ token ∈ (m.step p c).2, token.lexeme.IsSolid := by
  cases m with
  | between => exact isSolid_startToken p c
  | atom start text => exact isSolid_extendAtom start h p c
  | slash start =>
      rw [step]
      split
      · exact ⟨trivial, nofun⟩
      · exact isSolid_extendAtom start isSolid_slash p c
  | comment =>
      rw [step]
      split <;> exact ⟨trivial, nofun⟩
  | quoted start text =>
      rw [step]
      split
      · exact ⟨trivial, List.forall_mem_singleton.mpr trivial⟩
      · split <;> exact ⟨trivial, nofun⟩
  | escaped start text => exact ⟨trivial, nofun⟩

theorem isSolid_finish {m : ScanMode} (h : m.IsSolid) {tokens : List Token}
    (hfinish : m.finish = .ok tokens) : ∀ token ∈ tokens, token.lexeme.IsSolid := by
  cases m with
  | quoted start text => cases hfinish
  | between | comment =>
      obtain rfl := Except.ok.inj hfinish
      exact nofun
  | slash start =>
      obtain rfl := Except.ok.inj hfinish
      exact List.forall_mem_singleton.mpr (isSolid_atomToken start isSolid_slash)
  | atom start text =>
      obtain rfl := Except.ok.inj hfinish
      exact List.forall_mem_singleton.mpr (isSolid_atomToken start h)
  | escaped start text =>
      obtain rfl := Except.ok.inj hfinish
      exact List.forall_mem_singleton.mpr trivial

end ScanMode

namespace Scanner

structure IsSolid (s : Scanner) : Prop where
  mode : s.mode.IsSolid
  tokens : ∀ token ∈ s.tokens, token.lexeme.IsSolid

theorem IsSolid.step {s : Scanner} (h : s.IsSolid) (c : Char) : (s.step c).IsSolid := by
  obtain ⟨hmode, htokens⟩ := ScanMode.isSolid_step s.position c h.mode
  refine ⟨hmode, List.forall_mem_append.mpr ⟨fun token htoken => ?_, h.tokens⟩⟩
  exact htokens token (List.mem_reverse.mp htoken)

end Scanner

theorem isSolid_of_scan {source : String} {tokens : List Token} (h : scan source = .ok tokens) :
    ∀ token ∈ tokens, token.lexeme.IsSolid := by
  have hread : (source.toList.foldl Scanner.step Scanner.initial).IsSolid :=
    List.foldlRecOn (motive := Scanner.IsSolid) source.toList _ ⟨trivial, nofun⟩
      fun _ hs c _ => hs.step c
  unfold scan Scanner.finish at h
  generalize source.toList.foldl Scanner.step Scanner.initial = s at h hread
  cases hlast : s.mode.finish with
  | error e => simp [hlast, Except.map] at h
  | ok last =>
      obtain rfl : s.tokens.reverse ++ last = tokens := by simpa [hlast, Except.map] using h
      refine List.forall_mem_append.mpr ⟨fun token htoken => ?_, ?_⟩
      · exact hread.tokens token (List.mem_reverse.mp htoken)
      · exact ScanMode.isSolid_finish hread.mode hlast

/-! ## Trees -/

theorem Node.IsWithin.flatten_subset {n tree : Node} (h : n.IsWithin tree) :
    n.flatten ⊆ tree.flatten := by
  induction h with
  | here => exact List.Subset.refl _
  | @child name children position child hmem _ ih =>
      intro kept hkept
      have hall : kept ∈ flattenAll children := by
        rw [flattenAll_eq]
        exact List.mem_flatMap.mpr ⟨child, hmem, ih hkept⟩
      simp [flatten, hall]

/-- A label or a number has only characters of atoms. -/
theorem isAtomChar_of_parse {source : String} {tree : Node} (h : parse source = .ok tree)
    {kind : AtomKind} {text : String} {position : Position}
    (hatom : (Node.atom kind text position).IsWithin tree) (hkind : kind ≠ .string) :
    ∀ c ∈ text.toList, isAtomChar c = true := by
  unfold parse at h
  cases hscan : scan source with
  | error e => simp [hscan, Except.bind] at h
  | ok tokens =>
      have hparse : parseTokens tokens = .ok tree := by simpa [hscan, Except.bind] using h
      obtain ⟨-, hkept⟩ := isKeptAs_of_parseTokens hparse
      have hleaf : KeptToken.leaf kind text position = ⟨.atom text, some position⟩ := by
        cases kind with
        | string => exact absurd rfl hkind
        | label | number => rfl
      have hmem : KeptToken.leaf kind text position ∈ tree.flatten :=
        hatom.flatten_subset (List.mem_singleton_self _)
      have hlexeme : Lexeme.atom text ∈ tokens.map Token.lexeme := by
        rw [map_lexeme_of_isKeptAs hkept]
        exact List.mem_map.mpr ⟨_, hmem, by rw [hleaf]⟩
      obtain ⟨token, htoken, htext⟩ := List.mem_map.mp hlexeme
      have hsolid := isSolid_of_scan hscan token htoken
      rwa [htext] at hsolid

end ScorePlayback
