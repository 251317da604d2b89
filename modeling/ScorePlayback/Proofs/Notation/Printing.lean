import Mathlib.Data.List.DropRight
import ScorePlayback.Notation.Scan

/-! # What is printed is scanned again

Lexemes are printed one behind the other, with blanks and comments around them. Two atoms are kept
apart, and behind an atom a blank comes first, as slashes would belong to the atom. The text is
scanned to the same lexemes, each where it has been printed. -/

namespace ScorePlayback

/-! ## Places behind a text -/

namespace Position

/-- The place behind a text: lines are counted by their breaks, columns by the characters behind the
last break. -/
def behind (text : List Char) : Position :=
  ⟨text.count '\n' + 1, (text.rtakeWhile (· ≠ '\n')).length + 1⟩

theorem behind_concat (text : List Char) (c : Char) :
    behind (text ++ [c]) = (behind text).after c := by
  by_cases h : c = '\n'
  · subst h
    simp [behind, after, List.rtakeWhile_concat_neg]
  · simp [behind, after, h, List.rtakeWhile_concat_pos]

/-- The scanner counts along. -/
theorem foldl_after_behind (front text : List Char) :
    text.foldl after (behind front) = behind (front ++ text) := by
  induction text generalizing front with
  | nil => simp
  | cons c text ih => rw [List.foldl_cons, ← behind_concat, ih, ← List.append_cons]

end Position

/-! ## Printing -/

/-- What the scanner passes over: a blank, or a comment with the end of its line. -/
inductive Filler where
  | blank (c : Char) (isBlank : isBlank c = true)
  | comment (text : List Char) (isLine : '\n' ∉ text)
deriving DecidableEq

namespace Filler

def isBlank : Filler → Bool
  | .blank _ _ => true
  | .comment _ _ => false

def print : Filler → List Char
  | .blank c _ => [c]
  | .comment text _ => '/' :: '/' :: (text ++ ['\n'])

end Filler

/-- A comment that the end of the text ends. -/
structure Remark where
  text : List Char
  isLine : '\n' ∉ text
deriving DecidableEq

def Remark.print (r : Remark) : List Char := '/' :: '/' :: r.text

namespace Lexeme

def isAtom : Lexeme → Bool
  | .atom _ => true
  | _ => false

/-- Quotes and escape marks are escaped inside a string. -/
def escape (c : Char) : List Char := if c = quoteMark ∨ c = escapeMark then [escapeMark, c] else [c]

def print : Lexeme → List Char
  | .leftParen => ['(']
  | .rightParen => [')']
  | .atom text => text.toList
  | .quoted text => quoteMark :: (text.toList.flatMap escape ++ [quoteMark])

/-- A text is an atom if it has nothing but characters of atoms and does not look like a comment.
All strings can be printed. -/
def IsPrintable : Lexeme → Prop
  | .atom text =>
    text.toList ≠ [] ∧ (∀ c ∈ text.toList, isAtomChar c = true) ∧ ¬ ['/', '/'] <+: text.toList
  | _ => True

/-- No other lexeme starts like an atom. -/
theorem exists_print_eq_cons (lexeme : Lexeme) (h : lexeme.isAtom = false) :
    ∃ c rest, lexeme.print = c :: rest ∧ isAtomChar c = false := by
  cases lexeme with
  | atom text => cases h
  | leftParen => exact ⟨'(', [], rfl, rfl⟩
  | rightParen => exact ⟨')', [], rfl, rfl⟩
  | quoted text => exact ⟨quoteMark, _, rfl, rfl⟩

theorem isPrintable_atom_iff (text : String) : IsPrintable (.atom text) ↔
    text.toList ≠ [] ∧ text.toList.all isAtomChar ∧ ¬ ['/', '/'] <+: text.toList := by
  rw [IsPrintable, List.all_eq_true]

instance : DecidablePred IsPrintable := fun lexeme =>
  match lexeme with
  | .atom text => decidable_of_iff' _ (isPrintable_atom_iff text)
  | .leftParen | .rightParen | .quoted _ => inferInstanceAs (Decidable True)

end Lexeme

/-- A lexeme and what stands between it and the next one. -/
structure Printed where
  lexeme : Lexeme
  gap : List Filler

def Printed.print (p : Printed) : List Char := p.lexeme.print ++ p.gap.flatMap Filler.print

/-- A choice of what stands around lexemes. -/
structure Printout where
  front : List Filler
  items : List Printed
  remark : Option Remark

/-- What keeps lexemes from running into what is behind them. -/
structure KeepsApart (items : List Printed) (remark : Option Remark) : Prop where
  printable : ∀ item ∈ items, item.lexeme.IsPrintable
  parted : items.IsChain fun a b => a.lexeme.isAtom → b.lexeme.isAtom → a.gap ≠ []
  blankFirst : ∀ item ∈ items, item.lexeme.isAtom → ∀ filler ∈ item.gap.head?, filler.isBlank
  unremarked : ∀ item ∈ items.getLast?, item.lexeme.isAtom → item.gap = [] → remark = none

namespace Printout

def text (p : Printout) : String :=
  String.ofList (p.front.flatMap Filler.print ++
    (p.items.flatMap Printed.print ++ p.remark.toList.flatMap Remark.print))

/-- The tokens of lexemes that are printed behind a text. -/
def tokensBehind (front : List Char) : List Printed → List Token
  | [] => []
  | item :: rest => ⟨item.lexeme, .behind front⟩ :: tokensBehind (front ++ item.print) rest

def tokens (p : Printout) : List Token := tokensBehind (p.front.flatMap Filler.print) p.items

end Printout

/-! ## Scanning what is between lexemes -/

namespace Scanner

/-- A scanner where a token can start, behind a text with some tokens. -/
def ready (front : List Char) (tokens : List Token) : Scanner :=
  ⟨.between, .behind front, tokens.reverse⟩

/-- Characters that leave the mode as it is. -/
theorem foldl_step_of_same {mode : ScanMode} {text : List Char}
    (h : ∀ c ∈ text, ∀ p, mode.step p c = (mode, [])) (p : Position) (tokens : List Token) :
    text.foldl step ⟨mode, p, tokens⟩ = ⟨mode, text.foldl Position.after p, tokens⟩ := by
  induction text generalizing p with
  | nil => rfl
  | cons c text ih =>
      obtain ⟨hc, htext⟩ := List.forall_mem_cons.mp h
      rw [List.foldl_cons, List.foldl_cons, ← ih htext]
      simp [step, hc]

theorem step_between_of_isBlank {c : Char} (h : isBlank c = true) (p : Position) :
    ScanMode.between.step p c = (.between, []) := by
  have hparen : c ≠ '(' ∧ c ≠ ')' ∧ c ≠ quoteMark ∧ c ≠ '/' := by
    refine ⟨?_, ?_, ?_, ?_⟩ <;> (rintro rfl; revert h; decide)
  simp [ScanMode.step, ScanMode.startToken, hparen, h]

/-- The inside of a comment. -/
theorem foldl_step_comment {text : List Char} (h : '\n' ∉ text) (p : Position)
    (tokens : List Token) : ('/' :: '/' :: text).foldl step ⟨.between, p, tokens⟩ =
      ⟨.comment, ('/' :: '/' :: text).foldl Position.after p, tokens⟩ := by
  have hslashes : ('/' :: '/' :: text).foldl step ⟨.between, p, tokens⟩ =
      text.foldl step ⟨.comment, (p.after '/').after '/', tokens⟩ := rfl
  have hinside : ∀ c ∈ text, ∀ p, ScanMode.comment.step p c = (.comment, []) := by
    intro c hc p
    have hline : c ≠ '\n' := fun heq => h (heq ▸ hc)
    simp [ScanMode.step, hline]
  rw [hslashes, foldl_step_of_same hinside]
  rfl

theorem foldl_step_filler (f : Filler) (front : List Char) (tokens : List Token) :
    f.print.foldl step (ready front tokens) = ready (front ++ f.print) tokens := by
  cases f with
  | blank c hc =>
      rw [ready, ready, ← Position.foldl_after_behind]
      exact foldl_step_of_same (by simpa [Filler.print] using step_between_of_isBlank hc) _ _
  | comment text hline =>
      have hbreak : Filler.print (.comment text hline) = '/' :: '/' :: text ++ ['\n'] := rfl
      rw [hbreak, List.foldl_append, ready, foldl_step_comment hline, ready,
        ← Position.foldl_after_behind, List.foldl_append]
      rfl

theorem foldl_step_gap (gap : List Filler) (front : List Char) (tokens : List Token) :
    (gap.flatMap Filler.print).foldl step (ready front tokens) =
      ready (front ++ gap.flatMap Filler.print) tokens := by
  induction gap generalizing front with
  | nil => simp
  | cons f gap ih =>
      rw [List.flatMap_cons, List.foldl_append, foldl_step_filler, ih, List.append_assoc]

/-- Nothing but a remark is left. -/
theorem finish_foldl_remark (remark : Option Remark) (front : List Char) (tokens : List Token) :
    ((remark.toList.flatMap Remark.print).foldl step (ready front tokens)).finish = .ok tokens := by
  cases remark with
  | none => simp [ready, finish, ScanMode.finish, Except.map]
  | some r =>
      have hcomment := foldl_step_comment r.isLine (.behind front) tokens.reverse
      simp only [Option.toList_some, List.flatMap_singleton, Remark.print, ready, hcomment]
      simp [finish, ScanMode.finish, Except.map]

/-! ## Scanning atoms -/

/-- The mode behind a first part of an atom, whose last character comes first. -/
def reading (start : Position) (read : List Char) : ScanMode :=
  if read = ['/'] then .slash start else .atom start read

theorem startToken_of_isAtomChar {c : Char} (h : isAtomChar c = true) (p : Position) :
    ScanMode.startToken p c = (reading p [c], []) := by
  simp only [isAtomChar, Bool.and_eq_true, Bool.not_eq_true', decide_eq_true_eq] at h
  obtain ⟨⟨⟨hblank, hleft⟩, hright⟩, hquote⟩ := h
  by_cases hslash : c = '/'
  · subst hslash
    rfl
  · simp [ScanMode.startToken, reading, hblank, hleft, hright, hquote, hslash]

theorem step_reading {start : Position} {read : List Char} {c : Char} (hread : read ≠ [])
    (hc : isAtomChar c = true) (hcomment : ¬ (read = ['/'] ∧ c = '/')) (p : Position) :
    (reading start read).step p c = (reading start (c :: read), []) := by
  by_cases hslash : read = ['/']
  · have hother : c ≠ '/' := fun heq => hcomment ⟨hslash, heq⟩
    simp [reading, hslash, ScanMode.step, hother, ScanMode.extendAtom, hc]
  · simp [reading, hslash, hread, ScanMode.step, ScanMode.extendAtom, hc]

theorem foldl_step_reading {start : Position} {read text : List Char} (hread : read ≠ [])
    (htext : ∀ c ∈ text, isAtomChar c = true) (hcomment : ¬ ['/', '/'] <+: read.reverse ++ text)
    (p : Position) (tokens : List Token) :
    text.foldl step ⟨reading start read, p, tokens⟩ =
      ⟨reading start (text.reverse ++ read), text.foldl Position.after p, tokens⟩ := by
  induction text generalizing read p with
  | nil => rfl
  | cons c text ih =>
      obtain ⟨hc, htext⟩ := List.forall_mem_cons.mp htext
      have hslashes : ¬ (read = ['/'] ∧ c = '/') := by
        rintro ⟨rfl, rfl⟩
        exact hcomment ⟨text, rfl⟩
      have hnext : ¬ ['/', '/'] <+: (c :: read).reverse ++ text := by simpa using hcomment
      have hstep : step ⟨reading start read, p, tokens⟩ c =
          ⟨reading start (c :: read), p.after c, tokens⟩ := by
        simp [step, step_reading hread hc hslashes]
      rw [List.foldl_cons, hstep, ih (List.cons_ne_nil c read) htext hnext]
      simp

/-- All of an atom. -/
theorem foldl_step_atom {text : String} (h : (Lexeme.atom text).IsPrintable) (front : List Char)
    (tokens : List Token) : text.toList.foldl step (ready front tokens) =
      ⟨reading (.behind front) text.toList.reverse, .behind (front ++ text.toList),
        tokens.reverse⟩ := by
  obtain ⟨hne, hchars, hcomment⟩ := h
  cases htext : text.toList with
  | nil => exact absurd htext hne
  | cons c rest =>
      rw [htext] at hchars hcomment
      obtain ⟨hc, hrest⟩ := List.forall_mem_cons.mp hchars
      have hstep : step (ready front tokens) c =
          ⟨reading (.behind front) [c], (Position.behind front).after c, tokens.reverse⟩ := by
        simp [step, ready, ScanMode.step, startToken_of_isAtomChar hc]
      rw [List.foldl_cons, hstep, foldl_step_reading (List.cons_ne_nil c []) hrest hcomment,
        ← Position.foldl_after_behind]
      simp

/-- Where an atom ends a token can start, as soon as the atom has been added. -/
theorem finish_foldl_reading (text : String) {rest : List Char}
    (hrest : ∀ c ∈ rest.head?, isAtomChar c = false) (start p : Position) (tokens : List Token) :
    (rest.foldl step ⟨reading start text.toList.reverse, p, tokens⟩).finish =
      (rest.foldl step ⟨.between, p, ⟨.atom text, start⟩ :: tokens⟩).finish := by
  have htoken : ScanMode.atomToken start text.toList.reverse = ⟨.atom text, start⟩ := by
    simp [ScanMode.atomToken]
  cases rest with
  | nil =>
      by_cases hslash : text.toList.reverse = ['/']
      · rw [hslash] at htoken
        simp [reading, hslash, finish, ScanMode.finish, Except.map, htoken]
      · simp [reading, hslash, finish, ScanMode.finish, Except.map, htoken]
  | cons c rest =>
      have hc : isAtomChar c = false := hrest c rfl
      have hstep : step ⟨reading start text.toList.reverse, p, tokens⟩ c =
          step ⟨.between, p, ⟨.atom text, start⟩ :: tokens⟩ c := by
        by_cases hslash : text.toList.reverse = ['/']
        · have hother : c ≠ '/' := by
            rintro rfl
            exact absurd hc (by decide)
          rw [hslash] at htoken
          simp [step, reading, hslash, ScanMode.step, hother, ScanMode.extendAtom, hc, htoken]
        · simp [step, reading, hslash, ScanMode.step, ScanMode.extendAtom, hc, htoken]
      rw [List.foldl_cons, List.foldl_cons, hstep]

/-! ## Scanning strings -/

theorem foldl_step_escape (start : Position) (read : List Char) (c : Char) (p : Position)
    (tokens : List Token) : (Lexeme.escape c).foldl step ⟨.quoted start read, p, tokens⟩ =
      ⟨.quoted start (c :: read), (Lexeme.escape c).foldl Position.after p, tokens⟩ := by
  by_cases h : c = quoteMark ∨ c = escapeMark
  · have hmark : escapeMark ≠ quoteMark := by decide
    simp [Lexeme.escape, h, step, ScanMode.step, hmark]
  · obtain ⟨hquote, hescape⟩ := not_or.mp h
    simp [Lexeme.escape, step, ScanMode.step, hquote, hescape]

theorem foldl_step_quoted (start : Position) (text read : List Char) (p : Position)
    (tokens : List Token) :
    (text.flatMap Lexeme.escape).foldl step ⟨.quoted start read, p, tokens⟩ =
      ⟨.quoted start (text.reverse ++ read), (text.flatMap Lexeme.escape).foldl Position.after p,
        tokens⟩ := by
  induction text generalizing read p with
  | nil => rfl
  | cons c text ih =>
      rw [List.flatMap_cons, List.foldl_append, foldl_step_escape, ih, List.foldl_append]
      simp

/-! ## Scanning lexemes -/

/-- Everything but an atom is complete with its last character. -/
theorem foldl_step_lexeme {lexeme : Lexeme} (h : lexeme.isAtom = false) (front : List Char)
    (tokens : List Token) : lexeme.print.foldl step (ready front tokens) =
      ready (front ++ lexeme.print) (tokens ++ [⟨lexeme, .behind front⟩]) := by
  rw [ready, ready, ← Position.foldl_after_behind, List.reverse_concat]
  cases lexeme with
  | atom text => cases h
  | leftParen | rightParen => rfl
  | quoted text =>
      have hopen : step ⟨.between, .behind front, tokens.reverse⟩ quoteMark =
          ⟨.quoted (.behind front) [], (Position.behind front).after quoteMark, tokens.reverse⟩ :=
        rfl
      rw [Lexeme.print, List.foldl_cons, List.foldl_append, hopen, foldl_step_quoted,
        List.foldl_cons, List.foldl_nil, List.foldl_cons, List.foldl_append]
      simp [step, ScanMode.step, ScanMode.quotedToken]

/-- A lexeme is complete where no atom goes on. -/
theorem finish_foldl_lexeme {lexeme : Lexeme} (h : lexeme.IsPrintable) {rest : List Char}
    (hrest : lexeme.isAtom → ∀ c ∈ rest.head?, isAtomChar c = false) (front : List Char)
    (tokens : List Token) : ((lexeme.print ++ rest).foldl step (ready front tokens)).finish =
      (rest.foldl step (ready (front ++ lexeme.print)
        (tokens ++ [⟨lexeme, .behind front⟩]))).finish := by
  rw [List.foldl_append]
  cases hatom : lexeme.isAtom with
  | false => rw [foldl_step_lexeme hatom]
  | true =>
      cases lexeme with
      | atom text =>
          have hbehind := finish_foldl_reading text (hrest rfl) (.behind front)
            (.behind (front ++ text.toList)) tokens.reverse
          rw [Lexeme.print, foldl_step_atom h, hbehind, ready, List.reverse_concat]
      | leftParen | rightParen | quoted text => cases hatom

end Scanner

/-! ## Scanning all that is printed -/

namespace KeepsApart

variable {item : Printed} {rest : List Printed} {remark : Option Remark}

theorem tail (h : KeepsApart (item :: rest) remark) : KeepsApart rest remark where
  printable := (List.forall_mem_cons.mp h.printable).2
  parted := h.parted.of_cons
  blankFirst := (List.forall_mem_cons.mp h.blankFirst).2
  unremarked last hlast := h.unremarked last (List.mem_getLast?_cons hlast)

/-- No atom goes on behind itself. -/
theorem not_isAtomChar (h : KeepsApart (item :: rest) remark) (hatom : item.lexeme.isAtom) :
    ∀ c ∈ (item.gap.flatMap Filler.print ++ (rest.flatMap Printed.print ++
      remark.toList.flatMap Remark.print)).head?, isAtomChar c = false := by
  cases hgap : item.gap with
  | nil =>
      cases rest with
      | nil =>
          rw [h.unremarked item rfl hatom hgap]
          exact nofun
      | cons next rest =>
          have hnext : next.lexeme.isAtom = false := by
            by_contra hnext
            exact (List.isChain_cons_cons.mp h.parted).1 hatom (eq_true_of_ne_false hnext) hgap
          obtain ⟨c, behind, hprint, hc⟩ := next.lexeme.exists_print_eq_cons hnext
          intro c' hc'
          obtain rfl : c = c' := by simpa [Printed.print, hprint] using hc'
          exact hc
  | cons filler gap =>
      have hblank : filler.isBlank :=
        h.blankFirst item List.mem_cons_self hatom filler (by simp [hgap])
      cases filler with
      | comment text hline => cases hblank
      | blank c hc =>
          intro c' hc'
          obtain rfl : c = c' := by simpa [Filler.print] using hc'
          simp [isAtomChar, hc]

end KeepsApart

/-- What is printed behind a text is scanned behind it. -/
theorem Scanner.finish_foldl_items {items : List Printed} {remark : Option Remark}
    (h : KeepsApart items remark) (front : List Char) (tokens : List Token) :
    ((items.flatMap Printed.print ++ remark.toList.flatMap Remark.print).foldl step
      (ready front tokens)).finish = .ok (tokens ++ Printout.tokensBehind front items) := by
  induction items generalizing front tokens with
  | nil => simpa [Printout.tokensBehind] using finish_foldl_remark remark front tokens
  | cons item rest ih =>
      have hprintable : item.lexeme.IsPrintable := h.printable item List.mem_cons_self
      rw [List.flatMap_cons, Printed.print, List.append_assoc, List.append_assoc,
        finish_foldl_lexeme hprintable h.not_isAtomChar, List.foldl_append, foldl_step_gap,
        ih h.tail, Printout.tokensBehind, Printed.print]
      simp

/-- A printout that keeps its lexemes apart is scanned to them. -/
theorem scan_text {p : Printout} (h : KeepsApart p.items p.remark) :
    scan p.text = .ok p.tokens := by
  have hfront := Scanner.foldl_step_gap p.front [] []
  have hitems := Scanner.finish_foldl_items h (p.front.flatMap Filler.print) []
  rw [List.nil_append] at hfront hitems
  rw [scan, Printout.text, String.toList_ofList, List.foldl_append]
  show (List.foldl _ ((p.front.flatMap Filler.print).foldl _ (Scanner.ready [] [])) _).finish = _
  rw [hfront, hitems, Printout.tokens]

/-- A note with slashes in its atoms and with marks, a line break and slashes in its string. -/
def slashedNote : Printout where
  front := [.comment [' ', '('] (by decide), .blank '\t' (by decide)]
  items :=
    [⟨.leftParen, []⟩,
     ⟨.atom "n", [.blank ' ' (by decide), .comment ['\x22'] (by decide)]⟩,
     ⟨.atom "a//b", [.blank '\n' (by decide)]⟩,
     ⟨.quoted "\x22\x5c\n//", []⟩,
     ⟨.atom "/", []⟩,
     ⟨.rightParen, [.comment [] (by decide)]⟩,
     ⟨.atom "c4", [.blank ' ' (by decide)]⟩]
  remark := some ⟨[')'], by decide⟩

theorem scan_slashedNote :
    KeepsApart slashedNote.items slashedNote.remark ∧
      scan "// (\n\t(n //\x22\na//b\n\x22\x5c\x22\x5c\x5c\n//\x22/)//\nc4 //)" = .ok
        [⟨.leftParen, ⟨2, 2⟩⟩, ⟨.atom "n", ⟨2, 3⟩⟩, ⟨.atom "a//b", ⟨3, 1⟩⟩,
         ⟨.quoted "\x22\x5c\n//", ⟨4, 1⟩⟩, ⟨.atom "/", ⟨5, 4⟩⟩, ⟨.rightParen, ⟨5, 5⟩⟩,
         ⟨.atom "c4", ⟨6, 1⟩⟩] := by
  have hapart : KeepsApart slashedNote.items slashedNote.remark :=
    ⟨by decide +kernel, by decide +kernel, by decide +kernel, by decide +kernel⟩
  have htext : slashedNote.text =
      "// (\n\t(n //\x22\na//b\n\x22\x5c\x22\x5c\x5c\n//\x22/)//\nc4 //)" := by decide +kernel
  have htokens : slashedNote.tokens =
      [⟨.leftParen, ⟨2, 2⟩⟩, ⟨.atom "n", ⟨2, 3⟩⟩, ⟨.atom "a//b", ⟨3, 1⟩⟩,
       ⟨.quoted "\x22\x5c\n//", ⟨4, 1⟩⟩, ⟨.atom "/", ⟨5, 4⟩⟩, ⟨.rightParen, ⟨5, 5⟩⟩,
       ⟨.atom "c4", ⟨6, 1⟩⟩] := by decide +kernel
  exact ⟨hapart, htext ▸ htokens ▸ scan_text hapart⟩

end ScorePlayback
