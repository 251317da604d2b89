import ScorePlayback.Notation.Parse
import ScorePlayback.Proofs.Analysis.Subtrees

/-! # Where tokens and nodes stand

Every character has its own position, later ones have later positions. So no two tokens of a text
stand at one position, and no two nodes of its tree do. -/

namespace ScorePlayback

namespace Position

/-- An earlier line, or an earlier column of the same line. -/
def Before (p q : Position) : Prop := p.line < q.line ∨ p.line = q.line ∧ p.column < q.column

theorem Before.trans {p q r : Position} (h : p.Before q) (h' : q.Before r) : p.Before r := by
  unfold Before at *
  omega

theorem Before.ne {p q : Position} (h : p.Before q) : p ≠ q := by
  rintro rfl
  unfold Before at h
  omega

theorem before_after (p : Position) (c : Char) : p.Before (p.after c) := by
  unfold Position.after
  split
  · exact .inl (Nat.lt_succ_self _)
  · exact .inr ⟨rfl, Nat.lt_succ_self _⟩

end Position

/-! ## Tokens -/

namespace ScanMode

/-- Where the token begins that is not complete yet. -/
def places : ScanMode → List Position
  | .slash start | .atom start _ | .quoted start _ | .escaped start _ => [start]
  | .between | .comment => []

theorem places_startToken (p : Position) (c : Char) :
    ((startToken p c).2.map Token.position ++ (startToken p c).1.places).Sublist [p] := by
  unfold startToken
  repeat' split
  all_goals simp [places]

theorem places_extendAtom (start : Position) (text : List Char) (p : Position) (c : Char) :
    ((extendAtom start text p c).2.map Token.position ++
      (extendAtom start text p c).1.places).Sublist [start, p] := by
  unfold extendAtom
  split
  · simp [places]
  · exact (places_startToken p c).cons_cons start

/-- Tokens begin where they have begun so far, or with the next character. -/
theorem places_step (p : Position) (c : Char) (m : ScanMode) :
    ((m.step p c).2.map Token.position ++ (m.step p c).1.places).Sublist (m.places ++ [p]) := by
  cases m with
  | between => exact places_startToken p c
  | slash start =>
      by_cases h : c = '/'
      · simp [step, h, places]
      · rw [step, if_neg h]
        exact places_extendAtom start ['/'] p c
  | comment => by_cases h : c = '\n' <;> simp [step, h, places]
  | atom start text => exact places_extendAtom start text p c
  | quoted start text =>
      by_cases hquote : c = quoteMark
      · simp [step, hquote, places, quotedToken]
      · rw [step, if_neg hquote]
        by_cases hescape : c = escapeMark <;> simp [hescape, places]
  | escaped start text => simp [step, places]

theorem positions_finish {m : ScanMode} {tokens : List Token} (h : m.finish = .ok tokens) :
    (tokens.map Token.position).Sublist m.places := by
  cases m with
  | quoted start text => cases h
  | _ =>
      obtain rfl := Except.ok.inj h
      simp [places, atomToken, quotedToken]

end ScanMode

namespace Scanner

/-- Where all tokens so far begin. -/
def places (s : Scanner) : List Position := s.tokens.reverse.map Token.position ++ s.mode.places

theorem places_step (s : Scanner) (c : Char) :
    (s.step c).places.Sublist (s.places ++ [s.position]) := by
  have h := (s.mode.places_step s.position c).append_left (s.tokens.reverse.map Token.position)
  simpa [places, step] using h

/-- All tokens begin one after the other, and before the next character. -/
theorem pairwise_foldl_step (source : List Char) (s : Scanner)
    (h : (s.places ++ [s.position]).Pairwise Position.Before) :
    (source.foldl step s).places.Pairwise Position.Before := by
  induction source generalizing s with
  | nil => exact (List.pairwise_append.mp h).1
  | cons c source ih =>
      have hplaces : (s.step c).places.Pairwise Position.Before := h.sublist (s.places_step c)
      refine ih _ (List.pairwise_append.mpr ⟨hplaces, List.pairwise_singleton _ _, ?_⟩)
      intro p hp q hq
      obtain rfl := List.mem_singleton.mp hq
      have hnext : s.position.Before (s.step c).position := s.position.before_after c
      rcases List.mem_append.mp ((s.places_step c).subset hp) with hp | hp
      · have hbefore := (List.pairwise_append.mp h).2.2 p hp s.position (List.mem_singleton_self _)
        exact hbefore.trans hnext
      · obtain rfl := List.mem_singleton.mp hp
        exact hnext

end Scanner

/-- The tokens of a text stand one after the other. -/
theorem pairwise_of_scan {source : String} {tokens : List Token} (h : scan source = .ok tokens) :
    (tokens.map Token.position).Pairwise Position.Before := by
  have hplaces := Scanner.pairwise_foldl_step source.toList .initial (List.pairwise_singleton _ _)
  unfold scan Scanner.finish at h
  generalize source.toList.foldl Scanner.step Scanner.initial = s at h hplaces
  cases hlast : s.mode.finish with
  | error e => simp [hlast, Except.map] at h
  | ok last =>
      obtain rfl : s.tokens.reverse ++ last = tokens := by simpa [hlast, Except.map] using h
      rw [List.map_append]
      exact hplaces.sublist ((ScanMode.positions_finish hlast).append_left _)

/-! ## Nodes -/

mutual

/-- Where a node and all nodes inside it stand, in the order of the text. -/
def Node.positions : Node → List Position
  | .element _ children position => position :: Node.positionsOf children
  | .atom _ _ position => [position]

def Node.positionsOf : List Node → List Position
  | [] => []
  | node :: nodes => node.positions ++ Node.positionsOf nodes

end

namespace Node

theorem positionsOf_eq (nodes : List Node) : positionsOf nodes = nodes.flatMap positions := by
  induction nodes with
  | nil => rfl
  | cons node nodes ih => rw [positionsOf, ih, List.flatMap_cons]

theorem positionsOf_append (front behind : List Node) :
    positionsOf (front ++ behind) = positionsOf front ++ positionsOf behind := by
  rw [positionsOf_eq, positionsOf_eq, positionsOf_eq, List.flatMap_append]

theorem position_mem_positions (node : Node) : node.position ∈ node.positions := by
  cases node <;> simp [positions, position]

theorem IsWithin.position_mem {n tree : Node} (h : n.IsWithin tree) :
    n.position ∈ tree.positions := by
  induction h with
  | here => exact n.position_mem_positions
  | child hmem _ ih =>
      rw [positions, positionsOf_eq]
      exact List.mem_cons_of_mem _ (List.mem_flatMap.mpr ⟨_, hmem, ih⟩)

theorem positions_sublist_of_mem {node : Node} {nodes : List Node} (h : node ∈ nodes) :
    node.positions.Sublist (positionsOf nodes) := by
  induction nodes with
  | nil => cases h
  | cons first nodes ih =>
      rw [positionsOf]
      rcases List.mem_cons.mp h with rfl | h
      · exact List.sublist_append_left _ _
      · exact (ih h).trans (List.sublist_append_right _ _)

theorem IsWithin.positions_sublist {n tree : Node} (h : n.IsWithin tree) :
    n.positions.Sublist tree.positions := by
  induction h with
  | here => exact .refl _
  | child hmem _ ih => exact (ih.trans (positions_sublist_of_mem hmem)).cons _

/-- The nodes themselves are among all that stand there. -/
theorem map_position_sublist (nodes : List Node) :
    (nodes.map position).Sublist (positionsOf nodes) := by
  induction nodes with
  | nil => exact .slnil
  | cons node nodes ih =>
      rw [positionsOf]
      exact (List.singleton_sublist.mpr node.position_mem_positions).append ih

end Node

/-! ### Trees of tokens -/

namespace ParseState

/-- Where the open elements stand and what is inside them. -/
def positionsOfOpen (open' : List OpenElement) : List Position :=
  open'.reverse.flatMap fun e => e.position :: Node.positionsOf e.children.reverse

def positions : ParseState → List Position
  | .start => []
  | .naming position outer => positionsOfOpen outer ++ [position]
  | .inside innermost outer => positionsOfOpen (innermost :: outer)
  | .done root => root.positions

theorem positionsOfOpen_cons (innermost : OpenElement) (outer : List OpenElement) :
    positionsOfOpen (innermost :: outer) = positionsOfOpen outer ++
      innermost.position :: Node.positionsOf innermost.children.reverse := by
  simp [positionsOfOpen]

/-- A finished node stands behind all that is open. -/
theorem positions_place (node : Node) (outer : List OpenElement) :
    (place node outer).positions = positionsOfOpen outer ++ node.positions := by
  cases outer with
  | nil => rfl
  | cons innermost outer =>
      simp [place, positions, positionsOfOpen_cons, OpenElement.add, Node.positionsOf_eq]

/-- At most one node begins with a token, where the token stands. -/
theorem positions_step {token : Token} {state next : ParseState} (h : state.step token = .ok next) :
    next.positions.Sublist (state.positions ++ [token.position]) := by
  cases state with
  | start =>
      unfold step at h
      dsimp only at h
      split at h
      · obtain rfl := Except.ok.inj h
        exact .refl _
      · cases h
  | naming position outer =>
      unfold step at h
      dsimp only at h
      split at h
      · split at h
        · obtain rfl := Except.ok.inj h
          simp [positions, positionsOfOpen_cons, Node.positionsOf]
        · cases h
      · cases h
  | inside innermost outer =>
      unfold step at h
      dsimp only at h
      split at h <;> obtain rfl := Except.ok.inj h
      · exact .refl _
      · rw [positions_place, positions, positionsOfOpen_cons, OpenElement.close, Node.positions]
        exact List.sublist_append_left _ _
      · simp [positions, positionsOfOpen_cons, OpenElement.add, Node.positionsOf_eq, Node.positions]
      · simp [positions, positionsOfOpen_cons, OpenElement.add, Node.positionsOf_eq, Node.positions]
  | done root => cases h

theorem positions_run {tokens : List Token} {state last : ParseState}
    (h : state.run tokens = .ok last) :
    last.positions.Sublist (state.positions ++ tokens.map Token.position) := by
  induction tokens generalizing state with
  | nil =>
      obtain rfl := Except.ok.inj h
      simp
  | cons token tokens ih =>
      rw [run] at h
      cases hstep : state.step token with
      | error e => simp [hstep, Except.bind] at h
      | ok next =>
          have hrest : next.run tokens = .ok last := by simpa [hstep, Except.bind] using h
          have hnext := (positions_step hstep).append_right (tokens.map Token.position)
          simpa using (ih hrest).trans hnext

theorem positions_of_finish {state : ParseState} {root : Node} (h : state.finish = .ok root) :
    state.positions = root.positions := by
  cases state with
  | done node =>
      obtain rfl := Except.ok.inj h
      rfl
  | _ => cases h

end ParseState

/-- The nodes of the tree of a text stand one after the other, elements in front of what is inside
them. -/
theorem pairwise_positions_of_parse {source : String} {tree : Node} (h : parse source = .ok tree) :
    tree.positions.Pairwise Position.Before := by
  unfold parse parseTokens at h
  cases hscan : scan source with
  | error e => simp [hscan, Except.bind] at h
  | ok tokens =>
      rw [hscan] at h
      cases hrun : ParseState.start.run tokens with
      | error e => simp [hrun, Except.bind] at h
      | ok last =>
          have hfinish : last.finish = .ok tree := by simpa [hrun, Except.bind] using h
          have hsub := ParseState.positions_run hrun
          rw [ParseState.positions_of_finish hfinish] at hsub
          exact (pairwise_of_scan hscan).sublist hsub

/-- No two nodes of the tree of a text stand at one position. -/
theorem nodup_positions_of_parse {source : String} {tree : Node} (h : parse source = .ok tree) :
    tree.positions.Nodup :=
  (pairwise_positions_of_parse h).imp Position.Before.ne

end ScorePlayback
