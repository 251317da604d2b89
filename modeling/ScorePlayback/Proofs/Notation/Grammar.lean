import Mathlib.Data.List.Forall2
import ScorePlayback.Notation.Parse

/-! # Trees and what they are written as

The grammar of the notation says which lists of lexemes are elements, and a tree can be written out
again as what it keeps of its tokens. The tokens that are read as a tree are those that the grammar
derives, and the tree is the one that is written out as them. -/

namespace ScorePlayback

/-! ## The grammar -/

/-- `item := element | ATOM | STRING`, where `element := ( NAME item* )`. -/
inductive IsItem : List Lexeme → Prop where
  | atom (text : String) : IsItem [.atom text]
  | string (text : String) : IsItem [.quoted text]
  | element (name : ElementName) {items : List (List Lexeme)} (h : ∀ item ∈ items, IsItem item) :
      IsItem (.leftParen :: .atom name.text :: (items.flatten ++ [.rightParen]))

/-- `element := ( NAME item* )`. -/
def IsElement (lexemes : List Lexeme) : Prop :=
  ∃ (name : ElementName) (items : List (List Lexeme)), (∀ item ∈ items, IsItem item) ∧
    lexemes = .leftParen :: .atom name.text :: (items.flatten ++ [.rightParen])

/-! ## Writing out trees -/

/-- What a tree keeps of a token. It does not know where its names and its closing parentheses
stand. -/
structure KeptToken where
  lexeme : Lexeme
  position : Option Position

namespace KeptToken

def opening (position : Position) : KeptToken := ⟨.leftParen, some position⟩

def naming (name : ElementName) : KeptToken := ⟨.atom name.text, none⟩

def closing : KeptToken := ⟨.rightParen, none⟩

/-- A string is quoted, a label or a number is not. -/
def leaf : AtomKind → String → Position → KeptToken
  | .string, text, position => ⟨.quoted text, some position⟩
  | .label, text, position | .number, text, position => ⟨.atom text, some position⟩

theorem leaf_atomKind (text : String) (position : Position) :
    leaf (atomKind text) text position = ⟨.atom text, some position⟩ := by
  unfold atomKind
  split <;> rfl

end KeptToken

def Token.IsKeptAs (token : Token) (kept : KeptToken) : Prop :=
  token.lexeme = kept.lexeme ∧ ∀ position ∈ kept.position, token.position = position

namespace Token.IsKeptAs

theorem of_lexeme {token : Token} {lexeme : Lexeme} (h : token.lexeme = lexeme) :
    token.IsKeptAs ⟨lexeme, some token.position⟩ :=
  ⟨h, fun _ hposition => Option.some.inj hposition⟩

theorem of_lexeme_unplaced {token : Token} {lexeme : Lexeme} (h : token.lexeme = lexeme) :
    token.IsKeptAs ⟨lexeme, none⟩ := ⟨h, nofun⟩

end Token.IsKeptAs

mutual

/-- The tokens of a tree in order. -/
def Node.flatten : Node → List KeptToken
  | .element name children position =>
    .opening position :: .naming name :: (Node.flattenAll children ++ [.closing])
  | .atom kind text position => [.leaf kind text position]

def Node.flattenAll : List Node → List KeptToken
  | [] => []
  | node :: nodes => node.flatten ++ Node.flattenAll nodes

end

namespace Node

theorem flattenAll_eq (nodes : List Node) : flattenAll nodes = nodes.flatMap flatten := by
  induction nodes with
  | nil => rfl
  | cons node nodes ih => rw [flattenAll, ih, List.flatMap_cons]

theorem flattenAll_concat (nodes : List Node) (node : Node) :
    flattenAll (nodes ++ [node]) = flattenAll nodes ++ node.flatten := by
  simp [flattenAll_eq]

/-- An atom that is no string is a number if it reads as one, and a label otherwise. -/
inductive IsWellFormed : Node → Prop where
  | atom (text : String) (position : Position) : IsWellFormed (.atom (atomKind text) text position)
  | string (text : String) (position : Position) : IsWellFormed (.atom .string text position)
  | element (name : ElementName) {children : List Node} (position : Position)
      (h : ∀ child ∈ children, child.IsWellFormed) : IsWellFormed (.element name children position)

/-- A well-formed element. -/
structure IsTree (n : Node) : Prop where
  isElement : n.isAtom = false
  isWellFormed : n.IsWellFormed

end Node

/-- What is kept in two parts is kept of two parts. -/
theorem exists_append_of_isKeptAs {tokens : List Token} {front behind : List KeptToken}
    (h : List.Forall₂ Token.IsKeptAs tokens (front ++ behind)) :
    ∃ first second, tokens = first ++ second ∧ List.Forall₂ Token.IsKeptAs first front ∧
      List.Forall₂ Token.IsKeptAs second behind :=
  ⟨tokens.take front.length, tokens.drop front.length, (List.take_append_drop _ _).symm,
    List.forall₂_take_append _ _ _ h, List.forall₂_drop_append _ _ _ h⟩

/-! ## Derived lists and the trees that they are written out from -/

/-- The nodes of derived items, wherever the tokens stand. -/
theorem exists_nodes_of_items {items : List (List Lexeme)}
    (h : ∀ item ∈ items, ∀ tokens : List Token, tokens.map Token.lexeme = item →
      ∃ n : Node, n.IsWellFormed ∧ List.Forall₂ Token.IsKeptAs tokens n.flatten)
    {tokens : List Token} (htokens : tokens.map Token.lexeme = items.flatten) :
    ∃ nodes : List Node, (∀ n ∈ nodes, n.IsWellFormed) ∧
      List.Forall₂ Token.IsKeptAs tokens (Node.flattenAll nodes) := by
  induction items generalizing tokens with
  | nil =>
      obtain rfl := List.map_eq_nil_iff.mp htokens
      exact ⟨[], nofun, .nil⟩
  | cons item items ih =>
      obtain ⟨hitem, hitems⟩ := List.forall_mem_cons.mp h
      obtain ⟨front, behind, rfl, hfront, hbehind⟩ := List.map_eq_append_iff.mp htokens
      obtain ⟨n, hn, hflatten⟩ := hitem front hfront
      obtain ⟨nodes, hnodes, hall⟩ := ih hitems hbehind
      exact ⟨n :: nodes, List.forall_mem_cons.mpr ⟨hn, hnodes⟩, List.rel_append hflatten hall⟩

/-- Parentheses and a name around derived items. -/
theorem exists_element_of_items (name : ElementName) {items : List (List Lexeme)}
    (h : ∀ item ∈ items, ∀ tokens : List Token, tokens.map Token.lexeme = item →
      ∃ n : Node, n.IsWellFormed ∧ List.Forall₂ Token.IsKeptAs tokens n.flatten)
    {tokens : List Token} (htokens : tokens.map Token.lexeme =
      .leftParen :: .atom name.text :: (items.flatten ++ [.rightParen])) :
    ∃ n : Node, n.IsTree ∧ List.Forall₂ Token.IsKeptAs tokens n.flatten := by
  obtain ⟨opening, tokens, rfl, hopening, htokens⟩ := List.map_eq_cons_iff.mp htokens
  obtain ⟨naming, tokens, rfl, hnaming, htokens⟩ := List.map_eq_cons_iff.mp htokens
  obtain ⟨inner, last, rfl, hinner, hlast⟩ := List.map_eq_append_iff.mp htokens
  obtain ⟨closing, rfl, hclosing⟩ := List.map_eq_singleton_iff.mp hlast
  obtain ⟨nodes, hnodes, hall⟩ := exists_nodes_of_items h hinner
  have hopen : opening.IsKeptAs (.opening opening.position) := .of_lexeme hopening
  have hname : naming.IsKeptAs (.naming name) := .of_lexeme_unplaced hnaming
  have hclose : closing.IsKeptAs .closing := .of_lexeme_unplaced hclosing
  exact ⟨.element name nodes opening.position, ⟨rfl, .element name _ hnodes⟩,
    .cons hopen (.cons hname (List.rel_append hall (.cons hclose .nil)))⟩

theorem IsItem.exists_node {item : List Lexeme} (h : IsItem item) {tokens : List Token}
    (htokens : tokens.map Token.lexeme = item) :
    ∃ n : Node, n.IsWellFormed ∧ List.Forall₂ Token.IsKeptAs tokens n.flatten := by
  induction h generalizing tokens with
  | atom text =>
      obtain ⟨token, rfl, hlexeme⟩ := List.map_eq_singleton_iff.mp htokens
      refine ⟨.atom (atomKind text) text token.position, .atom text _, ?_⟩
      rw [Node.flatten, KeptToken.leaf_atomKind]
      exact .cons ⟨hlexeme, fun position h => Option.some.inj h⟩ .nil
  | string text =>
      obtain ⟨token, rfl, hlexeme⟩ := List.map_eq_singleton_iff.mp htokens
      refine ⟨.atom .string text token.position, .string text _, ?_⟩
      exact .cons ⟨hlexeme, fun position h => Option.some.inj h⟩ .nil
  | element name _ ih =>
      obtain ⟨n, hn, hflatten⟩ :=
        exists_element_of_items name (fun item hitem _ => ih item hitem) htokens
      exact ⟨n, hn.isWellFormed, hflatten⟩

theorem IsElement.exists_tree {tokens : List Token} (h : IsElement (tokens.map Token.lexeme)) :
    ∃ tree : Node, tree.IsTree ∧ List.Forall₂ Token.IsKeptAs tokens tree.flatten := by
  obtain ⟨name, items, hitems, htokens⟩ := h
  exact exists_element_of_items name (fun item hitem _ => (hitems item hitem).exists_node) htokens

/-- What well-formed children are written out as, item by item. -/
theorem exists_items_of_children {children : List Node}
    (h : ∀ child ∈ children, IsItem (child.flatten.map KeptToken.lexeme)) :
    ∃ items : List (List Lexeme), (∀ item ∈ items, IsItem item) ∧
      (Node.flattenAll children).map KeptToken.lexeme = items.flatten := by
  refine ⟨children.map fun child => child.flatten.map KeptToken.lexeme,
    List.forall_mem_map.mpr h, ?_⟩
  rw [Node.flattenAll_eq, List.map_flatMap, List.flatMap_def]

namespace Node

theorem lexemes_flatten_element (name : ElementName) (children : List Node) (position : Position) :
    (element name children position).flatten.map KeptToken.lexeme =
      .leftParen :: .atom name.text ::
        ((flattenAll children).map KeptToken.lexeme ++ [.rightParen]) := by
  simp [flatten, KeptToken.opening, KeptToken.naming, KeptToken.closing]

theorem IsWellFormed.isItem {n : Node} (h : n.IsWellFormed) :
    IsItem (n.flatten.map KeptToken.lexeme) := by
  induction h with
  | atom text position => simpa [flatten, KeptToken.leaf_atomKind] using IsItem.atom text
  | string text position => exact .string text
  | element name position h ih =>
      obtain ⟨items, hitems, hflatten⟩ := exists_items_of_children ih
      rw [lexemes_flatten_element, hflatten]
      exact .element name hitems

theorem IsTree.isElement_flatten {n : Node} (h : n.IsTree) :
    IsElement (n.flatten.map KeptToken.lexeme) := by
  obtain ⟨helement, hn⟩ := h
  cases hn with
  | atom text position | string text position => cases helement
  | element name position hchildren =>
      obtain ⟨items, hitems, hflatten⟩ :=
        exists_items_of_children fun child hchild => (hchildren child hchild).isItem
      exact ⟨name, items, hitems, by rw [lexemes_flatten_element, hflatten]⟩

/-- Any places will do for the tokens whose places are not kept. -/
theorem exists_tokens (n : Node) : ∃ tokens, List.Forall₂ Token.IsKeptAs tokens n.flatten := by
  refine ⟨n.flatten.map fun kept => ⟨kept.lexeme, kept.position.getD .first⟩, ?_⟩
  rw [List.forall₂_map_left_iff, List.forall₂_same]
  intro kept _
  exact ⟨rfl, fun position h => by rw [h]; rfl⟩

end Node

/-- The lexemes are all kept. -/
theorem map_lexeme_of_isKeptAs {tokens : List Token} {kept : List KeptToken}
    (h : List.Forall₂ Token.IsKeptAs tokens kept) :
    tokens.map Token.lexeme = kept.map KeptToken.lexeme := by
  induction h with
  | nil => rfl
  | cons hkept _ ih => rw [List.map_cons, List.map_cons, hkept.1, ih]

/-! ## Trees are read from what they are written out as -/

namespace ParseState

theorem run_append (state : ParseState) (front behind : List Token) :
    state.run (front ++ behind) = (state.run front).bind fun next => next.run behind := by
  induction front generalizing state with
  | nil => rfl
  | cons token front ih =>
      rw [List.cons_append, run, run]
      cases state.step token with
      | error e => rfl
      | ok next => exact ih next

/-- Children that are read one by one. -/
theorem run_of_forall_run {children : List Node}
    (h : ∀ child ∈ children, ∀ tokens, List.Forall₂ Token.IsKeptAs tokens child.flatten →
      ∀ e outer, (inside e outer).run tokens = .ok (.inside (e.add child) outer))
    {tokens : List Token} (htokens : List.Forall₂ Token.IsKeptAs tokens (Node.flattenAll children))
    (e : OpenElement) (outer : List OpenElement) : (inside e outer).run tokens =
      .ok (.inside { e with children := children.reverse ++ e.children } outer) := by
  induction children generalizing tokens e with
  | nil =>
      cases htokens
      rfl
  | cons child children ih =>
      obtain ⟨hchild, hchildren⟩ := List.forall_mem_cons.mp h
      obtain ⟨front, behind, rfl, hfront, hbehind⟩ := exists_append_of_isKeptAs htokens
      have hrest := ih hchildren hbehind (e.add child)
      rw [run_append, hchild front hfront]
      simpa [Except.bind, OpenElement.add] using hrest

/-- An element from its parenthesis on. -/
theorem run_element {name : ElementName} {children : List Node} {position : Position}
    (h : ∀ child ∈ children, ∀ tokens, List.Forall₂ Token.IsKeptAs tokens child.flatten →
      ∀ e outer, (inside e outer).run tokens = .ok (.inside (e.add child) outer))
    {state : ParseState} {outer : List OpenElement}
    (hstate : ∀ token : Token, token.lexeme = .leftParen →
      state.step token = .ok (.naming token.position outer))
    {tokens : List Token} (htokens : List.Forall₂ Token.IsKeptAs tokens
      (Node.element name children position).flatten) :
    state.run tokens = .ok (place (.element name children position) outer) := by
  obtain ⟨opening, _, ⟨hopening, hplace⟩, hbehind, rfl⟩ := List.forall₂_cons_right_iff.mp htokens
  obtain ⟨naming, _, ⟨hnaming, -⟩, hinside, rfl⟩ := List.forall₂_cons_right_iff.mp hbehind
  obtain ⟨inner, last, rfl, hinner, hlast⟩ := exists_append_of_isKeptAs hinside
  obtain ⟨closing, _, ⟨hclosing, -⟩, hnil, rfl⟩ := List.forall₂_cons_right_iff.mp hlast
  obtain rfl := List.forall₂_nil_right_iff.mp hnil
  have hopen : state.step opening = .ok (.naming position outer) := by
    rw [hstate opening hopening, hplace position rfl]
  have hname : step naming (.naming position outer) = .ok (.inside ⟨name, position, []⟩ outer) := by
    simp [step, hnaming, KeptToken.naming, ElementName.ofText?_text]
  have hchildren := run_of_forall_run h hinner ⟨name, position, []⟩ outer
  have hclose (e : OpenElement) : step closing (.inside e outer) = .ok (place e.close outer) := by
    simp [step, hclosing, KeptToken.closing]
  rw [run, hopen, Except.bind, run, hname, Except.bind, run_append, hchildren, Except.bind, run,
    hclose]
  simp [Except.bind, run, OpenElement.close]

theorem run_of_isWellFormed {n : Node} (h : n.IsWellFormed) {tokens : List Token}
    (htokens : List.Forall₂ Token.IsKeptAs tokens n.flatten) (e : OpenElement)
    (outer : List OpenElement) : (inside e outer).run tokens = .ok (.inside (e.add n) outer) := by
  induction h generalizing tokens e outer with
  | atom text position =>
      rw [Node.flatten, KeptToken.leaf_atomKind] at htokens
      obtain ⟨token, _, ⟨hlexeme, hplace⟩, hnil, rfl⟩ := List.forall₂_cons_right_iff.mp htokens
      obtain rfl := List.forall₂_nil_right_iff.mp hnil
      obtain rfl := hplace position rfl
      simp [run, step, hlexeme, Except.bind]
  | string text position =>
      obtain ⟨token, _, ⟨hlexeme, hplace⟩, hnil, rfl⟩ := List.forall₂_cons_right_iff.mp htokens
      obtain rfl := List.forall₂_nil_right_iff.mp hnil
      obtain rfl := hplace position rfl
      simp [run, step, hlexeme, KeptToken.leaf, Except.bind]
  | element name position _ ih =>
      have hopen (token : Token) (hlexeme : token.lexeme = .leftParen) :
          step token (.inside e outer) = .ok (.naming token.position (e :: outer)) := by
        simp [step, hlexeme]
      exact run_element (fun child hchild _ htokens => ih child hchild htokens) hopen htokens

end ParseState

theorem parseTokens_of_isKeptAs {tree : Node} (h : tree.IsTree) {tokens : List Token}
    (htokens : List.Forall₂ Token.IsKeptAs tokens tree.flatten) :
    parseTokens tokens = .ok tree := by
  obtain ⟨helement, hn⟩ := h
  cases hn with
  | atom text position | string text position => cases helement
  | element name position hchildren =>
      have hopen (token : Token) (hlexeme : token.lexeme = .leftParen) :
          ParseState.start.step token = .ok (.naming token.position []) := by
        simp [ParseState.step, hlexeme]
      have hrun := ParseState.run_element
        (fun child hchild _ => ParseState.run_of_isWellFormed (hchildren child hchild))
        hopen htokens
      rw [parseTokens, hrun]
      rfl

/-! ## What has been read is written out again -/

namespace ParseState

/-- The tokens of elements that are still open. -/
def flattenOpen (open' : List OpenElement) : List KeptToken :=
  open'.reverse.flatMap fun e =>
    .opening e.position :: .naming e.name :: Node.flattenAll e.children.reverse

theorem flattenOpen_cons (innermost : OpenElement) (outer : List OpenElement) :
    flattenOpen (innermost :: outer) = flattenOpen outer ++
      .opening innermost.position :: .naming innermost.name ::
        Node.flattenAll innermost.children.reverse := by
  simp [flattenOpen]

/-- What is kept of the tokens so far. -/
def flatten : ParseState → List KeptToken
  | .start => []
  | .naming position outer => flattenOpen outer ++ [.opening position]
  | .inside innermost outer => flattenOpen (innermost :: outer)
  | .done root => root.flatten

theorem flattenOpen_add (e : OpenElement) (outer : List OpenElement) (child : Node) :
    flattenOpen (e.add child :: outer) = flattenOpen (e :: outer) ++ child.flatten := by
  simp [flattenOpen_cons, OpenElement.add, Node.flattenAll_concat]

theorem flatten_place (node : Node) (outer : List OpenElement) :
    (place node outer).flatten = flattenOpen outer ++ node.flatten := by
  cases outer with
  | nil => rfl
  | cons innermost outer => exact flattenOpen_add innermost outer node

/-- All that is finished is well-formed. -/
def IsWellFormed : ParseState → Prop
  | .start => True
  | .naming _ outer => ∀ e ∈ outer, ∀ child ∈ e.children, child.IsWellFormed
  | .inside innermost outer => ∀ e ∈ innermost :: outer, ∀ child ∈ e.children, child.IsWellFormed
  | .done root => root.IsTree

theorem isWellFormed_add {e : OpenElement} {outer : List OpenElement} {child : Node}
    (h : (inside e outer).IsWellFormed) (hchild : child.IsWellFormed) :
    (inside (e.add child) outer).IsWellFormed := by
  obtain ⟨he, houter⟩ := List.forall_mem_cons.mp h
  exact List.forall_mem_cons.mpr ⟨List.forall_mem_cons.mpr ⟨hchild, he⟩, houter⟩

theorem isWellFormed_close {e : OpenElement} {outer : List OpenElement}
    (h : (inside e outer).IsWellFormed) : (place e.close outer).IsWellFormed := by
  obtain ⟨he, houter⟩ := List.forall_mem_cons.mp h
  have hclose : e.close.IsWellFormed :=
    .element e.name e.position fun child hchild => he child (List.mem_reverse.mp hchild)
  cases outer with
  | nil => exact ⟨rfl, hclose⟩
  | cons innermost outer => exact isWellFormed_add houter hclose

/-- One token is kept, and what it finishes is well-formed. -/
theorem isKeptAs_step {token : Token} {state next : ParseState} (h : state.IsWellFormed)
    (hstep : state.step token = .ok next) :
    next.IsWellFormed ∧ ∃ kept, token.IsKeptAs kept ∧ next.flatten = state.flatten ++ [kept] := by
  cases state with
  | start =>
      simp only [step] at hstep
      split at hstep
      · next hlexeme =>
        obtain rfl := Except.ok.inj hstep
        exact ⟨List.forall_mem_nil _, .opening token.position, .of_lexeme hlexeme, rfl⟩
      · cases hstep
  | naming position outer =>
      simp only [step] at hstep
      split at hstep
      · next text hlexeme =>
        split at hstep
        · next name hname =>
          obtain rfl := Except.ok.inj hstep
          have hkept : token.IsKeptAs (.naming name) :=
            .of_lexeme_unplaced
              (hlexeme.trans (congrArg _ (ElementName.text_of_ofText? hname).symm))
          refine ⟨List.forall_mem_cons.mpr ⟨List.forall_mem_nil _, h⟩, _, hkept, ?_⟩
          simp [flatten, flattenOpen_cons, Node.flattenAll]
        · cases hstep
      · cases hstep
  | inside innermost outer =>
      simp only [step] at hstep
      split at hstep
      · next hlexeme =>
        obtain rfl := Except.ok.inj hstep
        exact ⟨h, .opening token.position, .of_lexeme hlexeme, rfl⟩
      · next hlexeme =>
        obtain rfl := Except.ok.inj hstep
        refine ⟨isWellFormed_close h, .closing, .of_lexeme_unplaced hlexeme, ?_⟩
        rw [flatten_place, OpenElement.close, Node.flatten, flatten, flattenOpen_cons]
        simp
      · next text hlexeme =>
        obtain rfl := Except.ok.inj hstep
        refine ⟨isWellFormed_add h (.atom text _), _, .of_lexeme hlexeme, ?_⟩
        rw [flatten, flattenOpen_add, Node.flatten, KeptToken.leaf_atomKind, flatten]
      · next text hlexeme =>
        obtain rfl := Except.ok.inj hstep
        exact ⟨isWellFormed_add h (.string text _), _, .of_lexeme hlexeme, flattenOpen_add _ _ _⟩
  | done root => cases hstep

theorem isKeptAs_run {tokens front : List Token} {state last : ParseState} (h : state.IsWellFormed)
    (hfront : List.Forall₂ Token.IsKeptAs front state.flatten)
    (hrun : state.run tokens = .ok last) :
    last.IsWellFormed ∧ List.Forall₂ Token.IsKeptAs (front ++ tokens) last.flatten := by
  induction tokens generalizing front state with
  | nil =>
      obtain rfl := Except.ok.inj hrun
      exact ⟨h, by simpa using hfront⟩
  | cons token tokens ih =>
      rw [run] at hrun
      cases hstep : state.step token with
      | error e => simp [hstep, Except.bind] at hrun
      | ok next =>
          rw [hstep] at hrun
          obtain ⟨hnext, kept, hkept, hflatten⟩ := isKeptAs_step h hstep
          have hread : List.Forall₂ Token.IsKeptAs (front ++ [token]) next.flatten :=
            hflatten ▸ List.rel_append hfront (.cons hkept .nil)
          simpa using ih hnext hread hrun

end ParseState

theorem isKeptAs_of_parseTokens {tokens : List Token} {tree : Node}
    (h : parseTokens tokens = .ok tree) :
    tree.IsTree ∧ List.Forall₂ Token.IsKeptAs tokens tree.flatten := by
  unfold parseTokens at h
  cases hrun : ParseState.start.run tokens with
  | error e => simp [hrun, Except.bind] at h
  | ok last =>
      have hstart : ParseState.start.IsWellFormed := trivial
      have hlast := ParseState.isKeptAs_run hstart .nil hrun
      have hfinish : last.finish = .ok tree := by simpa [hrun, Except.bind] using h
      cases last with
      | done root =>
          obtain rfl := Except.ok.inj hfinish
          exact hlast
      | start | naming position outer | inside innermost outer => cases hfinish

/-- Reading and writing out are inverse to each other: the lists that are read are those that the
grammar derives, and each is read as the one tree that is written out as it. -/
theorem parseTokens_iff :
    (∀ tokens, (∃ tree, parseTokens tokens = .ok tree) ↔ IsElement (tokens.map Token.lexeme)) ∧
    (∀ tokens tree, parseTokens tokens = .ok tree ↔
      tree.IsTree ∧ List.Forall₂ Token.IsKeptAs tokens tree.flatten) ∧
    ∀ tree, (∃ tokens, parseTokens tokens = .ok tree) ↔ tree.IsTree := by
  refine ⟨fun tokens => ⟨?_, ?_⟩, fun tokens tree => ⟨isKeptAs_of_parseTokens, ?_⟩,
    fun tree => ⟨?_, fun htree => ?_⟩⟩
  · rintro ⟨tree, h⟩
    obtain ⟨htree, hkept⟩ := isKeptAs_of_parseTokens h
    rw [map_lexeme_of_isKeptAs hkept]
    exact htree.isElement_flatten
  · intro h
    obtain ⟨tree, htree, hkept⟩ := h.exists_tree
    exact ⟨tree, parseTokens_of_isKeptAs htree hkept⟩
  · exact fun ⟨htree, hkept⟩ => parseTokens_of_isKeptAs htree hkept
  · exact fun ⟨tokens, h⟩ => (isKeptAs_of_parseTokens h).1
  · obtain ⟨tokens, hkept⟩ := tree.exists_tokens
    exact ⟨tokens, parseTokens_of_isKeptAs htree hkept⟩

end ScorePlayback
