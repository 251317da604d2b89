import Mathlib.Data.List.Forall2
import Mathlib.Data.List.ModifyLast
import ScorePlayback.Compile
import ScorePlayback.Proofs.Analysis.Subtrees

/-! # The scores of a document

A document analyses each of its scores as if it stood alone. Only a title in the content behind a
score goes back to it. -/

namespace ScorePlayback

/-! ## What a document consists of -/

/-- A part of a document. The elements that hold the content are not parts themselves; their items
are. -/
inductive DocumentPart where
  | version (children : List Node) (position : Position)
  | item (node : Node)
  | misplaced (node : Node)

namespace DocumentPart

def ofChild : Node → List DocumentPart
  | .element .content items _ => items.map .item
  | .element .version children position => [.version children position]
  | child => [.misplaced child]

/-- The element of a score. -/
def score? : DocumentPart → Option Node
  | .item node => if node.kind = .element .score then some node else none
  | _ => none

/-- The text of a title. -/
def title? : DocumentPart → Option String
  | .item node => if node.kind = .element .title then node.string? else none
  | _ => none

/-- A part with a score is the element of the score. -/
theorem eq_item_of_score? {part : DocumentPart} {node : Node} (h : part.score? = some node) :
    part = .item node ∧ ∃ children position, node = .element .score children position := by
  cases part with
  | item node' =>
      obtain ⟨hkind, rfl⟩ : node'.kind = .element .score ∧ node' = node := by
        simpa [score?] using h
      cases node' with
      | atom kind text position => cases hkind
      | element name children position =>
          obtain rfl : name = .score := NodeKind.element.inj hkind
          exact ⟨rfl, children, position, rfl⟩
  | _ => cases h

end DocumentPart

/-- The parts of a document in their order. -/
def documentParts (children : List Node) : List DocumentPart :=
  children.flatMap DocumentPart.ofChild

/-- The text of the last title in front of the next score. -/
def titleBehind : List DocumentPart → Option String
  | [] => none
  | part :: rest => if part.score?.isSome then none else (titleBehind rest).or part.title?

/-- The elements of the scores, each with the title behind it. -/
def titledScores : List DocumentPart → List (Node × Option String)
  | [] => []
  | part :: rest =>
      (part.score?.map fun node => (node, titleBehind rest)).toList ++ titledScores rest

/-! ## What is analysed alone -/

/-- A score with another title, if there is one. -/
def Score.retitle {τ : Type} (title : Option String) (score : Score τ) : Score τ :=
  { score with title := title.or score.title }

section

variable {τ : Type} [TimeValue τ]

/-- The score of an element that is a tree of its own, but with the title behind it if there is
one. -/
def Score.IsAlone (settings : Settings) (score : Score τ) (titled : Node × Option String) : Prop :=
  ∃ (alone : Analysis τ) (own : Score τ), analyse settings titled.1 = .ok alone ∧
    alone.document.scores = [own] ∧ score = own.retitle titled.2

end

section

variable (τ : Type) [TimeValue τ]

/-- The problems of a tree. -/
def diagnosticsAlone (settings : Settings) (tree : Node) : List Diagnostic :=
  match (analyse settings tree : Except CompileError (Analysis τ)) with
  | .ok alone => alone.diagnostics
  | .error _ => []

/-- The problems of a score are those it has alone. Other parts have faults of grammar. `scored`
says whether there is a score in front. -/
def DocumentPart.diagnostics (settings : Settings) (scored : Bool) :
    DocumentPart → List Diagnostic
  | .version children position =>
    if children.any Node.isAtom then [] else [GrammarFault.versionMissing.diagnostic position]
  | .item node =>
    match node.kind with
    | .element .score => diagnosticsAlone τ settings node
    | .element .paragraph => []
    | .element .title =>
      if node.string?.isNone then [GrammarFault.titleText.diagnostic node.position]
      else if scored then [] else [GrammarFault.titleWithoutScore.diagnostic node.position]
    | _ => [(node.misplacedIn .content).diagnostic]
  | .misplaced node => [(node.misplacedIn .document).diagnostic]

/-- The problems of a document, in the order of its parts. -/
def documentDiagnostics (settings : Settings) (scored : Bool) :
    List DocumentPart → List Diagnostic
  | [] => []
  | part :: rest =>
    part.diagnostics τ settings scored ++
      documentDiagnostics settings (scored || part.score?.isSome) rest

end

/-! ## One part after the other -/

variable {τ : Type}

def ContentItem.score? : ContentItem τ → Option (Score τ)
  | .score s => some s
  | .paragraph _ => none

/-- A title goes to the last score, and nowhere if there is none. -/
theorem retitle?_cases (title : String) (items : List (ContentItem τ)) :
    (Analysis.retitle? title items = none ∧ items.filterMap ContentItem.score? = []) ∨
      ∃ items' front last, Analysis.retitle? title items = some items' ∧
        items.filterMap ContentItem.score? = front ++ [last] ∧
        items'.filterMap ContentItem.score? = front ++ [last.retitle (some title)] := by
  induction items with
  | nil => exact .inl ⟨rfl, rfl⟩
  | cons item rest ih =>
      rcases ih with ⟨hnone, hscores⟩ | ⟨rest', front, last, hsome, hscores, hscores'⟩
      · cases item with
        | paragraph text => exact .inl ⟨by simp [Analysis.retitle?, hnone], hscores⟩
        | score s =>
            refine .inr ⟨.score (s.retitle (some title)) :: rest, [], s, ?_, ?_, ?_⟩
            · simp [Analysis.retitle?, hnone, Score.retitle]
            · simp [ContentItem.score?, hscores]
            · simp [ContentItem.score?, hscores]
      · have hitem : Analysis.retitle? title (item :: rest) = some (item :: rest') := by
          simp [Analysis.retitle?, hsome]
        cases item with
        | paragraph text => exact .inr ⟨_, front, last, hitem, hscores, hscores'⟩
        | score s =>
            exact .inr ⟨_, s :: front, last, hitem, congrArg (s :: ·) hscores,
              congrArg (s :: ·) hscores'⟩

theorem Score.retitle_retitle (first second : Option String) (score : Score τ) :
    (score.retitle first).retitle second = score.retitle (second.or first) := by
  rw [retitle, retitle, retitle, Option.or_assoc]

theorem modifyLast_retitle_none (scores : List (Score τ)) :
    scores.modifyLast (Score.retitle none) = scores := by
  rcases scores.eq_nil_or_concat with rfl | ⟨front, last, rfl⟩
  · rfl
  · rw [List.concat_eq_append, List.modifyLast_concat]
    rfl

theorem modifyLast_retitle_retitle (first second : Option String) (scores : List (Score τ)) :
    (scores.modifyLast (Score.retitle first)).modifyLast (Score.retitle second) =
      scores.modifyLast (Score.retitle (second.or first)) := by
  rcases scores.eq_nil_or_concat with rfl | ⟨front, last, rfl⟩
  · rfl
  · simp only [List.concat_eq_append, List.modifyLast_concat, Score.retitle_retitle]

theorem isEmpty_modifyLast_retitle (title : Option String) (scores : List (Score τ)) :
    (scores.modifyLast (Score.retitle title)).isEmpty = scores.isEmpty := by
  rcases scores.eq_nil_or_concat with rfl | ⟨front, last, rfl⟩
  · rfl
  · rw [List.concat_eq_append, List.modifyLast_concat]
    cases front <;> rfl

variable [TimeValue τ] (settings : Settings)

namespace DocumentPart

def read (a : Analysis τ) : DocumentPart → Analysis τ
  | .version children position => a.read settings (.element .version children position)
  | .item node => a.readItem settings node
  | .misplaced node => a.report [(node.misplacedIn .document).diagnostic]

theorem foldl_ofChild (a : Analysis τ) (child : Node) :
    (ofChild child).foldl (read settings) a = Analysis.read settings a child := by
  unfold ofChild
  split
  · rw [List.foldl_map]
    rfl
  · rfl
  · next hcontent hversion =>
    unfold Analysis.read
    split
    · exact absurd rfl (hversion _ _)
    · exact absurd rfl (hcontent _ _)
    · rfl

/-- What a part adds to the scores and the problems in front of it. -/
structure Adds (part : DocumentPart) (a a' : Analysis τ) : Prop where
  scores : a'.document.scores = a.document.scores.modifyLast (Score.retitle part.title?) ++
    (part.score?.map fun node => (analyseScore settings node.children).score).toList
  diagnostics : a'.diagnostics =
    a.diagnostics ++ part.diagnostics τ settings (!a.document.scores.isEmpty)

theorem Adds.of_other {part : DocumentPart} {a a' : Analysis τ} (hscore : part.score? = none)
    (htitle : part.title? = none) (hscores : a'.document.scores = a.document.scores)
    (hdiagnostics : a'.diagnostics =
      a.diagnostics ++ part.diagnostics τ settings (!a.document.scores.isEmpty)) :
    part.Adds settings a a' := by
  refine ⟨?_, hdiagnostics⟩
  rw [hscore, htitle, modifyLast_retitle_none, hscores]
  exact (List.append_nil _).symm

theorem adds_score (a : Analysis τ) (children : List Node) (position : Position) :
    (item (.element .score children position)).Adds settings a
      (a.addScore (analyseScore settings children)) where
  scores := by
    rw [show (item (.element .score children position)).title? = none from rfl,
      modifyLast_retitle_none]
    exact List.filterMap_append
  diagnostics := rfl

theorem adds_title (a : Analysis τ) (children : List Node) (position : Position) :
    (item (.element .title children position)).Adds settings a
      (a.addTitle (.element .title children position)) := by
  unfold Analysis.addTitle
  split
  · next hnone =>
    refine .of_other settings rfl hnone rfl ?_
    simp [diagnostics, Node.kind, hnone, Analysis.reject, Analysis.report]
  · next title htitle =>
    have hpart : (item (.element .title children position)).title? = some title := htitle
    rcases retitle?_cases title a.document.content with
      ⟨hnone, hempty⟩ | ⟨items, front, last, hsome, hbefore, hbehind⟩
    · have hscores : a.document.scores = [] := hempty
      rw [hnone]
      refine ⟨?_, ?_⟩
      · show a.document.scores = _
        rw [hscores]
        rfl
      · simp [diagnostics, Node.kind, htitle, hscores, Analysis.reject, Analysis.report]
    · have hscores : a.document.scores = front ++ [last] := hbefore
      rw [hsome]
      refine ⟨?_, ?_⟩
      · show items.filterMap ContentItem.score? = _
        rw [hbehind, hscores, hpart, List.modifyLast_concat]
        exact (List.append_nil _).symm
      · simp [diagnostics, Node.kind, htitle, hscores]

theorem adds_foreign (a : Analysis τ) {node : Node} (hscore : node.kind ≠ .element .score)
    (hparagraph : node.kind ≠ .element .paragraph) (htitle : node.kind ≠ .element .title) :
    (item node).Adds settings a (a.report [(node.misplacedIn .content).diagnostic]) := by
  refine .of_other settings (if_neg hscore) (if_neg htitle) rfl ?_
  unfold diagnostics
  dsimp only
  split
  · next h => exact absurd h hscore
  · next h => exact absurd h hparagraph
  · next h => exact absurd h htitle
  · rfl

theorem adds_version (a : Analysis τ) (children : List Node) (position : Position) :
    (version children position).Adds settings a
      (a.read settings (.element .version children position)) := by
  have hatoms : children.any Node.isAtom =
      (Node.element .version children position).atoms.head?.isSome := by
    rw [Node.atoms, List.head?_filter, List.isSome_find?]
    rfl
  unfold Analysis.read
  dsimp only
  split
  · next v hv =>
    refine .of_other settings rfl rfl rfl ?_
    rw [diagnostics, hatoms, hv]
    exact (List.append_nil _).symm
  · next hnone =>
    refine .of_other settings rfl rfl rfl ?_
    rw [diagnostics, hatoms, hnone]
    rfl

/-- Every part adds to the scores and problems. -/
theorem adds_read (a : Analysis τ) (part : DocumentPart) :
    part.Adds settings a (part.read settings a) := by
  cases part with
  | version children position => exact adds_version settings a children position
  | item node =>
      unfold read Analysis.readItem
      dsimp only
      split
      · exact adds_score settings a _ _
      · refine .of_other settings rfl rfl ?_ (List.append_nil _).symm
        exact List.filterMap_append.trans (List.append_nil _)
      · exact adds_title settings a _ _
      · next hscore hparagraph htitle =>
        cases node with
        | atom kind text position => exact adds_foreign settings a nofun nofun nofun
        | element name children position =>
            refine adds_foreign settings a ?_ ?_ ?_
            · rintro ⟨⟩
              exact hscore _ _ rfl
            · rintro ⟨⟩
              exact hparagraph _ _ rfl
            · rintro ⟨⟩
              exact htitle _ _ rfl
  | misplaced node => exact .of_other settings rfl rfl rfl rfl

end DocumentPart

/-! ## All parts -/

theorem foldl_read_children (a : Analysis τ) (children : List Node) :
    children.foldl (Analysis.read settings) a =
      (documentParts children).foldl (DocumentPart.read settings) a := by
  rw [documentParts, List.foldl_flatMap]
  simp only [DocumentPart.foldl_ofChild]

theorem DocumentPart.title?_of_score? {part : DocumentPart} {node : Node}
    (h : part.score? = some node) : part.title? = none ∧ node.kind = .element .score := by
  obtain ⟨rfl, children, position, rfl⟩ := eq_item_of_score? h
  exact ⟨rfl, rfl⟩

/-- The scores behind all parts, where there have been some in front. -/
theorem scores_foldl_read (a : Analysis τ) (parts : List DocumentPart) :
    (parts.foldl (DocumentPart.read settings) a).document.scores =
      a.document.scores.modifyLast (Score.retitle (titleBehind parts)) ++
        (titledScores parts).map (fun titled =>
          (analyseScore settings titled.1.children).score.retitle titled.2) := by
  -- only the last score in front can still get a title, so its titles so far are merged into one
  induction parts generalizing a with
  | nil => simp [titleBehind, titledScores, modifyLast_retitle_none]
  | cons part rest ih =>
      rw [List.foldl_cons, ih, (part.adds_read settings a).scores, titleBehind, titledScores]
      cases hscore : part.score? with
      | none => simp [modifyLast_retitle_retitle]
      | some node =>
          rw [(DocumentPart.title?_of_score? hscore).1]
          simp [List.modifyLast_concat, modifyLast_retitle_none]

theorem diagnostics_foldl_read (a : Analysis τ) (parts : List DocumentPart) :
    (parts.foldl (DocumentPart.read settings) a).diagnostics =
      a.diagnostics ++ documentDiagnostics τ settings (!a.document.scores.isEmpty) parts := by
  induction parts generalizing a with
  | nil => simp [documentDiagnostics]
  | cons part rest ih =>
      have hscored : (!(part.read settings a).document.scores.isEmpty) =
          (!a.document.scores.isEmpty || part.score?.isSome) := by
        rw [(part.adds_read settings a).scores]
        cases part.score? <;> simp [isEmpty_modifyLast_retitle]
      rw [List.foldl_cons, ih, hscored, (part.adds_read settings a).diagnostics,
        documentDiagnostics, List.append_assoc]

theorem Score.isAlone_retitle {titled : Node × Option String}
    (h : titled.1.kind = .element .score) :
    Score.IsAlone settings
      ((analyseScore settings titled.1.children).score.retitle titled.2 : Score τ) titled := by
  obtain ⟨node, title⟩ := titled
  cases node with
  | atom kind text position => simp [Node.kind] at h
  | element name children position =>
      obtain rfl : name = .score := by simpa [Node.kind] using h
      exact ⟨_, _, rfl, rfl, rfl⟩

theorem exists_part_of_mem_titledScores {parts : List DocumentPart}
    {titled : Node × Option String} (h : titled ∈ titledScores parts) :
    ∃ part ∈ parts, part.score? = some titled.1 := by
  induction parts with
  | nil => simp [titledScores] at h
  | cons part rest ih =>
      rcases List.mem_append.mp h with h | h
      · obtain ⟨node, hnode, rfl⟩ := Option.map_eq_some_iff.mp (Option.mem_toList.mp h)
        exact ⟨part, List.mem_cons_self, hnode⟩
      · obtain ⟨part', hmem, hscore⟩ := ih h
        exact ⟨part', List.mem_cons_of_mem _ hmem, hscore⟩

/-- The scores of a document are those that its elements are alone, and its problems are theirs and
those of the other parts. -/
theorem analyse_document (children : List Node) (position : Position) :
    ∃ analysis : Analysis τ,
      analyse settings (.element .document children position) = .ok analysis ∧
      List.Forall₂ (Score.IsAlone settings) analysis.document.scores
        (titledScores (documentParts children)) ∧
      analysis.diagnostics = documentDiagnostics τ settings false (documentParts children) := by
  refine ⟨_, rfl, ?_, ?_⟩
  · rw [foldl_read_children, scores_foldl_read]
    show List.Forall₂ _ (List.map _ _) _
    rw [List.forall₂_map_left_iff, List.forall₂_same]
    intro titled h
    obtain ⟨part, -, hpart⟩ := exists_part_of_mem_titledScores h
    exact Score.isAlone_retitle settings (DocumentPart.title?_of_score? hpart).2
  · rw [foldl_read_children, diagnostics_foldl_read]
    rfl

/-! ## Trees -/

/-- The parts of a document. A tree of another kind is a part of its own. -/
def Node.parts : Node → List DocumentPart
  | .element .document children _ => documentParts children
  | tree => [.item tree]

/-- The scores of a tree, in the order of the text. -/
def Node.scoreElements (tree : Node) : List Node := tree.parts.filterMap DocumentPart.score?

theorem map_fst_titledScores (parts : List DocumentPart) :
    (titledScores parts).map Prod.fst = parts.filterMap DocumentPart.score? := by
  induction parts with
  | nil => rfl
  | cons part rest ih =>
      rw [titledScores, List.map_append, ih]
      cases h : part.score? with
      | none => rw [List.filterMap_cons_none h]; rfl
      | some node => rw [List.filterMap_cons_some h]; rfl

/-- What is analysed is what its parts are. -/
theorem analyse_parts {settings : Settings} {tree : Node} {analysis : Analysis τ}
    (h : analyse settings tree = .ok analysis) :
    analysis.document.scores = (titledScores tree.parts).map (fun titled =>
      (analyseScore settings titled.1.children).score.retitle titled.2) ∧
    analysis.diagnostics = documentDiagnostics τ settings false tree.parts := by
  unfold analyse analyse? at h
  split at h
  · next analysis' ha =>
    obtain rfl := Except.ok.inj h
    split at ha
    · next children position =>
      obtain rfl := Option.some.inj ha
      rw [foldl_read_children, scores_foldl_read, diagnostics_foldl_read]
      exact ⟨rfl, rfl⟩
    · next children position =>
      obtain rfl := Option.some.inj ha
      exact ⟨rfl, (List.append_nil _).symm⟩
    · cases ha
  · cases h

/-- What holds of the analysis of each score, titled or not, holds of the scores of a document. -/
theorem forall₂_scores_of_analyse {settings : Settings} {tree : Node} {analysis : Analysis τ}
    (h : analyse settings tree = .ok analysis) {P : Score τ → Node → Prop}
    (hP : ∀ titled ∈ titledScores tree.parts,
      P ((analyseScore settings titled.1.children).score.retitle titled.2) titled.1) :
    List.Forall₂ P analysis.document.scores tree.scoreElements := by
  rwa [(analyse_parts h).1, Node.scoreElements, ← map_fst_titledScores, List.forall₂_map_left_iff,
    List.forall₂_map_right_iff, List.forall₂_same]

theorem analyse_of_compile {settings : Settings} {source : String} {analysis : Analysis τ}
    (h : compile settings source = .ok analysis) :
    ∃ tree, parse source = .ok tree ∧ analyse settings tree = .ok analysis := by
  unfold compile at h
  split at h
  · next tree htree => exact ⟨tree, htree, h⟩
  · cases h

/-! ## Texts by their characters -/

/-- The tree of the text that has some characters. -/
def parseCharacters (chars : List Char) : Except ParseError Node :=
  (chars.foldl Scanner.step .initial).finish.bind parseTokens

omit [TimeValue τ] in
theorem parse_ofList (chars : List Char) : parse (String.ofList chars) = parseCharacters chars := by
  rw [parse, scan, String.toList_ofList]
  rfl

/-- What a text compiles to can be evaluated from its characters. Taking them out of the text again
would be most of the work. -/
theorem exists_compile_of_characters {settings : Settings} {source : String} {chars : List Char}
    (hsource : source = String.ofList chars) {P : Analysis τ → Prop} [DecidablePred P]
    (h : ((parseCharacters chars).toOption.bind (analyse? settings)).any (decide <| P ·) = true) :
    ∃ analysis, compile settings source = .ok analysis ∧ P analysis := by
  rw [compile, hsource, parse_ofList]
  cases htree : parseCharacters chars with
  | error e => simp [htree, Except.toOption] at h
  | ok tree =>
      cases hanalysis : (analyse? settings tree : Option (Analysis τ)) with
      | none => simp [htree, Except.toOption, hanalysis] at h
      | some analysis =>
          refine ⟨analysis, by simp [analyse, hanalysis], ?_⟩
          simpa [htree, Except.toOption, hanalysis] using h

/-! ## Where scores are -/

omit [TimeValue τ] in
theorem isWithin_of_mem_titledScores {children : List Node} {position : Position}
    {titled : Node × Option String} (h : titled ∈ titledScores (documentParts children)) :
    titled.1.IsWithin (.element .document children position) := by
  obtain ⟨part, hpart, hscore⟩ := exists_part_of_mem_titledScores h
  obtain ⟨child, hchild, hpart⟩ := List.mem_flatMap.mp hpart
  unfold DocumentPart.ofChild at hpart
  split at hpart
  · obtain ⟨node, hnode, rfl⟩ := List.mem_map.mp hpart
    obtain rfl := DocumentPart.item.inj (DocumentPart.eq_item_of_score? hscore).1
    exact .child hchild (.child hnode .here)
  · obtain rfl := List.mem_singleton.mp hpart
    simp [DocumentPart.score?] at hscore
  · obtain rfl := List.mem_singleton.mp hpart
    simp [DocumentPart.score?] at hscore

/-- Each score of a document is that of an element in its tree, up to the title. -/
theorem exists_element_of_analyse {settings : Settings} {tree : Node} {analysis : Analysis τ}
    (h : analyse settings tree = .ok analysis) {score : Score τ}
    (hs : score ∈ analysis.document.scores) :
    ∃ (node : Node) (title : Option String), node.IsWithin tree ∧
      score = (analyseScore settings node.children).score.retitle title := by
  unfold analyse analyse? at h
  split at h
  · next analysis' ha =>
    obtain rfl := Except.ok.inj h
    split at ha
    · next children position =>
      obtain rfl := Option.some.inj ha
      rw [foldl_read_children, scores_foldl_read] at hs
      replace hs : score ∈ (titledScores (documentParts children)).map _ := hs
      obtain ⟨titled, hmem, rfl⟩ := List.mem_map.mp hs
      exact ⟨_, _, isWithin_of_mem_titledScores hmem, rfl⟩
    · next children position =>
      obtain rfl := Option.some.inj ha
      obtain rfl : score = (analyseScore settings children).score := List.mem_singleton.mp hs
      exact ⟨_, none, .here, rfl⟩
    · cases ha
  · cases h

end ScorePlayback
