import Stencil.Proofs.ParserLoop
import Stencil.Proofs.ReadingOn
import Stencil.Proofs.RetriedArguments

/-!
# The front end ends

The lexer, the parser and folding end on everything they can be given (`front_end_ends`).

The parser goes back to the start of an argument list that is refused, but it reads no list more
than twice, and the first time it comes no further than the second time (`listRounds_strict_le`). So
there are two rounds at most for each token, and one more at the end.
-/

namespace Stencil

section Lists

variable {r : Entities} {tag : String} {mode : FoldMode} {tokens rest : List Lexeme}
  {level : Level} {outer : List Level}

/-- How many rounds the parser is in an argument list, the one included that misses its end. -/
def listRounds (r : Entities) (tag : String) (mode : FoldMode) :
    List Lexeme → Level → List Level → Nat
  | [], _, _ => 1
  | lexeme :: rest, level, outer =>
    match Progress.next r tag mode lexeme.token (parenFollows rest) level outer with
    | .ok (.reading level outer) => listRounds r tag mode rest level outer + 1
    | _ => 1

theorem listRounds_le (r : Entities) (tag : String) (mode : FoldMode) (tokens : List Lexeme)
    (level : Level) (outer : List Level) :
    listRounds r tag mode tokens level outer ≤ tokens.length + 1 := by
  induction tokens generalizing level outer with
  | nil => exact Nat.le_refl 1
  | cons lexeme rest ih =>
    unfold listRounds
    split
    · exact Nat.succ_le_succ (ih _ _)
    · exact Nat.le_add_left 1 _

/-- A list that is read takes a round for each of its tokens. -/
theorem listRounds_of_ok {t : Tuple}
    (h : readLevels r tag mode tokens level outer = .ok (t, rest)) :
    listRounds r tag mode tokens level outer + rest.length = tokens.length := by
  induction tokens generalizing level outer with
  | nil => cases h
  | cons lexeme behind ih =>
    simp only [readLevels] at h
    unfold listRounds
    cases next : Progress.next r tag mode lexeme.token (parenFollows behind) level outer with
    | error fault =>
      rw [next] at h
      cases h
    | ok progress =>
      rw [next] at h
      cases progress with
      | finished t' =>
        cases h
        exact Nat.add_comm 1 _
      | reading level outer =>
        have more := ih h
        simp only [List.length_cons]
        omega

/-- Strict reading comes no further than relaxed reading. -/
theorem listRounds_strict_le (r : Entities) (tag : String) (tokens : List Lexeme) (level : Level)
    (outer : List Level) : listRounds r tag .strict tokens level outer ≤
      listRounds r tag .relaxed tokens level outer := by
  induction tokens generalizing level outer with
  | nil => exact Nat.le_refl 1
  | cons lexeme rest ih =>
    rcases Progress.next_relaxed r tag lexeme.token (parenFollows rest) level outer with
      same | ⟨free, ends, fault, refused⟩
    · simp only [listRounds, same]
      split
      · exact Nat.succ_le_succ (ih _ _)
      · exact Nat.le_refl 1
    · have failed : Progress.next r tag .strict lexeme.token (parenFollows rest) level outer =
          .error (.malformed tag (.fold fault)) :=
        Progress.next_of_refused refused free ends refused.refused
      have one : listRounds r tag .strict (lexeme :: rest) level outer = 1 := by
        simp only [listRounds, failed]
      rw [one]
      unfold listRounds
      split
      · exact Nat.le_add_left 1 _
      · exact Nat.le_refl 1

end Lists

namespace TagSite

variable {site : TagSite} {use : ListUse} {inside : List Lexeme}

/-- The rounds in a list from its start. -/
def useRounds (site : TagSite) (use : ListUse) (inside : List Lexeme) : Nat :=
  listRounds site.entities site.tag use.mode inside { kind := .top } []

theorem useRounds_le (site : TagSite) (use : ListUse) (inside : List Lexeme) :
    site.useRounds use inside ≤ inside.length + 1 :=
  listRounds_le _ _ _ _ _ _

theorem useRounds_of_ok {t : Tuple} {rest : List Lexeme}
    (h : site.readUse use inside = .ok (t, rest)) :
    site.useRounds use inside + rest.length = inside.length :=
  listRounds_of_ok h

theorem useRounds_patterns (site : TagSite) (form : BlockForm) (refused : Fault)
    (inside : List Lexeme) :
    site.useRounds (.block form) inside ≤ site.useRounds (.patterns form refused) inside :=
  listRounds_strict_le _ _ _ _ _

end TagSite

namespace Parser

open Loop (EndsWithin)

variable {entities : Entities} {config : Config} {name : String} {site : TagSite} {d : Draft}
  {use use' : ListUse} {inside tokens : List Lexeme} {bound : Nat}
  {result : Except ParseError Template}

/-- The template that the parser comes to from between the tags. -/
def templateFrom (entities : Entities) (config : Config) (name : String) (d : Draft)
    (tag : String) (tokens : List Lexeme) : Except ParseError Template :=
  (Draft.read entities config.indicator d tag tokens).bind (Draft.complete config name)

/-- The template that the parser comes to from the end of a tag. -/
def templateBehind (entities : Entities) (config : Config) (name : String) (site : TagSite) :
    Except Fault (Draft × List Lexeme) → Except ParseError Template
  | .error fault => .error ⟨site.location, fault⟩
  | .ok (d, rest) => templateFrom entities config name d site.tag rest

theorem ofTokens_eq (entities : Entities) (config : Config) (name : String)
    (tokens : List Lexeme) : Template.ofTokens entities config name tokens =
      templateFrom entities config name {} "" tokens := by
  unfold Template.ofTokens templateFrom
  cases Draft.read entities config.indicator {} "" tokens <;> rfl

theorem templateFrom_tag (d : Draft) (last tag : String) (location : Text.Location)
    (rest : List Lexeme) (site : TagSite)
    (here : site = { entities, indicator := config.indicator, tag, location }) :
    templateFrom entities config name d last (⟨.tag tag, location⟩ :: rest) =
      templateBehind entities config name site ((site.openTag d rest).result site d) := by
  subst here
  rw [← TagSite.forget_read, templateFrom]
  rw [Draft.read]
  cases TagSite.read { entities, indicator := config.indicator, tag, location } d rest with
  | error fault => rfl
  | ok found => rfl

/-- The rounds in a list come before those behind it. -/
theorem endsWithin_list {level : Level} {outer : List Level}
    (h : (parseLoop entities config name).EndsWithin
      (follow site d (site.behindList d inside use
        (readLevels site.entities site.tag use.mode tokens level outer))) bound result) :
    (parseLoop entities config name).EndsWithin
      (.inl (.within site d use inside level outer tokens))
      (bound + listRounds site.entities site.tag use.mode tokens level outer) result := by
  induction tokens generalizing level outer with
  | nil => exact .round h
  | cons lexeme rest ih =>
    simp only [readLevels] at h
    unfold listRounds
    cases next : Progress.next site.entities site.tag use.mode lexeme.token (parenFollows rest)
        level outer with
    | error fault =>
      rw [next] at h
      refine .round ?_
      simp only [parseLoop, next]
      exact h
    | ok progress =>
      rw [next] at h
      cases progress with
      | finished t =>
        refine .round ?_
        simp only [parseLoop, next]
        exact h
      | reading level outer =>
        refine .round ?_
        simp only [parseLoop, next]
        exact ih h

/-- From the start of a list there are its rounds, and those behind it. -/
theorem endsWithin_start (h : (parseLoop entities config name).EndsWithin
      (follow site d (site.behindList d inside use (site.readUse use inside))) bound result) :
    (parseLoop entities config name).EndsWithin (follow site d (.list use inside))
      (bound + site.useRounds use inside) result :=
  endsWithin_list h

theorem length_of_openList (h : site.openList use tokens = .list use' inside) :
    inside.length < tokens.length := by
  unfold TagSite.openList at h
  split at h
  · cases h
    exact Nat.lt_succ_self _
  · cases h

theorem length_of_openDeclaration {constant : Bool}
    (h : site.openDeclaration d constant tokens = .list use inside) :
    inside.length < tokens.length := by
  unfold TagSite.openDeclaration at h
  split at h
  · cases h
  · cases h
    simp only [List.length_cons]
    omega
  · cases h
  · cases h

theorem length_of_openAnonymous (h : site.openAnonymous d tokens = .list use inside) :
    inside.length < tokens.length := by
  unfold TagSite.openAnonymous at h
  split at h
  · have shorter := length_of_openDeclaration h
    simp only [List.length_cons]
    omega
  · have shorter := length_of_openDeclaration h
    simp only [List.length_cons]
    omega
  · exact length_of_openList h

theorem length_of_openOther (h : site.openOther d tokens = .list use inside) :
    inside.length < tokens.length := by
  unfold TagSite.openOther at h
  split at h
  · split at h
    · exact length_of_openList h
    · cases h
  · split at h
    · exact length_of_openList h
    · cases h

theorem length_of_openNamed (h : site.openNamed d tokens = .list use inside) :
    inside.length < tokens.length := by
  unfold TagSite.openNamed at h
  split at h
  · exact length_of_openList h
  · exact length_of_openOther h

/-- The list of a tag starts behind its name, and behind a parenthesis at least. -/
theorem length_of_openTag (h : site.openTag d tokens = .list use inside) :
    inside.length < tokens.length := by
  unfold TagSite.openTag at h
  split at h
  · exact length_of_openAnonymous h
  · split at h
    · exact length_of_openNamed h
    · split at h
      · cases h
      · cases h
      · exact length_of_openNamed h

section Shorter

variable {n : Nat} (shorter : ∀ d tag (tokens : List Lexeme), tokens.length ≤ n →
  (parseLoop entities config name).EndsWithin (.inl (.between d tag tokens))
    (2 * tokens.length + 1) (templateFrom entities config name d tag tokens))

include shorter

/-- A tag that is read to its end. -/
theorem endsWithin_done {read : Except Fault (Draft × List Lexeme)} {few : Nat}
    (behind : ∀ d rest, read = .ok (d, rest) → rest.length ≤ few) (le : few ≤ n) :
    (parseLoop entities config name).EndsWithin (follow site d (.done read)) (2 * few + 1)
      (templateBehind entities config name site read) := by
  rcases read with fault | ⟨d', rest⟩
  · exact .ended _ _ _
  · have fewer := behind d' rest rfl
    exact (shorter d' site.tag rest (fewer.trans le)).mono (by omega)

/-- A list that is read, and the rest of the tokens. -/
theorem endsWithin_take {t : Tuple} {rest : List Lexeme}
    (read : site.readUse use inside = .ok (t, rest)) (le : inside.length ≤ n) :
    (parseLoop entities config name).EndsWithin (follow site d (.list use inside))
      (2 * rest.length + 1 + site.useRounds use inside)
      (templateBehind entities config name site
        ((site.take d t rest use).map TagSite.forget)) := by
  have size := TagSite.useRounds_of_ok read
  refine endsWithin_start ?_
  rw [read]
  refine endsWithin_done shorter (fun d' rest' taken => ?_) (by omega)
  obtain ⟨left, -, eq⟩ := TagSite.of_forget taken
  exact eq ▸ left.2

omit shorter in
/-- A list that is refused for good. -/
theorem endsWithin_refused {fault : Fault} (read : site.readUse use inside = .error fault)
    (turn : site.behindList d inside use (.error fault) = .done (.error fault)) :
    (parseLoop entities config name).EndsWithin (follow site d (.list use inside))
      (0 + site.useRounds use inside)
      (templateBehind entities config name site (.error fault)) := by
  refine endsWithin_start ?_
  rw [read, turn]
  exact .ended _ _ _

/-- A list that is read for the last time leaves rounds enough to have been read before. -/
theorem endsWithin_once (le : inside.length ≤ n)
    (turn : site.behindList d inside use (site.readUse use inside) =
      .done ((TagTurn.list use inside).once site d)) :
    ∃ bound, bound + site.useRounds use inside ≤ 2 * inside.length + 2 ∧
      (parseLoop entities config name).EndsWithin (follow site d (.list use inside)) bound
        (templateBehind entities config name site ((TagTurn.list use inside).once site d)) := by
  rw [TagTurn.once] at turn ⊢
  cases read : site.readUse use inside with
  | ok found =>
    obtain ⟨t, rest⟩ := found
    have size := TagSite.useRounds_of_ok read
    exact ⟨_, by omega, endsWithin_take shorter read le⟩
  | error fault =>
    rw [read] at turn
    have size := site.useRounds_le use inside
    exact ⟨_, by omega, endsWithin_refused read turn⟩

/-- A list, read once more if it has to be. -/
theorem endsWithin_lists (use : ListUse) (le : inside.length ≤ n) :
    (parseLoop entities config name).EndsWithin (follow site d (.list use inside))
      (2 * inside.length + 2)
      (templateBehind entities config name site ((TagTurn.list use inside).result site d)) := by
  rw [TagTurn.result]
  rcases TagTurn.behindList_cases site d use inside with turn | ⟨form, fault, rfl, read, turn⟩
  · obtain ⟨bound, few, ends⟩ := endsWithin_once shorter le turn
    rw [turn]
    exact ends.mono (by omega)
  · -- The second reading leaves the rounds of the first, which came no further.
    obtain ⟨bound, few, ends⟩ := endsWithin_once shorter le
      (TagTurn.behindList_other site d inside (rfl : (ListUse.patterns form fault).isBlock = false))
    have before := site.useRounds_patterns form fault inside
    have again : (parseLoop entities config name).EndsWithin
        (follow site d (.list (.block form) inside))
        (bound + site.useRounds (.block form) inside)
        (templateBehind entities config name site
          ((TagTurn.list (.patterns form fault) inside).once site d)) := by
      refine endsWithin_start ?_
      rw [read, turn]
      exact ends
    rw [read, turn]
    exact again.mono (by omega)

/-- A tag, from behind its name. -/
theorem endsWithin_openTag (site : TagSite) (d : Draft) (le : tokens.length ≤ n) :
    (parseLoop entities config name).EndsWithin (follow site d (site.openTag d tokens))
      (2 * tokens.length + 1)
      (templateBehind entities config name site ((site.openTag d tokens).result site d)) := by
  have same := TagSite.forget_read site d tokens
  cases opened : site.openTag d tokens with
  | done read =>
    rw [opened] at same
    refine endsWithin_done shorter (fun d' rest found => ?_) le
    obtain ⟨left, -, eq⟩ := TagSite.of_forget (same.trans found)
    exact eq ▸ left.2
  | list use inside =>
    have fewer := length_of_openTag opened
    exact (endsWithin_lists shorter use (by omega)).mono (by omega)

end Shorter

/-- From between the tags the parser ends after two rounds for each token, and one more. -/
theorem endsWithin_between (entities : Entities) (config : Config) (name : String) (d : Draft)
    (tag : String) (tokens : List Lexeme) :
    (parseLoop entities config name).EndsWithin (.inl (.between d tag tokens))
      (2 * tokens.length + 1) (templateFrom entities config name d tag tokens) := by
  induction size : tokens.length using Nat.strong_induction_on generalizing d tag tokens with
  | _ n ih =>
    subst size
    rcases tokens with _ | ⟨⟨token, place⟩, rest⟩
    · refine .round ?_
      simp only [parseLoop, templateFrom, Draft.read, Except.bind]
      exact .ended _ _ _
    have shorter (d : Draft) (tag : String) (tokens : List Lexeme)
        (le : tokens.length ≤ rest.length) : (parseLoop entities config name).EndsWithin
        (.inl (.between d tag tokens)) (2 * tokens.length + 1)
        (templateFrom entities config name d tag tokens) :=
      ih _ (Nat.lt_succ_of_le le) d tag tokens rfl
    cases token with
    | raw text =>
      rw [templateFrom, Draft.read_raw, List.length_cons]
      exact (shorter (d.addRaw text) tag rest (Nat.le_refl _)).round.mono (by omega)
    | blockMark =>
      rw [templateFrom, Draft.read_mark, List.length_cons]
      exact (shorter (d.addRaw ":") tag rest (Nat.le_refl _)).round.mono (by omega)
    | tag name' =>
      rw [templateFrom_tag d tag name' place rest _ rfl]
      refine .round ((endsWithin_openTag shorter _ d (Nat.le_refl _)).mono ?_)
      simp only [List.length_cons]
      omega
    | _ =>
      refine .round ?_
      simp only [parseLoop, templateFrom, Draft.read, Except.bind]
      exact .ended _ _ _

end Parser

/-- The lexer, the parser and folding end on everything, and with what the model says.

* The lexer ends on every source. A round that reads no character leaves a tag or its arguments for
  text and changes nothing else; so the round after it reads one.
* The parser ends on all tokens, for all entities and settings, although it goes back to read a list
  once more.
* Folding ends on every row in every mode. Each round that is not the last applies one operator or
  conditional, and the row gets shorter. -/
theorem front_end_ends :
    (∀ indicator source, (Token.lexLoop indicator).EndsWithin (.inl (.start source))
      (2 * source.length + 1) (Token.scan indicator source)) ∧
    (∀ indicator (stand stand' : Token.Stand), Token.lexLoop indicator stand = .inl stand' →
      stand'.cursor.rest.length < stand.cursor.rest.length ∨
      (stand.state = .behindTag ∨ stand.state = .behindArguments) ∧
        stand' = { stand with state := .text }) ∧
    (∀ entities config name tokens, (Parser.parseLoop entities config name).EndsWithin
      (.inl (.between {} "" tokens)) (2 * tokens.length + 1)
      (Template.ofTokens entities config name tokens)) ∧
    (∀ mode row, (Expr.foldLoop mode).EndsWithin (.inl (.given row)) (row.length + 1)
      (Expr.fold mode row)) ∧
    (∀ mode row stand, Expr.foldLoop mode (.folding row) = .inl stand →
      ∃ place e, Redex.next? row = some place ∧ place.items = row ∧
        stand = .folding (place.replace e) ∧ (place.replace e).length < row.length) := by
  refine ⟨Token.scan_endsWithin, fun _ _ _ => Token.progress_of_lexLoop, ?_, Expr.fold_endsWithin,
    fun _ _ _ => Expr.applies_of_foldLoop⟩
  intro entities config name tokens
  rw [Parser.ofTokens_eq]
  exact Parser.endsWithin_between entities config name {} "" tokens

end Stencil
