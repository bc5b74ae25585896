import Mathlib.Data.Bool.AllAny
import Stencil.Engine
import Stencil.Proofs.FormulaReading
import Stencil.Proofs.RereadTags

/-!
# Exact arithmetic

A page that puts out a formula either renders to the decimal text of its exact value, or is refused
while it is read. It renders where every numeral and every intermediate value fits into 64 bits, no
divisor is zero and the least integer is not divided by minus one.
-/

namespace Stencil

namespace Formula

variable {e : Formula .sum} {before behind : Gap}

/-- The source of a page that puts out a formula. -/
def page (before : Gap) (e : Formula .sum) (behind : Gap) : String :=
  "#(" ++ String.ofList (before.1 ++ e.text ++ behind.1) ++ ")"

theorem toList_page (before : Gap) (e : Formula .sum) (behind : Gap) :
    (page before e behind).toList =
      Token.callText '#' [] (before.1 ++ e.text ++ behind.1) ++ [] := by
  simp [page, Token.callText]

theorem indicatorAllowed : IndicatorAllowed '#' := ⟨by decide, by decide, by decide⟩

/-- A page with legible numerals is the formula in an anonymous tag. -/
theorem scan_page (before behind : Gap) (legible : Token.AllLegible e.tokens) :
    ∃ (opening closing : Text.Location) (lexemes : List Lexeme),
      lexemes.map (·.token) = e.tokens ∧
      Token.scan '#' (page before e behind) = .ok (⟨.tag "", {}⟩ :: ⟨.openParen, opening⟩ ::
        (lexemes ++ [⟨.closeParen, closing⟩])) := by
  have written := (Token.written_between before e.written behind).mono fun _ =>
    Token.endsNumber_of_endsOperand
  obtain ⟨opening, closing, lexemes, same, scanned⟩ := Token.scanText_call indicatorAllowed
    (List.forall_mem_nil _) (by rintro _ ⟨⟩) written legible {} []
  refine ⟨opening, closing, lexemes, same, ?_⟩
  unfold Token.scan Cursor.start
  rw [toList_page, scanned]
  rfl

/-- A page with a numeral beyond 64 bits is refused by the lexer. -/
theorem scan_page_error (before behind : Gap) (illegible : ¬Token.AllLegible e.tokens) :
    ∃ error, Token.scan '#' (page before e behind) = .error error := by
  have written := (Token.written_between before e.written behind).mono fun _ =>
    Token.endsNumber_of_endsOperand
  unfold Token.scan Cursor.start
  rw [toList_page]
  exact Token.scanText_refused indicatorAllowed (List.forall_mem_nil _) (by rintro _ ⟨⟩) written
    illegible {} []

/-- As the only argument of a tag, a formula is read as the integer that it computes, or refused. -/
theorem readArguments_formula (legible : Token.AllLegible e.tokens) (r : Entities) (tag : String)
    (mode : FoldMode) {lexemes : List Lexeme} (same : lexemes.map (·.token) = e.tokens)
    (place : Text.Location) :
    (∀ i, e.computed? = some i →
      readArguments r tag mode (lexemes ++ [⟨.closeParen, place⟩]) =
        .ok ([(none, .value (.int i))], [])) ∧
      (e.computed? = none → ∃ fault,
        readArguments r tag mode (lexemes ++ [⟨.closeParen, place⟩]) = .error fault) := by
  have read := reads legible
  cases made : e.row .read with
  | none =>
    rw [made] at read
    rw [computed?_eq_none made]
    constructor
    · rintro _ ⟨⟩
    · intro _
      exact read r tag mode lexemes [⟨.closeParen, place⟩] { kind := .top } [] same rfl rfl rfl
  | some row =>
    rw [made] at read
    have gives : Gives AnyKind e.tokens row := read
    obtain ⟨computes, fails⟩ := fold_row made mode
    constructor
    · intro i computed
      exact readArguments_single gives (computes i computed) same r tag place []
    · intro none
      obtain ⟨error, failed⟩ := fails none
      have nonempty : row ≠ [] := by
        obtain ⟨front, x, rfl, _⟩ := endsValued_row made
        simp
      have unfinished : (Level.grown { kind := .top } row).finish mode = .error (.fold error) :=
        finish_of_fold_error rfl nonempty failed
      refine ⟨.malformed tag (.fold error), ?_⟩
      unfold readArguments
      rw [gives r tag mode lexemes _ { kind := .top } [] same rfl trivial rfl rfl]
      exact readLevels_close_error rfl rfl unfinished

/-- The draft of a page that puts out an integer. -/
def drafted (i : Int64) : Draft := ({} : Draft).push (.output (.value (.int i)))

/-- A page is parsed as the output of the integer that its formula computes, or refused. -/
theorem ofTokens_page (legible : Token.AllLegible e.tokens) (name : String)
    {lexemes : List Lexeme} (same : lexemes.map (·.token) = e.tokens)
    (place opening closing : Text.Location) :
    let tokens : List Lexeme :=
      ⟨.tag "", place⟩ :: ⟨.openParen, opening⟩ :: (lexemes ++ [⟨.closeParen, closing⟩])
    (∀ i, e.computed? = some i →
      Template.ofTokens .core {} name tokens = .ok ((drafted i).finish name '#')) ∧
      (e.computed? = none → ∃ error, Template.ofTokens .core {} name tokens = .error error) := by
  intro tokens
  let site : TagSite := { entities := .core, indicator := '#', tag := "", location := place }
  have plain : ∀ l, (lexemes ++ [(⟨.closeParen, closing⟩ : Lexeme)]).head? = some l →
      ¬TagSite.declares l.token := by
    obtain ⟨token, more, eq, other⟩ := e.tokens_head
    rw [eq] at same
    obtain ⟨l, rest, rfl, first, _⟩ := List.map_eq_cons_iff.mp same
    rintro _ ⟨⟩ declared
    rw [TagSite.declares, first] at declared
    exact declared.elim (other _) (other _)
  have anonymous : site.readAnonymous {} (⟨.openParen, opening⟩ :: _) = _ :=
    TagSite.readAnonymous_of plain
  obtain ⟨computes, fails⟩ := readArguments_formula legible .core "" .assignment same closing
  constructor
  · intro i computed
    obtain ⟨left, single, done⟩ :=
      TagSite.readSingle_of site opening (computes i computed) .notOneAnonymous
    have read : site.read {} (⟨.openParen, opening⟩ :: (lexemes ++ [⟨.closeParen, closing⟩])) =
        .ok (drafted i, left) := by
      show site.readAnonymous {} _ = _
      rw [anonymous, single]
      rfl
    unfold Template.ofTokens
    rw [Draft.read_tag read, done, Draft.read]
    rfl
  · intro none
    obtain ⟨fault, failed⟩ := fails none
    have single := TagSite.readSingle_error site opening failed .notOneAnonymous
    have read : site.read {} (⟨.openParen, opening⟩ :: (lexemes ++ [⟨.closeParen, closing⟩])) =
        .error fault := by
      show site.readAnonymous {} _ = _
      rw [anonymous, single]
      rfl
    refine ⟨⟨place, fault⟩, ?_⟩
    unfold Template.ofTokens
    rw [Draft.read, read]

/-- The template of a page awaits nothing, and renders to the digits of its integer. -/
theorem render_drafted (i : Int64) (templates raws : Entries String) (name : String)
    (context : Context) :
    let engine : Engine := { templates, raws }
    let t := (drafted i).finish name '#'
    engine.resolve t = (t, .ok 0) ∧ engine.render t context = .ok (toString i.toInt) := by
  constructor
  · rfl
  · show Except.ok (String.join [toString i.toInt]) = _
    simp

section Outcomes

variable {templates raws : Entries String} {name : String} {context : Context}

theorem parse_page {tokens : List Lexeme}
    (scanned : Token.scan '#' (page before e behind) = .ok tokens) :
    Engine.parse { templates, raws } name (page before e behind) =
      (Template.ofTokens .core {} name tokens).mapError .parse := by
  show Template.parse .core {} name _ = _
  unfold Template.parse
  rw [show ({} : Config).indicator = '#' from rfl, scanned]

/-- A formula that is computed is rendered. -/
theorem renderSource_of_computed {i : Int64} (legible : Token.AllLegible e.tokens)
    (computed : e.computed? = some i) :
    Engine.renderSource { templates, raws } name (page before e behind) context =
      .ok (toString i.toInt) := by
  obtain ⟨opening, closing, lexemes, same, scanned⟩ :=
    scan_page before behind legible
  have made := (ofTokens_page legible name same {} opening closing).1 i computed
  obtain ⟨resolved, rendered⟩ := render_drafted i templates raws name context
  unfold Engine.renderSource Engine.prepare
  rw [parse_page scanned, made]
  simp only [Except.mapError, resolved]
  exact rendered

/-- A formula that cannot be computed is refused by the parser. -/
theorem renderSource_of_not_computed (legible : Token.AllLegible e.tokens)
    (none : e.computed? = none) : ∃ error,
      Engine.renderSource { templates, raws } name (page before e behind) context =
        .error (.parse error) := by
  obtain ⟨opening, closing, lexemes, same, scanned⟩ :=
    scan_page before behind legible
  obtain ⟨error, failed⟩ := (ofTokens_page legible name same {} opening closing).2 none
  refine ⟨error, ?_⟩
  unfold Engine.renderSource Engine.prepare
  rw [parse_page scanned, failed]
  rfl

/-- A formula with a numeral beyond 64 bits is refused by the lexer. -/
theorem renderSource_of_illegible (illegible : ¬Token.AllLegible e.tokens) : ∃ error,
    Engine.renderSource { templates, raws } name (page before e behind) context =
      .error (.lex error) := by
  obtain ⟨error, failed⟩ := scan_page_error before behind illegible
  refine ⟨error, ?_⟩
  have parsed : Engine.parse { templates, raws } name (page before e behind) =
      .error (.lex error) := by
    show Template.parse .core {} name _ = _
    unfold Template.parse
    rw [show ({} : Config).indicator = '#' from rfl, failed]
  unfold Engine.renderSource Engine.prepare
  rw [parsed]

end Outcomes

/-- Integer arithmetic is exact: a page with a formula renders to the exact value of the formula, or
is refused by the lexer or the parser, and it does render where everything fits. -/
theorem renders_exactly (e : Formula .sum) (before behind : Gap) (templates raws : Entries String)
    (name : String) (context : Context) :
    let outcome := Engine.renderSource { templates, raws } name (page before e behind) context
    ((∃ n, e.value? = some n ∧ outcome = .ok (toString n)) ∨
        (∃ error, outcome = .error (.lex error)) ∨ ∃ error, outcome = .error (.parse error)) ∧
      (e.Fits → ∃ n, e.value? = some n ∧ outcome = .ok (toString n)) := by
  intro outcome
  by_cases legible : Token.AllLegible e.tokens
  · cases computed : e.computed? with
    | some i =>
      have rendered : ∃ n, e.value? = some n ∧ outcome = .ok (toString n) :=
        ⟨i.toInt, exact_of_computed computed, renderSource_of_computed legible computed⟩
      exact ⟨.inl rendered, fun _ => rendered⟩
    | none =>
      refine ⟨.inr (.inr (renderSource_of_not_computed legible computed)), fun fits => ?_⟩
      obtain ⟨i, found⟩ := computed_of_fits fits
      rw [computed] at found
      cases found
  · exact ⟨.inr (.inl (renderSource_of_illegible legible)),
      fun fits => absurd (legible_of_fits fits) legible⟩

/-- The least integer of 64 bits, which no numeral gives, with a quotient and a remainder cut toward
zero on the way. -/
def leastInteger : Formula .sum :=
  let space := Gap.single ' ' rfl
  let digit (c : Char) (h : c.isDigit = true) : Formula .factor := .numeral ⟨c, [], h, by simp⟩
  let greatest : Formula .factor :=
    .numeral ⟨'9', "_223_372_036_854_775_807".toList, rfl, List.all_iff_forall_prop.mp (by decide)⟩
  let difference : Formula .factor := .group .none
    (.shift (.term (.factor (digit '2' rfl))) .none .minus .none (.factor (digit '7' rfl))) space
  let half : Formula .term := .scale (.factor difference) .none .quotient .none (digit '2' rfl)
  let sixfold : Formula .term := .scale half space .times .none (.negative space (digit '3' rfl))
  let rest : Formula .term :=
    .scale sixfold (.single '\t' rfl) .remainder (.single '\n' rfl) (digit '4' rfl)
  .shift (.shift (.term (.factor (digit '1' rfl))) .none .minus .none (.factor greatest)) space
    .minus .none rest

theorem renders_exactly_least : ∃ e : Formula .sum,
    String.ofList e.text = "1-9_223_372_036_854_775_807 -(2-7 )/2 *- 3\t%\n4" ∧ e.Fits ∧
    Engine.renderSource {} "page" (page .none e (.single ' ' rfl)) {} =
      .ok "-9223372036854775808" := by
  have fits : leastInteger.Fits := by decide +kernel
  have value : leastInteger.value? = some (-9223372036854775808) := by decide +kernel
  obtain ⟨n, found, rendered⟩ :=
    (renders_exactly leastInteger .none (.single ' ' rfl) [] [] "page" {}).2 fits
  rw [value] at found
  cases found
  exact ⟨leastInteger, by rfl, fits, rendered⟩

end Formula

end Stencil
