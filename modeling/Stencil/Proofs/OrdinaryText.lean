import Stencil.Proofs.Replay
import Stencil.Proofs.WrittenRun

/-!
# Ordinary text

A source without tags, told from its characters alone: behind no indicator that is not escaped there
is an argument list, the colon of a block, or the name of an end tag. Names of other tags, their
colons, lone indicators and lone backslashes may stand in it. Such a source is one piece of raw
text, and what is rendered is the source without its escapes.
-/

namespace Stencil

open TagSite (closedName? markFollows)

namespace Source

/-- A source with its escapes resolved, from left to right. -/
def unescape (indicator : Char) : List Char → List Char
  | c :: d :: rest =>
    if c = '\\' ∧ (d = indicator ∨ d = '\\') then d :: unescape indicator rest
    else c :: unescape indicator (d :: rest)
  | rest => rest

/-- What stands behind the indicators of a source that are not escaped. -/
def behindIndicators (indicator : Char) : List Char → List (List Char)
  | c :: d :: rest =>
    if c = '\\' ∧ (d = indicator ∨ d = '\\') then behindIndicators indicator rest
    else if c = indicator then (d :: rest) :: behindIndicators indicator (d :: rest)
    else behindIndicators indicator (d :: rest)
  | _ => []

/-- The names of the tags that end a definition, the body of an encoder tag, or a block. -/
def IsEndTag (entities : Entities) (name : String) : Prop :=
  ∃ closed, name = "end" ++ closed ∧
    (closed = "define" ∨ closed = "raw" ∨ (entities.block? closed).isSome = true)

/-- The name of a tag that stays text in front of the rest. -/
structure StaysText (entities : Entities) (name rest : List Char) : Prop where
  call : rest.head? ≠ some '('
  block : rest.head? = some ':' → entities.block? (String.ofList name) = none
  closes : ¬IsEndTag entities (String.ofList name)

/-- A text that stays text behind an indicator. -/
structure NoTag (entities : Entities) (behind : List Char) : Prop where
  anonymous : behind.head? ≠ some '('
  named : behind.head?.any Text.isNameStart = true →
    StaysText entities (behind.takeWhile Text.isNameChar) (behind.dropWhile Text.isNameChar)

/-- A source with nothing but text in it. -/
def Ordinary (entities : Entities) (indicator : Char) (source : List Char) : Prop :=
  ∀ behind ∈ behindIndicators indicator source, NoTag entities behind

variable {indicator : Char} {front rest : List Char}

theorem unescape_cons {c : Char} (plain : c ≠ '\\') :
    unescape indicator (c :: rest) = c :: unescape indicator rest := by
  cases rest with
  | nil => rfl
  | cons d rest => rw [unescape, if_neg fun pair => plain pair.1]

theorem behindIndicators_subset {c : Char} (plain : c ≠ '\\') :
    behindIndicators indicator rest ⊆ behindIndicators indicator (c :: rest) := by
  cases rest with
  | nil => exact List.nil_subset _
  | cons d rest =>
    have first : behindIndicators indicator (c :: d :: rest) =
        if c = indicator then (d :: rest) :: behindIndicators indicator (d :: rest)
        else behindIndicators indicator (d :: rest) := if_neg fun pair => plain pair.1
    rw [first]
    split
    · exact List.subset_cons_self _ _
    · exact List.Subset.refl _

theorem unescape_append (plain : ∀ c ∈ front, c ≠ '\\') :
    unescape indicator (front ++ rest) = front ++ unescape indicator rest := by
  induction front with
  | nil => rfl
  | cons c front ih =>
    rw [List.cons_append, unescape_cons (plain c List.mem_cons_self),
      ih fun d inside => plain d (List.mem_cons_of_mem _ inside), List.cons_append]

theorem behindIndicators_subset_append (plain : ∀ c ∈ front, c ≠ '\\') :
    behindIndicators indicator rest ⊆ behindIndicators indicator (front ++ rest) := by
  induction front with
  | nil => exact List.Subset.refl _
  | cons c front ih =>
    exact List.Subset.trans (ih fun d inside => plain d (List.mem_cons_of_mem _ inside))
      (behindIndicators_subset (plain c List.mem_cons_self))

/-- A text with its backslashes and indicators escaped is ordinary, -/
theorem behindIndicators_escaped (text : List Char) :
    behindIndicators indicator (text.flatMap (escapedChar indicator)) = [] := by
  induction text with
  | nil => rfl
  | cons c text ih =>
    rw [List.flatMap_cons]
    by_cases special : c = '\\' ∨ c = indicator
    · rw [escapedChar, if_pos special, List.cons_append, List.singleton_append, behindIndicators,
        if_pos ⟨rfl, special.symm⟩, ih]
    · have other := not_or.mp special
      rw [escapedChar, if_neg special, List.singleton_append]
      cases more : text.flatMap (escapedChar indicator) with
      | nil => rfl
      | cons d more' =>
        rw [behindIndicators, if_neg fun pair => other.1 pair.1, if_neg other.2, ← more, ih]

/-- and comes back without its escapes. -/
theorem unescape_escaped (text : List Char) :
    unescape indicator (text.flatMap (escapedChar indicator)) = text := by
  induction text with
  | nil => rfl
  | cons c text ih =>
    rw [List.flatMap_cons]
    by_cases special : c = '\\' ∨ c = indicator
    · rw [escapedChar, if_pos special, List.cons_append, List.singleton_append, unescape,
        if_pos ⟨rfl, special.symm⟩, ih]
    · rw [escapedChar, if_neg special, List.singleton_append,
        unescape_cons (not_or.mp special).1, ih]

end Source

open Source

namespace Token

variable {indicator : Char}

/-- Where raw text ends: at the end, or in front of a tag. -/
def EndsRaw (indicator : Char) (rest : List Char) : Prop :=
  rest = [] ∨ ∃ c more, rest = indicator :: c :: more ∧ opensTag c = true

/-- Raw text is what stands there without its escapes. -/
theorem scanRaw_unescape (indicator : Char) (source : List Char) (here : Text.Location) :
    unescape indicator source = (scanRaw indicator source here).1 ++
        unescape indicator (scanRaw indicator source here).2.rest ∧
      behindIndicators indicator (scanRaw indicator source here).2.rest ⊆
        behindIndicators indicator source ∧
      EndsRaw indicator (scanRaw indicator source here).2.rest := by
  fun_induction scanRaw indicator source here with
  | case1 => exact ⟨rfl, List.Subset.refl _, .inl rfl⟩
  | case2 => exact ⟨rfl, List.Subset.refl _, .inl rfl⟩
  | case3 place c d rest pair text cursor eq ih =>
    obtain ⟨resolved, fewer, ends⟩ := ih
    rw [eq] at resolved fewer ends
    refine ⟨?_, ?_, ends⟩
    · rw [unescape, if_pos pair, resolved]
      rfl
    · rw [behindIndicators, if_pos pair]
      exact fewer
  | case4 place c d rest notPair starts =>
    obtain ⟨rfl, opens⟩ := starts
    exact ⟨rfl, List.Subset.refl _, .inr ⟨_, _, rfl, opens⟩⟩
  | case5 place c d rest notPair notTag text cursor eq ih =>
    obtain ⟨resolved, fewer, ends⟩ := ih
    rw [eq] at resolved fewer ends
    refine ⟨?_, ?_, ends⟩
    · rw [unescape, if_neg notPair, resolved]
      rfl
    · rw [behindIndicators, if_neg notPair]
      split
      · exact List.subset_cons_of_subset _ fewer
      · exact fewer

/-- No colon of a tag stands at the front of text. -/
theorem markFollows_of_scanText {cursor : Cursor} {lexemes : List Lexeme}
    (h : scanText indicator cursor = .ok lexemes) : markFollows lexemes = false := by
  rw [scanText_eq] at h
  split at h
  · cases h
    unfold rawLexeme
    split <;> rfl
  · generalize scanTail indicator _ = tail at h
    cases tail with
    | error e => cases h
    | ok more =>
      cases h
      unfold rawLexeme
      split <;> rfl

end Token

theorem TagSite.eq_of_closedName? {tag closed : String} (h : closedName? tag = some closed) :
    tag = "end" ++ closed := by
  unfold closedName? at h
  split at h
  · rename_i c rest eq
    cases h
    rw [← String.toList_inj, eq, String.toList_append, String.toList_ofList, String.toList_ofList]
    rfl
  · cases h

namespace TagSite

variable {site : TagSite} {d : Draft} {tokens : List Lexeme}

/-- A name without arguments and without the colon of a block is text. -/
theorem readNamed_bare (noArguments : parenFollows tokens = false)
    (noBody : markFollows tokens = true → site.entities.block? site.tag = none) :
    site.readNamed d tokens =
      .ok (d.addRaw (String.ofList [site.indicator] ++ site.tag), ⟨tokens, Nat.le_refl _⟩) := by
  unfold readNamed
  rw [noArguments]
  dsimp only
  cases colon : markFollows tokens with
  | false => cases site.entities.block? site.tag <;> rfl
  | true => rw [noBody colon]; rfl

/-- The name of a tag that stays text, outside of all scopes. -/
theorem read_bare (named : site.tag.isEmpty = false) (outside : d.opened = [])
    (noArguments : parenFollows tokens = false)
    (noBody : markFollows tokens = true → site.entities.block? site.tag = none)
    (closes : ¬IsEndTag site.entities site.tag) :
    site.read d tokens =
      .ok (d.addRaw (String.ofList [site.indicator] ++ site.tag), ⟨tokens, Nat.le_refl _⟩) := by
  have bare := site.readNamed_bare (d := d) noArguments noBody
  unfold read
  rw [named, noArguments]
  cases ends : closedName? site.tag with
  | none => exact bare
  | some closed =>
    have unknown : ¬(closed = "define" ∨ closed = "raw" ∨
        (site.entities.block? closed).isSome = true) := fun known =>
      closes ⟨closed, eq_of_closedName? ends, known⟩
    have text : site.close? d closed = .ok none := by
      simp only [not_or] at unknown
      simp [close?, outside, unknown]
    simp only [Bool.false_eq_true, if_false, text]
    exact bare

end TagSite

namespace Draft

variable {entities : Entities} {indicator : Char}

/-- Tokens that add a text to a draft, outside of all scopes. -/
def Adds (entities : Entities) (indicator : Char) (text : List Char) (tokens : List Lexeme) :
    Prop :=
  ∀ d tag, d.opened = [] →
    read entities indicator d tag tokens = .ok (d.addRaw (String.ofList text))

theorem Adds.behindRaw {text more : List Char} {tokens : List Lexeme}
    (h : Adds entities indicator more tokens) (place : Text.Location) :
    Adds entities indicator (text ++ more) (Token.rawLexeme text place ++ tokens) := by
  intro d tag outside
  rw [read_rawLexeme, h _ tag ((opened_addRaw d _).trans outside), addRaw_addRaw,
    String.ofList_append]

theorem Adds.behindMark {text : List Char} {tokens : List Lexeme}
    (h : Adds entities indicator text tokens) (place : Text.Location) :
    Adds entities indicator (':' :: text) (⟨.blockMark, place⟩ :: tokens) := by
  intro d tag outside
  have colon : ":" ++ String.ofList text = String.ofList (':' :: text) :=
    String.ofList_append.symm
  rw [read_mark, h _ tag ((opened_addRaw d _).trans outside), addRaw_addRaw, colon]

/-- The name of a tag that stays text, and what follows. -/
theorem Adds.behindName {name rest text : List Char} {tokens : List Lexeme} (nonempty : name ≠ [])
    (stays : StaysText entities name rest) (h : Adds entities indicator text tokens)
    (noArguments : parenFollows tokens = false)
    (colon : markFollows tokens = true → rest.head? = some ':') (place : Text.Location) :
    Adds entities indicator (indicator :: (name ++ text))
      (⟨.tag (String.ofList name), place⟩ :: tokens) := by
  intro d tag outside
  have named : (String.ofList name).isEmpty = false := by
    simpa [String.ofList_eq_empty_iff] using nonempty
  have whole : String.ofList [indicator] ++ String.ofList name ++ String.ofList text =
      String.ofList (indicator :: (name ++ text)) := by
    rw [← String.ofList_append, ← String.ofList_append]
    rfl
  have bare : TagSite.read { entities, indicator, tag := String.ofList name, location := place } d
      tokens = .ok (d.addRaw (String.ofList [indicator] ++ String.ofList name),
        ⟨tokens, Nat.le_refl _⟩) :=
    TagSite.read_bare named outside noArguments (fun mark => stays.block (colon mark)) stays.closes
  rw [read_tag bare, h _ _ ((opened_addRaw d _).trans outside), addRaw_addRaw, whole]

/-- Ordinary text that is scanned to tokens which add it. -/
def AddsOrdinary (entities : Entities) (indicator : Char) (source : List Char) : Prop :=
  Ordinary entities indicator source → ∀ here, ∃ tokens,
    Token.scanText indicator ⟨source, here⟩ = .ok tokens ∧
      Adds entities indicator (unescape indicator source) tokens

theorem adds_nil : Adds entities indicator [] [] := by
  intro d tag _
  rw [read]
  rfl

/-- What follows the name of a tag that stays text. -/
theorem adds_behindName {rest : List Char} (call : rest.head? ≠ some '(')
    (ordinary : Ordinary entities indicator rest)
    (ih : ∀ source, source.length ≤ rest.length → AddsOrdinary entities indicator source)
    (here : Text.Location) :
    ∃ tokens, Token.scanTail indicator ⟨rest, here⟩ = .ok tokens ∧
      Adds entities indicator (unescape indicator rest) tokens ∧ parenFollows tokens = false ∧
      (markFollows tokens = true → rest.head? = some ':') := by
  cases rest with
  | nil => exact ⟨[], rfl, adds_nil, rfl, by rintro ⟨⟩⟩
  | cons c rest =>
    have paren : c ≠ '(' := fun eq => call (congrArg some eq)
    by_cases colon : c = ':'
    · subst colon
      have inside : Ordinary entities indicator rest := fun behind mem =>
        ordinary behind (behindIndicators_subset (by decide) mem)
      obtain ⟨tokens, scanned, adds⟩ := ih rest (Nat.le_succ _) inside (here.next ':')
      refine ⟨_, by rw [Token.scanTail_mark, scanned]; rfl, ?_, rfl, fun _ => rfl⟩
      rw [unescape_cons (by decide)]
      exact adds.behindMark here
    · obtain ⟨tokens, scanned, adds⟩ := ih (c :: rest) (Nat.le_refl _) ordinary here
      refine ⟨tokens, ?_, adds, Token.parenFollows_of_scanText scanned, fun mark => ?_⟩
      · rw [Token.scanTail, if_neg paren, if_neg colon, scanned]
      · rw [Token.markFollows_of_scanText scanned] at mark
        cases mark

theorem ne_backslash_of_isNameChar {c : Char} (h : Text.isNameChar c = true) : c ≠ '\\' := by
  rintro rfl
  revert h
  decide

/-- Ordinary text is read as raw text. The induction is on its length: it goes on behind the name of
a tag, or behind the colon there. -/
theorem adds_ordinary (allowed : IndicatorAllowed indicator) (source : List Char) :
    AddsOrdinary entities indicator source := by
  induction size : source.length using Nat.strong_induction_on generalizing source with
  | _ size ih =>
  subst size
  intro ordinary here
  obtain ⟨resolved, fewer, ends⟩ := Token.scanRaw_unescape indicator source here
  have shorter := Token.scanRaw_rest_length_le indicator source here
  rw [Token.scanText_eq, resolved]
  dsimp only
  cases scanned : Token.scanRaw indicator source here with | mk text cursor
  obtain ⟨behind, place⟩ := cursor
  rw [scanned] at fewer ends shorter
  dsimp only at fewer ends shorter ⊢
  rcases ends with rfl | ⟨c, more, rfl, opens⟩
  · refine ⟨_, rfl, ?_⟩
    simpa [unescape] using adds_nil.behindRaw here
  have notPair : ¬(indicator = '\\' ∧ (c = indicator ∨ c = '\\')) := fun pair =>
    allowed.backslash pair.1
  have mem : c :: more ∈ behindIndicators indicator (indicator :: c :: more) := by
    rw [behindIndicators, if_neg notPair, if_pos rfl]
    exact List.mem_cons_self
  have noTag := ordinary _ (fewer mem)
  have start : Text.isNameStart c = true := by
    have paren : c ≠ '(' := fun eq => noTag.anonymous (congrArg some eq)
    simpa [Token.opensTag, paren] using opens
  have stays := noTag.named (by simpa using start)
  have nonempty : (c :: more).takeWhile Text.isNameChar ≠ [] := by
    rw [List.takeWhile_cons, if_pos (Text.isNameChar_of_isNameStart start)]
    exact List.cons_ne_nil _ _
  have plain : ∀ c' ∈ indicator :: (c :: more).takeWhile Text.isNameChar, c' ≠ '\\' := by
    rintro c' (_ | ⟨_, inside⟩)
    · exact allowed.backslash
    · exact ne_backslash_of_isNameChar (List.mem_takeWhile_imp inside)
  have parts := List.takeWhile_append_dropWhile (p := Text.isNameChar) (l := c :: more)
  dsimp only [Cursor.span]
  generalize (c :: more).takeWhile Text.isNameChar = name at parts stays nonempty plain ⊢
  generalize (c :: more).dropWhile Text.isNameChar = rest at parts stays ⊢
  rw [← parts, ← List.cons_append] at fewer
  rw [← parts] at shorter
  have fits : rest.length < source.length := by
    rw [List.length_cons, List.length_append] at shorter
    omega
  have inside : Ordinary entities indicator rest := fun behind mem =>
    ordinary behind (fewer (behindIndicators_subset_append plain mem))
  obtain ⟨tokens, tail, adds, noArguments, colon⟩ := adds_behindName stays.call inside
    (fun source le => ih source.length (Nat.lt_of_le_of_lt le fits) source rfl) _
  refine ⟨_, by rw [tail]; rfl, ?_⟩
  have whole : unescape indicator (indicator :: c :: more) =
      indicator :: (name ++ unescape indicator rest) := by
    rw [← parts, ← List.cons_append, unescape_append plain, List.cons_append]
  rw [whole]
  simpa using (adds.behindName nonempty stays noArguments colon place).behindRaw here

end Draft

/-- The nodes of a text: one, or none. -/
def Node.ofText (text : String) : List Node := if text.isEmpty then [] else [.raw text]

theorem Node.length_ofText_le (text : String) : (Node.ofText text).length ≤ 1 := by
  unfold Node.ofText
  split
  · exact Nat.zero_le _
  · exact Nat.le_refl _

theorem Draft.tables_addRaw_start (text : String) :
    (({} : Draft).addRaw text).tables = [Node.ofText text] := by
  unfold Draft.addRaw Node.ofText
  split <;> rfl

namespace Template

variable {entities : Entities} {config : Config}

/-- An ordinary source is a template of one table with its text. -/
theorem parse_ordinary (admitted : Config.admitsIndicator config.indicator = true)
    {source : String} (ordinary : Ordinary entities config.indicator source.toList)
    (name : String) :
    ∃ t, parse entities config name source = .ok t ∧
      t.tables = [Node.ofText (String.ofList (unescape config.indicator source.toList))] := by
  have allowed := (Config.tagStart_of_admits admitted).toIndicatorAllowed
  obtain ⟨tokens, scanned, adds⟩ := Draft.adds_ordinary allowed source.toList ordinary {}
  have read := adds {} "" rfl
  refine ⟨Draft.finish _ name config.indicator, ?_, Draft.tables_addRaw_start _⟩
  have closed (text : String) : (({} : Draft).addRaw text).unclosed? = none := by
    rw [Draft.unclosed?, Draft.opened_addRaw]
    rfl
  rw [parse, Token.scan, Cursor.start, scanned]
  dsimp only
  rw [ofTokens, read]
  dsimp only
  rw [closed]
  rfl

end Template

namespace Rendering

theorem fatal?_of_clean (r : Rendering) (s : RenderState) (clean : s.errors = []) :
    r.fatal? s = none := by
  unfold fatal?
  rw [clean]
  cases r.config.strict <;> cases r.config.errorsAreFatal <;> rfl

/-- A template with nothing but a text is rendered as the text. -/
theorem render_ofText {t : Template} {text : String} (tables : t.tables = [Node.ofText text])
    (context : Context) (config : Config) (encoder : Encoder) :
    render ⟨t, context, config⟩ encoder = .ok text := by
  have table : t.table 0 = Node.ofText text := by
    rw [Template.table, tables]
    rfl
  have walked : walk ⟨t, context, config⟩ encoder =
      (RenderState.openFrame {} []).writeRaw text := by
    unfold walk
    rw [table, Node.ofText]
    split
    · rename_i empty
      rw [String.isEmpty_iff.mp empty, walkNodes]
      rfl
    · rw [walkNodes, walkNodes]
      · rfl
      all_goals simp
  have written : (Output.writeRaw {} text).text = text := by
    rw [Output.text_writeRaw rfl]
    exact String.empty_append
  unfold render
  rw [walked]
  dsimp only
  rw [fatal?_of_clean _ _ rfl]
  exact congrArg Except.ok written

end Rendering

namespace Template

/-- Ordinary text is rendered as it stands, but for its escapes. With every admitted indicator and
whatever is registered, a source in which nothing is read as a tag is a template of at most one
node, and renders in every context to the source without its escapes; and every text, once its
backslashes and indicators are escaped, comes back. -/
theorem text_passes_through (entities : Entities) (config : Config)
    (admitted : Config.admitsIndicator config.indicator = true) (name : String) :
    (∀ source : String, Ordinary entities config.indicator source.toList →
      ∃ t, parse entities config name source = .ok t ∧
        (∃ nodes, t.tables = [nodes] ∧ nodes.length ≤ 1) ∧
        ∀ context encoder, Rendering.render ⟨t, context, config⟩ encoder =
          .ok (String.ofList (unescape config.indicator source.toList))) ∧
    ∀ text : String,
      ∃ t, parse entities config name
          (String.ofList (text.toList.flatMap (escapedChar config.indicator))) = .ok t ∧
        ∀ context encoder, Rendering.render ⟨t, context, config⟩ encoder = .ok text := by
  refine ⟨fun source ordinary => ?_, fun text => ?_⟩
  · obtain ⟨t, parsed, tables⟩ := parse_ordinary admitted ordinary name
    exact ⟨t, parsed, ⟨_, tables, Node.length_ofText_le _⟩, fun context encoder =>
      Rendering.render_ofText tables context config encoder⟩
  · have ordinary : Ordinary entities config.indicator
        (String.ofList (text.toList.flatMap (escapedChar config.indicator))).toList := by
      rw [String.toList_ofList]
      intro behind mem
      rw [behindIndicators_escaped] at mem
      cases mem
    obtain ⟨t, parsed, tables⟩ := parse_ordinary admitted ordinary name
    rw [String.toList_ofList, unescape_escaped, String.ofList_toList] at tables
    exact ⟨t, parsed, fun context encoder =>
      Rendering.render_ofText tables context config encoder⟩

/-- Names without arguments, an escape and a lone indicator. -/
theorem text_passes_through_line :
    Config.admitsIndicator '#' = true ∧
      Ordinary .core '#' "1: #if, #one:\\# #".toList ∧
      ∃ t, parse .core {} "page" "1: #if, #one:\\# #" = .ok t ∧
        Rendering.render ⟨t, {}, {}⟩ .identity = .ok "1: #if, #one:# #" := by
  have ordinary : Ordinary .core '#' "1: #if, #one:\\# #".toList := by
    have found : behindIndicators '#' "1: #if, #one:\\# #".toList =
        ["if, #one:\\# #".toList, "one:\\# #".toList] := by decide
    intro behind mem
    rw [found] at mem
    have closes (name : String) (other : name.toList.head? ≠ some 'e') :
        ¬IsEndTag .core name := by
      rintro ⟨closed, rfl, -⟩
      rw [String.toList_append] at other
      exact other rfl
    rcases mem with _ | ⟨_, _ | ⟨_, ⟨⟩⟩⟩
    · exact ⟨by decide, fun _ => ⟨by decide, by decide, closes _ (by decide)⟩⟩
    · exact ⟨by decide, fun _ => ⟨by decide, by decide, closes _ (by decide)⟩⟩
  obtain ⟨t, parsed, -, renders⟩ :=
    (text_passes_through .core {} (by decide) "page").1 "1: #if, #one:\\# #" ordinary
  exact ⟨by decide, ordinary, t, parsed, renders {} .identity⟩

end Template

end Stencil
