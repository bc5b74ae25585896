import Stencil.Proofs.Lines

/-!
# Reading lines

What the parts of a line do to a draft: raw text is added, an expression is put out, and a tag that
stands alone opens a body, closes one, or changes a variable. The same is done to a draft with
other tables, whatever stands behind.
-/

namespace Stencil

open Text (Location)
open Token (SpellsTag)

theorem parenFollows_append_of_false {tokens behind : List Lexeme}
    (front : parenFollows tokens = false) (tail : parenFollows behind = false) :
    parenFollows (tokens ++ behind) = false := by
  cases tokens with
  | nil => exact tail
  | cons first tokens => rwa [parenFollows_append (List.cons_ne_nil _ _)]

/-- No argument list starts behind one. -/
theorem Token.parenFollows_of_scanClosed {indicator : Char} {cursor : Cursor}
    {tokens : List Lexeme} (h : scanClosed indicator cursor = .ok tokens) :
    parenFollows tokens = false := by
  obtain ⟨rest, here⟩ := cursor
  cases rest with
  | nil =>
    cases h
    rfl
  | cons c rest =>
    simp only [scanClosed] at h
    split at h
    · obtain ⟨more, -, rfl⟩ := ok_of_map h
      rfl
    · exact parenFollows_of_scanText h

namespace Draft

variable {indicator : Char} {d d' : Draft} {tag name : String} {source rest text : List Char}
  {here : Location} {tokens behind : List Lexeme}

/-- Text without indicator and backslash is added to the draft. -/
theorem readBefore_plain (plain : ∀ c ∈ text, c ≠ indicator ∧ c ≠ '\\') (here : Location)
    (rest : List Char) (behind : List Lexeme) :
    readBefore .core indicator d tag ⟨text ++ rest, here⟩ behind =
      readBefore .core indicator (d.addRaw (String.ofList text)) tag ⟨rest, here.after text⟩
        behind := by
  have same : text.flatMap (escapedChar indicator) = text := by
    induction text with
    | nil => rfl
    | cons c text ih =>
      have kept := plain c List.mem_cons_self
      rw [List.flatMap_cons, ih fun c mem => plain c (.tail _ mem), escapedChar,
        if_neg (not_or.mpr ⟨kept.2, kept.1⟩)]
      rfl
  have read : readBefore .core indicator d tag
      ⟨text.flatMap (escapedChar indicator) ++ rest, here⟩ behind = _ :=
    readBefore_text text rest here behind
  rwa [same] at read

section Tags

variable (spells : SpellsTag indicator source name here tokens rest)
  (tail : parenFollows behind = false)
include spells tail

/-- A tag that is read in front of text. -/
theorem readBefore_tag (allowed : IndicatorAllowed indicator)
    (reads : (TagSite.inCore indicator name here).ReadsTo tokens d d') :
    readBefore .core indicator d tag ⟨source ++ rest, here⟩ behind =
      readBefore .core indicator d' name ⟨rest, here.after source⟩ behind := by
  have front {scanned : Except LexError (List Lexeme)}
      (starts : ∀ more, scanned = .ok more → parenFollows more = false) :
      readOn .core indicator d tag
          ((scanned.map fun more => ⟨.tag name, here⟩ :: (tokens ++ more)).map (· ++ behind)) =
        readOn .core indicator d' name (scanned.map (· ++ behind)) := by
    cases scanned with
    | error e => rfl
    | ok more =>
      have stops := parenFollows_append_of_false (starts more rfl) tail
      obtain ⟨left, done, eq⟩ := reads _ stops
      show (read .core indicator d tag _).mapError Failure.parse = _
      dsimp only
      rw [List.cons_append, List.append_assoc, read_tag done, eq]
      rfl
  rw [readBefore]
  cases spells with
  | closed scanned =>
    rw [scanned, front fun _ => Token.parenFollows_of_scanClosed, readBefore_closed allowed]
  | plain scanned =>
    rw [scanned, front fun _ => Token.parenFollows_of_scanText, readBefore]

/-- Where a source is read, so are the tags in it. -/
theorem read_of_readBefore {last : Draft}
    (h : readBefore .core indicator d tag ⟨source ++ rest, here⟩ behind = .ok last) :
    ∃ more d' left, parenFollows more = false ∧
      (TagSite.inCore indicator name here).read d (tokens ++ more) = .ok (d', left) := by
  have front {scanned : Except LexError (List Lexeme)}
      (starts : ∀ more, scanned = .ok more → parenFollows more = false)
      (whole : readOn .core indicator d tag ((scanned.map fun more =>
        ⟨.tag name, here⟩ :: (tokens ++ more)).map (· ++ behind)) = .ok last) :
      ∃ more d' left, parenFollows more = false ∧
        (TagSite.inCore indicator name here).read d (tokens ++ more) = .ok (d', left) := by
    cases scanned with
    | error e => cases whole
    | ok more =>
      have stops := parenFollows_append_of_false (starts more rfl) tail
      have done := ok_of_mapError (f := Failure.parse) whole
      dsimp only at done
      rw [List.cons_append, List.append_assoc, read] at done
      cases result : (TagSite.inCore indicator name here).read d (tokens ++ (more ++ behind)) with
      | error fault =>
        unfold TagSite.inCore at result
        rw [result] at done
        cases done
      | ok found => exact ⟨_, found.1, found.2, stops, result⟩
  rw [readBefore] at h
  cases spells with
  | closed scanned =>
    rw [scanned] at h
    exact front (fun _ => Token.parenFollows_of_scanClosed) h
  | plain scanned =>
    rw [scanned] at h
    exact front (fun _ => Token.parenFollows_of_scanText) h

end Tags

end Draft

theorem isName_of_mem_lineBlocks {name : String} (h : name ∈ lineBlocks) : Text.IsName name := by
  simp only [lineBlocks, List.mem_cons, List.not_mem_nil, or_false] at h
  rcases h with rfl | rfl | rfl | rfl | rfl <;>
    exact Text.isName_of_cons rfl (by decide) (by decide)

theorem block?_of_mem_lineBlocks {name : String} (h : name ∈ lineBlocks) :
    ∃ form, Entities.core.block? name = some form := by
  simp only [lineBlocks, List.mem_cons, List.not_mem_nil, or_false] at h
  rcases h with rfl | rfl | rfl | rfl | rfl <;> exact ⟨_, rfl⟩

/-- Text that does not go on with an end tag in front of it. -/
def EndsTag (rest : List Char) : Prop := ∀ c, rest.head? = some c → extendsTag c = false

/-- A tag in front of text that fits is read in the same way with any tables, and what it does to a
draft is of some kind. -/
structure TagSite.Reading (indicator : Char) (source : List Char) (here : Location)
    (fits : List Char → Prop) (effect : Draft → (List (List Node) → Draft) → Prop) (name : String)
    (tokens : List Lexeme) : Prop where
  spells : ∀ rest, fits rest → SpellsTag indicator source name here tokens rest
  reads : ∀ {d d' more left}, parenFollows more = false →
    (inCore indicator name here).read d (tokens ++ more) = .ok (d', left) →
    ∃ result, effect d result ∧
      ∀ tables, (inCore indicator name here).ReadsTo tokens (d.withTables tables) (result tables)

/-- What a tag that stands alone does to a draft with any tables: it changes a variable, opens a
body, possibly in place of the innermost one, or closes the innermost. -/
inductive LineTag.Effect (d : Draft) : (List (List Node) → Draft) → Prop
  | change {used : Draft} {node : Node} (same : d.SameScopes used)
      (changes : TagSite.changes node = true) :
      Effect d fun tables => (used.withTables tables).push node
  | opens {site : TagSite} {made : BlockInstance} {chain : List String} {closed used : Draft}
      (around : closed = d ∨ closed = d.closeScope ∧ d.opened ≠ [])
      (same : closed.SameScopes used) :
      Effect d fun tables => site.openedBlock made chain (used.withTables tables)
  | closes (inside : d.opened ≠ []) : Effect d fun tables => d.closeScope.withTables tables

/-- What an expression between parentheses does to a draft with any tables: it is put out. -/
inductive LinePart.Effect (d : Draft) : (List (List Node) → Draft) → Prop
  | output {used : Draft} {e : Expr} (same : d.SameScopes used) :
      Effect d fun tables => (used.withTables tables).push (.output e)

section Tags

variable {indicator : Char} (allowed : IndicatorAllowed indicator) (here : Location)
include allowed

theorem LinePart.reading {inside : List Char}
    (formed : (LinePart.expression inside).Formed indicator) : ∃ tokens,
      TagSite.Reading indicator ((LinePart.expression inside).source indicator) here
        (fun _ => True) LinePart.Effect "" tokens := by
  obtain ⟨tokens, list, kind⟩ := (Option.any_eq_true _ _).mp formed
  obtain ⟨lexemes, same, ends, scanned⟩ := Token.scanArguments_of_listTokens? list
    (((here.next indicator).after []).next '(')
  refine ⟨_, fun rest _ => Token.spellsTag_list allowed (by simp) (by simp) scanned rest, ?_⟩
  intro d d' more left _ read
  obtain ⟨node, used, scopes, found, reads⟩ := TagSite.reads_anonymous ends read
  rw [changesVariable_same same] at found
  rcases found with ⟨changes, -⟩ | ⟨-, e, rfl⟩
  · rw [changes] at kind
    cases kind
  · exact ⟨_, .output scopes, reads⟩

theorem LineTag.reading {tag : LineTag} (formed : tag.Formed indicator) : ∃ name tokens,
    TagSite.Reading indicator (tag.source indicator) here EndsTag LineTag.Effect name tokens := by
  cases tag with
  | opener name inside =>
    cases inside with
    | none =>
      obtain ⟨form, known⟩ := block?_of_mem_lineBlocks formed
      refine ⟨_, _, fun rest _ =>
        Token.spellsTag_mark allowed (isName_of_mem_lineBlocks formed) here rest, ?_⟩
      intro d d' more left _ read
      obtain ⟨made, chain, closed, used, around, same, reads⟩ :=
        TagSite.reads_opener known (.inl rfl) (TagSite.readsHead_none _ _ _) read
      exact ⟨_, .opens around same, reads⟩
    | some inside =>
      obtain ⟨known, list⟩ := formed
      obtain ⟨form, block⟩ := block?_of_mem_lineBlocks known
      obtain ⟨tokens, list⟩ := Option.isSome_iff_exists.mp list
      obtain ⟨lexemes, same, ends, scanned⟩ := Token.scanArguments_of_listTokens? list
        (((here.next indicator).after name.toList).next '(')
      have word : name = "" ∨ Text.IsName name := .inr (isName_of_mem_lineBlocks known)
      have spells (rest : List Char) :=
        Token.spellsTag_body allowed (Replays.tag_inside word) (Replays.tag_start word) scanned rest
      rw [String.ofList_toList] at spells
      refine ⟨name, _, fun rest _ => spells rest, ?_⟩
      intro d d' more left _
      have split (mark : Lexeme) (opening : Lexeme) :
          opening :: (lexemes ++ [mark]) ++ more = opening :: (lexemes ++ mark :: more) := by simp
      revert left
      rw [split]
      intro left whole
      obtain ⟨arguments, head⟩ := TagSite.readsHead_of_read block ends whole
      obtain ⟨made, chain, closed, used, around, scopes, reads⟩ :=
        TagSite.reads_opener block (.inr rfl) head whole
      exact ⟨_, .opens around scopes, reads⟩
  | closer name =>
    obtain ⟨form, known⟩ := block?_of_mem_lineBlocks formed
    have word := isName_of_mem_lineBlocks formed
    refine ⟨_, _, fun rest stops => 
      Token.spellsTag_bare allowed (Text.isName_end word) here stops, ?_⟩
    intro d d' more left tail read
    obtain ⟨inside, reads⟩ := TagSite.reads_closer word (by rw [known]; rfl) tail read
    exact ⟨_, .closes inside, reads⟩
  | statement inside =>
    obtain ⟨tokens, list, kind⟩ := (Option.any_eq_true _ _).mp formed
    obtain ⟨lexemes, same, ends, scanned⟩ := Token.scanArguments_of_listTokens? list
      (((here.next indicator).after []).next '(')
    refine ⟨_, _, fun rest _ => Token.spellsTag_list allowed (by simp) (by simp) scanned rest, ?_⟩
    intro d d' more left _ read
    obtain ⟨node, used, scopes, found, reads⟩ := TagSite.reads_anonymous ends read
    rw [changesVariable_same same] at found
    rcases found with ⟨-, changes⟩ | ⟨plain, -⟩
    · exact ⟨_, .change scopes changes, reads⟩
    · rw [plain] at kind
      cases kind

end Tags

end Stencil
