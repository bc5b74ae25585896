import Stencil.Proofs.ArgumentEnds

/-!
# The boundaries of argument lists

The parser comes to a tag with what the lexer emits behind the name of one. Whatever the tag is, it
is read up to the end of its argument list, if it has one, and the colon behind it at most
(`TagSite.placed_read`). So the parser is again where the lexer was, and over a whole source it
never meets a token that cannot be where it is (`Draft.placed_read`).
-/

namespace Stencil

open Token (behindList? Emitted)

namespace TagSite

/-- What is behind the argument list of a tag; behind the name if there is none. -/
def behindOwn? : List Lexeme → Option (List Lexeme)
  | ⟨.openParen, _⟩ :: inside => behindList? 0 inside
  | tokens => some tokens

/-- Where a tag is read to: behind its argument list, or behind the colon there. -/
def Behind (tokens left : List Lexeme) : Prop :=
  ∃ own, behindOwn? tokens = some own ∧ (left = own ∨ ∃ place, own = ⟨.blockMark, place⟩ :: left)

/-- The argument lists that are read for a tag, each from behind its parenthesis or, in a
declaration, from behind the equals sign. -/
inductive ListAt : List Lexeme → List Lexeme → Prop
  | whole {place : Text.Location} {inside : List Lexeme} :
      ListAt (⟨.openParen, place⟩ :: inside) inside
  | declared {first : Lexeme} {word : Keyword} {name : String}
      {place place' place'' : Text.Location}
      {inside : List Lexeme} (declares : word = .declareVar ∨ word = .declareLet) :
      ListAt (first :: ⟨.keyword word, place⟩ :: ⟨.ident name, place'⟩ ::
        ⟨.operator .assign, place''⟩ :: inside) inside

/-- A reading ends where the lexer was behind the argument list or the colon. -/
def Bounded (indicator : Char) (tokens left : List Lexeme) : Prop :=
  Behind tokens left ∧ Emitted indicator .behindArguments left

/-- The same for a reading that leaves the colon. -/
def BoundedOwn (indicator : Char) (tokens left : List Lexeme) : Prop :=
  behindOwn? tokens = some left ∧ Emitted indicator .behindArguments left

variable {indicator : Char} {tokens left : List Lexeme}

theorem BoundedOwn.bounded (h : BoundedOwn indicator tokens left) :
    Bounded indicator tokens left :=
  ⟨⟨left, h.1, .inl rfl⟩, h.2⟩

/-- Behind a colon there is text. -/
theorem BoundedOwn.mark {place : Text.Location}
    (h : BoundedOwn indicator tokens (⟨.blockMark, place⟩ :: left)) :
    Bounded indicator tokens left := by
  refine ⟨⟨_, h.1, .inr ⟨place, rfl⟩⟩, ?_⟩
  cases h.2 with
  | mark more => exact .noMark more
  | noMark more => cases more

/-- What the lexer emits behind a parenthesis that opens the list of a tag. -/
theorem inside_of_emitted {place : Text.Location}
    (h : Emitted indicator .behindTag (⟨.openParen, place⟩ :: tokens)) :
    (∃ cursor, Token.scanArguments indicator 0 cursor = .ok tokens) ∧
      Emitted indicator (.arguments 0) tokens := by
  cases h with
  | openList read more => exact ⟨⟨_, read⟩, more⟩
  | noList more =>
    cases more with
    | noMark more => cases more

/-- A tag without an argument list. -/
theorem boundedOwn_of_noList (h : Emitted indicator .behindTag tokens)
    (bare : parenFollows tokens = false) : BoundedOwn indicator tokens tokens := by
  cases h with
  | ends => exact ⟨rfl, .ends _⟩
  | openList => cases bare
  | noList more =>
    refine ⟨?_, more⟩
    unfold behindOwn?
    split
    · cases bare
    · rfl

/-- The second token of an argument list tells that there is one. -/
theorem first_of_keyword {first : Lexeme} {word : Keyword} {place : Text.Location}
    (h : Emitted indicator .behindTag (first :: ⟨.keyword word, place⟩ :: tokens)) :
    first.token = .openParen := by
  cases h with
  | openList => rfl
  | noList more =>
    cases more with
    | mark more => cases more
    | noMark more =>
      cases more with
      | raw more => cases more
      | tag more =>
        cases more with
        | noList more =>
          cases more with
          | noMark more => cases more

section Readers

variable {site : TagSite} {d : Draft}

theorem placed_foldlM {α : Type} {f : Draft → α → Except Fault Draft}
    (each : ∀ d a, PlacedIn (fun _ => True) (f d a)) (d : Draft) (items : List α) :
    PlacedIn (fun _ => True) (items.foldlM f d) := by
  induction items generalizing d with
  | nil => trivial
  | cons a items ih =>
    rw [List.foldlM_cons]
    exact (each d a).bind fun d' _ => ih d'

theorem placed_useAll (d : Draft) (e : Expr) : PlacedIn (fun _ => True) (d.useAll e) := by
  refine placed_foldlM (fun d v => ?_) d e.vars
  unfold Draft.use
  dsimp only
  split
  · split
    · trivial
    · exact rfl
  · trivial

theorem placed_readList (site : TagSite) (mode : FoldMode)
    (emitted : Emitted indicator (.arguments 0) tokens) :
    PlacedIn (fun read => behindList? 0 tokens = some read.2.1 ∧
      Emitted indicator .behindArguments read.2.1) (site.readList mode tokens) := by
  have placed := placed_readArguments site.entities site.tag mode emitted
  unfold readList
  split
  · rename_i t left read
    exact ⟨behindList?_of_readArguments read, placed.of_ok read⟩
  · rename_i e read
    exact placed.of_error read

theorem placed_readTuple (site : TagSite) (mode : FoldMode)
    (emitted : Emitted indicator .behindTag tokens) :
    PlacedIn (fun read => BoundedOwn indicator tokens read.2.1) (site.readTuple mode tokens) := by
  unfold readTuple
  split
  · rename_i place inside
    have placed := placed_readList site mode (inside_of_emitted emitted).2
    split
    · rename_i read
      exact placed.of_ok read
    · rename_i read
      exact placed.of_error read
  · exact rfl

theorem placed_readSingle (site : TagSite) (mode : FoldMode) {otherwise : Malformed}
    (placed : otherwise.isUnexpected = false) (emitted : Emitted indicator .behindTag tokens) :
    PlacedIn (fun read => BoundedOwn indicator tokens read.2.1)
      (site.readSingle mode tokens otherwise) := by
  refine (placed_readTuple site mode emitted).bind fun ⟨t, rest⟩ within => ?_
  dsimp only
  split
  · exact within
  · exact placed

theorem placed_readMark {own : List Lexeme} {otherwise : Malformed}
    (placed : otherwise.isUnexpected = false) (within : BoundedOwn indicator tokens own) :
    PlacedIn (fun behind => Bounded indicator tokens behind.1) (site.readMark own otherwise) := by
  unfold readMark
  split
  · exact within.mark
  · exact placed

theorem placed_declare (d : Draft) (constant : Bool) (name : String) (value : Option Expr) :
    PlacedIn (fun _ => True) (declare d constant name value) := by
  unfold declare
  refine Ends.guard rfl ?_
  split
  · refine (placed_useAll d _).bind fun d' _ => ?_
    refine Ends.guard rfl ?_
    trivial
  · have same : PlacedIn (fun _ => True) (pure d : Except Fault Draft) := trivial
    refine same.bind fun d' _ => ?_
    refine Ends.guard rfl ?_
    trivial

theorem placed_assign (d : Draft) (v : Variable) (op : Operator) (value : Expr) :
    PlacedIn (fun _ => True) (assign d v op value) := by
  unfold assign
  split
  · exact Ends.guard rfl rfl
  · refine Ends.guard rfl ?_
    refine Ends.guard rfl ?_
    refine Ends.guard rfl ?_
    exact (placed_useAll d value).bind fun d' _ => trivial

/-- The rest of a declaration, up to the end of its argument list. -/
theorem placed_readDeclared (site : TagSite) (emitted : Emitted indicator (.arguments 0) tokens) :
    PlacedIn (fun read => behindList? 0 tokens = some read.2.1 ∧
      Emitted indicator .behindArguments read.2.1) (site.readDeclared tokens) := by
  unfold readDeclared
  split
  · exact ⟨rfl, emitted.inside.2⟩
  · have placed := placed_readList site .strict emitted.inside.2
    split
    · rename_i read
      exact placed.of_error read
    · rename_i read
      split
      · exact placed.of_ok read
      · exact rfl
  · exact rfl

/-- A declaration is read behind its parenthesis, its word and its name. -/
theorem placed_readDeclaration (site : TagSite) (d : Draft) (constant : Bool)
    (emitted : Emitted indicator (.arguments 0) tokens) :
    PlacedIn (fun read => behindList? 0 tokens = some read.2.1 ∧
      Emitted indicator .behindArguments read.2.1) (site.readDeclaration d constant tokens) := by
  unfold readDeclaration
  split
  · rename_i name place behind
    have named := emitted.inside.2
    refine (placed_readDeclared site named).bind fun ⟨value, rest⟩ within => ?_
    refine (placed_declare d constant name value).bind fun _ _ => ?_
    exact within
  · exact rfl

/-- A word at the front of the list of an anonymous tag opens a declaration. -/
theorem placed_word (site : TagSite) (d : Draft) (constant : Bool) {first : Lexeme} {word : Keyword}
    {place : Text.Location} (emitted : Emitted indicator .behindTag
      (first :: ⟨.keyword word, place⟩ :: tokens)) :
    PlacedIn (fun read => BoundedOwn indicator (first :: ⟨.keyword word, place⟩ :: tokens) read.2.1)
      (site.readDeclaration d constant tokens) := by
  obtain ⟨token, start⟩ := first
  obtain rfl : token = .openParen := first_of_keyword emitted
  exact placed_readDeclaration site d constant (inside_of_emitted emitted).2.inside.2

theorem placed_readAnonymous (site : TagSite) (d : Draft)
    (emitted : Emitted indicator .behindTag tokens) :
    PlacedIn (fun read => Bounded indicator tokens read.2.1) (site.readAnonymous d tokens) := by
  unfold readAnonymous
  split
  · exact (placed_word site d false emitted).bind fun _ within => within.bounded
  · exact (placed_word site d true emitted).bind fun _ within => within.bounded
  · refine (placed_readSingle site .assignment rfl emitted).bind fun ⟨e, rest⟩ within => ?_
    dsimp only
    split
    · exact (placed_assign d _ _ _).bind fun _ _ => within.bounded
    · exact (placed_useAll d _).bind fun _ _ => within.bounded

theorem placed_readDefine (site : TagSite) (d : Draft)
    (emitted : Emitted indicator .behindTag tokens) :
    PlacedIn (fun read => Bounded indicator tokens read.2.1) (site.readDefine d tokens) := by
  refine (placed_readSingle site .assignment rfl emitted).bind fun ⟨e, rest⟩ within => ?_
  dsimp only
  split
  · split
    · exact (placed_useAll d _).bind fun _ _ => within.bounded
    · exact rfl
  · split
    · exact (placed_readMark rfl within).bind fun _ bounded => bounded
    · exact rfl

theorem placed_evaluation (site : TagSite) (e : Expr) :
    PlacedIn (fun _ => True) (site.evaluation e) := by
  unfold evaluation
  split
  · split
    · trivial
    · exact rfl
  · split
    · trivial
    · exact rfl

theorem placed_readEvaluate (site : TagSite) (d : Draft)
    (emitted : Emitted indicator .behindTag tokens) :
    PlacedIn (fun read => Bounded indicator tokens read.2.1) (site.readEvaluate d tokens) := by
  refine (placed_readSingle site .strict rfl emitted).bind fun ⟨e, rest⟩ within => ?_
  refine (placed_evaluation site e).bind fun ⟨name, default⟩ _ => ?_
  dsimp only
  split
  · exact (placed_useAll d _).bind fun _ _ => within.bounded
  · exact within.bounded

theorem placed_readInline (site : TagSite) (d : Draft)
    (emitted : Emitted indicator .behindTag tokens) :
    PlacedIn (fun read => Bounded indicator tokens read.2.1) (site.readInline d tokens) := by
  refine (placed_readTuple site .strict emitted).bind fun ⟨t, rest⟩ within => ?_
  dsimp only
  cases inlineTarget t with
  | error e => exact rfl
  | ok target => exact within.bounded

theorem placed_readRaw (site : TagSite) (d : Draft)
    (emitted : Emitted indicator .behindTag tokens) :
    PlacedIn (fun read => Bounded indicator tokens read.2.1) (site.readRaw d tokens) := by
  refine (placed_readSingle site .strict rfl emitted).bind fun ⟨e, rest⟩ within => ?_
  dsimp only
  split
  · exact rfl
  · split
    · exact rfl
    · exact (placed_readMark rfl within).bind fun _ bounded => bounded

/-- Both readings of the arguments of a block are of the same list. -/
theorem placed_readBlockArguments (site : TagSite) (form : BlockForm)
    (emitted : Emitted indicator .behindTag tokens) :
    PlacedIn (fun read => BoundedOwn indicator tokens read.2.1)
      (site.readBlockArguments form tokens) := by
  have strict := placed_readTuple site .strict emitted
  have relaxed := placed_readTuple site .relaxed emitted
  unfold readBlockArguments
  split
  · rename_i read
    split <;> exact strict.of_ok read
  · rename_i failed
    split
    · exact strict.of_error failed
    · split
      · rename_i read
        exact relaxed.of_error read
      · rename_i read
        split
        · exact relaxed.of_ok read
        · exact strict.of_error failed

theorem placed_readBlockHead (site : TagSite) (form : BlockForm)
    (emitted : Emitted indicator .behindTag tokens) :
    PlacedIn (fun read => BoundedOwn indicator tokens read.2.1)
      (site.readBlockHead form tokens) := by
  unfold readBlockHead
  split
  · exact placed_readBlockArguments site form emitted
  · rename_i bare
    exact boundedOwn_of_noList emitted (Bool.eq_false_iff.mpr bare)

theorem placed_chainOf (site : TagSite) (form : BlockForm) (d : Draft) :
    PlacedIn (fun _ => True) (site.chainOf form d) := by
  unfold chainOf
  split
  · trivial
  · split
    · split
      · trivial
      · exact rfl
    · exact rfl

theorem placed_readBlock (site : TagSite) (form : BlockForm) (d : Draft)
    (emitted : Emitted indicator .behindTag tokens) :
    PlacedIn (fun read => Bounded indicator tokens read.2.1) (site.readBlock form d tokens) := by
  refine (placed_readBlockHead site form emitted).bind fun ⟨arguments, rest⟩ within => ?_
  refine (placed_readMark rfl within).bind fun ⟨behind, h⟩ bounded => ?_
  refine (placed_chainOf site form d).bind fun ⟨chain, d'⟩ _ => ?_
  dsimp only
  cases form.make arguments with
  | error e => exact rfl
  | ok made => exact (placed_foldlM placed_useAll d' _).bind fun _ _ => bounded

theorem placed_readCall (site : TagSite) (d : Draft)
    (emitted : Emitted indicator .behindTag tokens) :
    PlacedIn (fun read => Bounded indicator tokens read.2.1) (site.readCall d tokens) := by
  refine (placed_readTuple site .strict emitted).bind fun ⟨t, rest⟩ within => ?_
  refine (placed_resolveCall site.entities site.tag site.tag false t).bind fun e _ => ?_
  exact (placed_useAll d e).bind fun _ _ => within.bounded

theorem placed_readNamed (site : TagSite) (d : Draft)
    (emitted : Emitted indicator .behindTag tokens) :
    PlacedIn (fun read => Bounded indicator tokens read.2.1) (site.readNamed d tokens) := by
  unfold readNamed
  dsimp only
  split
  · exact placed_readDefine site d emitted
  · exact placed_readEvaluate site d emitted
  · exact placed_readInline site d emitted
  · exact placed_readRaw site d emitted
  · split
    · exact placed_readBlock site _ d emitted
    · split
      · exact placed_readCall site d emitted
      · rename_i bare
        exact (boundedOwn_of_noList emitted (Bool.eq_false_iff.mpr bare)).bounded

theorem placed_close? (site : TagSite) (d : Draft) (closed : String) :
    PlacedIn (fun _ => True) (site.close? d closed) := by
  unfold close?
  split
  · trivial
  · dsimp only
    split
    · trivial
    · split <;> exact rfl

/-- Every tag is read to the end of its argument list, or to the colon behind it. -/
theorem placed_read (site : TagSite) (d : Draft) (emitted : Emitted indicator .behindTag tokens) :
    PlacedIn (fun read => Bounded indicator tokens read.2.1) (site.read d tokens) := by
  unfold read
  split
  · exact placed_readAnonymous site d emitted
  · split
    · exact placed_readNamed site d emitted
    · rename_i closed named
      refine (placed_close? site d closed).bind fun found _ => ?_
      split
      · refine (boundedOwn_of_noList emitted ?_).bounded
        cases list : parenFollows tokens with
        | false => rfl
        | true =>
          rw [list] at named
          cases named
      · exact placed_readNamed site d emitted

end Readers

end TagSite

namespace Draft

variable {indicator : Char}

/-- While tokens are read on from a draft, a tag is met with a draft and the tokens behind its name.
-/
inductive Meets (entities : Entities) (indicator : Char) (site : TagSite) (met : Draft)
    (behind : List Lexeme) : Draft → List Lexeme → Prop
  | here {name : String} {place : Text.Location} (own : site = ⟨entities, indicator, name, place⟩) :
      Meets entities indicator site met behind met (⟨.tag name, place⟩ :: behind)
  | raw {d : Draft} {text : String} {place : Text.Location} {rest : List Lexeme}
      (later : Meets entities indicator site met behind (d.addRaw text) rest) :
      Meets entities indicator site met behind d (⟨.raw text, place⟩ :: rest)
  | mark {d : Draft} {place : Text.Location} {rest : List Lexeme}
      (later : Meets entities indicator site met behind (d.addRaw ":") rest) :
      Meets entities indicator site met behind d (⟨.blockMark, place⟩ :: rest)
  | tag {d d' : Draft} {name : String} {place : Text.Location} {rest : List Lexeme}
      {left : Remaining rest}
      (read : TagSite.read ⟨entities, indicator, name, place⟩ d rest = .ok (d', left))
      (later : Meets entities indicator site met behind d' left.1) :
      Meets entities indicator site met behind d (⟨.tag name, place⟩ :: rest)

/-- Every tag is met where the lexer was behind the name of one. The induction is on the way to it:
each tag before it was read to where the lexer was behind an argument list. -/
theorem emitted_of_meets {entities : Entities} {indicator' : Char} {site : TagSite} {met d : Draft}
    {behind tokens : List Lexeme} (h : Meets entities indicator' site met behind d tokens)
    (emitted : Emitted indicator .behindArguments tokens) :
    Emitted indicator .behindTag behind := by
  induction h with
  | here own =>
    cases emitted with
    | noMark more =>
      cases more with
      | tag more => exact more
  | raw later ih =>
    cases emitted with
    | noMark more =>
      cases more with
      | raw more => exact ih (.noMark more)
  | mark later ih =>
    cases emitted with
    | mark more => exact ih (.noMark more)
    | noMark more => cases more
  | tag read later ih =>
    cases emitted with
    | noMark more =>
      cases more with
      | tag more =>
        exact ih ((TagSite.placed_read _ _ more).of_ok read).2

/-- Over the tokens of a source a draft fails for no token that cannot be where it is. -/
theorem placed_read (entities : Entities) (indicator' : Char) (d : Draft) (tag : String)
    {tokens : List Lexeme} (emitted : Emitted indicator .behindArguments tokens) :
    Ends (fun e : ParseError => e.fault.isUnexpected = false) (fun _ => True)
      (read entities indicator' d tag tokens) := by
  fun_induction read entities indicator' d tag tokens with
  | case1 => trivial
  | case2 d tag text place rest ih =>
    cases emitted with
    | noMark more =>
      cases more with
      | raw more => exact ih (.noMark more)
  | case3 d tag place rest ih =>
    cases emitted with
    | mark more => exact ih (.noMark more)
    | noMark more => cases more
  | case4 d tag name place rest fault failed =>
    cases emitted with
    | noMark more =>
      cases more with
      | tag more =>
        exact (TagSite.placed_read _ _ more).of_error failed
  | case5 d tag name place rest d' left bound read ih =>
    cases emitted with
    | noMark more =>
      cases more with
      | tag more =>
        exact ih ((TagSite.placed_read _ _ more).of_ok read).2
  | case6 d tag other place rest notRaw notMark notTag =>
    cases emitted with
    | mark => exact absurd rfl notMark
    | noMark more =>
      cases more with
      | raw => exact absurd rfl (notRaw _)
      | tag => exact absurd rfl (notTag _)

end Draft

namespace TagSite

/-- The lists that are read for a tag are parts of one list, and end with it. -/
theorem list_of_listAt {indicator : Char} {behind inside : List Lexeme}
    (emitted : Emitted indicator .behindTag behind) (list : ListAt behind inside) :
    ∃ place own, behind = ⟨.openParen, place⟩ :: own ∧
      (∃ cursor, Token.scanArguments indicator 0 cursor = .ok own) ∧
      behindList? 0 inside = behindList? 0 own ∧ Emitted indicator (.arguments 0) inside := by
  cases list with
  | whole =>
    obtain ⟨scanned, inner⟩ := inside_of_emitted emitted
    exact ⟨_, _, rfl, scanned, rfl, inner⟩
  | @declared first =>
    obtain ⟨token, start⟩ := first
    obtain rfl : token = .openParen := first_of_keyword emitted
    obtain ⟨scanned, inner⟩ := inside_of_emitted emitted
    exact ⟨_, _, rfl, scanned, rfl, inner.inside.2.inside.2.inside.2⟩

end TagSite

/-- The parser and the lexer agree on the argument lists of every source. No token is refused as one
that cannot be where it is, neither between tags nor in a list. Every tag that is read is read up to
the end of its list, or up to the colon there. And every list that is read for a tag, whole or
behind the head of a declaration and in whichever mode, ends with the parenthesis that ends it for
the lexer.
-/
theorem lists_end_as_scanned {indicator : Char} {source : String} {tokens : List Lexeme}
    (scanned : Token.scan indicator source = .ok tokens) (entities : Entities) (config : Config)
    (name : String) :
    (∀ e, Template.ofTokens entities config name tokens = .error e →
        e.fault.isUnexpected = false) ∧
      ∀ site d behind, Draft.Meets entities config.indicator site d behind {} tokens →
        (∀ fault, site.read d behind = .error fault → fault.isUnexpected = false) ∧
        (∀ d' left, site.read d behind = .ok (d', left) → TagSite.Behind behind left.1) ∧
        ∀ inside, TagSite.ListAt behind inside → ∃ place own,
          behind = ⟨.openParen, place⟩ :: own ∧
          (∃ start, Token.scanArguments indicator 0 start = .ok own) ∧
          ∀ mode, PlacedIn
            (fun (_, left) => behindList? 0 own = some left ∧
              ∃ cursor, Token.scanClosed indicator cursor = .ok left)
            (readArguments site.entities site.tag mode inside) := by
  have emitted : Emitted indicator .behindArguments tokens :=
    .noMark (Token.emitted_of_scan scanned)
  constructor
  · intro e failed
    unfold Template.ofTokens at failed
    have placed := Draft.placed_read entities config.indicator {} "" emitted
    split at failed
    · rename_i read
      cases failed
      exact placed.of_error read
    · split at failed
      · rename_i d _ _ unclosed
        cases failed
        unfold Draft.unclosed? at unclosed
        obtain ⟨_, _, rfl⟩ := Option.map_eq_some_iff.mp unclosed
        rfl
      · cases failed
  · intro site d behind meets
    have own := Draft.emitted_of_meets meets emitted
    have placed := TagSite.placed_read site d own
    refine ⟨fun fault => placed.of_error, fun d' left read => (placed.of_ok read).1, ?_⟩
    intro inside list
    obtain ⟨place, whole, rfl, ⟨start, read⟩, same, inner⟩ := TagSite.list_of_listAt own list
    refine ⟨place, whole, rfl, ⟨start, read⟩, fun mode => ?_⟩
    have arguments := placed_readArguments site.entities site.tag mode inner
    cases list : readArguments site.entities site.tag mode inside with
    | error e => exact arguments.of_error list
    | ok found =>
      have ends := same ▸ behindList?_of_readArguments list
      exact ⟨ends, Token.scanClosed_of_behindList? read ends⟩

/-- A page with one list, around a name. -/
theorem lists_end_as_scanned_name : ∃ tokens, Token.scan '#' "#(a)" = .ok tokens ∧
    (∀ e, Template.ofTokens .core {} "page" tokens = .error e → e.fault.isUnexpected = false) ∧
    ∃ place own, tokens = ⟨.tag "", {}⟩ :: ⟨.openParen, place⟩ :: own ∧
      behindList? 0 own = some [] ∧
      ∀ mode, PlacedIn
        (fun (_, left) => behindList? 0 own = some left ∧
          ∃ cursor, Token.scanClosed '#' cursor = .ok left)
        (readArguments .core "" mode own) := by
  have scanned : Token.scan '#' "#(a)" = .ok [⟨.tag "", {}⟩, ⟨.openParen, ⟨1, 2, 1⟩⟩,
      ⟨.ident "a", ⟨1, 3, 2⟩⟩, ⟨.closeParen, ⟨1, 4, 3⟩⟩] := by
    show Token.scanText '#' ⟨['#', '(', 'a', ')'], {}⟩ = _
    rw [Token.scanText_eq]
    show ((Token.scanArguments '#' 0 ⟨['a', ')'], ⟨1, 3, 2⟩⟩).map _).map _ = _
    rw [Token.scanArguments_eq]
    show (((Token.scanArguments '#' 0 ⟨[')'], ⟨1, 4, 3⟩⟩).map _).map _).map _ = _
    rw [Token.scanArguments_eq]
    rfl
  refine ⟨_, scanned, (lists_end_as_scanned scanned .core {} "page").1, ?_⟩
  obtain ⟨place, own, eq, -, ends⟩ := ((lists_end_as_scanned scanned .core {} "page").2
    ⟨.core, '#', "", {}⟩ {} _ (.here rfl)).2.2 _ .whole
  cases eq
  exact ⟨_, _, rfl, rfl, ends⟩

end Stencil
