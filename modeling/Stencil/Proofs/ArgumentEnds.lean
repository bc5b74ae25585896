import Stencil.Proofs.LexerStates
import Stencil.Proofs.ParseSteps

/-!
# Where argument lists end

The levels of an argument list that are opened by parentheses are as many as the parentheses that
are open, one more than the lexer counts. So a list that is read ends with the parenthesis that
closes its own (`behindList?_of_readArguments`), in every mode, and what stands behind that
parenthesis makes no difference to how the list is read (`readArguments_append`).
-/

namespace Stencil

/-- A computation fails only as said, and otherwise gives a result as said. -/
def Ends {ε α : Type} (failed : ε → Prop) (done : α → Prop) : Except ε α → Prop
  | .error e => failed e
  | .ok a => done a

namespace Ends

variable {ε ε' α β : Type} {failed : ε → Prop} {failed' : ε' → Prop} {done : α → Prop}
  {done' : β → Prop} {x : Except ε α}

theorem bind (h : Ends failed done x) {f : α → Except ε β}
    (more : ∀ a, done a → Ends failed done' (f a)) : Ends failed done' (x >>= f) := by
  cases x with
  | error e => exact h
  | ok a => exact more a h

theorem mapError (h : Ends failed done x) {f : ε → ε'} (keep : ∀ e, failed e → failed' (f e)) :
    Ends failed' done (x.mapError f) := by
  cases x with
  | error e => exact keep e h
  | ok a => exact h

theorem map (h : Ends failed done x) {f : α → β} (keep : ∀ a, done a → done' (f a)) :
    Ends failed done' (x.map f) := by
  cases x with
  | error e => exact h
  | ok a => exact keep a h

theorem of_ok (h : Ends failed done x) {a : α} (eq : x = .ok a) : done a := by
  rwa [eq] at h

theorem of_error (h : Ends failed done x) {e : ε} (eq : x = .error e) : failed e := by
  rwa [eq] at h

/-- A check before the rest. -/
theorem guard {c : Prop} [Decidable c] {e : ε} {next : PUnit → Except ε α} (fails : failed e)
    (h : Ends failed done (next ⟨⟩)) :
    Ends failed done (if c then throw e >>= next else next ⟨⟩) := by
  split
  · exact fails
  · exact h

end Ends

/-- A fault that names a token which should not be where it is. -/
def Malformed.isUnexpected : Malformed → Bool
  | unexpected _ | unexpectedArgument _ => true
  | _ => false

def Fault.isUnexpected : Fault → Bool
  | malformed _ reason => reason.isUnexpected
  | _ => false

/-- Every token is where it can be; a failure has another cause. -/
abbrev Placed {α : Type} (done : α → Prop) : Except Malformed α → Prop :=
  Ends (·.isUnexpected = false) done

/-- The same for the fault of a tag. -/
abbrev PlacedIn {α : Type} (done : α → Prop) : Except Fault α → Prop :=
  Ends (·.isUnexpected = false) done

theorem Placed.within {α : Type} {done : α → Prop} {x : Except Malformed α} (h : Placed done x)
    (tag : String) : PlacedIn done (x.mapError (.malformed tag)) :=
  h.mapError fun _ => id

namespace LevelKind

/-- Whether a level inside an argument list was opened by a parenthesis. -/
def isParen : LevelKind → Bool
  | group | call .. => true
  | _ => false

/-- Whether a level was opened by a bracket. -/
def isBracket : LevelKind → Bool
  | collection | subscript _ => true
  | _ => false

theorem isBracket_of_isParen {kind : LevelKind} (h : kind.isParen = true) :
    kind.isBracket = false := by
  cases kind with
  | group | call => rfl
  | top | collection | subscript => cases h

end LevelKind

/-- The levels of an argument list, with so many open parentheses besides the one of the list. -/
inductive Nested : Nat → Level → List Level → Prop
  | list {level : Level} (kind : level.kind = .top) : Nested 0 level []
  | paren {depth : Nat} {level parent : Level} {outer : List Level}
      (kind : level.kind.isParen = true) (inside : Nested depth parent outer) :
      Nested (depth + 1) level (parent :: outer)
  | bracket {depth : Nat} {level parent : Level} {outer : List Level}
      (kind : level.kind.isBracket = true) (inside : Nested depth parent outer) :
      Nested depth level (parent :: outer)

namespace Nested

variable {depth : Nat} {level : Level} {outer : List Level}

/-- Only the kinds of levels count. -/
theorem congr (h : Nested depth level outer) {level' : Level} (same : level'.kind = level.kind) :
    Nested depth level' outer := by
  cases h with
  | list kind => exact .list (same.trans kind)
  | paren kind inside => exact .paren (same ▸ kind) inside
  | bracket kind inside => exact .bracket (same ▸ kind) inside

theorem of_top (h : Nested depth level outer) (kind : level.kind = .top) :
    depth = 0 ∧ outer = [] := by
  cases h with
  | list => exact ⟨rfl, rfl⟩
  | paren other => rw [kind] at other; cases other
  | bracket other => rw [kind] at other; cases other

/-- Behind a level that a parenthesis closes one parenthesis less is open. -/
theorem of_isParen (h : Nested depth level outer) (kind : level.kind.isParen = true) :
    ∃ fewer parent more, depth = fewer + 1 ∧ outer = parent :: more ∧ Nested fewer parent more := by
  cases h with
  | list other => rw [other] at kind; cases kind
  | paren _ inside => exact ⟨_, _, _, rfl, rfl, inside⟩
  | bracket other _ =>
    rw [LevelKind.isBracket_of_isParen kind] at other
    cases other

theorem of_isBracket (h : Nested depth level outer) (kind : level.kind.isBracket = true) :
    ∃ parent more, outer = parent :: more ∧ Nested depth parent more := by
  cases h with
  | list other => rw [other] at kind; cases kind
  | bracket _ inside => exact ⟨_, _, rfl, inside⟩
  | paren other _ =>
    rw [LevelKind.isBracket_of_isParen other] at kind
    cases kind

end Nested

/-- A level that waits for the parenthesis of a call knows that it follows. -/
def Level.Expects (level : Level) (parenFollows : Bool) : Prop :=
  ∀ name receiver, level.pending = .callee name receiver → parenFollows = true

theorem Level.expects_nothing {level : Level} {parenFollows : Bool}
    (h : level.pending = .nothing) : level.Expects parenFollows := by
  intro name receiver eq
  rw [h] at eq
  cases eq

/-- Levels that a token leads to, so many parentheses being open then. -/
def Progress.Open (parenFollows : Bool) (depth : Nat) : Progress → Prop
  | .reading level outer => Nested depth level outer ∧ level.Expects parenFollows
  | .finished _ => False

/-- What a parenthesis that closes leads to: the end of the list, or levels inside of it. -/
def Progress.Closed (parenFollows : Bool) : Nat → Progress → Prop
  | 0, .finished _ => True
  | depth + 1, progress => progress.Open parenFollows depth
  | _, _ => False

/-- What a token leads to. -/
def Progress.Follows (parenFollows : Bool) (depth : Nat) : Token → Progress → Prop
  | .openParen => Progress.Open parenFollows (depth + 1)
  | .closeParen => Progress.Closed parenFollows depth
  | _ => Progress.Open parenFollows depth

section Levels

variable {mode : FoldMode} {level : Level} {outer : List Level} {depth : Nat} {paren : Bool}

theorem placed_folded (e : Expr) : Placed (fun _ => True) (e.folded.mapError .fold) := by
  cases e.folded with
  | error => exact rfl
  | ok => trivial

theorem placed_access (receiver : Expr) (name : String) :
    Placed (fun _ => True) (receiver.access name) := by
  unfold Expr.access
  split
  · trivial
  · exact placed_folded _

theorem placed_collected (level : Level) : Placed (fun _ => True) level.collected := by
  unfold Level.collected
  split
  · trivial
  · split
    · exact rfl
    · exact placed_folded _

/-- The end of an argument leaves the kind of its level. -/
theorem placed_finish (mode : FoldMode) (level : Level) :
    Placed (fun done => done.kind = level.kind ∧ done.pending = level.pending)
      (level.finish mode) := by
  unfold Level.finish
  split
  · split
    · exact rfl
    · split
      · exact rfl
      · exact ⟨rfl, rfl⟩
  · split
    · exact rfl
    · split
      · exact rfl
      · split
        · exact ⟨rfl, rfl⟩
        · exact rfl

theorem placed_resolveCall (r : Entities) (tag name : String) (method : Bool) (args : Tuple) :
    PlacedIn (fun _ => True) (r.resolveCall tag name method args) := by
  have folded (e : Expr) :
      PlacedIn (fun _ => True) (e.folded.mapError fun e => .malformed tag (.fold e)) := by
    cases e.folded with
    | error => exact rfl
    | ok => trivial
  unfold Entities.resolveCall
  dsimp only
  split
  · exact rfl
  · split
    · exact rfl
    · split
      · exact folded _
      · split
        · exact rfl
        · exact folded _
        · exact rfl

theorem placed_give {parent : Level} (e : Expr) (h : Nested depth parent outer) :
    Placed (Progress.Open paren depth) (Progress.give e (parent :: outer)) :=
  ⟨h.congr rfl, Level.expects_nothing rfl⟩

theorem placed_closeParen (r : Entities) (tag : String) (h : Nested depth level outer) :
    PlacedIn (Progress.Closed paren depth) (Progress.closeParen r tag mode level outer) := by
  have inner (closed : Level) (same : closed.kind = level.kind)
      (kind : closed.kind.isParen = true) (e : Expr) :
      Placed (Progress.Closed paren depth) (Progress.give e outer) := by
    obtain ⟨fewer, parent, more, rfl, rfl, inside⟩ := h.of_isParen (same ▸ kind)
    exact placed_give e inside
  refine ((placed_finish mode level).within tag).bind fun closed same => ?_
  split
  · rename_i kind
    obtain ⟨rfl, -⟩ := h.of_top (same.1.symm.trans kind)
    trivial
  · rename_i kind
    split
    · exact (inner closed same.1 (by rw [kind]; rfl) _).within tag
    · exact rfl
  · rename_i name method kind
    refine (placed_resolveCall r tag name method closed.tuple).bind fun e _ => ?_
    exact (inner closed same.1 (by rw [kind]; rfl) e).within tag
  · exact rfl
  · exact rfl

theorem placed_closeBracket (h : Nested depth level outer) :
    Placed (Progress.Open paren depth) (Progress.closeBracket mode level outer) := by
  have inner (closed : Level) (same : closed.kind = level.kind)
      (kind : closed.kind.isBracket = true) (e : Expr) :
      Placed (Progress.Open paren depth) (Progress.give e outer) := by
    obtain ⟨parent, more, rfl, inside⟩ := h.of_isBracket (same ▸ kind)
    exact placed_give e inside
  refine (placed_finish mode level).bind fun closed same => ?_
  split
  · rename_i container kind
    split
    · exact (placed_folded _).bind fun e _ => inner closed same.1 (by rw [kind]; rfl) e
    · exact rfl
  · rename_i kind
    exact (placed_collected closed).bind fun e _ => inner closed same.1 (by rw [kind]; rfl) e
  · exact rfl

theorem placed_comma (h : Nested depth level outer) (free : level.pending = .nothing) :
    Placed (Progress.Open paren depth) (Progress.comma mode level outer) := by
  have more : Placed (Progress.Open paren depth) ((level.finish mode).map fun l =>
      .reading { l with afterComma := true } outer) :=
    (placed_finish mode level).map fun closed same =>
      ⟨h.congr same.1, Level.expects_nothing (same.2.trans free)⟩
  unfold Progress.comma
  split
  · exact rfl
  · exact rfl
  · split
    · exact rfl
    · exact more

theorem takeLast?_kind {e : Expr} {shorter : Level} (h : level.takeLast? = some (e, shorter)) :
    shorter.kind = level.kind ∧ shorter.pending = level.pending := by
  obtain ⟨_, _, eq⟩ := Option.map_eq_some_iff.mp h
  cases eq
  exact ⟨rfl, rfl⟩

theorem open_openBracket (h : Nested depth level outer) :
    (Progress.openBracket level outer).Open paren depth := by
  unfold Progress.openBracket
  split
  · rename_i container parent _ taken
    exact ⟨.bracket rfl (h.congr (takeLast?_kind taken).1), Level.expects_nothing rfl⟩
  · exact ⟨.bracket rfl h, Level.expects_nothing rfl⟩

theorem open_colon (h : Nested depth level outer) (free : level.pending = .nothing) :
    (Progress.colon level outer).Open paren depth := by
  unfold Progress.colon
  split
  · exact ⟨h.congr rfl, Level.expects_nothing free⟩
  · split
    · exact ⟨h.congr rfl, Level.expects_nothing free⟩
    · exact ⟨h.congr rfl, Level.expects_nothing rfl⟩

theorem placed_point (h : Nested depth level outer) :
    Placed (Progress.Open paren depth) (Progress.point level outer) := by
  unfold Progress.point
  split
  · rename_i receiver shorter _ taken
    exact ⟨h.congr (takeLast?_kind taken).1, by rintro _ _ ⟨⟩⟩
  · exact rfl

theorem placed_operator (op : Operator) (h : Nested depth level outer)
    (free : level.pending = .nothing) :
    Placed (Progress.Open paren depth) (Progress.operator mode op level outer) := by
  have added (e : Expr) : (Progress.reading (level.add e) outer).Open paren depth :=
    ⟨h.congr rfl, Level.expects_nothing rfl⟩
  unfold Progress.operator
  split
  · exact open_openBracket h
  · exact placed_closeBracket h
  · exact open_colon h free
  · exact placed_point h
  · exact added _
  · exact added _

theorem open_named (name : String) (h : Nested depth level outer) :
    (Progress.named name paren level outer).Open paren depth := by
  unfold Progress.named
  split
  · rename_i follows
    exact ⟨h.congr rfl, fun _ _ _ => follows⟩
  · exact ⟨h.congr rfl, Level.expects_nothing rfl⟩

theorem open_keyword (word : Keyword) (h : Nested depth level outer) :
    (Progress.keyword word level outer).Open paren depth := by
  unfold Progress.keyword
  split <;> exact ⟨h.congr rfl, by rintro _ _ ⟨⟩⟩

theorem placed_freely (r : Entities) (tag : String) {token : Token}
    (inside : token.standsInside = true) (h : Nested depth level outer)
    (free : level.pending = .nothing) :
    PlacedIn (Progress.Follows paren depth token)
      (Progress.freely r tag mode token paren level outer) := by
  cases token with
  | openParen => exact ⟨.paren rfl h, Level.expects_nothing rfl⟩
  | closeParen => exact placed_closeParen r tag h
  | comma => exact (placed_comma h free).within tag
  | operator op => exact (placed_operator op h free).within tag
  | ident name => exact open_named name h
  | scope name => exact ⟨h.congr rfl, by rintro _ _ ⟨⟩⟩
  | keyword word => exact open_keyword word h
  | literal data => exact ⟨h.congr rfl, Level.expects_nothing rfl⟩
  | raw | tag | blockMark => cases inside

/-- A token inside an argument list is where it can be, and opens and closes as many levels as it
opens and closes parentheses. -/
theorem placed_next (r : Entities) (tag : String) (mode : FoldMode) (paren : Bool) {token : Token}
    (inside : token.standsInside = true) (h : Nested depth level outer)
    (expects : ∀ name receiver, level.pending = .callee name receiver → token = .openParen) :
    PlacedIn (Progress.Follows paren depth token)
      (Progress.next r tag mode token paren level outer) := by
  have added (e : Expr) : (Progress.reading (level.add e) outer).Open paren depth :=
    ⟨h.congr rfl, Level.expects_nothing rfl⟩
  unfold Progress.next
  split
  · exact placed_freely r tag inside h ‹_›
  · exact ⟨h.congr rfl, by rintro _ _ ⟨⟩⟩
  · exact added _
  · exact rfl
  · split
    · rename_i follows
      exact ⟨h.congr rfl, fun _ _ _ => follows⟩
    · rename_i receiver name _ _
      have access := placed_access receiver name
      revert access
      cases receiver.access name with
      | ok e => exact fun _ => added e
      | error e => exact id
  · exact rfl
  · exact ⟨.paren rfl (h.congr rfl), Level.expects_nothing rfl⟩
  · rename_i waiting other
    exact absurd (expects _ _ waiting) other

/-- A token that is taken stands inside the list, and where a call waits for its parenthesis it is
one. -/
theorem stands_of_next {r : Entities} {tag : String} {token : Token} {progress : Progress}
    (h : Progress.next r tag mode token paren level outer = .ok progress) :
    token.standsInside = true ∧
      ∀ name receiver, level.pending = .callee name receiver → token = .openParen := by
  constructor
  · cases token with
    | raw | tag | blockMark =>
      unfold Progress.next at h
      cases eq : level.pending with
      | nothing =>
        rw [eq] at h
        cases h
      | _ => simp [eq] at h
    | _ => rfl
  · intro name receiver eq
    cases token with
    | openParen => rfl
    | _ => simp [Progress.next, eq] at h

end Levels

section Lists

variable {indicator : Char} {r : Entities} {tag : String} {mode : FoldMode}

theorem eq_openParen_of_parenFollows {lexeme : Lexeme} {rest : List Lexeme}
    (h : parenFollows (lexeme :: rest) = true) : lexeme.token = .openParen := by
  unfold parenFollows at h
  split at h
  · rename_i eq
    cases eq
    rfl
  · cases h

/-- Levels that are read to their end are read up to the parenthesis that closes the list. The
induction is on the tokens: each leaves the levels as nested as the parentheses are. -/
theorem behindList?_of_readLevels {tokens left : List Lexeme} {t : Tuple} {depth : Nat}
    {level : Level} {outer : List Level} (nested : Nested depth level outer)
    (h : readLevels r tag mode tokens level outer = .ok (t, left)) :
    Token.behindList? depth tokens = some left := by
  induction tokens generalizing depth level outer with
  | nil => cases h
  | cons lexeme rest ih =>
    obtain ⟨token, place⟩ := lexeme
    simp only [readLevels] at h
    cases next : Progress.next r tag mode token (parenFollows rest) level outer with
    | error e =>
      rw [next] at h
      cases h
    | ok progress =>
      obtain ⟨inside, expects⟩ := stands_of_next next
      have follows := placed_next r tag mode (parenFollows rest) inside nested expects
      rw [next] at follows h
      cases progress with
      | finished t' =>
        cases h
        cases token <;> cases depth <;> first | rfl | cases follows
      | reading level outer =>
        dsimp only at h
        cases token with
        | openParen => exact ih follows.1 h
        | closeParen =>
          cases depth with
          | zero => cases follows
          | succ depth => exact ih follows.1 h
        | _ => exact ih follows.1 h

/-- A level that waits for a parenthesis waits for the next token. -/
theorem Level.Expects.token {level : Level} {lexeme : Lexeme} {rest : List Lexeme}
    (h : level.Expects (parenFollows (lexeme :: rest))) (name : String) (receiver : Option Expr)
    (waiting : level.pending = .callee name receiver) : lexeme.token = .openParen :=
  eq_openParen_of_parenFollows (h name receiver waiting)

/-- Levels that are read in the tokens of a source never meet a token that cannot be there, and the
lexer is behind the list where they end. -/
theorem placed_readLevels {tokens : List Lexeme} {depth : Nat} {level : Level}
    {outer : List Level} (emitted : Token.Emitted indicator (.arguments depth) tokens)
    (nested : Nested depth level outer) (expects : level.Expects (parenFollows tokens)) :
    PlacedIn (fun read => Token.Emitted indicator .behindArguments read.2)
      (readLevels r tag mode tokens level outer) := by
  induction tokens generalizing depth level outer with
  | nil => exact rfl
  | cons lexeme rest ih =>
    obtain ⟨token, place⟩ := lexeme
    obtain ⟨inside, behind⟩ := emitted.inside
    have follows := placed_next r tag mode (parenFollows rest) inside nested expects.token
    simp only [readLevels]
    cases next : Progress.next r tag mode token (parenFollows rest) level outer with
    | error e =>
      rw [next] at follows
      exact follows
    | ok progress =>
      rw [next] at follows
      cases progress with
      | finished t =>
        cases token <;> cases depth <;> first | exact behind | cases follows
      | reading level outer =>
        cases token with
        | openParen => exact ih behind follows.1 follows.2
        | closeParen =>
          cases depth with
          | zero => cases follows
          | succ depth => exact ih behind follows.1 follows.2
        | raw | tag | blockMark => cases inside
        | _ => exact ih behind follows.1 follows.2

/-- What follows a closing parenthesis makes no difference to it. -/
theorem next_closeParen (level : Level) (outer : List Level) (paren paren' : Bool) :
    Progress.next r tag mode .closeParen paren level outer =
      Progress.next r tag mode .closeParen paren' level outer := by
  unfold Progress.next
  cases level.pending with
  | scope _ dotted => cases dotted <;> rfl
  | _ => rfl

theorem parenFollows_append {tokens : List Lexeme} (filled : tokens ≠ []) (more : List Lexeme) :
    parenFollows (tokens ++ more) = parenFollows tokens := by
  cases tokens with
  | nil => exact absurd rfl filled
  | cons lexeme rest =>
    obtain ⟨token, place⟩ := lexeme
    cases token <;> rfl

/-- Where levels end, what stands behind makes no difference to how they are read. -/
theorem readLevels_append {tokens left : List Lexeme} {depth : Nat} {level : Level}
    {outer : List Level} (nested : Nested depth level outer)
    (ends : Token.behindList? depth tokens = some left) (more : List Lexeme) :
    readLevels r tag mode (tokens ++ more) level outer =
      (readLevels r tag mode tokens level outer).map fun (t, left) => (t, left ++ more) := by
  induction tokens generalizing depth level outer with
  | nil => cases ends
  | cons lexeme rest ih =>
    obtain ⟨token, place⟩ := lexeme
    have same : Progress.next r tag mode token (parenFollows (rest ++ more)) level outer =
        Progress.next r tag mode token (parenFollows rest) level outer := by
      by_cases last : rest = []
      · subst last
        cases token with
        | closeParen => exact next_closeParen _ _ _ _
        | _ => cases ends
      · rw [parenFollows_append last]
    simp only [List.cons_append, readLevels, same]
    cases next : Progress.next r tag mode token (parenFollows rest) level outer with
    | error e => rfl
    | ok progress =>
      obtain ⟨inside, expects⟩ := stands_of_next next
      have follows := placed_next r tag mode (parenFollows rest) inside nested expects
      rw [next] at follows
      cases progress with
      | finished t => rfl
      | reading level outer =>
        cases token with
        | openParen => exact ih follows.1 ends
        | closeParen =>
          cases depth with
          | zero => cases follows
          | succ depth => exact ih follows.1 ends
        | _ => exact ih follows.1 ends

/-- An argument list that is read is read up to the parenthesis that closes it. -/
theorem behindList?_of_readArguments {tokens left : List Lexeme} {t : Tuple}
    (h : readArguments r tag mode tokens = .ok (t, left)) :
    Token.behindList? 0 tokens = some left :=
  behindList?_of_readLevels (.list rfl) h

/-- In the tokens of a source an argument list never holds a token that cannot be there. -/
theorem placed_readArguments (r : Entities) (tag : String) (mode : FoldMode)
    {tokens : List Lexeme} (emitted : Token.Emitted indicator (.arguments 0) tokens) :
    PlacedIn (fun read => Token.Emitted indicator .behindArguments read.2)
      (readArguments r tag mode tokens) :=
  placed_readLevels emitted (.list rfl) (Level.expects_nothing rfl)

/-- What stands behind an argument list makes no difference to how the list is read. -/
theorem readArguments_append {tokens left : List Lexeme}
    (ends : Token.behindList? 0 tokens = some left)
    (more : List Lexeme) : readArguments r tag mode (tokens ++ more) =
      (readArguments r tag mode tokens).map fun (t, left) => (t, left ++ more) :=
  readLevels_append (.list rfl) ends more

end Lists

end Stencil
