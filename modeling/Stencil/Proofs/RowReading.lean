import Stencil.Parse.Arguments
import Stencil.Proofs.PrintedTokens

/-!
# Rows read from tokens

What tokens add to the argument that is being read, whatever stands in front of them and behind
them. Tokens of operands are put together by operators, parentheses and brackets.
-/

namespace Stencil

/-- The level with more elements in its row. -/
def Level.grown (level : Level) (row : List Expr) : Level := { level with row := level.row ++ row }

/-- The tokens add the elements of a row on levels of some kinds, wherever an operand can stand. -/
def Gives (kinds : LevelKind → Prop) (tokens : List Token) (row : List Expr) : Prop :=
  ∀ (r : Entities) (tag : String) (mode : FoldMode) (lexemes rest : List Lexeme) (level : Level)
    (outer : List Level), lexemes.map (·.token) = tokens → parenFollows rest = false →
    kinds level.kind → level.pending = .nothing → level.lastValued = false →
    readLevels r tag mode (lexemes ++ rest) level outer =
      readLevels r tag mode rest (level.grown row) outer

/-- Levels of every kind. -/
def AnyKind (_ : LevelKind) : Prop := True

/-- Levels in parentheses. -/
def InGroup (kind : LevelKind) : Prop := kind = .group

section Steps

variable {r : Entities} {tag : String} {mode : FoldMode} {level level' : Level}
  {outer outer' : List Level} {row more : List Expr} {tokens others : List Token} {e : Expr}
  {lexemes rest : List Lexeme} {l : Lexeme} {token : Token} {op : Operator}

/-- A token that is read on. -/
theorem readLevels_next (same : l.token = token)
    (next : Progress.next r tag mode token (parenFollows rest) level outer =
      .ok (.reading level' outer')) :
    readLevels r tag mode (l :: rest) level outer = readLevels r tag mode rest level' outer' := by
  rw [readLevels, same, next]

theorem parenFollows_cons (same : l.token = token) (other : token ≠ .openParen) :
    parenFollows (l :: rest) = false := by
  obtain ⟨found, place⟩ := l
  cases same
  cases found with
  | openParen => exact absurd rfl other
  | _ => rfl

namespace Level

@[simp] theorem grown_grown (level : Level) (row more : List Expr) :
    (level.grown row).grown more = level.grown (row ++ more) := by
  simp [grown]

@[simp] theorem grown_pending (level : Level) (row : List Expr) :
    (level.grown row).pending = level.pending := rfl

theorem add_eq_grown (free : level.pending = .nothing) (e : Expr) :
    level.add e = level.grown [e] := by
  unfold add grown
  rw [← free]

@[simp] theorem lastValued_grown (level : Level) (e : Expr) :
    (level.grown [e]).lastValued = e.valued := by
  simp [lastValued, grown]

theorem lastValued_append {row : List Expr} (level : Level) (e : Expr) :
    (level.grown (row ++ [e])).lastValued = e.valued := by
  rw [← grown_grown, lastValued_grown]

theorem takeLast_grown (level : Level) (e : Expr) :
    (level.grown [e]).takeLast? = some (e, level) := by
  simp [takeLast?, grown]

theorem takeLast_append {row : List Expr} (level : Level) (e : Expr) :
    (level.grown (row ++ [e])).takeLast? = some (e, level.grown row) := by
  rw [← grown_grown, takeLast_grown]

end Level

/-- The last element of a row is an operand. -/
def EndsValued (row : List Expr) : Prop := ∃ before e, row = before ++ [e] ∧ e.valued = true

theorem Expr.OperandRow.last {x : Expr} (h : Expr.OperandRow row x) : EndsValued row := by
  cases h with
  | plain hx => exact ⟨[], _, rfl, hx⟩
  | signed hm => exact ⟨[_], _, rfl, hm⟩

theorem next_operator (free : level.pending = .nothing) (plain : op.form ≠ .structural)
    (colon : op ≠ .colon) (minus : op ≠ .minus) (paren : Bool) :
    Progress.next r tag mode (.operator op) paren level outer =
      .ok (.reading (level.grown [.operator op]) outer) := by
  rw [← Level.add_eq_grown free]
  unfold Progress.next Progress.freely
  rw [free]
  cases op <;>
    first | rfl | exact absurd rfl plain | exact absurd rfl colon | exact absurd rfl minus

/-- A minus behind an operand takes two operands, any other is a sign. -/
theorem next_minus (free : level.pending = .nothing) (paren : Bool) :
    Progress.next r tag mode (.operator .minus) paren level outer =
      .ok (.reading (level.grown [.operator (if level.lastValued then .minus else .negate)])
        outer) := by
  rw [← Level.add_eq_grown free]
  unfold Progress.next Progress.freely
  rw [free]
  rfl

/-- A minus in front of an operand is a sign. -/
theorem next_sign (free : level.pending = .nothing) (valued : level.lastValued = false)
    (paren : Bool) : Progress.next r tag mode (.operator .minus) paren level outer =
      .ok (.reading (level.grown [.operator .negate]) outer) := by
  rw [next_minus free, valued]
  rfl

/-- An operator behind an operand. -/
theorem next_binary (free : level.pending = .nothing) (valued : level.lastValued = true)
    (form : op.form = .binary ∨ op.form = .assignment) (paren : Bool) :
    Progress.next r tag mode (.operator op) paren level outer =
      .ok (.reading (level.grown [.operator op]) outer) := by
  by_cases minus : op = .minus
  · rw [minus, next_minus free, valued]
    rfl
  · refine next_operator free ?_ ?_ minus paren
    · rcases form with form | form <;> rw [form] <;> decide
    · rintro rfl
      rcases form with form | form <;> cases form

/-- A colon in parentheses belongs to a conditional. -/
theorem next_colon (free : level.pending = .nothing) (group : level.kind = .group) (paren : Bool) :
    Progress.next r tag mode (.operator .colon) paren level outer =
      .ok (.reading (level.grown [.operator .colon]) outer) := by
  have none : level.labelCandidate? = Option.none := by
    unfold Level.labelCandidate?
    rw [group]
    split <;> first | rfl | (rename_i other; cases other)
  rw [← Level.add_eq_grown free]
  unfold Progress.next Progress.freely
  rw [free]
  simp only [Progress.operator, Progress.colon, none, group, Except.mapError]

theorem next_openParen (free : level.pending = .nothing) (paren : Bool) :
    Progress.next r tag mode .openParen paren level outer =
      .ok (.reading { kind := .group } (level :: outer)) := by
  unfold Progress.next
  rw [free]
  rfl

theorem finish_of_fold (full : level.emptyDictionary = false)
    (folded : Expr.fold (level.foldMode mode) level.row = .ok e)
    {tuple : Tuple} (pushed : level.tuple.push? level.label e = some tuple) :
    level.finish mode = .ok { level with tuple := tuple, label := none, row := [] } := by
  have nonempty : level.row.isEmpty = false := by
    cases eq : level.row with
    | nil =>
      rw [eq] at folded
      cases folded
    | cons => rfl
  unfold Level.finish
  simp only [nonempty, full, folded, pushed]
  rfl

/-- A row that cannot be folded does not end an argument. -/
theorem finish_of_fold_error {error : FoldError} (full : level.emptyDictionary = false)
    (nonempty : level.row ≠ [])
    (failed : Expr.fold (level.foldMode mode) level.row = .error error) :
    level.finish mode = .error (.fold error) := by
  have some : level.row.isEmpty = false := by simpa using nonempty
  unfold Level.finish
  simp only [some, full, failed]
  rfl

/-- A closing parenthesis behind an argument that does not end. -/
theorem readLevels_close_error {m : Malformed} (same : l.token = .closeParen)
    (free : level.pending = .nothing) (failed : level.finish mode = .error m) :
    readLevels r tag mode (l :: rest) level outer = .error (.malformed tag m) := by
  rw [readLevels, same]
  unfold Progress.next
  rw [free]
  simp only [Progress.freely, Progress.closeParen, failed]
  rfl

end Steps

namespace Gives

variable {kinds : LevelKind → Prop} {row more last : List Expr} {tokens others finals : List Token}
  {e l r c t f container : Expr} {token : Token} {op : Operator}

theorem mono (h : Gives AnyKind tokens row) : Gives kinds tokens row :=
  fun r tag mode lexemes rest level outer same follows _ free valued =>
    h r tag mode lexemes rest level outer same follows trivial free valued

theorem single (next : ∀ (r : Entities) (tag : String) (mode : FoldMode) (level : Level)
      (outer : List Level), level.pending = .nothing →
      Progress.next r tag mode token false level outer = .ok (.reading (level.grown [e]) outer)) :
    Gives AnyKind [token] [e] := by
  intro r tag mode lexemes rest level outer whole follows _ free _
  obtain ⟨l, rfl, same⟩ := List.map_eq_singleton_iff.mp whole
  rw [List.singleton_append]
  exact readLevels_next same (by rw [follows]; exact next r tag mode level outer free)

/-- A sign or a negation in front of an operand. -/
theorem front (h : Gives kinds tokens row) (first : token ≠ .openParen ∧
      ∀ (r : Entities) (tag : String) (mode : FoldMode) (level : Level) (outer : List Level)
        (paren : Bool), level.pending = .nothing → level.lastValued = false →
        Progress.next r tag mode token paren level outer =
          .ok (.reading (level.grown [.operator op]) outer)) :
    Gives kinds (token :: tokens) (.operator op :: row) := by
  intro r tag mode lexemes rest level outer whole follows kind free valued
  obtain ⟨l, lexemes, rfl, same, same'⟩ := List.map_eq_cons_iff.mp whole
  have behind : (level.grown [.operator op]).lastValued = false := Level.lastValued_grown level _
  rw [List.cons_append, readLevels_next same (first.2 r tag mode level outer _ free valued),
    h r tag mode lexemes rest (level.grown [.operator op]) outer same' follows kind free behind,
    Level.grown_grown, List.singleton_append]

theorem sign (h : Gives kinds tokens row) :
    Gives kinds (.operator .minus :: tokens) (.operator .negate :: row) :=
  h.front ⟨by rintro ⟨⟩, fun _ _ _ _ _ paren free valued => next_sign free valued paren⟩

theorem negation (h : Gives kinds tokens row) :
    Gives kinds (.operator .not :: tokens) (.operator .not :: row) := by
  refine h.front ⟨by rintro ⟨⟩, fun r tag mode level outer paren free _ => ?_⟩
  exact next_operator free (by decide) (by decide) (by decide) paren

/-- An operator between two operands. -/
theorem between (hl : Gives kinds tokens row) (operand : EndsValued row)
    (hr : Gives kinds others more) (token : Token.operator op ≠ .openParen)
    (next : ∀ (r : Entities) (tag : String) (mode : FoldMode) (level : Level) (outer : List Level)
      (paren : Bool), level.pending = .nothing → kinds level.kind → level.lastValued = true →
      Progress.next r tag mode (.operator op) paren level outer =
        .ok (.reading (level.grown [.operator op]) outer)) :
    Gives kinds (tokens ++ .operator op :: others) (row ++ .operator op :: more) := by
  intro r tag mode lexemes rest level outer whole follows kind free valued
  obtain ⟨front, behind, rfl, left, right⟩ := List.map_eq_append_iff.mp whole
  obtain ⟨o, back, rfl, same, right⟩ := List.map_eq_cons_iff.mp right
  obtain ⟨before, x, rfl, hx⟩ := operand
  have operand : (level.grown (before ++ [x])).lastValued = true := by
    rw [Level.lastValued_append, hx]
  have operator : ((level.grown (before ++ [x])).grown [.operator op]).lastValued = false :=
    Level.lastValued_grown _ _
  rw [List.append_assoc, List.cons_append, hl r tag mode front _ level outer left
      (parenFollows_cons same token) kind free valued,
    readLevels_next same
      (next r tag mode (level.grown (before ++ [x])) outer _ free kind operand),
    hr r tag mode back rest ((level.grown (before ++ [x])).grown [.operator op]) outer right
      follows kind free operator, Level.grown_grown, Level.grown_grown,
    List.singleton_append]

theorem binary (hl : Gives kinds tokens row) (operand : EndsValued row)
    (hr : Gives kinds others more) (form : op.form = .binary ∨ op.form = .assignment) :
    Gives kinds (tokens ++ .operator op :: others) (row ++ .operator op :: more) := by
  exact hl.between operand hr (by rintro ⟨⟩) fun r tag mode level outer paren free _ valued =>
    next_binary free valued form paren

/-- The operators of a conditional between three operands, inside parentheses. -/
theorem conditional {crow trow frow : List Expr} {ctokens ttokens ftokens : List Token}
    (hc : Gives AnyKind ctokens crow) (operand : Expr.OperandRow crow c)
    (ht : Gives AnyKind ttokens trow) (operand' : Expr.OperandRow trow t)
    (hf : Gives AnyKind ftokens frow) :
    Gives InGroup (ctokens ++ .operator .question :: (ttokens ++ .operator .colon :: ftokens))
      (crow ++ .operator .question :: (trow ++ .operator .colon :: frow)) := by
  have behind : Gives InGroup (ttokens ++ .operator .colon :: ftokens)
      (trow ++ .operator .colon :: frow) :=
    ht.mono.between operand'.last hf.mono (by rintro ⟨⟩)
      fun r tag mode level outer paren free group _ => next_colon free group paren
  refine hc.mono.between operand.last behind (by rintro ⟨⟩)
    fun r tag mode level outer paren free _ _ => ?_
  exact next_operator free (by decide) (by decide) (by decide) paren

/-- Parentheses around a row that is folded. -/
theorem parens (h : Gives InGroup tokens row) (folded : Expr.fold .strict row = .ok e) :
    Gives AnyKind (Token.parenthesized tokens) [e] := by
  intro r tag mode lexemes rest level outer whole follows _ free _
  obtain ⟨first, behind, rfl, opening, right⟩ := List.map_eq_cons_iff.mp whole
  obtain ⟨inner, back, rfl, inside, right⟩ := List.map_eq_append_iff.mp right
  obtain ⟨final, rfl, closing⟩ := List.map_eq_singleton_iff.mp right
  rw [List.cons_append, readLevels_next opening (next_openParen free _), List.append_assoc,
    List.singleton_append, h r tag mode inner _ { kind := .group } (level :: outer) inside
      (parenFollows_cons closing (by rintro ⟨⟩)) rfl rfl rfl]
  refine readLevels_next closing ?_
  have closed : (Level.grown { kind := .group } row).finish mode =
      .ok { kind := .group, tuple := [(none, e)] } := finish_of_fold rfl (by exact folded) rfl
  simp only [Progress.next, Progress.freely, Progress.closeParen, closed]
  rw [← Level.add_eq_grown free]
  rfl

/-- A subscript binds to the last element in front of it. -/
theorem subscript {before : List Expr} (hl : Gives AnyKind tokens (before ++ [container]))
    (valued : container.valued = true) (hr : Gives AnyKind others more)
    (folded : Expr.fold .strict more = .ok r)
    (made : (Expr.binary .subscript container r).foldConstant = .ok e) :
    Gives AnyKind (tokens ++ .operator .bracketOpen :: (others ++ [.operator .bracketClose]))
      (before ++ [e]) := by
  intro entities tag mode lexemes rest level outer whole follows _ free valued'
  obtain ⟨front, behind, rfl, left, right⟩ := List.map_eq_append_iff.mp whole
  obtain ⟨first, behind, rfl, opening, right⟩ := List.map_eq_cons_iff.mp right
  obtain ⟨inner, behind, rfl, inside, right⟩ := List.map_eq_append_iff.mp right
  obtain ⟨final, rfl, closing⟩ := List.map_eq_singleton_iff.mp right
  have operand : (level.grown (before ++ [container])).lastValued = true := by
    rw [Level.lastValued_append, valued]
  have opened (paren : Bool) : Progress.next entities tag mode (.operator .bracketOpen) paren
      (level.grown (before ++ [container])) outer =
      .ok (.reading { kind := .subscript container } (level.grown before :: outer)) := by
    unfold Progress.next Progress.freely
    rw [Level.grown_pending, free]
    simp only [Progress.operator, Progress.openBracket, operand, Level.takeLast_append,
      Except.mapError]
  have closed : (Level.grown { kind := .subscript container } more).finish mode =
      .ok { kind := .subscript container, tuple := [(none, r)] } :=
    finish_of_fold rfl (by exact folded) rfl
  have made' : (Expr.binary .subscript container r).folded = .ok e := by
    unfold Expr.folded
    rw [made]
    rfl
  rw [List.append_assoc, List.cons_append, hl entities tag mode front _ level outer left
      (parenFollows_cons opening (by rintro ⟨⟩)) trivial free valued',
    readLevels_next opening (opened _), List.append_assoc, List.singleton_append,
    hr entities tag mode inner _ { kind := .subscript container } (level.grown before :: outer)
      inside (parenFollows_cons closing (by rintro ⟨⟩)) trivial rfl rfl]
  refine readLevels_next closing ?_
  have closing : Progress.closeBracket mode (Level.grown { kind := .subscript container } more)
      (level.grown before :: outer) = .ok (.reading ((level.grown before).add e) outer) := by
    unfold Progress.closeBracket
    rw [closed]
    simp only [bind, Except.bind, Tuple.single?, made', Except.mapError, Progress.give]
  have free' : (level.grown before).pending = .nothing := free
  rw [← Level.grown_grown, ← Level.add_eq_grown free']
  show (Progress.closeBracket mode _ _).mapError _ = _
  rw [closing]
  rfl

theorem literal (data : Value) : Gives AnyKind [.literal data] [.value data] := by
  refine single fun r tag mode level outer free => ?_
  unfold Progress.next
  rw [free, ← Level.add_eq_grown free]
  rfl

theorem keyword {word : Keyword} (e : Expr)
    (reads : ∀ (level : Level) (outer : List Level),
      Progress.keyword word level outer = .reading (level.add e) outer) :
    Gives AnyKind [.keyword word] [e] := by
  refine single fun r tag mode level outer free => ?_
  unfold Progress.next
  rw [free, ← Level.add_eq_grown free, ← reads]
  rfl

theorem ident (name : String) : Gives AnyKind [.ident name] [.var (.plain name)] := by
  refine single fun r tag mode level outer free => ?_
  unfold Progress.next
  rw [free, ← Level.add_eq_grown free]
  rfl

/-- A token that announces a scope, the point and the member of the scope. -/
theorem inScope {scope name : String}
    (first : ∀ (r : Entities) (tag : String) (mode : FoldMode) (level : Level)
      (outer : List Level) (paren : Bool), level.pending = .nothing →
      Progress.next r tag mode token paren level outer =
        .ok (.reading (level.await (.scope scope false)) outer)) :
    Gives AnyKind [token, .operator .member, .ident name] [.var (.inScope scope name)] := by
  intro r tag mode lexemes rest level outer whole _ _ free _
  obtain ⟨l, lexemes, rfl, opening, whole⟩ := List.map_eq_cons_iff.mp whole
  obtain ⟨point, lexemes, rfl, middle, whole⟩ := List.map_eq_cons_iff.mp whole
  obtain ⟨member, rfl, closing⟩ := List.map_eq_singleton_iff.mp whole
  have dotted (paren : Bool) : Progress.next r tag mode (.operator .member) paren
      (level.await (.scope scope false)) outer =
      .ok (.reading (level.await (.scope scope true)) outer) := rfl
  rw [List.cons_append, readLevels_next opening (first r tag mode level outer _ free),
    List.cons_append, readLevels_next middle (dotted _), ← Level.add_eq_grown free]
  exact readLevels_next closing rfl

theorem scope (scope name : String) :
    Gives AnyKind [.scope scope, .operator .member, .ident name] [.var (.inScope scope name)] := by
  refine inScope fun r tag mode level outer paren free => ?_
  unfold Progress.next
  rw [free]
  rfl

theorem own (name : String) : Gives AnyKind [.keyword .own, .operator .member, .ident name]
    [.var (.inScope Variable.ownScope name)] := by
  refine inScope fun r tag mode level outer paren free => ?_
  unfold Progress.next
  rw [free]
  rfl

/-- One more step on the path of a variable. -/
theorem member {v : Variable} (h : Gives AnyKind tokens [.var v]) (name : String) :
    Gives AnyKind (tokens ++ [.operator .member, .ident name]) [.var (v.extend name)] := by
  intro r tag mode lexemes rest level outer whole follows _ free valued
  obtain ⟨front, back, rfl, left, right⟩ := List.map_eq_append_iff.mp whole
  obtain ⟨point, back, rfl, middle, right⟩ := List.map_eq_cons_iff.mp right
  obtain ⟨name', rfl, closing⟩ := List.map_eq_singleton_iff.mp right
  have behind : (level.grown [.var v]).lastValued = true := Level.lastValued_grown level _
  have last := level.takeLast_grown (.var v)
  have pointed (paren : Bool) : Progress.next r tag mode (.operator .member) paren
      (level.grown [.var v]) outer = .ok (.reading (level.await (.member (.var v))) outer) := by
    unfold Progress.next Progress.freely
    rw [Level.grown_pending, free]
    simp only [Progress.operator, Progress.point, behind, last, Except.mapError]
  rw [List.append_assoc, List.cons_append, List.singleton_append,
    h r tag mode front _ level outer left (parenFollows_cons middle (by rintro ⟨⟩)) trivial free
      valued, readLevels_next middle (pointed _), ← Level.add_eq_grown free]
  refine readLevels_next closing ?_
  rw [follows]
  rfl

end Gives

theorem Gives.path {tokens : List Token} {v : Variable} (h : Gives AnyKind tokens [.var v])
    (path : List String) : Gives AnyKind (tokens ++ Variable.pathTokens path)
      [.var { v with path := v.path ++ path }] := by
  induction path generalizing tokens v with
  | nil => simpa [Variable.pathTokens] using h
  | cons name path ih =>
    have longer := ih (h.member name)
    simpa [Variable.pathTokens, Variable.extend] using longer

/-- A collection that is being read, in front of an item. -/
def Level.collecting (t : Tuple) (afterComma : Bool) : Level :=
  { kind := .collection, tuple := t, afterComma }

section Collections

variable {r : Entities} {tag : String} {mode : FoldMode} {outer : List Level} {t : Tuple}
  {lexemes rest : List Lexeme} {label : Option String} {e : Expr} {comma : Bool}

/-- The label of an item. -/
theorem readLevels_label (same : lexemes.map (·.token) = Token.ofLabel label) :
    readLevels r tag mode (lexemes ++ rest) (.collecting t comma) outer =
      readLevels r tag mode rest { Level.collecting t comma with label := label } outer := by
  cases label with
  | none =>
    rw [List.map_eq_nil_iff.mp same]
    rfl
  | some label =>
    obtain ⟨name, lexemes, rfl, opening, same⟩ := List.map_eq_cons_iff.mp same
    obtain ⟨colon, rfl, closing⟩ := List.map_eq_singleton_iff.mp same
    rw [List.cons_append, readLevels_next opening rfl, List.singleton_append,
      readLevels_next closing rfl]
    rfl

theorem push?_of_nodup {more : Tuple} (h : ((t ++ (label, e) :: more).filterMap Prod.fst).Nodup)
    (x : Expr) : t.push? label x = some (t ++ [(label, x)]) := by
  unfold Tuple.push?
  rw [if_neg]
  intro used
  cases label with
  | none => cases used
  | some label =>
    obtain ⟨item, mem, same⟩ := List.any_eq_true.mp used
    rw [beq_iff_eq] at same
    rw [List.filterMap_append, List.nodup_append] at h
    exact h.2.2 label (List.mem_filterMap.mpr ⟨item, mem, same⟩) label
      (List.mem_filterMap.mpr ⟨_, List.mem_cons_self, rfl⟩) rfl

variable {tokensOf : Expr → List Token} {rowOf : Expr → List Expr} {resultOf : Expr → Expr}
  {items : Tuple}

/-- What an item is read as, and what its row is folded to. -/
def ReadsItem (tokensOf : Expr → List Token) (rowOf : Expr → List Expr) (resultOf : Expr → Expr)
    (e : Expr) : Prop :=
  Gives AnyKind (tokensOf e) (rowOf e) ∧ Expr.fold .strict (rowOf e) = .ok (resultOf e)

/-- One item, up to the comma or the bracket behind it. -/
theorem reads_item (r : Entities) (tag : String) (mode : FoldMode) (outer : List Level)
    (comma : Bool) (rest : List Lexeme) (h : ReadsItem tokensOf rowOf resultOf e) {more : Tuple}
    (distinct : ((t ++ (label, e) :: more).filterMap Prod.fst).Nodup)
    (same : lexemes.map (·.token) = Token.ofLabel label ++ tokensOf e)
    (follows : parenFollows rest = false) : ∃ level : Level,
      level.kind = .collection ∧ level.pending = .nothing ∧ level.row ≠ [] ∧
      level.finish mode = .ok (.collecting (t ++ [(label, resultOf e)]) comma) ∧
      readLevels r tag mode (lexemes ++ rest) (.collecting t comma) outer =
        readLevels r tag mode rest level outer := by
  obtain ⟨gives, folded⟩ := h
  obtain ⟨front, back, rfl, left, right⟩ := List.map_eq_append_iff.mp same
  refine ⟨Level.grown { Level.collecting t comma with label := label } (rowOf e), rfl, rfl, ?_,
    finish_of_fold rfl (by exact folded) (push?_of_nodup distinct _), ?_⟩
  · intro empty
    have nothing : rowOf e = [] := empty
    rw [nothing] at folded
    cases folded
  · rw [List.append_assoc, readLevels_label left]
    exact gives r tag mode back rest _ outer right follows trivial rfl rfl

/-- Items between commas; the induction carries the tuple that is read so far. -/
theorem reads_items (comma : Bool) (nonempty : items ≠ [])
    (h : ∀ item ∈ items, ReadsItem tokensOf rowOf resultOf item.2)
    (distinct : ((t ++ items).filterMap Prod.fst).Nodup)
    (same : lexemes.map (·.token) =
      [.comma].intercalate (items.map fun item => Token.ofLabel item.1 ++ tokensOf item.2))
    (follows : parenFollows rest = false) : ∃ (level : Level) (afterComma : Bool),
      level.kind = .collection ∧ level.pending = .nothing ∧
      level.finish mode =
        .ok (.collecting (t ++ items.map fun item => (item.1, resultOf item.2)) afterComma) ∧
      readLevels r tag mode (lexemes ++ rest) (.collecting t comma) outer =
        readLevels r tag mode rest level outer := by
  induction items generalizing t lexemes comma with
  | nil => exact absurd rfl nonempty
  | cons item items ih =>
    obtain ⟨label, e⟩ := item
    have first := h _ List.mem_cons_self
    cases items with
    | nil =>
      rw [List.map_singleton, List.intercalate_singleton] at same
      obtain ⟨level, kind, free, _, finished, read⟩ :=
        reads_item r tag mode outer comma rest first distinct same follows
      exact ⟨level, comma, kind, free, finished, read⟩
    | cons item items =>
      rw [List.map_cons, List.map_cons, List.intercalate_cons_cons] at same
      obtain ⟨front, more, rfl, left, right⟩ := List.map_eq_append_iff.mp same
      obtain ⟨front, back, rfl, inside, behind⟩ := List.map_eq_append_iff.mp left
      obtain ⟨separator, rfl, sep⟩ := List.map_eq_singleton_iff.mp behind
      obtain ⟨middle, kind, free, filled, finished, read⟩ :=
        reads_item r tag mode outer comma (separator :: (more ++ rest)) first distinct inside
          (parenFollows_cons sep (by rintro ⟨⟩))
      have next (paren : Bool) : Progress.next r tag mode .comma paren middle outer =
          .ok (.reading (.collecting (t ++ [(label, resultOf e)]) true) outer) := by
        have empty : middle.row.isEmpty = false := by simpa using filled
        unfold Progress.next Progress.freely Progress.comma
        rw [free]
        simp only [kind, empty, finished]
        rfl
      have distinct' :
          ((t ++ [(label, resultOf e)] ++ item :: items).filterMap Prod.fst).Nodup := by
        rw [List.append_assoc, List.filterMap_append] at *
        cases label <;> exact distinct
      obtain ⟨level, afterComma, kind', free', finished', read'⟩ :=
        ih true (by simp) (fun i mem => h i (.tail _ mem)) distinct' right
      refine ⟨level, afterComma, kind', free', ?_, ?_⟩
      · rw [finished', List.append_assoc]
        rfl
      · rw [List.append_assoc, List.append_assoc, List.singleton_append, read,
          readLevels_next sep (next _), read']

/-- A collection of items. -/
theorem Gives.collection (items : Tuple)
    (h : ∀ item ∈ items, ReadsItem tokensOf rowOf resultOf item.2)
    (distinct : (items.filterMap Prod.fst).Nodup) (alike : items.isCollection = true)
    (made : (Expr.collection (items.map fun item => (item.1, resultOf item.2))).foldConstant =
      .ok e) :
    Gives AnyKind
      (Token.bracketed (items.map fun item => Token.ofLabel item.1 ++ tokensOf item.2)) [e] := by
  intro r tag mode lexemes rest level outer whole follows _ free valued
  obtain ⟨first, behind, rfl, opening, right⟩ := List.map_eq_cons_iff.mp whole
  obtain ⟨inner, behind, rfl, inside, right⟩ := List.map_eq_append_iff.mp right
  obtain ⟨final, rfl, closing⟩ := List.map_eq_singleton_iff.mp right
  have opened (paren : Bool) : Progress.next r tag mode (.operator .bracketOpen) paren level outer =
      .ok (.reading (.collecting [] false) (level :: outer)) := by
    unfold Progress.next Progress.freely
    rw [free]
    simp only [Progress.operator, Progress.openBracket, valued]
    rfl
  obtain ⟨last, afterComma, kind, free', finished, read⟩ : ∃ (last : Level) (afterComma : Bool),
      last.kind = .collection ∧ last.pending = .nothing ∧
      last.finish mode =
        .ok (.collecting (items.map fun item => (item.1, resultOf item.2)) afterComma) ∧
      readLevels r tag mode (inner ++ final :: rest) (.collecting [] false) (level :: outer) =
        readLevels r tag mode (final :: rest) last (level :: outer) := by
    cases items with
    | nil =>
      rw [List.map_nil, List.intercalate_nil] at inside
      rw [List.map_eq_nil_iff.mp inside]
      exact ⟨.collecting [] false, false, rfl, rfl, rfl, rfl⟩
    | cons item items =>
      exact reads_items (t := []) false (by simp) h distinct inside
        (parenFollows_cons closing (by rintro ⟨⟩))
  have alike' : Tuple.isCollection (items.map fun item => (item.1, resultOf item.2)) = true := by
    rw [← alike]
    unfold Tuple.isCollection Tuple.anyLabel Tuple.allLabelled
    rw [List.any_map, List.all_map]
    rfl
  have collected : (Level.collecting (items.map fun item => (item.1, resultOf item.2))
      afterComma).collected = .ok e := by
    unfold Level.collected Expr.folded
    simp only [Level.collecting, alike', made]
    rfl
  have closed (paren : Bool) : Progress.next r tag mode (.operator .bracketClose) paren last
      (level :: outer) = .ok (.reading (level.grown [e]) outer) := by
    rw [← Level.add_eq_grown free]
    unfold Progress.next Progress.freely
    rw [free']
    show (Progress.closeBracket mode last (level :: outer)).mapError _ = _
    unfold Progress.closeBracket
    rw [finished]
    simp only [bind, Except.bind]
    rw [collected]
    rfl
  rw [List.cons_append, readLevels_next opening (opened _), List.append_assoc,
    List.singleton_append, read, readLevels_next closing (closed _)]

/-- The brackets of the empty dictionary. -/
theorem Gives.emptyDictionary :
    Gives AnyKind [.operator .bracketOpen, .operator .colon, .operator .bracketClose]
      [.value (.dictionary [])] := by
  intro r tag mode lexemes rest level outer whole _ _ free valued
  obtain ⟨first, lexemes, rfl, opening, whole⟩ := List.map_eq_cons_iff.mp whole
  obtain ⟨colon, lexemes, rfl, middle, whole⟩ := List.map_eq_cons_iff.mp whole
  obtain ⟨final, rfl, closing⟩ := List.map_eq_singleton_iff.mp whole
  have opened (paren : Bool) : Progress.next r tag mode (.operator .bracketOpen) paren level outer =
      .ok (.reading (.collecting [] false) (level :: outer)) := by
    unfold Progress.next Progress.freely
    rw [free]
    simp only [Progress.operator, Progress.openBracket, valued]
    rfl
  rw [List.cons_append, readLevels_next opening (opened _), List.cons_append,
    readLevels_next middle rfl, ← Level.add_eq_grown free]
  exact readLevels_next closing rfl

end Collections

end Stencil
