import Stencil.Proofs.Reread
import Stencil.Proofs.ShortestDigits
import Stencil.Proofs.WrittenNumbers

/-!
# The tokens of printed expressions

A printed expression is a text of these tokens. They are legible exactly if every integer in the
expression has a literal.
-/

namespace Stencil

namespace Token

/-- Tokens between parentheses. -/
def parenthesized (tokens : List Token) : List Token := .openParen :: tokens ++ [.closeParen]

/-- Items between brackets. -/
def bracketed (items : List (List Token)) : List Token :=
  .operator .bracketOpen :: [.comma].intercalate items ++ [.operator .bracketClose]

/-- The label of an item in a collection. -/
def ofLabel : Option String → List Token
  | none => []
  | some label => [.literal (.string label), .operator .colon]

/-- A number with its sign. -/
def ofNumber (data : Value) : List Token :=
  match data.unsigned? with
  | some m => [.operator .minus, .literal m]
  | none => [.literal data]

/-- The tokens of a double. What has no literal is spelled as the division that gives it. -/
def ofDouble (d : Float) : List Token :=
  let divided (dividend : List Token) : List Token :=
    parenthesized (dividend ++ [.operator .divide, .literal (.double 0.0)])
  if d.isNaN then divided [.literal (.double 0.0)]
  else if d.isInf then
    if Double.isNegative d then divided [.operator .minus, .literal (.double 1.0)]
    else divided [.literal (.double 1.0)]
  else ofNumber (.double d)

end Token

open Token

mutual
/-- The tokens of a literal. -/
def Value.tokens : Value → List Token
  | .nil | .error _ => [.keyword .isNil]
  | .bool b => [.keyword (if b then .isTrue else .isFalse)]
  | .int i => ofNumber (.int i)
  | .double d => ofDouble d
  | .string s => [.literal (.string s)]
  | .array items => bracketed (Value.tokensItems items)
  | .dictionary [] => [.operator .bracketOpen, .operator .colon, .operator .bracketClose]
  | .dictionary entries => bracketed (Value.tokensEntries entries)

def Value.tokensItems : List Value → List (List Token)
  | [] => []
  | v :: rest => v.tokens :: Value.tokensItems rest

def Value.tokensEntries : List (String × Value) → List (List Token)
  | [] => []
  | (key, v) :: rest => (ofLabel (some key) ++ v.tokens) :: Value.tokensEntries rest
end

/-- The tokens of a path behind a variable. -/
def Variable.pathTokens (path : List String) : List Token :=
  path.flatMap fun name => [.operator .member, .ident name]

/-- The tokens of a variable. -/
def Variable.tokens (v : Variable) : List Token :=
  (match v.scope with
    | none => []
    | some scope =>
      [if scope = Variable.ownScope then .keyword .own else .scope scope, .operator .member]) ++
  .ident v.member :: Variable.pathTokens v.path

/-- An operator as the lexer knows it: a sign is a minus. -/
def Operator.lexeme : Operator → Operator
  | .negate => .minus
  | op => op

namespace Expr

mutual
/-- The tokens of an expression without calls. -/
def tokens : Expr → List Token
  | value data => data.tokens
  | var v => v.tokens
  | unary op e => parenthesized (.operator op.lexeme :: e.tokens)
  | binary .subscript l r =>
    parenthesized (l.tokens ++ .operator .bracketOpen :: (r.tokens ++ [.operator .bracketClose]))
  | binary op l r => parenthesized (l.tokens ++ .operator op :: r.tokens)
  | conditional c t f =>
    parenthesized (c.tokens ++ .operator .question :: (t.tokens ++ .operator .colon :: f.tokens))
  | collection items => bracketed (tokensItems items)
  | _ => []

def tokensItems : List (Option String × Expr) → List (List Token)
  | [] => []
  | (label, e) :: rest => (ofLabel label ++ e.tokens) :: tokensItems rest
end

end Expr

namespace Token

/-- Only legible tokens. -/
def AllLegible (tokens : List Token) : Prop := ∀ t ∈ tokens, t.Legible

@[simp] theorem allLegible_nil : AllLegible [] := by
  simp [AllLegible]

@[simp] theorem allLegible_cons {token : Token} {tokens : List Token} :
    AllLegible (token :: tokens) ↔ token.Legible ∧ AllLegible tokens := by
  simp [AllLegible]

@[simp] theorem allLegible_append {tokens more : List Token} :
    AllLegible (tokens ++ more) ↔ AllLegible tokens ∧ AllLegible more := by
  simp [AllLegible, or_imp, forall_and]

@[simp] theorem legible_operator (op : Operator) : (Token.operator op).Legible := by
  rintro ⟨⟩

@[simp] theorem legible_keyword (word : Keyword) : (Token.keyword word).Legible := by
  rintro ⟨⟩

@[simp] theorem legible_ident (name : String) : (Token.ident name).Legible := by
  rintro ⟨⟩

@[simp] theorem legible_scope (name : String) : (Token.scope name).Legible := by
  rintro ⟨⟩

@[simp] theorem legible_string (s : String) : (Token.literal (.string s)).Legible := by
  rintro ⟨⟩

@[simp] theorem legible_double (d : Float) : (Token.literal (.double d)).Legible := by
  rintro ⟨⟩

@[simp] theorem legible_openParen : openParen.Legible := by
  rintro ⟨⟩

@[simp] theorem legible_closeParen : closeParen.Legible := by
  rintro ⟨⟩

@[simp] theorem legible_comma : comma.Legible := by
  rintro ⟨⟩

@[simp] theorem allLegible_parenthesized {tokens : List Token} :
    AllLegible (parenthesized tokens) ↔ AllLegible tokens := by
  simp [parenthesized]

@[simp] theorem allLegible_bracketed {items : List (List Token)} :
    AllLegible (bracketed items) ↔ ∀ tokens ∈ items, AllLegible tokens := by
  have inner : AllLegible ([comma].intercalate items) ↔ ∀ tokens ∈ items, AllLegible tokens := by
    induction items with
    | nil => simp
    | cons tokens items ih =>
      cases items with
      | nil => simp
      | cons next items =>
        rw [List.intercalate_cons_cons, allLegible_append, allLegible_append, ih]
        simp
  simp [bracketed, inner]

@[simp] theorem allLegible_ofLabel (label : Option String) : AllLegible (ofLabel label) := by
  cases label <;> simp [ofLabel]

/-- A sign in front of the least integer would stand before digits without literal. -/
theorem allLegible_ofNumber_int (i : Int64) :
    AllLegible (ofNumber (.int i)) ↔ i ≠ Int64.minValue := by
  have legible (j : Int64) : (Token.literal (.int j)).Legible ↔ j ≠ Int64.minValue := by
    simp [Legible]
  unfold ofNumber Value.unsigned?
  by_cases negative : i.toInt < 0
  · have same : Int64.ofInt (-i.toInt) = Int64.minValue ↔ i = Int64.minValue := by
      constructor
      · intro least
        have low := i.le_toInt
        rw [← Int64.toInt_inj, Int64.toInt_minValue]
        by_contra more
        have back := congrArg Int64.toInt least
        rw [Int64.toInt_minValue, Int64.toInt_ofInt_of_le (by omega) (by omega)] at back
        omega
      · rintro rfl
        decide
    simp only [if_pos negative, allLegible_cons, allLegible_nil, legible_operator, legible,
      true_and, and_true, ne_eq, same]
  · have other : i ≠ Int64.minValue := by
      rintro rfl
      exact negative (by decide)
    simp [negative, legible, other]

theorem allLegible_ofDouble (d : Float) : AllLegible (ofDouble d) := by
  have number : AllLegible (ofNumber (.double d)) := by
    unfold ofNumber Value.unsigned?
    by_cases negative : (d.isFinite && Double.isNegative d) = true <;> simp [negative]
  unfold ofDouble
  split
  · simp
  · split
    · split <;> simp
    · exact number

end Token

namespace Value

theorem tokensItems_eq_map (items : List Value) : tokensItems items = items.map tokens := by
  induction items with
  | nil => rfl
  | cons v items ih => rw [tokensItems, ih, List.map_cons]

theorem tokensEntries_eq_map (entries : List (String × Value)) :
    tokensEntries entries = entries.map fun entry => ofLabel (some entry.1) ++ entry.2.tokens := by
  induction entries with
  | nil => rfl
  | cons entry entries ih => rw [tokensEntries, ih, List.map_cons]

end Value

mutual
theorem Value.allLegible_tokens (data : Value) :
    AllLegible data.tokens ↔ data.writable = true := by
  match data with
  | .nil | .error _ | .string _ => simp [Value.tokens, Value.writable]
  | .bool b => simp [Value.tokens, Value.writable]
  | .int i => simp [Value.tokens, Value.writable, allLegible_ofNumber_int]
  | .double d => simp [Value.tokens, Value.writable, allLegible_ofDouble]
  | .array items =>
    simp [Value.tokens, Value.writable, Value.allLegible_tokensItems items]
  | .dictionary [] => simp [Value.tokens, Value.writable, Value.writableEntries]
  | .dictionary (entry :: entries) =>
    rw [Value.tokens, allLegible_bracketed, Value.writable,
      Value.allLegible_tokensEntries (entry :: entries)]
    rintro ⟨⟩

theorem Value.allLegible_tokensItems (items : List Value) :
    (∀ tokens ∈ Value.tokensItems items, AllLegible tokens) ↔
      Value.writableItems items = true := by
  match items with
  | [] => simp [Value.tokensItems, Value.writableItems]
  | v :: rest =>
    simp [Value.tokensItems, Value.writableItems, Value.allLegible_tokens v,
      Value.allLegible_tokensItems rest]

theorem Value.allLegible_tokensEntries (entries : List (String × Value)) :
    (∀ tokens ∈ Value.tokensEntries entries, AllLegible tokens) ↔
      Value.writableEntries entries = true := by
  match entries with
  | [] => simp [Value.tokensEntries, Value.writableEntries]
  | (key, v) :: rest =>
    simp [Value.tokensEntries, Value.writableEntries, Value.allLegible_tokens v,
      Value.allLegible_tokensEntries rest]
end

theorem Variable.allLegible_tokens (v : Variable) : AllLegible v.tokens := by
  have path (names : List String) : AllLegible (Variable.pathTokens names) := by
    induction names with
    | nil => simp [Variable.pathTokens]
    | cons name names ih => simpa [Variable.pathTokens] using ih
  unfold Variable.tokens
  split
  · simp [path]
  · split <;> simp [path]

namespace Expr

theorem tokens_binary {op : Operator} (other : op ≠ .subscript) (l r : Expr) :
    (binary op l r).tokens = parenthesized (l.tokens ++ .operator op :: r.tokens) := by
  cases op <;> first | rfl | exact absurd rfl other

theorem tokensItems_eq_map (items : List (Option String × Expr)) :
    tokensItems items = items.map fun item => ofLabel item.1 ++ item.2.tokens := by
  induction items with
  | nil => rfl
  | cons item items ih => rw [tokensItems, ih, List.map_cons]

theorem writableOf_iff (items : List (Option String × Expr)) :
    writableOf items = true ↔ ∀ item ∈ items, item.2.writable = true := by
  induction items with
  | nil => simp [writableOf]
  | cons item items ih => simp [writableOf, ih]

/-- The tokens of an expression are legible if each integer inside has a literal, and only then. -/
theorem Settled.allLegible_tokens {e : Expr} (h : e.Settled) :
    AllLegible e.tokens ↔ e.writable = true := by
  induction h with
  | value => rw [tokens, writable, Value.allLegible_tokens]
  | var => simp [tokens, writable, Variable.allLegible_tokens]
  | unary _ _ _ ih => simp [tokens, writable, ih]
  | @binary op l r _ _ _ _ left right =>
    by_cases other : op = .subscript
    · subst other
      simp [tokens, writable, left, right]
    · simp [tokens_binary other, writable, left, right]
  | conditional _ _ _ _ c t f => simp [tokens, writable, c, t, f, and_assoc]
  | collection _ _ _ _ _ ih =>
    rw [tokens, allLegible_bracketed, tokensItems_eq_map, writable, writableOf_iff]
    simp only [List.forall_mem_map, allLegible_append, allLegible_ofLabel, true_and]
    exact forall_congr' fun item => forall_congr' fun mem => ih item mem

end Expr

end Stencil
