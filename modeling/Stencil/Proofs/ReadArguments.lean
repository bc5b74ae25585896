import Stencil.Proofs.ParseSteps
import Stencil.Proofs.Settled

/-!
# What reading arguments keeps

The levels of an argument list hold elements of rows and finished arguments. A property that the
values in the tokens have, and that computing an operation and resolving a call keep, is kept by
every token, so that all arguments that are read have it.
-/

namespace Stencil

/-- Values that the tokens of a source give without computation. -/
inductive StandsIn (source : List Lexeme) : Value → Prop
  | literal {data : Value} {place : Text.Location} (mem : ⟨.literal data, place⟩ ∈ source) :
      StandsIn source data
  | isTrue {place : Text.Location} (mem : ⟨.keyword .isTrue, place⟩ ∈ source) :
      StandsIn source (.bool true)
  | isFalse {place : Text.Location} (mem : ⟨.keyword .isFalse, place⟩ ∈ source) :
      StandsIn source (.bool false)
  | isNil {place : Text.Location} (mem : ⟨.keyword .isNil, place⟩ ∈ source) : StandsIn source .nil
  /-- The name of a member. -/
  | member {name : String} {place : Text.Location} (mem : ⟨.ident name, place⟩ ∈ source) :
      StandsIn source (.string name)
  /-- The empty dictionary, a colon in brackets. -/
  | colon {place : Text.Location} (mem : ⟨.operator .colon, place⟩ ∈ source) :
      StandsIn source (.dictionary [])

/-- A property of expressions that reading argument lists of a source keeps. -/
structure Expr.KeptByReading (r : Entities) (source : List Lexeme) (P : Expr → Prop) : Prop where
  value {data : Value} (stands : StandsIn source data) : P (.value data)
  keyword (word : Keyword) : P (.keyword word)
  operator (op : Operator) : P (.operator op)
  var (v : Variable) : P (.var v)
  unary {op : Operator} {e result : Expr} (operand : P e)
      (made : (Expr.unary op e).folded = .ok result) : P result
  binary {op : Operator} {l r result : Expr} (left : P l) (right : P r)
      (made : (Expr.binary op l r).folded = .ok result) : P result
  conditional {c t f result : Expr} (condition : P c) (whenTrue : P t) (whenFalse : P f)
      (made : (Expr.conditional c t f).folded = .ok result) : P result
  sequence {row : List Expr} (all : ∀ e ∈ row, P e) : P (.sequence row)
  collection {items : Tuple} {result : Expr} (all : ∀ item ∈ items, P item.2)
      (made : (Expr.collection items).folded = .ok result) : P result
  call {tag name : String} {method : Bool} {args : Tuple} {result : Expr}
      (all : ∀ item ∈ args, P item.2) (made : r.resolveCall tag name method args = .ok result) :
      P result

/-- All items of an argument list have a property. -/
def Tuple.Each (P : Expr → Prop) (t : Tuple) : Prop := ∀ item ∈ t, P item.2

/-- What has to come next goes on with something that has a property. -/
def Pending.Holds (P : Expr → Prop) : Pending → Prop
  | .member receiver => P receiver
  | .callee _ receiver => ∀ e, receiver = some e → P e
  | .scope _ _ | .nothing => True

/-- All that a level holds has a property. -/
structure Level.Holds (P : Expr → Prop) (l : Level) : Prop where
  tuple : l.tuple.Each P
  row : ∀ e ∈ l.row, P e
  pending : l.pending.Holds P
  container : ∀ e, l.kind = .subscript e → P e
  colon : l.emptyDictionary = true → P (.value (.dictionary []))

/-- Progress through levels that hold what has a property. -/
inductive Progress.Holds (P : Expr → Prop) : Progress → Prop
  | finished {t : Tuple} (h : t.Each P) : Progress.Holds P (.finished t)
  | reading {level : Level} {outer : List Level} (h : level.Holds P)
      (more : ∀ l ∈ outer, l.Holds P) : Progress.Holds P (.reading level outer)

/-- What reading an argument list among the tokens of a source comes to. -/
inductive Progress.Reached (r : Entities) (source : List Lexeme) (tag : String) (mode : FoldMode) :
    Progress → Prop
  | start : Progress.Reached r source tag mode (.reading { kind := .top } [])
  | next {level : Level} {outer : List Level} {token : Token} {place : Text.Location}
      {parenFollows : Bool} {p : Progress}
      (h : Progress.Reached r source tag mode (.reading level outer))
      (mem : ⟨token, place⟩ ∈ source)
      (made : Progress.next r tag mode token parenFollows level outer = .ok p) :
      Progress.Reached r source tag mode p

theorem Progress.reached_of_readLevels {r : Entities} {source tokens rest : List Lexeme}
    {tag : String} {mode : FoldMode} (sub : tokens ⊆ source) {level : Level} {outer : List Level}
    {t : Tuple} (h : Progress.Reached r source tag mode (.reading level outer))
    (made : readLevels r tag mode tokens level outer = .ok (t, rest)) :
    Progress.Reached r source tag mode (.finished t) := by
  induction tokens generalizing level outer with
  | nil => cases made
  | cons lexeme tokens ih =>
    have mem : ⟨lexeme.token, lexeme.location⟩ ∈ source := sub List.mem_cons_self
    have behind : tokens ⊆ source := fun _ inside => sub (.tail _ inside)
    simp only [readLevels] at made
    split at made
    · cases made
    · rename_i next
      cases made
      exact .next h mem next
    · rename_i next
      exact ih behind (.next h mem next) made

section Levels

variable {P : Expr → Prop}

namespace Tuple.Each

variable {t : Tuple}

theorem push? {label : Option String} {e : Expr} {result : Tuple} (h : t.Each P) (holds : P e)
    (made : t.push? label e = some result) : result.Each P := by
  unfold Tuple.push? at made
  split at made
  · cases made
  · cases made
    intro item mem
    rcases List.mem_append.mp mem with mem | mem
    · exact h item mem
    · rw [List.mem_singleton.mp mem]
      exact holds

theorem single? {e : Expr} (h : t.Each P) (single : t.single? = some e) : P e := by
  rw [TagSite.eq_of_single? single] at h
  exact h _ List.mem_cons_self

end Tuple.Each

namespace Level.Holds

variable {l : Level}

theorem opened (kind : LevelKind) (container : ∀ e, kind = .subscript e → P e) :
    Level.Holds P { kind := kind } :=
  ⟨by simp [Tuple.Each], by simp, trivial, container, by simp⟩

theorem add {e : Expr} (h : l.Holds P) (holds : P e) : (l.add e).Holds P := by
  refine ⟨h.tuple, fun x mem => ?_, trivial, h.container, h.colon⟩
  rcases List.mem_append.mp mem with mem | mem
  · exact h.row x mem
  · rw [List.mem_singleton.mp mem]
    exact holds

theorem await {pending : Pending} (h : l.Holds P) (holds : pending.Holds P) :
    (l.await pending).Holds P :=
  ⟨h.tuple, h.row, holds, h.container, h.colon⟩

theorem takeLast? {e : Expr} {l' : Level} (h : l.Holds P) (taken : l.takeLast? = some (e, l')) :
    P e ∧ l'.Holds P := by
  unfold Level.takeLast? at taken
  obtain ⟨last, found, eq⟩ := Option.map_eq_some_iff.mp taken
  cases eq
  refine ⟨h.row _ (List.mem_of_getLast? found), ?_⟩
  exact ⟨h.tuple, fun x mem => h.row x (List.dropLast_subset _ mem), h.pending, h.container,
    h.colon⟩

end Level.Holds

namespace Progress

variable {level : Level} {outer : List Level} {p : Progress}

theorem holds_of_give {e : Expr} (holds : P e) (more : ∀ l ∈ outer, l.Holds P)
    (h : give e outer = .ok p) : p.Holds P := by
  cases outer with
  | nil => cases h
  | cons parent outer =>
    cases h
    exact .reading ((more parent List.mem_cons_self).add holds) fun l mem => more l (.tail _ mem)

theorem holds_openBracket (h : level.Holds P) (more : ∀ l ∈ outer, l.Holds P) :
    (openBracket level outer).Holds P := by
  unfold openBracket
  split
  · rename_i container parent _ taken
    have last := h.takeLast? taken
    refine .reading (.opened _ ?_) (by simpa using ⟨last.2, more⟩)
    rintro e ⟨⟩
    exact last.1
  · exact .reading (.opened _ (by rintro e ⟨⟩)) (by simpa using ⟨h, more⟩)

theorem holds_of_point (h : level.Holds P) (more : ∀ l ∈ outer, l.Holds P)
    (made : point level outer = .ok p) : p.Holds P := by
  unfold point at made
  split at made
  · rename_i receiver l _ taken
    cases made
    have last := h.takeLast? taken
    exact .reading (last.2.await last.1) more
  · cases made

end Progress

end Levels

namespace Expr.KeptByReading

variable {r : Entities} {source : List Lexeme} {P : Expr → Prop} (keeps : KeptByReading r source P)
include keeps

/-- A place in a row whose elements have the property. -/
theorem of_place {place : Redex} (all : ∀ e ∈ place.items, P e) {e : Expr}
    (h : place.expr.folded = .ok e) : P e := by
  cases place with
  | unary before op operand after => exact keeps.unary (all operand (by simp [Redex.items])) h
  | binary before left op right after =>
    exact keeps.binary (all left (by simp [Redex.items])) (all right (by simp [Redex.items])) h
  | ternary before c t f after =>
    exact keeps.conditional (all c (by simp [Redex.items])) (all t (by simp [Redex.items]))
      (all f (by simp [Redex.items])) h

theorem of_reduce {row result : List Expr} (all : ∀ e ∈ row, P e)
    (h : reduce row = .ok result) : ∀ e ∈ result, P e := by
  induction hn : row.length using Nat.strongRecOn generalizing row with
  | ind n ih =>
    rw [reduce_eq] at h
    split at h
    · cases h
      exact all
    · rename_i place next
      split at h
      · cases h
      · rename_i e made
        have inside : place.items = row := Redex.items_of_next? next
        subst inside
        refine ih _ ?_ ?_ h rfl
        · rw [← hn]
          exact place.length_replace_lt e
        · intro x mem
          rcases Redex.mem_replace mem with rfl | mem
          · exact keeps.of_place all made
          · exact all x mem

theorem of_finish {mode : FoldMode} {row : List Expr} {e : Expr} (all : ∀ e ∈ row, P e)
    (h : finish mode row = .ok e) : P e := by
  have leftover {row : List Expr} (all : ∀ e ∈ row, P e)
      (h : finish.leftover mode row = .ok e) : P e := by
    unfold finish.leftover at h
    split at h
    · cases h
      exact keeps.sequence all
    · split at h
      · cases h
        exact keeps.sequence all
      · split at h <;> cases h
  unfold finish at h
  split at h
  · split at h
    · cases h
      exact all e List.mem_cons_self
    · exact leftover all h
  · exact leftover all h

/-- A row whose elements have the property is folded to an argument that has it. -/
theorem of_fold {mode : FoldMode} {row : List Expr} {e : Expr} (all : ∀ e ∈ row, P e)
    (h : fold mode row = .ok e) : P e := by
  unfold fold at h
  split at h
  · cases h
  · split at h
    · cases h
    · split at h
      · cases h
      · rename_i result reduced
        exact keeps.of_finish (keeps.of_reduce all reduced) h

theorem finish {mode : FoldMode} {l l' : Level} (h : l.Holds P) (made : l.finish mode = .ok l') :
    l'.Holds P := by
  unfold Level.finish at made
  split at made
  · split at made
    · cases made
    · split at made
      · cases made
      · cases made
        exact h
  · split at made
    · cases made
    · split at made
      · cases made
      · rename_i e folded
        split at made
        · rename_i tuple pushed
          cases made
          exact ⟨h.tuple.push? (keeps.of_fold h.row folded) pushed, by simp, h.pending,
            h.container, h.colon⟩
        · cases made

theorem collected {l : Level} {e : Expr} (h : l.Holds P) (made : l.collected = .ok e) : P e := by
  unfold Level.collected at made
  split at made
  · rename_i empty
    cases made
    exact h.colon empty
  · split at made
    · cases made
    · exact keeps.collection h.tuple (ok_of_mapError made)

theorem access {receiver e : Expr} {name : String} {place : Text.Location} (holds : P receiver)
    (mem : ⟨.ident name, place⟩ ∈ source) (made : receiver.access name = .ok e) : P e := by
  unfold Expr.access at made
  split at made
  · cases made
    exact keeps.var _
  · exact keeps.binary holds (keeps.value (.member mem)) (ok_of_mapError made)

section Progress

open Progress

variable {tag : String} {mode : FoldMode} {level : Level} {outer : List Level} {p : Progress}
  {place : Text.Location}

theorem closeParen (h : level.Holds P) (more : ∀ l ∈ outer, l.Holds P)
    (made : Progress.closeParen r tag mode level outer = .ok p) : p.Holds P := by
  obtain ⟨closed, finished, made⟩ := ok_of_bind made
  have inner := keeps.finish h (ok_of_mapError finished)
  split at made
  · cases made
    exact .finished inner.tuple
  · split at made
    · rename_i e single
      exact holds_of_give (inner.tuple.single? single) more (ok_of_mapError made)
    · cases made
  · obtain ⟨e, resolved, made⟩ := ok_of_bind made
    exact holds_of_give (keeps.call inner.tuple resolved) more (ok_of_mapError made)
  · cases made
  · cases made

theorem closeBracket (h : level.Holds P) (more : ∀ l ∈ outer, l.Holds P)
    (made : Progress.closeBracket mode level outer = .ok p) : p.Holds P := by
  obtain ⟨closed, finished, made⟩ := ok_of_bind made
  have inner := keeps.finish h finished
  split at made
  · rename_i container kind
    split at made
    · rename_i key single
      obtain ⟨e, folded, made⟩ := ok_of_bind made
      have holds := keeps.binary (inner.container _ kind) (inner.tuple.single? single)
        (ok_of_mapError folded)
      exact holds_of_give holds more made
    · cases made
  · obtain ⟨e, collected, made⟩ := ok_of_bind made
    exact holds_of_give (keeps.collected inner collected) more made
  · cases made

theorem comma (h : level.Holds P) (more : ∀ l ∈ outer, l.Holds P)
    (made : Progress.comma mode level outer = .ok p) : p.Holds P := by
  unfold Progress.comma at made
  split at made
  · cases made
  · cases made
  · split at made
    · cases made
    · cases finished : level.finish mode with
      | error e =>
        rw [finished] at made
        cases made
      | ok l =>
        rw [finished] at made
        cases made
        have inner := keeps.finish h finished
        exact .reading ⟨inner.tuple, inner.row, inner.pending, inner.container, inner.colon⟩ more

theorem colon (mem : ⟨.operator .colon, place⟩ ∈ source) (h : level.Holds P)
    (more : ∀ l ∈ outer, l.Holds P) : (Progress.colon level outer).Holds P := by
  unfold Progress.colon
  split
  · exact .reading ⟨h.tuple, by simp, h.pending, h.container, h.colon⟩ more
  · split
    · exact .reading ⟨h.tuple, h.row, h.pending, h.container, fun _ => keeps.value (.colon mem)⟩
        more
    · exact .reading (h.add (keeps.operator _)) more

theorem onOperator {op : Operator} (mem : ⟨.operator op, place⟩ ∈ source) (h : level.Holds P)
    (more : ∀ l ∈ outer, l.Holds P) (made : Progress.operator mode op level outer = .ok p) :
    p.Holds P := by
  unfold Progress.operator at made
  split at made
  · cases made
    exact holds_openBracket h more
  · exact keeps.closeBracket h more made
  · cases made
    exact keeps.colon mem h more
  · exact holds_of_point h more made
  · cases made
    exact .reading (h.add (keeps.operator _)) more
  · cases made
    exact .reading (h.add (keeps.operator _)) more

theorem named {name : String} {parenFollows : Bool} (h : level.Holds P)
    (more : ∀ l ∈ outer, l.Holds P) : (Progress.named name parenFollows level outer).Holds P := by
  unfold Progress.named
  split
  · exact .reading (h.await (by rintro e ⟨⟩)) more
  · exact .reading (h.add (keeps.var _)) more

theorem onKeyword {word : Keyword} (mem : ⟨.keyword word, place⟩ ∈ source) (h : level.Holds P)
    (more : ∀ l ∈ outer, l.Holds P) : (Progress.keyword word level outer).Holds P := by
  cases word with
  | own => exact .reading (h.await trivial) more
  | isTrue => exact .reading (h.add (keeps.value (.isTrue mem))) more
  | isFalse => exact .reading (h.add (keeps.value (.isFalse mem))) more
  | isNil => exact .reading (h.add (keeps.value (.isNil mem))) more
  | within | declareVar | declareLet => exact .reading (h.add (keeps.keyword _)) more

theorem freely {token : Token} {parenFollows : Bool} (mem : ⟨token, place⟩ ∈ source)
    (h : level.Holds P) (more : ∀ l ∈ outer, l.Holds P)
    (made : Progress.freely r tag mode token parenFollows level outer = .ok p) : p.Holds P := by
  unfold Progress.freely at made
  split at made
  · cases made
    exact .reading (.opened _ (by rintro e ⟨⟩)) (by simpa using ⟨h, more⟩)
  · exact keeps.closeParen h more made
  · exact keeps.comma h more (ok_of_mapError made)
  · exact keeps.onOperator mem h more (ok_of_mapError made)
  · cases made
    exact keeps.named h more
  · cases made
    exact .reading (h.await trivial) more
  · cases made
    exact keeps.onKeyword mem h more
  · cases made
    exact .reading (h.add (keeps.value (.literal mem))) more
  · cases made

/-- A token keeps what levels hold. -/
theorem next {token : Token} {parenFollows : Bool} (mem : ⟨token, place⟩ ∈ source)
    (h : level.Holds P) (more : ∀ l ∈ outer, l.Holds P)
    (made : Progress.next r tag mode token parenFollows level outer = .ok p) : p.Holds P := by
  have pending := h.pending
  unfold Progress.next at made
  split at made
  · exact keeps.freely mem h more made
  · cases made
    exact .reading (h.await trivial) more
  · cases made
    exact .reading (h.add (keeps.var _)) more
  · cases made
  · rename_i receiver name expected
    rw [expected] at pending
    split at made
    · cases made
      refine .reading (h.await ?_) more
      rintro e ⟨⟩
      exact pending
    · split at made
      · rename_i e accessed
        cases made
        exact .reading (h.add (keeps.access pending mem accessed)) more
      · cases made
  · cases made
  · rename_i name receiver expected
    rw [expected] at pending
    cases made
    have receivers : (Tuple.ofList receiver.toList).Each P := by
      intro item inside
      obtain ⟨e, given, rfl⟩ := List.mem_map.mp inside
      exact pending e (Option.mem_toList.mp given)
    refine .reading ⟨receivers, by simp, trivial, by rintro e ⟨⟩, by simp⟩ ?_
    simpa using ⟨h.await trivial, more⟩
  · cases made

end Progress

/-- The property holds of everything on the levels, as far as reading goes. -/
theorem holds_of_reached {tag : String} {mode : FoldMode} {p : Progress}
    (h : Progress.Reached r source tag mode p) : p.Holds P := by
  induction h with
  | start => exact .reading (.opened _ (by rintro e ⟨⟩)) (by simp)
  | next _ mem made ih =>
    cases ih with
    | reading level outer => exact keeps.next mem level outer made

/-- All arguments that are read have the property. -/
theorem readArguments {tag : String} {mode : FoldMode} {tokens rest : List Lexeme}
    (sub : tokens ⊆ source) {t : Tuple}
    (made : Stencil.readArguments r tag mode tokens = .ok (t, rest)) : t.Each P := by
  cases keeps.holds_of_reached (Progress.reached_of_readLevels sub .start made) with
  | finished h => exact h

end Expr.KeptByReading

end Stencil
