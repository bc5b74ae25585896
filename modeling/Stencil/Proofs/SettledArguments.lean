import Mathlib.Data.Bool.AllAny
import Stencil.Entities.Basic
import Stencil.Proofs.ParseSteps
import Stencil.Proofs.Settled

/-!
# Settled arguments

The levels of an argument list hold elements of rows and finished arguments. Where nothing can be
called, each token of a spelled source keeps them so, and an argument list that is read consists of
settled arguments.
-/

namespace Stencil

/-- Nothing can be called. -/
def Entities.Callless (r : Entities) : Prop := r.functionTable = [] ∧ r.methodTable = []

theorem Entities.callless_core : Entities.core.Callless := ⟨rfl, rfl⟩

theorem Entities.Callless.resolveCall {r : Entities} (h : r.Callless) {tag name : String}
    {method : Bool} {args : Tuple} {e : Expr} : r.resolveCall tag name method args ≠ .ok e := by
  have none : r.candidates method name = [] := by
    simp [candidates, functions, methods, h.1, h.2, Entries.find?]
  unfold Entities.resolveCall
  rw [none]
  rintro ⟨⟩

/-- Arguments that were read in a mode; labels are not repeated. -/
structure Tuple.Read (mode : FoldMode) (t : Tuple) : Prop where
  items : ∀ item ∈ t, item.2.ReadIn mode
  labels : ∀ item ∈ t, ∀ label, item.1 = some label → Text.Quotable label
  distinct : (t.filterMap Prod.fst).Nodup

namespace Tuple.Read

variable {mode : FoldMode} {t : Tuple}

theorem nil : Tuple.Read mode [] := ⟨by simp, by simp, by simp⟩

theorem push? {label : Option String} {e : Expr} {result : Tuple} (h : t.Read mode)
    (readIn : e.ReadIn mode) (quotable : ∀ l, label = some l → Text.Quotable l)
    (made : t.push? label e = some result) : result.Read mode := by
  unfold Tuple.push? at made
  split at made
  · cases made
  · rename_i fresh
    cases made
    refine ⟨fun item mem => ?_, fun item mem => ?_, ?_⟩
    · rcases List.mem_append.mp mem with mem | mem
      · exact h.items item mem
      · rw [List.mem_singleton.mp mem]
        exact readIn
    · rcases List.mem_append.mp mem with mem | mem
      · exact h.labels item mem
      · rw [List.mem_singleton.mp mem]
        exact quotable
    · rw [List.filterMap_append]
      cases label with
      | none => simpa using h.distinct
      | some label =>
        rw [List.nodup_append]
        refine ⟨h.distinct, by simp, fun a mem b here => ?_⟩
        rw [List.filterMap_cons, List.filterMap_nil, List.mem_singleton] at here
        subst here
        rintro rfl
        obtain ⟨item, inside, eq⟩ := List.mem_filterMap.mp mem
        refine fresh ?_
        simp only [Option.any_some, Tuple.uses, List.any_eq_true, beq_iff_eq]
        exact ⟨item, inside, eq⟩

theorem settled (h : t.Read .strict) : ∀ item ∈ t, item.2.Settled := by
  intro item mem
  rcases h.items item mem with settled | ⟨other, _⟩
  · exact settled
  · exact absurd rfl other

theorem of_receiver {receiver : Option Expr} (h : ∀ e, receiver = some e → e.Settled) :
    (Tuple.ofList receiver.toList).Read mode := by
  cases receiver with
  | none => exact .nil
  | some e =>
    refine ⟨?_, ?_, ?_⟩
    · simpa [Tuple.ofList] using .inl (h e rfl)
    · simp [Tuple.ofList]
    · simp [Tuple.ofList]

end Tuple.Read

/-- What has to come next goes on with something settled. -/
def Pending.Sound : Pending → Prop
  | .scope name _ => Text.IsName name
  | .member receiver => receiver.Settled
  | .callee _ receiver => ∀ e, receiver = some e → e.Settled
  | .nothing => True

/-- A level that holds elements and finished arguments. -/
structure Level.Sound (mode : FoldMode) (l : Level) : Prop where
  tuple : l.tuple.Read (l.foldMode mode)
  label : ∀ label, l.label = some label → Text.Quotable label
  row : ∀ e ∈ l.row, e.Element
  pending : l.pending.Sound
  container : ∀ e, l.kind = .subscript e → e.Settled

namespace Level.Sound

variable {mode : FoldMode} {l : Level}

theorem opened (kind : LevelKind) (container : ∀ e, kind = .subscript e → e.Settled) :
    Level.Sound mode { kind := kind } :=
  ⟨.nil, by simp, by simp, trivial, container⟩

theorem add {e : Expr} (h : l.Sound mode) (element : e.Element) : (l.add e).Sound mode := by
  refine ⟨h.tuple, h.label, fun x mem => ?_, trivial, h.container⟩
  rcases List.mem_append.mp mem with mem | mem
  · exact h.row x mem
  · rw [List.mem_singleton.mp mem]
    exact element

theorem await {pending : Pending} (h : l.Sound mode) (sound : pending.Sound) :
    (l.await pending).Sound mode :=
  ⟨h.tuple, h.label, h.row, sound, h.container⟩

/-- The last element of a level that ends with an operand. -/
theorem takeLast? {e : Expr} {l' : Level} (h : l.Sound mode) (valued : l.lastValued = true)
    (taken : l.takeLast? = some (e, l')) : e.Settled ∧ l'.Sound mode := by
  unfold Level.takeLast? at taken
  obtain ⟨last, found, eq⟩ := Option.map_eq_some_iff.mp taken
  cases eq
  unfold Level.lastValued at valued
  rw [found] at valued
  refine ⟨(h.row _ (List.mem_of_getLast? found)).settled valued, ?_⟩
  exact ⟨h.tuple, h.label, fun x mem => h.row x (List.dropLast_subset _ mem), h.pending,
    h.container⟩

theorem finish {l' : Level} (h : l.Sound mode) (made : l.finish mode = .ok l') :
    l'.Sound mode ∧ l'.kind = l.kind := by
  unfold Level.finish at made
  split at made
  · split at made
    · cases made
    · split at made
      · cases made
      · cases made
        exact ⟨h, rfl⟩
  · split at made
    · cases made
    · split at made
      · cases made
      · rename_i e folded
        split at made
        · rename_i tuple pushed
          cases made
          exact ⟨⟨h.tuple.push? (Expr.readIn_of_fold h.row folded) h.label pushed, by simp,
            by simp, h.pending, h.container⟩, rfl⟩
        · cases made

theorem labelCandidate? {label : String} (h : l.Sound mode)
    (found : l.labelCandidate? = some label) : Text.Quotable label := by
  have var {v : Variable} (row : l.row = [.var v]) : Text.Quotable v.member := by
    have element := h.row (.var v) (by rw [row]; exact List.mem_cons_self)
    cases element with
    | operand settled =>
      cases settled with
      | var spelled => exact Text.quotable_of_isName spelled.member.1
  have text {s : String} (row : l.row = [.value (.string s)]) : Text.Quotable s := by
    have element := h.row (.value (.string s)) (by rw [row]; exact List.mem_cons_self)
    cases element with
    | operand settled =>
      cases settled with
      | value plain =>
        cases plain with
        | string quotable => exact quotable
  unfold Level.labelCandidate? at found
  split at found
  · cases found
  all_goals first
    | (rename_i row _
       split at found
       · cases found
         exact var row
       · cases found)
    | (rename_i row _
       cases found
       exact text row)
    | cases found

end Level.Sound

/-- Progress through sound levels. -/
inductive Progress.Sound (mode : FoldMode) : Progress → Prop
  | finished {t : Tuple} (h : t.Read mode) : Progress.Sound mode (.finished t)
  | reading {level : Level} {outer : List Level} (h : level.Sound mode)
      (more : ∀ l ∈ outer, l.Sound mode) : Progress.Sound mode (.reading level outer)

namespace Progress

variable {r : Entities} {tag : String} {mode : FoldMode} {level : Level} {outer : List Level}
  {p : Progress}

theorem sound_of_give {e : Expr} (settled : e.Settled) (more : ∀ l ∈ outer, l.Sound mode)
    (h : give e outer = .ok p) : p.Sound mode := by
  cases outer with
  | nil => cases h
  | cons parent outer =>
    cases h
    exact .reading ((more parent List.mem_cons_self).add (.operand settled))
      fun l mem => more l (.tail _ mem)

theorem settled_of_single? {l : Level} {e : Expr} (h : l.Sound mode) (inner : l.kind ≠ .top)
    (single : l.tuple.single? = some e) : e.Settled := by
  have strict : l.foldMode mode = .strict := by
    unfold Level.foldMode
    split
    · rename_i top
      exact absurd top inner
    · rfl
  have read := h.tuple
  rw [strict, TagSite.eq_of_single? single] at read
  exact read.settled _ List.mem_cons_self

theorem sound_of_closeParen (callless : r.Callless) (h : level.Sound mode)
    (more : ∀ l ∈ outer, l.Sound mode) (made : closeParen r tag mode level outer = .ok p) :
    p.Sound mode := by
  obtain ⟨closed, finished, made⟩ := ok_of_bind made
  have inner := (h.finish (ok_of_mapError finished)).1
  split at made
  · rename_i top
    cases made
    have read := inner.tuple
    unfold Level.foldMode at read
    rw [top] at read
    exact .finished read
  · rename_i group
    split at made
    · rename_i e single
      have settled := settled_of_single? inner (by rw [group]; rintro ⟨⟩) single
      exact sound_of_give settled more (ok_of_mapError made)
    · cases made
  · obtain ⟨e, resolved, _⟩ := ok_of_bind made
    exact absurd resolved callless.resolveCall
  · cases made
  · cases made

theorem settled_of_collected {l : Level} {e : Expr} (h : l.Sound mode)
    (kind : l.kind = .collection) (made : l.collected = .ok e) : e.Settled := by
  have read := h.tuple
  unfold Level.foldMode at read
  rw [kind] at read
  unfold Level.collected at made
  split at made
  · cases made
    exact .value (.dictionary List.Pairwise.nil (by simp) (by simp)) (.inl rfl)
  · split at made
    · cases made
    · rename_i alike
      exact Expr.settled_of_folded_collection read.labels read.distinct (by simpa using alike)
        read.settled (ok_of_mapError made)

theorem sound_of_closeBracket (h : level.Sound mode) (more : ∀ l ∈ outer, l.Sound mode)
    (made : closeBracket mode level outer = .ok p) : p.Sound mode := by
  obtain ⟨closed, finished, made⟩ := ok_of_bind made
  have inner := (h.finish finished).1
  split at made
  · rename_i container kind
    split at made
    · rename_i key single
      obtain ⟨e, folded, made⟩ := ok_of_bind made
      have settled := settled_of_single? inner (by rw [kind]; rintro ⟨⟩) single
      exact sound_of_give (Expr.settled_of_folded_binary rfl (inner.container _ kind) settled
        (ok_of_mapError folded)) more made
    · cases made
  · rename_i kind
    obtain ⟨e, collected, made⟩ := ok_of_bind made
    exact sound_of_give (settled_of_collected inner kind collected) more made
  · cases made

theorem sound_of_comma (h : level.Sound mode) (more : ∀ l ∈ outer, l.Sound mode)
    (made : comma mode level outer = .ok p) : p.Sound mode := by
  unfold comma at made
  split at made
  · cases made
  · cases made
  · split at made
    · cases made
    · cases finished : level.finish mode with
      | error e =>
        rw [finished] at made
        cases made
      | ok l =>
        rw [finished] at made
        cases made
        have inner := (h.finish finished).1
        exact .reading ⟨inner.tuple, inner.label, inner.row, inner.pending, inner.container⟩ more

theorem sound_openBracket (h : level.Sound mode) (more : ∀ l ∈ outer, l.Sound mode) :
    (openBracket level outer).Sound mode := by
  unfold openBracket
  split
  · rename_i container parent valued taken
    have last := h.takeLast? valued taken
    refine .reading (.opened _ ?_) (by simpa using ⟨last.2, more⟩)
    rintro e ⟨⟩
    exact last.1
  · exact .reading (.opened _ (by rintro e ⟨⟩)) (by simpa using ⟨h, more⟩)

theorem sound_colon (h : level.Sound mode) (more : ∀ l ∈ outer, l.Sound mode) :
    (colon level outer).Sound mode := by
  unfold colon
  split
  · rename_i label found
    refine .reading ⟨h.tuple, ?_, by simp, h.pending, h.container⟩ more
    rintro _ ⟨⟩
    exact h.labelCandidate? found
  · split
    · exact .reading ⟨h.tuple, h.label, h.row, h.pending, h.container⟩ more
    · exact .reading (h.add (.operator _)) more

theorem sound_of_point (h : level.Sound mode) (more : ∀ l ∈ outer, l.Sound mode)
    (made : point level outer = .ok p) : p.Sound mode := by
  unfold point at made
  split at made
  · rename_i receiver l valued taken
    cases made
    have last := h.takeLast? valued taken
    exact .reading (last.2.await last.1) more
  · cases made

theorem sound_of_operator {op : Operator} (h : level.Sound mode) (more : ∀ l ∈ outer, l.Sound mode)
    (made : operator mode op level outer = .ok p) : p.Sound mode := by
  unfold operator at made
  split at made
  · cases made
    exact sound_openBracket h more
  · exact sound_of_closeBracket h more made
  · cases made
    exact sound_colon h more
  · exact sound_of_point h more made
  · cases made
    exact .reading (h.add (.operator _)) more
  · cases made
    exact .reading (h.add (.operator _)) more

theorem isName_own : Text.IsName Variable.ownScope :=
  ⟨'s', ['e', 'l', 'f'], rfl, by decide, List.all_iff_forall_prop.mp (by decide)⟩

theorem sound_named {name : String} {parenFollows : Bool} (word : Text.IsWord name)
    (h : level.Sound mode) (more : ∀ l ∈ outer, l.Sound mode) :
    (named name parenFollows level outer).Sound mode := by
  unfold named
  split
  · exact .reading (h.await (by rintro e ⟨⟩)) more
  · exact .reading (h.add (.operand (.var (Variable.spelled_plain word)))) more

theorem sound_keyword {word : Keyword} (h : level.Sound mode) (more : ∀ l ∈ outer, l.Sound mode) :
    (keyword word level outer).Sound mode := by
  cases word with
  | own => exact .reading (h.await isName_own) more
  | isTrue | isFalse => exact .reading (h.add (.operand (.value (.bool _) (.inl rfl)))) more
  | isNil => exact .reading (h.add (.operand (.value .nil (.inl rfl)))) more
  | within | declareVar | declareLet => exact .reading (h.add (.keyword rfl)) more

theorem settled_of_literal {data : Value} (h : (Token.literal data).Spelled) :
    (Expr.value data).Settled := by
  cases data with
  | int i => exact .value (.int i) (.inl rfl)
  | double d => exact .value (.double d) (.inr ⟨d, rfl⟩)
  | string s => exact .value (.string h) (.inl rfl)
  | _ => cases h

theorem sound_of_freely (callless : r.Callless) {token : Token} {parenFollows : Bool}
    (spelled : token.Spelled) (h : level.Sound mode) (more : ∀ l ∈ outer, l.Sound mode)
    (made : freely r tag mode token parenFollows level outer = .ok p) : p.Sound mode := by
  unfold freely at made
  split at made
  · cases made
    exact .reading (.opened _ (by rintro e ⟨⟩)) (by simpa using ⟨h, more⟩)
  · exact sound_of_closeParen callless h more made
  · exact sound_of_comma h more (ok_of_mapError made)
  · exact sound_of_operator h more (ok_of_mapError made)
  · cases made
    exact sound_named spelled h more
  · cases made
    exact .reading (h.await spelled) more
  · cases made
    exact sound_keyword h more
  · cases made
    exact .reading (h.add (.operand (settled_of_literal spelled))) more
  · cases made

theorem settled_of_access {receiver e : Expr} {name : String} (settled : receiver.Settled)
    (word : Text.IsWord name) (made : receiver.access name = .ok e) : e.Settled := by
  unfold Expr.access at made
  split at made
  · cases made
    cases settled with
    | var spelled =>
      refine .var ⟨spelled.scope, spelled.member, fun s mem => ?_⟩
      rcases List.mem_append.mp mem with mem | mem
      · exact spelled.path s mem
      · rw [List.mem_singleton.mp mem]
        exact word
  · refine Expr.settled_of_folded_binary rfl settled ?_ (ok_of_mapError made)
    exact .value (.string (Text.quotable_of_isName word.1)) (.inl rfl)

/-- A spelled token keeps levels sound. -/
theorem sound_of_next (callless : r.Callless) {token : Token} {parenFollows : Bool}
    (spelled : token.Spelled) (h : level.Sound mode) (more : ∀ l ∈ outer, l.Sound mode)
    (made : next r tag mode token parenFollows level outer = .ok p) : p.Sound mode := by
  have pending := h.pending
  unfold next at made
  split at made
  · exact sound_of_freely callless spelled h more made
  · rename_i expected
    rw [expected] at pending
    cases made
    exact .reading (h.await pending) more
  · rename_i name member expected
    rw [expected] at pending
    cases made
    refine .reading (h.add (.operand (.var ⟨?_, spelled, by rintro s ⟨⟩⟩))) more
    rintro s ⟨⟩
    exact pending
  · cases made
  · rename_i receiver name expected
    rw [expected] at pending
    split at made
    · cases made
      refine .reading (h.await ?_) more
      rintro e ⟨⟩
      exact pending
    · split at made
      · rename_i e accessed
        cases made
        exact .reading (h.add (.operand (settled_of_access pending spelled accessed))) more
      · cases made
  · cases made
  · rename_i name receiver expected
    rw [expected] at pending
    cases made
    refine .reading ⟨.of_receiver pending, by simp, by simp, trivial, by rintro e ⟨⟩⟩ ?_
    simpa using ⟨h.await trivial, more⟩
  · cases made

end Progress

theorem Tuple.read_of_readLevels {r : Entities} (callless : r.Callless) {tag : String}
    {mode : FoldMode} {tokens rest : List Lexeme} {level : Level} {outer : List Level} {t : Tuple}
    (spelled : ∀ l ∈ tokens, l.token.Spelled) (h : level.Sound mode)
    (more : ∀ l ∈ outer, l.Sound mode)
    (made : readLevels r tag mode tokens level outer = .ok (t, rest)) : t.Read mode := by
  induction tokens generalizing level outer with
  | nil => cases made
  | cons lexeme tokens ih =>
    simp only [readLevels] at made
    split at made
    · cases made
    · rename_i next
      cases made
      have sound := Progress.sound_of_next callless (spelled _ List.mem_cons_self) h more next
      cases sound with
      | finished read => exact read
    · rename_i next
      have sound := Progress.sound_of_next callless (spelled _ List.mem_cons_self) h more next
      cases sound with
      | reading h more => exact ih (fun l mem => spelled l (.tail _ mem)) h more made

/-- An argument list of spelled tokens consists of settled arguments. -/
theorem TagSite.ReadsTuple.read {site : TagSite} (callless : site.entities.Callless)
    {source : List Lexeme} (spelled : ∀ l ∈ source, l.token.Spelled) {mode : FoldMode} {t : Tuple}
    (h : site.ReadsTuple source mode t) : t.Read mode := by
  obtain ⟨tokens, rest, sub, made⟩ := h
  exact Tuple.read_of_readLevels callless (fun l mem => spelled l (sub mem))
    (.opened _ (by rintro e ⟨⟩)) (by simp) made

end Stencil
