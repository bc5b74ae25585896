import Mathlib.Data.String.Basic
import Stencil.Expr.Eval

/-!
# Plain values

A value is plain if no error is inside it, the keys of its dictionaries ascend, and all its texts
are of some kind. Operators and whole evaluations give plain values or errors.
-/

namespace Stencil

namespace Entries

variable {α : Type}

/-- Keys ascend, so that none occurs twice. -/
def Ascending (entries : Entries α) : Prop := entries.Pairwise fun a b => a.1 < b.1

theorem mem_insert {key : String} {value : α} {entries : Entries α} {entry : String × α}
    (h : entry ∈ entries.insert key value) : entry = (key, value) ∨ entry ∈ entries := by
  induction entries with
  | nil => simpa [insert] using h
  | cons head rest ih =>
    obtain ⟨k, v⟩ := head
    simp only [insert] at h
    split at h
    · exact List.mem_cons.mp h
    · split at h
      · exact (List.mem_cons.mp h).imp_right (.tail _)
      · rcases List.mem_cons.mp h with h | h
        · exact .inr (h ▸ List.mem_cons_self)
        · exact (ih h).imp_right (.tail _)

theorem Ascending.insert {entries : Entries α} (h : entries.Ascending) (key : String) (value : α) :
    (entries.insert key value).Ascending := by
  induction entries with
  | nil => exact List.pairwise_singleton _ _
  | cons head rest ih =>
    obtain ⟨k, v⟩ := head
    have later : ∀ entry ∈ rest, k < entry.1 := (List.pairwise_cons.mp h).1
    have sorted := List.Pairwise.of_cons h
    simp only [Entries.insert]
    split
    · rename_i less
      refine List.pairwise_cons.mpr ⟨fun entry mem => ?_, h⟩
      rcases List.mem_cons.mp mem with rfl | mem
      · exact less
      · exact less.trans (later _ mem)
    · rename_i notLess
      split
      · rename_i same
        subst same
        exact List.pairwise_cons.mpr ⟨later, sorted⟩
      · rename_i differs
        refine List.pairwise_cons.mpr ⟨fun entry mem => ?_, ih sorted⟩
        rcases mem_insert mem with rfl | mem
        · exact lt_of_le_of_ne (not_lt.mp notLess) differs
        · exact later _ mem

/-- What holds of a map and of each pair entered into it holds of the result. -/
theorem insertAll_induction {P : Entries α → Prop} {pairs : List (String × α)}
    (keep : ∀ entries pair, P entries → pair ∈ pairs → P (entries.insert pair.1 pair.2))
    {entries : Entries α} (h : P entries) : P (entries.insertAll pairs) := by
  unfold insertAll
  induction pairs generalizing entries with
  | nil => exact h
  | cons pair pairs ih =>
    exact ih (fun entries other h mem => keep entries other h (.tail _ mem))
      (keep entries pair h List.mem_cons_self)

theorem Ascending.insertAll {entries : Entries α} (h : entries.Ascending)
    (pairs : List (String × α)) : (entries.insertAll pairs).Ascending :=
  insertAll_induction (fun _ _ h _ => h.insert _ _) h

theorem mem_insertAll {entries : Entries α} {pairs : List (String × α)} {entry : String × α}
    (h : entry ∈ entries.insertAll pairs) : entry ∈ entries ∨ entry ∈ pairs := by
  suffices all : ∀ entry ∈ entries.insertAll pairs, entry ∈ entries ∨ entry ∈ pairs from all _ h
  refine insertAll_induction (P := fun result => ∀ entry ∈ result, entry ∈ entries ∨ entry ∈ pairs)
    (fun result pair old mem entry here => ?_) fun _ mem => .inl mem
  rcases mem_insert here with rfl | here
  · exact .inr mem
  · exact old entry here

theorem mem_of_find? {entries : Entries α} {key : String} {value : α}
    (h : entries.find? key = some value) : (key, value) ∈ entries := by
  induction entries with
  | nil => cases h
  | cons head rest ih =>
    obtain ⟨k, v⟩ := head
    simp only [find?] at h
    split at h
    · rename_i same
      cases h
      subst same
      exact List.mem_cons_self
    · exact .tail _ (ih h)

theorem find?_insert_isSome {entries : Entries α} {name other : String} {value : α} :
    ((entries.insert name value).find? other).isSome = true ↔
      other = name ∨ (entries.find? other).isSome = true := by
  by_cases same : other = name
  · subst same
    simp
  · rw [Entries.find?_insert_of_ne same]
    simp [same]

theorem find?_isSome_of_mem_keys {entries : Entries α} {name : String}
    (h : name ∈ entries.keys) : (entries.find? name).isSome = true := by
  induction entries with
  | nil => cases h
  | cons head rest ih =>
    obtain ⟨k, v⟩ := head
    simp only [find?]
    split
    · rfl
    · rename_i differs
      rcases List.mem_cons.mp h with same | h
      · exact absurd same.symm differs
      · exact ih h

theorem mem_keys_of_find?_isSome {entries : Entries α} {name : String}
    (h : (entries.find? name).isSome = true) : name ∈ entries.keys := by
  obtain ⟨value, found⟩ := Option.isSome_iff_exists.mp h
  exact List.mem_map.mpr ⟨_, mem_of_find? found, rfl⟩

theorem find?_insertAll_isSome {entries : Entries α} {pairs : List (String × α)} {name : String} :
    ((entries.insertAll pairs).find? name).isSome = true ↔
      (entries.find? name).isSome = true ∨ name ∈ pairs.map Prod.fst := by
  unfold insertAll
  induction pairs generalizing entries with
  | nil => simp
  | cons pair pairs ih =>
    rw [List.foldl_cons, ih, find?_insert_isSome, List.map_cons, List.mem_cons]
    tauto

theorem find?_ofList_isSome {pairs : List (String × α)} {name : String} :
    ((ofList pairs).find? name).isSome = true ↔ name ∈ pairs.map Prod.fst := by
  unfold ofList
  rw [find?_insertAll_isSome, find?, Option.isSome_none]
  exact or_iff_right Bool.false_ne_true

end Entries

namespace Value

/-- No error is inside a value, its dictionaries are ordered, and its texts are of a kind. -/
inductive Plain (text : String → Prop) : Value → Prop
  | nil : Plain text .nil
  | bool (b : Bool) : Plain text (.bool b)
  | int (i : Int64) : Plain text (.int i)
  | double (d : Float) : Plain text (.double d)
  | string {s : String} (h : text s) : Plain text (.string s)
  | array {items : List Value} (h : ∀ v ∈ items, Plain text v) : Plain text (.array items)
  | dictionary {entries : List (String × Value)} (ascending : Entries.Ascending entries)
      (keys : ∀ entry ∈ entries, text entry.1) (h : ∀ entry ∈ entries, Plain text entry.2) :
      Plain text (.dictionary entries)

/-- A plain value, whatever its texts. -/
abbrev Sound (v : Value) : Prop := v.Plain fun _ => True

/-- A plain value, or an error of a kind. -/
inductive Outcome (text : String → Prop) (fault : EvalError → Prop) : Value → Prop
  | plain {v : Value} (h : v.Plain text) : Outcome text fault v
  | error {e : EvalError} (h : fault e) : Outcome text fault (.error e)

variable {text : String → Prop} {fault : EvalError → Prop}

theorem Plain.mono {text' : String → Prop} (weaker : ∀ s, text s → text' s) {v : Value}
    (h : v.Plain text) : v.Plain text' := by
  induction h with
  | nil => exact .nil
  | bool b => exact .bool b
  | int i => exact .int i
  | double d => exact .double d
  | string h => exact .string (weaker _ h)
  | array _ ih => exact .array ih
  | dictionary ascending keys _ ih =>
    exact .dictionary ascending (fun entry mem => weaker _ (keys entry mem)) ih

theorem Outcome.plain_of_not_error {v : Value} (h : v.Outcome text fault)
    (not : ∀ e, v ≠ .error e) : v.Plain text := by
  cases h with
  | plain h => exact h
  | error => exact absurd rfl (not _)

theorem Outcome.fault_of_error {e : EvalError} (h : (Value.error e).Outcome text fault) :
    fault e := by
  cases h with
  | plain h => cases h
  | error h => exact h

theorem Plain.of_member? {v w : Value} {key : String} (h : v.Plain text)
    (found : v.member? key = some w) : w.Plain text := by
  unfold member? at found
  split at found
  · cases h with
    | dictionary _ _ values => exact values _ (Entries.mem_of_find? found)
  · cases found

theorem Plain.of_walk? {v w : Value} {path : List String} (h : v.Plain text)
    (found : v.walk? path = some w) : w.Plain text := by
  induction path generalizing v with
  | nil =>
    cases found
    exact h
  | cons key path ih =>
    simp only [walk?, List.foldlM_cons] at found
    obtain ⟨next, first, found⟩ := Option.bind_eq_some_iff.mp found
    exact ih (h.of_member? first) found

end Value

/-- Kinds of texts and errors that operators keep to. -/
structure Operator.Closed (text : String → Prop) (fault : EvalError → Prop) : Prop where
  append : ∀ {a b : String}, text a → text b → text (a ++ b)
  mismatch : ∀ (name : String) (reason : Mismatch), fault (.typeMismatch name reason)

namespace Operator

variable {text : String → Prop} {fault : EvalError → Prop}

theorem Closed.outcome_mismatch (closed : Closed text fault) (op : Operator) (reason : Mismatch) :
    (op.mismatch reason).Outcome text fault :=
  .error (closed.mismatch _ _)

theorem Closed.outcome_checkedValue (closed : Closed text fault) (op : Operator) (n : Int) :
    (op.checkedValue n).Outcome text fault := by
  unfold checkedValue
  split
  · exact .plain (.int _)
  · exact closed.outcome_mismatch _ _

theorem Closed.outcome_onInts (closed : Closed text fault) (op : Operator) (a b : Int64) :
    (op.onInts a b).Outcome text fault := by
  unfold onInts
  split
  · exact closed.outcome_checkedValue _ _
  · exact closed.outcome_checkedValue _ _
  · exact closed.outcome_checkedValue _ _
  · split
    · exact closed.outcome_mismatch _ _
    · exact closed.outcome_checkedValue _ _
  · split
    · exact closed.outcome_mismatch _ _
    · split
      · exact closed.outcome_mismatch _ _
      · exact closed.outcome_checkedValue _ _

theorem plain_insertAll {a b : List (String × Value)} (ha : (Value.dictionary a).Plain text)
    (hb : (Value.dictionary b).Plain text) :
    (Value.dictionary (Entries.insertAll a b)).Plain text := by
  cases ha with
  | dictionary ascending keys values =>
    cases hb with
    | dictionary _ keys' values' =>
      exact .dictionary (ascending.insertAll b)
        (fun _ mem => (Entries.mem_insertAll mem).elim (keys _) (keys' _))
        fun _ mem => (Entries.mem_insertAll mem).elim (values _) (values' _)

theorem Closed.outcome_arithmetic (closed : Closed text fault) (op : Operator) {a b : Value}
    (ha : a.Plain text) (hb : b.Plain text) : (op.arithmetic a b).Outcome text fault := by
  unfold arithmetic
  split
  · exact closed.outcome_onInts _ _ _
  · split
    · cases ha with
      | string ha =>
        cases hb with
        | string hb => exact .plain (.string (closed.append ha hb))
    · cases ha with
      | array ha =>
        cases hb with
        | array hb =>
          exact .plain (.array fun v mem => (List.mem_append.mp mem).elim (ha v) (hb v))
    · exact .plain (plain_insertAll ha hb)
    · split
      · exact .plain (.double _)
      · exact closed.outcome_mismatch _ _

theorem Closed.outcome_comparison (closed : Closed text fault) (op : Operator) (a b : Value) :
    (op.comparison a b).Outcome text fault := by
  unfold comparison
  split
  · exact closed.outcome_mismatch _ _
  · exact .plain (.bool _)
  · exact .plain (.bool _)

theorem Closed.outcome_subscriptOf (closed : Closed text fault) {a b : Value} (ha : a.Plain text) :
    (subscriptOf a b).Outcome text fault := by
  unfold subscriptOf
  split
  · cases ha with
    | array ha =>
      split
      · split
        · rename_i item found
          exact .plain (ha _ (List.mem_of_getElem? found))
        · exact closed.outcome_mismatch _ _
      · exact closed.outcome_mismatch _ _
  · rename_i entries key
    cases ha with
    | dictionary _ _ values =>
      cases found : Entries.find? key entries with
      | none => exact .plain .nil
      | some v => exact .plain (values _ (Entries.mem_of_find? found))
  · exact closed.outcome_mismatch _ _

/-- A binary operator on plain values. -/
theorem Closed.outcome_apply (closed : Closed text fault) (op : Operator) {a b : Value}
    (ha : a.Plain text) (hb : b.Plain text) : (op.apply a b).Outcome text fault := by
  cases op with
  | equal | unequal | and | or => exact .plain (.bool _)
  | greater | greaterOrEqual | lesser | lesserOrEqual => exact closed.outcome_comparison _ _ _
  | plus | minus | multiply | divide | modulo => exact closed.outcome_arithmetic _ ha hb
  | subscript => exact closed.outcome_subscriptOf ha
  | nilCoalesce =>
    simp only [apply]
    split
    · exact .plain hb
    · exact .plain ha
  | _ => exact closed.outcome_mismatch _ _

/-- A unary operator on a plain value. -/
theorem Closed.outcome_applyUnary (closed : Closed text fault) (op : Operator) (a : Value) :
    (op.applyUnary a).Outcome text fault := by
  unfold applyUnary
  split
  · exact .plain (.bool _)
  · exact closed.outcome_checkedValue _ _
  · exact .plain (.double _)
  · exact closed.outcome_mismatch _ _

end Operator

namespace Expr

/-- The literals of an expression are plain, the labels of its collections are texts of the kind,
and it calls nothing. -/
inductive PlainLiterals (text : String → Prop) : Expr → Prop
  | value {data : Value} (h : data.Plain text) : PlainLiterals text (.value data)
  | keyword (word : Keyword) : PlainLiterals text (.keyword word)
  | operator (op : Operator) : PlainLiterals text (.operator op)
  | var (v : Variable) : PlainLiterals text (.var v)
  | unary {op : Operator} {e : Expr} (h : PlainLiterals text e) : PlainLiterals text (.unary op e)
  | binary {op : Operator} {l r : Expr} (left : PlainLiterals text l)
      (right : PlainLiterals text r) : PlainLiterals text (.binary op l r)
  | conditional {c t f : Expr} (condition : PlainLiterals text c) (whenTrue : PlainLiterals text t)
      (whenFalse : PlainLiterals text f) : PlainLiterals text (.conditional c t f)
  | sequence (items : List Expr) : PlainLiterals text (.sequence items)
  | collection {items : List (Option String × Expr)}
      (labels : ∀ item ∈ items, ∀ label, item.1 = some label → text label)
      (h : ∀ item ∈ items, PlainLiterals text item.2) : PlainLiterals text (.collection items)

variable {text : String → Prop} {fault : EvalError → Prop}

theorem PlainLiterals.mono {text' : String → Prop} (weaker : ∀ s, text s → text' s) {e : Expr}
    (h : e.PlainLiterals text) : e.PlainLiterals text' := by
  induction h with
  | value h => exact .value (h.mono weaker)
  | keyword word => exact .keyword word
  | operator op => exact .operator op
  | var v => exact .var v
  | unary _ ih => exact .unary ih
  | binary _ _ left right => exact .binary left right
  | conditional _ _ _ c t f => exact .conditional c t f
  | sequence items => exact .sequence items
  | collection labels _ ih =>
    exact .collection (fun item mem label eq => weaker _ (labels item mem label eq)) ih

/-- The value of a collection of plain values. -/
theorem plain_gather {items : List (Option String × Expr)} {values : List Value}
    (labels : ∀ item ∈ items, ∀ label, item.1 = some label → text label)
    (h : ∀ v ∈ values, v.Plain text) : (Tuple.gather items values).Plain text := by
  have pairs : ∀ entry ∈ (items.zip values).filterMap
      (fun pair => pair.1.1.map fun label => (label, pair.2)),
      text entry.1 ∧ entry.2.Plain text := by
    intro entry mem
    obtain ⟨⟨item, v⟩, zipped, made⟩ := List.mem_filterMap.mp mem
    obtain ⟨label, eq, rfl⟩ := Option.map_eq_some_iff.mp made
    have both := List.of_mem_zip zipped
    exact ⟨labels item both.1 label eq, h v both.2⟩
  unfold Tuple.gather
  split
  · refine .dictionary (Entries.Ascending.insertAll List.Pairwise.nil _) ?_ ?_
    · intro entry mem
      rcases Entries.mem_insertAll mem with mem | mem
      · cases mem
      · exact (pairs entry mem).1
    · intro entry mem
      rcases Entries.mem_insertAll mem with mem | mem
      · cases mem
      · exact (pairs entry mem).2
  · exact .array h

/-- The values of arguments, one of which may have an error, from what each of them gives. -/
theorem plain_of_evalItems {env : Env} {items : List (Option String × Expr)}
    (each : ∀ item ∈ items, (item.2.eval env).Outcome text fault) :
    (∀ values, evalItems env items = .ok values → ∀ v ∈ values, v.Plain text) ∧
      ∀ e, evalItems env items = .error e → fault e := by
  induction items with
  | nil =>
    constructor
    · rintro _ ⟨⟩ v mem
      cases mem
    · rintro e ⟨⟩
  | cons item items ih =>
    obtain ⟨label, e⟩ := item
    have first := each _ List.mem_cons_self
    have more := ih fun item mem => each item (.tail _ mem)
    simp only [evalItems]
    split
    · rename_i error eq
      rw [eq] at first
      constructor
      · rintro values ⟨⟩
      · rintro _ ⟨⟩
        exact first.fault_of_error
    · rename_i data notError
      split
      · rename_i error eq
        constructor
        · rintro values ⟨⟩
        · rintro _ ⟨⟩
          exact more.2 error eq
      · rename_i values eq
        constructor
        · rintro _ ⟨⟩ v mem
          rcases List.mem_cons.mp mem with rfl | mem
          · exact first.plain_of_not_error notError
          · exact more.1 values eq v mem
        · rintro e ⟨⟩

theorem vars_subset_varsOf {items : List (Option String × Expr)} {item : Option String × Expr}
    (h : item ∈ items) : item.2.vars ⊆ varsOf items := by
  induction items with
  | nil => cases h
  | cons head items ih =>
    obtain ⟨label, e⟩ := head
    simp only [varsOf]
    rcases List.mem_cons.mp h with rfl | h
    · exact List.subset_append_left _ _
    · exact List.subset_append_of_subset_right _ (ih h)

/-- The binary operators that evaluate both operands in any case. -/
theorem eval_binary {env : Env} {op : Operator} {l r : Expr} (coalesce : op ≠ .nilCoalesce)
    (and : op ≠ .and) (or : op ≠ .or) : (binary op l r).eval env =
      match l.eval env with
      | .error error => .error error
      | left =>
        match r.eval env with
        | .error error => .error error
        | right => op.apply left right := by
  cases op <;> first | rfl | exact absurd rfl coalesce | exact absurd rfl and | exact absurd rfl or

section Outcomes

variable {env : Env} {op : Operator} {l r : Expr} (left : (l.eval env).Outcome text fault)
  (right : (r.eval env).Outcome text fault)
include left right

/-- The operators that do without their right operand if the left one decides. -/
theorem outcome_logical (logical : op = .and ∨ op = .or) :
    ((binary op l r).eval env).Outcome text fault := by
  rcases logical with rfl | rfl <;> simp only [eval]
  · split
    · rename_i eq
      rw [eq] at left
      exact .error left.fault_of_error
    · split
      · split
        · rename_i eq
          rw [eq] at right
          exact .error right.fault_of_error
        · exact .plain (.bool _)
      · exact .plain (.bool _)
  · split
    · rename_i eq
      rw [eq] at left
      exact .error left.fault_of_error
    · split
      · exact .plain (.bool _)
      · split
        · rename_i eq
          rw [eq] at right
          exact .error right.fault_of_error
        · exact .plain (.bool _)

theorem outcome_binary (closed : Operator.Closed text fault) :
    ((binary op l r).eval env).Outcome text fault := by
  by_cases coalesce : op = .nilCoalesce
  · subst coalesce
    simp only [eval]
    split
    · exact right
    · exact right
    · exact left
  by_cases logical : op = .and ∨ op = .or
  · exact outcome_logical left right logical
  rw [eval_binary coalesce (fun h => logical (.inl h)) fun h => logical (.inr h)]
  split
  · rename_i eq
    rw [eq] at left
    exact .error left.fault_of_error
  · rename_i notError
    split
    · rename_i eq
      rw [eq] at right
      exact .error right.fault_of_error
    · rename_i notError'
      exact closed.outcome_apply op (left.plain_of_not_error notError)
        (right.plain_of_not_error notError')

end Outcomes

/-- An evaluation of plain literals gives a plain value or an error, if its variables do. -/
theorem PlainLiterals.outcome (closed : Operator.Closed text fault) {env : Env} {e : Expr}
    (h : e.PlainLiterals text) (vars : ∀ v ∈ e.vars, (env v).Outcome text fault) :
    (e.eval env).Outcome text fault := by
  induction h with
  | value h => exact .plain h
  | keyword word =>
    cases word with
    | isTrue | isFalse => exact .plain (.bool _)
    | isNil => exact .plain .nil
    | _ => exact .error (closed.mismatch _ _)
  | operator op => exact closed.outcome_mismatch _ _
  | var v => exact vars v (List.mem_singleton.mpr rfl)
  | @unary op e _ ih =>
    have operand := ih vars
    simp only [eval]
    split
    · rename_i eq
      rw [eq] at operand
      exact .error operand.fault_of_error
    · exact closed.outcome_applyUnary _ _
  | @binary op l r _ _ ihl ihr =>
    have left := ihl fun v mem => vars v (List.mem_append_left _ mem)
    have right := ihr fun v mem => vars v (List.mem_append_right _ mem)
    exact outcome_binary left right closed
  | @conditional c t f _ _ _ ihc iht ihf =>
    simp only [Expr.vars, List.mem_append] at vars
    have condition := ihc fun v mem => vars v (.inl (.inl mem))
    simp only [eval]
    split
    · rename_i eq
      rw [eq] at condition
      exact .error condition.fault_of_error
    · split
      · exact iht fun v mem => vars v (.inl (.inr mem))
      · exact ihf fun v mem => vars v (.inr mem)
  | sequence items => exact .error (closed.mismatch _ _)
  | @collection items labels _ ih =>
    have each : ∀ item ∈ items, (item.2.eval env).Outcome text fault := fun item mem =>
      ih item mem fun v inside => vars v (vars_subset_varsOf mem inside)
    have all := plain_of_evalItems each
    simp only [eval]
    split
    · rename_i error eq
      exact .error (all.2 error eq)
    · rename_i values eq
      exact .plain (plain_gather labels (all.1 values eq))

end Expr

end Stencil
