import Stencil.Proofs.RowReading

/-!
# Printed expressions read back

The tokens of a printed expression add to an argument the elements that are folded to what the
expression is read back as.
-/

namespace Stencil

open Token

namespace Entries

variable {α : Type}

/-- A key behind all others is put at the end. -/
theorem insert_of_greater {entries : Entries α} {key : String} (value : α)
    (h : ∀ entry ∈ entries, entry.1 < key) :
    entries.insert key value = entries ++ [(key, value)] := by
  induction entries with
  | nil => rfl
  | cons head rest ih =>
    obtain ⟨k, v⟩ := head
    have less : k < key := h (k, v) List.mem_cons_self
    rw [insert, if_neg (lt_asymm less), if_neg (ne_of_lt less),
      ih fun entry mem => h entry (.tail _ mem), List.cons_append]

theorem insertAll_of_ascending (entries : Entries α) {pairs : Entries α}
    (h : Ascending (entries ++ pairs)) :
    entries.insertAll pairs = entries ++ pairs := by
  induction pairs generalizing entries with
  | nil => exact (List.append_nil entries).symm
  | cons pair pairs ih =>
    have less : ∀ entry ∈ entries, entry.1 < pair.1 := fun entry mem =>
      (List.pairwise_append.mp h).2.2 entry mem pair List.mem_cons_self
    have longer : Ascending (entries ++ [pair] ++ pairs) := by
      rwa [List.append_assoc, List.singleton_append]
    show (entries.insert pair.1 pair.2).insertAll pairs = _
    rw [insert_of_greater pair.2 less, ih _ longer, List.append_assoc, List.singleton_append]

/-- Entries in order are what they are entered as. -/
theorem ofList_of_ascending {entries : Entries α} (h : entries.Ascending) :
    ofList entries = entries :=
  insertAll_of_ascending [] h

theorem Ascending.nodup {entries : Entries α} (h : entries.Ascending) :
    (entries.map Prod.fst).Nodup := by
  unfold List.Nodup
  rw [List.pairwise_map]
  exact h.imp fun less => ne_of_lt less

end Entries

namespace Value

variable {items : List Value} {entries : List (String × Value)} {data m : Value}

/-- The items of an array as those of a collection. -/
def asItems (items : List Value) : List (Option String × Expr) :=
  items.map fun v => (none, .value v)

/-- The entries of a dictionary as items of a collection. -/
def asEntries (entries : List (String × Value)) : List (Option String × Expr) :=
  entries.map fun entry => (some entry.1, .value entry.2)

theorem evalItems_values (env : Env) (items : List (Option String × Value))
    (whole : ∀ item ∈ items, item.2.isError = false) :
    Expr.evalItems env (items.map fun item => (item.1, .value item.2)) =
      .ok (items.map Prod.snd) := by
  induction items with
  | nil => rfl
  | cons item items ih =>
    obtain ⟨label, v⟩ := item
    have plain : v.isError = false := whole _ List.mem_cons_self
    have rest := ih fun item mem => whole item (.tail _ mem)
    rw [List.map_cons, Expr.evalItems, Expr.eval, rest]
    cases v with
    | error _ => cases plain
    | _ => rfl

theorem eval_asItems {env : Env} (whole : ∀ v ∈ items, v.isError = false) :
    (Expr.collection (asItems items)).eval env = .array items := by
  have values := evalItems_values env (items.map fun v => ((none : Option String), v))
    (List.forall_mem_map.mpr whole)
  simp only [List.map_map, Function.comp_def, List.map_id'] at values
  have unlabelled : ((asItems items).any fun item => item.1.isSome) = false := by
    simp [asItems]
  rw [Expr.eval, asItems, values]
  show Tuple.gather (asItems items) items = _
  unfold Tuple.gather
  rw [unlabelled]
  rfl

theorem eval_asEntries {env : Env} (some : entries ≠ []) (ascending : Entries.Ascending entries)
    (whole : ∀ entry ∈ entries, entry.2.isError = false) :
    (Expr.collection (asEntries entries)).eval env = .dictionary entries := by
  have values := evalItems_values env (entries.map fun entry => (Option.some entry.1, entry.2))
    (List.forall_mem_map.mpr whole)
  simp only [List.map_map, Function.comp_def] at values
  have labelled : ((asEntries entries).any fun item => item.1.isSome) = true := by
    cases entries with
    | nil => exact absurd rfl some
    | cons => rfl
  have pairs : ((asEntries entries).zip (entries.map Prod.snd)).filterMap
      (fun pair => pair.1.1.map fun label => (label, pair.2)) = entries := by
    clear * -
    induction entries with
    | nil => rfl
    | cons entry entries ih => exact congrArg (entry :: ·) ih
  rw [Expr.eval, asEntries, values]
  show Tuple.gather (asEntries entries) (entries.map Prod.snd) = _
  unfold Tuple.gather
  rw [labelled, pairs, Entries.ofList_of_ascending ascending]
  rfl

theorem isError_of_plain {text : String → Prop} (h : data.Plain text) : data.isError = false := by
  cases h <;> rfl

/-- A collection of literals is computed if its value has a literal. -/
theorem foldConstant_collection {items : List (Option String × Expr)}
    (literals : ∀ item ∈ items, ∃ v, item.2 = .value v)
    (given : (Expr.collection items).eval Env.empty = data) (whole : data.isError = false)
    (finite : data.finite = true) : (Expr.collection items).foldConstant = .ok (.value data) := by
  have resolved : Expr.resolvedOf items = true ∧ Expr.invariantOf items = true := by
    clear given
    induction items with
    | nil => exact ⟨rfl, rfl⟩
    | cons item items ih =>
      obtain ⟨label, e⟩ := item
      obtain ⟨v, rfl⟩ := literals _ List.mem_cons_self
      obtain ⟨resolved, invariant⟩ := ih fun item mem => literals item (.tail _ mem)
      exact ⟨by rw [Expr.resolvedOf, resolved]; rfl, by rw [Expr.invariantOf, invariant]; rfl⟩
  have constant : (Expr.collection items).constant = true := by
    unfold Expr.constant
    rw [Expr.resolved, Expr.invariant, resolved.1, resolved.2]
    rfl
  unfold Expr.foldConstant
  rw [constant, given]
  cases data with
  | error _ => cases whole
  | _ => simp only [finite]; rfl

theorem finiteItems_iff (items : List Value) :
    finiteItems items = true ↔ ∀ v ∈ items, v.finite = true := by
  induction items with
  | nil => simp [finiteItems]
  | cons v items ih => simp [finiteItems, ih]

theorem finiteEntries_iff (entries : List (String × Value)) :
    finiteEntries entries = true ↔ ∀ entry ∈ entries, entry.2.finite = true := by
  induction entries with
  | nil => simp [finiteEntries]
  | cons entry entries ih => simp [finiteEntries, ih]

theorem writableItems_iff (items : List Value) :
    writableItems items = true ↔ ∀ v ∈ items, v.writable = true := by
  induction items with
  | nil => simp [writableItems]
  | cons v items ih => simp [writableItems, ih]

theorem writableEntries_iff (entries : List (String × Value)) :
    writableEntries entries = true ↔ ∀ entry ∈ entries, entry.2.writable = true := by
  induction entries with
  | nil => simp [writableEntries]
  | cons entry entries ih => simp [writableEntries, ih]

/-- The tokens of a number give its row. -/
theorem gives_number (finite : data.finite = true) :
    Gives AnyKind (ofNumber data) (Expr.value data).row := by
  rw [ofNumber, Expr.row]
  cases data.unsigned? with
  | some m => exact (Gives.literal m).sign
  | none =>
    rw [reread_of_finite finite]
    exact Gives.literal data

theorem ofDouble_of_finite {d : Float} (finite : d.isFinite = true) :
    ofDouble d = ofNumber (.double d) := by
  rw [isFinite_eq, Bool.and_eq_true, Bool.not_eq_true', Bool.not_eq_true'] at finite
  unfold ofDouble
  rw [finite.1, finite.2]
  rfl

theorem row_of_unsigned?_none (finite : data.finite = true) (none : data.unsigned? = none) :
    (Expr.value data).row = [.value data] := by
  rw [Expr.row, none, reread_of_finite finite]

/-- A collection of finite literals is read back as its value. -/
theorem foldConstant_reread (items : List (Option String × Expr))
    (literals : ∀ item ∈ items, ∃ v, item.2 = .value v ∧ v.finite = true)
    (given : (Expr.collection items).eval Env.empty = data) (whole : data.isError = false)
    (finite : data.finite = true) :
    (Expr.collection (items.map fun item => (item.1, item.2.reread))).foldConstant =
      .ok (.value data) := by
  have same : (items.map fun item => (item.1, item.2.reread)) = items := by
    conv_rhs => rw [← List.map_id items]
    refine List.map_congr_left fun item mem => ?_
    obtain ⟨v, eq, finite⟩ := literals item mem
    rw [eq, Expr.reread_value, reread_of_finite finite, ← eq]
    rfl
  rw [same]
  refine foldConstant_collection (fun item mem => ?_) given whole finite
  obtain ⟨v, eq, _⟩ := literals item mem
  exact ⟨v, eq⟩

/-- What an item is read as, if it is a literal. -/
theorem readsItem (writable : data.writable = true)
    (gives : Gives AnyKind data.tokens (Expr.value data).row) :
    ReadsItem Expr.tokens Expr.row Expr.reread (.value data) :=
  ⟨gives, (Expr.operandRow (e := .value data) rfl writable).fold .strict⟩

/-- The tokens of a literal give its row. -/
theorem gives_tokens (plain : data.Plain Text.Quotable) (finite : data.finite = true)
    (writable : data.writable = true) : Gives AnyKind data.tokens (Expr.value data).row := by
  induction plain with
  | nil => exact Gives.keyword _ fun _ _ => rfl
  | bool b => cases b <;> exact Gives.keyword _ fun _ _ => rfl
  | int i => exact gives_number finite
  | double d =>
    rw [tokens, ofDouble_of_finite finite]
    exact gives_number finite
  | string => exact Gives.literal _
  | @array items plain ih =>
    have finite' := (finiteItems_iff items).mp finite
    have writable' := (writableItems_iff items).mp writable
    have made := foldConstant_reread (asItems items)
      (List.forall_mem_map.mpr fun v mem => ⟨v, rfl, finite' v mem⟩)
      (eval_asItems fun v mem => isError_of_plain (plain v mem)) rfl finite
    have gives := Gives.collection (asItems items) (List.forall_mem_map.mpr fun v mem =>
      readsItem (writable' v mem) (ih v mem (finite' v mem) (writable' v mem)))
      (by simp [asItems]) (by simp [asItems, Tuple.isCollection, Tuple.anyLabel]) made
    have same : ((asItems items).map fun item => ofLabel item.1 ++ item.2.tokens) =
        items.map tokens := by
      unfold asItems
      rw [List.map_map]
      exact List.map_congr_left fun v _ => Expr.tokens.eq_1 v
    rw [row_of_unsigned?_none finite rfl, tokens, tokensItems_eq_map, ← same]
    exact gives
  | @dictionary entries ascending keys plain ih =>
    have finite' := (finiteEntries_iff entries).mp finite
    have writable' := (writableEntries_iff entries).mp writable
    rw [row_of_unsigned?_none finite rfl]
    cases entries with
    | nil => exact Gives.emptyDictionary
    | cons entry entries =>
      generalize found : entry :: entries = all at *
      have some : all ≠ [] := by
        rw [← found]
        simp
      have made := foldConstant_reread (asEntries all)
        (List.forall_mem_map.mpr fun entry mem => ⟨entry.2, rfl, finite' entry mem⟩)
        (eval_asEntries some ascending fun entry mem => isError_of_plain (plain entry mem)) rfl
        finite
      have gives := Gives.collection (asEntries all)
        (List.forall_mem_map.mpr fun entry mem =>
          readsItem (writable' entry mem) (ih entry mem (finite' entry mem) (writable' entry mem)))
        (by simpa [asEntries, List.filterMap_map, Function.comp_def] using ascending.nodup)
        (by simp [asEntries, Tuple.isCollection, Tuple.allLabelled]) made
      have same : ((asEntries all).map fun item => ofLabel item.1 ++ item.2.tokens) =
          all.map fun entry => ofLabel (Option.some entry.1) ++ entry.2.tokens := by
        unfold asEntries
        rw [List.map_map]
        exact List.map_congr_left fun entry _ =>
          congrArg (ofLabel (Option.some entry.1) ++ ·) (Expr.tokens.eq_1 entry.2)
      have tokens_eq : tokens (.dictionary all) = bracketed (tokensEntries all) := by
        rw [← found, tokens]
        rintro ⟨⟩
      rw [tokens_eq, tokensEntries_eq_map, ← same]
      exact gives

end Value

/-- The tokens of a variable give it. -/
theorem Variable.gives_tokens (v : Variable) : Gives AnyKind v.tokens [Expr.var v] := by
  unfold Variable.tokens
  obtain ⟨scope, member, path⟩ := v
  cases scope with
  | none =>
    have gives := (Gives.ident member).path path
    exact gives
  | some scope =>
    by_cases own : scope = Variable.ownScope
    · subst own
      have gives := (Gives.own member).path path
      simp only [if_pos]
      exact gives
    · have gives := (Gives.scope scope member).path path
      simp only [if_neg own]
      exact gives

namespace Expr

variable {e : Expr} {op : Operator}

/-- A double without literal is spelled as a division, which stays. -/
theorem gives_double {d : Float} (finite : d.isFinite = false) :
    Gives AnyKind (ofDouble d) (value (.double d)).row := by
  have zero : OperandRow [value (.double 0.0)] (value (.double 0.0)) := .plain rfl
  have divided {tokens : List Token} {row : List Expr} {x : Expr} (gives : Gives AnyKind tokens row)
      (operand : OperandRow row x)
      (stays : (binary .divide x (value (.double 0.0))).foldConstant =
        .ok (binary .divide x (value (.double 0.0)))) :
      Gives AnyKind (parenthesized (tokens ++ [.operator .divide, .literal (.double 0.0)]))
        [binary .divide x (value (.double 0.0))] :=
    (gives.binary operand.last (Gives.literal _) (.inl rfl)).mono.parens
      (fold_binary operand zero rfl (by decide) stays rfl)
  have infinite : (Value.double d).finite = false := finite
  have stays := foldConstant_reread (e := value (.double d)) rfl
  rw [reread_value] at stays
  rw [row, Value.unsigned?_of_not_finite infinite]
  unfold ofDouble Value.reread at *
  split
  · rename_i nan
    simp only [if_pos nan] at stays ⊢
    exact divided (Gives.literal _) zero stays
  · rename_i number
    have unbounded : d.isInf = true := Decidable.byContradiction fun bounded =>
      absurd (Value.isFinite_of_bounded number bounded) (by rw [finite]; decide)
    simp only [if_neg number, if_pos unbounded] at stays ⊢
    split
    · rename_i negative
      simp only [if_pos negative] at stays
      exact divided (Gives.literal _).sign (.signed rfl rfl rfl) stays
    · rename_i positive
      simp only [if_neg positive] at stays
      exact divided (Gives.literal _) (.plain rfl) stays

/-- A sign or a negation in front of a number gives an error or a finite value. -/
theorem applyUnary_unsigned {data m : Value} (h : data.unsigned? = some m)
    (form : op.form = .unary) :
    (op.applyUnary data).isError = true ∨ (op.applyUnary data).finite = true := by
  cases op with
  | not => exact .inr rfl
  | negate =>
    unfold Value.unsigned? at h
    split at h
    · rename_i i
      show (Operator.checkedValue .negate (-i.toInt)).isError = true ∨
        (Operator.checkedValue .negate (-i.toInt)).finite = true
      unfold Operator.checkedValue
      split
      · exact .inr rfl
      · exact .inl rfl
    · rename_i d
      split at h
      · rename_i negative
        rw [Bool.and_eq_true] at negative
        exact .inr (Double.isFinite_neg negative.1)
      · cases h
    · cases h
  | _ => cases form

/-- A sign or a negation in front of a finite number would have been computed. -/
theorem row_of_unary (form : op.form = .unary)
    (stays : (unary op e).foldConstant = .ok (unary op e)) : e.row = [e.reread] := by
  cases e with
  | value data =>
    rw [row, reread_value]
    cases h : data.unsigned? with
    | none => rfl
    | some m =>
      obtain ⟨whole, infinite⟩ := (foldConstant_stays rfl).mp stays rfl
      have given : (unary op (value data)).eval Env.empty = op.applyUnary data := by
        obtain ⟨plain, _⟩ := Value.isError_unsigned h
        rw [eval, eval]
        cases data with
        | error _ => cases plain
        | _ => rfl
      rw [given] at whole infinite
      rcases applyUnary_unsigned h form with failed | finite
      · rw [failed] at whole
        cases whole
      · rw [finite] at infinite
        cases infinite
  | _ => rfl

section Binary

variable {l r : Expr}

/-- The tokens of a subscript give it. A sign of its operand stands in front of the subscript. -/
theorem gives_subscript (gl : Gives AnyKind l.tokens l.row) (gr : Gives AnyKind r.tokens r.row)
    (place : l.valued = true) (key : OperandRow r.row r.reread)
    (stays : (binary .subscript l r).foldConstant = .ok (binary .subscript l r)) :
    Gives AnyKind (binary .subscript l r).tokens (binary .subscript l r).row := by
  have made := foldConstant_reread stays
  show Gives AnyKind _ [(binary .subscript l r).reread]
  rcases reread_binary .subscript l r with ⟨data, m, _, rfl, h, eq⟩ | ⟨eq, plain⟩
  · have front : (value data).row = [.operator .negate] ++ [.value m] := by
      rw [row, h]
      rfl
    rw [front] at gl
    have inner := gl.subscript rfl gr (key.fold .strict) (foldConstant_subscript h stays)
    rw [eq] at made ⊢
    exact inner.mono.parens ((OperandRow.signed rfl rfl made).fold .strict)
  · have front : l.row = [] ++ [l.reread] := plain rfl
    rw [front] at gl
    rw [eq] at made ⊢
    have inner := gl.subscript ((valued_reread l).trans place) gr (key.fold .strict) made
    exact inner.mono.parens ((OperandRow.plain rfl).fold .strict)

/-- The tokens of a binary operator between its operands give it. -/
theorem gives_infix (other : op ≠ .subscript) (form : op.form = .binary)
    (gl : Gives AnyKind l.tokens l.row) (gr : Gives AnyKind r.tokens r.row)
    (rl : OperandRow l.row l.reread) (rr : OperandRow r.row r.reread)
    (stays : (binary op l r).foldConstant = .ok (binary op l r)) :
    Gives AnyKind (binary op l r).tokens (binary op l r).row := by
  have made := foldConstant_reread stays
  have valued : (binary op l r).reread.valued = true := valued_reread _
  have bound : op.precedence < Operator.negate.precedence := by
    cases op <;> first | decide | exact absurd rfl other | cases form
  show Gives AnyKind _ [(binary op l r).reread]
  rcases reread_binary op l r with ⟨_, _, subscript, _⟩ | ⟨eq, _⟩
  · exact absurd subscript other
  · rw [eq] at made valued ⊢
    rw [tokens_binary other]
    exact (gl.binary rl.last gr (.inl form)).mono.parens
      (fold_binary rl rr form bound made valued)

end Binary

/-- The tokens of a settled expression give its row. -/
theorem Settled.gives (h : e.Settled) (writable : e.writable = true) :
    Gives AnyKind e.tokens e.row := by
  induction h with
  | @value data plain form =>
    cases finite : data.finite with
    | true => exact Value.gives_tokens plain finite writable
    | false =>
      rcases form with form | ⟨d, rfl⟩
      · rw [finite] at form
        cases form
      · exact gives_double finite
  | @var v spelled => exact v.gives_tokens
  | @unary op e form operand stays ih =>
    have inner := ih writable
    have row := row_of_unary form stays
    have folded := fold_unary (x := e.reread) ((valued_reread e).trans operand.valued) form
      (foldConstant_reread stays) (by rfl)
    rw [row] at inner
    refine Gives.parens ?_ folded
    cases op with
    | not => exact inner.mono.negation
    | negate => exact inner.mono.sign
    | _ => cases form
  | @binary op l r form left right stays ihl ihr =>
    have both : l.writable = true ∧ r.writable = true := by
      simpa [Expr.writable] using writable
    have gl := ihl both.1
    have gr := ihr both.2
    have rr := operandRow right.valued both.2
    by_cases other : op = .subscript
    · subst other
      exact gives_subscript gl gr left.valued rr stays
    · exact gives_infix other form gl gr (operandRow left.valued both.1) rr stays
  | @conditional c t f condition whenTrue whenFalse stays ihc iht ihf =>
    have all : (c.writable = true ∧ t.writable = true) ∧ f.writable = true := by
      simpa [Expr.writable] using writable
    have rc := operandRow condition.valued all.1.1
    have rt := operandRow whenTrue.valued all.1.2
    have rf := operandRow whenFalse.valued all.2
    have inner := (ihc all.1.1).conditional rc (iht all.1.2) rt (ihf all.2)
    exact inner.parens (fold_conditional rc rt rf (foldConstant_reread stays) (by rfl))
  | @collection items labels distinct alike settled stays ih =>
    have all := (writableOf_iff items).mp writable
    have made := foldConstant_reread stays
    rw [reread, rereadItems_eq_map] at made
    have read : ∀ item ∈ items, ReadsItem tokens row reread item.2 := fun item mem =>
      ⟨ih item mem (all item mem),
        (operandRow (settled item mem).valued (all item mem)).fold .strict⟩
    have inner := Gives.collection items read distinct alike made
    rw [tokens, tokensItems_eq_map, row, reread, rereadItems_eq_map]
    · exact inner
    · rintro _ ⟨⟩

end Expr

end Stencil
