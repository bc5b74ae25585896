import Stencil.Proofs.SettledArguments

/-!
# Blocks of the language

The blocks of the core registry by name, and what they are made of: a condition, nothing, or the
names and the collection of a loop. Every pass over a body binds the names that the block declares.
`TagSite.CoreStep` lists what a tag of the core registry can do to a draft (`TagSite.Step.core`).
-/

namespace Stencil

namespace Entities

theorem blockTable_core : core.blockTable =
    [("else", Block.elseForm), ("elseif", Block.elseifForm), ("for", Block.forForm),
      ("if", Block.ifForm), ("while", Block.whileForm)] := rfl

theorem encoderTable_core :
    core.encoderTable = [("html", Encoder.html), ("identity", Encoder.identity)] := rfl

/-- A block of the core registry with its name. -/
theorem block?_core {name : String} {form : BlockForm} (h : core.block? name = some form) :
    (name, form) ∈ [("else", Block.elseForm), ("elseif", Block.elseifForm),
      ("for", Block.forForm), ("if", Block.ifForm), ("while", Block.whileForm)] := by
  unfold block? at h
  rw [blockTable_core] at h
  exact Entries.mem_of_find? h

/-- A block of the core registry follows the links of a chain if it is a further link itself. -/
theorem follows_core {name : String} {form : BlockForm}
    (h : core.block? name = some form) :
    form.follows = if name = "elseif" ∨ name = "else" then Block.chainLinks else [] := by
  have known := block?_core h
  simp only [List.mem_cons, Prod.mk.injEq, List.not_mem_nil, or_false] at known
  rcases known with ⟨rfl, rfl⟩ | ⟨rfl, rfl⟩ | ⟨rfl, rfl⟩ | ⟨rfl, rfl⟩ | ⟨rfl, rfl⟩ <;> rfl

/-- An encoder of the core registry with its name. -/
theorem encoder?_core {name : String} {encoder : Encoder} (h : core.encoder? name = some encoder) :
    (name, encoder) ∈ [("html", Encoder.html), ("identity", Encoder.identity)] := by
  unfold encoder? at h
  rw [encoderTable_core] at h
  exact Entries.mem_of_find? h

end Entities

namespace Signature

theorem length_insert {α : Type} (key : String) (value : α) (entries : Entries α) :
    0 < (entries.insert key value).length := by
  cases entries with
  | nil => exact Nat.one_pos
  | cons head rest =>
    obtain ⟨k, v⟩ := head
    simp only [Entries.insert]
    split
    · exact Nat.succ_pos _
    · split <;> exact Nat.succ_pos _

/-- No label is in use if the table of labels is empty. -/
theorem plain_of_labels {t : Tuple} (h : t.labels = []) : ∀ item ∈ t, item.1 = none := by
  have labelled : ∀ start, Tuple.labelled start t = [] → ∀ item ∈ t, item.1 = none := by
    clear h
    induction t with
    | nil => simp
    | cons head t ih =>
      obtain ⟨label, e⟩ := head
      intro start none item mem
      cases label with
      | some label => cases none
      | none =>
        rcases List.mem_cons.mp mem with rfl | mem
        · rfl
        · exact ih (start + 1) none item mem
  refine labelled 0 ?_
  unfold Tuple.labels Entries.ofList at h
  cases pairs : Tuple.labelled 0 t with
  | nil => rfl
  | cons pair pairs' =>
    have grows : ∀ (pairs : List (String × Nat)) (entries : Entries Nat), 0 < entries.length →
        0 < (entries.insertAll pairs).length := by
      intro pairs entries nonempty
      exact Entries.insertAll_induction (P := fun result => 0 < result.length)
        (fun _ _ _ _ => length_insert _ _ _) nonempty
    rw [pairs] at h
    have some := grows pairs' _ (length_insert pair.1 pair.2 [])
    change (Entries.insertAll (Entries.insert pair.1 pair.2 []) pairs') = [] at h
    rw [h] at some
    cases some

/-- Arguments that are bound leave none over, and each of their labels is asked for. -/
theorem fill_of_bind {s : Signature} {count : Nat} {labels : Entries Nat} {slots : List Slot}
    (h : s.bind count labels = .ok slots) :
    fill labels s.params (positions count labels) 0 = .ok (slots, []) ∧
      labels.length ≤ s.params.countP fun p => p.label.any labels.has := by
  unfold bind at h
  dsimp only at h
  split at h
  · cases h
  · obtain ⟨⟨found, unused⟩, filled, h⟩ := ok_of_bind h
    dsimp only at h
    split at h
    · cases h
    · rename_i none
      split at h
      · cases h
      · rename_i few
        cases h
        have empty : unused = [] := by simpa using none
        rw [empty] at filled
        exact ⟨filled, Nat.le_of_not_lt few⟩

theorem positions_nil (count : Nat) : positions count [] = List.range count := by
  simp [positions]

theorem eq_nil_of_length_le {t : Tuple} (h : t.labels.length ≤ 0) : t.labels = [] :=
  List.eq_nil_of_length_eq_zero (Nat.le_zero.mp h)

/-- What one parameter without label accepts is one argument without label. -/
theorem eq_of_normalize_single {t args : Tuple} (h : single.normalize t = .ok args) :
    ∃ e, t = [(none, e)] ∧ args = [(none, e)] := by
  obtain ⟨slots, bound, made⟩ := ok_of_bind h
  obtain ⟨filled, few⟩ := fill_of_bind bound
  have unlabelled : t.labels = [] := eq_nil_of_length_le few
  have plain := plain_of_labels unlabelled
  rw [unlabelled, positions_nil] at filled
  match t, plain with
  | [], _ => cases filled
  | [(label, e)], plain =>
    have none : label = none := plain _ List.mem_cons_self
    subst none
    cases filled
    cases made
    exact ⟨e, rfl, rfl⟩
  | _ :: _ :: more, _ =>
    rw [List.length_cons, List.length_cons, List.range_succ_eq_map,
      List.range_succ_eq_map] at filled
    cases filled

/-- What no parameter accepts is nothing. -/
theorem eq_of_normalize_empty {t args : Tuple} (h : Signature.normalize {} t = .ok args) :
    t = [] ∧ args = [] := by
  obtain ⟨slots, bound, made⟩ := ok_of_bind h
  obtain ⟨filled, few⟩ := fill_of_bind bound
  have unlabelled : t.labels = [] := eq_nil_of_length_le few
  rw [unlabelled, positions_nil] at filled
  cases t with
  | nil =>
    cases filled
    cases made
    exact ⟨rfl, rfl⟩
  | cons item more =>
    rw [List.length_cons, List.range_succ_eq_map] at filled
    cases filled

end Signature

/-- The name of a settled variable without scope and path. -/
theorem Expr.isWord_of_atomicName? {e : Expr} {name : String} (h : e.Element)
    (named : e.atomicName? = some name) : Text.IsWord name := by
  unfold Expr.atomicName? at named
  split at named
  · split at named
    · cases named
      have settled := h.settled rfl
      cases settled with
      | var spelled => exact spelled.member
    · cases named
  · cases named

namespace Pattern

/-- Names that are words and expressions that are settled, as many as asked for. -/
structure Finds (names : List String) (expressions : List Expr) (asked : Nat) : Prop where
  words : ∀ name ∈ names, Text.IsWord name
  settled : ∀ e ∈ expressions, e.Settled
  length : expressions.length = asked

theorem Finds.append {names more : List String} {expressions others : List Expr} {m n : Nat}
    (h : Finds names expressions m) (h' : Finds more others n) :
    Finds (names ++ more) (expressions ++ others) (m + n) := by
  refine ⟨fun name mem => ?_, fun e mem => ?_, ?_⟩
  · exact (List.mem_append.mp mem).elim (h.words name) (h'.words name)
  · exact (List.mem_append.mp mem).elim (h.settled e) (h'.settled e)
  · rw [List.length_append, h.length, h'.length]

theorem finds_of_slot {slot : PatternSlot} {e : Expr} (h : e.Element)
    {names : List String} {expressions : List Expr}
    (found : slot.match? e = some (names, expressions)) :
    Finds names expressions ([slot].count .expression) := by
  cases slot with
  | declare =>
    obtain ⟨name, named, eq⟩ := Option.map_eq_some_iff.mp found
    cases eq
    refine ⟨?_, by simp, rfl⟩
    simpa using Expr.isWord_of_atomicName? h named
  | word keyword =>
    unfold PatternSlot.match? at found
    split at found
    · rename_i eq
      cases eq
    · split at found
      · cases found
        refine ⟨by simp, by simp, ?_⟩
        exact (List.count_eq_zero.mpr (by simp)).symm
      · cases found
    · cases found
    · rename_i eq
      cases eq
  | expression =>
    simp only [PatternSlot.match?] at found
    split at found
    · rename_i valued
      cases found
      refine ⟨by simp, ?_, rfl⟩
      simpa using h.settled valued
    · cases found

theorem finds_of_elements {slots : List PatternSlot} {row : List Expr}
    (elements : ∀ e ∈ row, e.Element) {names : List String} {expressions : List Expr}
    (found : matchElements? slots row = some (names, expressions)) :
    Finds names expressions (slots.count .expression) := by
  induction slots generalizing row names expressions with
  | nil =>
    cases row with
    | nil =>
      cases found
      exact ⟨by simp, by simp, rfl⟩
    | cons => cases found
  | cons slot slots ih =>
    cases row with
    | nil => cases found
    | cons e row =>
      simp only [matchElements?, Option.bind_eq_bind, Option.bind_eq_some_iff] at found
      obtain ⟨⟨first, given⟩, here, ⟨more, others⟩, rest, eq⟩ := found
      cases eq
      have head := finds_of_slot (elements e List.mem_cons_self) here
      have tail := ih (fun x mem => elements x (.tail _ mem)) rest
      have both := head.append tail
      rwa [← List.count_append, List.singleton_append] at both

theorem elements_of_readIn {mode : FoldMode} {e : Expr} (h : e.ReadIn mode) :
    ∀ x ∈ elements e, x.Element := by
  rcases h with settled | ⟨_, row, rfl, inside, _⟩
  · unfold elements
    split
    · cases settled
    · simpa using Expr.Element.operand settled
  · exact inside

theorem finds_of_params {mode : FoldMode} {params : List (List PatternSlot)} {row : List Expr}
    (read : ∀ e ∈ row, e.ReadIn mode) {names : List String} {expressions : List Expr}
    (found : matchParams? params row = some (names, expressions)) :
    Finds names expressions (params.flatten.count .expression) := by
  induction params generalizing row names expressions with
  | nil =>
    cases row with
    | nil =>
      cases found
      exact ⟨by simp, by simp, rfl⟩
    | cons => cases found
  | cons slots params ih =>
    cases row with
    | nil => cases found
    | cons e row =>
      simp only [matchParams?, Option.bind_eq_bind, Option.bind_eq_some_iff] at found
      obtain ⟨⟨first, given⟩, here, ⟨more, others⟩, rest, eq⟩ := found
      cases eq
      have head := finds_of_elements (elements_of_readIn (read e List.mem_cons_self)) here
      have tail := ih (fun x mem => read x (.tail _ mem)) rest
      have both := head.append tail
      rwa [← List.count_append, ← List.flatten_cons] at both

theorem finds_of_match? {mode : FoldMode} {p : Pattern} {t : Tuple} {found : Matched}
    (read : t.Read mode) (matched : p.match? t = some found) :
    Finds found.declared found.expressions (p.params.flatten.count .expression) := by
  unfold Pattern.match? at matched
  split at matched
  · cases matched
  · obtain ⟨⟨names, expressions⟩, params, eq⟩ := Option.map_eq_some_iff.mp matched
    cases eq
    have each : ∀ e ∈ t.values, e.ReadIn mode := by
      intro e mem
      obtain ⟨item, inside, rfl⟩ := List.mem_map.mp mem
      exact read.items item inside
    exact finds_of_params each params

end Pattern

namespace Block

/-- A block instance of the core registry, by the name of its tag. -/
inductive Made : String → BlockInstance → Prop
  | condition {name : String} {e : Expr} (named : name = "if" ∨ name = "elseif")
      (settled : e.Settled) : Made name ⟨condition, [(none, e)], []⟩
  | otherwise : Made "else" ⟨otherwise, [], []⟩
  | whileLoop {e : Expr} (settled : e.Settled) : Made "while" ⟨whileLoop, [(none, e)], []⟩
  | forLoop {key : Option String} {item : String} {e : Expr}
      (keyWord : ∀ name, key = some name → Text.IsWord name ∧ name ≠ item)
      (itemWord : Text.IsWord item) (settled : e.Settled) :
      Made "for" ⟨forLoop key item, [(none, e)],
        key.toList ++ [item, loopIndex, loopIsFirst, loopIsLast]⟩

variable {source : List Lexeme} {site : TagSite} {form : BlockForm} {arguments : BlockArguments}

/-- A call with one argument. -/
theorem settled_of_makeCall (callless : site.entities.Callless)
    (spelled : ∀ l ∈ source, l.token.Spelled) (read : site.ReadsBlock source form arguments)
    {behaviour : Behaviour} {refusal : BlockError} {made : BlockInstance}
    (make : makeCall .single behaviour refusal arguments = .ok made) :
    ∃ e : Expr, e.Settled ∧ made = ⟨behaviour, [(none, e)], []⟩ := by
  cases arguments with
  | parsed found => cases make
  | call t =>
    obtain ⟨args, normal, make⟩ := ok_of_bind make
    cases make
    obtain ⟨e, rfl, rfl⟩ := Signature.eq_of_normalize_single (ok_of_mapError normal)
    refine ⟨e, ?_, rfl⟩
    cases read with
    | call read =>
      exact (read.read callless spelled).settled _ List.mem_cons_self

theorem nothing_of_makeCall {behaviour : Behaviour} {refusal : BlockError} {made : BlockInstance}
    (make : makeCall {} behaviour refusal arguments = .ok made) :
    made = ⟨behaviour, [], []⟩ := by
  cases arguments with
  | parsed found => cases make
  | call t =>
    obtain ⟨args, normal, make⟩ := ok_of_bind make
    cases make
    obtain ⟨_, rfl⟩ := Signature.eq_of_normalize_empty (ok_of_mapError normal)
    rfl

theorem made_of_makeFor (callless : site.entities.Callless)
    (spelled : ∀ l ∈ source, l.token.Spelled) (read : site.ReadsBlock source forForm arguments)
    {made : BlockInstance} (make : makeFor arguments = .ok made) : Made "for" made := by
  cases read with
  | none => cases make
  | call => cases make
  | @parsed mode t found plain read matched =>
    have finds : Pattern.Finds found.declared found.expressions 1 := by
      unfold BlockForm.match? at matched
      obtain ⟨p, inside, matched⟩ := List.exists_of_findSome?_eq_some matched
      have finds := Pattern.finds_of_match? (read.read callless spelled) matched
      simp only [forForm, List.mem_cons, List.not_mem_nil, or_false] at inside
      rcases inside with rfl | rfl <;> exact finds
    obtain ⟨e, one⟩ := List.length_eq_one_iff.mp finds.length
    have settled : e.Settled := finds.settled e (by rw [one]; exact List.mem_cons_self)
    have words := finds.words
    simp only [makeFor] at make
    rw [one] at make
    split at make
    · rename_i item declared
      cases make
      rw [declared] at words
      exact .forLoop (by simp) (words _ List.mem_cons_self) settled
    · rename_i key item declared
      rw [declared] at words
      split at make
      · cases make
      · rename_i differs
        cases make
        refine .forLoop ?_ (words _ (.tail _ List.mem_cons_self)) settled
        rintro name ⟨⟩
        exact ⟨words _ List.mem_cons_self, differs⟩
    · cases make

/-- What the core registry makes of the arguments of a block tag. -/
theorem made_of_core {tag : String} (callless : site.entities.Callless)
    (spelled : ∀ l ∈ source, l.token.Spelled) (known : Entities.core.block? tag = some form)
    (read : site.ReadsBlock source form arguments) {made : BlockInstance}
    (make : form.make arguments = .ok made) : Made tag made := by
  have mem := Entities.block?_core known
  simp only [List.mem_cons, Prod.mk.injEq, List.not_mem_nil, or_false] at mem
  rcases mem with ⟨rfl, rfl⟩ | ⟨rfl, rfl⟩ | ⟨rfl, rfl⟩ | ⟨rfl, rfl⟩ | ⟨rfl, rfl⟩
  · rw [nothing_of_makeCall make]
    exact .otherwise
  · obtain ⟨e, settled, rfl⟩ := settled_of_makeCall callless spelled read make
    exact .condition (.inr rfl) settled
  · exact made_of_makeFor callless spelled read make
  · obtain ⟨e, settled, rfl⟩ := settled_of_makeCall callless spelled read make
    exact .condition (.inl rfl) settled
  · obtain ⟨e, settled, rfl⟩ := settled_of_makeCall callless spelled read make
    exact .whileLoop settled

end Block

/-- What is evaluated for a block of the core registry is settled. -/
theorem Block.Made.settled {tag : String} {made : BlockInstance} (h : Block.Made tag made) :
    ∀ e ∈ made.args.values, e.Settled := by
  cases h with
  | condition _ settled => simpa [Tuple.values] using settled
  | otherwise => simp [Tuple.values]
  | whileLoop settled => simpa [Tuple.values] using settled
  | forLoop _ _ settled => simpa [Tuple.values] using settled

/-- The links before an `else` have a condition. -/
theorem Block.Made.condition_of_link {tag : String} {made : BlockInstance} (h : Block.Made tag made)
    (link : tag = "if" ∨ tag = "elseif") :
    ∃ e : Expr, e.Settled ∧ made = ⟨Block.condition, [(none, e)], []⟩ := by
  cases h with
  | condition _ settled => exact ⟨_, settled, rfl⟩
  | otherwise | whileLoop | forLoop => simp at link

theorem Block.Made.eq_of_else {tag : String} {made : BlockInstance} (h : Block.Made tag made)
    (last : tag = "else") : made = ⟨Block.otherwise, [], []⟩ := by
  cases h with
  | otherwise => rfl
  | condition named =>
    subst last
    simp at named
  | whileLoop | forLoop => simp at last

/-- Each pass of a block binds a name. -/
def Behaviour.Binds (b : Behaviour) (name : String) : Prop :=
  ∀ entered index current, (b.pass entered index current).1 ≠ .discard →
    name ∈ (b.pass entered index current).2.map Prod.fst

theorem Block.keys_loopBindings (key : Option String) (item : String) (count position : Nat)
    (entry : Value × Value) : (loopBindings key item count position entry).map Prod.fst =
      [item] ++ key.toList ++ [loopIndex, loopIsFirst, loopIsLast] := by
  simp [loopBindings, Function.comp_def]

/-- A block of the core registry binds exactly what it declares. -/
theorem Block.Made.binds {tag : String} {made : BlockInstance} (h : Block.Made tag made)
    (name : String) : name ∈ made.declares ↔ made.behaviour.Binds name := by
  have nothing {b : Behaviour} (values : List Value)
      (pass : (b.pass values 0 values).1 ≠ .discard) (none : (b.pass values 0 values).2 = []) :
      name ∈ ([] : List String) ↔ b.Binds name := by
    constructor
    · intro mem
      cases mem
    · intro binds
      have mem := binds values 0 values pass
      rwa [none] at mem
  cases h with
  | condition =>
    have runs : (Block.condition.pass [.bool true] 0 [.bool true]).1 ≠ .discard := by decide
    exact nothing _ runs rfl
  | otherwise =>
    have runs : (Block.otherwise.pass [] 0 []).1 ≠ .discard := by decide
    exact nothing _ runs rfl
  | whileLoop =>
    have runs : (Block.whileLoop.pass [.bool true] 0 [.bool true]).1 ≠ .discard := by decide
    exact nothing _ runs rfl
  | forLoop =>
    rename_i key item e _ _ _
    have order : name ∈ key.toList ++ [item, loopIndex, loopIsFirst, loopIsLast] ↔
        name ∈ [item] ++ key.toList ++ [loopIndex, loopIsFirst, loopIsLast] := by
      simp only [List.mem_append, List.mem_cons, List.not_mem_nil, or_false]
      tauto
    rw [order]
    constructor
    · intro mem entered index current notDiscard
      simp only [Block.forLoop] at notDiscard ⊢
      split
      · rename_i none
        simp [none] at notDiscard
      · rw [keys_loopBindings]
        exact mem
    · intro binds
      -- one pass tells the names
      have mem := binds [.array [.nil]] 0 [] (by simp [Block.forLoop, loopEntries])
      simp only [Block.forLoop, loopEntries, List.head?_cons, List.zipIdx_cons, List.zipIdx_nil,
        List.map_cons, List.map_nil, List.getElem?_cons_zero] at mem
      rwa [keys_loopBindings] at mem

theorem Variable.eq_plain {v : Variable} (atomic : v.isAtomic = true) : v = .plain v.member := by
  obtain ⟨scope, member, path⟩ := v
  simp only [isAtomic, Bool.and_eq_true, Option.isNone_iff_eq_none, List.isEmpty_iff] at atomic
  obtain ⟨rfl, rfl⟩ := atomic
  rfl

namespace TagSite

variable {site : TagSite} {e default : Expr} {name file : String} {asRaw : Bool} {t : Tuple}

theorem atomicName?_of_evaluation (h : site.evaluation e = .ok (name, none)) :
    e.atomicName? = some name := by
  unfold evaluation at h
  split at h
  · split at h <;> cases h
  · split at h
    · rename_i named
      cases h
      exact named
    · cases h

theorem eq_of_evaluation (h : site.evaluation e = .ok (name, some default)) :
    ∃ left, e = .binary .nilCoalesce left default ∧ left.atomicName? = some name := by
  unfold evaluation at h
  split at h
  · split at h
    · rename_i named
      cases h
      exact ⟨_, rfl, named⟩
    · cases h
  · split at h <;> cases h

theorem mem_of_inlineTarget (h : inlineTarget t = .ok (file, asRaw)) :
    (none, .value (.string file)) ∈ t := by
  unfold inlineTarget at h
  split at h
  · obtain ⟨raw, -, h⟩ := ok_of_bind h
    dsimp only at h
    split at h
    · cases h
    · cases h
      exact List.mem_cons_self
  · cases h

/-- What a tag of the core registry does to a draft. Names are words and files can be quoted, and
the expressions are settled. -/
inductive CoreStep (site : TagSite) (d : Draft) : Draft → Prop
  | text : CoreStep site d (d.addRaw (String.ofList [site.indicator] ++ site.tag))
  | output {e : Expr} {used : Draft} (settled : e.Settled) (uses : d.useAll e = .ok used) :
      CoreStep site d (used.push (.output e))
  | declareEmpty {name : String} (word : Text.IsWord name)
      (fresh : d.innermost.has name = false) :
      CoreStep site d ((d.declare name ⟨false, false⟩).push (.declare name false none))
  | declare {constant : Bool} {name : String} {value : Expr} {used : Draft}
      (word : Text.IsWord name) (settled : value.Settled) (uses : d.useAll value = .ok used)
      (fresh : used.innermost.has name = false) :
      CoreStep site d
        ((used.declare name ⟨constant, true⟩).push (.declare name constant (some value)))
  | assign {name : String} {op : Operator} {value : Expr} {declared : Declared} {used : Draft}
      (word : Text.IsWord name) (form : op.form = .assignment) (settled : value.Settled)
      (known : d.lookup? name = some declared) (mutable : declared.constant = false)
      (compound : op.compoundBase?.isSome = true → declared.assigned = true)
      (uses : d.useAll value = .ok used) :
      CoreStep site d ((used.markAssigned name).push (.assign (.plain name) op value))
  | defineValue {value : Expr} {name : String} {used : Draft} (word : Text.IsWord name)
      (settled : value.Settled) (uses : d.useAll value = .ok used) :
      CoreStep site d (used.push (.define name (some value)))
  | defineBody {name : String} (word : Text.IsWord name) :
      CoreStep site d (d.openScope (.define name none) "define" .define site.location [])
  | evaluate {name : String} (word : Text.IsWord name) :
      CoreStep site d (d.push (.evaluate name none))
  | evaluateOr {default : Expr} {name : String} {used : Draft} (word : Text.IsWord name)
      (settled : default.Settled) (uses : d.useAll default = .ok used) :
      CoreStep site d (used.push (.evaluate name (some default)))
  | inlineRaw {file : String} (quotable : Text.Quotable file) :
      CoreStep site d
        ((({ d with raws := NameSet.insert file d.raws }).push (.inline file true)).push
          (.scope none))
  | inlineTemplate {file : String} (quotable : Text.Quotable file) :
      CoreStep site d
        ((({ d with templates := NameSet.insert file d.templates }).push
          (.inline file false)).push (.scope none))
  | encode {handler : String} {encoder : Encoder} (word : Text.IsWord handler)
      (known : Entities.core.encoder? handler = some encoder) :
      CoreStep site d (d.openScope (.encode handler encoder) "raw" .encode site.location [])
  | block {form : BlockForm} {made : BlockInstance} {used : Draft}
      (known : Entities.core.block? site.tag = some form) (starts : form.follows = [])
      (core : Block.Made site.tag made)
      (uses : made.args.values.foldlM Draft.useAll d = .ok used) :
      CoreStep site d (used.openScope (.block site.tag false made.behaviour made.args)
        site.tag (.chain [site.tag]) site.location
        (Entries.ofList (made.declares.map fun name => (name, Declared.mk true true))))
  | link {form : BlockForm} {made : BlockInstance} {used : Draft} {top : OpenScope}
      {outer : List OpenScope} {names : List String}
      (known : Entities.core.block? site.tag = some form) (opened : d.opened = top :: outer)
      (kind : top.kind = .chain names) (follows : form.follows.contains top.name = true)
      (core : Block.Made site.tag made)
      (uses : made.args.values.foldlM Draft.useAll d.closeScope = .ok used) :
      CoreStep site d (used.openScope (.block site.tag (1 < (names ++ [site.tag]).length)
          made.behaviour made.args) site.tag (.chain (names ++ [site.tag])) site.location
        (Entries.ofList (made.declares.map fun name => (name, Declared.mk true true))))
  | close {closed : String} (own : d.opened.head?.any (·.closedBy closed) = true) :
      CoreStep site d d.closeScope

/-- A tag of spelled tokens does one of these things, since the core registry has nothing to call.
-/
theorem Step.core {source : List Lexeme} {d d' : Draft} (core : site.entities = .core)
    (spelled : ∀ l ∈ source, l.token.Spelled) (step : Step source site d d') :
    CoreStep site d d' := by
  have callless : site.entities.Callless := core ▸ Entities.callless_core
  have strict {t : Tuple} (read : site.ReadsTuple source .strict t) : ∀ item ∈ t, item.2.Settled :=
    (read.read callless spelled).settled
  have settled {e : Expr} (read : site.Reads source .strict e) : e.Settled :=
    strict read _ List.mem_cons_self
  have readIn {e : Expr} (read : site.Reads source .assignment e) : e.ReadIn .assignment :=
    (read.read callless spelled).items _ List.mem_cons_self
  have word {e : Expr} {name : String} (settled : e.Settled) (named : e.atomicName? = some name) :
      Text.IsWord name := Expr.isWord_of_atomicName? (.operand settled) named
  have quotable {t : Tuple} {file : String} {asRaw : Bool} (read : site.ReadsTuple source .strict t)
      (target : inlineTarget t = .ok (file, asRaw)) : Text.Quotable file := by
    cases strict read _ (mem_of_inlineTarget target) with
    | value plain =>
      cases plain with
      | string quotable => exact quotable
  cases step with
  | text => exact .text
  | output read single uses => exact .output (Expr.settled_of_readIn (readIn read) single) uses
  | call _ resolved => exact absurd resolved callless.resolveCall
  | declareEmpty named fresh =>
    obtain ⟨place, mem⟩ := named
    exact .declareEmpty (spelled _ mem) fresh
  | declare named read uses fresh =>
    obtain ⟨place, mem⟩ := named
    exact .declare (spelled _ mem) (settled read) uses fresh
  | @assign v op value declared used read atomic known mutable compound uses =>
    obtain ⟨target, form, given⟩ := Expr.assignment_of_readIn (readIn read)
    have word : Text.IsWord v.member := by
      cases target with
      | var spelled => exact spelled.member
    rw [Variable.eq_plain atomic]
    exact .assign word form given known mutable compound uses
  | defineValue read named uses =>
    obtain ⟨target, -, given⟩ := Expr.assignment_of_readIn (readIn read)
    exact .defineValue (word target named) given uses
  | defineBody read named =>
    refine .defineBody (word (Expr.settled_of_readIn (readIn read) ?_) named)
    rintro v op value rfl
    cases named
  | evaluate read named => exact .evaluate (word (settled read) (atomicName?_of_evaluation named))
  | evaluateOr read named uses =>
    obtain ⟨left, rfl, called⟩ := eq_of_evaluation named
    cases settled read with
    | binary _ target given => exact .evaluateOr (word target called) given uses
  | inlineRaw read target => exact .inlineRaw (quotable read target)
  | inlineTemplate read target => exact .inlineTemplate (quotable read target)
  | @encode e handler encoder read named known =>
    rw [core] at known
    have encoders := Entities.encoder?_core known
    simp only [List.mem_cons, Prod.mk.injEq, List.not_mem_nil, or_false] at encoders
    have word : Text.IsWord handler := by
      rcases encoders with ⟨rfl, -⟩ | ⟨rfl, -⟩ <;> exact ⟨Text.isName_of_cons rfl rfl rfl, rfl⟩
    exact .encode word known
  | block known starts read make uses =>
    rw [core] at known
    exact .block known starts (Block.made_of_core callless spelled known read make) uses
  | link known opened kind follows read make uses =>
    rw [core] at known
    have made := Block.made_of_core callless spelled known read make
    exact .link known opened kind follows made uses
  | close _ own => exact .close own

end TagSite

end Stencil
