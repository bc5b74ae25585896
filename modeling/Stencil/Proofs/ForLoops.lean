import Stencil.Proofs.LoopRounds
import Stencil.Proofs.SoundValues

/-!
# What a loop over a collection binds

A `for` takes the entries of its collection as they are when the loop is entered: the body is walked
once for each of them, in their order, and each round has a frame of its own with the entry, its
position, and whether it is the first or the last (`Template.for_enumerates`). Nothing that the body
does changes how many rounds there are or what the later ones bind, since both depend on the entries
alone (`Machine.rounds_for`).
-/

namespace Stencil

/-- A `for` is a loop over a collection. -/
theorem Block.Made.eq_of_for {tag : String} {made : BlockInstance} (h : Block.Made tag made)
    (named : tag = "for") :
    ∃ key item collection, made.behaviour = Block.forLoop key item ∧
      made.args = [(none, collection)] ∧ collection.Settled ∧
      ∀ name, key = some name → name ≠ item := by
  cases h with
  | forLoop keyWord _ settled =>
    exact ⟨_, _, _, rfl, rfl, settled, fun name h => (keyWord name h).2⟩
  | condition other =>
    subst named
    simp at other
  | otherwise | whileLoop => simp at named

namespace Block

/-- All names that a loop binds. -/
def loopNames (key : Option String) (item : String) : List String :=
  [item] ++ key.toList ++ [loopIndex, loopIsFirst, loopIsLast]

/-- The names that a loop is given differ from those that it binds besides. -/
def NamesApart (key : Option String) (item : String) : Prop :=
  ∀ name ∈ item :: key.toList, name ∉ [loopIndex, loopIsFirst, loopIsLast]

/-- What is bound in the round for the entry at a position, of so many entries, and nothing else. -/
structure LoopBinds (key : Option String) (item : String) (count position : Nat)
    (entry : Value × Value) (bindings : Bindings) : Prop where
  value : bindings.find? item = some entry.2
  keyed : ∀ name, key = some name → bindings.find? name = some entry.1
  index : bindings.find? loopIndex = some (.ofNat position)
  isFirst : bindings.find? loopIsFirst = some (.bool (decide (position = 0)))
  isLast : bindings.find? loopIsLast = some (.bool (decide (position + 1 = count)))
  only : ∀ name, (bindings.find? name).isSome = true → name ∈ loopNames key item

variable {key : Option String} {item : String} {count position : Nat} {entry : Value × Value}

/-- Only names of the loop are bound. -/
def BindsOwn (key : Option String) (item : String) (bindings : Bindings) : Prop :=
  ∀ name, (bindings.find? name).isSome = true → name ∈ loopNames key item

theorem bindsOwn_nil : BindsOwn key item [] := by
  rintro name ⟨⟩

theorem bindsOwn_insertAll {old : Bindings} (h : BindsOwn key item old) :
    BindsOwn key item (old.insertAll (loopBindings key item count position entry)) := by
  intro name found
  rcases Entries.find?_insertAll_isSome.mp found with before | here
  · exact h name before
  · rwa [keys_loopBindings] at here

/-- Only arrays and dictionaries have entries. -/
theorem loopEntries_of_other {value : Value} (array : ∀ items, value ≠ .array items)
    (dictionary : ∀ entries, value ≠ .dictionary entries) : loopEntries (some value) = [] := by
  cases value with
  | array items => exact absurd rfl (array items)
  | dictionary entries => exact absurd rfl (dictionary entries)
  | _ => rfl

/-- The bindings of a round take the place of those of the round before. -/
theorem loopBinds_insertAll (apart : NamesApart key item)
    (differs : ∀ name, key = some name → name ≠ item) {old : Bindings}
    (own : BindsOwn key item old) :
    LoopBinds key item count position entry
      (old.insertAll (loopBindings key item count position entry)) := by
  have names : loopIndex ≠ loopIsFirst ∧ loopIndex ≠ loopIsLast ∧ loopIsFirst ≠ loopIsLast := by
    decide
  obtain ⟨indexFirst, indexLast, firstLast⟩ := names
  have itemApart := apart item List.mem_cons_self
  simp only [List.mem_cons, List.not_mem_nil, or_false, not_or] at itemApart
  obtain ⟨itemIndex, itemFirst, itemLast⟩ := itemApart
  have keyApart (name : String) (h : key = some name) :
      name ≠ loopIndex ∧ name ≠ loopIsFirst ∧ name ≠ loopIsLast := by
    have keyApart := apart name (by simp [h])
    simpa [not_or] using keyApart
  refine ⟨?_, ?_, ?_, ?_, ?_, bindsOwn_insertAll own⟩
  · cases key with
    | none =>
      simp [loopBindings, Entries.insertAll, Entries.find?_insert_of_ne, itemIndex, itemFirst,
        itemLast]
    | some name =>
      simp [loopBindings, Entries.insertAll, Entries.find?_insert_of_ne, itemIndex, itemFirst,
        itemLast, (differs name rfl).symm]
  · rintro name rfl
    obtain ⟨keyIndex, keyFirst, keyLast⟩ := keyApart name rfl
    simp [loopBindings, Entries.insertAll, Entries.find?_insert_of_ne, keyIndex, keyFirst, keyLast]
  · simp [loopBindings, Entries.insertAll, Entries.find?_insert_of_ne, indexFirst, indexLast]
  · simp [loopBindings, Entries.insertAll, Entries.find?_insert_of_ne, firstLast]
    rfl
  · simp [loopBindings, Entries.insertAll]
    rfl

end Block

namespace Machine

open Block (BindsOwn LoopBinds NamesApart)

variable {r : Rendering} {key : Option String} {item : String} {args : Tuple} {value : Value}
  {body : Nat} {encoder : Encoder} {below : List TableCursor} {s : RenderState} {index : Nat}
  {bindings : Bindings} {entry next : Value × Value} {entries more : List (Value × Value)}

/-- A pass over the body of a loop over a collection, after which so many more follow. -/
def forPass (key : Option String) (item : String) (args : Tuple) (value : Value) (index left : Nat)
    (bindings : Bindings) : Pass :=
  ⟨"for", Block.forLoop key item, args, ⟨[value], index, bindings⟩, .counted left⟩

theorem leave_for_next (given : Block.loopEntries (some value) = entries)
    (behind : entries.drop (index + 1) = next :: more) {left : Nat} :
    let bound := bindings.insertAll
      (Block.loopBindings key item entries.length (index + 1) next)
    leave r body encoder (some (forPass key item args value index (left + 1) bindings)) below s =
      enter r body encoder bound
        (some (forPass key item args value (index + 1) left bound)) below s := by
  have here : entries[index + 1]? = some next := by
    rw [← List.head?_drop, behind]
    rfl
  simp only [leave, forPass, again, Behaviour.again, Block.forLoop, List.head?_cons, given, here]

/-- What the rounds for entries bind, from a position on. -/
def BoundInOrder (key : Option String) (item : String) (count position : Nat)
    (entries : List (Value × Value)) (rounds : List (RenderState × Bindings)) : Prop :=
  List.Forall₂ (fun entry round => LoopBinds key item count entry.2 entry.1 round.2)
    (entries.zipIdx position) rounds

/-- From a round on there is one for each entry that is left. The induction is on these entries. -/
theorem rounds_for (filled : below ≠ []) (differs : ∀ name, key = some name → name ≠ item)
    (given : Block.loopEntries (some value) = entries) (rest : entries.drop index = entry :: more)
    (own : BindsOwn key item bindings)
    (binds : NamesApart key item → LoopBinds key item entries.length index entry bindings)
    (halts : Halts r (enter r body encoder bindings
      (some (forPass key item args value index more.length bindings)) below s)) :
    ∃ rounds left,
      Rounds r body encoder below (enter r body encoder bindings
        (some (forPass key item args value index more.length bindings)) below s) s rounds
        ⟨below, left⟩ left ∧
      rounds.length = more.length + 1 ∧
      (NamesApart key item →
        BoundInOrder key item entries.length index (entry :: more) rounds) := by
  induction more generalizing index entry bindings s with
  | nil =>
    obtain ⟨s', walks⟩ := exists_walks filled halts
    exact ⟨_, s', .cons walks (.nil _ _), rfl, fun apart => .cons (binds apart) .nil⟩
  | cons next more ih =>
    have behind : entries.drop (index + 1) = next :: more := by
      rw [← List.tail_drop, rest]
      rfl
    obtain ⟨s', walks⟩ := exists_walks filled halts
    have again := halts.of_reaches walks.reaches
    rw [List.length_cons, leave_for_next given behind] at again
    obtain ⟨rounds, left, walked, count, bound⟩ := ih behind (Block.bindsOwn_insertAll own)
      (fun apart => Block.loopBinds_insertAll apart differs own) again
    rw [← leave_for_next given behind] at walked
    exact ⟨_, left, .cons walks walked, congrArg Nat.succ count,
      fun apart => .cons (binds apart) (bound apart)⟩

variable {collection : Expr} {cursor : TableCursor} {outer : List TableCursor}

/-- A loop whose collection has no entries is passed by. -/
theorem runBlock_for_none (sound : (r.eval s collection).isError = false)
    (given : Block.loopEntries (some (r.eval s collection)) = []) :
    runBlock r body "for" (Block.forLoop key item) [(none, collection)] cursor outer s =
      ⟨{ cursor with settled := false } :: outer, s⟩ := by
  refine runBlock_of_discard (eval_condition sound) ?_
  have given : Block.loopEntries (some (collection.eval (r.env s))) = [] := given
  simp [Behaviour.enter, Block.forLoop, given]

theorem runBlock_for_cons (sound : (r.eval s collection).isError = false)
    (given : Block.loopEntries (some (r.eval s collection)) = entry :: more) :
    runBlock r body "for" (Block.forLoop key item) [(none, collection)] cursor outer s =
      let bound :=
        Entries.insertAll [] (Block.loopBindings key item (more.length + 1) 0 entry)
      enter r body cursor.encoder bound
        (some (forPass key item [(none, collection)] (r.eval s collection) 0 more.length bound))
        ({ cursor with settled := true } :: outer) s := by
  have given : Block.loopEntries (some (collection.eval (r.env s))) = entry :: more := given
  simp [runBlock, eval_condition sound, Behaviour.enter, Block.forLoop, given, forPass,
    PassMode.ofVerdict, Rendering.eval]

/-- From where a loop stands its body is walked once for each of some entries, in order, with
the bindings of each. Then the loop is left with nothing recorded by itself. -/
def Enumerates (r : Rendering) (cursor : TableCursor) (outer : List TableCursor) (s : RenderState)
    (key : Option String) (item : String) (body : Nat) (rest : List Node)
    (entries : List (Value × Value)) : Prop :=
  ∃ first rounds left,
    step r ⟨cursor :: outer, s⟩ = some first ∧
    Rounds r body cursor.encoder ({ cursor with rest, settled := true } :: outer) first
      (r.trimLine s) rounds ⟨{ cursor with rest, settled := !entries.isEmpty } :: outer, left⟩
      left ∧
    rounds.length = entries.length ∧
    (NamesApart key item → BoundInOrder key item entries.length 0 entries rounds)

/-- A loop enumerates the entries of its collection as they are when it is entered. -/
theorem enumerates_entries {rest : List Node} (differs : ∀ name, key = some name → name ≠ item)
    (here : cursor.rest = .block "for" false (Block.forLoop key item) [(none, collection)] ::
      .scope (some body) :: rest)
    (halts : Halts r ⟨cursor :: outer, s⟩)
    (sound : (r.eval (r.trimLine s) collection).isError = false)
    (given : Block.loopEntries (some (r.eval (r.trimLine s) collection)) = entries) :
    Enumerates r cursor outer s key item body rest entries := by
  have step : Machine.step r ⟨cursor :: outer, s⟩ = some (runBlock r body "for"
      (Block.forLoop key item) [(none, collection)] { cursor with rest } outer (r.trimLine s)) := by
    simp [Machine.step, advance, here]
  cases entries with
  | nil =>
    rw [runBlock_for_none sound given] at step
    exact ⟨_, [], _, step, .nil _ _, rfl, fun _ => .nil⟩
  | cons entry more =>
    rw [runBlock_for_cons sound given] at step
    obtain ⟨rounds, left, walked, count, bound⟩ :=
      rounds_for (List.cons_ne_nil _ _) differs given rfl
        (Block.bindsOwn_insertAll Block.bindsOwn_nil)
        (fun apart => Block.loopBinds_insertAll apart differs Block.bindsOwn_nil)
        (halts.of_reaches (.single step))
    exact ⟨_, rounds, left, step, walked, count, bound⟩

end Machine

namespace Template

open Machine (Reaches start Enumerates)

/-- The dictionaries that expressions have for values are sorted, wherever a walk comes to. -/
theorem ascending_of_reaches {t : Template} (assembled : Assembled ParsedCore t) {config : Config}
    {context : Context} (sound : context.Sound) {encoder : Encoder} {cursors : List TableCursor}
    {s : RenderState} {entries : Entries Value}
    (met : Reaches ⟨t, context, config⟩ (start ⟨t, context, config⟩ encoder) ⟨cursors, s⟩)
    {e : Expr} (settled : e.Settled) :
    let r : Rendering := ⟨t, context, config⟩
    r.eval (r.trimLine s) e = .dictionary entries → Entries.Ascending entries := by
  intro r value
  obtain ⟨known, covered⟩ := assembled.covered
  have layout : t.Layout := (assembled.mono fun _ given => given.parsed).layout
  have values := Machine.soundValues_of_reaches covered layout.forward sound met
  have outcome := Rendering.soundOrError_eval (r := r) sound (values.state.trimLine r) settled
  rw [value] at outcome
  cases outcome with
  | plain plain =>
    cases plain with
    | dictionary ascending _ => exact ascending

/-- A loop over a collection enumerates it. At each place where a walk comes to a `for`, in whatever
scope and splice, its collection is evaluated once. The items of an array are taken in order, with
their positions for keys, and the entries of a dictionary in the order of their keys, which ascend
if the values of the context are sound. For any other value the body is not walked, and an error is
recorded. -/
theorem for_enumerates {t : Template} (assembled : Assembled ParsedCore t) (context : Context)
    (config : Config) (encoder : Encoder) {cursor : TableCursor} {outer : List TableCursor}
    {s : RenderState} {chained : Bool} {behaviour : Behaviour} {args : Tuple} {tail : List Node}
    (met : Reaches ⟨t, context, config⟩ (start ⟨t, context, config⟩ encoder) ⟨cursor :: outer, s⟩)
    (here : cursor.rest = .block "for" chained behaviour args :: tail) :
    let r : Rendering := ⟨t, context, config⟩
    ∃ key item collection body rest,
      cursor.rest = .block "for" false (Block.forLoop key item) [(none, collection)] ::
        .scope (some body) :: rest ∧
      (∀ items, r.eval (r.trimLine s) collection = .array items →
        Enumerates r cursor outer s key item body rest
          (items.zipIdx.map fun item => (.ofNat item.2, item.1))) ∧
      (∀ entries, r.eval (r.trimLine s) collection = .dictionary entries →
        Enumerates r cursor outer s key item body rest
          (entries.map fun entry => (.string entry.1, entry.2)) ∧
        (context.Sound → Entries.Ascending entries)) ∧
      ((∀ items, r.eval (r.trimLine s) collection ≠ .array items) →
        (∀ entries, r.eval (r.trimLine s) collection ≠ .dictionary entries) →
        (∀ e, r.eval (r.trimLine s) collection ≠ .error e) →
        Machine.step r ⟨cursor :: outer, s⟩ =
          some ⟨{ cursor with rest, settled := false } :: outer, r.trimLine s⟩) ∧
      (∀ e, r.eval (r.trimLine s) collection = .error e →
        Machine.step r ⟨cursor :: outer, s⟩ =
          some ⟨{ cursor with rest, settled := true } :: outer, (r.trimLine s).record e⟩) := by
  intro r
  obtain ⟨body, rest, declared, same, made, halts⟩ :=
    assembled.exists_block met here ⟨by decide, by decide⟩
  obtain ⟨key, item, collection, rfl, rfl, settled, differs⟩ := made.eq_of_for rfl
  have step : Machine.step r ⟨cursor :: outer, s⟩ = some (Machine.runBlock r body "for"
      (Block.forLoop key item) [(none, collection)] { cursor with rest } outer (r.trimLine s)) := by
    simp [Machine.step, Machine.advance, same]
  have enumerates {entries : List (Value × Value)}
      (sound : (r.eval (r.trimLine s) collection).isError = false)
      (given : Block.loopEntries (some (r.eval (r.trimLine s) collection)) = entries) :
      Enumerates r cursor outer s key item body rest entries :=
    Machine.enumerates_entries differs same halts sound given
  refine ⟨key, item, collection, body, rest, same, ?_, ?_, ?_, ?_⟩
  · intro items value
    exact enumerates (by rw [value]; rfl) (by rw [value]; rfl)
  · intro entries value
    exact ⟨enumerates (by rw [value]; rfl) (by rw [value]; rfl), fun sound =>
      ascending_of_reaches assembled sound met settled value⟩
  · intro array dictionary error
    rw [step]
    have sound := Value.isError_of_ne error
    exact congrArg some
      (Machine.runBlock_for_none sound (Block.loopEntries_of_other array dictionary))
  · intro e failed
    rw [step, Machine.runBlock_of_error (eval_condition_error failed)]

/-- A loop over two numbers. -/
theorem for_enumerates_pair : ∃ page : Template,
    parse .core {} "page" "#for(x in [3, 4]):#(x)#endfor" = .ok page ∧
      ∃ key item body rest entries, entries.length = 2 ∧
        Enumerates ⟨page, ⟨[], []⟩, {}⟩
          { table := 0, rest := page.table 0, encoder := .identity } []
          (({} : RenderState).openFrame []) key item body rest entries := by
  have starts : ((parse .core {} "page" "#for(x in [3, 4]):#(x)#endfor").toOption.any fun page =>
      let r : Rendering := ⟨page, ⟨[], []⟩, {}⟩
      (page.table 0).head?.bind (Node.chainHead none) == some "for" &&
        ((page.table 0).flatMap Node.exprs).all fun e =>
          (Block.loopEntries (some
            (r.eval (r.trimLine (({} : RenderState).openFrame [])) e))).length == 2) = true := by
    decide +kernel
  cases parsed : parse .core {} "page" "#for(x in [3, 4]):#(x)#endfor" with
  | error failure =>
    rw [parsed] at starts
    cases starts
  | ok page =>
    rw [parsed] at starts
    obtain ⟨head, two⟩ := (Bool.and_eq_true _ _).mp starts
    obtain ⟨chained, behaviour, args, tail, here⟩ := Node.exists_of_chainHead (beq_iff_eq.mp head)
    have assembled : page.Assembled ParsedCore := .given ⟨_, _, _, parsed⟩
    obtain ⟨key, item, collection, body, rest, same, array, dictionary, -, -⟩ :=
      for_enumerates assembled ⟨[], []⟩ {} .identity .refl here
    have same : page.table 0 = _ := same
    rw [same] at two
    have two := beq_iff_eq.mp
      (List.all_eq_true.mp two collection (List.mem_append_left _ List.mem_cons_self))
    refine ⟨page, rfl, key, item, body, rest, _, two, ?_⟩
    generalize value : Rendering.eval _ _ collection = v at two ⊢
    cases v with
    | array items => exact array items value
    | dictionary entries => exact (dictionary entries value).1
    | _ => cases two

end Template

end Stencil
