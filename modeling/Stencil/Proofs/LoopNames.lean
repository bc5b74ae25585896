import Mathlib.Data.List.Induction
import Stencil.Proofs.ForLoops

/-!
# The names of a loop

Each pass of a `for` enters its names into one map, one after the other: that of the item, that of
the key, and the three that every loop has. A name that is entered again later loses what it had. So
the three names of every loop hold what they should in each pass, and the two that are chosen do as
long as they differ from these (`Block.loop_names_hold`). Nothing refuses a loop over a variable
`index`, and its items are lost (`Block.item_named_index_is_lost`).
-/

namespace Stencil

namespace Entries

variable {α : Type} {entries : Entries α} {name : String} {value : α}

theorem find?_insertAll_of_not_mem {pairs : List (String × α)}
    (other : name ∉ pairs.map Prod.fst) :
    (entries.insertAll pairs).find? name = entries.find? name := by
  refine insertAll_induction (P := fun result => result.find? name = entries.find? name) ?_ rfl
  intro result pair same mem
  have differs : name ≠ pair.1 := fun same => other (same ▸ List.mem_map_of_mem mem)
  rw [find?_insert_of_ne differs, same]

/-- A pair counts unless another of its name is entered behind it. -/
theorem find?_insertAll_of_last (front : List (String × α)) {behind : List (String × α)}
    (last : name ∉ behind.map Prod.fst) :
    (entries.insertAll (front ++ (name, value) :: behind)).find? name = some value := by
  have parts : entries.insertAll (front ++ (name, value) :: behind) =
      ((entries.insertAll front).insert name value).insertAll behind := by
    simp [insertAll]
  rw [parts, find?_insertAll_of_not_mem last, find?_insert_self]

end Entries

namespace Behaviour

/-- Where a block stands that was entered with some values and asked again with others, pass by
pass, and what it decided last. -/
def asked (b : Behaviour) (start : Run) (values : List Value) (later : List (List Value)) :
    Verdict × Run :=
  later.foldl (fun state current => b.again state.2 current) (b.enter start values)

/-- What a block decides and binds depends on its values at entry, the number of the pass and the
values now. -/
theorem exists_asked (b : Behaviour) (start : Run) (values : List Value)
    (later : List (List Value)) : ∃ current old,
      b.asked start values later =
        ((b.pass values later.length current).1,
          ⟨values, later.length,
            Entries.insertAll old (b.pass values later.length current).2⟩) := by
  induction later using List.reverseRecOn with
  | nil => exact ⟨values, start.bindings, rfl⟩
  | append_singleton later current ih =>
    obtain ⟨before, old, state⟩ := ih
    refine ⟨current, Entries.insertAll old (b.pass values later.length before).2, ?_⟩
    unfold asked at state ⊢
    rw [List.foldl_append, List.foldl_cons, List.foldl_nil, state, List.length_append]
    rfl

end Behaviour

namespace Block

/-- The entry of a collection at a position: an item of an array, which has its position for its
key, or a member of a dictionary. -/
inductive EntryAt : (collection : Value) → (position : Nat) → (key value : Value) → Prop
  | item {items : List Value} {position : Nat} {value : Value}
      (here : items[position]? = some value) :
      EntryAt (.array items) position (.ofNat position) value
  | member {entries : Entries Value} {position : Nat} {name : String} {value : Value}
      (here : entries[position]? = some (name, value)) :
      EntryAt (.dictionary entries) position (.string name) value

variable {collection : Value} {position : Nat} {entry : Value × Value}

theorem loopEntries_getElem? :
    (loopEntries (some collection))[position]? = some entry ↔
      EntryAt collection position entry.1 entry.2 := by
  obtain ⟨key, value⟩ := entry
  constructor
  · intro here
    cases collection with
    | array items =>
      simp only [loopEntries, List.getElem?_map, Option.map_eq_some_iff, Prod.mk.injEq] at here
      obtain ⟨⟨item, index⟩, inside, rfl, rfl⟩ := here
      rw [List.getElem?_zipIdx, Option.map_eq_some_iff] at inside
      obtain ⟨item, inside, same⟩ := inside
      simp only [Nat.zero_add, Prod.mk.injEq] at same
      obtain ⟨rfl, rfl⟩ := same
      exact .item inside
    | dictionary entries =>
      simp only [loopEntries, List.getElem?_map, Option.map_eq_some_iff, Prod.mk.injEq] at here
      obtain ⟨⟨name, value⟩, inside, rfl, rfl⟩ := here
      exact .member inside
    | _ => cases here
  · intro here
    cases here with
    | item here => simp [loopEntries, here, Value.ofNat]
    | member here => simp [loopEntries, here]

/-- The names that every loop binds. -/
def ownNames : List String := [loopIndex, loopIsFirst, loopIsLast]

/-- What a loop has bound in a pass, under the names that are its own. -/
structure BindsOwnNames (count position : Nat) (bindings : Bindings) : Prop where
  index : bindings.find? loopIndex = some (.ofNat position)
  isFirst : bindings.find? loopIsFirst = some (.bool (decide (position = 0)))
  isLast : bindings.find? loopIsLast = some (.bool (decide (position + 1 = count)))

variable {key : Option String} {item name : String} {count : Nat} {old : Bindings}

/-- The names of a loop itself are entered last, and they differ. -/
theorem bindsOwnNames_insertAll :
    BindsOwnNames count position
      (old.insertAll (loopBindings key item count position entry)) := by
  have first : loopIndex ∉ [loopIsFirst, loopIsLast] := by decide
  have second : loopIsFirst ∉ [loopIsLast] := by decide
  constructor
  · exact Entries.find?_insertAll_of_last _ first
  · unfold loopBindings
    rw [List.append_cons, Entries.find?_insertAll_of_last _ second]
    rfl
  · unfold loopBindings
    rw [List.append_cons, List.append_cons, Entries.find?_insertAll_of_last _ List.not_mem_nil]
    rfl

theorem find?_item (apart : item ∉ ownNames) (differs : key ≠ some item) :
    (old.insertAll (loopBindings key item count position entry)).find? item = some entry.2 := by
  have last : item ∉ (key.toList.map fun name => (name, entry.1)).map Prod.fst ++ ownNames := by
    refine List.not_mem_append ?_ apart
    cases key with
    | none => exact List.not_mem_nil
    | some name => simpa [Ne.symm] using fun same => differs (congrArg some same.symm)
  unfold loopBindings
  rw [List.append_assoc, List.singleton_append]
  refine Entries.find?_insertAll_of_last [] ?_
  rw [List.map_append]
  exact last

theorem find?_key (apart : name ∉ ownNames) :
    (old.insertAll (loopBindings (some name) item count position entry)).find? name =
      some entry.1 :=
  Entries.find?_insertAll_of_last [(item, entry.2)] apart

/-- Names are apart when no name is declared twice. -/
theorem nodup_declares (differs : key ≠ some item) :
    (key.toList ++ item :: ownNames).Nodup ↔ NamesApart key item := by
  have own : ownNames.Nodup := by decide
  have item' : (item :: ownNames).Nodup ↔ item ∉ ownNames := by
    rw [List.nodup_cons, and_iff_left own]
  unfold NamesApart
  cases key with
  | none => simpa [ownNames] using item'
  | some name =>
    have other : name ≠ item := fun same => differs (congrArg some same)
    rw [Option.toList_some, List.singleton_append, List.nodup_cons, item', List.forall_mem_cons,
      List.forall_mem_singleton, List.mem_cons, not_or]
    exact ⟨fun ⟨both, apart⟩ => ⟨apart, both.2⟩,
      fun ⟨apart, keyApart⟩ => ⟨⟨other, keyApart⟩, apart⟩⟩

/-- Only a pattern with one name, or with two that differ, makes a loop. -/
theorem exists_of_makeFor {args : BlockArguments} {made : BlockInstance}
    (h : makeFor args = .ok made) : ∃ found key item, args = .parsed found ∧
      found.declared = key.toList ++ [item] ∧ key ≠ some item ∧
      made.behaviour = forLoop key item ∧ made.declares = key.toList ++ item :: ownNames := by
  cases args with
  | call => cases h
  | parsed found =>
    obtain ⟨pattern, declared, expressions⟩ := found
    match declared, h with
    | [item], rfl => exact ⟨_, none, item, rfl, rfl, by simp, rfl, rfl⟩
    | [key, item], h =>
      simp only [makeFor] at h
      split at h
      · cases h
      · rename_i differs
        cases h
        exact ⟨_, some key, item, rfl, rfl, fun same => differs (Option.some.inj same), rfl, rfl⟩

/-- What a loop decides and binds in a pass: there is one for each entry, and it has the names of
the loop itself, and those it is given that differ from these. -/
theorem forLoop_asked {values : List Value} (first : values.head? = some collection)
    (start : Run) (later : List (List Value)) :
    let state := (forLoop key item).asked start values later
    let count := (loopEntries (some collection)).length
    (∀ entry, (loopEntries (some collection))[later.length]? = some entry →
      state.1 = .repeating (count - later.length) ∧ ∃ old, state.2.bindings =
        Entries.insertAll old (loopBindings key item count later.length entry)) ∧
    ((loopEntries (some collection))[later.length]? = none → state.1 = .discard) := by
  obtain ⟨current, old, state⟩ := (forLoop key item).exists_asked start values later
  intro state' count
  have same : state' = _ := state
  rw [same]
  dsimp only [forLoop]
  rw [first]
  constructor
  · intro entry here
    rw [here]
    exact ⟨rfl, old, rfl⟩
  · intro none
    rw [none]

/-- Whatever names the header of a loop gives, each pass over a collection has the index, and
whether it is the first or the last, under their names. The entry of the pass is bound under the
names of the header as far as they differ from these. No name is declared twice exactly when all of
them differ. -/
theorem loop_names_hold {args : BlockArguments} {made : BlockInstance}
    (h : forForm.make args = .ok made) : ∃ found key item,
      args = .parsed found ∧ found.declared = key.toList ++ [item] ∧ key ≠ some item ∧
      made.declares = key.toList ++ item :: ownNames ∧
      (made.declares.Nodup ↔ NamesApart key item) ∧
      ∀ (start : Run) (collection : Value) (others : List Value) (later : List (List Value)),
        let state := made.behaviour.asked start (collection :: others) later
        let count := (loopEntries (some collection)).length
        (∀ entryKey value, EntryAt collection later.length entryKey value →
          state.1 = .repeating (count - later.length) ∧
          BindsOwnNames count later.length state.2.bindings ∧
          (item ∉ ownNames → state.2.bindings.find? item = some value) ∧
          ∀ name, key = some name → name ∉ ownNames →
            state.2.bindings.find? name = some entryKey) ∧
        ((¬∃ entryKey value, EntryAt collection later.length entryKey value) →
          state.1 = .discard) := by
  obtain ⟨found, key, item, rfl, declared, differs, behaviour, declares⟩ := exists_of_makeFor h
  refine ⟨found, key, item, rfl, declared, differs, declares,
    by rw [declares, nodup_declares differs], fun start collection others later => ?_⟩
  have first : (collection :: others).head? = some collection := rfl
  obtain ⟨passes, ends⟩ := @forLoop_asked _ key item _ first start later
  rw [behaviour]
  constructor
  · intro entryKey value entry
    obtain ⟨verdict, old, bound⟩ := passes (entryKey, value) (loopEntries_getElem?.mpr entry)
    refine ⟨verdict, ?_, fun apart => ?_, fun name same apart => ?_⟩
    · rw [bound]
      exact bindsOwnNames_insertAll
    · rw [bound]
      exact find?_item apart differs
    · rw [bound, same]
      exact find?_key apart
  · intro none
    refine ends (Option.eq_none_iff_forall_ne_some.mpr fun entry here => ?_)
    exact none ⟨_, _, loopEntries_getElem?.mp here⟩

/-- The second pass of a loop with a key and an item over a dictionary. -/
theorem loop_names_hold_pair :
    let found : Matched := ⟨"keyed", ["k", "v"], [.var (.plain "ages")]⟩
    let ages : Value := .dictionary [("ann", .int 7), ("bob", .int 9)]
    ∃ made, forForm.make (.parsed found) = .ok made ∧ made.declares.Nodup ∧
      let bindings := (made.behaviour.asked {} [ages] [[ages]]).2.bindings
      bindings.find? "k" = some (.string "bob") ∧ bindings.find? "v" = some (.int 9) ∧
        BindsOwnNames 2 1 bindings := by
  intro found ages
  obtain ⟨made, accepted⟩ : ∃ made, forForm.make (.parsed found) = .ok made := ⟨_, rfl⟩
  obtain ⟨_, key, item, same, declared, -, -, distinct, passes⟩ := loop_names_hold accepted
  cases same
  obtain ⟨name, rfl⟩ : ∃ name, key = some name := by
    cases key with
    | none => cases declared
    | some name => exact ⟨name, rfl⟩
  cases declared
  have apart : NamesApart (some "k") "v" := by
    unfold NamesApart
    decide
  obtain ⟨-, own, value, keyed⟩ :=
    (passes {} ages [] [[ages]]).1 (.string "bob") (.int 9) (.member rfl)
  exact ⟨made, accepted, distinct.mpr apart, keyed "k" rfl (by decide), value (by decide), own⟩

/-- A loop over a variable `index` is accepted, declares it twice, and has the position where the
item should be. -/
theorem item_named_index_is_lost :
    (∃ made, forForm.make (.parsed ⟨"item", ["index"], [.var (.plain "xs")]⟩) = .ok made ∧
      ¬made.declares.Nodup) ∧
    ((Template.parse .core {} "page" "#for(index in [\"a\"]):#(index)#endfor").toOption.any
      fun page => (Rendering.render ⟨page, ⟨[], []⟩, {}⟩ .identity).toOption == some "0") = true :=
  ⟨⟨_, rfl, by decide⟩, by decide +kernel⟩

end Block

end Stencil
