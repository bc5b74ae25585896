import Stencil.Proofs.PlainValues

/-!
# Labels and their positions

An argument list can be kept as its values together with the position of each label. Adding an
argument, being refused because of a label in use, and putting a receiver in front keep each label
at the position of its own argument, which is below the number of arguments. A collection takes its
items from those positions.
-/

namespace Stencil

namespace Entries

variable {α β : Type}

/-- Entries with other values under the same keys. -/
def mapValues (f : α → β) (entries : Entries α) : Entries β :=
  entries.map fun entry => (entry.1, f entry.2)

theorem mapValues_insert (f : α → β) (key : String) (value : α) (entries : Entries α) :
    (entries.insert key value).mapValues f = (entries.mapValues f).insert key (f value) := by
  induction entries with
  | nil => rfl
  | cons head rest ih =>
    obtain ⟨k, v⟩ := head
    simp only [mapValues, List.map_cons, insert] at ih ⊢
    split
    · rfl
    · split
      · rfl
      · rw [List.map_cons, ih]

theorem mapValues_insertAll (f : α → β) (entries : Entries α) (pairs : List (String × α)) :
    (entries.insertAll pairs).mapValues f =
      (entries.mapValues f).insertAll (pairs.map fun pair => (pair.1, f pair.2)) := by
  unfold insertAll
  induction pairs generalizing entries with
  | nil => rfl
  | cons pair pairs ih =>
    rw [List.foldl_cons, List.map_cons, List.foldl_cons, ih, mapValues_insert]

theorem mapValues_ofList (f : α → β) (pairs : List (String × α)) :
    (ofList pairs).mapValues f = ofList (pairs.map fun pair => (pair.1, f pair.2)) :=
  mapValues_insertAll f [] pairs

/-- The pair that is entered last. -/
theorem ofList_concat (pairs : List (String × α)) (key : String) (value : α) :
    ofList (pairs ++ [(key, value)]) = (ofList pairs).insert key value := by
  simp [ofList, insertAll]

end Entries

namespace Tuple

variable {t : Tuple} {α : Type}

theorem labelled_append (start : Nat) (items more : List (Option String × α)) :
    labelled start (items ++ more) =
      labelled start items ++ labelled (start + items.length) more := by
  induction items generalizing start with
  | nil => rfl
  | cons item items ih =>
    obtain ⟨_ | label, x⟩ := item
    · rw [List.cons_append, labelled, labelled, ih, List.length_cons, Nat.add_right_comm,
        Nat.add_assoc]
    · rw [List.cons_append, labelled, labelled, ih, List.length_cons, Nat.add_right_comm,
        Nat.add_assoc, List.cons_append]

/-- Positions counted from a later start. -/
theorem labelled_shift (start offset : Nat) (items : List (Option String × α)) :
    labelled (start + offset) items =
      (labelled start items).map fun entry => (entry.1, entry.2 + offset) := by
  induction items generalizing start with
  | nil => rfl
  | cons item items ih =>
    have next : start + offset + 1 = start + 1 + offset := Nat.add_right_comm _ _ _
    obtain ⟨_ | label, x⟩ := item
    · rw [labelled, labelled, next, ih]
    · rw [labelled, labelled, next, ih, List.map_cons]

/-- A label is found at its position, which is not beyond the items. -/
theorem of_mem_labelled {start : Nat} {items : List (Option String × α)} {entry : String × Nat}
    (mem : entry ∈ labelled start items) : start ≤ entry.2 ∧ entry.2 < start + items.length ∧
      (items[entry.2 - start]?).bind Prod.fst = some entry.1 := by
  induction items generalizing start with
  | nil => cases mem
  | cons item items ih =>
    have later (mem : entry ∈ labelled (start + 1) items) :
        start ≤ entry.2 ∧ entry.2 < start + (item :: items).length ∧
          ((item :: items)[entry.2 - start]?).bind Prod.fst = some entry.1 := by
      obtain ⟨low, high, found⟩ := ih mem
      have index : entry.2 - start = entry.2 - (start + 1) + 1 := by omega
      refine ⟨by omega, by rw [List.length_cons]; omega, ?_⟩
      rw [index, List.getElem?_cons_succ]
      exact found
    obtain ⟨_ | label, x⟩ := item
    · exact later mem
    · rcases List.mem_cons.mp mem with rfl | mem
      · refine ⟨Nat.le_refl _, by simp, ?_⟩
        rw [Nat.sub_self]
        rfl
      · exact later mem

/-- Each label is that of the argument at its position. -/
theorem of_mem_labels {entry : String × Nat} (mem : entry ∈ t.labels) :
    entry.2 < t.length ∧ t.labelAt entry.2 = some entry.1 := by
  rcases Entries.mem_insertAll mem with mem | mem
  · cases mem
  · obtain ⟨-, high, found⟩ := of_mem_labelled mem
    exact ⟨by omega, found⟩

theorem mem_labelled {start : Nat} {items : List (Option String × α)} {label : String} :
    label ∈ (labelled start items).map Prod.fst ↔ ∃ item ∈ items, item.1 = some label := by
  induction items generalizing start with
  | nil => simp [labelled]
  | cons item items ih =>
    obtain ⟨_ | other, x⟩ := item
    · simp [labelled, ih]
    · simp [labelled, ih, eq_comm]

/-- The table of labels has the labels that are in use. -/
theorem has_labels (t : Tuple) (label : String) : t.labels.has label = t.uses label := by
  rw [Bool.eq_iff_iff, Entries.has, labels, Entries.find?_ofList_isSome, mem_labelled, uses,
    List.any_eq_true]
  simp only [beq_iff_eq]

theorem isEmpty_labels (t : Tuple) : t.labels.isEmpty = !t.anyLabel := by
  cases labelled : t.anyLabel with
  | false =>
    refine List.isEmpty_iff.mpr (List.eq_nil_iff_forall_not_mem.mpr fun entry mem => ?_)
    obtain ⟨inside, found⟩ := of_mem_labels mem
    rw [labelAt, List.getElem?_eq_getElem inside] at found
    refine absurd (List.any_eq_true.mpr ⟨t[entry.2], List.getElem_mem inside, ?_⟩)
      (Bool.not_eq_true _ ▸ labelled)
    rw [Option.bind_some] at found
    rw [found]
    rfl
  | true =>
    obtain ⟨item, mem, some⟩ := List.any_eq_true.mp labelled
    obtain ⟨label, named⟩ := Option.isSome_iff_exists.mp some
    have used : t.labels.has label = true := by
      rw [has_labels]
      exact List.any_eq_true.mpr ⟨item, mem, by simp [named]⟩
    cases empty : t.labels with
    | nil =>
      rw [empty] at used
      cases used
    | cons entry rest => rfl

end Tuple

/-- An argument list as its values and the positions of its labels. -/
structure IndexedTuple where
  values : List Expr := []
  labels : Entries Nat := []

namespace IndexedTuple

/-- Adds an argument and tells whether it could be added; a label in use is refused. -/
def push (t : IndexedTuple) (label : Option String) (e : Expr) : IndexedTuple × Bool :=
  match label with
  | none => ({ t with values := t.values ++ [e] }, true)
  | some label =>
    if t.labels.has label then (t, false)
    else (⟨t.values ++ [e], t.labels.insert label t.values.length⟩, true)

/-- Puts an argument without label before the others, whose labels move with them. -/
def pushFront (t : IndexedTuple) (e : Expr) : IndexedTuple :=
  ⟨e :: t.values, t.labels.mapValues (· + 1)⟩

/-- The value of a collection, its items taken from the positions of their labels. -/
def gather? (t : IndexedTuple) (values : List Value) : Option Value :=
  if t.labels.isEmpty then some (.array values)
  else (t.labels.mapM fun entry => values[entry.2]?.map (entry.1, ·)).map .dictionary

end IndexedTuple

namespace Tuple

variable {t : Tuple}

/-- The values and the positions of the labels of an argument list. -/
def indexed (t : Tuple) : IndexedTuple := ⟨t.values, t.labels⟩

theorem labels_concat (t : Tuple) (label : String) (e : Expr) :
    labels (t ++ [(some label, e)]) = t.labels.insert label t.length := by
  rw [labels, labelled_append, Nat.zero_add]
  exact Entries.ofList_concat _ _ _

theorem labels_concat_none (t : Tuple) (e : Expr) : labels (t ++ [(none, e)]) = t.labels := by
  rw [labels, labelled_append]
  exact congrArg Entries.ofList (List.append_nil _)

theorem length_values (t : Tuple) : t.values.length = t.length := List.length_map _

theorem values_concat (t : Tuple) (label : Option String) (e : Expr) :
    values (t ++ [(label, e)]) = t.values ++ [e] := by
  simp [values]

/-- An argument that is added stands behind the others, and its label names its position. -/
theorem indexed_push {label : Option String} {e : Expr} {t' : Tuple}
    (added : t.push? label e = some t') : t.indexed.push label e = (t'.indexed, true) := by
  unfold push? at added
  split at added
  · cases added
  · rename_i fresh
    cases added
    cases label with
    | none => rw [IndexedTuple.push, indexed, indexed, values_concat, labels_concat_none]
    | some label =>
      have unused : ¬t.labels.has label = true := by
        rw [has_labels]
        exact fresh
      rw [IndexedTuple.push, indexed, indexed, values_concat, labels_concat]
      dsimp only
      rw [if_neg unused, length_values]

/-- An argument that is refused leaves the others and their labels. -/
theorem indexed_refused {label : Option String} {e : Expr} (refused : t.push? label e = none) :
    t.indexed.push label e = (t.indexed, false) := by
  unfold push? at refused
  split at refused
  · rename_i used
    cases label with
    | none => cases used
    | some label =>
      have found : t.labels.has label = true := by
        rw [has_labels]
        exact used
      rw [IndexedTuple.push, indexed]
      dsimp only
      rw [if_pos found]
  · cases refused

/-- Adding an argument and being refused, both at once. -/
theorem push_indexed (t : Tuple) (label : Option String) (e : Expr) :
    t.indexed.push label e =
      (((t.push? label e).getD t).indexed, (t.push? label e).isSome) := by
  cases pushed : t.push? label e with
  | none => exact indexed_refused pushed
  | some added => exact indexed_push pushed

/-- A receiver that is put in front moves the labels with their arguments. -/
theorem indexed_pushFront (t : Tuple) (e : Expr) :
    (t.pushFront e).indexed = t.indexed.pushFront e := by
  have moved : (t.pushFront e).labels = t.labels.mapValues (· + 1) := by
    rw [labels, labels, Entries.mapValues_ofList, ← labelled_shift]
    rfl
  rw [indexed, moved]
  rfl

/-- The labelled items with their values, found by position or side by side. -/
theorem labelled_getElem? (start : Nat) {values : List Value} (same : values.length = t.length) :
    (labelled start t).map (fun entry => (entry.1, values[entry.2 - start]?.getD .nil)) =
      (t.zip values).filterMap fun pair => pair.1.1.map fun label => (label, pair.2) := by
  induction t generalizing start values with
  | nil => rfl
  | cons item t ih =>
    cases values with
    | nil => cases same
    | cons value values =>
      have later : (labelled (start + 1) t).map
          (fun entry => (entry.1, (value :: values)[entry.2 - start]?.getD .nil)) =
            (t.zip values).filterMap fun pair => pair.1.1.map fun label => (label, pair.2) := by
        rw [← ih (start + 1) (Nat.succ.inj same)]
        refine List.map_congr_left fun entry mem => ?_
        have low := (of_mem_labelled mem).1
        have index : entry.2 - start = entry.2 - (start + 1) + 1 := by omega
        rw [index, List.getElem?_cons_succ]
      obtain ⟨_ | label, e⟩ := item
      · exact later
      · rw [labelled, List.map_cons, later, Nat.sub_self]
        rfl

/-- A collection takes all of its items from positions that are in range. -/
theorem gather?_eq {values : List Value} (same : values.length = t.length) :
    t.indexed.gather? values = some (Tuple.gather t values) := by
  have inRange : ∀ entry ∈ t.labels, entry.2 < values.length := fun entry mem =>
    same ▸ (of_mem_labels mem).1
  have found : (t.labels.mapM fun entry => values[entry.2]?.map (entry.1, ·)) =
      some (t.labels.mapValues fun index => values[index]?.getD .nil) := by
    generalize t.labels = entries at inRange
    induction entries with
    | nil => rfl
    | cons entry entries ih =>
      have here : values[entry.2]? = some (values[entry.2]?.getD .nil) := by
        rw [List.getElem?_eq_getElem (inRange entry List.mem_cons_self)]
        rfl
      rw [List.mapM_cons, here, ih fun entry mem => inRange entry (.tail _ mem)]
      rfl
  have pairs : t.labels.mapValues (fun index => values[index]?.getD .nil) =
      Entries.ofList ((t.zip values).filterMap fun pair =>
        pair.1.1.map fun label => (label, pair.2)) := by
    rw [labels, Entries.mapValues_ofList, ← labelled_getElem? 0 same]
    rfl
  have any : (t.any fun item => item.1.isSome) = t.anyLabel := rfl
  unfold IndexedTuple.gather? Tuple.gather
  rw [indexed, isEmpty_labels, any]
  dsimp only
  rw [found, pairs]
  cases t.anyLabel <;> rfl

end Tuple

namespace IndexedTuple

/-- The argument lists that adding arguments and putting receivers in front make, refused arguments
included. -/
inductive Built : IndexedTuple → Prop
  | empty : Built {}
  | push {t : IndexedTuple} (h : Built t) (label : Option String) (e : Expr) :
      Built (t.push label e).1
  | pushFront {t : IndexedTuple} (h : Built t) (e : Expr) : Built (t.pushFront e)

theorem Built.exists_indexed {t : IndexedTuple} (h : t.Built) : ∃ u : Tuple, u.indexed = t := by
  induction h with
  | empty => exact ⟨[], rfl⟩
  | push _ label e ih =>
    obtain ⟨u, rfl⟩ := ih
    exact ⟨(u.push? label e).getD u, by rw [Tuple.push_indexed]⟩
  | pushFront _ e ih =>
    obtain ⟨u, rfl⟩ := ih
    exact ⟨u.pushFront e, u.indexed_pushFront e⟩

/-- Each label has a position of its own among the values. -/
theorem Built.inRange {t : IndexedTuple} (h : t.Built) : ∀ entry ∈ t.labels,
    entry.2 < t.values.length ∧ ∀ other ∈ t.labels, other.2 = entry.2 → other = entry := by
  obtain ⟨u, rfl⟩ := h.exists_indexed
  intro entry mem
  obtain ⟨inside, label⟩ := Tuple.of_mem_labels mem
  refine ⟨u.length_values.symm ▸ inside, fun other also same => ?_⟩
  have otherLabel := (Tuple.of_mem_labels also).2
  rw [same, label] at otherLabel
  exact Prod.ext (Option.some.inj otherLabel).symm same

end IndexedTuple

end Stencil
