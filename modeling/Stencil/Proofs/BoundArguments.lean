import Mathlib.Data.List.Nodup
import Mathlib.Data.List.Perm.Subperm
import Mathlib.Data.Set.List
import Stencil.Proofs.CoreBlocks

/-!
# Bound arguments

Which argument lists a signature binds, and which slot each argument takes. A labelled parameter
takes the argument with its label, the parameters without label take the arguments without label in
order, and the others take their defaults. Where labels are not repeated, no argument is dropped and
none is taken twice.
-/

namespace Stencil

/-- In a map each entry is found under its key. -/
theorem Entries.Ascending.find?_eq_some_iff {α : Type} {entries : Entries α}
    (h : entries.Ascending) {key : String} {value : α} :
    entries.find? key = some value ↔ (key, value) ∈ entries := by
  refine ⟨Entries.mem_of_find?, fun mem => ?_⟩
  induction entries with
  | nil => cases mem
  | cons head rest ih =>
    obtain ⟨k, v⟩ := head
    have later := (List.pairwise_cons.mp h).1
    rw [Entries.find?]
    rcases List.mem_cons.mp mem with same | mem
    · cases same
      rw [if_pos rfl]
    · rw [if_neg (ne_of_lt (later _ mem)), ih (List.Pairwise.of_cons h) mem]

theorem Entries.Ascending.nodup_keys {α : Type} {entries : Entries α} (h : entries.Ascending) :
    entries.keys.Nodup :=
  List.pairwise_map.mpr (h.imp fun less => ne_of_lt less)

section Places

variable {α : Type} (p : α → Bool)

/-- As many elements as a list has of a kind, each has its number among them. -/
theorem exists_numbered {xs : List α} {m : Nat} (h : m < xs.countP p) :
    ∃ i x, xs[i]? = some x ∧ p x = true ∧ (xs.take i).countP p = m := by
  induction xs generalizing m with
  | nil => cases h
  | cons x xs ih =>
    rw [List.countP_cons] at h
    by_cases here : p x = true
    · rw [if_pos here] at h
      cases m with
      | zero => exact ⟨0, x, rfl, here, rfl⟩
      | succ m =>
        obtain ⟨i, y, found, holds, before⟩ := ih (Nat.lt_of_succ_lt_succ h)
        refine ⟨i + 1, y, found, holds, ?_⟩
        rw [List.take_succ_cons, List.countP_cons, if_pos here, before]
    · rw [if_neg here, Nat.add_zero] at h
      obtain ⟨i, y, found, holds, before⟩ := ih h
      refine ⟨i + 1, y, found, holds, ?_⟩
      rw [List.take_succ_cons, List.countP_cons, if_neg here, Nat.add_zero, before]

/-- Elements of a kind with the same number among them are the same. -/
theorem eq_of_numbered {xs : List α} {i j : Nat} {x y : α} (hx : xs[i]? = some x)
    (hy : xs[j]? = some y) (px : p x = true) (py : p y = true)
    (same : (xs.take i).countP p = (xs.take j).countP p) : i = j := by
  induction xs generalizing i j with
  | nil => cases hx
  | cons z xs ih =>
    cases i with
    | zero =>
      cases hx
      cases j with
      | zero => rfl
      | succ j => simp [px] at same
    | succ i =>
      cases j with
      | zero =>
        cases hy
        simp [py] at same
      | succ j =>
        simp only [List.take_succ_cons, List.countP_cons, Nat.add_right_cancel_iff] at same
        exact congrArg Nat.succ (ih hx hy same)

end Places

namespace Signature

/-- Labels of so many arguments, each at a position of its own. -/
structure Shape (count : Nat) (labels : Entries Nat) : Prop where
  ascending : labels.Ascending
  inside : ∀ entry ∈ labels, entry.2 < count
  apart : (labels.map Prod.snd).Nodup

/-- The number of parameters without label. -/
def unlabelled (params : List Parameter) : Nat := params.countP fun p => p.label.isNone

/-- The argument for a parameter by its number, given the positions of those without label: the one
with its label, or the one with its number among those without. -/
def argumentIn (labels : Entries Nat) (params : List Parameter) (positional : List Nat) (i : Nat) :
    Option Nat :=
  params[i]?.bind fun p =>
    match p.label with
    | some label => labels.find? label
    | none => positional[unlabelled (params.take i)]?

/-- The slot of a parameter by its number: the argument for it, or else its default. -/
def slotIn (labels : Entries Nat) (params : List Parameter) (positional : List Nat) (i : Nat) :
    Option Slot :=
  match argumentIn labels params positional i with
  | some index => some (.argument index)
  | none => params[i]?.bind fun p => p.default.map .default

/-- The argument for a parameter by its number. -/
def argumentFor (s : Signature) (count : Nat) (labels : Entries Nat) (i : Nat) : Option Nat :=
  argumentIn labels s.params (positions count labels) i

/-- The parameters can take all arguments, and the arguments serve all parameters. -/
structure Admits (s : Signature) (count : Nat) (labels : Entries Nat) : Prop where
  /-- Arguments without label stand before those with one. -/
  ordered : ∀ i ∈ positions count labels, ∀ entry ∈ labels, i < entry.2
  /-- A label is that of a parameter. -/
  known : ∀ entry ∈ labels, ∃ p ∈ s.params, p.label = some entry.1
  /-- There are no more arguments without label than parameters without. -/
  few : (positions count labels).length ≤ unlabelled s.params
  /-- A parameter without default receives an argument. -/
  provided : ∀ i p, s.params[i]? = some p → p.default = none →
    (s.argumentFor count labels i).isSome = true

/-- Slots for the parameters in order, which use each argument once. -/
structure Binds (s : Signature) (count : Nat) (labels : Entries Nat) (slots : List Slot) :
    Prop where
  length : slots.length = s.params.length
  argument : ∀ i k, s.argumentFor count labels i = some k → slots[i]? = some (.argument k)
  default : ∀ i p, s.params[i]? = some p → s.argumentFor count labels i = none →
    ∃ value, p.default = some value ∧ slots[i]? = some (.default value)
  /-- Each argument is in exactly one slot. -/
  once : ∀ k < count, ∃! i : Nat, slots[i]? = some (.argument k)
  /-- There are no others. -/
  inside : ∀ k, Slot.argument k ∈ slots → k < count

section Filling

variable {labels : Entries Nat} {p : Parameter} {params : List Parameter} {positional : List Nat}

theorem argumentIn_succ (i : Nat) : argumentIn labels (p :: params) positional (i + 1) =
    argumentIn labels params (positional.drop (unlabelled [p])) i := by
  unfold argumentIn
  rw [List.getElem?_cons_succ]
  refine congrArg (params[i]?.bind ·) (funext fun q => ?_)
  cases q.label with
  | some label => rfl
  | none =>
    dsimp only
    rw [List.getElem?_drop, List.take_succ_cons, unlabelled, unlabelled, unlabelled,
      ← List.singleton_append, List.countP_append]

theorem slotIn_succ (i : Nat) : slotIn labels (p :: params) positional (i + 1) =
    slotIn labels params (positional.drop (unlabelled [p])) i := by
  unfold slotIn
  rw [argumentIn_succ, List.getElem?_cons_succ]

/-- A parameter for which there is no argument has a slot if it has a default. -/
theorem slotIn_of_none {i : Nat} (here : params[i]? = some p)
    (none : argumentIn labels params positional i = none) :
    slotIn labels params positional i = p.default.map .default := by
  rw [slotIn, none, here]
  rfl

theorem isSome_slotIn_iff {i : Nat} (here : params[i]? = some p) :
    (slotIn labels params positional i).isSome = true ↔
      (p.default = none → (argumentIn labels params positional i).isSome = true) := by
  cases found : argumentIn labels params positional i with
  | some index => simp [slotIn, found]
  | none => simp [slotIn_of_none here found, Option.ne_none_iff_isSome]

/-- A parameter takes the argument for it, which is then gone if it has no label. -/
theorem source_eq (params : List Parameter) : source labels p positional =
    (argumentIn labels (p :: params) positional 0, positional.drop (unlabelled [p])) := by
  unfold source argumentIn
  cases named : p.label with
  | some label => simp [unlabelled, named]
  | none => cases positional <;> simp [unlabelled, named]

/-- The first parameter of a row takes its slot, and the others are filled from what it leaves. -/
theorem fill_cons (taken : Nat) : fill labels (p :: params) positional taken =
    match slotIn labels (p :: params) positional 0 with
    | none =>
      .error <| match p.label with
        | some label => .missingLabel label
        | none => .missingPosition (taken + 1)
    | some slot => do
      let left := positional.drop (unlabelled [p])
      let (slots, unused) ← fill labels params left (taken + (positional.length - left.length))
      return (slot :: slots, unused) := by
  rw [fill, source_eq params]
  rfl

/-- A row of parameters is filled if each of them has a slot, with those slots; the arguments
without label that are left over are those beyond the parameters without. -/
theorem fill_eq_ok_iff {taken : Nat} {slots : List Slot} {unused : List Nat} :
    fill labels params positional taken = .ok (slots, unused) ↔
      slots.map some = (List.range params.length).map (slotIn labels params positional) ∧
        unused = positional.drop (unlabelled params) := by
  induction params generalizing positional taken slots with
  | nil =>
    rw [fill, Except.ok.injEq, Prod.mk.injEq]
    exact and_congr (eq_comm.trans List.map_eq_nil_iff.symm) eq_comm
  | cons p params ih =>
    have row : (List.range (p :: params).length).map (slotIn labels (p :: params) positional) =
        slotIn labels (p :: params) positional 0 :: (List.range params.length).map
          (slotIn labels params (positional.drop (unlabelled [p]))) := by
      rw [List.length_cons, List.range_succ_eq_map, List.map_cons, List.map_map]
      exact congrArg _ (List.map_congr_left fun i _ => slotIn_succ i)
    have left : positional.drop (unlabelled (p :: params)) =
        (positional.drop (unlabelled [p])).drop (unlabelled params) := by
      rw [List.drop_drop, unlabelled, unlabelled, unlabelled, ← List.singleton_append,
        List.countP_append]
    rw [fill_cons, row, left]
    cases slotIn labels (p :: params) positional 0 with
    | none =>
      refine iff_of_false (fun h => by cases h) fun h => ?_
      cases slots <;> cases h.1
    | some slot =>
      constructor
      · intro h
        obtain ⟨⟨more, rest⟩, filled, h⟩ := ok_of_bind h
        cases h
        obtain ⟨each, rfl⟩ := ih.mp filled
        exact ⟨congrArg (some slot :: ·) each, rfl⟩
      · rintro ⟨each, rfl⟩
        cases slots with
        | nil => cases each
        | cons first more =>
          obtain ⟨same, others⟩ := List.cons.inj each
          cases same
          exact congrArg (· >>= fun found => return (slot :: found.1, found.2))
            (ih.mpr ⟨others, rfl⟩)

end Filling

variable {s : Signature} {count : Nat} {labels : Entries Nat} {slots : List Slot}

theorem misplaced_eq_false_iff : misplaced (positions count labels) labels = false ↔
    ∀ i ∈ positions count labels, ∀ entry ∈ labels, i ≤ entry.2 := by
  simp only [misplaced, List.any_eq_false, Bool.not_eq_true, decide_eq_false_iff_not, Nat.not_lt]

theorem mem_positions {i : Nat} :
    i ∈ positions count labels ↔ i < count ∧ i ∉ labels.map Prod.snd := by
  simp [positions]

theorem nodup_positions (count : Nat) (labels : Entries Nat) : (positions count labels).Nodup :=
  List.nodup_range.filter _

/-- As many labels are used as there are, all of them different, if each label is that of a
parameter. -/
theorem length_le_used_iff (distinct : (s.params.filterMap Parameter.label).Nodup)
    (ascending : labels.Ascending) :
    (labels.length ≤ s.params.countP fun p => p.label.any labels.has) ↔
      ∀ entry ∈ labels, ∃ p ∈ s.params, p.label = some entry.1 := by
  have used : (s.params.countP fun p => p.label.any labels.has) =
      ((s.params.filterMap Parameter.label).filter labels.has).length := by
    rw [← List.countP_eq_length_filter, List.countP_filterMap]
    refine List.countP_congr fun p _ => ?_
    cases p.label <;> rfl
  have subset : ((s.params.filterMap Parameter.label).filter labels.has) ⊆ labels.keys := by
    intro label mem
    exact Entries.mem_keys_of_find?_isSome (List.mem_filter.mp mem).2
  have lengths : labels.length = labels.keys.length := (List.length_map _).symm
  rw [used, lengths]
  constructor
  · intro few entry mem
    have same := (List.subperm_of_subset (distinct.filter _) subset).perm_of_length_le few
    have found := List.mem_of_mem_filter (same.mem_iff.mpr (List.mem_map_of_mem mem))
    exact List.mem_filterMap.mp found
  · intro known
    refine (List.subperm_of_subset ascending.nodup_keys fun label mem => ?_).length_le
    obtain ⟨entry, inside, rfl⟩ := List.mem_map.mp mem
    exact List.mem_filter.mpr
      ⟨List.mem_filterMap.mpr (known entry inside), Entries.find?_isSome_of_mem_keys mem⟩

/-- Binding succeeds where no label stands too early, every parameter has a slot, and nothing is
left over. -/
theorem bind_eq_ok_iff : s.bind count labels = .ok slots ↔
    misplaced (positions count labels) labels = false ∧
      fill labels s.params (positions count labels) 0 = .ok (slots, []) ∧
      labels.length ≤ s.params.countP fun p => p.label.any labels.has := by
  constructor
  · intro h
    refine ⟨?_, fill_of_bind h⟩
    unfold bind at h
    dsimp only at h
    split at h
    · cases h
    · rename_i ordered
      exact Bool.eq_false_iff.mpr ordered
  · rintro ⟨ordered, filled, used⟩
    unfold bind
    dsimp only
    rw [ordered, filled, if_neg Bool.false_ne_true]
    exact if_neg (Nat.not_lt.mpr used)

/-- A parameter takes an argument by its label or by its number among those without. -/
theorem argumentFor_eq_some_iff (ascending : labels.Ascending) {i k : Nat} :
    s.argumentFor count labels i = some k ↔ ∃ p, s.params[i]? = some p ∧
      ((∃ label, p.label = some label ∧ (label, k) ∈ labels) ∨
        p.label = none ∧ (positions count labels)[unlabelled (s.params.take i)]? = some k) := by
  unfold argumentFor argumentIn
  rw [Option.bind_eq_some_iff]
  refine exists_congr fun p => and_congr_right fun _ => ?_
  cases p.label with
  | some label => simp [ascending.find?_eq_some_iff]
  | none => simp

/-- Parameters with the same label are the same. -/
theorem eq_of_label (distinct : (s.params.filterMap Parameter.label).Nodup) {i j : Nat}
    {p q : Parameter} {label : String} (hi : s.params[i]? = some p) (hj : s.params[j]? = some q)
    (hp : p.label = some label) (hq : q.label = some label) : i = j := by
  have apart := List.pairwise_iff_getElem.mp (List.pairwise_filterMap.mp distinct)
  obtain ⟨ilt, rfl⟩ := List.getElem?_eq_some_iff.mp hi
  obtain ⟨jlt, rfl⟩ := List.getElem?_eq_some_iff.mp hj
  rcases Nat.lt_trichotomy i j with less | same | less
  · exact absurd rfl (apart i j ilt jlt less _ hp _ hq)
  · exact same
  · exact absurd rfl (apart j i jlt ilt less _ hq _ hp)

/-- An argument that a parameter takes is one of those there are. -/
theorem lt_of_argumentFor (shape : Shape count labels) {i k : Nat}
    (h : s.argumentFor count labels i = some k) : k < count := by
  obtain ⟨p, -, ⟨label, -, mem⟩ | ⟨-, found⟩⟩ := (argumentFor_eq_some_iff shape.ascending).mp h
  · exact shape.inside _ mem
  · exact (mem_positions.mp (List.mem_of_getElem? found)).1

/-- No two parameters take the same argument. -/
theorem eq_of_argumentFor (distinct : (s.params.filterMap Parameter.label).Nodup)
    (shape : Shape count labels) {i j k : Nat} (hi : s.argumentFor count labels i = some k)
    (hj : s.argumentFor count labels j = some k) : i = j := by
  obtain ⟨p, hp, takes⟩ := (argumentFor_eq_some_iff shape.ascending).mp hi
  obtain ⟨q, hq, takes'⟩ := (argumentFor_eq_some_iff shape.ascending).mp hj
  have unlabelled_of {m : Nat} (found : (positions count labels)[m]? = some k) :
      ∀ label, (label, k) ∉ labels := fun label mem =>
    (mem_positions.mp (List.mem_of_getElem? found)).2 (List.mem_map.mpr ⟨_, mem, rfl⟩)
  rcases takes with ⟨label, named, mem⟩ | ⟨named, found⟩ <;>
    rcases takes' with ⟨label', named', mem'⟩ | ⟨named', found'⟩
  · cases List.inj_on_of_nodup_map shape.apart mem mem' rfl
    exact eq_of_label distinct hp hq named named'
  · exact absurd mem (unlabelled_of found' label)
  · exact absurd mem' (unlabelled_of found label')
  · have inside := (List.getElem?_eq_some_iff.mp found).1
    have number := (List.getElem?_inj inside (nodup_positions count labels)).mp
      (found.trans found'.symm)
    exact eq_of_numbered _ hp hq (by simp [named]) (by simp [named']) number

/-- Each argument is taken, if its label is known and enough parameters have none. -/
theorem exists_argumentFor (shape : Shape count labels) (known : ∀ entry ∈ labels, ∃ p ∈ s.params,
    p.label = some entry.1) (few : (positions count labels).length ≤ unlabelled s.params) {k : Nat}
    (bound : k < count) : ∃ i, s.argumentFor count labels i = some k := by
  simp only [argumentFor_eq_some_iff shape.ascending]
  by_cases labelled : k ∈ labels.map Prod.snd
  · obtain ⟨⟨label, _⟩, mem, rfl⟩ := List.mem_map.mp labelled
    obtain ⟨p, inside, named⟩ := known _ mem
    obtain ⟨i, found⟩ := List.mem_iff_getElem?.mp inside
    exact ⟨i, p, found, .inl ⟨label, named, mem⟩⟩
  · obtain ⟨m, found⟩ := List.mem_iff_getElem?.mp (mem_positions.mpr ⟨bound, labelled⟩)
    have enough : m < unlabelled s.params := (List.getElem?_eq_some_iff.mp found).1.trans_le few
    obtain ⟨i, p, here, none, before⟩ := exists_numbered _ enough
    refine ⟨i, p, here, .inr ⟨Option.isNone_iff_eq_none.mp none, ?_⟩⟩
    rw [unlabelled, before]
    exact found

/-- What binding puts in the slots. -/
theorem slots_of_bind (h : s.bind count labels = .ok slots) :
    slots.length = s.params.length ∧
      ∀ i < s.params.length, slots[i]? = slotIn labels s.params (positions count labels) i := by
  have each := (fill_eq_ok_iff.mp (bind_eq_ok_iff.mp h).2.1).1
  have length : slots.length = s.params.length := by simpa using congrArg List.length each
  refine ⟨length, fun i inside => ?_⟩
  have here := congrArg (fun row : List (Option Slot) => row[i]?) each
  simpa [length ▸ inside, inside, List.getElem?_eq_getElem (length ▸ inside)] using here

theorem slot_eq_argument_iff (h : s.bind count labels = .ok slots) {i k : Nat} :
    slots[i]? = some (.argument k) ↔ s.argumentFor count labels i = some k := by
  obtain ⟨length, each⟩ := slots_of_bind h
  by_cases inside : i < s.params.length
  · rw [each i inside, argumentFor]
    cases found : argumentIn labels s.params (positions count labels) i with
    | some index => simp [slotIn, found]
    | none => simp [slotIn_of_none (List.getElem?_eq_getElem inside) found]
  · rw [List.getElem?_eq_none (length ▸ Nat.le_of_not_lt inside), argumentFor, argumentIn,
      List.getElem?_eq_none (Nat.le_of_not_lt inside)]
    simp

/-- Where each parameter has a slot and nothing is left over, binding succeeds. -/
theorem exists_bind_iff (distinct : (s.params.filterMap Parameter.label).Nodup)
    (shape : Shape count labels) :
    (∃ slots, s.bind count labels = .ok slots) ↔ s.Admits count labels := by
  constructor
  · rintro ⟨slots, h⟩
    obtain ⟨ordered, filled, used⟩ := bind_eq_ok_iff.mp h
    refine ⟨fun i mem entry labelled => ?_, (length_le_used_iff distinct shape.ascending).mp used,
      List.drop_eq_nil_iff.mp (fill_eq_ok_iff.mp filled).2.symm, fun i p here => ?_⟩
    · refine lt_of_le_of_ne (misplaced_eq_false_iff.mp ordered i mem entry labelled) ?_
      rintro rfl
      exact (mem_positions.mp mem).2 (List.mem_map_of_mem labelled)
    · obtain ⟨length, each⟩ := slots_of_bind h
      have inside := (List.getElem?_eq_some_iff.mp here).1
      have slot := each i inside
      rw [List.getElem?_eq_getElem (length ▸ inside)] at slot
      exact (isSome_slotIn_iff here).mp (slot ▸ rfl)
  · intro admits
    have each : ∀ slot ∈ (List.range s.params.length).map
        (slotIn labels s.params (positions count labels)), slot ∈ Set.range some := by
      intro slot mem
      obtain ⟨i, inside, rfl⟩ := List.mem_map.mp mem
      have here := List.getElem?_eq_getElem (List.mem_range.mp inside)
      obtain ⟨slot, found⟩ := Option.isSome_iff_exists.mp
        ((isSome_slotIn_iff here).mpr (admits.provided i _ here))
      exact ⟨slot, found.symm⟩
    obtain ⟨slots, row⟩ := (Set.ext_iff.mp (Set.range_list_map some) _).mpr each
    refine ⟨slots, bind_eq_ok_iff.mpr ⟨misplaced_eq_false_iff.mpr fun i mem entry labelled =>
      (admits.ordered i mem entry labelled).le, fill_eq_ok_iff.mpr ⟨row, ?_⟩,
      (length_le_used_iff distinct shape.ascending).mpr admits.known⟩⟩
    exact (List.drop_eq_nil_iff.mpr admits.few).symm

/-- Bound slots are the arguments and defaults of the parameters in order. -/
theorem binds_of_bind (distinct : (s.params.filterMap Parameter.label).Nodup)
    (shape : Shape count labels) (h : s.bind count labels = .ok slots) :
    s.Binds count labels slots := by
  have admits := (exists_bind_iff distinct shape).mp ⟨slots, h⟩
  obtain ⟨length, each⟩ := slots_of_bind h
  refine ⟨length, fun i k => (slot_eq_argument_iff h).mpr, fun i p here none => ?_,
    fun k bound => ?_, fun k mem => ?_⟩
  · have inside := (List.getElem?_eq_some_iff.mp here).1
    have slot := each i inside
    rw [slotIn_of_none here none] at slot
    obtain ⟨value, given, _⟩ := Option.map_eq_some_iff.mp
      (slot.symm.trans (List.getElem?_eq_getElem (length ▸ inside)))
    rw [given] at slot
    exact ⟨value, given, slot⟩
  · obtain ⟨i, takes⟩ := exists_argumentFor shape admits.known admits.few bound
    refine ⟨i, (slot_eq_argument_iff h).mpr takes, fun j here => ?_⟩
    exact eq_of_argumentFor distinct shape ((slot_eq_argument_iff h).mp here) takes
  · obtain ⟨i, here⟩ := List.mem_iff_getElem?.mp mem
    exact lt_of_argumentFor shape ((slot_eq_argument_iff h).mp here)

/-- A normalized argument list: for each parameter the argument or the default of its slot, and no
labels. -/
structure Normalizes (t : Tuple) (slots : List Slot) (args : Tuple) : Prop where
  length : args.length = slots.length
  argument : ∀ i k : Nat, slots[i]? = some (.argument k) →
    ∃ item, t[k]? = some item ∧ args[i]? = some (none, item.2)
  default : ∀ (i : Nat) value, slots[i]? = some (.default value) →
    args[i]? = some (none, .value value)

theorem normalizes_map {t : Tuple} (inside : ∀ k, Slot.argument k ∈ slots → k < t.length) :
    Normalizes t slots (Tuple.ofList (slots.map (slotExpr t))) := by
  refine ⟨by simp [Tuple.ofList], fun i k here => ?_, fun i value here => ?_⟩
  · have found := List.getElem?_eq_getElem (inside k (List.mem_of_getElem? here))
    exact ⟨_, found, by simp [Tuple.ofList, here, slotExpr, found]⟩
  · simp [Tuple.ofList, here, slotExpr]

/-- A signature without repeated labels binds exactly the argument lists that it admits, and binding
uses each argument once. Normalizing an argument list puts the arguments and defaults in the order
of the parameters, and fails where binding does. -/
theorem binding_uses_each_argument (s : Signature)
    (distinct : (s.params.filterMap Parameter.label).Nodup) {count : Nat} {labels : Entries Nat}
    (shape : Shape count labels) :
    ((∃ slots, s.bind count labels = .ok slots) ↔ s.Admits count labels) ∧
      (∀ slots, s.bind count labels = .ok slots → s.Binds count labels slots) ∧
      ∀ t : Tuple, t.length = count → t.labels = labels →
        (∀ slots, s.bind count labels = .ok slots →
          ∃ args, s.normalize t = .ok args ∧ Normalizes t slots args) ∧
        ∀ error, s.bind count labels = .error error → s.normalize t = .error error := by
  refine ⟨exists_bind_iff distinct shape, fun slots => binds_of_bind distinct shape, ?_⟩
  rintro t rfl rfl
  constructor
  · intro slots bound
    refine ⟨_, ?_, normalizes_map (binds_of_bind distinct shape bound).inside⟩
    rw [normalize, bound]
    rfl
  · intro error refused
    rw [normalize, refused]
    rfl

/-- A text without label, an optional one, and two options by label of which one is given. -/
theorem binding_uses_each_argument_options :
    let s : Signature := ⟨[{}, { default := some (.int 1) }, { label := some "by" },
      { label := some "from", default := some (.int 0) }]⟩
    (s.params.filterMap Parameter.label).Nodup ∧ Shape 2 [("by", 1)] ∧
      s.bind 2 [("by", 1)] =
        .ok [.argument 0, .default (.int 1), .argument 1, .default (.int 0)] ∧
      s.Binds 2 [("by", 1)]
        [.argument 0, .default (.int 1), .argument 1, .default (.int 0)] := by
  intro s
  have distinct : (s.params.filterMap Parameter.label).Nodup := by decide
  have shape : Shape 2 [("by", 1)] := ⟨List.pairwise_singleton _ _, by decide, by decide⟩
  have bound : s.bind 2 [("by", 1)] =
      .ok [.argument 0, .default (.int 1), .argument 1, .default (.int 0)] := rfl
  exact ⟨distinct, shape, bound,
    (s.binding_uses_each_argument distinct shape).2.1 _ bound⟩

end Signature

end Stencil
