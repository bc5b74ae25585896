import Stencil.Proofs.ParallelWalks
import Stencil.Proofs.Splices

/-!
# Independent splices

Two splices for different places, neither of which requires what the other is for, may be made in
either order. The tables that they bring are numbered differently then: the tables of the one are
moved behind those of the other. What is noted, what is printed and what is rendered is the same.
-/

namespace Stencil

namespace NameSet

variable {names others : NameSet} {a b : String}

theorem insert_comm_of_lt (less : a < b) (names : NameSet) :
    insert a (insert b names) = insert b (insert a names) := by
  have other : ¬b < a := less.asymm
  induction names with
  | nil => simp [insert, less, other, less.ne]
  | cons n rest ih =>
    rcases lt_trichotomy b n with before | rfl | behind
    · simp [insert, less, other, less.ne, before, less.trans before]
    · simp [insert, less, other, less.ne]
    · have notBefore : ¬b < n := behind.asymm
      rcases lt_trichotomy a n with first | rfl | last
      · simp [insert, other, less.ne, behind.ne, notBefore, first]
      · simp [insert, behind.ne, notBefore]
      · simp [insert, behind.ne, notBefore, last.ne, last.asymm, ih]

/-- Names may be added in any order. -/
theorem insert_comm (a b : String) (names : NameSet) :
    insert a (insert b names) = insert b (insert a names) := by
  rcases lt_trichotomy a b with less | rfl | less
  · exact insert_comm_of_lt less names
  · rfl
  · exact (insert_comm_of_lt less names).symm

theorem union_right_comm (names first second : NameSet) :
    (names.union first).union second = (names.union second).union first := by
  unfold union
  rw [← List.foldl_append, ← List.foldl_append]
  exact List.perm_append_comm.foldl_eq' (fun a _ b _ result => insert_comm b a result) names

/-- Ascending names are given by what they are. -/
theorem Ascending.ext (h : Ascending names) (h' : Ascending others)
    (same : ∀ name, name ∈ names ↔ name ∈ others) : names = others :=
  ((List.perm_ext_iff_of_nodup h.nodup h'.nodup).mpr same).eq_of_pairwise
    (fun _ _ _ _ less greater => absurd greater less.asymm) h h'

end NameSet

theorem forall₂_of_getElem? {α β : Type} {R : α → β → Prop} {xs : List α} {ys : List β}
    (h : ∀ k : Nat, Option.Rel R xs[k]? ys[k]?) : List.Forall₂ R xs ys := by
  induction xs generalizing ys with
  | nil =>
    cases ys with
    | nil => exact .nil
    | cons y ys =>
      cases h 0
  | cons x xs ih =>
    cases ys with
    | nil => cases h 0
    | cons y ys =>
      have first := h 0
      rw [List.getElem?_cons_zero, List.getElem?_cons_zero] at first
      cases first with
      | some here => exact .cons here (ih fun k => h (k + 1))

namespace Node

variable {place other : String × Bool} {table table' k : Nat} {nodes : List Node}

/-- A place for one file only is awaited. -/
theorem AwaitsAt.unique (here : AwaitsAt place nodes k) (there : AwaitsAt other nodes k) :
    place = other := by
  have same := here.1.symm.trans there.1
  rw [Option.some.injEq, Node.inline.injEq] at same
  exact Prod.ext same.1 same.2

/-- Filling the places for a file leaves those for another one. -/
theorem awaitsAt_fillPlaces (differ : other ≠ place) :
    AwaitsAt other (fillPlaces place table nodes) k ↔ AwaitsAt other nodes k := by
  by_cases here : AwaitsAt place nodes k
  · refine iff_of_false (fun there => ?_) fun there => differ (there.unique here)
    cases (fillPlaces_of_awaits here).symm.trans there.2
  · unfold AwaitsAt
    rw [getElem?_fillPlaces_inline, fillPlaces_of_not_awaits here]

/-- Without a place for the file nothing is filled. -/
theorem fillPlaces_of_not_mem (none : place ∉ emptyPlaces nodes) :
    fillPlaces place table nodes = nodes := by
  refine List.ext_getElem? fun k => ?_
  cases k with
  | zero => exact getElem?_fillPlaces_zero
  | succ k =>
    exact fillPlaces_of_not_awaits fun here => none (mem_emptyPlaces_iff.mpr ⟨k, here⟩)

/-- A node whose table belongs to itself. -/
theorem Renamed.of_named {B : Nat → Nat → Prop} {node : Node}
    (named : ∀ table, node = .scope (some table) → B table table) : Renamed B node node := by
  cases node with
  | scope target =>
    refine .scope ?_
    cases target with
    | none => exact .none
    | some table => exact .some (named table rfl)
  | _ => exact .same fun _ => by rintro ⟨⟩

/-- The places for two files may be filled in either order, if the tables belong together. -/
theorem renamed_fillPlaces {B : Nat → Nat → Prop} (differ : place ≠ other) {first last : Nat}
    (forPlace : B first table') (forOther : B last table)
    (old : ∀ i, .scope (some i) ∈ nodes → B i i) :
    List.Forall₂ (Renamed B) (fillPlaces other last (fillPlaces place first nodes))
      (fillPlaces place table' (fillPlaces other table nodes)) := by
  have kept (k : Nat) : Option.Rel (Renamed B) nodes[k]? nodes[k]? := by
    cases found : nodes[k]? with
    | none => exact .none
    | some node => exact .some (.of_named fun i eq => old i (eq ▸ List.mem_of_getElem? found))
  refine forall₂_of_getElem? fun k => ?_
  cases k with
  | zero =>
    simp only [getElem?_fillPlaces_zero]
    exact kept 0
  | succ k =>
    by_cases here : AwaitsAt place nodes k
    · have notOther : ¬AwaitsAt other nodes k := fun there => differ (here.unique there)
      rw [fillPlaces_of_not_awaits ((awaitsAt_fillPlaces differ.symm).not.mpr notOther),
        fillPlaces_of_awaits here, fillPlaces_of_awaits ((awaitsAt_fillPlaces differ).mpr here)]
      exact .some (.scope (.some forPlace))
    · rw [fillPlaces_of_not_awaits ((awaitsAt_fillPlaces differ).not.mpr here)]
      by_cases there : AwaitsAt other nodes k
      · rw [fillPlaces_of_awaits ((awaitsAt_fillPlaces differ.symm).mpr there),
          fillPlaces_of_awaits there]
        exact .some (.scope (.some forOther))
      · rw [fillPlaces_of_not_awaits ((awaitsAt_fillPlaces differ.symm).not.mpr there),
          fillPlaces_of_not_awaits here, fillPlaces_of_not_awaits there]
        exact kept (k + 1)

/-- Nodes that are moved twice. -/
theorem renamed_shift {B : Nat → Nat → Prop} {first last : Nat}
    (named : ∀ i, .scope (some i) ∈ nodes → B (i + first) (i + last)) :
    List.Forall₂ (Renamed B) (nodes.map (shift first)) (nodes.map (shift last)) := by
  rw [List.forall₂_map_left_iff, List.forall₂_map_right_iff]
  refine List.forall₂_same.mpr fun node mem => ?_
  cases node with
  | scope target =>
    cases target with
    | none => exact .scope .none
    | some i => exact .scope (.some (named i mem))
  | _ => exact .same fun _ => by rintro ⟨⟩

end Node

namespace Splice

variable {s a b : Splice} {t : Template} {i k : Nat}

/-- What a splice brings names its own later tables, of which there is one. -/
theorem Given.forward (h : s.Given) : Forward s.tables.length s.tables ∧ 0 < s.tables.length := by
  cases s with
  | template name other => exact ⟨h.layout.forward, h.layout.nonempty⟩
  | raw name text =>
    refine ⟨fun i nodes j found mem => ?_, Nat.zero_lt_one⟩
    rw [List.mem_singleton.mp (List.mem_of_getElem? found)] at mem
    simp at mem

/-- A table that a splice brings, by number. -/
def table (s : Splice) (k : Nat) : List Node := s.tables[k]?.getD []

theorem length_filling (s : Splice) (t : Template) :
    (s.filling t).tables.length = t.tables.length + s.tables.length := by
  rw [filling, List.length_append, Template.length_fillAll, List.length_map]

theorem table_filling_of_lt (s : Splice) (inside : i < t.tables.length) :
    (s.filling t).table i = Node.fillPlaces s.place t.tables.length (t.table i) := by
  rw [Template.table, filling, List.getElem?_append_left (by rwa [Template.length_fillAll]),
    Template.fillAll, List.getElem?_map, Template.table, List.getElem?_eq_getElem inside]
  rfl

/-- The tables of a splice stand behind all others. -/
theorem table_filling_of_le (s : Splice) (t : Template) (k : Nat) :
    (s.filling t).table (t.tables.length + k) =
      (s.table k).map (Node.shift t.tables.length) := by
  have behind : (t.fillAll s.place.1 s.place.2 t.tables.length).length ≤ t.tables.length + k := by
    rw [Template.length_fillAll]
    exact Nat.le_add_right _ _
  rw [Template.table, filling, List.getElem?_append_right behind, Template.length_fillAll,
    Nat.add_sub_cancel_left, List.getElem?_map, table]
  cases s.tables[k]? <;> rfl

theorem not_mem_table {place : String × Bool} (none : place ∉ s.emptyPlaces)
    (k : Nat) : place ∉ Node.emptyPlaces (s.table k) := by
  unfold table
  cases found : s.tables[k]? with
  | none => exact List.not_mem_nil
  | some nodes =>
    exact fun mem => none (List.mem_flatMap.mpr ⟨nodes, List.mem_of_getElem? found, mem⟩)

/-- The numbers of tables behind so many others, if what is first of two splices becomes second. -/
inductive Swap (n first second : Nat) : Nat → Nat → Prop
  | before {i : Nat} (inside : i < n) : Swap n first second i i
  | first {k : Nat} (inside : k < first) : Swap n first second (n + k) (n + second + k)
  | second {k : Nat} (inside : k < second) : Swap n first second (n + first + k) (n + k)

/-- The tables of a splice that brings no place for a later one. -/
theorem table_filling_filling (none : b.place ∉ a.emptyPlaces) (t : Template)
    (inside : k < a.tables.length) :
    (b.filling (a.filling t)).table (t.tables.length + k) =
      (a.table k).map (Node.shift t.tables.length) := by
  rw [table_filling_of_lt b (by rw [length_filling]; omega), table_filling_of_le]
  refine Node.fillPlaces_of_not_mem ?_
  rw [Node.emptyPlaces_shift]
  exact not_mem_table none k

/-- Two splices in either order give the same tables but for their numbers. -/
theorem renumbered_filling (layout : t.Layout) (ga : a.Given) (gb : b.Given)
    (differ : a.place ≠ b.place) (notB : b.place ∉ a.emptyPlaces)
    (notA : a.place ∉ b.emptyPlaces) :
    (b.filling (a.filling t)).Renumbered (Swap t.tables.length a.tables.length b.tables.length)
      (a.filling (b.filling t)) where
  name := rfl
  indicator := rfl
  length := by
    simp only [length_filling]
    omega
  start := .before layout.nonempty
  tables named := by
    have lenA := length_filling a t
    have lenB := length_filling b t
    cases named with
    | before inside =>
      have moreA : t.tables.length ≤ (a.filling t).tables.length := by omega
      have moreB : t.tables.length ≤ (b.filling t).tables.length := by omega
      rw [table_filling_of_lt b (inside.trans_le moreA), table_filling_of_lt a inside,
        table_filling_of_lt a (inside.trans_le moreB), table_filling_of_lt b inside, lenA, lenB]
      refine Node.renamed_fillPlaces differ (.first ga.forward.2) (.second gb.forward.2) ?_
      exact fun j mem => .before (layout.forward.of_mem_table mem).2
    | first inside =>
      rw [table_filling_filling notB t inside, ← lenB, table_filling_of_le, lenB]
      refine Node.renamed_shift fun j mem => ?_
      rw [Nat.add_comm j, Nat.add_comm j]
      exact .first (ga.forward.1.of_mem_table mem).2
    | second inside =>
      rw [table_filling_filling notA t inside, ← lenA, table_filling_of_le, lenA]
      refine Node.renamed_shift fun j mem => ?_
      rw [Nat.add_comm j, Nat.add_comm j]
      exact .second (gb.forward.1.of_mem_table mem).2

/-- Places that are empty after two splices are so in the other order. -/
theorem mem_emptyPlaces_swap (notB : b.place ∉ a.emptyPlaces)
    {q : String × Bool} (mem : q ∈ (a.filling (b.filling t)).emptyPlaces) :
    q ∈ (b.filling (a.filling t)).emptyPlaces := by
  rw [mem_emptyPlaces_filling, mem_emptyPlaces_filling] at mem ⊢
  rcases mem with ⟨⟨old, other⟩ | brought, differs⟩ | brought
  · exact .inl ⟨.inl ⟨old, differs⟩, other⟩
  · exact .inr brought
  · exact .inl ⟨.inr brought, fun same => notB (same ▸ brought)⟩

/-- The places for another splice stay as many. -/
theorem countAwaiting_filling (differ : a.place ≠ b.place)
    (notB : b.place ∉ a.emptyPlaces) (t : Template) :
    (a.filling t).countAwaiting b.place.1 b.place.2 = t.countAwaiting b.place.1 b.place.2 := by
  have counts (t : Template) :
      t.countAwaiting b.place.1 b.place.2 = t.emptyPlaces.count b.place := rfl
  rw [counts, counts, emptyPlaces_filling, List.count_append,
    List.count_eq_zero_of_not_mem notB, Nat.add_zero, List.count_filter]
  exact decide_eq_true differ.symm

end Splice

/-- Templates that only the numbers of their tables tell apart. -/
structure Template.Equivalent (t u : Template) : Prop where
  required : u.required = t.required
  templates : u.templates = t.templates
  raws : u.raws = t.raws
  size : u.size = t.size
  text : u.text = t.text
  render : ∀ context config encoder,
    Rendering.render ⟨u, context, config⟩ encoder = Rendering.render ⟨t, context, config⟩ encoder

namespace Template.Equivalent

variable {t u : Template}

theorem refl (t : Template) : t.Equivalent t := ⟨rfl, rfl, rfl, rfl, rfl, fun _ _ _ => rfl⟩

theorem symm (h : t.Equivalent u) : u.Equivalent t :=
  ⟨h.required.symm, h.templates.symm, h.raws.symm, h.size.symm, h.text.symm,
    fun context config encoder => (h.render context config encoder).symm⟩

end Template.Equivalent

namespace Splice

variable {s a b : Splice} {t : Template}

/-- Two splices fill as many places in either order, and make templates of the same kind. -/
structure Commute (a b : Splice) (t : Template) : Prop where
  first : (a.into (b.into t).1).2 = (a.into t).2
  second : (b.into (a.into t).1).2 = (b.into t).2
  equivalent : (b.into (a.into t).1).1.Equivalent (a.into (b.into t).1).1

theorem Commute.symm (h : a.Commute b t) : b.Commute a t := ⟨h.second, h.first, h.equivalent.symm⟩

/-- A splice that does nothing to a template. -/
def Idle (s : Splice) (t : Template) : Prop := s.IsOwn t ∨ s.place ∉ t.emptyPlaces

theorem Idle.into_eq (h : s.Idle t) : s.into t = (t, 0) := h.elim into_of_own into_of_not_mem

/-- A splice that brings no place for an idle one leaves it idle. -/
theorem Idle.into (h : a.Idle t) (notA : a.place ∉ b.emptyPlaces) :
    a.Idle (b.into t).1 := by
  rcases h with own | none
  · left
    rw [IsOwn, name_into]
    exact own
  · right
    rw [Splice.into_eq]
    split
    · exact none
    · rw [mem_emptyPlaces_filling]
      rintro (⟨old, -⟩ | brought)
      · exact none old
      · exact notA brought

theorem commute_of_idle (idle : a.Idle t)
    (notA : a.place ∉ b.emptyPlaces) : a.Commute b t := by
  have here := idle.into_eq
  have there := (idle.into notA).into_eq
  constructor
  · rw [here, there]
  · rw [here]
  · rw [here, there]
    exact .refl _

/-- In either order the splices note the same names and show no difference. -/
theorem equivalent_filling (layout : t.Layout) (ga : a.Given) (gb : b.Given)
    (differ : a.place ≠ b.place) (notB : b.place ∉ a.emptyPlaces)
    (notA : a.place ∉ b.emptyPlaces)
    (first : (b.filling (a.filling t)).Tallies) (second : (a.filling (b.filling t)).Tallies) :
    (b.filling (a.filling t)).Equivalent (a.filling (b.filling t)) := by
  have renumbered := renumbered_filling layout ga gb differ notB notA
  have noted (q : String × Bool) :
      Noted (a.filling (b.filling t)).templates (a.filling (b.filling t)).raws q ↔
        Noted (b.filling (a.filling t)).templates (b.filling (a.filling t)).raws q := by
    refine (second.noted q).trans (Iff.trans ?_ (first.noted q).symm)
    exact ⟨mem_emptyPlaces_swap notB, mem_emptyPlaces_swap notA⟩
  refine ⟨NameSet.union_right_comm _ _ _, ?_, ?_, ?_, renumbered.text_eq, renumbered.render_eq⟩
  · exact second.templates.ext first.templates fun name => noted (name, false)
  · exact second.raws.ext first.raws fun name => noted (name, true)
  · have sizes (s s' : Splice) : (s.filling (s'.filling t)).size = t.size +
        s'.size * t.countAwaiting s'.place.1 s'.place.2 +
          s.size * (s'.filling t).countAwaiting s.place.1 s.place.2 := rfl
    rw [sizes, sizes, countAwaiting_filling differ notB, countAwaiting_filling differ.symm notA,
      Nat.add_right_comm]

/-- Independent splices commute. If two splices are for different places and neither requires what
the other is for, they fill as many places in either order, and what comes of it is noted, printed
and rendered alike. -/
theorem independent_splices_commute (h : Template.Assembled Template.Parsed t) (ga : a.Given)
    (gb : b.Given) (differ : a.place ≠ b.place) (apart : ¬Noted a.templates a.raws b.place)
    (apart' : ¬Noted b.templates b.raws a.place) : a.Commute b t := by
  have notB : b.place ∉ a.emptyPlaces := (ga.tally.noted b.place).not.mp apart
  have notA : a.place ∉ b.emptyPlaces := (gb.tally.noted a.place).not.mp apart'
  by_cases idleA : a.Idle t
  · exact commute_of_idle idleA notA
  by_cases idleB : b.Idle t
  · exact (commute_of_idle idleB notB).symm
  obtain ⟨otherA, memA⟩ := not_or.mp idleA
  obtain ⟨otherB, memB⟩ := not_or.mp idleB
  have memA := Classical.not_not.mp memA
  have memB := Classical.not_not.mp memB
  have intoA := into_of_mem otherA memA
  have intoB := into_of_mem otherB memB
  have intoAB : b.into (a.filling t) = _ :=
    into_of_mem otherB (mem_emptyPlaces_filling.mpr (.inl ⟨memB, differ.symm⟩))
  have intoBA : a.into (b.filling t) = _ :=
    into_of_mem otherA (mem_emptyPlaces_filling.mpr (.inl ⟨memA, differ⟩))
  have first := ((h.into ga).into gb).tallies
  have second := ((h.into gb).into ga).tallies
  rw [intoA, intoAB] at first
  rw [intoB, intoBA] at second
  constructor
  · rw [intoB, intoBA, intoA]
    exact countAwaiting_filling differ.symm notA t
  · rw [intoA, intoAB, intoB]
    exact countAwaiting_filling differ notB t
  · rw [intoA, intoAB, intoB, intoBA]
    exact equivalent_filling h.layout ga gb differ notB notA first second

/-- A header that is spliced in twice and a style sheet that is spliced into a block. -/
theorem independent_splices_commute_header :
    ∃ page header : Template,
      Template.parse .core {} "page"
        "#inline(\"header\")#if(x):#inline(\"style\", as: raw)#inline(\"header\")#endif" =
          .ok page ∧
      Template.parse .core {} "header" "#if(title):<h1>#(title)</h1>#endif" = .ok header ∧
      Template.Assembled Template.Parsed page ∧ (template "header" header).Given ∧
      ((template "header" header).into page).2 = 2 ∧
      ((raw "style" "<style/>").into page).2 = 1 ∧
      (template "header" header).Commute (raw "style" "<style/>") page := by
  have run : (match Template.parse .core {} "page"
        "#inline(\"header\")#if(x):#inline(\"style\", as: raw)#inline(\"header\")#endif",
      Template.parse .core {} "header" "#if(title):<h1>#(title)</h1>#endif" with
      | .ok page, .ok header => (((template "header" header).into page).2,
          ((raw "style" "<style/>").into page).2, header.raws)
      | _, _ => (0, 0, [])) = (2, 1, []) := by decide +kernel
  split at run
  · rename_i page header parsedPage parsedHeader
    obtain ⟨two, one, none⟩ : ((template "header" header).into page).2 = 2 ∧
        ((raw "style" "<style/>").into page).2 = 1 ∧ header.raws = [] := by simpa using run
    have assembled : Template.Assembled Template.Parsed page :=
      .given (Template.parsed_of_parse parsedPage)
    have given : (template "header" header).Given := .given (Template.parsed_of_parse parsedHeader)
    have notNoted : ¬Noted header.templates header.raws ("style", true) := by simp [Noted, none]
    exact ⟨page, header, parsedPage, parsedHeader, assembled, given, two, one,
      independent_splices_commute assembled given trivial (by simp [place]) notNoted
        (by simp [Noted, templates, place])⟩
  · simp at run

end Splice

end Stencil
