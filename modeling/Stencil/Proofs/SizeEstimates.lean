import Mathlib.Algebra.BigOperators.Ring.List
import Stencil.Proofs.CertainTables
import Stencil.Proofs.IndependentSplices

/-!
# Estimates of the size of the output

A parsed template estimates the size of its output by the raw text of its first table, and a splice
adds the estimate of what it brings, once for each place. That is a lower bound as long as every
rendering comes to the places that were filled (`Template.size_le_of_render`). The estimate counts
the places in the bodies of blocks and of definitions as well, and a body may not be walked: so it
exceeds the output of some renderings (`Template.estimate_exceeds_output`).
-/

namespace Stencil

namespace Node

variable {place : String × Bool} {target : Nat}

theorem hidesBody_shift (offset : Nat) (node : Node) :
    (node.shift offset).hidesBody = node.hidesBody := by
  cases node with
  | scope target => cases target <;> rfl
  | _ => rfl

theorem scopeTarget?_shift (offset : Nat) (node : Node) :
    (node.shift offset).scopeTarget? = node.scopeTarget?.map (· + offset) := by
  cases node with
  | scope target => cases target <;> rfl
  | _ => rfl

/-- Moved nodes come to the moved tables. -/
theorem opened_shift (offset : Nat) (hidden : Bool) (nodes : List Node) :
    opened hidden (nodes.map (shift offset)) = (opened hidden nodes).map (· + offset) := by
  induction nodes generalizing hidden with
  | nil => rfl
  | cons node nodes ih =>
    rw [List.map_cons, opened, opened, ih, hidesBody_shift, scopeTarget?_shift, List.map_append]
    congr 1
    cases hidden <;> cases node.scopeTarget? <;> rfl

theorem rawSize_shift (offset : Nat) (nodes : List Node) :
    rawSize (nodes.map (shift offset)) = rawSize nodes := by
  rw [rawSize_eq, rawSize_eq, List.map_map]
  congr 2
  funext node
  cases node with
  | scope target => cases target <;> rfl
  | _ => rfl

/-- Filling places writes no raw text. -/
theorem rawSize_fillPlaces (place : String × Bool) (target : Nat) (nodes : List Node) :
    rawSize (fillPlaces place target nodes) = rawSize nodes := by
  fun_induction fillPlaces place target nodes with
  | case1 node rest same ih => simp only [rawSize_cons, ih, rawBytes]
  | case2 node rest differs ih => rw [rawSize_cons, rawSize_cons, ih]
  | case3 node rest other ih => rw [rawSize_cons, rawSize_cons, ih]
  | case4 => rfl

theorem eq_inline_of_place? {node : Node} (h : node.place? = some place) :
    node = .inline place.1 place.2 := by
  cases node with
  | inline => cases h; rfl
  | _ => cases h

/-- A walk comes to what a place refers to. -/
theorem opened_place (hidden : Bool) (file : String) (asRaw : Bool) (target : Option Nat)
    (nodes : List Node) : opened hidden (.inline file asRaw :: .scope target :: nodes) =
      target.toList ++ opened false nodes := by
  cases hidden <;> rfl

theorem count_emptyPlaces_of_filled {node : Node} {nodes : List Node}
    (filled : nodes.head?.any isUnfilled = true → node.place? ≠ some place) :
    (emptyPlaces (node :: nodes)).count place = (emptyPlaces nodes).count place := by
  have none : (bif nodes.head?.any isUnfilled then node.place?.toList else []).count place = 0 := by
    refine List.count_eq_zero.mpr fun mem => ?_
    cases unfilled : nodes.head?.any isUnfilled with
    | false => simp [unfilled] at mem
    | true =>
      rw [unfilled, cond_true, Option.mem_toList] at mem
      exact filled unfilled mem
  rw [emptyPlaces_cons, List.count_append, none, Nat.zero_add]

/-- A walk comes to what the places are filled with, as often as there are empty ones. -/
theorem sum_opened_fillPlaces (place : String × Bool) (target : Nat) (f : Nat → Nat)
    (hidden : Bool) (nodes : List Node) :
    ((opened hidden (fillPlaces place target nodes)).map f).sum =
      ((opened hidden nodes).map f).sum + (emptyPlaces nodes).count place * f target := by
  have behind {node : Node} {rest : List Node} (hidden : Bool)
      (filled : rest.head?.any isUnfilled = true → node.place? ≠ some place)
      (ih : ∀ hidden, ((opened hidden (fillPlaces place target rest)).map f).sum =
        ((opened hidden rest).map f).sum + (emptyPlaces rest).count place * f target) :
      ((opened hidden (node :: fillPlaces place target rest)).map f).sum =
        ((opened hidden (node :: rest)).map f).sum +
          (emptyPlaces (node :: rest)).count place * f target := by
    rw [opened, opened, List.map_append, List.map_append, List.sum_append, List.sum_append, ih,
      count_emptyPlaces_of_filled filled, Nat.add_assoc]
  fun_induction fillPlaces place target nodes generalizing hidden with
  | case1 node rest same ih =>
    obtain rfl := eq_inline_of_place? same
    have count : (emptyPlaces (.inline place.1 place.2 :: .scope none :: rest)).count place =
        (emptyPlaces rest).count place + 1 := by
      have filled : (rest.head?.any isUnfilled = true → (scope none).place? ≠ some place) :=
        fun _ same => by cases same
      rw [emptyPlaces_cons, List.count_append, count_emptyPlaces_of_filled filled, Nat.add_comm]
      congr 1
      exact List.count_singleton_self
    rw [opened_place, opened_place, count, List.map_append, List.sum_append, ih, Nat.succ_mul]
    simp only [Option.toList_some, Option.toList_none, List.map_cons, List.map_nil,
      List.sum_singleton, List.nil_append]
    omega
  | case2 node rest differs ih => exact behind hidden (fun _ => differs) ih
  | case3 node rest other ih =>
    refine behind hidden (fun unfilled => ?_) ih
    cases rest with
    | nil => cases unfilled
    | cons next rest =>
      have front : next = .scope none := isUnfilled_iff.mp unfilled
      exact absurd (front ▸ rfl) (other rest)
  | case4 => simp [opened, emptyPlaces]

/-- A walk comes to no other tables. -/
theorem mem_opened_fillPlaces {hidden : Bool} {nodes : List Node} {index : Nat}
    (mem : index ∈ opened hidden (fillPlaces place target nodes)) :
    index ∈ opened hidden nodes ∨ index = target := by
  fun_induction fillPlaces place target nodes generalizing hidden with
  | case1 node rest same ih =>
    obtain rfl := eq_inline_of_place? same
    rw [opened_place] at mem ⊢
    rcases List.mem_append.mp mem with here | behind
    · exact .inr (List.mem_singleton.mp here)
    · exact ih behind
  | case2 node rest differs ih =>
    rcases List.mem_append.mp mem with here | behind
    · exact .inl (List.mem_append_left _ here)
    · exact (ih behind).imp_left (List.mem_append_right _)
  | case3 node rest other ih =>
    rcases List.mem_append.mp mem with here | behind
    · exact .inl (List.mem_append_left _ here)
    · exact (ih behind).imp_left (List.mem_append_right _)
  | case4 => exact .inl mem

end Node

/-! ## Certain tables -/

namespace Tables

variable {table : Nat → List Node} {levels index outer start : Nat}

theorem visits_subset_succ (table : Nat → List Node) (levels index : Nat) :
    visits table levels index ⊆ visits table (levels + 1) index := by
  induction levels generalizing index with
  | zero => exact List.nil_subset _
  | succ levels ih =>
    refine List.cons_subset_cons _ fun i mem => ?_
    obtain ⟨next, inside, visited⟩ := List.mem_flatMap.mp mem
    exact List.mem_flatMap.mpr ⟨next, inside, ih next visited⟩

theorem visits_mono (table : Nat → List Node) (index : Nat) {levels levels' : Nat}
    (deeper : levels ≤ levels') : visits table levels index ⊆ visits table levels' index := by
  induction deeper with
  | refl => exact List.Subset.refl _
  | step _ ih => exact List.Subset.trans ih (visits_subset_succ table _ index)

/-- One level deeper, a walk comes to what opens where it came to. -/
theorem mem_visits_succ (visited : outer ∈ visits table levels start)
    (mem : index ∈ Node.opened false (table outer)) : index ∈ visits table (levels + 1) start := by
  induction levels generalizing start with
  | zero => cases visited
  | succ levels ih =>
    refine .tail _ (List.mem_flatMap.mpr ?_)
    rcases List.mem_cons.mp visited with rfl | below
    · exact ⟨index, mem, .head _⟩
    · obtain ⟨next, inside, deeper⟩ := List.mem_flatMap.mp below
      exact ⟨next, inside, ih deeper⟩

/-- The weights of tables that are visited are among those that are summed up. -/
theorem sum_le_weigh (weight : List Node → Nat) {indices : List Nat} (distinct : indices.Nodup)
    (visited : indices ⊆ visits table levels start) :
    (indices.map fun i => weight (table i)).sum ≤ weigh table weight levels start := by
  obtain ⟨front, same, sub⟩ := List.subperm_of_subset distinct visited
  rw [← (same.map _).sum_eq]
  exact (sub.map _).sum_le_sum fun _ _ => Nat.zero_le _

end Tables

namespace Tables

/-- All filled places stand in certain tables. -/
def FillsCertain (table : Nat → List Node) : Prop :=
  ∀ index pos, Node.FilledAt (table index) pos → Certain table index

/-- Places in the first table are certain. -/
theorem fillsCertain_of_first {tables : List (List Node)}
    (none : ∀ nodes ∈ tables.tail, ∀ node ∈ nodes, node.place? = none) :
    FillsCertain (tables[·]?.getD []) := by
  intro index pos here
  cases index with
  | zero => exact .first
  | succ index =>
    obtain ⟨file, asRaw, _, place, -⟩ := here
    obtain ⟨nodes, found, inside⟩ := exists_of_mem_getD (List.mem_of_getElem? place)
    rw [← List.getElem?_tail] at found
    cases none nodes (List.mem_of_getElem? found) _ inside

end Tables

namespace Template

variable {t : Template} {index : Nat}

/-- Tables that every rendering comes to. -/
def Certain (t : Template) (index : Nat) : Prop := Tables.Certain t.table index

/-- Tables refer forward, so a certain table is visited not deeper than its number. -/
theorem Layout.mem_visits (layout : t.Layout) (h : t.Certain index) :
    index ∈ Tables.visits t.table (index + 1) 0 ∧ index < t.tables.length := by
  induction h with
  | first => exact ⟨.head _, layout.nonempty⟩
  | @opened outer index certain mem ih =>
    have forward := layout.forward.of_mem_table (Node.mem_scope_of_opened mem)
    exact ⟨Tables.visits_mono _ _ (by omega) (Tables.mem_visits_succ ih.1 mem), forward.2⟩

theorem sum_filter_pos (weight : Nat → Nat) (indices : List Nat) :
    ((indices.filter fun i => 0 < weight i).map weight).sum = (indices.map weight).sum := by
  induction indices with
  | nil => rfl
  | cons index indices ih =>
    by_cases positive : 0 < weight index
    · simp [positive, ih]
    · simp [Nat.eq_zero_of_not_pos positive, ih]

/-- The empty places for a file are no more than a walk comes to, if they stand in certain tables.
-/
theorem count_le_weigh (layout : t.Layout) {place : String × Bool}
    (certain : ∀ i, place ∈ Node.emptyPlaces (t.table i) → t.Certain i) :
    t.emptyPlaces.count place ≤ Tables.weigh t.table
      (fun nodes => (Node.emptyPlaces nodes).count place) t.tables.length 0 := by
  let count (i : Nat) : Nat := (Node.emptyPlaces (t.table i)).count place
  have tables : t.tables = (List.range t.tables.length).map t.table := by
    refine List.ext_getElem (by simp) fun i _ _ => ?_
    simp [Template.table, *]
  have total : t.emptyPlaces.count place = ((List.range t.tables.length).map count).sum := by
    rw [emptyPlaces, List.count_flatMap]
    nth_rewrite 1 [tables]
    rw [List.map_map]
    rfl
  rw [total, ← sum_filter_pos]
  refine Tables.sum_le_weigh (fun nodes => (Node.emptyPlaces nodes).count place)
    (List.nodup_range.filter _) fun i mem => ?_
  have here : place ∈ Node.emptyPlaces (t.table i) :=
    List.count_pos_iff.mp (of_decide_eq_true (List.mem_filter.mp mem).2)
  obtain ⟨visited, inside⟩ := layout.mem_visits (certain i here)
  exact Tables.visits_mono _ _ inside visited

end Template

namespace Splice

variable {s : Splice} {t : Template} {levels index : Nat}

/-- A splice weighs the same behind the tables of a template. -/
theorem weigh_behind (s : Splice) (t : Template) (levels k : Nat) :
    Tables.weigh (s.filling t).table rawSize levels (t.tables.length + k) =
      Tables.weigh s.table rawSize levels k := by
  induction levels generalizing k with
  | zero => rfl
  | succ levels ih =>
    rw [Tables.weigh_succ, Tables.weigh_succ, table_filling_of_le, Node.rawSize_shift,
      Node.opened_shift, List.map_map]
    congr 3
    funext k
    rw [Function.comp, Nat.add_comm, ih]

/-- A template with a splice in it weighs as much as itself and, for each empty place that a walk
comes to, the splice. -/
theorem weigh_filling (layout : t.Layout) (s : Splice) (levels more : Nat)
    (inside : index < t.tables.length) :
    Tables.weigh t.table rawSize levels index +
        Tables.weigh t.table (fun nodes => (Node.emptyPlaces nodes).count s.place) levels index *
          Tables.weigh s.table rawSize more 0 ≤
      Tables.weigh (s.filling t).table rawSize (levels + more) index := by
  induction levels generalizing index with
  | zero => simp [Tables.weigh, Tables.visits]
  | succ levels ih =>
    have brought : Tables.weigh s.table rawSize more 0 ≤
        Tables.weigh (s.filling t).table rawSize (levels + more) t.tables.length := by
      have whole := s.weigh_behind t (levels + more) 0
      rw [Nat.add_zero] at whole
      rw [whole]
      exact Tables.weigh_mono _ _ _ (Nat.le_add_left more levels)
    have below := List.sum_le_sum fun j (mem : j ∈ Node.opened false (t.table index)) =>
      ih (layout.forward.of_mem_table (Node.mem_scope_of_opened mem)).2
    rw [List.sum_map_add, List.sum_map_mul_right] at below
    change _ ≤ (List.map (Tables.weigh (s.filling t).table rawSize (levels + more)) _).sum at below
    have filled := Nat.mul_le_mul_left ((Node.emptyPlaces (t.table index)).count s.place) brought
    rw [Nat.add_right_comm levels 1 more, Tables.weigh_succ, Tables.weigh_succ, Tables.weigh_succ,
      table_filling_of_lt s inside, Node.rawSize_fillPlaces, Node.sum_opened_fillPlaces,
      Nat.add_mul]
    omega

/-- Certain tables of a template with a splice in it are those of the template and of the splice. -/
theorem certain_of_filling (layout : t.Layout) (h : (s.filling t).Certain index) :
    (index < t.tables.length → t.Certain index) ∧
      ∀ k, index = t.tables.length + k → Tables.Certain s.table k := by
  induction h with
  | first =>
    have := layout.nonempty
    exact ⟨fun _ => .first, fun k same => by omega⟩
  | @opened outer index _ mem ih =>
    by_cases inside : outer < t.tables.length
    · rw [table_filling_of_lt s inside] at mem
      rcases Node.mem_opened_fillPlaces mem with old | rfl
      · have forward := layout.forward.of_mem_table (Node.mem_scope_of_opened old)
        exact ⟨fun _ => .opened (ih.1 inside) old, fun k same => by omega⟩
      · refine ⟨fun less => absurd less (lt_irrefl _), fun k same => ?_⟩
        obtain rfl : k = 0 := by omega
        exact .first
    · obtain ⟨k, rfl⟩ := Nat.exists_eq_add_of_le (Nat.le_of_not_lt inside)
      rw [table_filling_of_le, Node.opened_shift] at mem
      obtain ⟨j, old, rfl⟩ := List.mem_map.mp mem
      refine ⟨fun less => by omega, fun k' same => ?_⟩
      obtain rfl : k' = j := by omega
      exact .opened (ih.2 k rfl) old

/-- What holds of the filled places of a template with a splice in it holds of the places that were
empty, and of those of the template and of the splice. -/
theorem fillsCertain_of_filling (layout : t.Layout)
    (certain : Tables.FillsCertain (s.filling t).table) :
    Tables.FillsCertain t.table ∧ Tables.FillsCertain s.table ∧
      ∀ i, s.place ∈ Node.emptyPlaces (t.table i) → t.Certain i := by
  have old {i pos : Nat} (some : t.table i ≠ [])
      (here : Node.FilledAt (Node.fillPlaces s.place t.tables.length (t.table i)) pos) :
      t.Certain i := by
    have inside : i < t.tables.length := by
      by_contra beyond
      exact some (by rw [Template.table, List.getElem?_eq_none (by omega), Option.getD_none])
    rw [← table_filling_of_lt s inside] at here
    exact (certain_of_filling layout (certain i pos here)).1 inside
  refine ⟨fun i pos here => ?_, fun k pos here => ?_, fun i mem => ?_⟩
  · refine old ?_ (Node.filledAt_fillPlaces.mpr (.inl here))
    rintro empty
    obtain ⟨_, _, _, found, -⟩ := here
    rw [empty] at found
    cases found
  · have moved : Node.FilledAt ((s.filling t).table (t.tables.length + k)) pos := by
      obtain ⟨file, asRaw, target, place, scope⟩ := here
      rw [table_filling_of_le]
      exact ⟨file, asRaw, target + t.tables.length, by simp [place, Node.shift],
        by simp [scope, Node.shift]⟩
    exact (certain_of_filling layout (certain _ pos moved)).2 k rfl
  · obtain ⟨pos, awaits⟩ := Node.mem_emptyPlaces_iff.mp mem
    refine old ?_ (Node.filledAt_fillPlaces.mpr (.inr awaits))
    exact List.ne_nil_of_mem (List.mem_of_getElem? awaits.1)

/-- What a template weighs bounds the estimate of its size; that is kept by a splice. -/
theorem size_filling_le (layout : t.Layout) (own : t.size ≤
      Tables.weigh t.table rawSize t.tables.length 0)
    (part : s.size ≤ Tables.weigh s.table rawSize s.tables.length 0)
    (certain : ∀ i, s.place ∈ Node.emptyPlaces (t.table i) → t.Certain i) :
    (s.filling t).size ≤
      Tables.weigh (s.filling t).table rawSize (s.filling t).tables.length 0 := by
  have places : t.countAwaiting s.place.1 s.place.2 = t.emptyPlaces.count s.place := rfl
  have met := Template.count_le_weigh layout certain
  calc (s.filling t).size
      = t.size + t.emptyPlaces.count s.place * s.size := by
        rw [filling, places, Nat.mul_comm]
    _ ≤ _ := Nat.add_le_add own (Nat.mul_le_mul met part)
    _ ≤ _ := s.weigh_filling layout _ _ layout.nonempty
    _ = _ := by rw [length_filling]

end Splice

namespace Template

variable {t : Template}

/-- The estimate of a parsed template is the raw text of its first table. -/
theorem Parsed.size_le (h : t.Parsed) :
    t.size ≤ Tables.weigh t.table rawSize t.tables.length 0 := by
  obtain ⟨levels, length⟩ := Nat.exists_eq_succ_of_ne_zero h.layout.nonempty.ne'
  have first : t.size = rawSize (t.table 0) := by
    obtain ⟨entities, config, name, tokens, made⟩ := h
    obtain ⟨d, read, _, rfl⟩ := read_of_ofTokens made
    rw [Template.table, ← List.head?_eq_getElem?]
    exact congrArg rawSize (List.headD_eq_head?_getD ..)
  rw [length, Tables.weigh_succ, first]
  exact Nat.le_add_right _ _

/-- A splice keeps the bound that certain tables give. -/
theorem size_into_le {s : Splice} (layout : t.Layout)
    (own : Tables.FillsCertain t.table → t.size ≤ Tables.weigh t.table rawSize t.tables.length 0)
    (part : Tables.FillsCertain s.table → s.size ≤ Tables.weigh s.table rawSize s.tables.length 0)
    (certain : Tables.FillsCertain (s.into t).1.table) : (s.into t).1.size ≤
      Tables.weigh (s.into t).1.table rawSize (s.into t).1.tables.length 0 := by
  rw [Splice.into_eq] at certain ⊢
  split at certain
  · rename_i nothing
    rw [if_pos nothing]
    exact own certain
  · rename_i some
    rw [if_neg some]
    obtain ⟨before, brought, empty⟩ := Splice.fillsCertain_of_filling layout certain
    exact Splice.size_filling_le layout (own before) (part brought) empty

theorem Assembled.size_le (h : Assembled Parsed t) (certain : Tables.FillsCertain t.table) :
    t.size ≤ Tables.weigh t.table rawSize t.tables.length 0 := by
  induction h with
  | given h => exact h.size_le
  | @inlineTemplate t other name made _ ih part =>
    exact size_into_le (s := .template name other) made.layout ih part certain
  | @inlineRaw t name text made ih =>
    refine size_into_le (s := .raw name text) made.layout ih (fun _ => ?_) certain
    exact (Nat.zero_add _).ge

/-- A rendering that succeeds and trims no lines has the raw text of all tables that it comes to in
every run. The estimate of the size of a template is a lower bound of its output if all places that
were filled stand in such tables. -/
theorem size_le_of_render (h : Assembled Parsed t) (context : Context) {config : Config}
    (untrimmed : config.trimBlockLines = false) (encoder : Encoder) {out : String}
    (done : Rendering.render ⟨t, context, config⟩ encoder = .ok out) :
    (∀ levels, Tables.weigh t.table rawSize levels 0 ≤ out.utf8ByteSize) ∧
      (Tables.FillsCertain t.table → t.size ≤ out.utf8ByteSize) := by
  have written (levels : Nat) : Tables.weigh t.table rawSize levels 0 ≤ out.utf8ByteSize :=
    Rendering.weigh_le_of_render untrimmed done levels
  exact ⟨written, fun certain => (h.size_le certain).trans (written _)⟩

/-- A letter with a note in it, outside of all blocks. -/
theorem size_le_of_render_note : ∃ page out,
    parse .core {} "page" "Dear #(name)#inline(\"note\", as: raw)" = .ok page ∧
    (page.inlineRaw "note" ", hello").1.size = 12 ∧
    Tables.FillsCertain (page.inlineRaw "note" ", hello").1.table ∧
    Rendering.render ⟨(page.inlineRaw "note" ", hello").1, ⟨[("name", .string "Ann")], []⟩,
      { trimBlockLines := false }⟩ .identity = .ok out ∧
    12 ≤ out.utf8ByteSize := by
  have run : ((parse .core {} "page" "Dear #(name)#inline(\"note\", as: raw)").toOption.any
      fun page =>
        let letter := (page.inlineRaw "note" ", hello").1
        letter.size == 12 && letter.tables.tail.all (fun nodes => nodes.all (·.place?.isNone)) &&
          (Rendering.render ⟨letter, ⟨[("name", .string "Ann")], []⟩,
            { trimBlockLines := false }⟩ .identity).toOption.any fun _ => true) = true := by
    decide +kernel
  obtain ⟨page, parsed, run⟩ := ok_of_any run
  obtain ⟨both, run⟩ := Bool.and_eq_true_iff.mp run
  obtain ⟨out, rendered, -⟩ := ok_of_any run
  obtain ⟨size, single⟩ := Bool.and_eq_true_iff.mp both
  have certain : Tables.FillsCertain (page.inlineRaw "note" ", hello").1.table := by
    refine Tables.fillsCertain_of_first fun nodes mem node inside => ?_
    have all := List.all_eq_true.mp (List.all_eq_true.mp single nodes mem)
    exact Option.isNone_iff_eq_none.mp (all node inside)
  have size : (page.inlineRaw "note" ", hello").1.size = 12 := beq_iff_eq.mp size
  have bounds := size_le_of_render (.inlineRaw "note" ", hello" (.given (parsed_of_parse parsed)))
    _ rfl .identity rendered
  exact ⟨page, out, parsed, size, certain, rendered, size ▸ bounds.2 certain⟩

/-- The estimate counts a place in a body that is not walked. -/
theorem estimate_exceeds_output : ∃ t : Template, Assembled Parsed t ∧ t.size = 5 ∧
    Rendering.render ⟨t, {}, { trimBlockLines := false }⟩ .identity = .ok "" := by
  have run : ((parse .core {} "page" "#if(false):#inline(\"note\", as: raw)#endif").toOption.any
      fun page => (page.inlineRaw "note" "hello").1.size == 5 &&
        (Rendering.render ⟨(page.inlineRaw "note" "hello").1, {}, { trimBlockLines := false }⟩
          .identity).toOption.any fun out => out == "") = true := by decide +kernel
  obtain ⟨page, parsed, run⟩ := ok_of_any run
  obtain ⟨size, run⟩ := Bool.and_eq_true_iff.mp run
  obtain ⟨out, rendered, empty⟩ := ok_of_any run
  rw [beq_iff_eq.mp empty] at rendered
  exact ⟨(page.inlineRaw "note" "hello").1,
    .inlineRaw "note" "hello" (.given (parsed_of_parse parsed)), beq_iff_eq.mp size, rendered⟩

end Template

end Stencil
