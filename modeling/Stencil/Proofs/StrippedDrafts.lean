import Stencil.Proofs.StrippedTables

/-!
# Drafts without the lines of tags

While a source made of lines is read, the tables of the draft and those of what is kept of the
lines stay related: the current table is at some stage of a line, the tables around it are behind
the tag that opens the next one, and the tables of bodies that are closed end before a tag.
-/

namespace Stencil

open LineStage

variable {d used : Draft} {m n : LineStage} {tables : List (List Node)}

/-- The tables of open scopes are in order, and the first is not the one of the template. -/
theorem OpenedIn.table_lt {written : List (List Node)} {opened : List OpenScope}
    (h : OpenedIn written opened) : (opened.map (·.table)).Pairwise (fun k i => i < k) ∧
      ∀ k ∈ opened.map (·.table), 0 < k ∧ k ≤ writtenTable opened := by
  induction h with
  | nil => exact ⟨.nil, by simp⟩
  | @cons s outer front node bound later around kind rest ih =>
    obtain ⟨ordered, below⟩ := ih
    refine ⟨List.pairwise_cons.mpr ⟨fun k mem => ?_, ordered⟩, fun k mem => ?_⟩
    · exact Nat.lt_of_le_of_lt (below k mem).2 later
    · rcases List.mem_cons.mp mem with rfl | mem
      · exact ⟨Nat.zero_lt_of_lt later, Nat.le_refl _⟩
      · exact ⟨(below k mem).1, Nat.le_trans (below k mem).2 (Nat.le_of_lt later)⟩

namespace Draft

/-- The stage of each table, given that of the current one. -/
def stageOf (d : Draft) (m : LineStage) (k : Nat) : LineStage :=
  if k = d.current then m
  else if k = 0 ∨ k ∈ d.opened.map (·.table) then .behindTag
  else .indented

/-- The tables of a draft, and what is kept of them. -/
structure Strips (m : LineStage) (d : Draft) (tables : List (List Node)) : Prop where
  formed : d.Formed
  length : tables.length = d.tables.length
  table : ∀ {k : Nat} {nodes nodes' : List Node}, d.tables[k]? = some nodes →
    tables[k]? = some nodes' → StrippedOpen (entry k) nodes nodes' (d.stageOf m k)

/-- The current table is that of the template or of a scope that is open. -/
theorem current_mem (d : Draft) : d.current = 0 ∨ d.current ∈ d.opened.map (·.table) := by
  rw [Draft.current]
  cases d.opened with
  | nil => exact .inl rfl
  | cons top outer => exact .inr List.mem_cons_self

theorem stageOf_congr (current : used.current = d.current)
    (opened : used.opened.map (·.table) = d.opened.map (·.table)) (m : LineStage) (k : Nat) :
    used.stageOf m k = d.stageOf m k := by
  rw [stageOf, stageOf, current, opened]

theorem getElem?_modify_eq_some {α : Type} {xs : List α} {i k : Nat} {f : α → α} {y : α}
    (h : (xs.modify i f)[k]? = some y) :
    ∃ x, xs[k]? = some x ∧ y = if k = i then f x else x := by
  rw [List.getElem?_modify] at h
  obtain ⟨x, found, eq⟩ := Option.map_eq_some_iff.mp h
  refine ⟨x, found, eq.symm.trans ?_⟩
  by_cases here : i = k
  · simp [here]
  · simp [here, Ne.symm here]

namespace Strips

theorem start : Strips .lineStart {} [[]] where
  formed := .start
  length := rfl
  table {k nodes nodes'} found found' := by
    have zero : k = 0 := by
      cases k with
      | zero => rfl
      | succ k => cases found
    subst zero
    cases found
    cases found'
    exact .start _

/-- Both current tables are written. -/
theorem modify (h : d.Strips m tables) {d' : Draft} (formed : d'.Formed)
    {f g : List Node → List Node} (written : d'.tables = d.tables.modify d.current f)
    (opened : d'.opened.map (·.table) = d.opened.map (·.table))
    (step : ∀ {e nodes nodes'}, StrippedOpen e nodes nodes' m →
      StrippedOpen e (f nodes) (g nodes') n) :
    d'.Strips n (tables.modify d.current g) where
  formed := formed
  length := by rw [written, List.length_modify, List.length_modify, h.length]
  table {k nodes nodes'} found found' := by
    have current : d'.current = d.current := by
      rw [Draft.current, Draft.current, ← List.head?_map, ← List.head?_map, opened]
    rw [written] at found
    obtain ⟨old, was, rfl⟩ := getElem?_modify_eq_some found
    obtain ⟨old', was', rfl⟩ := getElem?_modify_eq_some found'
    have before := h.table was was'
    rw [stageOf_congr current opened]
    by_cases here : k = d.current
    · rw [stageOf, if_pos here] at before ⊢
      rw [if_pos here, if_pos here]
      exact step before
    · rw [stageOf, if_neg here] at before ⊢
      rw [if_neg here, if_neg here]
      exact before

theorem tables_addRaw (d : Draft) (chars : List Char) :
    (d.addRaw (String.ofList chars)).tables =
      d.tables.modify d.current (StrippedOpen.added chars) := by
  cases chars with
  | nil =>
    have id : StrippedOpen.added [] = id := rfl
    rw [id, List.modify_id]
    rfl
  | cons c chars => rw [addRaw_of_nonempty d (by simp)]; rfl

theorem opened_addRaw (d : Draft) (text : String) : (d.addRaw text).opened = d.opened := by
  unfold addRaw
  split <;> rfl

/-- Raw text of a line is added to both. -/
theorem addRaw (h : d.Strips m tables) {chars : List Char}
    (step : ∀ {e nodes nodes'}, StrippedOpen e nodes nodes' m → StrippedOpen e
      (StrippedOpen.added chars nodes) (StrippedOpen.added chars nodes') n) :
    (d.addRaw (String.ofList chars)).Strips n
      ((d.withTables tables).addRaw (String.ofList chars)).tables := by
  rw [tables_addRaw (d.withTables tables)]
  exact h.modify (h.formed.addRaw _) (tables_addRaw d chars) (by rw [opened_addRaw]) step

/-- Raw text around a tag that stands alone is added to the one only. -/
theorem addStripped (h : d.Strips m tables) {chars : List Char}
    (step : ∀ {e nodes nodes'}, StrippedOpen e nodes nodes' m →
      StrippedOpen e (StrippedOpen.added chars nodes) nodes' n) :
    (d.addRaw (String.ofList chars)).Strips n tables := by
  have whole := h.modify (n := n) (g := id) (h.formed.addRaw (String.ofList chars))
    (tables_addRaw d chars) (by rw [opened_addRaw]) step
  rwa [List.modify_id] at whole

/-- Without anything written, only what is declared or required may change. -/
theorem of_sameScopes (h : d.Strips m tables) (same : d.SameScopes used) :
    used.Strips m tables where
  formed := same.formed h.formed
  length := by rw [same.tables, h.length]
  table found found' := by
    rw [same.tables] at found
    rw [stageOf_congr same.current same.table]
    exact h.table found found'

/-- A scope that is closed stands before the end tag; the table around it goes on behind the tag.
-/
theorem closeScope (h : d.Strips .indented tables) (inside : d.opened ≠ []) :
    d.closeScope.Strips .behindTag tables where
  formed := h.formed.closeScope
  length := h.length
  table {k nodes nodes'} found found' := by
    have before := h.table found found'
    obtain ⟨top, outer, opened⟩ := List.exists_cons_of_ne_nil inside
    have ordered := h.formed.opened.table_lt
    rw [opened, List.map_cons, List.pairwise_cons] at ordered
    have current : d.current = top.table := by rw [Draft.current, opened]; rfl
    have around : d.closeScope.opened = outer := by rw [Draft.closeScope, opened, List.tail_cons]
    have written := d.closeScope.current_mem
    rw [around] at written
    have stages : d.stageOf .indented k = d.closeScope.stageOf .behindTag k := by
      rw [stageOf, stageOf, around, opened, List.map_cons, current]
      by_cases here : k = top.table
      · have later : k ≠ 0 ∧ k ∉ outer.map (·.table) := by
          rw [here]
          exact ⟨Nat.ne_of_gt (ordered.2 _ List.mem_cons_self).1,
            fun mem => Nat.lt_irrefl _ (ordered.1.1 _ mem)⟩
        have other : k ≠ d.closeScope.current := by
          rintro rfl
          exact written.elim later.1 later.2
        rw [if_pos here, if_neg other, if_neg (not_or.mpr later)]
      · have same : (k = 0 ∨ k ∈ top.table :: outer.map (·.table)) ↔
            (k = 0 ∨ k ∈ outer.map (·.table)) := by
          rw [List.mem_cons, or_iff_right (a := k = top.table) here]
        rw [if_neg here, if_congr same rfl rfl]
        by_cases next : k = d.closeScope.current
        · rw [if_pos next, if_pos (next ▸ written)]
        · rw [if_neg next]
    rw [← stages]
    exact before

/-- Where a scope is opened, the table that was written goes on behind its tag. -/
theorem stageOf_openScope {node : Node} {scope : String} {kind : ScopeKind}
    {place : Text.Location} {declared : Entries Declared} {k : Nat}
    (inside : k < d.tables.length) (m : LineStage) :
    (d.openScope node scope kind place declared).stageOf .behindTag k =
      if k = d.current then .behindTag else d.stageOf m k := by
  have opened : (d.openScope node scope kind place declared).opened.map (·.table) =
      d.tables.length :: d.opened.map (·.table) := rfl
  have current : (d.openScope node scope kind place declared).current = d.tables.length := rfl
  have other : k ≠ d.tables.length := Nat.ne_of_lt inside
  rw [stageOf, opened, current, if_neg other]
  simp only [List.mem_cons, other, false_or]
  by_cases here : k = d.current
  · rw [if_pos here, if_pos (here ▸ d.current_mem)]
  · rw [if_neg here, stageOf, if_neg here]

/-- A block is added to both, and its body is open. -/
theorem openScope (h : d.Strips m tables) (tag : m.IsTag) {name : String} {chained : Bool}
    {behaviour : Behaviour} {args : Tuple} {scope : String} {kind : ScopeKind}
    {place : Text.Location} {declared : Entries Declared}
    (formed : (d.openScope (.block name chained behaviour args) scope kind place declared).Formed) :
    (d.openScope (.block name chained behaviour args) scope kind place declared).Strips .behindTag
      ((d.withTables tables).openScope (.block name chained behaviour args) scope kind place
        declared).tables := by
  let write : List Node → List Node :=
    (· ++ [.block name chained behaviour args, .scope (some d.tables.length)])
  have written (d' : Draft) (length : d'.tables.length = d.tables.length) :
      (d'.openScope (.block name chained behaviour args) scope kind place declared).tables =
        d'.tables.modify d'.current write ++ [[]] := by
    rw [tables_openScope, length]
  have positive : d.tables.length ≠ 0 := Nat.ne_of_gt h.formed.nonempty
  have before := h.formed.current_lt
  rw [written (d.withTables tables) h.length]
  refine ⟨formed, ?_, ?_⟩
  · rw [written d rfl]
    simp [h.length]
  · intro k nodes nodes' found found'
    rw [written d rfl, List.getElem?_append] at found
    rw [List.getElem?_append, List.length_modify, tables_withTables, h.length] at found'
    rw [List.length_modify] at found
    by_cases inside : k < d.tables.length
    · rw [if_pos inside] at found found'
      obtain ⟨old, was, rfl⟩ := getElem?_modify_eq_some found
      obtain ⟨old', was', rfl⟩ := getElem?_modify_eq_some found'
      have stage := h.table was was'
      have same : (d.withTables tables).current = d.current := rfl
      rw [same, stageOf_openScope inside m]
      by_cases here : k = d.current
      · rw [stageOf, if_pos here] at stage
        rw [if_pos here, if_pos here, if_pos here]
        exact stage.block tag positive
      · rw [if_neg here, if_neg here, if_neg here]
        exact stage
    · rw [if_neg inside] at found found'
      have last : k - d.tables.length = 0 := by
        by_contra beyond
        obtain ⟨i, eq⟩ := Nat.exists_eq_succ_of_ne_zero beyond
        rw [eq] at found
        cases found
      have here : k = d.tables.length := by omega
      rw [last] at found found'
      cases found
      cases found'
      have current : (d.openScope (.block name chained behaviour args) scope kind place
          declared).current = d.tables.length := rfl
      rw [stageOf, current, if_pos here, here, entry, if_neg positive]
      exact .start _

/-- A node is added to both. -/
theorem push (h : d.Strips m tables) (same : d.SameScopes used) {node : Node}
    (formed : (used.push node).Formed)
    (step : ∀ {e nodes nodes'}, StrippedOpen e nodes nodes' m →
      StrippedOpen e (nodes ++ [node]) (nodes' ++ [node]) n) :
    (used.push node).Strips n ((used.withTables tables).push node).tables :=
  (h.of_sameScopes same).modify formed rfl rfl step

/-- A table that is there, and what is kept of it. -/
theorem stripped (h : d.Strips m tables) {k : Nat} (inside : k < d.tables.length) :
    Stripped (entry k) (d.tables[k]?.getD []) (tables[k]?.getD []) (d.stageOf m k) := by
  have inside' : k < tables.length := h.length ▸ inside
  rw [List.getElem?_eq_getElem inside, List.getElem?_eq_getElem inside']
  exact (h.table (List.getElem?_eq_getElem inside) (List.getElem?_eq_getElem inside')).stripped

/-- What a tag that stands alone does to both drafts. -/
theorem tag (h : d.Strips .indented tables) {result : List (List Node) → Draft}
    (effect : LineTag.Effect d result) (formed : (result d.tables).Formed) :
    ∃ tables', result tables = (result d.tables).withTables tables' ∧
      (result d.tables).Strips .behindTag tables' := by
  refine ⟨(result tables).tables, ?_⟩
  cases effect with
  | @change used node same changes =>
    have whole : used.withTables d.tables = used := by rw [← same.tables, withTables_tables]
    dsimp only at formed ⊢
    rw [whole] at formed ⊢
    exact ⟨rfl, h.push same formed fun written => written.change changes⟩
  | @opens site made chain closed used around same =>
    have whole : used.withTables d.tables = used := by
      have kept : closed.tables = d.tables := by rcases around with rfl | ⟨rfl, -⟩ <;> rfl
      rw [← kept, ← same.tables, withTables_tables]
    have length : (used.withTables tables).tables.length = used.tables.length := by
      rcases around with rfl | ⟨rfl, -⟩
      · rw [same.tables]
        exact h.length
      · rw [same.tables]
        exact h.length
    dsimp only at formed ⊢
    rw [whole] at formed ⊢
    refine ⟨?_, ?_⟩
    · unfold TagSite.openedBlock Draft.openScope
      rw [length]
      rfl
    · rcases around with rfl | ⟨rfl, inside⟩
      · exact (h.of_sameScopes same).openScope (.inl rfl) formed
      · exact ((h.closeScope inside).of_sameScopes same).openScope (.inr rfl) formed
  | closes inside => exact ⟨rfl, h.closeScope inside⟩

/-- What an expression does to both drafts. -/
theorem expression (h : d.Strips m tables) (content : m.IsContent)
    {result : List (List Node) → Draft} (effect : LinePart.Effect d result)
    (formed : (result d.tables).Formed) :
    ∃ tables', result tables = (result d.tables).withTables tables' ∧
      (result d.tables).Strips .inLine tables' := by
  refine ⟨(result tables).tables, ?_⟩
  cases effect with
  | @output used e same =>
    have whole : used.withTables d.tables = used := by rw [← same.tables, withTables_tables]
    dsimp only at formed ⊢
    rw [whole] at formed ⊢
    exact ⟨rfl, h.push same formed fun written => written.output content e⟩

end Strips

end Draft

end Stencil
