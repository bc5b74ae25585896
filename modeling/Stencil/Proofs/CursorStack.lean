import Stencil.Proofs.CursorWalk

/-!
# The stack of cursors

A step moves the innermost cursor on, opens a scope, starts its table anew or takes it off. Below
the limit for definitions any table can be opened; from there on only those that a table names, and
they are further on. So the stack is never higher than the limit and the number of tables together.
-/

namespace Stencil

namespace TableCursor

/-- A cursor further on in the same table. -/
structure Later (cursor next : TableCursor) : Prop where
  table : next.table = cursor.table
  rest : next.rest <:+ cursor.rest

end TableCursor

namespace Machine

variable {r : Rendering}

/-- What a step does to the cursors. -/
inductive Moves (r : Rendering) : List TableCursor → List TableCursor → Prop
  | on {cursor next : TableCursor} {outer : List TableCursor} (later : cursor.Later next) :
      Moves r (cursor :: outer) (next :: outer)
  /-- A scope in the table is opened. -/
  | into {cursor next : TableCursor} {outer : List TableCursor} {body : Nat} {encoder : Encoder}
      {pass : Option Pass} (later : cursor.Later next) (named : .scope (some body) ∈ cursor.rest) :
      Moves r (cursor :: outer)
        ({ table := body, rest := r.template.table body, encoder, pass } :: next :: outer)
  /-- The body of a definition is opened, wherever it is. -/
  | jump {cursor next : TableCursor} {outer : List TableCursor} {body : Nat} {encoder : Encoder}
      {pass : Option Pass} (later : cursor.Later next)
      (few : (cursor :: outer).length < maxScopeDepth) :
      Moves r (cursor :: outer)
        ({ table := body, rest := r.template.table body, encoder, pass } :: next :: outer)
  /-- The table is walked once more. -/
  | again {cursor : TableCursor} {outer : List TableCursor} {encoder : Encoder}
      {pass : Option Pass} :
      Moves r (cursor :: outer)
        ({ table := cursor.table, rest := r.template.table cursor.table, encoder, pass } :: outer)
  | out {cursor : TableCursor} {outer : List TableCursor} : Moves r (cursor :: outer) outer

section Steps

variable {cursor next : TableCursor} {outer : List TableCursor} {s : RenderState}

theorem moves_again (encoder : Encoder) (pass : Pass) (mode : PassMode) (values : List Value) :
    Moves r (cursor :: outer)
      (again r cursor.table encoder pass mode values outer s).cursors := by
  unfold again
  split
  · exact .out
  · exact .again

theorem moves_leave (encoder : Encoder) (pass : Option Pass) :
    Moves r (cursor :: outer) (leave r cursor.table encoder pass outer s).cursors := by
  unfold leave
  split
  · exact .out
  · split
    · exact .out
    · exact .out
    · exact moves_again _ _ _ _
    · exact .out
    · split
      · exact .out
      · exact moves_again _ _ _ _

theorem moves_close : Moves r (cursor :: outer) (close r cursor outer s).cursors := by
  unfold close
  split
  · rename_i last
    rw [List.isEmpty_iff.mp last]
    exact .out
  · exact moves_leave _ _

theorem moves_runBlock {body : Nat} {name : String} {behaviour : Behaviour} {args : Tuple}
    (later : cursor.Later next) (named : .scope (some body) ∈ cursor.rest) :
    Moves r (cursor :: outer) (runBlock r body name behaviour args next outer s).cursors := by
  unfold runBlock
  split
  · exact .on ⟨later.table, later.rest⟩
  · split
    · exact .on ⟨later.table, later.rest⟩
    · exact .into ⟨later.table, later.rest⟩ named

theorem moves_advance (balanced : Balanced ⟨cursor :: outer, s⟩) :
    Moves r (cursor :: outer) (advance r cursor outer s).cursors := by
  have past (front : List Node) {rest : List Node} {place : Option String}
      (eq : cursor.rest = front ++ rest) : cursor.Later { cursor with rest, place } :=
    ⟨rfl, front, eq.symm⟩
  unfold advance
  split
  · exact moves_close
  · rename_i name chained behaviour args body rest eq
    have later : cursor.Later { cursor with rest } := past [_, _] eq
    split
    · exact .on later
    · exact moves_runBlock later (by simp [eq])
  · rename_i name body rest eq
    exact .on (past [_, _] eq)
  · rename_i handler inner body rest eq
    exact .into (past [_, _] eq) (by simp [eq])
  · rename_i body rest eq
    exact .into (past [_] eq) (by simp [eq])
  · rename_i rest eq
    exact .on (past [_] eq)
  · rename_i node rest _ _ _ _ _ eq
    dsimp only
    split
    · rename_i body found
      have few := lt_of_bodyOf? found
      rw [balanced.frames] at few
      exact .jump (past [_] eq) few
    · exact .on (past [_] eq)

end Steps

/-- Each step moves the cursors. -/
theorem moves_of_step {m m' : Machine} (balanced : Balanced m) (step : step r m = some m') :
    Moves r m.cursors m'.cursors := by
  unfold Machine.step at step
  split at step
  · cases step
  · rename_i cursor outer cursors
    cases step
    have here : Balanced ⟨cursor :: outer, m.state⟩ := by
      rw [← cursors]
      exact balanced
    rw [cursors]
    exact moves_advance here

/-- Each cursor stands in its table, and above the limit for definitions the tables are further on
than those they were opened from. -/
inductive Stacked (t : Template) : List TableCursor → Prop
  | nil : Stacked t []
  | cons {cursor : TableCursor} {outer : List TableCursor}
      (stands : cursor.rest <:+ t.table cursor.table)
      (further : ∀ below ∈ outer.head?, maxScopeDepth ≤ outer.length →
        below.table < cursor.table ∧ cursor.table < t.tables.length)
      (rest : Stacked t outer) : Stacked t (cursor :: outer)

namespace Stacked

variable {t : Template} {cursor next : TableCursor} {outer : List TableCursor}

theorem stands {cursors : List TableCursor} (h : Stacked t cursors) (mem : cursor ∈ cursors) :
    cursor.rest <:+ t.table cursor.table := by
  induction h with
  | nil => cases mem
  | cons stands _ _ ih =>
    rcases List.mem_cons.mp mem with rfl | mem
    · exact stands
    · exact ih mem

theorem later (h : Stacked t (cursor :: outer)) (later : cursor.Later next) :
    Stacked t (next :: outer) := by
  cases h with
  | cons stands further rest =>
    rw [← later.table] at stands further
    exact .cons (later.rest.trans stands) further rest

/-- Where tables refer forward, moves keep the stack. -/
theorem of_moves (forward : Forward r.template.tables.length r.template.tables)
    {cursors cursors' : List TableCursor} (h : Stacked r.template cursors)
    (moves : Moves r cursors cursors') : Stacked r.template cursors' := by
  cases moves with
  | on later => exact h.later later
  | into later named =>
    refine .cons (List.suffix_refl _) (fun below mem _ => ?_) (h.later later)
    rw [List.head?_cons, Option.mem_some_iff] at mem
    rw [← mem, later.table]
    exact further_of_mem_table forward ((h.stands List.mem_cons_self).subset named)
  | jump later few =>
    refine .cons (List.suffix_refl _) (fun _ _ many => absurd many ?_) (h.later later)
    exact Nat.not_le_of_lt few
  | again =>
    cases h with
    | cons _ further rest => exact .cons (List.suffix_refl _) further rest
  | out =>
    cases h with
    | cons _ _ rest => exact rest

/-- Above the limit the table of a cursor is as far on as the cursor is high. -/
theorem height_le (h : Stacked t (cursor :: outer)) (many : maxScopeDepth ≤ outer.length) :
    outer.length - maxScopeDepth ≤ cursor.table ∧ cursor.table < t.tables.length := by
  induction outer generalizing cursor with
  | nil => cases many
  | cons below outer ih =>
    cases h with
    | cons _ further rest =>
      obtain ⟨behind, inside⟩ := further below rfl many
      refine ⟨?_, inside⟩
      rw [List.length_cons] at many ⊢
      by_cases more : maxScopeDepth ≤ outer.length
      · have := (ih rest more).1
        omega
      · omega

/-- The stack is bounded. -/
theorem length_le {cursors : List TableCursor} (h : Stacked t cursors) :
    cursors.length ≤ maxScopeDepth + t.tables.length := by
  cases h with
  | nil => exact Nat.zero_le _
  | @cons cursor outer stands further rest =>
    rw [List.length_cons]
    by_cases many : maxScopeDepth ≤ outer.length
    · have := (Stacked.cons stands further rest).height_le many
      omega
    · omega

end Stacked

/-- Throughout a rendering the cursors stand in their tables. -/
theorem stacked_of_reaches (forward : Forward r.template.tables.length r.template.tables)
    {encoder : Encoder} {m : Machine} (reaches : Reaches r (start r encoder) m) :
    Stacked r.template m.cursors := by
  induction reaches with
  | refl => exact .cons (List.suffix_refl _) (fun _ mem => by cases mem) .nil
  | tail before step ih =>
    exact ih.of_moves forward
      (moves_of_step (balanced_of_reaches (balanced_start encoder) before) step)

end Machine

end Stencil
