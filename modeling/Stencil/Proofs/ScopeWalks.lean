import Stencil.Proofs.CursorStack
import Stencil.Proofs.RecordedErrors

/-!
# Scopes that are walked

A run told by the machines it goes through. A scope that is entered in a pass over the body of a
block is walked in that pass up to the end of its table, above the cursors that were there
(`Machine.exists_walks`). What follows is then decided by `Machine.leave`.
-/

namespace Stencil

/-- A cursor of the same scope. -/
structure TableCursor.SameScope (cursor next : TableCursor) : Prop where
  table : next.table = cursor.table
  encoder : next.encoder = cursor.encoder
  pass : next.pass = cursor.pass

namespace Machine

/-- A run with the machines it goes through, without the last. -/
inductive Path (r : Rendering) : Machine → List Machine → Machine → Prop
  | nil (m : Machine) : Path r m [] m
  | cons {m next last : Machine} {ms : List Machine} (step : step r m = some next)
      (more : Path r next ms last) : Path r m (m :: ms) last

/-- The table of a scope above so many others that is at its end. -/
def endedAt? (depth : Nat) (m : Machine) : Option Nat :=
  match m.cursors with
  | ⟨table, [], _, _, _, _⟩ :: outer => if outer.length = depth then some table else none
  | _ => none

/-- The scope of a pass is walked: from where its table is entered the run stays above the cursors
below, until it comes to the end of the table for the first time. Then it goes on with what follows
the pass. The states are those before the frame of the scope is opened and after it is closed. -/
def Walks (r : Rendering) (table : Nat) (encoder : Encoder) (below : List TableCursor) (pass : Pass)
    (s s' : RenderState) : Prop :=
  ∃ ms inner ended,
    Path r (enter r table encoder pass.run.bindings (some pass) below s) ms
      ⟨inner :: below, ended⟩ ∧
    (∀ site ∈ ms, site.endedAt? below.length = none ∧
      ∃ upper cursor, site.cursors = upper ++ cursor :: below) ∧
    inner.table = table ∧ inner.rest = [] ∧ s' = r.trimLine ended.closeFrame ∧
    step r ⟨inner :: below, ended⟩ = some (leave r table encoder (some pass) below s')

/-- A machine that comes to the end of its rendering. -/
def Halts (r : Rendering) (m : Machine) : Prop := ∃ last, Reaches r m last ∧ last.cursors = []

variable {r : Rendering}

theorem Path.append {m m' m'' : Machine} {ms ms' : List Machine} (h : Path r m ms m')
    (more : Path r m' ms' m'') : Path r m (ms ++ ms') m'' := by
  induction h with
  | nil => exact more
  | cons step _ ih => exact .cons step (ih more)

theorem Path.reaches {m m' : Machine} {ms : List Machine} (h : Path r m ms m') :
    Reaches r m m' := by
  induction h with
  | nil => exact .refl
  | cons step _ ih => exact .head step ih

theorem Halts.of_reaches {m m' : Machine} (h : Halts r m) (reaches : Reaches r m m') :
    Halts r m' := by
  obtain ⟨⟨cursors, s⟩, before, rfl⟩ := h
  exact ⟨_, reaches_end before rfl reaches, rfl⟩

variable {cursor : TableCursor} {outer : List TableCursor} {s : RenderState}

/-- While a cursor is not at its end, a step leaves it in its scope, maybe below another. -/
theorem cursors_advance (outer : List TableCursor) (s : RenderState) (filled : cursor.rest ≠ []) :
    ∃ upper next,
      (advance r cursor outer s).cursors = upper ++ next :: outer ∧ cursor.SameScope next := by
  have here {next : TableCursor} {s : RenderState} (same : cursor.SameScope next) :
      ∃ upper cursor', (⟨next :: outer, s⟩ : Machine).cursors = upper ++ cursor' :: outer ∧
        cursor.SameScope cursor' :=
    ⟨[], next, rfl, same⟩
  have above {top next : TableCursor} {s : RenderState} (same : cursor.SameScope next) :
      ∃ upper cursor',
        (⟨top :: next :: outer, s⟩ : Machine).cursors = upper ++ cursor' :: outer ∧
        cursor.SameScope cursor' :=
    ⟨[top], next, rfl, same⟩
  unfold advance
  split
  · rename_i eq
    exact absurd eq filled
  · split
    · exact here ⟨rfl, rfl, rfl⟩
    · unfold runBlock
      split
      · exact here ⟨rfl, rfl, rfl⟩
      · split
        · exact here ⟨rfl, rfl, rfl⟩
        · exact above ⟨rfl, rfl, rfl⟩
  · exact here ⟨rfl, rfl, rfl⟩
  · exact above ⟨rfl, rfl, rfl⟩
  · exact above ⟨rfl, rfl, rfl⟩
  · exact here ⟨rfl, rfl, rfl⟩
  · dsimp only
    split
    · exact above ⟨rfl, rfl, rfl⟩
    · exact here ⟨rfl, rfl, rfl⟩

theorem Moves.suffix {cursors : List TableCursor} (h : Moves r (cursor :: outer) cursors) :
    outer <:+ cursors := by
  cases h with
  | on | again => exact List.suffix_cons _ _
  | into | jump => exact (List.suffix_cons _ _).trans (List.suffix_cons _ _)
  | out => exact List.suffix_refl _

/-- A step leaves the cursors below the innermost alone. -/
theorem suffix_advance : outer <:+ (advance r cursor outer s).cursors := by
  by_cases filled : cursor.rest = []
  · have ends : advance r cursor outer s = close r cursor outer s := by
      simp only [advance, filled]
    rw [ends]
    exact moves_close.suffix
  · obtain ⟨upper, next, eq, -⟩ := cursors_advance (r := r) outer s filled
    rw [eq]
    exact ⟨upper ++ [next], by simp⟩

theorem endedAt?_of_end (ends : cursor.rest = []) :
    endedAt? outer.length ⟨cursor :: outer, s⟩ = some cursor.table := by
  obtain ⟨table, rest, encoder, place, settled, pass⟩ := cursor
  cases ends
  exact if_pos rfl

theorem endedAt?_of_filled {depth : Nat} (filled : cursor.rest ≠ []) :
    endedAt? depth ⟨cursor :: outer, s⟩ = none := by
  obtain ⟨table, rest, encoder, place, settled, pass⟩ := cursor
  cases rest with
  | nil => exact absurd rfl filled
  | cons => rfl

theorem endedAt?_of_ne {depth : Nat} (differs : outer.length ≠ depth) :
    endedAt? depth ⟨cursor :: outer, s⟩ = none := by
  unfold endedAt?
  split
  · rename_i eq
    cases eq
    exact if_neg differs
  · rfl

/-- The run stays above some cursors up to the first end of a scope directly above them. -/
def ComesToEnd (r : Rendering) (site : TableCursor) (below : List TableCursor) (m : Machine) :
    Prop :=
  ∃ ms inner s, Path r m ms ⟨inner :: below, s⟩ ∧
    (∀ m ∈ ms, m.endedAt? below.length = none ∧
      ∃ upper cursor, m.cursors = upper ++ cursor :: below) ∧
    site.SameScope inner ∧ inner.rest = []

section Ends

variable {site : TableCursor} {below : List TableCursor} {m next last : Machine}

theorem ComesToEnd.head (h : ComesToEnd r site below next) (step : step r m = some next)
    (unended : m.endedAt? below.length = none)
    (above : ∃ upper cursor, m.cursors = upper ++ cursor :: below) : ComesToEnd r site below m := by
  obtain ⟨ms, inner, s, path, others, same, ends⟩ := h
  refine ⟨m :: ms, inner, s, .cons step path, ?_, same, ends⟩
  rintro m (_ | ⟨_, mem⟩)
  · exact ⟨unended, above⟩
  · exact others m mem

/-- Inside of a scope a run comes to its end. The induction is on the run: each step stays inside,
as long as the scope is not at its end. -/
theorem comesToEnd (reaches : Reaches r m last) (ended : last.cursors = [])
    (inside : ∃ upper cursor, m.cursors = upper ++ cursor :: below ∧ site.SameScope cursor) :
    ComesToEnd r site below m := by
  induction reaches using Relation.ReflTransGen.head_induction_on with
  | refl =>
    obtain ⟨upper, cursor, eq, -⟩ := inside
    rw [ended] at eq
    simp at eq
  | @head m next step _ ih =>
    obtain ⟨cursors, s⟩ := m
    obtain ⟨upper, inner, rfl, same⟩ := inside
    have above : ∃ upper' cursor, upper ++ inner :: below = upper' ++ cursor :: below :=
      ⟨upper, inner, rfl⟩
    cases upper with
    | cons top upper =>
      cases step
      refine (ih ?_).head rfl (endedAt?_of_ne (by simp; omega)) above
      obtain ⟨more, eq⟩ : (upper ++ inner :: below) <:+
          (advance r top (upper ++ inner :: below) s).cursors := suffix_advance
      exact ⟨more ++ upper, inner, by rw [List.append_assoc]; exact eq.symm, same⟩
    | nil =>
      by_cases ends : inner.rest = []
      · exact ⟨[], inner, s, .nil _, by simp, same, ends⟩
      · cases step
        refine (ih ?_).head rfl (endedAt?_of_filled ends) above
        obtain ⟨upper, next, eq, further⟩ := cursors_advance (r := r) below s ends
        exact ⟨upper, next, eq, further.table.trans same.table, further.encoder.trans same.encoder,
          further.pass.trans same.pass⟩

end Ends

/-- A scope that is entered in a pass is walked to its end. -/
theorem exists_walks {table : Nat} {encoder : Encoder} {below : List TableCursor} {pass : Pass}
    (filled : below ≠ [])
    (halts : Halts r (enter r table encoder pass.run.bindings (some pass) below s)) :
    ∃ s', Walks r table encoder below pass s s' := by
  obtain ⟨last, reaches, ended⟩ := halts
  obtain ⟨ms, inner, s', path, above, same, ends⟩ :=
    comesToEnd reaches ended ⟨[], _, rfl, ⟨rfl, rfl, rfl⟩⟩
  refine ⟨_, ms, inner, s', path, above, same.table, ends, rfl, ?_⟩
  have closes : advance r inner below s' = close r inner below s' := by
    simp only [advance, ends]
  have more : below.isEmpty = false := List.isEmpty_eq_false_iff.mpr filled
  change some (advance r inner below s') = _
  rw [closes, close, more, same.table, same.encoder, same.pass]
  rfl

theorem Walks.reaches {table : Nat} {encoder : Encoder} {below : List TableCursor} {pass : Pass}
    {s s' : RenderState} (h : Walks r table encoder below pass s s') :
    Reaches r (enter r table encoder pass.run.bindings (some pass) below s)
      (leave r table encoder (some pass) below s') := by
  obtain ⟨ms, inner, ended, path, -, -, -, -, step⟩ := h
  exact path.reaches.tail step

end Machine

end Stencil
