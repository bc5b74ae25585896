import Stencil.Proofs.CursorWalk
import Stencil.Proofs.StepOutput

/-!
# The encoder of a scope

The scopes that are open in a rendering, told from its steps: a step that puts a cursor on the stack
opens a scope, and one that takes a cursor off ends it. Some scopes are bodies of encoder tags. The
encoder that a cursor carries is that of the innermost of these, whether the scopes between were
opened for blocks, further passes, definitions or spliced templates (`Logged.agrees`).
-/

namespace Stencil

/-- The encoder of the innermost body of an encoder tag. Of each open scope, the innermost first,
the encoder is given if the scope is such a body; where none is, the default encoder is active. -/
def activeEncoder (default : Encoder) (scopes : List (Option Encoder)) : Encoder :=
  (scopes.findSome? id).getD default

namespace Machine

/-- The encoder of the body that is opened next, if it is that of an encoder tag. -/
def switchesTo? (m : Machine) : Option Encoder :=
  match m.cursors with
  | [] => none
  | cursor :: _ =>
    match cursor.rest with
    | .encode _ inner :: .scope (some _) :: _ => some inner
    | _ => none

/-- The open scopes behind a step. Another pass over a body is the same scope. -/
def scopesBehind (scopes : List (Option Encoder)) (m next : Machine) : List (Option Encoder) :=
  if m.cursors.length < next.cursors.length then m.switchesTo? :: scopes
  else if next.cursors.length < m.cursors.length then scopes.tail
  else scopes

/-- A rendering up to a machine, with the scopes that are open and the pieces that its steps wrote,
values with the encoder that was active. -/
inductive Logged (r : Rendering) (default : Encoder) :
    Machine → List (Option Encoder) → List Piece → Prop
  | start : Logged r default (Machine.start r default) [none] []
  | step {m next : Machine} {scopes : List (Option Encoder)} {log : List Piece}
      (before : Logged r default m scopes log) (step : step r m = some next) :
      Logged r default next (scopesBehind scopes m next)
        (log ++ (stepPiece? r (activeEncoder default scopes) m).toList)

/-- The cursors carry the encoders that are active in their scopes. -/
def Agrees (default : Encoder) : List TableCursor → List (Option Encoder) → Prop
  | [], scopes => scopes = []
  | cursor :: outer, scopes =>
    cursor.encoder = activeEncoder default scopes ∧ scopes ≠ [] ∧ Agrees default outer scopes.tail

variable {r : Rendering} {default : Encoder} {m next : Machine} {scopes : List (Option Encoder)}
  {log : List Piece}

theorem Logged.reaches (h : Logged r default m scopes log) :
    Reaches r (Machine.start r default) m := by
  induction h with
  | start => exact .refl
  | step _ step ih => exact ih.tail step

theorem exists_logged (h : Reaches r (start r default) m) :
    ∃ scopes log, Logged r default m scopes log := by
  induction h with
  | refl => exact ⟨_, _, .start⟩
  | tail _ step ih =>
    obtain ⟨scopes, log, before⟩ := ih
    exact ⟨_, _, before.step step⟩

section Steps

variable {cursor top : TableCursor} {outer : List TableCursor} {s : RenderState}

theorem agrees_on (h : Agrees default (cursor :: outer) scopes) {moved : TableCursor}
    (cursors : next.cursors = moved :: outer) (same : moved.encoder = cursor.encoder) :
    Agrees default next.cursors (scopesBehind scopes ⟨cursor :: outer, s⟩ next) := by
  have stays : scopesBehind scopes ⟨cursor :: outer, s⟩ next = scopes := by
    simp [scopesBehind, cursors]
  rw [stays, cursors]
  exact ⟨same.trans h.1, h.2⟩

theorem agrees_into (h : Agrees default (cursor :: outer) scopes) {moved : TableCursor}
    (cursors : next.cursors = top :: moved :: outer) (same : moved.encoder = cursor.encoder)
    (opened : top.encoder = (switchesTo? ⟨cursor :: outer, s⟩).getD cursor.encoder) :
    Agrees default next.cursors (scopesBehind scopes ⟨cursor :: outer, s⟩ next) := by
  have pushed : scopesBehind scopes ⟨cursor :: outer, s⟩ next =
      switchesTo? ⟨cursor :: outer, s⟩ :: scopes := by
    simp [scopesBehind, cursors]
  rw [pushed, cursors]
  refine ⟨?_, List.cons_ne_nil _ _, same.trans h.1, h.2⟩
  rw [opened, h.1]
  cases switchesTo? ⟨cursor :: outer, s⟩ <;> rfl

theorem agrees_out (h : Agrees default (cursor :: outer) scopes) (cursors : next.cursors = outer) :
    Agrees default next.cursors (scopesBehind scopes ⟨cursor :: outer, s⟩ next) := by
  have popped : scopesBehind scopes ⟨cursor :: outer, s⟩ next = scopes.tail := by
    simp [scopesBehind, cursors]
  rw [popped, cursors]
  exact h.2.2

/-- Only an encoder tag opens a scope with another encoder. -/
theorem agrees_of_acts (h : Agrees default (cursor :: outer) scopes)
    (acts : Acts r cursor outer s next) :
    Agrees default next.cursors (scopesBehind scopes ⟨cursor :: outer, s⟩ next) := by
  have keeps {node : Node} {rest : List Node} (here : cursor.rest = node :: rest)
      (other : ∀ handler inner, node ≠ .encode handler inner) :
      switchesTo? ⟨cursor :: outer, s⟩ = none := by
    simp only [switchesTo?, here]
    split
    · rename_i handler inner body more eq
      cases eq
      exact absurd rfl (other handler inner)
    · rfl
  cases acts with
  | on | declare | assign | defineValue | defineBody => exact agrees_on h rfl rfl
  | block here | place here | jump here =>
    refine agrees_into h rfl rfl ?_
    rw [keeps here (by rintro _ _ ⟨⟩)]
    rfl
  | encode here =>
    refine agrees_into h rfl rfl ?_
    simp only [switchesTo?, here]
    rfl
  | again => exact agrees_on h rfl rfl
  | out => exact agrees_out h rfl

end Steps

/-- Throughout a rendering the cursors carry the encoders of their scopes. -/
theorem Logged.agrees (h : Logged r default m scopes log) : Agrees default m.cursors scopes := by
  induction h with
  | start => exact ⟨rfl, List.cons_ne_nil _ _, rfl⟩
  | step _ step ih =>
    obtain ⟨cursor, outer, s, rfl, acts⟩ := acts_of_step step
    exact agrees_of_acts ih acts

/-- Where outputs are related to what is written, a rendering is related to its log. -/
theorem Logged.written {R : Output → List Piece → Output → Prop} (logs : r.Logs R)
    (h : Logged r default m scopes log) : R {} log m.state.output := by
  induction h with
  | start => exact logs.nothing _
  | @step m next scopes log before step ih =>
    obtain ⟨cursor, outer, s, rfl, -⟩ := acts_of_step step
    cases step
    have active := before.agrees.1
    rw [← active]
    exact logs.trans ih (logs_advance logs cursor outer s)

end Machine

end Stencil
