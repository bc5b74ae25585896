import Stencil.Proofs.ChainWalk

/-!
# The rounds of a loop

A loop walks the scope of its body round by round. Each round starts in the state that the one
before it left, in a frame of its own with the bindings of its pass, and is walked to the end of the
table (`Machine.Rounds`). How many there are, and what they bind, is for the block to say; here is
only that a block in a template stands in front of its body.
-/

namespace Stencil

/-- What starts with a block that goes on with no chain. -/
theorem Node.exists_of_chainHead {nodes : List Node} {name : String}
    (h : nodes.head?.bind (Node.chainHead none) = some name) :
    ∃ chained behaviour args tail, nodes = .block name chained behaviour args :: tail := by
  rcases nodes with _ | ⟨node, tail⟩
  · cases h
  · cases node with
    | block other chained behaviour args =>
      cases chained with
      | false =>
        cases h
        exact ⟨_, _, _, _, rfl⟩
      | true => cases h
    | _ => cases h

namespace Machine

/-- Rounds over the body of a block, each with the state in which its frame is opened and with the
bindings in that frame. They lead from a machine and the state in which the first of them would
start to the machine behind the last, and the state that this one left. -/
inductive Rounds (r : Rendering) (body : Nat) (encoder : Encoder) (below : List TableCursor) :
    Machine → RenderState → List (RenderState × Bindings) → Machine → RenderState → Prop
  | nil (m : Machine) (s : RenderState) : Rounds r body encoder below m s [] m s
  | cons {pass : Pass} {s s' left : RenderState} {rounds : List (RenderState × Bindings)}
      {last : Machine} (walks : Walks r body encoder below pass s s')
      (more : Rounds r body encoder below (leave r body encoder (some pass) below s') s' rounds last
        left) :
      Rounds r body encoder below (enter r body encoder pass.run.bindings (some pass) below s) s
        ((s, pass.run.bindings) :: rounds) last left

variable {r : Rendering} {body : Nat} {encoder : Encoder}

/-- The body is walked once in each round. -/
theorem Rounds.passes {cursor : TableCursor} {outer : List TableCursor} {first last : Machine}
    {s left : RenderState} {rounds : List (RenderState × Bindings)}
    (h : Rounds r body encoder (cursor :: outer) first s rounds last left) :
    Passes r outer first [] (List.replicate rounds.length body) last := by
  induction h with
  | nil => exact .refl _
  | cons walks _ ih => exact walks.passes.trans ih

end Machine

namespace Template

open Machine (Reaches start)

variable {t : Template} {context : Context} {config : Config} {encoder : Encoder}
  {cursor : TableCursor} {outer : List TableCursor} {s : RenderState}

/-- Where a rendering comes to a block that is no link of a chain, it comes to its body too, and to
an end. -/
theorem Assembled.exists_block (assembled : Assembled ParsedCore t)
    (met : Reaches ⟨t, context, config⟩ (start ⟨t, context, config⟩ encoder) ⟨cursor :: outer, s⟩)
    {name : String} {chained : Bool} {behaviour : Behaviour} {args : Tuple} {tail : List Node}
    (here : cursor.rest = .block name chained behaviour args :: tail)
    (single : name ≠ "elseif" ∧ name ≠ "else") :
    ∃ body rest declared,
      cursor.rest = .block name false behaviour args :: .scope (some body) :: rest ∧
      Block.Made name ⟨behaviour, args, declared⟩ ∧
      Machine.Halts ⟨t, context, config⟩ ⟨cursor :: outer, s⟩ := by
  have layout : t.Layout := (assembled.mono fun _ given => given.parsed).layout
  obtain ⟨known, covered⟩ := assembled.covered
  have stands := (Machine.stacked_of_reaches layout.forward met).stands List.mem_cons_self
  rw [here] at stands
  obtain ⟨body, rest, declared, rfl, made⟩ := Stencil.exists_body covered layout stands
  obtain ⟨front, eq⟩ := stands
  have first : chained = false := by
    cases chained with
    | false => rfl
    | true =>
      rcases (continues_of_table assembled.linked eq).1.mp rfl with rfl | rfl
      · exact absurd rfl single.1
      · exact absurd rfl single.2
  subst first
  have halts : Machine.Halts ⟨t, context, config⟩ ⟨cursor :: outer, s⟩ :=
    ⟨_, Machine.reaches_end (Machine.reaches_walk layout.forward encoder) rfl met, rfl⟩
  exact ⟨body, rest, declared, here, made, halts⟩

end Template

end Stencil
