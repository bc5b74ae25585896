import Stencil.Proofs.SplicedSteps

/-!
# Scopes of spliced parts

The body of a tag is walked on both sides, as often as the tag says. The scope of a part is there
only where the part is spliced: the other side waits in front of what the part is read as, and goes
on behind it.
-/

namespace Stencil

open Machine

variable {r : Rendering} {again : Template} {parts : List Bool} {linked : Bool} {p : LinePosition}
  {more behind rest : List Node} {run : List Char} {m' : Machine} {cursor cursor' : TableCursor}
  {outer outer' : List TableCursor} {s s' : RenderState}

section Bodies

variable {node : Node} {table copy : Nat}

/-- A block is run, unless the chain it goes on with is settled. -/
theorem advance_block {own : Nat} {encoder : Encoder} {place : Option String} {settled : Bool}
    {pass : Option Pass} (name : String) (chained : Bool) (behaviour : Behaviour) (args : Tuple) :
    advance r ⟨own, .block name chained behaviour args :: .scope (some table) :: rest, encoder,
        place, settled, pass⟩ outer s =
      if chained && settled then ⟨⟨own, rest, encoder, place, settled, pass⟩ :: outer, r.trimLine s⟩
      else runBlock r table name behaviour args ⟨own, rest, encoder, place, settled, pass⟩ outer
        (r.trimLine s) := rfl

/-- A block behind whose scopes the cursors stand. -/
theorem Tracked.runBlock {own own' : Nat} {left : List Node} {encoder : Encoder}
    {place place' : Option String} {settled settled' : Bool} {pass pass' : Option Pass}
    (goes : ∀ settled, Tracked r again parts true .anywhere
      (⟨own, left, encoder, place, settled, pass⟩ :: outer)
      (⟨own', joinRaw [] behind, encoder, place', settled, pass'⟩ :: outer') behind)
    (bodies : Bodies r again table copy) (admitted : r.Admitted) (plain : encoder.Plain)
    (state : RenderState.Splices (Bodies r again) parts [] s s') (name : String)
    (behaviour : Behaviour) (args : Tuple) :
    Alongside r again
      (runBlock r table name behaviour args ⟨own, left, encoder, place, settled, pass⟩ outer s)
      (runBlock (r.onto again) copy name behaviour (Expr.rereadItems args)
        ⟨own', joinRaw [] behind, encoder, place', settled', pass'⟩ outer' s') := by
  have waits (settled : Bool) : ∀ top ∈ (⟨own', joinRaw [] behind, encoder, place', settled, pass'⟩
      :: outer' : List TableCursor).head?, top.rest = joinRaw [] behind := by
    rintro _ ⟨⟩
    rfl
  have values : Tuple.eval ((r.onto again).env s') (Expr.rereadItems args) =
      args.eval (r.env s) := by
    rw [state.env]
    exact Expr.evalItems_rereadItems _ args
  have limit : (r.onto again).config = r.config := rfl
  unfold Machine.runBlock
  rw [values, limit]
  cases args.eval (r.env s) with
  | error e => exact (goes true).alongside (waits true) (state.record e) fun _ => trivial
  | ok values =>
    dsimp only
    obtain ⟨verdict, first⟩ := behaviour.enter {} values
    have pass (mode : PassMode) : Pass.Alike ⟨name, behaviour, args, first, mode⟩
        ⟨name, behaviour, Expr.rereadItems args, first, mode⟩ :=
      ⟨rfl, rfl, rfl, rfl, fun env => Expr.evalItems_rereadItems env args⟩
    cases verdict with
    | discard => exact (goes false).alongside (waits false) state fun _ => trivial
    | _ => exact (goes true).enter (waits true) state admitted bodies plain _ (.some (pass _))

/-- A tag with a body. -/
theorem advances_body
    (h : Spliced r again parts linked p (node.reread :: .scope (some copy) :: more ++ behind) run
      ⟨cursor :: outer, s⟩ ⟨cursor' :: outer', s'⟩)
    (inner : Innermost r again parts linked p cursor cursor' outer outer'
      (node.reread :: .scope (some copy) :: more) behind)
    (nodes : cursor.rest = node :: .scope (some table) :: rest) (opens : node.hasBody = true)
    (chained : node.isChained = true → linked = true) (bodies : Bodies r again table copy)
    (pasted : Pasted r.template.table again.table node.isBlock rest more) (admitted : r.Admitted) :
    Advances r again ⟨cursor :: outer, s⟩ ⟨cursor' :: outer', s'⟩ := by
  have other : ∀ text, node ≠ .raw text := by
    rintro text rfl
    cases opens
  have stops : ∀ text, (node.reread :: .scope (some copy) :: more ++ behind).head? ≠
      some (.raw text) := fun text eq => Node.reread_ne_raw other text (Option.some.inj eq)
  obtain ⟨cursor', s', reaches, h, inner⟩ := h.flush inner stops
  refine .of_reaches reaches ?_
  have sets := h.cursors.owns nodes
  obtain ⟨own, nodes', encoder, place, settled, pass⟩ := cursor
  dsimp only at nodes
  subst nodes
  obtain ⟨own', nodes, encoder', place', settled', pass'⟩ := cursor'
  have same : encoder' = encoder := inner.beside.encoder
  subst same
  have joined : nodes = node.reread :: .scope (some copy) :: joinRaw [] (more ++ behind) := by
    have nodes : nodes = _ := h.left _ rfl
    rw [nodes, List.cons_append, joinRaw_cons (Node.reread_ne_raw other), List.cons_append,
      joinRaw_cons (by rintro text ⟨⟩)]
    rfl
  subst joined
  have sited := inner.beside.sited.behind_body opens
  have trimmed : RenderState.Splices (Bodies r again) parts [] (r.trimLine s)
    ((r.onto again).trimLine s') := h.state.trimLine
  have suffix : rest <:+ node :: .scope (some table) :: rest := ⟨[node, .scope (some table)], rfl⟩
  have below (left left' : Bool) (same : node.isBlock = true → left' = left) :
      Tracked r again parts node.isBlock (p.after node)
        (⟨own, rest, encoder', place, left, pass⟩ :: outer)
        (⟨own', joinRaw [] (more ++ behind), encoder', place', left', pass'⟩ :: outer')
        (more ++ behind) :=
    inner.goes ⟨rfl, rfl, rfl⟩ ⟨rfl, rfl, rfl⟩ suffix rfl
      ⟨rfl, inner.beside.plain, same, sited, pasted⟩
  have waits (left : Bool) : ∀ top ∈ (⟨own', joinRaw [] (more ++ behind), encoder', place', left,
      pass'⟩ :: outer' : List TableCursor).head?, top.rest = joinRaw [] (more ++ behind) := by
    rintro _ ⟨⟩
    rfl
  cases node with
  | block name chain behaviour args =>
    have same : (chain && settled') = (chain && settled) := by
      cases chain with
      | false => rfl
      | true => exact inner.beside.settled (chained rfl)
    by_cases skip : (chain && settled) = true
    · have kept : settled' = settled := inner.beside.settled
        (chained (Bool.and_eq_true_iff.mp skip).1)
      exact .of_step (congrArg some ((advance_block ..).trans (if_pos skip)))
        (.single (congrArg some ((advance_block ..).trans (if_pos (same.trans skip)))))
        ((below settled settled' fun _ => kept).alongside (waits settled') trimmed fun _ => trivial)
    · exact .of_step (congrArg some ((advance_block ..).trans (if_neg skip)))
        (.single (congrArg some ((advance_block ..).trans (if_neg (same ▸ skip)))))
        (Tracked.runBlock (fun settled => below settled settled fun _ => rfl) bodies admitted
          inner.beside.plain trimmed name behaviour args)
  | define name value =>
    cases value with
    | some => cases opens
    | none =>
      obtain ⟨parts, rfl⟩ := sets rfl
      have output : ((r.trimLine s).define name (.body table)).output = (r.trimLine s).output :=
        Rendering.output_onTop _ _
      refine .of_step rfl (.single rfl) ((below settled settled' (by rintro ⟨⟩)).alongside
        (waits settled') (trimmed.define name (.body bodies)) fun trims => ?_)
      rw [output]
      exact (h.line trims).trimLine_state
  | encode handler inside =>
    have plain : inside.Plain := inner.beside.sited.encoders handler inside List.mem_cons_self
    exact .of_step rfl (.single rfl) ((below settled settled' (by rintro ⟨⟩)).enter (waits settled')
      trimmed admitted bodies plain [] .none)
  | _ => cases opens

end Bodies

section Parts

/-- Raw text that was put off is whole where something is known of the line behind it. -/
theorem RenderState.Splices.whole {B : Nat → Nat → Prop}
    (h : RenderState.Splices B parts run s s') {trims : Bool}
    (orderly : s'.output.Orderly trims) (known : trims = true → p ≠ .anywhere)
    (line : trims = true → p.Holds s.output) (some : run ≠ []) : s'.output.Whole run := by
  cases trims with
  | false =>
    intro drops
    rw [orderly.whole rfl] at drops
    cases drops
  | true =>
    have output := h.output
    rw [Output.writeRun, if_neg (by simpa using some)] at output
    exact Output.whole_of_holds orderly.tidy some (known rfl)
      ((line rfl).congr output.kept output.blanks)

variable {file : String} {asRaw : Bool} {table : Nat} {inner : List Node}

/-- The cursor into a part, and that behind its place. -/
theorem Spliced.part
    (h : Spliced r again parts linked p (inner ++ more ++ behind) run ⟨cursor :: outer, s⟩
      ⟨cursor' :: outer', s'⟩)
    (front : Innermost r again parts linked p cursor cursor' outer outer' (inner ++ more) behind)
    (nodes : cursor.rest = .inline file asRaw :: .scope (some table) :: rest)
    (part : Pasted r.template.table again.table false (r.template.table table) inner)
    (pasted : Pasted r.template.table again.table false rest more) (admitted : r.Admitted)
    (orderly : s'.output.Orderly r.config.trimBlockLines) :
    Spliced r again (true :: parts) false .anywhere (inner ++ (more ++ behind)) run
      ⟨{ table, rest := r.template.table table, encoder := cursor.encoder } ::
        { cursor with rest, place := none } :: outer, s.openFrame []⟩ ⟨cursor' :: outer', s'⟩ := by
  have place := front.beside.sited
  rw [nodes] at place
  have inside : table ≠ 0 := place.later table (.tail _ List.mem_cons_self)
  obtain ⟨admits, sited⟩ := place.behind_place
  obtain ⟨quiet, line⟩ := Bool.and_eq_true_iff.mp admits
  have suffix : rest <:+ cursor.rest := ⟨[.inline file asRaw, .scope (some table)], nodes.symm⟩
  have ends : LinePosition.inLine.afterAll rest = p.afterAll cursor.rest := by
    rw [nodes]
    rfl
  have below : Tracked r again parts false .inLine ({ cursor with rest, place := none } :: outer)
      (cursor' :: outer') (more ++ behind) :=
    front.goes ⟨rfl, rfl, rfl⟩ ⟨rfl, rfl, rfl⟩ suffix ends
      ⟨front.beside.encoder, front.beside.plain, by rintro ⟨⟩, sited, pasted⟩
  have trimmed (trims : r.config.trimBlockLines = true) : p ≠ .anywhere ∧
      LinePosition.anywhere.afterAll (r.template.table table) = .inLine := by
    rw [trims] at line
    obtain ⟨before, last⟩ := Bool.and_eq_true_iff.mp line
    refine ⟨?_, beq_iff_eq.mp last⟩
    rintro rfl
    cases before
  refine ⟨.part below rfl quiet (fun trims => (trimmed trims).2)
    ⟨front.beside.encoder, front.beside.plain, by rintro ⟨⟩, admitted.sited table inside, part⟩,
    ?_, h.state.openPart, fun _ => trivial,
    fun _ _ _ => h.state.whole orderly (fun trims => (trimmed trims).1) h.line, by rintro ⟨⟩⟩
  rw [← List.append_assoc]
  exact h.left

/-- Where nothing stands on the line, a node that stays on it may be taken without trimming. -/
theorem advance_trimLine {node : Node} (nodes : cursor.rest = node :: rest)
    (solid : startsSolid cursor.rest = true) (line : LinePosition.lineStart.Holds s.output) :
    advance r cursor outer (r.trimLine s) = advance r cursor outer s := by
  obtain ⟨own, nodes', encoder, place, settled, pass⟩ := cursor
  dsimp only at nodes solid
  subst nodes
  unfold Rendering.trimLine
  split
  · cases node with
    | raw text =>
      have written : s.output.trimLine.writeRaw text = s.output.writeRaw text :=
        Output.writeRaw_trimLine line (beq_iff_eq.mp solid)
      exact congrArg (fun output => Machine.mk (⟨own, rest, encoder, place, settled, pass⟩ :: outer)
        { s with output }) written
    | output e =>
      have marked := Output.markValue_trimLine line
      have written : r.writeValue encoder (r.eval s e) { s with output := s.output.trimLine } =
          r.writeValue encoder (r.eval s e) s := by
        simp only [Rendering.writeValue, Output.writeValue, marked]
      exact congrArg (Machine.mk (⟨own, rest, encoder, place, settled, pass⟩ :: outer)) written
    | _ => cases solid
  · rfl

theorem isLeaf_of_startsSolid {node : Node} (solid : startsSolid (node :: rest) = true) :
    node.isLeaf = true := by
  cases node with
  | raw | output => rfl
  | _ => cases solid

/-- The place of a part, with the first node of the part where the line has to be kept. -/
theorem advances_place
    (h : Spliced r again parts linked p (inner ++ more ++ behind) run ⟨cursor :: outer, s⟩
      ⟨cursor' :: outer', s'⟩)
    (front : Innermost r again parts linked p cursor cursor' outer outer' (inner ++ more) behind)
    (nodes : cursor.rest = .inline file asRaw :: .scope (some table) :: rest)
    (part : Pasted r.template.table again.table false (r.template.table table) inner)
    (pasted : Pasted r.template.table again.table false rest more) (admitted : r.Admitted)
    (orderly : s.output.Orderly r.config.trimBlockLines)
    (orderly' : s'.output.Orderly r.config.trimBlockLines)
    (shallow : ∀ n, Reaches r ⟨cursor :: outer, s⟩ n →
      ∀ name, .passLimit name maxScopeDepth ∉ n.state.errors) :
    Advances r again ⟨cursor :: outer, s⟩ ⟨cursor' :: outer', s'⟩ := by
  have spliced := h.part front nodes part pasted admitted orderly'
  have sited := front.beside.sited
  rw [nodes] at sited
  obtain ⟨-, line⟩ := Bool.and_eq_true_iff.mp sited.behind_place.1
  obtain ⟨own, nodes', encoder, place, settled, pass⟩ := cursor
  dsimp only at nodes
  subst nodes
  let next : TableCursor := ⟨own, rest, encoder, none, settled, pass⟩
  let inside : TableCursor := { table, rest := r.template.table table, encoder }
  have steps : Relation.TransGen (fun m n => step r m = some n)
      ⟨⟨own, .inline file asRaw :: .scope (some table) :: rest, encoder, place, settled, pass⟩ ::
        outer, s⟩ ⟨inside :: next :: outer, (r.trimLine s).openFrame []⟩ :=
    .tail (.single rfl) rfl
  by_cases kept : r.trimLine s = s
  · rw [kept] at steps
    exact ⟨_, _, steps, .refl, _, _, _, _, _, spliced⟩
  have trims : r.config.trimBlockLines = true := by
    by_contra untrimmed
    exact kept (if_neg untrimmed)
  have holds := h.line trims
  rw [trims] at line
  have solid : p = .lineStart ∧ startsSolid inside.rest = true := by
    rcases Bool.or_eq_true_iff.mp (Bool.and_eq_true_iff.mp line).1 with inLine | start
    · rw [beq_iff_eq.mp inLine] at holds
      have same : r.trimLine s = { s with output := s.output.trimLine } := if_pos trims
      rw [Output.trimLine_of_kept holds] at same
      exact absurd same kept
    · obtain ⟨start, solid⟩ := Bool.and_eq_true_iff.mp start
      exact ⟨beq_iff_eq.mp start, solid⟩
  obtain ⟨rfl, solid⟩ := solid
  obtain ⟨node, left, front⟩ : ∃ node left, inside.rest = node :: left := by
    cases front : inside.rest with
    | nil =>
      rw [front] at solid
      cases solid
    | cons node left => exact ⟨node, left, rfl⟩
  have untrimmed : advance r inside (next :: outer) ((r.trimLine s).openFrame []) =
      advance r inside (next :: outer) (s.openFrame []) := by
    have same : (r.trimLine s).openFrame [] = r.trimLine (s.openFrame []) := by
      unfold Rendering.trimLine
      split <;> rfl
    rw [same]
    exact advance_trimLine front solid holds
  have single : node.isLeaf = true := by
    rw [front] at solid
    exact isLeaf_of_startsSolid solid
  have same : step r ⟨inside :: next :: outer, (r.trimLine s).openFrame []⟩ =
      step r ⟨inside :: next :: outer, s.openFrame []⟩ := congrArg some untrimmed
  refine .of_same steps same (advances_of_leaf spliced front single admitted orderly ?_)
  rw [← untrimmed]
  exact shallow _ (steps.to_reflTransGen.tail rfl)

end Parts

section Ends

section Leave

variable {links : Bool} {table copy : Nat} {encoder : Encoder} {pass pass' : Pass}
  (below : Tracked r again parts links .anywhere outer outer' behind)
  (waits : ∀ top ∈ outer'.head?, top.rest = joinRaw [] behind)
  (admitted : r.Admitted) (plain : encoder.Plain)
  (state : RenderState.Splices (Bodies r again) parts [] s s')
include below waits admitted plain state

/-- Another pass. -/
theorem Tracked.goOn (bodies : Bodies r again table copy) (alike : pass.Alike pass')
    (mode : PassMode) (values : List Value) :
    Alongside r again (Machine.again r table encoder pass mode values outer s)
      (Machine.again (r.onto again) copy encoder pass' mode values outer' s') := by
  obtain ⟨name, behaviour, args, first, mode₀⟩ := pass
  obtain ⟨name', behaviour', args', first', mode₀'⟩ := pass'
  obtain ⟨rfl, rfl, rfl, rfl, args⟩ := alike
  unfold Machine.again
  dsimp only
  obtain ⟨verdict, next⟩ := behaviour'.again first' values
  cases verdict with
  | discard => exact below.alongside waits state fun _ => trivial
  | _ => exact below.enter waits state admitted bodies plain _ (.some ⟨rfl, rfl, rfl, rfl, args⟩)

/-- More passes over a table, if it was walked in a pass. -/
theorem Tracked.leave {pass pass' : Option Pass} (alike : Option.Rel Pass.Alike pass pass')
    (tables : pass.isSome = true → Bodies r again table copy) :
    Alongside r again (leave r table encoder pass outer s)
      (leave (r.onto again) copy encoder pass' outer' s') := by
  cases alike with
  | none => exact below.alongside waits state fun _ => trivial
  | @some pass pass' alike =>
    have bodies := tables rfl
    have modes := alike.mode
    have runs := alike.run
    have names := alike.name
    have values : pass'.args.eval ((r.onto again).env s') = pass.args.eval (r.env s) := by
      rw [state.env]
      exact alike.values _
    have limit : (r.onto again).config = r.config := rfl
    unfold Machine.leave
    dsimp only
    rw [modes, runs, values, limit, names]
    cases pass.mode with
    | once => exact below.alongside waits state fun _ => trivial
    | counted left =>
      cases left with
      | zero => exact below.alongside waits state fun _ => trivial
      | succ left => exact below.goOn waits admitted plain state bodies alike _ _
    | indefinite left =>
      cases left with
      | zero => exact below.alongside waits (state.record _) fun _ => trivial
      | succ left =>
        dsimp only
        cases pass.args.eval (r.env s) with
        | error e => exact below.alongside waits (state.record e) fun _ => trivial
        | ok values => exact below.goOn waits admitted plain state bodies alike _ _

end Leave

theorem advance_nil (ended : cursor.rest = []) :
    advance r cursor outer s = close r cursor outer s := by
  unfold advance
  rw [ended]

/-- The end of a part. -/
theorem advances_close_part
    (h : Spliced r again (true :: parts) linked p more run ⟨cursor :: outer, s⟩ m')
    (ended : cursor.rest = []) (orderly : m'.state.output.Orderly r.config.trimBlockLines) :
    Advances r again ⟨cursor :: outer, s⟩ m' := by
  obtain ⟨cursors', s'⟩ := m'
  have tracked := h.cursors
  cases tracked with
  | @part _ _ _ _ cursor' _ outer' front behind below pass quiet ends beside =>
    have nothing : front = [] := by
      have pasted := beside.pasted
      rw [ended] at pasted
      cases pasted
      rfl
    subst nothing
    have line (trims : r.config.trimBlockLines = true) : LinePosition.inLine.Holds s.output := by
      have last := ends trims
      rw [ended] at last
      have line := h.line trims
      rwa [show p = .inLine from last] at line
    have trimmed : r.trimLine s.closeFrame = s.closeFrame := by
      unfold Rendering.trimLine
      split
      · rename_i trims
        have kept : s.closeFrame.output.trimLine = s.output := Output.trimLine_of_kept (line trims)
        rw [kept]
        rfl
      · rfl
    have step : step r ⟨cursor :: outer, s⟩ = some ⟨outer, s.closeFrame⟩ := by
      have inside : outer ≠ [] := by
        rintro rfl
        cases below
      have closed : close r cursor outer s = leave r cursor.table cursor.encoder cursor.pass outer
          (r.trimLine s.closeFrame) := if_neg (by simpa using inside)
      refine congrArg some ((advance_nil ended).trans ?_)
      rw [closed, trimmed, pass]
      rfl
    have state := h.state.closePart
    refine .of_step step .refl ⟨parts, false, .inLine, behind, run, below, h.left, state, line, ?_,
      by rintro ⟨⟩⟩
    exact fun _ _ _ => state.whole orderly (fun _ => by decide) line

/-- The end of any other scope. -/
theorem advances_close_own
    (h : Spliced r again (false :: parts) linked p more run ⟨cursor :: outer, s⟩ m')
    (ended : cursor.rest = []) (admitted : r.Admitted) :
    Advances r again ⟨cursor :: outer, s⟩ m' := by
  obtain ⟨cursors', s'⟩ := m'
  obtain ⟨cursor', outer', front, behind, rfl, rfl, inner⟩ := h.cursors.innermost
  have nothing : front ++ behind = [] := by
    generalize front ++ behind = more at h
    have tracked := h.cursors
    cases tracked with
    | own below waits pass tables beside =>
      have pasted := beside.pasted
      rw [ended] at pasted
      cases pasted
      rfl
  obtain ⟨cursor', s', reaches, h, inner⟩ := h.flush inner (by rw [nothing]; rintro text ⟨⟩)
  refine .of_reaches reaches ?_
  rw [nothing] at h
  have ended' : cursor'.rest = [] := h.left _ rfl
  have tracked := h.cursors
  cases tracked with
  | own below waits pass tables beside =>
    have closed := h.state.closeFrame
    by_cases outermost : outer = []
    · subst outermost
      cases below
      have step : step r ⟨[cursor], s⟩ = some ⟨[], s.closeFrame⟩ :=
        congrArg some (advance_nil ended)
      have step' : Machine.step (r.onto again) ⟨[cursor'], s'⟩ = some ⟨[], s'.closeFrame⟩ :=
        congrArg some (advance_nil ended')
      have none : Tracked r again [] false .anywhere [] [] [] := .nil
      exact .of_step step (.single step') (none.alongside waits closed fun _ => trivial)
    · have inside : outer' ≠ [] := by
        rintro rfl
        cases below
        exact outermost rfl
      have step : step r ⟨cursor :: outer, s⟩ = some (leave r cursor.table cursor.encoder
          cursor.pass outer (r.trimLine s.closeFrame)) :=
        congrArg some ((advance_nil ended).trans (if_neg (by simpa using outermost)))
      have step' : Machine.step (r.onto again) ⟨cursor' :: outer', s'⟩ =
          some (leave (r.onto again) cursor'.table cursor'.encoder cursor'.pass outer'
            ((r.onto again).trimLine s'.closeFrame)) :=
        congrArg some ((advance_nil ended').trans (if_neg (by simpa using inside)))
      rw [beside.encoder] at step'
      exact .of_step step (.single step')
        (below.leave waits admitted beside.plain closed.trimLine pass tables)

end Ends

/-- Every step is followed, maybe together with those behind it. -/
theorem advances (h : Spliced r again parts linked p more run ⟨cursor :: outer, s⟩ m')
    (admitted : r.Admitted) (orderly : s.output.Orderly r.config.trimBlockLines)
    (orderly' : m'.state.output.Orderly r.config.trimBlockLines)
    (shallow : ∀ n, Reaches r ⟨cursor :: outer, s⟩ n →
      ∀ name, .passLimit name maxScopeDepth ∉ n.state.errors) :
    Advances r again ⟨cursor :: outer, s⟩ m' := by
  cases nodes : cursor.rest with
  | nil =>
    match parts with
    | true :: parts => exact advances_close_part h nodes orderly'
    | false :: parts => exact advances_close_own h nodes admitted
    | [] => nomatch h.cursors
  | cons node rest =>
    by_cases single : node.isLeaf = true
    · exact advances_of_leaf h nodes single admitted orderly (shallow _ (.single rfl))
    obtain ⟨cursors', s'⟩ := m'
    obtain ⟨cursor', outer', front, behind, rfl, rfl, inner⟩ := h.cursors.innermost
    have pasted := inner.beside.pasted
    rw [nodes] at pasted
    cases pasted with
    | raw => exact absurd rfl single
    | leaf leaf => exact absurd leaf single
    | place part pasted =>
      exact advances_place h inner nodes part pasted admitted orderly orderly' shallow
    | @body _ _ table copy inside rest more opens chained same inside' pasted =>
      have later : table ≠ 0 := by
        have sited := inner.beside.sited
        rw [nodes] at sited
        exact sited.later table (.tail _ List.mem_cons_self)
      have copied : again.table copy = joinRaw [] inside := by
        rw [same, addNodes_nil inside'.nonempty]
      exact advances_body h inner nodes opens chained ⟨later, inside, inside', copied⟩ pasted
        admitted

end Stencil
