import Stencil.Proofs.SplicedCursors

/-!
# Steps through spliced parts

Every step of a template with spliced parts is followed on the other side, where the parts are
written out in place: raw text is put off until the text behind it is known, the way into a part and
out of it takes no step there, and everything else takes the same step.
-/

namespace Stencil

open Machine
open Output (Coincides)

/-- A machine of a template with spliced parts next to one of a template with the parts written out,
which has raw text left to write. -/
structure Spliced (r : Rendering) (again : Template) (parts : List Bool) (linked : Bool)
    (p : LinePosition) (more : List Node) (run : List Char) (m m' : Machine) : Prop where
  cursors : Tracked r again parts linked p m.cursors m'.cursors more
  left : ∀ top ∈ m'.cursors.head?, top.rest = joinRaw run more
  state : RenderState.Splices (Bodies r again) parts run m.state m'.state
  line : r.config.trimBlockLines = true → p.Holds m.state.output
  whole : ∀ top ∈ m.cursors.head?, (∃ text rest, top.rest = .raw text :: rest) → run ≠ [] →
    m'.state.output.Whole run
  ended : m'.cursors = [] → run = []

/-- Two such machines, whatever is left. -/
def Alongside (r : Rendering) (again : Template) (m m' : Machine) : Prop :=
  ∃ parts linked p more run, Spliced r again parts linked p more run m m'

/-- From two machines others are reached side by side, with a step at least on the first side. -/
def Advances (r : Rendering) (again : Template) (m m' : Machine) : Prop :=
  ∃ n n', Relation.TransGen (fun m n => step r m = some n) m n ∧ Reaches (r.onto again) m' n' ∧
    Alongside r again n n'

variable {r : Rendering} {again : Template} {parts : List Bool} {linked : Bool} {p : LinePosition}
  {more front behind rest : List Node} {run : List Char} {m m' n n' : Machine}
  {cursor cursor' : TableCursor} {outer outer' : List TableCursor} {s s' : RenderState}

theorem joinRaw_of_stops (stops : ∀ text, more.head? ≠ some (.raw text)) (run : List Char) :
    joinRaw run more = rawNode run ++ joinRaw [] more := by
  cases more with
  | nil => exact (List.append_nil _).symm
  | cons node more =>
    have other : ∀ text, node ≠ .raw text := fun text eq => stops text (congrArg some eq)
    rw [joinRaw_cons other, joinRaw_cons other]
    rfl

namespace Advances

/-- The other side may go first. -/
theorem of_reaches (reaches : Reaches (r.onto again) m' n') (h : Advances r again m n') :
    Advances r again m m' := by
  obtain ⟨n, last, steps, behind, rest⟩ := h
  exact ⟨n, last, steps, reaches.trans behind, rest⟩

/-- Steps to a machine that goes on like one whose advance is known. -/
theorem of_same (steps : Relation.TransGen (fun m n => step r m = some n) m n)
    {known : Machine} (same : step r n = step r known) (h : Advances r again known m') :
    Advances r again m m' := by
  obtain ⟨last, last', more, reaches, alongside⟩ := h
  obtain ⟨next, first, rest⟩ := Relation.TransGen.head'_iff.mp more
  exact ⟨last, last', (steps.tail (same.trans first)).trans_left rest, reaches, alongside⟩

/-- A step on the first side, and maybe some on the other. -/
theorem of_step (step : step r m = some n) (reaches : Reaches (r.onto again) m' n')
    (h : Alongside r again n n') : Advances r again m m' :=
  ⟨n, n', .single step, reaches, h⟩

end Advances

/-- The innermost cursors have gone on. -/
theorem Innermost.spliced {links : Bool} {q : LinePosition} {next next' : TableCursor}
    {left : List Node} {t t' : RenderState}
    (h : Innermost r again parts linked p cursor cursor' outer outer' front behind)
    (goes : cursor.Goes next) (goes' : cursor'.Goes next') (suffix : next.rest <:+ cursor.rest)
    (ends : q.afterAll next.rest = p.afterAll cursor.rest)
    (beside : Beside r again links q next next' left)
    (rest : next'.rest = joinRaw run (left ++ behind))
    (state : RenderState.Splices (Bodies r again) parts run t t')
    (line : r.config.trimBlockLines = true → q.Holds t.output)
    (whole : (∃ text rest, next.rest = .raw text :: rest) → run ≠ [] → t'.output.Whole run) :
    Spliced r again parts links q (left ++ behind) run ⟨next :: outer, t⟩
      ⟨next' :: outer', t'⟩ where
  cursors := h.goes goes goes' suffix ends beside
  left := by
    rintro _ ⟨⟩
    exact rest
  state := state
  line := line
  whole := by
    rintro _ ⟨⟩
    exact whole
  ended := by rintro ⟨⟩

/-- The cursor on the other side may go on within its table. -/
theorem Innermost.goes_right {next' : TableCursor}
    (h : Innermost r again parts linked p cursor cursor' outer outer' front behind)
    (goes : cursor'.Goes next') (settled : next'.settled = cursor'.settled) :
    Innermost r again parts linked p cursor next' outer outer' front behind where
  beside := ⟨goes.encoder.trans h.beside.encoder, h.beside.plain,
    fun links => settled.trans (h.beside.settled links), h.beside.sited, h.beside.pasted⟩
  quiet := h.quiet
  goes goesLeft more := h.goes goesLeft
    ⟨more.table.trans goes.table, more.encoder.trans goes.encoder, more.pass.trans goes.pass⟩

/-- Raw text that was put off is written. -/
theorem Spliced.flush
    (h : Spliced r again parts linked p (front ++ behind) run ⟨cursor :: outer, s⟩
      ⟨cursor' :: outer', s'⟩)
    (inner : Innermost r again parts linked p cursor cursor' outer outer' front behind)
    (stops : ∀ text, (front ++ behind).head? ≠ some (.raw text)) : ∃ next' t',
      Reaches (r.onto again) ⟨cursor' :: outer', s'⟩ ⟨next' :: outer', t'⟩ ∧
      Spliced r again parts linked p (front ++ behind) [] ⟨cursor :: outer, s⟩
        ⟨next' :: outer', t'⟩ ∧
      Innermost r again parts linked p cursor next' outer outer' front behind := by
  by_cases empty : run = []
  · subst empty
    exact ⟨cursor', s', .refl, h, inner⟩
  obtain ⟨table, nodes, encoder, place, settled, pass⟩ := cursor'
  have left : nodes = .raw (String.ofList run) :: joinRaw [] (front ++ behind) := by
    have left := h.left _ rfl
    rw [joinRaw_of_stops stops, rawNode, if_neg (by simpa using empty)] at left
    exact left
  subst left
  have written : s'.output.writeRun run = s'.output.writeRaw (String.ofList run) :=
    if_neg (by simpa using empty)
  have output := h.state.output
  rw [written] at output
  let next' : TableCursor := ⟨table, joinRaw [] (front ++ behind), encoder, place, settled, pass⟩
  have inner' : Innermost r again parts linked p cursor next' outer outer' front behind :=
    inner.goes_right ⟨rfl, rfl, rfl⟩ rfl
  refine ⟨next', s'.writeRaw (String.ofList run), reaches_of_advance .refl, ?_, inner'⟩
  exact inner'.spliced ⟨rfl, rfl, rfl⟩ ⟨rfl, rfl, rfl⟩ (List.suffix_refl _) rfl inner'.beside rfl
    ⟨h.state.frames, h.state.errors, output⟩ h.line fun _ some => absurd rfl some

/-- Raw text that was put off goes on with more. -/
theorem coincides_writeRun {o o' : Output} {text : String} (some : text ≠ "")
    (h : Coincides o (o'.writeRun run)) (whole : run ≠ [] → o'.Whole run) :
    Coincides (o.writeRaw text) (o'.writeRun (run ++ text.toList)) := by
  have nonempty : text.toList ≠ [] := fun eq => some (String.toList_eq_nil_iff.mp eq)
  have writes {run : List Char} (some : run ≠ []) :
      o'.writeRun run = o'.writeRaw (String.ofList run) := if_neg (by simpa using some)
  rw [writes (by simp [nonempty])]
  have written := h.writeRaw text
  by_cases empty : run = []
  · subst empty
    simpa [Output.writeRun] using written
  · rw [writes empty] at written
    have joined := Output.coincides_writeRaw (whole empty) text.toList
    rw [String.ofList_toList] at joined
    exact written.trans joined

section Raw

variable {text : String} {bare : Bool}
  (h : Spliced r again parts linked p (Node.rawPieces bare text ++ front ++ behind) run
    ⟨cursor :: outer, s⟩ ⟨cursor' :: outer', s'⟩)
  (inner : Innermost r again parts linked p cursor cursor' outer outer'
    (Node.rawPieces bare text ++ front) behind)
  (nodes : cursor.rest = .raw text :: rest)
  (pasted : Pasted r.template.table again.table false rest front)
  (orderly : s.output.Orderly r.config.trimBlockLines)
include h inner nodes pasted orderly

/-- Raw text that is read as it is. -/
theorem advances_raw_whole (some : text ≠ "")
    (pieces : Node.rawPieces bare text = [.raw text]) :
    Advances r again ⟨cursor :: outer, s⟩ ⟨cursor' :: outer', s'⟩ := by
  rw [pieces] at h
  obtain ⟨table, left, encoder, place, settled, pass⟩ := cursor
  dsimp only at nodes
  subst nodes
  have beside : Beside r again false (p.after (.raw text))
      ⟨table, rest, encoder, place, settled, pass⟩ cursor' front :=
    ⟨inner.beside.encoder, inner.beside.plain, by rintro ⟨⟩, inner.beside.sited.behind_leaf rfl,
      pasted⟩
  have next : Spliced r again parts false (p.after (.raw text)) (front ++ behind)
      (run ++ text.toList) ⟨⟨table, rest, encoder, place, settled, pass⟩ :: outer, s.writeRaw text⟩
      ⟨cursor' :: outer', s'⟩ := by
    refine inner.spliced ⟨rfl, rfl, rfl⟩ ⟨rfl, rfl, rfl⟩ (List.suffix_cons _ _) rfl beside
      (h.left _ rfl) ?_ (fun trims => (h.line trims).writeRaw orderly.tidy text) ?_
    · exact ⟨h.state.frames, h.state.errors, coincides_writeRun some h.state.output
        (h.whole _ rfl ⟨_, _, rfl⟩)⟩
    · rintro ⟨more, behind, rfl⟩
      exact absurd rfl ((List.isChain_cons_cons.mp inner.beside.sited.apart).1 _ _ rfl)
  exact .of_step rfl .refl ⟨_, _, _, _, _, next⟩

/-- No raw text at all, where nothing is trimmed. -/
theorem advances_raw_empty (none : text = "") :
    Advances r again ⟨cursor :: outer, s⟩ ⟨cursor' :: outer', s'⟩ := by
  subst none
  have pieces : Node.rawPieces bare "" = [] := if_pos rfl
  rw [pieces] at h
  obtain ⟨table, left, encoder, place, settled, pass⟩ := cursor
  dsimp only at nodes
  subst nodes
  have untrimmed : r.config.trimBlockLines = false := by
    have admits := inner.beside.sited.admits
    rw [Template.admits] at admits
    simpa using (Bool.and_eq_true_iff.mp admits).1
  have beside : Beside r again false (p.after (.raw ""))
      ⟨table, rest, encoder, place, settled, pass⟩ cursor' front :=
    ⟨inner.beside.encoder, inner.beside.plain, by rintro ⟨⟩, inner.beside.sited.behind_leaf rfl,
      pasted⟩
  have next : Spliced r again parts false (p.after (.raw "")) (front ++ behind) run
      ⟨⟨table, rest, encoder, place, settled, pass⟩ :: outer, s.writeRaw ""⟩
      ⟨cursor' :: outer', s'⟩ := by
    refine inner.spliced ⟨rfl, rfl, rfl⟩ ⟨rfl, rfl, rfl⟩ (List.suffix_cons _ _) rfl beside
      (h.left _ rfl) ⟨h.state.frames, h.state.errors, ?_⟩ ?_ fun _ => h.whole _ rfl ⟨_, _, rfl⟩
    · have nothing := Output.coincides_writeRaw_empty orderly.tidy (orderly.whole untrimmed)
      exact nothing.symm.trans h.state.output
    · intro trims
      rw [untrimmed] at trims
      cases trims
  exact .of_step rfl .refl ⟨_, _, _, _, _, next⟩

/-- Raw text whose first character is read as an expression. -/
theorem advances_raw_bare (texts : ∀ text, r.config.formatters.string text = text) {c : Char}
    {left : List Char} (first : text.toList = c :: left) (goesOn : extendsTag c = true)
    (pieces : Node.rawPieces bare text = .output (.value (.string (String.ofList [c]))) ::
      (if left.isEmpty then [] else [.raw (String.ofList left)])) :
    Advances r again ⟨cursor :: outer, s⟩ ⟨cursor' :: outer', s'⟩ := by
  rw [pieces] at h inner
  obtain ⟨cursor', s', reaches, h, inner⟩ := h.flush inner (by rintro text ⟨⟩)
  refine .of_reaches reaches ?_
  obtain ⟨table, nodes', encoder, place, settled, pass⟩ := cursor
  dsimp only at nodes
  subst nodes
  obtain ⟨table', nodes, encoder', place', settled', pass'⟩ := cursor'
  have same : encoder' = encoder := inner.beside.encoder
  subst same
  let value : Node := .output (.value (.string (String.ofList [c])))
  have joined : nodes = value :: joinRaw left (front ++ behind) := by
    have nodes : nodes = _ := h.left _ rfl
    rw [nodes, List.append_assoc, List.cons_append]
    rw [joinRaw_cons (by rintro text ⟨⟩)]
    cases left with
    | nil => rfl
    | cons => simp [joinRaw, rawNode, value]
  subst joined
  let o := s'.output.writeValue (String.ofList [c]) encoder'
  let next : TableCursor := ⟨table, rest, encoder', place, settled, pass⟩
  let next' : TableCursor :=
    ⟨table', joinRaw left (front ++ behind), encoder', place', settled', pass'⟩
  have step' : step (r.onto again)
      ⟨⟨table', value :: joinRaw left (front ++ behind), encoder', place', settled', pass'⟩ ::
        outer', s'⟩ = some ⟨next' :: outer', { s' with output := o }⟩ := by
    have written : (r.onto again).writeValue encoder' (.string (String.ofList [c])) s' =
        { s' with output := o } := by
      have formatted : (r.onto again).config.formatters.string (String.ofList [c]) =
          String.ofList [c] := texts _
      simp only [Rendering.writeValue, Formatters.format, formatted]
      rfl
    exact congrArg (fun s => some (Machine.mk (next' :: outer') s)) written
  have output : Coincides (s.output.writeRaw text) (o.writeRun left) := by
    have whole : text = String.ofList (c :: left) := by rw [← first, String.ofList_toList]
    have bare := Output.coincides_bare goesOn inner.beside.plain s'.output left
    rw [← whole] at bare
    have written := (h.state.output.writeRaw text).trans bare
    cases left with
    | nil => exact written.trans (Output.coincides_writeRaw_empty (.writeValue _ _ _) rfl).symm
    | cons => exact written
  have beside : Beside r again false (p.after (.raw text)) next next' front :=
    ⟨rfl, inner.beside.plain, by rintro ⟨⟩, inner.beside.sited.behind_leaf rfl, pasted⟩
  have spliced : Spliced r again parts false (p.after (.raw text)) (front ++ behind) left
      ⟨next :: outer, s.writeRaw text⟩ ⟨next' :: outer', { s' with output := o }⟩ := by
    refine inner.spliced ⟨rfl, rfl, rfl⟩ ⟨rfl, rfl, rfl⟩ (List.suffix_cons _ _) rfl beside rfl
      ⟨h.state.frames, h.state.errors, output⟩
      (fun trims => (h.line trims).writeRaw orderly.tidy text) ?_
    rintro ⟨more, behind, rfl⟩
    exact absurd rfl ((List.isChain_cons_cons.mp inner.beside.sited.apart).1 _ _ rfl)
  exact .of_step rfl (.single step') ⟨_, _, _, _, _, spliced⟩

/-- Raw text. -/
theorem advances_raw (texts : ∀ text, r.config.formatters.string text = text) :
    Advances r again ⟨cursor :: outer, s⟩ ⟨cursor' :: outer', s'⟩ := by
  by_cases none : text = ""
  · exact advances_raw_empty h inner nodes pasted orderly none
  have whole : Node.rawPieces bare text = Node.rereadRaw bare text := if_neg none
  cases first : text.toList with
  | nil => exact absurd (String.toList_eq_nil_iff.mp first) none
  | cons c left =>
    rw [Node.rereadRaw, first] at whole
    by_cases separate : (bare && extendsTag c) = true
    · have goesOn : extendsTag c = true := (Bool.and_eq_true_iff.mp separate).2
      exact advances_raw_bare h inner nodes pasted orderly texts first goesOn
        (whole.trans (if_pos separate))
    · exact advances_raw_whole h inner nodes pasted orderly none (whole.trans (if_neg separate))

end Raw

/-- What a rendering with spliced parts relies on. -/
structure Rendering.Admitted (r : Rendering) : Prop where
  texts : ∀ text, r.config.formatters.string text = text
  sited : ∀ table ≠ 0, Sited r.template r.config.trimBlockLines .anywhere (r.template.table table)

/-- Machines with no raw text put off. -/
theorem Tracked.alongside {outer outer' : List TableCursor}
    (h : Tracked r again parts linked p outer outer' behind)
    (waits : ∀ top ∈ outer'.head?, top.rest = joinRaw [] behind)
    (state : RenderState.Splices (Bodies r again) parts [] s s')
    (line : r.config.trimBlockLines = true → p.Holds s.output) :
    Alongside r again ⟨outer, s⟩ ⟨outer', s'⟩ :=
  ⟨parts, linked, p, behind, [], h, waits, state, line, fun _ _ _ some => absurd rfl some,
    fun _ => rfl⟩

/-- A scope that is opened on both sides. -/
theorem Tracked.enter {links : Bool} {outer outer' : List TableCursor}
    (below : Tracked r again parts links .anywhere outer outer' behind)
    (waits : ∀ top ∈ outer'.head?, top.rest = joinRaw [] behind)
    (state : RenderState.Splices (Bodies r again) parts [] s s') (admitted : r.Admitted)
    {table copy : Nat} (bodies : Bodies r again table copy) {encoder : Encoder}
    (plain : encoder.Plain) (bindings : Bindings) {pass pass' : Option Pass}
    (alike : Option.Rel Pass.Alike pass pass') :
    Alongside r again (enter r table encoder bindings pass outer s)
      (enter (r.onto again) copy encoder bindings pass' outer' s') := by
  obtain ⟨inside, more, pasted, copied⟩ := bodies
  have beside : Beside r again false .anywhere
      { table, rest := r.template.table table, encoder, pass }
      { table := copy, rest := again.table copy, encoder, pass := pass' } more :=
    ⟨rfl, plain, by rintro ⟨⟩, admitted.sited table inside, pasted⟩
  have inside : Tracked r again (false :: parts) false .anywhere (_ :: outer) (_ :: outer') more :=
    .own below waits alike (fun _ => ⟨inside, more, pasted, copied⟩) beside
  refine inside.alongside ?_ (state.openFrame bindings) fun _ => trivial
  rintro _ ⟨⟩
  exact copied

section Leaf

variable {node : Node} {encoder : Encoder}

/-- A node that stands for itself opens a scope on both sides, or none. -/
theorem RenderState.Splices.walkNode {B : Nat → Nat → Prop}
    (h : RenderState.Splices B parts [] s s') (single : node.isLeaf = true)
    (other : ∀ text, node ≠ .raw text)
    (sets : node.setsFrame = true → ∃ below, parts = false :: below)
    (shallow : ∀ name, bodyOf? s node = none → .passLimit name maxScopeDepth ∉
      (r.walkNode (fun _ _ _ s => s) encoder node s).errors) :
    (∃ table copy, bodyOf? s node = some table ∧ bodyOf? s' node.reread = some copy ∧
      B table copy) ∨
    (bodyOf? s node = none ∧ bodyOf? s' node.reread = none ∧
      RenderState.Splices B parts [] (r.walkNode (fun _ _ _ s => s) encoder node s)
        ((r.onto again).walkNode (fun _ _ _ s => s) encoder node.reread s')) := by
  have written {value value' : Value} (same : value' = value) :
      RenderState.Splices B parts [] (r.writeValue encoder value s)
        ((r.onto again).writeValue encoder value' s') := by
    rw [same]
    exact h.writeValue encoder value
  cases node with
  | raw text => exact absurd rfl (other text)
  | output e => exact .inr ⟨rfl, rfl, written (h.eval e)⟩
  | declare name constant value =>
    obtain ⟨below, rfl⟩ := sets rfl
    exact .inr ⟨rfl, rfl, h.trimLine.declare name value⟩
  | assign v op value =>
    obtain ⟨below, rfl⟩ := sets rfl
    exact .inr ⟨rfl, rfl, h.trimLine.assignNode v op value⟩
  | define name value =>
    obtain ⟨below, rfl⟩ := sets rfl
    cases value with
    | none => cases single
    | some e =>
      exact .inr ⟨rfl, rfl, h.trimLine.define name (.value fun env => Expr.eval_reread env e)⟩
  | evaluate name default =>
    have found := h.definition? name
    have deep := h.frames.length_le
    simp only [Rendering.walkNode, Rendering.evaluate, bodyOf?, Node.reread] at shallow ⊢
    generalize s.definition? name = d at found shallow
    generalize s'.definition? name = d' at found
    cases found with
    | none =>
      refine .inr ⟨rfl, rfl, written ?_⟩
      cases default with
      | none => rfl
      | some e => exact h.eval e
    | some alike =>
      cases alike with
      | value values =>
        refine .inr ⟨rfl, rfl, written ?_⟩
        rw [Rendering.eval, Rendering.eval, h.env, values]
      | @body table copy same =>
        by_cases limit : maxScopeDepth ≤ s.frames.length
        · dsimp only at shallow
          rw [if_pos limit, if_pos limit] at shallow
          exact absurd List.mem_cons_self (shallow name rfl)
        · dsimp only
          rw [if_neg limit, if_neg (fun more => limit (Nat.le_trans more deep))]
          exact .inl ⟨table, copy, rfl, rfl, same⟩
  | block | inline | encode | scope => cases single

theorem LinePosition.Holds.trimLine_state (h : p.Holds s.output) :
    p.Holds (r.trimLine s).output := by
  unfold Rendering.trimLine
  split
  · exact h.trimLine
  · exact h

/-- Where the line stands behind a node that opens no scope. -/
theorem LinePosition.Holds.walkNode (h : p.Holds s.output) (single : node.isLeaf = true)
    (other : ∀ text, node ≠ .raw text) :
    (p.after node).Holds (r.walkNode (fun _ _ _ s => s) encoder node s).output := by
  cases node with
  | raw text => exact absurd rfl (other text)
  | output e =>
    show (r.writeValue encoder (r.eval s e) s).output.kept = true
    unfold Rendering.writeValue
    split <;> rfl
  | declare name constant value =>
    rw [Rendering.walkNode, Rendering.output_declare]
    exact h.trimLine_state
  | assign v op value =>
    rw [Rendering.walkNode, Rendering.output_assign]
    exact h.trimLine_state
  | define name value =>
    cases value with
    | none => cases single
    | some e =>
      have same : (r.walkNode (fun _ _ _ s => s) encoder (.define name (some e)) s).output =
          (r.trimLine s).output := Rendering.output_onTop _ _
      rw [same]
      exact h.trimLine_state
  | evaluate => exact .anywhere _
  | block | inline | encode | scope => cases single

theorem isLeaf_reread (single : node.isLeaf = true) : node.reread.isLeaf = true := by
  cases node with
  | define name value =>
    cases value with
    | none => cases single
    | some => rfl
  | block | inline | encode | scope => cases single
  | _ => rfl

variable {table : Nat} {place : Option String} {settled : Bool} {pass : Option Pass}

/-- A node that puts out the body of a definition. -/
theorem advance_opens (single : node.isLeaf = true) {body : Nat}
    (opens : bodyOf? s node = some body) :
    advance r ⟨table, node :: rest, encoder, place, settled, pass⟩ outer s =
      enter r body encoder [] none (⟨table, rest, encoder, place, settled, pass⟩ :: outer) s := by
  cases node with
  | evaluate =>
    simp only [advance, opens]
    rfl
  | block | inline | encode | scope => cases single
  | _ => cases opens

/-- Any other node that stands for itself. -/
theorem advance_single (single : node.isLeaf = true) (flat : bodyOf? s node = none) :
    advance r ⟨table, node :: rest, encoder, place, settled, pass⟩ outer s =
      ⟨⟨table, rest, encoder, place, settled, pass⟩ :: outer,
        r.walkNode (fun _ _ _ s => s) encoder node s⟩ := by
  cases node with
  | evaluate =>
    simp only [advance, flat]
    rfl
  | define name value =>
    cases value with
    | none => cases single
    | some => rfl
  | block | inline | encode | scope => cases single
  | _ => rfl

/-- The frame of a part is not changed. -/
theorem Tracked.owns {cursors' : List TableCursor}
    (h : Tracked r again parts linked p (cursor :: outer) cursors' more)
    (nodes : cursor.rest = node :: rest) (sets : node.setsFrame = true) :
    ∃ below, parts = false :: below := by
  cases h with
  | own => exact ⟨_, rfl⟩
  | part below pass quiet =>
    rw [nodes, List.all_cons, sets] at quiet
    cases quiet

/-- A node that stands for itself, but for raw text. -/
theorem advances_leaf
    (h : Spliced r again parts linked p (node.reread :: more ++ behind) run ⟨cursor :: outer, s⟩
      ⟨cursor' :: outer', s'⟩)
    (inner : Innermost r again parts linked p cursor cursor' outer outer' (node.reread :: more)
      behind)
    (nodes : cursor.rest = node :: rest) (single : node.isLeaf = true)
    (other : ∀ text, node ≠ .raw text)
    (pasted : Pasted r.template.table again.table false rest more) (admitted : r.Admitted)
    (shallow : ∀ name, .passLimit name maxScopeDepth ∉ (advance r cursor outer s).state.errors) :
    Advances r again ⟨cursor :: outer, s⟩ ⟨cursor' :: outer', s'⟩ := by
  have stops : ∀ text, (node.reread :: more ++ behind).head? ≠ some (.raw text) := fun text eq =>
    Node.reread_ne_raw other text (Option.some.inj eq)
  obtain ⟨cursor', s', reaches, h, inner⟩ := h.flush inner stops
  refine .of_reaches reaches ?_
  have sets := h.cursors.owns nodes
  obtain ⟨table, nodes', encoder, place, settled, pass⟩ := cursor
  dsimp only at nodes
  subst nodes
  obtain ⟨table', nodes, encoder', place', settled', pass'⟩ := cursor'
  have same : encoder' = encoder := inner.beside.encoder
  subst same
  have joined : nodes = node.reread :: joinRaw [] (more ++ behind) := by
    have nodes : nodes = _ := h.left _ rfl
    rw [nodes, List.cons_append, joinRaw_cons (Node.reread_ne_raw other)]
    rfl
  subst joined
  let next : TableCursor := ⟨table, rest, encoder', place, settled, pass⟩
  let next' : TableCursor :=
    ⟨table', joinRaw [] (more ++ behind), encoder', place', settled', pass'⟩
  have beside : Beside r again false (p.after node) next next' more :=
    ⟨rfl, inner.beside.plain, by rintro ⟨⟩, inner.beside.sited.behind_leaf single, pasted⟩
  have errors : ∀ name, bodyOf? s node = none → .passLimit name maxScopeDepth ∉
      (r.walkNode (fun _ _ _ s => s) encoder' node s).errors := by
    intro name flat
    have shallow := shallow name
    rwa [advance_single single flat] at shallow
  rcases h.state.walkNode single other sets errors with
    ⟨body, copy, opens, opens', bodies⟩ | ⟨flat, flat', state⟩
  · obtain ⟨name, default, rfl, -⟩ := exists_of_bodyOf? opens
    have below : Tracked r again parts false .anywhere (next :: outer) (next' :: outer')
        (more ++ behind) :=
      inner.goes ⟨rfl, rfl, rfl⟩ ⟨rfl, rfl, rfl⟩ (List.suffix_cons _ _) rfl beside
    have waits : ∀ top ∈ (next' :: outer').head?, top.rest = joinRaw [] (more ++ behind) := by
      rintro _ ⟨⟩
      rfl
    exact .of_step (congrArg some (advance_opens single opens))
      (.single (congrArg some (advance_opens (isLeaf_reread single) opens')))
      (below.enter waits h.state admitted bodies inner.beside.plain [] .none)
  · have spliced : Spliced r again parts false (p.after node) (more ++ behind) []
        ⟨next :: outer, r.walkNode (fun _ _ _ s => s) encoder' node s⟩
        ⟨next' :: outer', (r.onto again).walkNode (fun _ _ _ s => s) encoder' node.reread s'⟩ :=
      inner.spliced ⟨rfl, rfl, rfl⟩ ⟨rfl, rfl, rfl⟩ (List.suffix_cons _ _) rfl beside rfl state
        (fun trims => (h.line trims).walkNode single other) (fun _ some => absurd rfl some)
    exact .of_step (congrArg some (advance_single single flat))
      (.single (congrArg some (advance_single (isLeaf_reread single) flat')))
      ⟨_, _, _, _, _, spliced⟩

/-- A node that stands for itself. -/
theorem advances_of_leaf
    (h : Spliced r again parts linked p more run ⟨cursor :: outer, s⟩ m')
    (nodes : cursor.rest = node :: rest) (single : node.isLeaf = true) (admitted : r.Admitted)
    (orderly : s.output.Orderly r.config.trimBlockLines)
    (shallow : ∀ name, .passLimit name maxScopeDepth ∉ (advance r cursor outer s).state.errors) :
    Advances r again ⟨cursor :: outer, s⟩ m' := by
  obtain ⟨cursors', s'⟩ := m'
  obtain ⟨cursor', outer', front, behind, rfl, rfl, inner⟩ := h.cursors.innermost
  have pasted := inner.beside.pasted
  rw [nodes] at pasted
  cases pasted with
  | raw bare pasted => exact advances_raw h inner nodes pasted orderly admitted.texts
  | leaf _ other pasted => exact advances_leaf h inner nodes single other pasted admitted shallow
  | place => cases single
  | body opens =>
    rw [Node.hasBody_of_isLeaf single] at opens
    cases opens

end Leaf

end Stencil
