import Stencil.Proofs.NestedScopes

/-!
# Constants stay constant

An assignment writes to the innermost frame that has its name, whether the name is that of a
variable there or that of a constant. As long as the assignment does not reach out of an evaluation,
this is the frame of the variable that the text refers to, so no constant is changed
(`Template.constants_stay`). The body of a definition is walked where it is evaluated: there the
frame may be that of another scope, which has a constant of the same name.
-/

namespace Stencil

/-- An assignment writes to the first frame that has the name. -/
theorem eq_modify_of_assignIn {name : String} {value : Value} {frames frames' : List Frame}
    (h : RenderState.assignIn name value frames = some frames') :
    frames' = frames.modify (frames.findIdx (·.locals.has name))
      (fun frame => { frame with locals := frame.locals.insert name value }) := by
  induction frames generalizing frames' with
  | nil => cases h
  | cons frame outer ih =>
    simp only [RenderState.assignIn] at h
    split at h
    · rename_i has
      cases h
      simp [List.findIdx_cons, has]
    · rename_i lacks
      obtain ⟨more, made, rfl⟩ := Option.map_eq_some_iff.mp h
      simp [List.findIdx_cons, lacks, ← ih made]

namespace Machine

variable {r : Rendering} {cursor : TableCursor} {outer : List TableCursor} {s : RenderState}
  {m : Machine}

/-- The number of the frame that an assignment writes to, from the innermost. -/
def written (name : String) (m : Machine) : Nat := m.state.frames.findIdx (·.locals.has name)

/-- An evaluation is under way between the innermost scope and the frame that an assignment of a
name writes to. -/
def AssignsOut (t : Template) (name : String) (m : Machine) : Prop :=
  ∃ site ∈ m.cursors.tail.take (m.written name), site.Evaluates t

/-- The value of a name in the frame that has so many others further out. -/
def stored? (depth : Nat) (name : String) (frames : List Frame) : Option Value :=
  (frames.rtake (depth + 1)).head?.bind (·.locals.find? name)

namespace Acts

/-- Only the innermost scope is left by a step. -/
theorem keeps_outer (acts : Acts r cursor outer s m) : ∃ upper, m.cursors = upper ++ outer := by
  cases acts with
  | on | declare | assign | defineValue | defineBody => exact ⟨[_], rfl⟩
  | block | encode | place | jump => exact ⟨[_, _], rfl⟩
  | again => exact ⟨[_], rfl⟩
  | out => exact ⟨[], rfl⟩

/-- Before the end of its table a cursor moves along the table. -/
theorem moves (acts : Acts r cursor outer s m) (more : cursor.rest ≠ []) :
    ∃ upper cursor' passed, m.cursors = upper ++ cursor' :: outer ∧
      cursor'.table = cursor.table ∧ cursor'.pass = cursor.pass ∧
      cursor.rest = passed ++ cursor'.rest := by
  cases acts with
  | on front past => exact ⟨[], _, front, rfl, rfl, rfl, past⟩
  | declare here | assign here | defineValue here => exact ⟨[], _, [_], rfl, rfl, rfl, here⟩
  | defineBody here => exact ⟨[], _, [_, _], rfl, rfl, rfl, here⟩
  | block here | encode here => exact ⟨[_], _, [_, _], rfl, rfl, rfl, here⟩
  | place here | jump here => exact ⟨[_], _, [_], rfl, rfl, rfl, here⟩
  | again ended | out ended => exact absurd ended more

end Acts

theorem entered_of_acts (entered : Entered r.template (cursor :: outer)) {front : List Node}
    (place : r.template.table cursor.table = front ++ cursor.rest)
    (acts : Acts r cursor outer s m) : Entered r.template m.cursors := by
  -- the scope is walked on in the same table
  have on {cursor' : TableCursor} (table : cursor'.table = cursor.table) :
      Entered r.template (cursor' :: outer) := by
    refine List.IsChain.imp_head (fun {site} h => ?_) entered
    unfold TableCursor.Within
    rw [table]
    exact h
  have behind {node : Node} {body : Nat} {rest : List Node}
      (here : cursor.rest = node :: .scope (some body) :: rest) :
      ∃ front, r.template.table cursor.table = front ++ .scope (some body) :: rest :=
    ⟨front ++ [node], by rw [place, here, List.append_assoc, List.singleton_append]⟩
  cases acts with
  | on | declare | assign | defineValue | defineBody | again => exact on rfl
  | out => exact entered.tail
  | block here | encode here => exact List.isChain_cons_cons.mpr ⟨.inl (behind here), on rfl⟩
  | place here =>
    refine List.isChain_cons_cons.mpr ⟨.inl ⟨front, ?_⟩, on rfl⟩
    rw [place, here]
  | @jump name default _ _ _ here =>
    refine List.isChain_cons_cons.mpr ⟨.inr ⟨front, name, default, ?_⟩, on rfl⟩
    rw [place, here]

section Stored

variable {depth : Nat} {name : String} {frames frames' : List Frame}

theorem stored?_eq (depth : Nat) (name : String) (frames : List Frame) :
    stored? depth name frames =
      frames[frames.length - (depth + 1)]?.bind (·.locals.find? name) := by
  unfold stored? List.rtake
  rw [List.head?_drop]

theorem stored?_cons (above : depth < frames.length) (frame : Frame) :
    stored? depth name (frame :: frames) = stored? depth name frames := by
  unfold stored?
  rw [rtake_cons above]

theorem stored?_tail (above : depth + 1 < frames.length) :
    stored? depth name frames.tail = stored? depth name frames := by
  cases frames with
  | nil => cases above
  | cons frame outer => exact (stored?_cons (Nat.lt_of_succ_lt_succ above) frame).symm

/-- A change of the innermost frame that keeps the value of the name, if it is stored there. -/
theorem stored?_onTop (above : depth < s.frames.length) {change : Frame → Frame}
    (keeps : depth + 1 = s.frames.length →
      ∀ frame, (change frame).locals.find? name = frame.locals.find? name) :
    stored? depth name (s.onTop change).frames = stored? depth name s.frames := by
  rw [RenderState.frames_onTop]
  cases frames : s.frames with
  | nil => rfl
  | cons frame inner =>
    rw [frames] at above keeps
    rcases Nat.lt_or_ge depth inner.length with further | here
    · exact (stored?_cons further _).trans (stored?_cons further _).symm
    · have length : inner.length = depth := Nat.le_antisymm here (Nat.le_of_lt_succ above)
      simp only [stored?, List.rtake, List.length_cons, length, Nat.sub_self, List.drop_zero,
        List.head?_cons, Option.bind_some]
      exact keeps (by rw [List.length_cons, length]) frame

/-- An assignment changes what is stored for its name in the frame that it writes to. -/
theorem stored?_assign {other : String} {value : Value}
    (made : RenderState.assignIn other value frames = some frames')
    (apart : other = name →
      frames.findIdx (·.locals.has name) ≠ frames.length - (depth + 1)) :
    stored? depth name frames' = stored? depth name frames := by
  have eq := eq_modify_of_assignIn made
  have length : frames'.length = frames.length := by rw [eq, List.length_modify]
  rw [stored?_eq, stored?_eq, length, eq, List.getElem?_modify]
  cases frames[frames.length - (depth + 1)]? with
  | none => rfl
  | some frame =>
    simp only [Option.map_eq_map, Option.map_some, Option.bind_some]
    split
    · rename_i here
      by_cases same : other = name
      · exact absurd (same ▸ here) (apart same)
      · exact Entries.find?_insert_of_ne (Ne.symm same) _ _
    · rfl

end Stored

/-- What a step changes of the values stored in a frame: nothing, unless it assigns, if the name is
not declared in the frame by the step and the scope of the frame does not end. -/
theorem stored?_of_acts (acts : Acts r cursor outer s m) (depth : Nat) (name : String)
    (above : depth < s.frames.length)
    (more : depth + 1 = s.frames.length → cursor.rest ≠ [])
    (new : depth + 1 = s.frames.length → ∀ constant value rest,
      cursor.rest ≠ .declare name constant value :: rest) :
    stored? depth name m.state.frames = stored? depth name s.frames ∨
      ∃ v op value rest x, cursor.rest = .assign v op value :: rest ∧
        m.state.frames = (s.assign v.member x).frames := by
  have same {frames : List Frame} (eq : frames = s.frames) :
      stored? depth name frames = stored? depth name s.frames := congrArg _ eq
  have entered (bindings : Bindings) {frames : List Frame} (eq : frames = s.frames) :
      stored? depth name ({ locals := bindings } :: frames) = stored? depth name s.frames := by
    rw [eq]
    exact stored?_cons above _
  have left {frames : List Frame} (ended : cursor.rest = []) (eq : frames = s.frames.tail) :
      stored? depth name frames = stored? depth name s.frames ∧ depth < frames.length := by
    have further : depth + 1 < s.frames.length :=
      Nat.lt_of_le_of_ne above fun here => more here ended
    subst eq
    exact ⟨stored?_tail further, by rw [List.length_tail]; exact Nat.lt_sub_of_add_lt further⟩
  cases acts with
  | on _ _ _ _ frames => exact .inl (same frames)
  | @declare other constant value rest _ _ here x frames =>
    refine .inl ((congrArg _ frames).trans (stored?_onTop above fun innermost frame => ?_))
    refine Entries.find?_insert_of_ne ?_ _ _
    rintro rfl
    exact new innermost constant value rest here
  | assign here x frames => exact .inr ⟨_, _, _, _, x, here, frames⟩
  | defineValue _ frames | defineBody _ frames =>
    exact .inl ((congrArg _ frames).trans (stored?_onTop above fun _ _ => rfl))
  | block _ _ frames | encode _ frames => exact .inl (entered _ frames)
  | place | jump => exact .inl (entered _ rfl)
  | again ended _ _ frames =>
    have tail := left ended frames
    exact .inl ((stored?_cons tail.2 _).trans tail.1)
  | out ended frames => exact .inl (left ended frames).1

section Step

variable {env : Nat → Scopes} {known : Nat → List String} {upper below : List TableCursor}
  {target : TableCursor} {name : String}

theorem rest_ne_nil (more : endedAt? outer.length ⟨cursor :: outer, s⟩ = none) :
    cursor.rest ≠ [] := by
  obtain ⟨table, rest, encoder, place, settled, pass⟩ := cursor
  rintro rfl
  simp [endedAt?] at more

/-- A scope that does not end keeps its declarations. -/
theorem declares_of_acts {t : Template} {constant : Bool} (acts : Acts r cursor outer s m)
    (here : cursor :: outer = upper ++ target :: below)
    (declares : target.Declares t name constant)
    (more : endedAt? below.length ⟨cursor :: outer, s⟩ = none) :
    ∃ upper target, m.cursors = upper ++ target :: below ∧ target.Declares t name constant := by
  cases upper with
  | nil =>
    cases here
    obtain ⟨upper, cursor', passed, cursors, table, pass, rest⟩ := acts.moves (rest_ne_nil more)
    exact ⟨upper, cursor', cursors, declares.past table pass rest⟩
  | cons first upper =>
    cases here
    obtain ⟨inner, cursors⟩ := acts.keeps_outer
    refine ⟨inner ++ upper, target, ?_, declares⟩
    rw [cursors, List.append_assoc]
    rfl

/-- An assignment that does not reach out of an evaluation writes to the variable that the text
refers to. -/
theorem refersTo_of_assigned (all : r.template.Scoped env)
    (framed : CursorsFramed r.template env m.cursors m.state.frames)
    (entered : Entered r.template m.cursors) (assigned : m.assigned? = some name)
    (direct : ¬m.AssignsOut r.template name) :
    ∃ above target below, m.cursors = above ++ target :: below ∧
      above.length = m.written name ∧ RefersTo r.template name above target := by
  obtain ⟨cursor, outer, v, op, value, rest, cursors, here, rfl⟩ := exists_of_assigned assigned
  unfold AssignsOut at direct
  rw [cursors] at framed entered direct ⊢
  obtain ⟨front, place, -, -⟩ := framed.live
  have found := (all.node (here ▸ place)).assigned v op value rfl
  exact exists_refersTo all framed entered place found fun site mem evaluates =>
    direct ⟨site, mem, evaluates⟩

/-- A step leaves the value of a constant as it is, if the scope does not end with it and it is no
assignment that reaches out of an evaluation. -/
theorem stored?_of_step {m' : Machine} (all : r.template.Scoped env)
    (framed : CursorsFramed r.template env m.cursors m.state.frames)
    (entered : Entered r.template m.cursors) (step : step r m = some m')
    (here : m.cursors = upper ++ target :: below)
    (constant : target.Declares r.template name true)
    (more : m.endedAt? below.length = none)
    (direct : m.assigned? = some name → ¬m.AssignsOut r.template name) :
    stored? below.length name m'.state.frames = stored? below.length name m.state.frames := by
  obtain ⟨cursor, outer, s, rfl, acts⟩ := acts_of_step step
  change cursor :: outer = _ at here
  have length : s.frames.length = upper.length + (below.length + 1) := by
    rw [framed.length_eq, here, List.length_append, List.length_cons]
  -- what the scope of the constant has where its cursor stands
  obtain ⟨inner, frames, -, -, own⟩ := CursorsFramed.of_append (here ▸ framed)
  obtain ⟨frame, around, rfl⟩ := own.exists_frame
  obtain ⟨front, place, -, -⟩ := own.live
  obtain ⟨scope, scopes, behind, -, -⟩ := own.1.scopes place
  have has : scope.find? name = some true := own.1.find?_of_declares all place behind constant
  have innermost (h : below.length + 1 = s.frames.length) : cursor = target ∧ outer = below := by
    have none : upper = [] := List.eq_nil_of_length_eq_zero (by omega)
    subst none
    cases here
    exact ⟨rfl, rfl⟩
  have changes := stored?_of_acts acts below.length name (by omega) ?_ ?_
  · rcases changes with same | ⟨v, op, value, rest, x, assigns, frames⟩
    · exact same
    · obtain ⟨made, found⟩ := exists_assignIn (live_of_assign all framed assigns) x
      rw [frames, frames_assign found]
      refine stored?_assign found fun same index => ?_
      have assigned : assigned? ⟨cursor :: outer, s⟩ = some name := by
        rw [← same, assigned?_of_assign assigns]
      obtain ⟨above, other, rest, eq, place', refers⟩ :=
        refersTo_of_assigned all framed entered assigned (direct assigned)
      have written : above.length = upper.length := by
        calc above.length = s.frames.length - (below.length + 1) := place'.trans index
          _ = upper.length := by omega
      obtain ⟨-, eq⟩ := List.append_inj (eq.symm.trans here) written
      obtain rfl : other = target := (List.cons.inj eq).1
      have isVariable := own.1.find?_of_declares all place behind refers.isVariable
      rw [has] at isVariable
      cases isVariable
  · intro h
    obtain ⟨rfl, rfl⟩ := innermost h
    exact rest_ne_nil more
  · rintro h c value rest eq
    obtain ⟨rfl, rfl⟩ := innermost h
    have fresh := (all.node (eq ▸ place)).fresh name c value rfl
    change ((scopesAt env cursor.table front).headD []).find? name = none at fresh
    rw [behind, List.headD_cons, has] at fresh
    cases fresh

end Step

/-- What is declared has a value in the frame of its scope. -/
theorem exists_stored {env : Nat → Scopes} (all : r.template.Scoped env)
    (framed : CursorsFramed r.template env m.cursors m.state.frames)
    {upper below : List TableCursor} {target : TableCursor} {name : String}
    (here : m.cursors = upper ++ target :: below) {constant : Bool}
    (declares : target.Declares r.template name constant) :
    ∃ value, stored? below.length name m.state.frames = some value := by
  obtain ⟨inner, frames, split, length, own⟩ := CursorsFramed.of_append (here ▸ framed)
  obtain ⟨frame, around, rfl⟩ := own.exists_frame
  obtain ⟨front, place, -, -⟩ := own.live
  obtain ⟨scope, scopes, behind, has, -⟩ := own.1.scopes place
  have found := own.1.find?_of_declares all place behind declares
  have index : m.state.frames.length - (below.length + 1) = inner.length := by
    rw [split, List.length_append, List.length_cons, own.2.2.length_eq, Nat.add_sub_cancel]
  rw [stored?_eq, index, split, List.getElem?_append_right (Nat.le_refl _), Nat.sub_self]
  exact Option.isSome_iff_exists.mp ((has name).mpr (by rw [found]; rfl))

section Run

variable {env : Nat → Scopes} {known : Nat → List String} {encoder : Encoder}

/-- Throughout a rendering the scopes were entered where they stand, or for an evaluation. -/
theorem entered_of_reaches (all : r.template.Scoped env) (covered : r.template.Covered known)
    (met : Reaches r (start r encoder) m) : Entered r.template m.cursors := by
  induction met with
  | refl => exact .singleton _
  | tail met step ih =>
    have framed := framed_of_reaches all covered met
    obtain ⟨cursor, outer, s, rfl, acts⟩ := acts_of_step step
    obtain ⟨front, place, -, -⟩ := CursorsFramed.live framed
    exact entered_of_acts ih place acts

/-- Until the scope ends, the value of a constant stays as it is; by induction on the run. -/
theorem stored?_of_path (all : r.template.Scoped env) (covered : r.template.Covered known)
    (met : Reaches r (start r encoder) m) {m' : Machine} {ms : List Machine}
    (path : Path r m ms m') {upper below : List TableCursor} {target : TableCursor}
    {name : String} (here : m.cursors = upper ++ target :: below)
    (constant : target.Declares r.template name true)
    (more : ∀ site ∈ ms, site.endedAt? below.length = none)
    (direct : ∀ site ∈ ms, site.assigned? = some name → ¬site.AssignsOut r.template name) :
    stored? below.length name m'.state.frames = stored? below.length name m.state.frames := by
  induction path generalizing upper target with
  | nil => rfl
  | @cons m next last ms step rest ih =>
    have framed := framed_of_reaches all covered met
    have entered := entered_of_reaches all covered met
    have goesOn := more m List.mem_cons_self
    have first := stored?_of_step all framed entered step here constant goesOn
      (direct m List.mem_cons_self)
    obtain ⟨cursor, outer, s, rfl, acts⟩ := acts_of_step step
    obtain ⟨upper', target', here', constant'⟩ := declares_of_acts acts here constant goesOn
    have later := ih (met.tail step) here' constant' (fun site mem => more site (.tail _ mem))
      fun site mem => direct site (.tail _ mem)
    exact later.trans first

end Run

end Machine

namespace Template

open Machine (Reaches Path start)

/-- Constants stay constant. Throughout a rendering of an assembled template, whatever its context,
an assignment writes to the variable that its name refers to in the text, unless it reaches out of
an evaluation. Where no assignment to the name of a constant does so, its value stays the same until
the scope of the constant ends, or its next pass begins. -/
theorem constants_stay {t : Template} (assembled : Assembled ParsedCore t) (context : Context)
    (config : Config) (encoder : Encoder) {m : Machine}
    (met : Reaches ⟨t, context, config⟩ (start ⟨t, context, config⟩ encoder) m) :
    (∀ name, m.assigned? = some name → ¬m.AssignsOut t name →
      ∃ above target below, m.cursors = above ++ target :: below ∧ RefersTo t name above target ∧
        ∀ x, (m.state.assign name x).frames = m.state.frames.modify above.length
          (fun frame => { frame with locals := frame.locals.insert name x })) ∧
    (∀ upper target below name ms m', m.cursors = upper ++ target :: below →
      target.Declares t name true → Path ⟨t, context, config⟩ m ms m' →
      (∀ site ∈ ms, site.endedAt? below.length = none) →
      (∀ site ∈ ms, site.assigned? = some name → ¬site.AssignsOut t name) →
      ∃ value, Machine.stored? below.length name m.state.frames = some value ∧
        Machine.stored? below.length name m'.state.frames = some value) := by
  obtain ⟨env, all⟩ := assembled.scopes
  obtain ⟨known, covered⟩ := assembled.covered
  let r : Rendering := ⟨t, context, config⟩
  have framed := Machine.framed_of_reaches (r := r) all covered met
  constructor
  · intro name assigned direct
    have entered := Machine.entered_of_reaches (r := r) all covered met
    obtain ⟨above, target, below, cursors, written, refers⟩ :=
      Machine.refersTo_of_assigned (r := r) all framed entered assigned direct
    refine ⟨above, target, below, cursors, refers, fun x => ?_⟩
    obtain ⟨cursor, outer, v, op, value, rest, eq, here, rfl⟩ := Machine.exists_of_assigned assigned
    unfold Machine.Framed at framed
    rw [eq] at framed
    have live := Machine.live_of_assign (r := r) all framed here
    obtain ⟨frames, found⟩ := Machine.exists_assignIn live x
    rw [Machine.frames_assign found, written]
    exact eq_modify_of_assignIn found
  · intro upper target below name ms m' here constant path more direct
    obtain ⟨value, found⟩ := Machine.exists_stored (r := r) all framed here constant
    have same := Machine.stored?_of_path (r := r) all covered met path here constant more direct
    exact ⟨value, found, same.trans found⟩

/-- A page with a constant and a variable that is assigned to. -/
theorem constants_stay_page : ∃ page : Template,
    parse .core {} "page" "#(let c = 1)#(var n = 1)#(n = 2)" = .ok page ∧
      ∃ m m' cursor, Reaches ⟨page, ⟨[], []⟩, {}⟩ (start ⟨page, ⟨[], []⟩, {}⟩ .identity) m ∧
        m.cursors = [cursor] ∧ m.assigned? = some "n" ∧ RefersTo page "n" [] cursor ∧
        cursor.Declares page "c" true ∧ Path ⟨page, ⟨[], []⟩, {}⟩ m [m] m' ∧
        ∃ value, Machine.stored? 0 "c" m.state.frames = some value ∧
          Machine.stored? 0 "c" m'.state.frames = some value := by
  have three : ((parse .core {} "page" "#(let c = 1)#(var n = 1)#(n = 2)").toOption.any fun page =>
      (page.table 0).map Node.declares == [["c"], ["n"], []] &&
        Node.scopesAfter [[]] ((page.table 0).take 1) == [[("c", true)]] &&
        Machine.assigned? ⟨[⟨0, (page.table 0).drop 2, .identity, none, false, none⟩], {}⟩ ==
          some "n") = true := by
    decide +kernel
  obtain ⟨page, parsed, three⟩ := ok_of_any three
  simp only [Bool.and_eq_true, beq_iff_eq] at three
  obtain ⟨⟨declares, isConstant⟩, assigned⟩ := three
  obtain ⟨first, second, last, nodes⟩ := List.length_eq_three.mp
    ((List.length_map ..).symm.trans (congrArg List.length declares))
  rw [nodes] at declares isConstant assigned
  obtain ⟨constant, given, rfl⟩ := Node.exists_of_declares (List.cons.inj declares).1
  obtain ⟨constant', given', rfl⟩ :=
    Node.exists_of_declares (List.cons.inj (List.cons.inj declares).2).1
  obtain rfl : constant = true := by cases isConstant; rfl
  obtain ⟨_, _, v, op, value, rest, cursors, here, same⟩ := Machine.exists_of_assigned assigned
  cases cursors
  cases here
  let r : Rendering := ⟨page, ⟨[], []⟩, {}⟩
  -- the machine behind the declarations
  let cursor (rest : List Node) : TableCursor := ⟨0, rest, .identity, none, false, none⟩
  let walk (node : Node) : RenderState → RenderState :=
    r.walkNode (fun _ _ _ s => s) .identity node
  let s := walk (.declare "n" constant' given')
    (walk (.declare "c" true given) (RenderState.openFrame {} []))
  let m : Machine := ⟨[cursor [.assign v op value]], s⟩
  have first : Machine.step r (start r .identity) = some
      ⟨[cursor [.declare "n" constant' given', .assign v op value]],
        walk (.declare "c" true given) (RenderState.openFrame {} [])⟩ := by
    change Machine.step r ⟨[cursor (page.table 0)], _⟩ = _
    rw [nodes]
    rfl
  have met : Reaches r (start r .identity) m := .tail (.single first) rfl
  have constant : (cursor [.assign v op value]).Declares page "c" true :=
    ⟨[.declare "c" true given, .declare "n" constant' given'], nodes, .inl ⟨given, by simp⟩⟩
  -- no scope is around this one, so no assignment reaches out of an evaluation
  have direct (name : String) : ¬m.AssignsOut page name := by
    rintro ⟨site, mem, -⟩
    exact absurd (List.mem_of_mem_take mem) List.not_mem_nil
  have path : Path r m [m] _ := .cons rfl (.nil _)
  have assembled : page.Assembled ParsedCore := .given ⟨_, _, _, parsed⟩
  have assignsN : m.assigned? = some "n" := congrArg some same
  obtain ⟨writes, keeps⟩ := constants_stay assembled ⟨[], []⟩ {} .identity met
  obtain ⟨above, target, below, cursors, refers, -⟩ := writes "n" assignsN (direct "n")
  have stays := keeps [] (cursor [.assign v op value]) [] "c" [m] _ rfl constant path
    (fun site mem => List.mem_singleton.mp mem ▸ rfl)
    (fun site mem _ => List.mem_singleton.mp mem ▸ direct "c")
  obtain ⟨rfl, eq⟩ : above = [] ∧ target = cursor [.assign v op value] := by
    cases above with
    | nil => exact ⟨rfl, (List.cons.inj cursors).1.symm⟩
    | cons first above => simp [m] at cursors
  exact ⟨page, parsed, m, _, _, met, rfl, assignsN, eq ▸ refers, constant, path, stays⟩

/-- In an evaluation that an assignment reaches out of, it may find a constant: here that of the
block in which the definition is evaluated, although its name refers to the variable of the page. -/
theorem constant_changes_in_evaluation :
    ((parse .core {} "page"
      ("#(var x = 1)#define(d):#(x = 2)#enddefine" ++
        "#if(true):#(let x = 5)#evaluate(d)#(x)#endif")).toOption.any fun page =>
      (Rendering.render ⟨page, ⟨[], []⟩, {}⟩ .identity).toOption == some "2") = true := by
  decide +kernel

end Template

end Stencil
