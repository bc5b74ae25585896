import Mathlib.Data.List.DropRight
import Stencil.Proofs.ChainWalk
import Stencil.Proofs.FramedRun

/-!
# Scopes do not leak

What the walk of a scope leaves behind. There are as many frames as open scopes; a scope that ends
leaves every frame around it with the variables and definitions it had, and an assignment finds its
variable, so that it declares none.
-/

namespace Stencil

/-- A frame after some steps further in: only the values of some names may differ. -/
structure Frame.ChangedAt (names : List String) (a b : Frame) : Prop where
  definitions : b.definitions = a.definitions
  has : ∀ name, b.locals.has name = a.locals.has name
  values : ∀ name, name ∉ names → b.locals.find? name = a.locals.find? name

namespace Frame.ChangedAt

variable {names more : List String} {a b c : Frame} {frames frames' frames'' : List Frame}

theorem refl (names : List String) (a : Frame) : a.ChangedAt names a :=
  ⟨rfl, fun _ => rfl, fun _ _ => rfl⟩

theorem trans (h : a.ChangedAt names b) (h' : b.ChangedAt more c) :
    a.ChangedAt (names ++ more) c where
  definitions := h'.definitions.trans h.definitions
  has name := (h'.has name).trans (h.has name)
  values name outside := by
    rw [List.mem_append, not_or] at outside
    exact (h'.values name outside.2).trans (h.values name outside.1)

theorem refl_all (names : List String) (frames : List Frame) :
    List.Forall₂ (ChangedAt names) frames frames :=
  List.forall₂_same.mpr fun a _ => refl names a

theorem trans_all (h : List.Forall₂ (ChangedAt names) frames frames')
    (h' : List.Forall₂ (ChangedAt more) frames' frames'') :
    List.Forall₂ (ChangedAt (names ++ more)) frames frames'' := by
  induction h generalizing frames'' with
  | nil =>
    cases h'
    exact .nil
  | cons first _ ih =>
    cases h' with
    | cons first' rest' => exact .cons (first.trans first') (ih rest')

end Frame.ChangedAt

/-- An assignment changes the value of its name in one frame. -/
theorem changedAt_assignIn {name : String} {value : Value} {frames frames' : List Frame}
    (h : RenderState.assignIn name value frames = some frames') :
    List.Forall₂ (Frame.ChangedAt [name]) frames frames' := by
  induction frames generalizing frames' with
  | nil => cases h
  | cons frame outer ih =>
    simp only [RenderState.assignIn] at h
    split at h
    · rename_i has
      cases h
      refine .cons ⟨rfl, fun other => ?_, fun other outside => ?_⟩
        (Frame.ChangedAt.refl_all _ outer)
      · by_cases same : other = name
        · subst same
          rw [has]
          simp [Entries.has]
        · simp only [Entries.has, Entries.find?_insert_of_ne same]
      · exact Entries.find?_insert_of_ne (fun same => outside (List.mem_singleton.mpr same)) _ _
    · obtain ⟨more, made, rfl⟩ := Option.map_eq_some_iff.mp h
      exact .cons (.refl _ frame) (ih made)

namespace Machine

/-- The name of the variable that the next step assigns to. -/
def assigned? (m : Machine) : Option String :=
  match m.cursors with
  | ⟨_, .assign v _ _ :: _, _, _, _, _⟩ :: _ => some v.member
  | _ => none

theorem assigned?_of_assign {cursor : TableCursor} {outer : List TableCursor} {s : RenderState}
    {v : Variable} {op : Operator} {value : Expr} {rest : List Node}
    (here : cursor.rest = .assign v op value :: rest) :
    assigned? ⟨cursor :: outer, s⟩ = some v.member := by
  obtain ⟨table, nodes, encoder, place, settled, pass⟩ := cursor
  cases here
  rfl

theorem exists_of_assigned {m : Machine} {name : String} (h : m.assigned? = some name) :
    ∃ cursor outer v op value rest, m.cursors = cursor :: outer ∧
      cursor.rest = .assign v op value :: rest ∧ v.member = name := by
  obtain ⟨cursors, s⟩ := m
  unfold assigned? at h
  split at h
  · rename_i table v op value rest encoder place settled pass outer eq
    exact ⟨_, outer, v, op, value, rest, eq, rfl, Option.some.inj h⟩
  · cases h

variable {r : Rendering}

theorem rtake_cons {depth : Nat} {frames : List Frame} (below : depth ≤ frames.length)
    (frame : Frame) : (frame :: frames).rtake depth = frames.rtake depth := by
  rw [List.rtake, List.rtake, List.length_cons, Nat.succ_sub below, List.drop_succ_cons]

theorem rtake_onTop {depth : Nat} {s : RenderState} (below : depth < s.frames.length)
    (change : Frame → Frame) : (s.onTop change).frames.rtake depth = s.frames.rtake depth := by
  rw [RenderState.frames_onTop]
  cases frames : s.frames with
  | nil => rfl
  | cons frame outer =>
    rw [frames] at below
    have inside := Nat.le_of_lt_succ below
    exact (rtake_cons inside _).trans (rtake_cons inside _).symm

theorem changedAt_assign {depth : Nat} {s : RenderState} (below : depth < s.frames.length)
    (name : String) (value : Value) :
    List.Forall₂ (Frame.ChangedAt [name]) (s.frames.rtake depth)
      ((s.assign name value).frames.rtake depth) := by
  unfold RenderState.assign
  split
  · rename_i frames found
    have same := RenderState.length_of_assignIn found
    rw [List.rtake, List.rtake, same]
    exact List.forall₂_drop _ (changedAt_assignIn found)
  · rw [RenderState.setLocal, rtake_onTop below]
    exact Frame.ChangedAt.refl_all _ _

/-- A step changes, of the frames below its own, only the values of the name it assigns to. -/
theorem changedAt_of_step {m m' : Machine} (balanced : Balanced m) (step : step r m = some m')
    {depth : Nat} (above : depth < m.cursors.length) :
    List.Forall₂ (Frame.ChangedAt m.assigned?.toList) (m.state.frames.rtake depth)
      (m'.state.frames.rtake depth) := by
  obtain ⟨cursor, outer, s, rfl, acts⟩ := acts_of_step step
  have below : depth < s.frames.length := balanced.frames ▸ above
  -- the frames below are the same
  have same {frames : List Frame} (eq : frames.rtake depth = s.frames.rtake depth) :
      List.Forall₂ (Frame.ChangedAt (assigned? ⟨cursor :: outer, s⟩).toList)
        (s.frames.rtake depth) (frames.rtake depth) := by
    rw [eq]
    exact Frame.ChangedAt.refl_all _ _
  have onTop {change : Frame → Frame} {frames : List Frame}
      (eq : frames = (s.onTop change).frames) :
      frames.rtake depth = s.frames.rtake depth := eq ▸ rtake_onTop below change
  have opened (bindings : Bindings) {frames : List Frame} (eq : frames = s.frames) :
      (({ locals := bindings } : Frame) :: frames).rtake depth = s.frames.rtake depth := by
    subst eq
    exact rtake_cons (Nat.le_of_lt below) _
  have closed {frames : List Frame} (eq : frames = s.frames.tail) :
      frames.rtake depth = s.frames.rtake depth ∧ depth ≤ frames.length := by
    subst eq
    cases frames : s.frames with
    | nil =>
      rw [frames] at below
      cases below
    | cons frame inner =>
      rw [frames] at below
      have inside := Nat.le_of_lt_succ below
      exact ⟨(rtake_cons inside frame).symm, inside⟩
  cases acts with
  | on _ _ _ _ frames => exact same (congrArg (List.rtake · depth) frames)
  | declare _ x frames => exact same (onTop frames)
  | assign here x frames =>
    obtain ⟨table, rest, encoder, place, settled, pass⟩ := cursor
    cases here
    change List.Forall₂ _ _ (List.rtake _ depth)
    rw [frames]
    exact changedAt_assign below _ x
  | defineValue _ frames => exact same (onTop frames)
  | defineBody _ frames => exact same (onTop frames)
  | block _ _ frames => exact same (opened _ frames)
  | encode _ frames => exact same (opened _ frames)
  | place => exact same (opened _ rfl)
  | jump => exact same (opened _ rfl)
  | again _ _ _ frames =>
    have tail := closed frames
    exact same ((rtake_cons tail.2 _).trans tail.1)
  | out _ frames => exact same (closed frames).1

/-- A run that stays above some scopes changes, of their frames, only the values of the names it
assigns to; by induction on the run. -/
theorem changedAt_of_path {m m' : Machine} {ms : List Machine} (balanced : Balanced m)
    (path : Path r m ms m') {depth : Nat} (above : ∀ site ∈ ms, depth < site.cursors.length) :
    List.Forall₂ (Frame.ChangedAt (ms.filterMap assigned?)) (m.state.frames.rtake depth)
      (m'.state.frames.rtake depth) := by
  induction path with
  | nil => exact Frame.ChangedAt.refl_all _ _
  | @cons m next last ms step more ih =>
    have first := changedAt_of_step balanced step (above m List.mem_cons_self)
    have rest := ih (balanced_of_step balanced step) fun site mem => above site (.tail _ mem)
    have both := Frame.ChangedAt.trans_all first rest
    have names : (m :: ms).filterMap assigned? = m.assigned?.toList ++ ms.filterMap assigned? := by
      rw [List.filterMap_cons]
      cases m.assigned? <;> rfl
    rw [names]
    exact both

end Machine

namespace Template

open Machine (Reaches Path start)

/-- Scopes do not leak. Throughout a rendering of an assembled template, whatever its context, there
are as many frames as open scopes. While the walk is inside a scope, up to and including the step
that ends it, the frames of the scopes around keep the same variables and the same definitions, and
only values of variables differ that were assigned to on the way. Each assignment finds its variable
in a frame, so that it never makes a new one. -/
theorem scopes_do_not_leak {t : Template} (assembled : Assembled ParsedCore t) (context : Context)
    (config : Config) (encoder : Encoder) {m : Machine}
    (met : Reaches ⟨t, context, config⟩ (start ⟨t, context, config⟩ encoder) m) :
    m.state.frames.length = m.cursors.length ∧
    (∀ ms m' cursor outer, m.cursors = cursor :: outer → Path ⟨t, context, config⟩ m ms m' →
      (∀ site ∈ ms, outer.length < site.cursors.length) →
      List.Forall₂ (Frame.ChangedAt (ms.filterMap Machine.assigned?))
        (m.state.frames.rtake outer.length) (m'.state.frames.rtake outer.length)) ∧
    (∀ cursor outer v op value rest, m.cursors = cursor :: outer →
      cursor.rest = .assign v op value :: rest → ∀ x, ∃ frames,
      RenderState.assignIn v.member x m.state.frames = some frames ∧
        (m.state.assign v.member x).frames = frames) := by
  have balanced := Machine.balanced_of_reaches (Machine.balanced_start encoder) met
  refine ⟨balanced.frames, fun ms m' cursor outer _ path above => ?_, ?_⟩
  · exact Machine.changedAt_of_path balanced path above
  · intro cursor outer v op value rest cursors here x
    obtain ⟨env, all⟩ := assembled.scopes
    obtain ⟨known, covered⟩ := assembled.covered
    have framed := Machine.framed_of_reaches (r := ⟨t, context, config⟩) all covered met
    unfold Machine.Framed at framed
    rw [cursors] at framed
    have live := Machine.live_of_assign (r := ⟨t, context, config⟩) all framed here
    obtain ⟨frames, found⟩ := Machine.exists_assignIn live x
    exact ⟨frames, found, Machine.frames_assign found⟩

/-- A page that declares a variable and assigns to it. -/
theorem scopes_do_not_leak_page : ∃ page : Template,
    parse .core {} "page" "#(var n = 1)#(n = 2)" = .ok page ∧
      ∃ m cursor v op value, Reaches ⟨page, ⟨[], []⟩, {}⟩ (start ⟨page, ⟨[], []⟩, {}⟩ .identity) m ∧
        m.cursors = [cursor] ∧ cursor.rest = [.assign v op value] ∧ m.state.frames.length = 1 ∧
        ∀ x, ∃ frames, RenderState.assignIn v.member x m.state.frames = some frames := by
  have two : ((parse .core {} "page" "#(var n = 1)#(n = 2)").toOption.any fun page =>
      (page.table 0).map Node.declares == [["n"], []] &&
        Machine.assigned? ⟨[⟨0, (page.table 0).tail, .identity, none, false, none⟩], {}⟩ ==
          some "n") = true := by
    decide +kernel
  obtain ⟨page, parsed, two⟩ := ok_of_any two
  simp only [Bool.and_eq_true, beq_iff_eq] at two
  obtain ⟨declares, assigned⟩ := two
  obtain ⟨first, last, nodes⟩ := List.length_eq_two.mp
    ((List.length_map ..).symm.trans (congrArg List.length declares))
  rw [nodes] at declares assigned
  obtain ⟨constant, given, rfl⟩ := Node.exists_of_declares (List.cons.inj declares).1
  obtain ⟨_, _, v, op, value, rest, cursors, here, -⟩ := Machine.exists_of_assigned assigned
  cases cursors
  cases here
  let r : Rendering := ⟨page, ⟨[], []⟩, {}⟩
  have met : Reaches r (start r .identity) (Machine.advance r
      { table := 0, rest := page.table 0, encoder := .identity } []
      (RenderState.openFrame {} [])) := .single rfl
  simp only [nodes, Machine.advance, Machine.bodyOf?] at met
  have assembled : page.Assembled ParsedCore := .given ⟨_, _, _, parsed⟩
  obtain ⟨frames, -, found⟩ := scopes_do_not_leak assembled ⟨[], []⟩ {} .identity met
  refine ⟨page, parsed, _, _, v, op, value, met, rfl, rfl, frames, fun x => ?_⟩
  obtain ⟨frames', assigned, -⟩ := found _ _ v op value [] rfl rfl x
  exact ⟨frames', assigned⟩

end Template

end Stencil
