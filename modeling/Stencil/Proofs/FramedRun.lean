import Stencil.Proofs.ChainLayout
import Stencil.Proofs.FrameNames

/-!
# Runs with the declared names

Each step of a rendering of an assembled template keeps the names of frames in line with what the
text declares, whatever the context and the values are.
-/

namespace Stencil

theorem Node.not_binds_of_fromElsewhere {before : Option Node} (h : FromElsewhere before)
    (name : String) : ¬Binds before name := by
  cases before with
  | none => exact id
  | some node =>
    cases node with
    | inline => exact id
    | _ => cases h

namespace Template

variable {t : Template} {env : Nat → Scopes} {known : Nat → List String}

/-- The scopes in which a table is entered: those of the place, or none if it is spliced. -/
theorem Scoped.entry (h : t.Scoped env) {table body : Nat} {front rest : List Node}
    (place : t.table table = front ++ .scope (some body) :: rest) {frames : List Frame}
    (live : LiveIn frames (scopesAt env table front)) :
    ∃ own around, env body = own :: around ∧ LiveIn frames around ∧
      ∀ name, (own.find? name).isSome = true ↔ Node.Binds front.getLast? name := by
  have node := h.node place
  by_cases elsewhere : Node.FromElsewhere front.getLast?
  · refine ⟨[], [], node.spliced body rfl elsewhere, ?_, fun name => ?_⟩
    · rintro name ⟨own, mem, _⟩
      cases mem
    · exact iff_of_false (by simp [Entries.find?])
        (Node.not_binds_of_fromElsewhere elsewhere name)
  · obtain ⟨own, entered, bound⟩ := node.entered body rfl elsewhere
    exact ⟨own, _, entered, live, bound.names⟩

theorem Scoped.entry_behind (h : t.Scoped env) {table body : Nat} {front rest : List Node}
    {node : Node} (place : t.table table = front ++ node :: .scope (some body) :: rest)
    (nothing : node.declares = []) {frames : List Frame}
    (live : LiveIn frames (scopesAt env table front)) :
    ∃ own around, env body = own :: around ∧ LiveIn frames around ∧
      ∀ name, (own.find? name).isSome = true ↔ Node.Binds (some node) name := by
  have behind : t.table table = (front ++ [node]) ++ .scope (some body) :: rest := by
    rw [place]
    simp
  have same : scopesAt env table (front ++ [node]) = scopesAt env table front := by
    unfold scopesAt
    rw [Node.scopesAfter_concat, Node.declareIn_of_declares nothing]
  have entry := h.entry behind (same ▸ live)
  rwa [List.getLast?_concat] at entry

/-- The table of a node that binds nothing can be entered. -/
theorem Scoped.enterable (h : t.Scoped env) {table body : Nat} {front rest : List Node}
    {node : Node} (place : t.table table = front ++ node :: .scope (some body) :: rest)
    (nothing : node.declares = []) (unbound : ∀ name, ¬Node.Binds (some node) name)
    {frames : List Frame} (live : LiveIn frames (scopesAt env table front)) :
    Enterable env frames body := by
  obtain ⟨own, around, entry, surrounding, binds⟩ := h.entry_behind place nothing live
  refine ⟨own, around, entry, fun name => ?_, surrounding⟩
  have none := mt (binds name).mp (unbound name)
  simpa using none

end Template

namespace Machine

variable {r : Rendering} {env : Nat → Scopes} {known : Nat → List String}

/-- The frames of a machine have the names that the text declares. -/
def Framed (t : Template) (env : Nat → Scopes) (m : Machine) : Prop :=
  CursorsFramed t env m.cursors m.state.frames

section Frames

variable {cursors : List TableCursor} {s : RenderState}

theorem sameNames_assignIn {name : String} {value : Value} {frames frames' : List Frame}
    (h : RenderState.assignIn name value frames = some frames') :
    List.Forall₂ Frame.SameNames frames frames' := by
  induction frames generalizing frames' with
  | nil => cases h
  | cons frame outer ih =>
    simp only [RenderState.assignIn] at h
    split at h
    · rename_i has
      cases h
      refine .cons ⟨rfl, fun other => ?_⟩ (List.forall₂_same.mpr fun _ _ => ⟨rfl, fun _ => Iff.rfl⟩)
      rw [Entries.find?_insert_isSome]
      refine or_iff_right_of_imp ?_
      rintro rfl
      exact has
    · obtain ⟨more, made, rfl⟩ := Option.map_eq_some_iff.mp h
      exact .cons ⟨rfl, fun _ => Iff.rfl⟩ (ih made)

/-- A live name is found by an assignment. -/
theorem exists_assignIn {name : String} {frames : List Frame} (live : Holds frames [name])
    (value : Value) : ∃ frames', RenderState.assignIn name value frames = some frames' := by
  have found := live name List.mem_cons_self
  clear live
  induction frames with
  | nil => cases found
  | cons frame outer ih =>
    unfold RenderState.assignIn
    split
    · exact ⟨_, rfl⟩
    · rename_i lacks
      obtain ⟨more, made⟩ := ih ((findSome?_cons_isSome.mp found).resolve_left lacks)
      exact ⟨_, by rw [made]; rfl⟩

theorem frames_assign {name : String} {value : Value} {frames : List Frame}
    (found : RenderState.assignIn name value s.frames = some frames) :
    (s.assign name value).frames = frames := by
  unfold RenderState.assign
  rw [found]

end Frames

section Step

variable {cursor : TableCursor} {outer : List TableCursor} {s : RenderState}

/-- What an assignment names is live where it stands. -/
theorem live_of_assign (all : r.template.Scoped env)
    (h : CursorsFramed r.template env (cursor :: outer) s.frames) {v : Variable} {op : Operator}
    {value : Expr} {rest : List Node} (here : cursor.rest = .assign v op value :: rest) :
    Holds s.frames [v.member] := by
  obtain ⟨front, place, _, live⟩ := h.live
  rw [here] at place
  exact live v.member (Scopes.declares_of_lookup? ((all.node place).assigned v op value rfl))

/-- A step keeps the names of frames. -/
theorem framed_of_acts (all : r.template.Scoped env) (covered : r.template.Covered known)
    {m : Machine} (h : CursorsFramed r.template env (cursor :: outer) s.frames)
    (acts : Acts r cursor outer s m) : Framed r.template env m := by
  obtain ⟨front, place, apart, live⟩ := h.live
  obtain ⟨frame, inner, opened⟩ := h.exists_frame
  -- one node is passed, or one with its scope, neither of which declares anything
  have leaf {node : Node} {rest : List Node} (here : cursor.rest = node :: rest)
      (nothing : node.declares = []) (binds : ∀ name, ¬Node.Binds (some node) name)
      (place : Option String) :
      CursorsFramed r.template env ({ cursor with rest, place } :: outer) s.frames :=
    h.past [node] here (by simpa using nothing) (fun _ _ _ => binds) place cursor.settled
  have body {node : Node} {target : Option Nat} {rest : List Node}
      (here : cursor.rest = node :: .scope target :: rest) (nothing : node.declares = [])
      (settled : Bool) :
      CursorsFramed r.template env ({ cursor with rest, settled } :: outer) s.frames :=
    h.past [node, .scope target] here (by simpa [Node.declares] using nothing)
      (fun _ _ _ _ => id) cursor.place settled
  unfold Framed
  cases acts with
  | on front past nothing apart frames =>
    rw [frames]
    exact h.past front past nothing apart _ _
  | declare here x frames =>
    rw [frames, RenderState.setLocal, RenderState.frames_onTop, opened]
    exact (opened ▸ h).declare here _ x
  | assign here x frames =>
    obtain ⟨frames', found⟩ := exists_assignIn (live_of_assign all h here) x
    rw [frames, frames_assign found]
    exact (leaf here rfl (fun _ => id) _).of_sameNames (sameNames_assignIn found)
  | defineValue here frames =>
    rw [frames, RenderState.define, RenderState.frames_onTop, opened]
    exact (opened ▸ leaf here rfl (fun _ => id) _).define _ (by rintro table ⟨⟩)
  | defineBody here frames =>
    rw [frames, RenderState.define, RenderState.frames_onTop, opened]
    refine (opened ▸ body here rfl cursor.settled).define _ ?_
    rintro table ⟨⟩
    exact opened ▸ all.enterable (here ▸ place) rfl (fun _ => id) live
  | @block name chained behaviour args table rest mode values s' here runs frames =>
    change CursorsFramed r.template env _ (_ :: s'.frames)
    rw [here] at place
    obtain ⟨own, around, entry, surrounding, binds⟩ := all.entry_behind place rfl live
    obtain ⟨declared, made⟩ := covered.made (place ▸ List.mem_append_right front List.mem_cons_self)
    have bound : ∀ name, ((behaviour.enter {} values).2.bindings.find? name).isSome = true ↔
        behaviour.Binds name := by
      intro name
      simp only [Behaviour.enter, Entries.find?_insertAll_isSome]
      rw [made.mem_pass_iff runs name]
      simp [Entries.find?]
    rw [frames]
    refine (body here rfl true).enter entry surrounding
      (fun name => (bound name).trans (binds name).symm) _ ?_
    rintro p ⟨⟩
    exact ⟨⟨declared, made⟩, binds, bound⟩
  | @encode handler inner' table rest s' here frames =>
    change CursorsFramed r.template env _ (_ :: s'.frames)
    rw [frames]
    exact (body here rfl cursor.settled).enterEmpty
      (all.enterable (here ▸ place) rfl (fun _ => id) live) _
  | @place table rest here =>
    rw [here] at place apart
    obtain ⟨own, around, entry, surrounding, binds⟩ := all.entry place live
    have passed : CursorsFramed r.template env ({ cursor with rest, place := none } :: outer)
      s.frames := leaf here rfl (fun _ => id) none
    refine passed.enterEmpty ⟨own, around, entry, fun name => ?_, surrounding⟩ _
    have unbound := mt (binds name).mp (apart table rest rfl name)
    simpa using unbound
  | jump here defined => exact (leaf here rfl (fun _ => id) _).enterEmpty (h.enterable defined) _
  | @again pass mode values s' ended inPass runs frames =>
    change CursorsFramed r.template env _ (_ :: s'.frames)
    rw [frames]
    exact h.again inPass mode runs
  | out ended frames =>
    rw [frames, opened]
    exact (opened ▸ h).2.2

end Step

/-- Throughout a rendering the frames have the names that the text declares. -/
theorem framed_of_reaches (all : r.template.Scoped env) (covered : r.template.Covered known)
    {encoder : Encoder} {m : Machine} (reaches : Reaches r (start r encoder) m) :
    Framed r.template env m := by
  induction reaches with
  | refl =>
    have empty : CursorsFramed r.template env [] [] := trivial
    refine empty.enterEmpty ⟨[], [], all.start, fun _ => rfl, ?_⟩ encoder
    rintro name ⟨own, mem, _⟩
    cases mem
  | tail _ step ih =>
    obtain ⟨cursor, outer, s, rfl, acts⟩ := acts_of_step step
    exact framed_of_acts all covered ih acts

end Machine

end Stencil
