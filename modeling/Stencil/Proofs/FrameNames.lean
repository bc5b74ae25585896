import Stencil.Proofs.LiveNames
import Stencil.Proofs.ScopedTemplates
import Stencil.Proofs.StepEffects

/-!
# The names in frames

Throughout a rendering the frame of a scope has exactly the names that the text declares in it up
to where its cursor stands. The scopes around it are open further out, or were open where the
definition was made that is evaluated, so all names that can be seen have a value in some frame.
-/

namespace Stencil

/-- A block of the core registry binds the same names in each pass. -/
theorem Block.Made.mem_pass_iff {tag : String} {made : BlockInstance} (h : Block.Made tag made)
    {entered current : List Value} {index : Nat}
    (runs : (made.behaviour.pass entered index current).1 ≠ .discard) (name : String) :
    name ∈ (made.behaviour.pass entered index current).2.map Prod.fst ↔
      made.behaviour.Binds name := by
  refine ⟨fun mem => (h.binds name).mp ?_, fun binds => binds entered index current runs⟩
  cases h with
  | condition => exact mem
  | otherwise => exact mem
  | whileLoop => exact mem
  | forLoop =>
    simp only [Block.forLoop] at mem runs
    split at mem
    · cases mem
    · rw [Block.keys_loopBindings] at mem
      simp only [List.mem_append, List.mem_cons, List.not_mem_nil, or_false] at mem ⊢
      tauto

/-- All names of scopes have a value in some frame. -/
def LiveIn (frames : List Frame) (scopes : Scopes) : Prop :=
  ∀ name, scopes.Declares name → Holds frames [name]

theorem LiveIn.kept {frames frames' : List Frame} {scopes : Scopes} (h : LiveIn frames scopes)
    (kept : NamesKept frames frames') : LiveIn frames' scopes :=
  fun name declares => (h name declares).kept kept

theorem LiveIn.cons {frames : List Frame} {scopes : Scopes} (h : LiveIn frames scopes)
    (frame : Frame) : LiveIn (frame :: frames) scopes :=
  fun name declares => (h name declares).cons frame

/-- A frame has exactly the names that a scope declares. -/
def Frame.Has (frame : Frame) (own : Names) : Prop :=
  ∀ name, (frame.locals.find? name).isSome = true ↔ (own.find? name).isSome = true

/-- A frame and the scope it belongs to, with the scopes around. -/
theorem LiveIn.of_has {frame : Frame} {frames : List Frame} {own : Names} {around : Scopes}
    (has : frame.Has own) (live : LiveIn frames around) :
    LiveIn (frame :: frames) (own :: around) := by
  rintro name ⟨scope, mem, found⟩
  rcases List.mem_cons.mp mem with rfl | mem
  · intro other same
    rw [List.mem_singleton.mp same]
    exact findSome?_cons_isSome.mpr (.inl ((has name).mpr found))
  · exact (live name ⟨scope, mem, found⟩).cons frame

/-- Frames of the same scopes: the names and the definitions are the same. -/
structure Frame.SameNames (a b : Frame) : Prop where
  definitions : b.definitions = a.definitions
  names : ∀ name, (b.locals.find? name).isSome = true ↔ (a.locals.find? name).isSome = true

theorem Frame.SameNames.kept {frames frames' : List Frame}
    (h : List.Forall₂ Frame.SameNames frames frames') : NamesKept frames frames' :=
  h.imp fun _ _ same name => (same.names name).mpr

/-- A pass binds what its block binds for the scope, now and later. -/
structure Pass.BindsOwn (pass : Pass) (own : Names) : Prop where
  made : ∃ declared, Block.Made pass.name ⟨pass.behaviour, pass.args, declared⟩
  own : ∀ name, (own.find? name).isSome = true ↔ pass.behaviour.Binds name
  bindings : ∀ name, (pass.run.bindings.find? name).isSome = true ↔ pass.behaviour.Binds name

section Framed

variable (t : Template) (env : Nat → Scopes)

/-- The names in effect behind nodes of a table. -/
def scopesAt (table : Nat) (front : List Node) : Scopes := Node.scopesAfter (env table) front

/-- A cursor and its frame. -/
structure TableCursor.Framed (frame : Frame) (outer : List Frame) (cursor : TableCursor) :
    Prop where
  stands : ∃ front own around, t.table cursor.table = front ++ cursor.rest ∧
    Machine.Apart front.getLast? cursor.rest ∧ scopesAt env cursor.table front = own :: around ∧
    frame.Has own
  around : LiveIn outer (env cursor.table).tail
  pass : ∀ p, cursor.pass = some p → p.BindsOwn ((env cursor.table).headD [])

/-- The tables that names are defined as can be entered where these frames are open: they declare
nothing at their start, and the scopes around them are live. -/
def Enterable (frames : List Frame) (table : Nat) : Prop :=
  ∃ own around, env table = own :: around ∧ (∀ name, own.find? name = none) ∧ LiveIn frames around

/-- Each cursor has its frame, with definitions that can be evaluated. -/
def CursorsFramed : List TableCursor → List Frame → Prop
  | [], [] => True
  | cursor :: cursors, frame :: frames =>
    cursor.Framed t env frame frames ∧
      (∀ name table, frame.definitions.find? name = some (.body table) →
        Enterable env (frame :: frames) table) ∧
      CursorsFramed cursors frames
  | _, _ => False

variable {t env} {frames frames' : List Frame} {cursors : List TableCursor}

theorem Enterable.kept {table : Nat} (h : Enterable env frames table)
    (kept : NamesKept frames frames') : Enterable env frames' table := by
  obtain ⟨own, around, eq, none, live⟩ := h
  exact ⟨own, around, eq, none, live.kept kept⟩

theorem Enterable.cons {table : Nat} (h : Enterable env frames table) (frame : Frame) :
    Enterable env (frame :: frames) table := by
  obtain ⟨own, around, eq, none, live⟩ := h
  exact ⟨own, around, eq, none, live.cons frame⟩

theorem CursorsFramed.length_eq (h : CursorsFramed t env cursors frames) :
    frames.length = cursors.length := by
  induction cursors generalizing frames with
  | nil =>
    cases frames with
    | nil => rfl
    | cons => exact h.elim
  | cons cursor cursors ih =>
    cases frames with
    | nil => exact h.elim
    | cons frame frames => exact congrArg Nat.succ (ih h.2.2)

/-- The values in frames do not count. -/
theorem CursorsFramed.of_sameNames (h : CursorsFramed t env cursors frames)
    (same : List.Forall₂ Frame.SameNames frames frames') : CursorsFramed t env cursors frames' := by
  induction same generalizing cursors with
  | nil => exact h
  | @cons a b frames frames' first rest ih =>
    cases cursors with
    | nil => exact h.elim
    | cons cursor cursors =>
      obtain ⟨framed, definitions, outer⟩ := h
      obtain ⟨front, own, around, place, apart, scopes, has⟩ := framed.stands
      have whole : NamesKept (a :: frames) (b :: frames') := Frame.SameNames.kept (.cons first rest)
      refine ⟨⟨⟨front, own, around, place, apart, scopes, fun name => ?_⟩, ?_, framed.pass⟩, ?_,
        ih outer⟩
      · exact (first.names name).trans (has name)
      · exact framed.around.kept (Frame.SameNames.kept rest)
      · intro name table found
        rw [first.definitions] at found
        exact (definitions name table found).kept whole

/-- A definition that is found can be entered where all frames are open. -/
theorem CursorsFramed.enterable {s : RenderState} (h : CursorsFramed t env cursors s.frames)
    {name : String} {table : Nat} (found : s.definition? name = some (.body table)) :
    Enterable env s.frames table := by
  unfold RenderState.definition? at found
  generalize s.frames = frames at h found
  induction frames generalizing cursors with
  | nil => cases found
  | cons frame outer ih =>
    cases cursors with
    | nil => exact h.elim
    | cons cursor cursors =>
      obtain ⟨_, definitions, rest⟩ := h
      rw [List.findSome?_cons] at found
      cases here : frame.definitions.find? name with
      | some other =>
        rw [here] at found
        cases found
        exact definitions name table here
      | none =>
        rw [here] at found
        exact (ih rest found).cons frame

section Cursor

variable {cursor : TableCursor} {outer : List TableCursor} {rest : List Node}

theorem CursorsFramed.exists_frame (h : CursorsFramed t env (cursor :: outer) frames) :
    ∃ frame inner, frames = frame :: inner := by
  cases frames with
  | nil => exact h.elim
  | cons frame inner => exact ⟨frame, inner, rfl⟩

/-- All names that can be seen where the innermost cursor stands are live. -/
theorem CursorsFramed.live (h : CursorsFramed t env (cursor :: outer) frames) :
    ∃ front, t.table cursor.table = front ++ cursor.rest ∧
      Machine.Apart front.getLast? cursor.rest ∧
      LiveIn frames (scopesAt env cursor.table front) := by
  obtain ⟨frame, inner, rfl⟩ := h.exists_frame
  obtain ⟨front, own, around, place, apart, scopes, has⟩ := h.1.stands
  refine ⟨front, place, apart, ?_⟩
  have entry := Node.eq_cons_of_scopesAfter scopes
  have live := h.1.around
  rw [entry] at live
  rw [scopes]
  exact .of_has has live

/-- The innermost cursor goes on behind nodes that declare nothing. -/
theorem CursorsFramed.past (h : CursorsFramed t env (cursor :: outer) frames) (front : List Node)
    (past : cursor.rest = front ++ rest) (nothing : ∀ node ∈ front, node.declares = [])
    (apart : Machine.Apart front.getLast? rest) (place : Option String) (settled : Bool) :
    CursorsFramed t env ({ cursor with rest, place, settled } :: outer) frames := by
  obtain ⟨frame, inner, rfl⟩ := h.exists_frame
  obtain ⟨framed, definitions, below⟩ := h
  obtain ⟨before, own, around, stands, apart', scopes, has⟩ := framed.stands
  refine ⟨⟨⟨before ++ front, own, around, ?_, ?_, ?_, has⟩, framed.around, framed.pass⟩,
    definitions, below⟩
  · rw [stands, past, List.append_assoc]
  · cases last : front.getLast? with
    | none =>
      rw [List.getLast?_eq_none_iff] at last
      subst last
      rw [past] at apart'
      rwa [List.append_nil]
    | some node =>
      rw [List.getLast?_append, last]
      rwa [last] at apart
  · unfold scopesAt
    rw [Node.scopesAfter_append, Node.scopesAfter_of_declares nothing]
    exact scopes

/-- The innermost cursor goes on behind a declaration, whose name is set. -/
theorem CursorsFramed.declare {frame : Frame} (h : CursorsFramed t env (cursor :: outer)
      (frame :: frames)) {name : String} {constant : Bool} {value : Option Expr}
    (here : cursor.rest = .declare name constant value :: rest) (place : Option String)
    (x : Value) :
    CursorsFramed t env ({ cursor with rest, place } :: outer)
      ({ frame with locals := frame.locals.insert name x } :: frames) := by
  obtain ⟨framed, definitions, below⟩ := h
  obtain ⟨front, own, around, stands, _, scopes, has⟩ := framed.stands
  have more : NamesKept (frame :: frames)
      ({ frame with locals := frame.locals.insert name x } :: frames) :=
    .cons (fun _ live => Entries.find?_insert_isSome.mpr (.inr live)) (NamesKept.refl frames)
  refine ⟨⟨⟨front ++ [.declare name constant value], own.insert name constant, around, ?_, ?_, ?_,
    ?_⟩, framed.around, framed.pass⟩, ?_, below⟩
  · rw [stands, here, List.append_assoc]
    rfl
  · rw [List.getLast?_concat]
    exact fun _ _ _ _ => id
  · unfold scopesAt at scopes ⊢
    rw [Node.scopesAfter_concat, scopes]
    rfl
  · intro other
    rw [Entries.find?_insert_isSome, Entries.find?_insert_isSome, has other]
  · exact fun name table found => (definitions name table found).kept more

/-- A name may be defined as a table that can be entered here. -/
theorem CursorsFramed.define {frame : Frame} (h : CursorsFramed t env (cursor :: outer)
      (frame :: frames)) (name : String) {definition : Definition}
    (enterable : ∀ table, definition = .body table → Enterable env (frame :: frames) table) :
    CursorsFramed t env (cursor :: outer)
      ({ frame with definitions := frame.definitions.insert name definition } :: frames) := by
  refine ⟨⟨h.1.stands, h.1.around, h.1.pass⟩, ?_, h.2.2⟩
  intro other table found
  by_cases same : other = name
  · subst same
    rw [Entries.find?_insert_self] at found
    exact enterable table (Option.some.inj found)
  · rw [Entries.find?_insert_of_ne same] at found
    exact h.2.1 other table found

/-- A table is entered with the names that its scope has at the start. -/
theorem CursorsFramed.enter (h : CursorsFramed t env cursors frames) {table : Nat} {own : Names}
    {around : Scopes} {bindings : Bindings} (entry : env table = own :: around)
    (live : LiveIn frames around)
    (bound : ∀ name, (bindings.find? name).isSome = true ↔ (own.find? name).isSome = true)
    (encoder : Encoder) {pass : Option Pass} (passes : ∀ p, pass = some p → p.BindsOwn own) :
    CursorsFramed t env ({ table, rest := t.table table, encoder, pass } :: cursors)
      ({ locals := bindings } :: frames) := by
  refine ⟨⟨⟨[], own, around, rfl, fun _ _ _ _ => id, entry, bound⟩, ?_, ?_⟩, ?_, h⟩
  · rw [entry]
    exact live
  · rw [entry]
    exact passes
  · intro name table found
    cases found

/-- A table is entered that has no names at the start, in no pass. -/
theorem CursorsFramed.enterEmpty (h : CursorsFramed t env cursors frames) {table : Nat}
    (enterable : Enterable env frames table) (encoder : Encoder) :
    CursorsFramed t env ({ table, rest := t.table table, encoder } :: cursors)
      ({ locals := [] } :: frames) := by
  obtain ⟨own, around, entry, none, live⟩ := enterable
  refine h.enter entry live (fun name => ?_) encoder (by rintro p ⟨⟩)
  rw [none name]
  exact Iff.rfl

/-- The innermost table is walked once more, with what its block binds. -/
theorem CursorsFramed.again (h : CursorsFramed t env (cursor :: outer) frames) {pass : Pass}
    (inPass : cursor.pass = some pass) {values : List Value} (mode : PassMode)
    (runs : (pass.behaviour.again pass.run values).1 ≠ .discard) :
    CursorsFramed t env
      ({ table := cursor.table
         rest := t.table cursor.table
         encoder := cursor.encoder
         pass := some { pass with run := (pass.behaviour.again pass.run values).2, mode } } ::
        outer)
      ({ locals := (pass.behaviour.again pass.run values).2.bindings } :: frames.tail) := by
  obtain ⟨frame, inner, rfl⟩ := h.exists_frame
  obtain ⟨framed, _, below⟩ := h
  obtain ⟨⟨declared, made⟩, own, bindings⟩ := framed.pass pass inPass
  obtain ⟨front, first, around, _, _, scopes, _⟩ := framed.stands
  have entry := Node.eq_cons_of_scopesAfter scopes
  have live := framed.around
  rw [entry] at live
  have bound : ∀ name, ((pass.behaviour.again pass.run values).2.bindings.find? name).isSome =
      true ↔ pass.behaviour.Binds name := by
    intro name
    simp only [Behaviour.again, Entries.find?_insertAll_isSome, bindings name]
    rw [made.mem_pass_iff runs name, or_self]
  refine below.enter entry live (fun name => (bound name).trans (own name).symm) _ ?_
  rintro p ⟨⟩
  exact ⟨⟨declared, made⟩, own, bound⟩

end Cursor

end Framed

end Stencil
