import Stencil.Proofs.Coverage
import Stencil.Proofs.CursorMachine

/-!
# Live names

While a template is rendered, a name is live if some frame has a value for it. Each open scope has
the frames for all names that are known where it is walked, and each definition keeps the frames of
the names that were known where it was made.
-/

namespace Stencil

/-- Each name has a value in some frame. -/
def Holds (frames : List Frame) (names : List String) : Prop :=
  ∀ name ∈ names, (frames.findSome? (·.locals.find? name)).isSome = true

theorem findSome?_cons_isSome {α β : Type} {f : α → Option β} {a : α} {more : List α} :
    ((a :: more).findSome? f).isSome = true ↔
      (f a).isSome = true ∨ (more.findSome? f).isSome = true := by
  rw [List.findSome?_cons]
  cases f a with
  | none => simp
  | some b => simp

theorem Holds.cons {frames : List Frame} {names : List String} (h : Holds frames names)
    (frame : Frame) : Holds (frame :: frames) names :=
  fun name mem => findSome?_cons_isSome.mpr (.inr (h name mem))

/-- All values of entries are plain. -/
def AllSound (entries : List (String × Value)) : Prop := ∀ entry ∈ entries, entry.2.Sound

/-- A frame after some steps: it keeps its definitions and has at least the same variables. -/
structure Frame.Grows (a b : Frame) : Prop where
  definitions : b.definitions = a.definitions
  names : ∀ name, (a.locals.find? name).isSome = true → (b.locals.find? name).isSome = true
  plain : AllSound a.locals → AllSound b.locals

theorem Frame.Grows.refl (a : Frame) : a.Grows a := ⟨rfl, fun _ => id, id⟩

theorem Frame.Grows.insert (a : Frame) (name : String) {value : Value}
    (plain : value.Sound) : a.Grows { a with locals := a.locals.insert name value } where
  definitions := rfl
  names := fun _ live => Entries.find?_insert_isSome.mpr (.inr live)
  plain := by
    intro old entry mem
    rcases Entries.mem_insert mem with rfl | mem
    · exact plain
    · exact old entry mem

/-- Frames after some steps, the same scopes being open. -/
def FramesGrow : List Frame → List Frame → Prop := List.Forall₂ Frame.Grows

theorem FramesGrow.refl (frames : List Frame) : FramesGrow frames frames :=
  List.forall₂_same.mpr fun a _ => .refl a

/-- Frames with at least the same variables. -/
def NamesKept : List Frame → List Frame → Prop :=
  List.Forall₂ fun a b =>
    ∀ name, (a.locals.find? name).isSome = true → (b.locals.find? name).isSome = true

theorem NamesKept.refl (frames : List Frame) : NamesKept frames frames :=
  List.forall₂_same.mpr fun _ _ _ => id

theorem FramesGrow.kept {frames frames' : List Frame} (h : FramesGrow frames frames') :
    NamesKept frames frames' :=
  h.imp fun _ _ grows => grows.names

theorem Holds.kept {frames frames' : List Frame} {names : List String} (h : Holds frames names)
    (kept : NamesKept frames frames') : Holds frames' names := by
  intro name mem
  have live := h name mem
  clear h mem
  induction kept with
  | nil => exact live
  | cons first _ ih =>
    rcases findSome?_cons_isSome.mp live with here | outer
    · exact findSome?_cons_isSome.mpr (.inl (first name here))
    · exact findSome?_cons_isSome.mpr (.inr (ih outer))

theorem framesGrow_setLocal (s : RenderState) (name : String) {value : Value}
    (plain : value.Sound) : FramesGrow s.frames (s.setLocal name value).frames := by
  unfold RenderState.setLocal RenderState.onTop
  split
  · rename_i top outer eq
    rw [eq]
    exact .cons (.insert top name plain) (FramesGrow.refl outer)
  · exact .refl _

theorem framesGrow_assignIn {name : String} {value : Value} (plain : value.Sound)
    {frames frames' : List Frame} (h : RenderState.assignIn name value frames = some frames') :
    FramesGrow frames frames' := by
  induction frames generalizing frames' with
  | nil => cases h
  | cons frame outer ih =>
    simp only [RenderState.assignIn] at h
    split at h
    · cases h
      exact .cons (.insert frame name plain) (FramesGrow.refl outer)
    · obtain ⟨more, made, rfl⟩ := Option.map_eq_some_iff.mp h
      exact .cons (.refl frame) (ih made)

theorem framesGrow_assign (s : RenderState) (name : String) {value : Value}
    (plain : value.Sound) : FramesGrow s.frames (s.assign name value).frames := by
  unfold RenderState.assign
  split
  · rename_i frames made
    exact framesGrow_assignIn plain made
  · exact framesGrow_setLocal s name plain

section Grounded

variable (t : Template) (known : Nat → List String)

/-- An expression of a node of the template, where the names that are known at the node are live. -/
def Grounded (frames : List Frame) (e : Expr) : Prop :=
  ∃ table front node rest, t.table table = front ++ node :: rest ∧ e ∈ node.exprs ∧
    Holds frames (Node.namesAfter (known table) front)

/-- What a definition refers to can be used where these frames are open. -/
def Definition.Grounded (frames : List Frame) : Definition → Prop
  | .value e => Stencil.Grounded t known frames e
  | .body table => Holds frames (known table)

/-- The variables of frames are plain, and their definitions grounded in the frames from their own
on. -/
def FramesGrounded : List Frame → Prop
  | [] => True
  | frame :: outer =>
    AllSound frame.locals ∧
      (∀ entry ∈ frame.definitions, entry.2.Grounded t known (frame :: outer)) ∧
      FramesGrounded outer

/-- A pass over a table can be repeated where these frames are open. -/
structure Pass.Grounded (frames : List Frame) (table : Nat) (pass : Pass) : Prop where
  made : ∃ declared, Block.Made pass.name ⟨pass.behaviour, pass.args, declared⟩
  args : ∀ e ∈ pass.args.values, Stencil.Grounded t known frames e
  entry : ∀ name ∈ known table, Holds frames [name] ∨ pass.behaviour.Binds name
  entered : ∀ v ∈ pass.run.entered, v.Sound
  bindings : AllSound pass.run.bindings

/-- A cursor stands behind nodes of its table where the names that are known are live, but not
between a block and its scope. -/
structure StandsBehind (frames : List Frame) (table : Nat) (front rest : List Node) : Prop where
  place : t.table table = front ++ rest
  holds : Holds frames (Node.namesAfter (known table) front)
  apart : ∀ body more, rest = .scope (some body) :: more → ∀ name, ¬Node.Binds front.getLast? name

/-- A cursor and its pass are grounded in frames. -/
structure TableCursor.Grounded (frames : List Frame) (cursor : TableCursor) : Prop where
  place : ∃ front, StandsBehind t known frames cursor.table front cursor.rest
  pass : ∀ pass, cursor.pass = some pass → pass.Grounded t known frames.tail cursor.table

/-- Each cursor is grounded in the frames from its own on. -/
def CursorsGrounded : List TableCursor → List Frame → Prop
  | [], [] => True
  | cursor :: cursors, frame :: frames =>
    cursor.Grounded t known (frame :: frames) ∧ CursorsGrounded cursors frames
  | _, _ => False

variable {t known} {frames frames' : List Frame}

theorem Grounded.kept {e : Expr} (h : Grounded t known frames e)
    (kept : NamesKept frames frames') : Grounded t known frames' e := by
  obtain ⟨table, front, node, rest, place, mem, holds⟩ := h
  exact ⟨table, front, node, rest, place, mem, holds.kept kept⟩

theorem Grounded.cons {e : Expr} (h : Grounded t known frames e) (frame : Frame) :
    Grounded t known (frame :: frames) e := by
  obtain ⟨table, front, node, rest, place, mem, holds⟩ := h
  exact ⟨table, front, node, rest, place, mem, holds.cons frame⟩

theorem Definition.Grounded.kept {d : Definition} (h : d.Grounded t known frames)
    (kept : NamesKept frames frames') : d.Grounded t known frames' := by
  cases d with
  | value e => exact Stencil.Grounded.kept h kept
  | body table => exact Holds.kept h kept

theorem Definition.Grounded.cons {d : Definition} (h : d.Grounded t known frames)
    (frame : Frame) : d.Grounded t known (frame :: frames) := by
  cases d with
  | value e => exact Stencil.Grounded.cons h frame
  | body table => exact Holds.cons h frame

theorem FramesGrounded.grow (h : FramesGrounded t known frames)
    (grow : FramesGrow frames frames') : FramesGrounded t known frames' := by
  induction grow with
  | nil => trivial
  | cons first rest ih =>
    obtain ⟨plain, definitions, outer⟩ := h
    refine ⟨first.plain plain, ?_, ih outer⟩
    intro entry mem
    rw [first.definitions] at mem
    have kept : NamesKept (_ :: _) (_ :: _) := FramesGrow.kept (.cons first rest)
    exact (definitions entry mem).kept kept

theorem Pass.Grounded.kept {table : Nat} {pass : Pass} (h : pass.Grounded t known frames table)
    (kept : NamesKept frames frames') : pass.Grounded t known frames' table where
  made := h.made
  args := fun e mem => (h.args e mem).kept kept
  entry := fun name mem => (h.entry name mem).imp_left fun live => live.kept kept
  entered := h.entered
  bindings := h.bindings

theorem TableCursor.Grounded.kept {cursor : TableCursor} (h : cursor.Grounded t known frames)
    (kept : NamesKept frames frames') : cursor.Grounded t known frames' := by
  constructor
  · obtain ⟨front, place, holds, apart⟩ := h.place
    exact ⟨front, place, holds.kept kept, apart⟩
  · intro pass eq
    have tails : NamesKept frames.tail frames'.tail := by
      cases kept with
      | nil => exact .nil
      | cons _ rest => exact rest
    exact (h.pass pass eq).kept tails

theorem CursorsGrounded.kept {cursors : List TableCursor}
    (h : CursorsGrounded t known cursors frames)
    (kept : NamesKept frames frames') : CursorsGrounded t known cursors frames' := by
  induction kept generalizing cursors with
  | nil => exact h
  | cons first rest ih =>
    cases cursors with
    | nil => exact h
    | cons cursor cursors => exact ⟨h.1.kept (.cons first rest), ih h.2⟩

/-- A definition that is found is grounded where all frames are open. -/
theorem FramesGrounded.of_definition? {s : RenderState} (h : FramesGrounded t known s.frames)
    {name : String} {d : Definition} (found : s.definition? name = some d) :
    d.Grounded t known s.frames := by
  unfold RenderState.definition? at found
  generalize s.frames = frames at h found
  induction frames with
  | nil => cases found
  | cons frame outer ih =>
    obtain ⟨_, definitions, rest⟩ := h
    rw [List.findSome?_cons] at found
    cases here : frame.definitions.find? name with
    | some other =>
      rw [here] at found
      cases found
      exact definitions _ (Entries.mem_of_find? here)
    | none =>
      rw [here] at found
      exact (ih rest found).cons frame

/-- A local variable that is found is plain. -/
theorem FramesGrounded.plain_of_local? {s : RenderState} (h : FramesGrounded t known s.frames)
    {name : String} {value : Value} (found : s.local? name = some value) :
    value.Sound := by
  unfold RenderState.local? at found
  generalize s.frames = frames at h found
  induction frames with
  | nil => cases found
  | cons frame outer ih =>
    obtain ⟨plain, _, rest⟩ := h
    rw [List.findSome?_cons] at found
    cases here : frame.locals.find? name with
    | some other =>
      rw [here] at found
      cases found
      exact plain _ (Entries.mem_of_find? here)
    | none =>
      rw [here] at found
      exact ih rest found

theorem namesKept_define (s : RenderState) (name : String) (d : Definition) :
    NamesKept s.frames (s.define name d).frames := by
  unfold RenderState.define RenderState.onTop
  split
  · rename_i top outer eq
    rw [eq]
    exact .cons (fun _ => id) (NamesKept.refl outer)
  · exact .refl _

/-- A definition may be made that is grounded in the open frames. -/
theorem FramesGrounded.define {s : RenderState} (h : FramesGrounded t known s.frames)
    (name : String) {d : Definition} (grounded : d.Grounded t known s.frames) :
    FramesGrounded t known (s.define name d).frames := by
  unfold RenderState.define RenderState.onTop
  split
  · rename_i top outer eq
    rw [eq] at h grounded
    obtain ⟨plain, definitions, rest⟩ := h
    -- definitions speak of the variables of frames alone
    have same {old : Definition} (h : old.Grounded t known (top :: outer)) :
        old.Grounded t known
          ({ top with definitions := top.definitions.insert name d } :: outer) := by
      cases old <;> exact h
    refine ⟨plain, ?_, rest⟩
    intro entry mem
    rcases Entries.mem_insert mem with rfl | mem
    · exact same grounded
    · exact same (definitions entry mem)
  · exact h

end Grounded

end Stencil
