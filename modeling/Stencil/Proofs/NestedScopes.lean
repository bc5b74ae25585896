import Mathlib.Data.List.Chain
import Stencil.Proofs.ScopeEffects

/-!
# Scopes that are open where they stand

A scope is entered where the text refers to its table, or where a definition is evaluated. As long
as no evaluation is under way, the scopes that are open are those that the text puts around the
place, so a name is looked up in the frames as the parser looked it up.
-/

namespace Stencil

namespace Node

/-- Behind nodes that declare no name twice, a scope has what it had and what they declare. -/
theorem find?_scopesAfter {env : Nat → Scopes} {before : Option Node} {own own' : Names}
    {around : Scopes} {front : List Node} (h : AllScoped env before (own :: around) front)
    (behind : scopesAfter (own :: around) front = own' :: around) {name : String}
    {constant : Bool} : own'.find? name = some constant ↔
      own.find? name = some constant ∨ ∃ value, .declare name constant value ∈ front := by
  induction front generalizing before own with
  | nil =>
    cases behind
    simp
  | cons node front ih =>
    by_cases nothing : node.declares = []
    · have same := declareIn_of_declares nothing (own :: around)
      have inside := h.2
      change scopesAfter (node.declareIn _) front = _ at behind
      rw [same] at behind inside
      rw [ih inside behind]
      refine or_congr_right (exists_congr fun value => ?_)
      rw [List.mem_cons, or_iff_right]
      rintro rfl
      cases nothing
    · cases node with
      | declare other c given =>
        have fresh : own.find? other = none := h.1.fresh other c given rfl
        rw [ih h.2 behind]
        by_cases same : name = other
        · subst same
          rw [Entries.find?_insert_self, fresh]
          simp only [Option.some.injEq, reduceCtorEq, false_or, List.mem_cons, declare.injEq,
            true_and]
          constructor
          · rintro (rfl | ⟨value, mem⟩)
            · exact ⟨given, .inl ⟨rfl, rfl⟩⟩
            · exact ⟨value, .inr mem⟩
          · rintro ⟨value, ⟨rfl, -⟩ | mem⟩
            · exact .inl rfl
            · exact .inr ⟨value, mem⟩
        · rw [Entries.find?_insert_of_ne same]
          simp [same]
      | _ => exact absurd rfl nothing

end Node

namespace TableCursor

variable (t : Template)

/-- The names that are declared where a cursor stands in its table: behind their declaration, or
because the block binds them in its pass. -/
def Declares (cursor : TableCursor) (name : String) (constant : Bool) : Prop :=
  ∃ front, t.table cursor.table = front ++ cursor.rest ∧
    ((∃ value, .declare name constant value ∈ front) ∨
      constant = true ∧ ∃ pass, cursor.pass = some pass ∧ pass.behaviour.Binds name)

/-- A cursor has come to the end of an evaluation. While there are others above it, the definition's
body is walked. -/
def Evaluates (cursor : TableCursor) : Prop :=
  ∃ front name default, t.table cursor.table = front ++ .evaluate name default :: cursor.rest

/-- The table of a cursor is walked where another table refers to it. -/
def Within (cursor outer : TableCursor) : Prop :=
  ∃ front, t.table outer.table = front ++ .scope (some cursor.table) :: outer.rest

variable {t} {env : Nat → Scopes} {cursor cursor' : TableCursor} {frame : Frame}
  {frames : List Frame} {name : String} {constant : Bool}

/-- What is declared stays declared further on in the table. -/
theorem Declares.past (h : cursor.Declares t name constant) (table : cursor'.table = cursor.table)
    (pass : cursor'.pass = cursor.pass) {passed : List Node}
    (rest : cursor.rest = passed ++ cursor'.rest) : cursor'.Declares t name constant := by
  obtain ⟨front, place, here⟩ := h
  refine ⟨front ++ passed, ?_, ?_⟩
  · rw [table, place, rest, List.append_assoc]
  · rw [pass]
    exact here.imp_left fun ⟨value, mem⟩ => ⟨value, List.mem_append_left passed mem⟩

/-- The scope where a cursor stands has the names of its frame. -/
theorem Framed.scopes (h : cursor.Framed t env frame frames) {front : List Node}
    (place : t.table cursor.table = front ++ cursor.rest) :
    ∃ own around, scopesAt env cursor.table front = own :: around ∧ frame.Has own ∧
      LiveIn frames around := by
  obtain ⟨front', own, around, place', -, behind, has⟩ := h.stands
  obtain rfl : front' = front := List.append_cancel_right (place'.symm.trans place)
  have live := h.around
  rw [Node.eq_cons_of_scopesAfter behind] at live
  exact ⟨own, around, behind, has, live⟩

section Framed

variable (all : t.Scoped env) (h : cursor.Framed t env frame frames) {front : List Node}
  {own : Names} {around : Scopes} (place : t.table cursor.table = front ++ cursor.rest)
  (behind : scopesAt env cursor.table front = own :: around)

include all place behind

theorem find?_iff : own.find? name = some constant ↔
    ((env cursor.table).headD []).find? name = some constant ∨
      ∃ value, .declare name constant value ∈ front := by
  have entry := Node.eq_cons_of_scopesAfter behind
  have nodes := all.table cursor.table
  rw [place] at nodes
  have passed := (Node.allScoped_append.mp nodes).1
  unfold scopesAt at behind
  rw [entry] at passed behind
  exact Node.find?_scopesAfter passed behind

/-- A scope has a variable only because it is declared. -/
theorem declares_of_find? (found : own.find? name = some false) :
    cursor.Declares t name false := by
  rcases (find?_iff all place behind).mp found with bound | declared
  · exact absurd bound (all.constants _ _)
  · exact ⟨front, place, .inl declared⟩

include h

/-- What is declared at a cursor is in its scope. -/
theorem Framed.find?_of_declares (declares : cursor.Declares t name constant) :
    own.find? name = some constant := by
  obtain ⟨front', place', here⟩ := declares
  obtain rfl : front' = front := List.append_cancel_right (place'.symm.trans place)
  apply (find?_iff all place behind).mpr
  rcases here with declared | ⟨rfl, pass, inPass, binds⟩
  · exact .inr declared
  · left
    have bound := ((h.pass pass inPass).own name).mpr binds
    have constants := all.constants cursor.table name
    cases found : ((env cursor.table).headD []).find? name with
    | none =>
      rw [found] at bound
      cases bound
    | some constant =>
      cases constant with
      | true => rfl
      | false => exact absurd found constants

end Framed

end TableCursor

/-- Each scope was entered where the text around it refers to it, or for an evaluation. -/
def Entered (t : Template) (cursors : List TableCursor) : Prop :=
  cursors.IsChain fun cursor outer => cursor.Within t outer ∨ outer.Evaluates t

/-- A name is that of a variable in the scope of a cursor with others above it. The scopes are those
that the text puts around each other, and none of those further in declares the name. -/
structure RefersTo (t : Template) (name : String) (above : List TableCursor)
    (target : TableCursor) : Prop where
  isVariable : target.Declares t name false
  innermost : ∀ cursor ∈ above, ∀ constant, ¬cursor.Declares t name constant
  nested : (above ++ [target]).IsChain (TableCursor.Within t)

variable {t : Template} {env : Nat → Scopes} {frames : List Frame} {name : String}

theorem CursorsFramed.of_append {upper cursors : List TableCursor}
    (h : CursorsFramed t env (upper ++ cursors) frames) :
    ∃ inner outer, frames = inner ++ outer ∧ inner.length = upper.length ∧
      CursorsFramed t env cursors outer := by
  induction upper generalizing frames with
  | nil => exact ⟨[], frames, rfl, rfl, h⟩
  | cons cursor upper ih =>
    obtain ⟨frame, inner, rfl⟩ := h.exists_frame
    obtain ⟨inside, outer, rfl, length, rest⟩ := ih h.2.2
    exact ⟨frame :: inside, outer, rfl, congrArg Nat.succ length, rest⟩

/-- The scopes around a table that is walked where it stands are those of that place. -/
theorem lookup?_of_within (all : t.Scoped env) {cursor outer : TableCursor}
    (within : cursor.Within t outer) {own : Names} {around : Scopes} {front : List Node}
    (entry : env cursor.table = own :: around)
    (place : t.table outer.table = front ++ outer.rest) {constant : Bool}
    (found : around.lookup? name = some constant) :
    (scopesAt env outer.table front).lookup? name = some constant := by
  obtain ⟨before, stands⟩ := within
  have node := all.node stands
  have both : front ++ outer.rest =
      (before ++ [.scope (some cursor.table)]) ++ outer.rest := by
    rw [← place, stands, List.append_assoc, List.singleton_append]
  have here : front = before ++ [.scope (some cursor.table)] := List.append_cancel_right both
  have same : scopesAt env outer.table front = Node.scopesAfter (env outer.table) before := by
    rw [here]
    exact Node.scopesAfter_concat _ _ _
  rw [same]
  by_cases elsewhere : Node.FromElsewhere before.getLast?
  · -- a spliced table has no scopes around it
    rw [node.spliced _ rfl elsewhere] at entry
    cases entry
    cases found
  · obtain ⟨bound, entered, -⟩ := node.entered _ rfl elsewhere
    rw [entered] at entry
    cases entry
    exact found

/-- A name that is declared in the innermost scope is that of its variable. -/
theorem refersTo_here (all : t.Scoped env) {cursor : TableCursor} {outer : List TableCursor}
    {frame : Frame} {inner : List Frame} {front : List Node} {own : Names} {around : Scopes}
    (place : t.table cursor.table = front ++ cursor.rest)
    (behind : scopesAt env cursor.table front = own :: around)
    (here : own.find? name = some false) (has : frame.Has own) :
    ∃ above target below, cursor :: outer = above ++ target :: below ∧
      above.length = (frame :: inner).findIdx (·.locals.has name) ∧
      RefersTo t name above target := by
  have first : frame.locals.has name = true := (has name).mpr (by rw [here]; rfl)
  have index : (frame :: inner).findIdx (·.locals.has name) = 0 := by
    simp [List.findIdx_cons, first]
  refine ⟨[], cursor, outer, rfl, index.symm, cursor.declares_of_find? all place behind here, ?_,
    .singleton cursor⟩
  rintro site ⟨⟩

/-- Where no evaluation is under way up to the first frame that has a name, it has the variable that
the text refers to; by induction on the scopes from the innermost outward. -/
theorem exists_refersTo (all : t.Scoped env) {cursor : TableCursor} {outer : List TableCursor}
    (framed : CursorsFramed t env (cursor :: outer) frames) (entered : Entered t (cursor :: outer))
    {front : List Node} (place : t.table cursor.table = front ++ cursor.rest)
    (found : (scopesAt env cursor.table front).lookup? name = some false)
    (direct : ∀ site ∈ outer.take (frames.findIdx (·.locals.has name)), ¬site.Evaluates t) :
    ∃ above target below, cursor :: outer = above ++ target :: below ∧
      above.length = frames.findIdx (·.locals.has name) ∧ RefersTo t name above target := by
  induction outer generalizing cursor frames front with
  | nil =>
    obtain ⟨frame, inner, rfl⟩ := framed.exists_frame
    obtain ⟨own, around, behind, has, live⟩ := framed.1.scopes place
    rw [behind, Scopes.lookup?_cons] at found
    have none : inner = [] := List.eq_nil_of_length_eq_zero framed.2.2.length_eq
    cases here : own.find? name with
    | some constant =>
      rw [here] at found
      cases found
      exact refersTo_here all place behind here has
    | none =>
      rw [here] at found
      have held := live name (Scopes.declares_of_lookup? found) name List.mem_cons_self
      rw [none] at held
      cases held
  | cons next outer ih =>
    obtain ⟨frame, inner, rfl⟩ := framed.exists_frame
    obtain ⟨own, around, behind, has, -⟩ := framed.1.scopes place
    rw [behind, Scopes.lookup?_cons] at found
    cases here : own.find? name with
    | some constant =>
      rw [here] at found
      cases found
      exact refersTo_here all place behind here has
    | none =>
      rw [here, Option.none_or] at found
      have lacks : frame.locals.has name = false := by
        have no := mt (has name).mp (by simp [here])
        simpa [Entries.has] using no
      have index : (frame :: inner).findIdx (·.locals.has name) =
          inner.findIdx (·.locals.has name) + 1 := by
        simp [List.findIdx_cons, lacks]
      rw [index] at direct ⊢
      have within : cursor.Within t next := (List.isChain_cons_cons.mp entered).1.resolve_right
        (direct next List.mem_cons_self)
      obtain ⟨front', place', -, -⟩ := framed.2.2.live
      obtain ⟨above, target, below, eq, length, refers⟩ := ih framed.2.2
        (List.isChain_cons_cons.mp entered).2 place'
        (lookup?_of_within all within (Node.eq_cons_of_scopesAfter behind) place' found)
        fun site mem => direct site (.tail _ mem)
      refine ⟨cursor :: above, target, below, congrArg _ eq, congrArg Nat.succ length,
        refers.isVariable, ?_, ?_⟩
      · rintro site (_ | ⟨_, mem⟩) constant declares
        · rw [framed.1.find?_of_declares all place behind declares] at here
          cases here
        · exact refers.innermost site mem constant declares
      · refine List.IsChain.cons refers.nested fun site mem => ?_
        have first : site = next := by
          cases above <;> cases eq <;> cases mem <;> rfl
        exact first ▸ within

end Stencil
