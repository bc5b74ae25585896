import Stencil.Proofs.CursorReads
import Stencil.Proofs.CursorWalk
import Stencil.Proofs.SoundRun

/-!
# Required variables

The variables that a template requires are all that it needs: where a context provides them, every
variable without path has a value whenever it is evaluated. A name that is declared where an
expression stands has a value of its own in a frame.
-/

namespace Stencil

namespace Machine

variable {r : Rendering} {known : Nat → List String}

theorem grounded_of_evaluates {cursor : TableCursor} {outer : List TableCursor} {s : RenderState}
    (h : Sound r known ⟨cursor :: outer, s⟩) {node : Node} {rest : List Node}
    (eq : cursor.rest = node :: rest) {e : Expr} (mem : e ∈ evaluates s node) :
    Grounded r.template known s.frames e := by
  have here (mem : e ∈ node.exprs) : Grounded r.template known s.frames e := h.grounded eq mem
  cases node with
  | output | declare => exact here mem
  | assign v op value =>
    apply here
    rcases List.mem_cons.mp mem with rfl | mem
    · exact List.mem_cons_self
    · split at mem
      · exact .tail _ mem
      · cases mem
  | evaluate name default =>
    simp only [evaluates] at mem
    split at mem
    · rename_i value found
      rw [List.mem_singleton.mp mem]
      exact h.frames.of_definition? found
    · cases mem
    · exact here mem
  | _ => cases mem

/-- What a sound machine evaluates is grounded in the frames in which it is evaluated. -/
theorem Sound.reads {m : Machine} (h : Sound r known m) :
    FramesGrounded r.template known (readState m).frames ∧
      ∀ e ∈ reads m, Grounded r.template known (readState m).frames e := by
  obtain ⟨cursors, s⟩ := m
  cases cursors with
  | nil => exact ⟨h.frames, by simp [Machine.reads]⟩
  | cons cursor outer =>
    obtain ⟨frame, frames, opened⟩ := h.frames_cons
    obtain ⟨table, rest, encoder, place, settled, pass⟩ := cursor
    cases rest with
    | nil =>
      have tail : s.closeFrame.frames = frames := by
        rw [RenderState.closeFrame, opened]
        rfl
      have passes := h.top.pass
      have grounded := h.frames
      rw [opened] at passes grounded
      constructor
      · change FramesGrounded _ _ s.closeFrame.frames
        rw [tail]
        exact grounded.2.2
      · change ∀ e ∈ evaluatesAgain outer pass, Grounded _ _ s.closeFrame.frames e
        rw [tail]
        intro e mem
        unfold evaluatesAgain at mem
        split at mem
        · exact (passes _ rfl).args e mem
        · cases mem
    | cons node rest =>
      refine ⟨h.frames, ?_⟩
      intro e mem
      change Grounded r.template known s.frames e
      simp only [Machine.reads] at mem
      split at mem
      · rename_i eq
        cases eq
      · rename_i name chained behaviour args body more eq
        split at mem
        · cases mem
        · cases eq
          exact h.grounded rfl mem
      · rename_i other more _ eq
        cases eq
        exact grounded_of_evaluates h rfl mem

end Machine

/-- A name is declared behind nodes of a table: by one of them, by the block that the table belongs
to, or where the node stands that the table belongs to. What is spliced into a place is a source of
its own. -/
inductive Template.DeclaredAt (t : Template) : (table : Nat) → (front : List Node) → String → Prop
  | here {table : Nat} {front : List Node} {node : Node} {name : String} (mem : node ∈ front)
      (declares : name ∈ node.declares) : DeclaredAt t table front name
  | bound {table : Nat} {front rest inside : List Node} {before : Node} {body : Nat} {name : String}
      (place : t.table table = front ++ before :: .scope (some body) :: rest)
      (own : before.place? = none) (binds : Node.Binds (some before) name) :
      DeclaredAt t body inside name
  | outer {table : Nat} {front rest inside : List Node} {before : Node} {body : Nat} {name : String}
      (place : t.table table = front ++ before :: .scope (some body) :: rest)
      (own : before.place? = none) (h : DeclaredAt t table front name) :
      DeclaredAt t body inside name

namespace Rendering

variable {r : Rendering} {known : Nat → List String}

theorem mem_namesAfter {names : List String} {nodes : List Node} {node : Node} {name : String}
    (mem : node ∈ nodes) (declares : name ∈ node.declares) :
    name ∈ Node.namesAfter names nodes := by
  obtain ⟨front, rest, rfl⟩ := List.append_of_mem mem
  rw [Node.namesAfter_append]
  exact Node.subset_namesAfter _ rest (List.mem_append_left _ declares)

/-- What is declared at a place is known there. -/
theorem Ready.known_of_declaredAt (h : r.Ready known) {table : Nat} {front : List Node}
    {name : String} (declared : r.template.DeclaredAt table front name) :
    name ∈ Node.namesAfter (known table) front := by
  have carried {table : Nat} {front rest : List Node} {before : Node} {body : Nat}
      (place : r.template.table table = front ++ before :: .scope (some body) :: rest)
      (own : before.place? = none) (name : String)
      (reaches : name ∈ Node.namesAfter (known table) front ∨ Node.Binds (some before) name) :
      name ∈ known body := by
    have behind : r.template.table table = (front ++ [before]) ++ .scope (some body) :: rest := by
      rw [place]
      simp
    refine (h.node behind).carried body rfl ?_ name ?_
    · rw [List.getLast?_concat]
      unfold Node.FromElsewhere
      rw [Option.bind_some, own]
      exact Bool.false_ne_true
    · rw [List.getLast?_concat, Node.namesAfter_append]
      exact reaches.imp_left fun mem => List.mem_append_right _ mem
  induction declared with
  | here mem declares => exact mem_namesAfter mem declares
  | bound place own binds => exact Node.subset_namesAfter _ _ (carried place own _ (.inr binds))
  | outer place own _ ih => exact Node.subset_namesAfter _ _ (carried place own _ (.inl ih))

/-- An expression can be evaluated without a variable missing: each without path has a value, the
local ones in a frame. The expression stands in the template where all that is declared has a value
in a frame. -/
structure Supplied (r : Rendering) (s : RenderState) (e : Expr) : Prop where
  found : ∀ v ∈ e.vars, v.path = [] → (r.find? s v).isSome = true
  ownValue : ∀ v ∈ e.vars, v.rootKey ∉ r.template.required →
    v.scope = none ∧ (s.local? v.member).isSome = true
  declared : ∃ table front node rest, r.template.table table = front ++ node :: rest ∧
    e ∈ node.exprs ∧
    ∀ name, r.template.DeclaredAt table front name → (s.local? name).isSome = true

/-- What a sound machine evaluates is supplied. -/
theorem Ready.supplied (ready : r.Ready known) {m : Machine} (h : Machine.Sound r known m)
    {e : Expr}
    (mem : e ∈ Machine.reads m) : r.Supplied (Machine.readState m) e := by
  obtain ⟨frames, grounded⟩ := h.reads
  have here := grounded e mem
  obtain ⟨table, front, node, rest, place, inside, holds⟩ := id here
  refine ⟨?_, ?_, table, front, node, rest, place, inside, ?_⟩
  · intro v inVars plain
    obtain ⟨base, _, found⟩ := ready.found frames here inVars
    rw [found, plain]
    rfl
  · intro v inVars notRequired
    obtain ⟨plain, known⟩ :=
      (((ready.node place).exprs e inside).vars v inVars).resolve_right notRequired
    exact ⟨plain, holds v.member known⟩
  · intro name declared
    exact holds name (ready.known_of_declaredAt declared)

/-- The error that makes a rendering fail is one of those met. -/
theorem mem_errors_of_render {encoder : Encoder} {name : String}
    (h : r.render encoder = .error (.missingVariable name)) :
    .missingVariable name ∈ (r.walk encoder).errors := by
  unfold render at h
  dsimp only at h
  split at h
  · cases h
  · split at h
    · rename_i e fatal
      cases h
      unfold fatal? at fatal
      dsimp only at fatal
      split at fatal
      · rename_i missing
        cases fatal
        exact List.mem_reverse.mp (List.mem_of_find?_eq_some missing)
      · split at fatal
        · exact List.mem_reverse.mp (List.mem_of_head? fatal)
        · cases fatal
    · cases h

theorem Ready.spelled_of_mentions (ready : r.Ready known) {v : Variable}
    (mentioned : r.template.Mentions v) : v.Spelled := by
  obtain ⟨table, node, e, inside, mem, inVars⟩ := mentioned
  obtain ⟨front, rest, place⟩ := List.append_of_mem inside
  exact ((ready.node place).exprs e mem).settled.spelled v inVars

end Rendering

namespace Template

/-- Where a context from JSON provides all that a template requires, whatever is evaluated is
supplied, at each step up to the end of the walk, and a rendering never fails for a variable without
path. -/
theorem supplied_of_assembled {t : Template} (assembled : Assembled ParsedCore t) {text : String}
    {context : Context} (given : Context.ofJson text = .ok context)
    (complete : context.missing t.required = []) (config : Config) (encoder : Encoder) :
    let r : Rendering := ⟨t, context, config⟩
    Machine.Reaches r (Machine.start r encoder) ⟨[], (r.walk encoder).closeFrame⟩ ∧
      (∀ m, Machine.Reaches r (Machine.start r encoder) m →
        ∀ e ∈ Machine.reads m, r.Supplied (Machine.readState m) e) ∧
      ∀ v, t.Mentions v → v.path = [] → r.render encoder ≠ .error (.missingVariable v.text) := by
  intro r
  obtain ⟨known, covered⟩ := assembled.covered
  have provided : ∀ key ∈ r.template.required, r.context.provides key = true :=
    Context.provides_of_missing complete
  have ready : r.Ready known := ⟨covered, Context.sound_of_ofJson given, provided⟩
  have forward : Forward t.tables.length t.tables :=
    (assembled.mono fun _ h => h.parsed).layout.forward
  have ends : Machine.Reaches r (Machine.start r encoder) ⟨[], (r.walk encoder).closeFrame⟩ :=
    Machine.reaches_walk forward encoder
  have sound {m : Machine} (reaches : Machine.Reaches r (Machine.start r encoder) m) :
      Machine.Sound r known m :=
    Machine.sound_of_reaches ready (Machine.sound_start ready encoder) reaches
  refine ⟨ends, fun m reaches e mem => ready.supplied (sound reaches) mem, ?_⟩
  intro v mentioned plain failed
  have met : .missingVariable v.text ∈ (r.walk encoder).errors :=
    Rendering.mem_errors_of_render failed
  obtain ⟨w, _, spelled, path, same⟩ := (sound ends).errors _ met v.text rfl
  have spelledV : v.Spelled := ready.spelled_of_mentions mentioned
  exact path (Variable.path_of_text spelled spelledV same.symm plain)

/-- A page with a loop, a part spliced behind it, and a context for both. -/
theorem supplied_page_with_loop :
    ∃ page part context,
      Template.parse .core {} "page" "#for(row in rows):#(row)#endfor#inline(\"part\")" = .ok page ∧
      Template.parse .core {} "part" "#(title)" = .ok part ∧
      Context.ofJson "\x7b\"rows\":[1],\"title\":\"A\"\x7d" = .ok context ∧
      (page.inlineTemplate "part" part).1.required = ["rows", "title"] ∧
      ∀ m, Machine.Reaches ⟨(page.inlineTemplate "part" part).1, context, {}⟩
        (Machine.start ⟨(page.inlineTemplate "part" part).1, context, {}⟩ .identity) m →
        ∀ e ∈ Machine.reads m, Rendering.Supplied
          ⟨(page.inlineTemplate "part" part).1, context, {}⟩ (Machine.readState m) e := by
  have run : (match
      Template.parse .core {} "page" "#for(row in rows):#(row)#endfor#inline(\"part\")",
      Template.parse .core {} "part" "#(title)" with
      | .ok page, .ok part => (page.inlineTemplate "part" part).1.required
      | _, _ => []) = ["rows", "title"] := by decide +kernel
  have filled : (match Context.ofJson "\x7b\"rows\":[1],\"title\":\"A\"\x7d" with
      | .ok context => context.missing ["rows", "title"]
      | .error _ => ["rows"]) = [] := by decide +kernel
  split at run
  · rename_i page part hpage hpart
    split at filled
    · rename_i context given
      have made : Assembled ParsedCore (page.inlineTemplate "part" part).1 :=
        .inlineTemplate "part" (.given ⟨_, _, _, hpage⟩) (.given ⟨_, _, _, hpart⟩)
      have complete : context.missing (page.inlineTemplate "part" part).1.required = [] := by
        rw [run]
        exact filled
      refine ⟨page, part, context, hpage, hpart, given, run, ?_⟩
      exact (supplied_of_assembled made given complete {} .identity).2.1
    · cases filled
  · cases run

end Template

end Stencil
