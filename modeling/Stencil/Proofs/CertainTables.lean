import Mathlib.Algebra.GroupWithZero.Nat
import Mathlib.Algebra.Order.BigOperators.Group.List
import Stencil.Proofs.ParallelWalks
import Stencil.Proofs.StepOutput

/-!
# Tables that every rendering comes to

A walk of a table comes to the tables of its places and of its encoder tags, whatever the data are;
whether it comes to the body of a block or of a definition depends on the run. From the first table
on, these are the certain tables of a template. A rendering that succeeds and trims no lines writes
the raw text of each of them, as often as it stands there (`Rendering.weigh_le_of_render`).
-/

namespace Stencil

namespace Node

/-- The body behind the node is walked in some runs only. -/
@[simp]
def hidesBody : Node → Bool
  | block .. | define _ none => true
  | _ => false

/-- The tables that a walk of these nodes comes to in every run; `hidden` tells that the node before
them hides its body. -/
@[simp]
def opened : (hidden : Bool) → List Node → List Nat
  | _, [] => []
  | hidden, node :: rest =>
    (if hidden then [] else node.scopeTarget?.toList) ++ opened node.hidesBody rest

/-- The bytes of a node that is raw text. -/
@[simp]
def rawBytes : Node → Nat
  | raw text => text.utf8ByteSize
  | _ => 0

theorem rawSize_eq (nodes : List Node) : rawSize nodes = (nodes.map rawBytes).sum := by
  have steps (start : Nat) : nodes.foldl (fun total node => match node with
      | .raw text => total + text.utf8ByteSize
      | _ => total) start = start + (nodes.map rawBytes).sum := by
    induction nodes generalizing start with
    | nil => rfl
    | cons node nodes ih =>
      rw [List.foldl_cons, ih, List.map_cons, List.sum_cons]
      cases node <;> simp [Nat.add_assoc]
  exact (steps 0).trans (Nat.zero_add _)

@[simp]
theorem rawSize_cons (node : Node) (nodes : List Node) :
    rawSize (node :: nodes) = node.rawBytes + rawSize nodes := by
  rw [rawSize_eq, rawSize_eq, List.map_cons, List.sum_cons]

/-- Only a scope at the front is hidden. -/
theorem opened_of_not_scope {nodes : List Node}
    (other : ∀ table rest, nodes ≠ .scope (some table) :: rest) (hidden : Bool) :
    opened hidden nodes = opened false nodes := by
  cases nodes with
  | nil => rfl
  | cons node rest =>
    have none : node.scopeTarget? = none := by
      cases node with
      | scope target =>
        cases target with
        | none => rfl
        | some table => exact absurd rfl (other table rest)
      | _ => rfl
    simp [none]

/-- A node that is walked by itself comes to no table. -/
theorem Alone.opened_cons {node : Node} {nodes : List Node} (h : node.Alone nodes)
    (hidden : Bool) : opened hidden (node :: nodes) = opened false nodes := by
  have none : node.scopeTarget? = none := by
    cases node with
    | scope target => exact absurd rfl (h.noScope target)
    | _ => rfl
  have plain : opened hidden (node :: nodes) = opened node.hidesBody nodes := by
    simp [none]
  rw [plain]
  by_cases hides : node.hidesBody = true
  · refine opened_of_not_scope (fun table rest => h.noBody table rest ?_) _
    cases node with
    | block => rfl
    | define name value =>
      cases value with
      | none => rfl
      | some => cases hides
    | _ => cases hides
  · rw [Bool.eq_false_iff.mpr hides]

/-- What a walk comes to is named by a scope. -/
theorem mem_scope_of_opened {nodes : List Node} {hidden : Bool} {table : Nat}
    (mem : table ∈ opened hidden nodes) : .scope (some table) ∈ nodes := by
  induction nodes generalizing hidden with
  | nil => cases mem
  | cons node rest ih =>
    rcases List.mem_append.mp mem with here | behind
    · have target : node.scopeTarget? = some table := by
        cases hidden <;> simp at here
        exact here
      cases node with
      | scope named =>
        cases target
        exact .head _
      | _ => cases target
    · exact .tail _ (ih behind)

end Node

namespace Tables

/-- The tables that a walk of the first table comes to in every run. -/
inductive Certain (table : Nat → List Node) : Nat → Prop
  | first : Certain table 0
  | opened {outer index : Nat} (certain : Certain table outer)
      (mem : index ∈ Node.opened false (table outer)) : Certain table index

/-- The tables that a walk of a table comes to in every run, in order and with repetition, so many
levels deep. -/
def visits (table : Nat → List Node) : (levels : Nat) → (index : Nat) → List Nat
  | 0, _ => []
  | levels + 1, index => index :: (Node.opened false (table index)).flatMap (visits table levels)

/-- A sum over these tables. -/
def weigh (table : Nat → List Node) (weight : List Node → Nat) (levels index : Nat) : Nat :=
  ((visits table levels index).map fun i => weight (table i)).sum

variable (table : Nat → List Node) (weight : List Node → Nat)

theorem weigh_succ (levels index : Nat) : weigh table weight (levels + 1) index =
    weight (table index) +
      ((Node.opened false (table index)).map (weigh table weight levels)).sum := by
  have flat (indices : List Nat) :
      ((indices.flatMap (visits table levels)).map fun i => weight (table i)).sum =
        (indices.map (weigh table weight levels)).sum := by
    induction indices with
    | nil => rfl
    | cons index indices ih =>
      rw [List.flatMap_cons, List.map_append, List.sum_append, ih, List.map_cons, List.sum_cons]
      rfl
  rw [weigh, visits, List.map_cons, List.sum_cons, flat]

/-- A walk comes to more tables if it goes deeper. -/
theorem weigh_mono (index : Nat) : Monotone fun levels => weigh table weight levels index := by
  refine monotone_nat_of_le_succ fun levels => ?_
  induction levels generalizing index with
  | zero => exact Nat.zero_le _
  | succ levels ih =>
    rw [weigh_succ, weigh_succ]
    exact Nat.add_le_add_left (List.sum_le_sum fun i _ => ih i) _

end Tables

/-! ## The bytes that are written -/

namespace Output

/-- The bytes of what has been written. -/
def size (o : Output) : Nat := o.text.utf8ByteSize

variable {o o' : Output}

theorem size_congr (same : o'.marked = o.marked) : o'.size = o.size := by
  have text : o'.text = o.text := by
    rw [← String.ofList_toList (s := o'.text), toList_text, same, ← toList_text,
      String.ofList_toList]
  rw [size, size, text]

theorem size_append {origin : Origin} {text : String}
    (more : o'.marked = o.marked ++ origin.mark text.toList) :
    o'.size = o.size + text.utf8ByteSize := by
  have parts : o'.text = o.text ++ text := by
    rw [← String.ofList_toList (s := o'.text), toList_text, more, List.map_append,
      Origin.map_fst_mark, ← toList_text, String.ofList_append, String.ofList_toList,
      String.ofList_toList]
  rw [size, size, parts, String.utf8ByteSize_append]

/-- Nothing is dropped, and at least these pieces are written. -/
def Takes (o : Output) (written : List Piece) (o' : Output) : Prop :=
  o.dropBlankLine = false → o'.dropBlankLine = false ∧
    o.size + (written.map fun piece => piece.text.utf8ByteSize).sum ≤ o'.size

end Output

namespace Rendering

variable {r : Rendering}

theorem trimLine_eq (untrimmed : r.config.trimBlockLines = false) (s : RenderState) :
    r.trimLine s = s := by
  rw [trimLine, untrimmed, if_neg Bool.false_ne_true]

/-- Without trimming all pieces are written. -/
theorem logs_untrimmed (untrimmed : r.config.trimBlockLines = false) : r.Logs Output.Takes where
  nothing o kept := ⟨kept, le_refl _⟩
  raw o text kept := by
    have whole : o.undropped text = text.toList := by rw [Output.undropped, kept]; rfl
    have more := o.marked_writeRaw text
    rw [whole] at more
    exact ⟨o.dropBlankLine_writeRaw text, (Output.size_append more).ge⟩
  value o text encoder _ := ⟨rfl, (Output.size_append (o.marked_writeValue text encoder)).ge⟩
  mark o _ := ⟨rfl, (Output.size_congr o.marked_markValue).ge⟩
  trim s kept := by
    rw [trimLine_eq untrimmed]
    exact ⟨kept, le_refl _⟩
  trans first second kept := by
    obtain ⟨kept', size⟩ := first kept
    obtain ⟨kept'', size'⟩ := second kept'
    refine ⟨kept'', ?_⟩
    rw [List.map_append, List.sum_append]
    omega

end Rendering

/-- From a state to another, where nothing of a line is dropped and there is room for every scope,
at least so many bytes are written. -/
def RenderState.Grows (bytes : Nat) (s s' : RenderState) : Prop :=
  s.output.dropBlankLine = false → s'.output.dropBlankLine = false ∧
    (s'.exhausted = false → s.exhausted = false ∧ s.output.size + bytes ≤ s'.output.size)

namespace RenderState.Grows

variable {s s' s'' : RenderState} {n m : Nat}

theorem of_same (output : s'.output = s.output) (exhausted : s'.exhausted = s.exhausted) :
    Grows 0 s s' := by
  intro kept
  rw [output, exhausted]
  exact ⟨kept, fun room => ⟨room, le_refl _⟩⟩

theorem refl (s : RenderState) : Grows 0 s s := of_same rfl rfl

theorem trans (h : Grows n s s') (h' : Grows m s' s'') : Grows (n + m) s s'' := by
  intro kept
  obtain ⟨kept', more⟩ := h kept
  obtain ⟨kept'', more'⟩ := h' kept'
  refine ⟨kept'', fun room => ?_⟩
  obtain ⟨room', size'⟩ := more' room
  obtain ⟨room'', size⟩ := more room'
  exact ⟨room'', by omega⟩

theorem mono (h : Grows n s s') (fewer : m ≤ n) : Grows m s s' := by
  intro kept
  obtain ⟨kept', more⟩ := h kept
  exact ⟨kept', fun room => ⟨(more room).1, by have := (more room).2; omega⟩⟩

theorem zero (h : Grows n s s') : Grows 0 s s' := h.mono (Nat.zero_le n)

/-- What happens behind a scope counts for nothing. -/
theorem andThen (h : Grows n s s') (h' : Grows m s' s'') : Grows n s s'' :=
  (h.trans h').mono (Nat.le_add_right n m)

theorem record (h : Grows n s s') (e : EvalError) : Grows n s (s'.record e) :=
  h.andThen (of_same rfl rfl)

section Passes

variable {body : Bindings → RenderState → RenderState} {r : Rendering}
  (bodies : ∀ bindings s, Grows 0 s (body bindings s))
include bodies

theorem runCounted (behaviour : Behaviour) (left : Nat) (run : Run) (s : RenderState) :
    Grows 0 s (Rendering.runCounted body behaviour left run s) := by
  induction left generalizing run s with
  | zero => exact bodies run.bindings s
  | succ left ih =>
    have walked := bodies run.bindings s
    simp only [Rendering.runCounted]
    split
    · exact walked
    · exact walked.andThen (ih _ _)

theorem runIndefinite (name : String) (behaviour : Behaviour) (args : Tuple) (left : Nat)
    (run : Run) (s : RenderState) :
    Grows 0 s (r.runIndefinite body name behaviour args left run s) := by
  induction left generalizing run s with
  | zero => exact (bodies run.bindings s).record _
  | succ left ih =>
    have walked := bodies run.bindings s
    simp only [Rendering.runIndefinite]
    split
    · exact walked.record _
    · split
      · exact walked
      · exact walked.andThen (ih _ _)

theorem runBlock (name : String) (behaviour : Behaviour) (args : Tuple) (s : RenderState) :
    Grows 0 s (r.runBlock body name behaviour args s).2 := by
  simp only [Rendering.runBlock]
  split
  · exact (refl s).record _
  · split
    · exact refl s
    · exact bodies _ s
    · exact runCounted bodies _ _ _ s
    · exact runIndefinite bodies _ _ _ _ _ s

end Passes

variable {r : Rendering} {scope : Nat → Encoder → Bindings → RenderState → RenderState}
  {lower : Nat → Nat}

/-- A node by itself writes its raw text at least. -/
theorem walkNode (untrimmed : r.config.trimBlockLines = false)
    (scopes : ∀ table encoder bindings s, Grows (lower table) s (scope table encoder bindings s))
    (encoder : Encoder) (node : Node) (s : RenderState) :
    Grows node.rawBytes s (r.walkNode scope encoder node s) := by
  rw [Rendering.walkNode_eq]
  split
  · rename_i table found
    obtain ⟨name, default, rfl, -⟩ := Machine.exists_of_bodyOf? found
    exact (scopes table encoder [] s).zero
  · intro kept
    obtain ⟨kept', size⟩ := (Rendering.logs_untrimmed untrimmed).walkNode encoder node kept
    refine ⟨kept', fun room => ⟨(r.quiet_walkNode encoder node).2.symm.trans room, ?_⟩⟩
    refine le_trans (Nat.add_le_add_left ?_ _) size
    cases node with
    | raw text => exact (List.sum_singleton).ge
    | _ => exact Nat.zero_le _

/-- Nodes write their raw text, and what the tables write that they come to in every run. -/
theorem walkNodes (untrimmed : r.config.trimBlockLines = false)
    (scopes : ∀ table encoder bindings s, Grows (lower table) s (scope table encoder bindings s))
    (encoder : Encoder) (place : Option String) (settled : Bool) (nodes : List Node)
    (s : RenderState) :
    Grows (rawSize nodes + ((Node.opened false nodes).map lower).sum) s
      (r.walkNodes scope encoder place settled nodes s) := by
  have trimmed (s : RenderState) : Grows 0 s (r.trimLine s) := by
    rw [Rendering.trimLine_eq untrimmed]
    exact refl s
  fun_induction Rendering.walkNodes r scope encoder place settled nodes s with
  | case1 place settled s => exact refl s
  | case2 place settled name chained behaviour args table rest s trimmed' skip ih =>
    refine ((trimmed s).trans ih).mono (le_of_eq ?_)
    simp [Node.scopeTarget?]
  | case3 place settled name chained behaviour args table rest s trimmed' run settled' s₁ ran ih =>
    have block := runBlock (r := r) (fun bindings s => (scopes table encoder bindings s).zero)
      name behaviour args trimmed'
    rw [ran] at block
    refine (((trimmed s).trans block).trans ih).mono (le_of_eq ?_)
    simp [Node.scopeTarget?]
  | case4 place settled name table rest s ih =>
    have defined : Grows 0 (r.trimLine s) ((r.trimLine s).define name (.body table)) :=
      of_same (Rendering.output_onTop _ _) (quiet_onTop _).2
    refine (((trimmed s).trans defined).trans ih).mono (le_of_eq ?_)
    simp [Node.scopeTarget?]
  | case5 place settled handler inner table rest s ih =>
    have body := scopes table inner [] (r.trimLine s)
    refine (((trimmed s).trans body).trans ih).mono (le_of_eq ?_)
    simp [Node.scopeTarget?]
    omega
  | case6 place settled table rest s ih =>
    refine ((scopes table encoder [] s).trans ih).mono (le_of_eq ?_)
    simp [Node.scopeTarget?]
    omega
  | case7 place settled rest s ih =>
    refine (((refl s).record _).trans ih).mono (le_of_eq ?_)
    simp [Node.scopeTarget?]
  | case8 place settled node rest s notBlock notDefine notEncode notScope notEmpty next ih =>
    have alone := Rendering.alone_of_not notBlock notDefine notEncode notScope notEmpty
    refine ((walkNode untrimmed scopes encoder node s).trans ih).mono (le_of_eq ?_)
    rw [Node.rawSize_cons, alone.opened_cons, Nat.add_assoc]

/-- A scope writes what its table and those below it write in every run. -/
theorem walkScope (untrimmed : r.config.trimBlockLines = false) (room levels table : Nat)
    (encoder : Encoder) (bindings : Bindings) (s : RenderState) :
    Grows (Tables.weigh r.template.table rawSize levels table) s
      (r.walkScope room table encoder bindings s) := by
  induction room generalizing levels table encoder bindings s with
  | zero =>
    intro kept
    exact ⟨kept, nofun⟩
  | succ room ih =>
    rw [Rendering.walkScope, Rendering.trimLine_eq untrimmed]
    have walked := walkNodes untrimmed (fun table encoder bindings s =>
      ih (levels - 1) table encoder bindings s) encoder none false (r.template.table table)
      (s.openFrame bindings)
    have whole : Tables.weigh r.template.table rawSize levels table ≤
        rawSize (r.template.table table) + ((Node.opened false (r.template.table table)).map
          (Tables.weigh r.template.table rawSize (levels - 1))).sum := by
      cases levels with
      | zero => exact Nat.zero_le _
      | succ levels => exact (Tables.weigh_succ _ _ _ _).le
    exact walked.mono whole

end RenderState.Grows

/-- A rendering that succeeds without trimming has the raw text of all tables that it comes to in
every run. -/
theorem Rendering.weigh_le_of_render {r : Rendering} (untrimmed : r.config.trimBlockLines = false)
    {encoder : Encoder} {out : String} (done : r.render encoder = .ok out) (levels : Nat) :
    Tables.weigh r.template.table rawSize levels 0 ≤ out.utf8ByteSize := by
  have walked := RenderState.Grows.walkNodes untrimmed
    (RenderState.Grows.walkScope untrimmed r.room levels) encoder none false (r.template.table 0)
    (RenderState.openFrame {} [])
  have room : (r.walk encoder).exhausted = false := by
    unfold render at done
    dsimp only at done
    split at done
    · cases done
    · rename_i room
      exact Bool.eq_false_iff.mpr room
  have written := ((walked rfl).2 room).2
  rw [text_of_render done]
  calc Tables.weigh r.template.table rawSize levels 0
      ≤ Tables.weigh r.template.table rawSize (levels + 1) 0 :=
        Tables.weigh_mono _ _ _ (Nat.le_succ levels)
    _ = _ := Tables.weigh_succ _ _ _ _
    _ ≤ _ := Nat.le_add_left _ _
    _ ≤ (r.walk encoder).output.text.utf8ByteSize := written

end Stencil
