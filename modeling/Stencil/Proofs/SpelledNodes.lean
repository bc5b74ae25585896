import Stencil.Proofs.DraftNodes
import Stencil.Proofs.ReplayedSteps

/-!
# Nodes that can be spelled

The nodes of templates of the core registry hold words, settled expressions and known blocks and
encoders, so that each of them has a tag which is read as a tag of its kind. Splicing only puts
scopes in their places. The one thing it can add is a text of its own, and that may be empty.
-/

namespace Stencil

/-- A node whose tag can be read. -/
inductive Node.Spelled : Node → Prop
  | raw {text : String} (nonempty : text ≠ "") : Spelled (.raw text)
  | output {e : Expr} (settled : e.Settled) : Spelled (.output e)
  | declareEmpty {name : String} (word : Text.IsWord name) : Spelled (.declare name false none)
  | declare {name : String} {constant : Bool} {e : Expr} (word : Text.IsWord name)
      (settled : e.Settled) : Spelled (.declare name constant (some e))
  | assign {name : String} {op : Operator} {e : Expr} (word : Text.IsWord name)
      (form : op.form = .assignment) (settled : e.Settled) : Spelled (.assign (.plain name) op e)
  | defineValue {name : String} {e : Expr} (word : Text.IsWord name) (settled : e.Settled) :
      Spelled (.define name (some e))
  | define {name : String} (word : Text.IsWord name) : Spelled (.define name none)
  | evaluate {name : String} (word : Text.IsWord name) : Spelled (.evaluate name none)
  | evaluateOr {name : String} {e : Expr} (word : Text.IsWord name) (settled : e.Settled) :
      Spelled (.evaluate name (some e))
  | inline (file : String) (asRaw : Bool) : Spelled (.inline file asRaw)
  | encode {handler : String} {encoder : Encoder} (word : Text.IsWord handler)
      (known : Entities.core.encoder? handler = some encoder) : Spelled (.encode handler encoder)
  | block {tag : String} {form : BlockForm} {made : BlockInstance} {chained : Bool}
      (known : Entities.core.block? tag = some form) (goesOn : chained = !form.follows.isEmpty)
      (block : Block.Made tag made) : Spelled (.block tag chained made.behaviour made.args)
  | scope (target : Option Nat) : Spelled (.scope target)

namespace Draft

variable {d d' : Draft} {source : List Lexeme} {site : TagSite} {indicator : Char}

/-- A tag of the core registry writes a node that can be spelled. -/
theorem Each.spelled_of_coreStep (linked : d.Linked) (h : d.Each Node.Spelled)
    (step : TagSite.CoreStep site d d') : d'.Each Node.Spelled := by
  have opens {form : BlockForm} {made : BlockInstance} {used : Draft} {chained : Bool}
      {name : String} {kind : ScopeKind} {declared : Entries Declared}
      (before : used.Each Node.Spelled) (known : Entities.core.block? site.tag = some form)
      (goesOn : chained = !form.follows.isEmpty) (core : Block.Made site.tag made) :
      (used.openScope (.block site.tag chained made.behaviour made.args) name kind site.location
        declared).Each Node.Spelled :=
    before.openScope (.block known goesOn core) fun table => .scope table
  cases step with
  | text => exact h.addRaw (fun _ => .raw) _
  | output settled uses => exact (h.of_sameBut (sameBut_of_useAll uses)).push (.output settled)
  | declareEmpty word => exact (h.of_tables (tables_declare d _ _)).push (.declareEmpty word)
  | declare word settled uses =>
    have used := h.of_sameBut (sameBut_of_useAll uses)
    exact (used.of_tables (tables_declare _ _ _)).push (.declare word settled)
  | assign word form settled _ _ _ uses =>
    have used := h.of_sameBut (sameBut_of_useAll uses)
    exact (used.of_tables (tables_markAssigned _ _)).push (.assign word form settled)
  | defineValue word settled uses =>
    exact (h.of_sameBut (sameBut_of_useAll uses)).push (.defineValue word settled)
  | defineBody word => exact h.openScope (.define word) fun table => .scope table
  | evaluate word => exact h.push (.evaluate word)
  | evaluateOr word settled uses =>
    exact (h.of_sameBut (sameBut_of_useAll uses)).push (.evaluateOr word settled)
  | inlineRaw | inlineTemplate =>
    refine push (push ?_ (.inline _ _)) (.scope _)
    exact h.of_tables rfl
  | encode word known => exact h.openScope (.encode word known) fun table => .scope table
  | block known starts core uses =>
    exact opens (h.of_sameBut (sameBut_of_useArgs uses)) known (by rw [starts]; rfl) core
  | @link form _ _ _ _ names known opened kind follows core uses =>
    have closed : d.closeScope.Each Node.Spelled := h.of_tables rfl
    have filled : names ≠ [] := (linked.endsInLink_of_close opened kind).1
    have goesOn : decide (1 < (names ++ [site.tag]).length) = !form.follows.isEmpty := by
      have further : form.follows.isEmpty = false := by
        cases eq : form.follows with
        | nil =>
          rw [eq] at follows
          cases follows
        | cons => rfl
      rw [further]
      simpa using List.length_pos_iff.mpr filled
    exact opens (closed.of_sameBut (sameBut_of_useArgs uses)) known goesOn core
  | close => exact h.of_tables rfl

theorem Each.spelled_of_step (spelled : ∀ l ∈ source, l.token.Spelled) (linked : d.Linked)
    (h : d.Each Node.Spelled) (step : Step source .core indicator d d') : d'.Each Node.Spelled := by
  cases step with
  | raw => exact h.addRaw (fun _ => .raw) _
  | mark => exact h.addRaw (fun _ => .raw) _
  | tag _ step => exact spelled_of_coreStep linked h (step.core rfl spelled)

end Draft

namespace Template

/-- The nodes of every table can be spelled, unless an empty text is all of it. -/
def Spelled (t : Template) : Prop :=
  ∀ nodes ∈ t.tables, (∀ node ∈ nodes, node.Spelled) ∨ nodes = [.raw ""]

variable {t : Template}

theorem ParsedCore.spelled (h : t.ParsedCore) : t.Spelled := by
  obtain ⟨config, name, source, made⟩ := h
  obtain ⟨tokens, scanned, made⟩ := ofTokens_of_parse made
  obtain ⟨d, read, -, rfl⟩ := read_of_ofTokens made
  have both : d.Linked ∧ d.Each Node.Spelled :=
    Draft.invariant_of_read (P := fun d => d.Linked ∧ d.Each Node.Spelled) ⟨.start, .start⟩
      (fun before step => ⟨before.1.of_step step,
        before.2.spelled_of_step (Token.spelled_of_scan scanned) before.1 step⟩) read
  exact fun nodes mem => .inl (both.2 nodes mem)

/-- Scopes may be filled or moved. -/
theorem spelled_retarget {xs ys : List Node} (r : List.Forall₂ Node.Retarget xs ys)
    (h : (∀ node ∈ xs, node.Spelled) ∨ xs = [.raw ""]) :
    (∀ node ∈ ys, node.Spelled) ∨ ys = [.raw ""] := by
  rcases h with each | rfl
  · refine .inl ?_
    induction r with
    | nil => exact List.forall_mem_nil _
    | cons here _ ih =>
      obtain ⟨first, rest⟩ := List.forall_mem_cons.mp each
      refine List.forall_mem_cons.mpr ⟨?_, ih rest⟩
      cases here with
      | same => exact first
      | scope => exact .scope _
  · obtain _ | ⟨here, _ | _⟩ := r
    cases here
    exact .inr rfl

/-- What is spliced can be spelled where its parts can. -/
theorem Assembled.spelled (h : Assembled ParsedCore t) : t.Spelled := by
  refine h.forall_tables (fun _ => ParsedCore.spelled) spelled_retarget fun text => ?_
  by_cases empty : text = ""
  · exact .inr (by rw [empty])
  · exact .inl (List.forall_mem_singleton.mpr (.raw empty))

end Template

end Stencil
