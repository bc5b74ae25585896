import Stencil.Entities.Described
import Stencil.Proofs.CoveredTemplates
import Stencil.Proofs.DraftNodes
import Stencil.Proofs.ResolvedCalls

/-!
# The calls of a template

Whatever a template evaluates was read from arguments, so that the slots of its calls are among the
arguments of the calls. Blocks evaluate what they make of the arguments of their tags: a registry
`Relays` calls if its blocks make none of their own. Splicing keeps what nodes evaluate.
-/

namespace Stencil

/-- The arguments of a block tag as expressions. -/
def BlockArguments.exprs : BlockArguments → List Expr
  | call t => t.values
  | parsed found => found.expressions

/-- A block evaluates no calls but those among the arguments of its tag. -/
def BlockForm.Relays (form : BlockForm) : Prop :=
  ∀ arguments made, form.make arguments = .ok made →
    ∀ e ∈ made.args.values, ∀ call ∈ e.calls, ∃ x ∈ arguments.exprs, call ∈ x.calls

/-- The blocks of a registry evaluate no calls but those among the arguments of their tags. -/
def Entities.Relays (r : Entities) : Prop :=
  ∀ name form, r.block? name = some form → form.Relays

section Registries

/-- Arguments in the order of parameters are arguments or defaults. -/
theorem calls_of_normalize {s : Signature} {t args : Tuple} (normal : s.normalize t = .ok args) :
    ∀ e ∈ args.values, ∀ call ∈ e.calls, ∃ x ∈ t.values, call ∈ x.calls := by
  obtain ⟨slots, -, made⟩ := ok_of_bind normal
  cases made
  intro e mem call inside
  simp only [Tuple.values, Tuple.ofList, List.map_map, List.mem_map] at mem
  obtain ⟨slot, -, rfl⟩ := mem
  cases slot with
  | argument index =>
    dsimp only [Function.comp_apply, Signature.slotExpr] at inside
    cases found : t[index]? with
    | none =>
      rw [found] at inside
      cases inside
    | some item =>
      rw [found] at inside
      exact ⟨item.2, List.mem_map_of_mem (List.mem_of_getElem? found), inside⟩
  | default data => cases inside

theorem values_ofList (row : List Expr) : (Tuple.ofList row).values = row := by
  simp [Tuple.values, Tuple.ofList, Function.comp_def]

theorem BlockSpec.relays_form (spec : BlockSpec) : spec.form.Relays := by
  intro arguments made make
  cases arguments with
  | call t =>
    obtain ⟨args, normal, make⟩ := ok_of_bind make
    cases make
    exact calls_of_normalize (ok_of_mapError normal)
  | parsed found =>
    cases make
    intro e mem call inside
    rw [values_ofList] at mem
    exact ⟨e, mem, inside⟩

namespace Entities

theorem Relays.addBlock {r : Entities} (h : r.Relays) {name : String} {form : BlockForm}
    (relays : form.Relays) : (r.addBlock name form).Relays := by
  unfold Entities.addBlock
  split
  · intro other found eq
    by_cases same : other = name
    · subst same
      rw [block?, Entries.find?_insert_self] at eq
      cases eq
      exact relays
    · rw [block?, Entries.find?_insert_of_ne same] at eq
      exact h other found eq
  · exact h

/-- Whatever is described by data can be registered. -/
theorem Relays.apply {r r' : Entities} (h : r.Relays) {entry : Registration}
    (applied : entry.apply r = .ok r') : r'.Relays := by
  cases entry with
  | function | method | encoder =>
    cases applied
    exact h
  | block name spec =>
    cases applied
    exact h.addBlock spec.relays_form
  | defaultEncoder name =>
    unfold Registration.apply setDefaultEncoder at applied
    dsimp only at applied
    split at applied
    · cases applied
      exact h
    · cases applied

end Entities

end Registries

/-- The calls in what a node evaluates fit. -/
def Node.CallsFit (node : Node) : Prop := ∀ e ∈ node.exprs, e.CallsFit

theorem Node.callsFit_of_exprs_eq_nil {node : Node} (none : node.exprs = []) : node.CallsFit := by
  intro e mem
  rw [none] at mem
  cases mem

section Arguments

variable {source : List Lexeme} {site : TagSite} {mode : FoldMode}

theorem TagSite.ReadsTuple.callsFit {t : Tuple} (read : site.ReadsTuple source mode t) :
    t.Each Expr.CallsFit := by
  obtain ⟨tokens, rest, sub, read⟩ := read
  exact (Expr.callsFit_kept _ source).readArguments sub read

theorem TagSite.Reads.callsFit {e : Expr} (read : site.Reads source mode e) : e.CallsFit :=
  TagSite.ReadsTuple.callsFit read _ List.mem_cons_self

theorem callsFit_of_elements {e : Expr} (fit : e.CallsFit) :
    ∀ x ∈ Pattern.elements e, x.CallsFit := by
  unfold Pattern.elements
  split
  · exact Expr.callsFit_sequence.mp fit
  · intro x mem
    rw [List.mem_singleton.mp mem]
    exact fit

theorem callsFit_of_slot {slot : PatternSlot} {e : Expr} (fit : e.CallsFit) {names : List String}
    {expressions : List Expr} (found : slot.match? e = some (names, expressions)) :
    ∀ x ∈ expressions, x.CallsFit := by
  unfold PatternSlot.match? at found
  split at found
  · obtain ⟨name, -, eq⟩ := Option.map_eq_some_iff.mp found
    cases eq
    exact List.forall_mem_nil _
  · split at found
    · cases found
      exact List.forall_mem_nil _
    · cases found
  · cases found
  · split at found
    · cases found
      exact List.forall_mem_singleton.mpr fit
    · cases found

theorem callsFit_of_matchElements {slots : List PatternSlot} {row : List Expr}
    (fit : ∀ e ∈ row, e.CallsFit) {names : List String} {expressions : List Expr}
    (found : Pattern.matchElements? slots row = some (names, expressions)) :
    ∀ x ∈ expressions, x.CallsFit := by
  induction slots generalizing row names expressions with
  | nil =>
    cases row with
    | nil =>
      cases found
      exact List.forall_mem_nil _
    | cons => cases found
  | cons slot slots ih =>
    cases row with
    | nil => cases found
    | cons e row =>
      simp only [Pattern.matchElements?, Option.bind_eq_bind, Option.bind_eq_some_iff] at found
      obtain ⟨⟨first, given⟩, here, ⟨more, others⟩, rest, eq⟩ := found
      cases eq
      exact List.forall_mem_append.mpr ⟨callsFit_of_slot (fit e List.mem_cons_self) here,
        ih (fun x mem => fit x (.tail _ mem)) rest⟩

theorem callsFit_of_matchParams {params : List (List PatternSlot)} {row : List Expr}
    (fit : ∀ e ∈ row, e.CallsFit) {names : List String} {expressions : List Expr}
    (found : Pattern.matchParams? params row = some (names, expressions)) :
    ∀ x ∈ expressions, x.CallsFit := by
  induction params generalizing row names expressions with
  | nil =>
    cases row with
    | nil =>
      cases found
      exact List.forall_mem_nil _
    | cons => cases found
  | cons slots params ih =>
    cases row with
    | nil => cases found
    | cons e row =>
      simp only [Pattern.matchParams?, Option.bind_eq_bind, Option.bind_eq_some_iff] at found
      obtain ⟨⟨first, given⟩, here, ⟨more, others⟩, rest, eq⟩ := found
      cases eq
      have elements := callsFit_of_elements (fit e List.mem_cons_self)
      exact List.forall_mem_append.mpr ⟨callsFit_of_matchElements elements here,
        ih (fun x mem => fit x (.tail _ mem)) rest⟩

theorem Tuple.Each.values {P : Expr → Prop} {t : Tuple} (h : t.Each P) : ∀ e ∈ t.values, P e := by
  intro e mem
  obtain ⟨item, inside, rfl⟩ := List.mem_map.mp mem
  exact h item inside

/-- The arguments of a block tag, however they are written, fit. -/
theorem TagSite.ReadsBlock.callsFit {form : BlockForm} {arguments : BlockArguments}
    (read : site.ReadsBlock source form arguments) : ∀ e ∈ arguments.exprs, e.CallsFit := by
  cases read with
  | none => exact List.forall_mem_nil _
  | call read => exact read.callsFit.values
  | parsed _ read matched =>
    obtain ⟨p, -, found⟩ := List.exists_of_findSome?_eq_some matched
    unfold Pattern.match? at found
    split at found
    · cases found
    · obtain ⟨⟨names, expressions⟩, params, eq⟩ := Option.map_eq_some_iff.mp found
      cases eq
      exact callsFit_of_matchParams read.callsFit.values params

/-- What a relaying block evaluates fits. -/
theorem BlockForm.Relays.callsFit {form : BlockForm} (relays : form.Relays)
    {arguments : BlockArguments} (read : site.ReadsBlock source form arguments)
    {made : BlockInstance} (make : form.make arguments = .ok made) :
    ∀ e ∈ made.args.values, e.CallsFit := by
  intro e mem call inside
  obtain ⟨x, given, inside⟩ := relays arguments made make e mem call inside
  exact read.callsFit x given call inside

/-- The value behind an operator. -/
theorem callsFit_last {target : Expr} {op value : Expr}
    (read : site.Reads source mode (.sequence [target, op, value])) : value.CallsFit :=
  Expr.callsFit_sequence.mp read.callsFit value (by simp)

theorem callsFit_of_evaluation {e default : Expr} {name : String} (fit : e.CallsFit)
    (named : site.evaluation e = .ok (name, some default)) : default.CallsFit := by
  unfold TagSite.evaluation at named
  split at named
  · split at named
    · cases named
      exact (Expr.callsFit_binary.mp fit).2
    · cases named
  · split at named <;> cases named

end Arguments

namespace Draft

variable {source : List Lexeme} {entities : Entities} {indicator : Char} {d d' : Draft}

/-- Every tag writes nodes whose calls fit. -/
theorem Each.callsFit_of_tagStep {site : TagSite} (relays : site.entities.Relays)
    (h : d.Each Node.CallsFit) (step : TagSite.Step source site d d') :
    d'.Each Node.CallsFit := by
  have noExprs {node : Node} (none : node.exprs = []) : node.CallsFit :=
    Node.callsFit_of_exprs_eq_nil none
  have one {node : Node} {e : Expr} (only : node.exprs = [e]) (fit : e.CallsFit) :
      node.CallsFit := by
    intro x mem
    rw [only] at mem
    rw [List.mem_singleton.mp mem]
    exact fit
  cases step with
  | text => exact h.addRaw (fun _ _ => noExprs rfl) _
  | output read _ uses =>
    exact (h.of_sameBut (sameBut_of_useAll uses)).push (one rfl read.callsFit)
  | call read resolved uses =>
    have fit := callsFit_of_resolveCall read.callsFit resolved
    exact (h.of_sameBut (sameBut_of_useAll uses)).push (one rfl fit)
  | declareEmpty => exact (h.of_tables (tables_declare d _ _)).push (noExprs rfl)
  | declare _ read uses =>
    have used := h.of_sameBut (sameBut_of_useAll uses)
    exact (used.of_tables (tables_declare _ _ _)).push (one rfl read.callsFit)
  | assign read _ _ _ _ uses =>
    have used := h.of_sameBut (sameBut_of_useAll uses)
    refine (used.of_tables (tables_markAssigned _ _)).push ?_
    exact List.forall_mem_cons.mpr
      ⟨callsFit_last read, List.forall_mem_singleton.mpr (List.forall_mem_nil _)⟩
  | defineValue read _ uses =>
    exact (h.of_sameBut (sameBut_of_useAll uses)).push (one rfl (callsFit_last read))
  | defineBody => exact h.openScope (noExprs rfl) (fun _ => noExprs rfl)
  | evaluate => exact h.push (noExprs rfl)
  | evaluateOr read named uses =>
    have fit := callsFit_of_evaluation read.callsFit named
    exact (h.of_sameBut (sameBut_of_useAll uses)).push (one rfl fit)
  | inlineRaw | inlineTemplate =>
    refine push (push ?_ (noExprs rfl)) (noExprs rfl)
    exact h.of_tables rfl
  | encode => exact h.openScope (noExprs rfl) (fun _ => noExprs rfl)
  | block known _ read make uses =>
    exact (h.of_sameBut (sameBut_of_useArgs uses)).openScope
      ((relays _ _ known).callsFit read make) (fun _ => noExprs rfl)
  | link known _ _ _ read make uses =>
    have closed : d.closeScope.Each Node.CallsFit := h.of_tables rfl
    exact (closed.of_sameBut (sameBut_of_useArgs uses)).openScope
      ((relays _ _ known).callsFit read make) (fun _ => noExprs rfl)
  | close => exact h.of_tables rfl

theorem Each.callsFit_of_step (relays : entities.Relays) (h : d.Each Node.CallsFit)
    (step : Step source entities indicator d d') : d'.Each Node.CallsFit := by
  cases step with
  | raw => exact h.addRaw (fun _ _ => Node.callsFit_of_exprs_eq_nil rfl) _
  | mark => exact h.addRaw (fun _ _ => Node.callsFit_of_exprs_eq_nil rfl) _
  | tag _ step => exact h.callsFit_of_tagStep relays step

end Draft

namespace Template

/-- Templates of token sequences, with registries that relay calls. -/
def Relayed (t : Template) : Prop :=
  ∃ entities config name tokens, entities.Relays ∧ ofTokens entities config name tokens = .ok t

theorem Relayed.parsed {t : Template} (h : t.Relayed) : t.Parsed := by
  obtain ⟨entities, config, name, tokens, -, made⟩ := h
  exact ⟨entities, config, name, tokens, made⟩

/-- The calls of a template fit. -/
def CallsFit (t : Template) : Prop := ∀ nodes ∈ t.tables, ∀ node ∈ nodes, node.CallsFit

theorem Relayed.callsFit {t : Template} (h : t.Relayed) : t.CallsFit := by
  obtain ⟨entities, config, name, tokens, relays, made⟩ := h
  obtain ⟨d, read, -, rfl⟩ := read_of_ofTokens made
  exact Draft.invariant_of_read (P := Draft.Each Node.CallsFit) .start
    (fun before step => before.callsFit_of_step relays step) read

/-- A place that is filled evaluates nothing. -/
theorem callsFit_fillPlaces {place : String × Bool} {table : Nat} {nodes : List Node}
    (h : ∀ node ∈ nodes, node.CallsFit) :
    ∀ node ∈ Node.fillPlaces place table nodes, node.CallsFit := by
  fun_induction Node.fillPlaces place table nodes with
  | case1 node rest same ih =>
    obtain ⟨first, rest⟩ := List.forall_mem_cons.mp h
    exact List.forall_mem_cons.mpr ⟨first, List.forall_mem_cons.mpr
      ⟨Node.callsFit_of_exprs_eq_nil rfl, ih (List.forall_mem_cons.mp rest).2⟩⟩
  | case2 node rest differs ih =>
    obtain ⟨first, rest⟩ := List.forall_mem_cons.mp h
    exact List.forall_mem_cons.mpr ⟨first, ih rest⟩
  | case3 node rest other ih =>
    obtain ⟨first, rest⟩ := List.forall_mem_cons.mp h
    exact List.forall_mem_cons.mpr ⟨first, ih rest⟩
  | case4 => exact List.forall_mem_nil _

theorem CallsFit.fillAll {t : Template} (h : t.CallsFit) (file : String) (asRaw : Bool)
    (table : Nat) : ∀ nodes ∈ t.fillAll file asRaw table, ∀ node ∈ nodes, node.CallsFit := by
  intro nodes mem
  obtain ⟨old, inside, rfl⟩ := List.mem_map.mp mem
  exact callsFit_fillPlaces (h old inside)

theorem CallsFit.shift {t : Template} (h : t.CallsFit) (offset : Nat) :
    ∀ nodes ∈ t.tables.map (·.map (Node.shift offset)), ∀ node ∈ nodes, node.CallsFit := by
  intro nodes mem node inside
  obtain ⟨old, within, rfl⟩ := List.mem_map.mp mem
  obtain ⟨before, here, rfl⟩ := List.mem_map.mp inside
  unfold Node.CallsFit
  rw [Node.exprs_shift]
  exact h old within before here

/-- Splicing keeps the calls of templates. -/
theorem Assembled.callsFit {t : Template} (h : Assembled Relayed t) : t.CallsFit := by
  induction h with
  | given h => exact h.callsFit
  | inlineTemplate name _ _ ih part =>
    unfold Template.inlineTemplate
    dsimp only
    split
    · exact ih
    · intro nodes mem
      exact (List.mem_append.mp mem).elim (ih.fillAll _ _ _ nodes) (part.shift _ nodes)
  | inlineRaw name text _ ih =>
    unfold Template.inlineRaw
    dsimp only
    split
    · exact ih
    · intro nodes mem
      rcases List.mem_append.mp mem with old | new
      · exact ih.fillAll _ _ _ nodes old
      · rw [List.mem_singleton.mp new]
        exact List.forall_mem_singleton.mpr (Node.callsFit_of_exprs_eq_nil rfl)

end Template

end Stencil
