import Stencil.Proofs.ChainLayout
import Stencil.Proofs.Replay

/-!
# Every step replayed

Each step of a parse with the core registry keeps a draft replayed by its printed source: raw text,
the tags of single nodes, the tags that open a body, and end tags.
-/

namespace Stencil

variable {indicator : Char} {d d' used closed : Draft} {p : Printed} {e : Expr} {name : String}

namespace Draft

variable {node : Node} {change : List Node → List Node}

theorem changes_push (d : Draft) (node : Node) : d.Changes (d.push node) (· ++ [node]) :=
  ⟨rfl, rfl⟩

theorem changes_place (d : Draft) (file : String) (asRaw : Bool) :
    d.Changes ((d.push (.inline file asRaw)).push (.scope none))
      (· ++ [.inline file asRaw, .scope none]) := by
  rw [push_push]
  exact ⟨rfl, rfl⟩

/-- A change behind one that leaves tables and scopes as they are. -/
theorem Changes.behind (h : used.Changes d' change) (tables : used.tables = d.tables)
    (opened : used.opened.map (·.shape) = d.opened.map (·.shape)) : d.Changes d' change := by
  have current : used.current = d.current := writtenTable_of_shape opened
  exact ⟨by rw [h.tables, tables, current], h.opened.trans opened⟩

theorem Changes.of_sameBut (h : used.Changes d' change) (same : SameBut d used) :
    d.Changes d' change :=
  h.behind (by rw [same]) (by rw [same])

theorem Changes.of_declare {known : Declared} (h : (d.declare name known).Changes d' change) :
    d.Changes d' change :=
  h.behind (tables_declare d name known) (opened_declare (fun _ _ => rfl) name known)

theorem Changes.of_markAssigned (h : (d.markAssigned name).Changes d' change) :
    d.Changes d' change :=
  h.behind (tables_markAssigned d name) (opened_markAssigned (fun _ _ => rfl) name)

namespace Reread

variable {e : Draft} {value : Expr}

/-- A declaration without value that is read back. -/
theorem declareEmpty (same : d.Reread e) (fresh : d.innermost.has name = false) : ∃ e',
    TagSite.declare e false name none = .ok e' ∧
      ((d.declare name ⟨false, false⟩).push (.declare name false none)).Reread e' := by
  refine ⟨(e.declare name ⟨false, false⟩).push (.declare name false none), ?_,
    (same.declare name _).push (by rintro text ⟨⟩)⟩
  have fresh' : e.innermost.has name = false := by rw [same.innermost, fresh]
  unfold TagSite.declare
  simp [fresh', bind, Except.bind, pure, Except.pure]

/-- A declaration that is read back. -/
theorem declareValue (same : d.Reread e) (constant : Bool) (uses : d.useAll value = .ok used)
    (fresh : used.innermost.has name = false) : ∃ e',
    TagSite.declare e constant name (some value.reread) = .ok e' ∧
      ((used.declare name ⟨constant, true⟩).push (.declare name constant (some value))).Reread
        e' := by
  obtain ⟨used', uses', same'⟩ := same.useAll uses
  refine ⟨(used'.declare name ⟨constant, true⟩).push (.declare name constant (some value.reread)),
    ?_, (same'.declare name _).push (by rintro text ⟨⟩)⟩
  have fresh' : used'.innermost.has name = false := by rw [same'.innermost, fresh]
  unfold TagSite.declare
  simp [uses', fresh', bind, Except.bind, pure, Except.pure]

/-- An assignment that is read back. -/
theorem assignValue (same : d.Reread e) {op : Operator} {declared : Declared}
    (known : d.lookup? name = some declared) (mutable : declared.constant = false)
    (compound : op.compoundBase?.isSome = true → declared.assigned = true)
    (uses : d.useAll value = .ok used) : ∃ e',
    TagSite.assign e (.plain name) op value.reread = .ok e' ∧
      ((used.markAssigned name).push (.assign (.plain name) op value)).Reread e' := by
  obtain ⟨used', uses', same'⟩ := same.useAll uses
  refine ⟨(used'.markAssigned name).push (.assign (.plain name) op value.reread), ?_,
    (same'.markAssigned name).push (by rintro text ⟨⟩)⟩
  have known' : e.lookup? name = some declared := by rw [same.lookup?, known]
  have assigned : (op.compoundBase?.isSome && !declared.assigned) = false := by
    cases eq : op.compoundBase?.isSome with
    | false => rfl
    | true => simp [compound eq]
  unfold TagSite.assign
  simp [Variable.plain, Variable.isAtomic, known', mutable, assigned, uses', bind, Except.bind,
    pure, Except.pure]

end Reread

namespace Replayed

variable (begins : TagStart indicator) (h : d.Replayed indicator)
include begins h

theorem output (settled : e.Settled) (uses : d.useAll e = .ok used) :
    (used.push (.output e)).Replayed indicator := by
  have same := sameBut_of_useAll uses
  refine h.leaf begins ((changes_push used _).of_sameBut same)
    ((h.formed.of_sameBut same).push_leaf rfl) rfl (by rintro text ⟨⟩) (Node.prints_output settled)
    fun writable e' again site _ named => ?_
  obtain ⟨used', uses', again'⟩ := again.useAll uses
  have legible : e.writable = true := writable e (by simp [Node.exprs])
  exact ⟨_, again'.push (by rintro text ⟨⟩), TagSite.does_output named settled legible uses'⟩

theorem declareEmpty (word : Text.IsWord name) (fresh : d.innermost.has name = false) :
    ((d.declare name ⟨false, false⟩).push (.declare name false none)).Replayed indicator := by
  refine h.leaf begins (changes_push _ _).of_declare ((h.formed.of_declare _ _).push_leaf rfl) rfl
    (by rintro text ⟨⟩) (Node.prints_declareEmpty word) fun _ e' again site _ named => ?_
  obtain ⟨e'', made, again'⟩ := again.declareEmpty fresh
  exact ⟨e'', again', TagSite.does_declareEmpty named made⟩

theorem declare {constant : Bool} (word : Text.IsWord name) (settled : e.Settled)
    (uses : d.useAll e = .ok used) (fresh : used.innermost.has name = false) :
    ((used.declare name ⟨constant, true⟩).push (.declare name constant (some e))).Replayed
      indicator := by
  have same := sameBut_of_useAll uses
  refine h.leaf begins ((changes_push _ _).of_declare.of_sameBut same)
    (((h.formed.of_sameBut same).of_declare _ _).push_leaf rfl) rfl (by rintro text ⟨⟩)
    (Node.prints_declare word settled) fun writable e' again site _ named => ?_
  obtain ⟨e'', made, again'⟩ := again.declareValue constant uses fresh
  have legible : e.writable = true := writable e (by simp [Node.exprs])
  exact ⟨e'', again', TagSite.does_declare named settled legible made⟩

theorem assign {op : Operator} {declared : Declared} (word : Text.IsWord name)
    (form : op.form = .assignment) (settled : e.Settled)
    (known : d.lookup? name = some declared) (mutable : declared.constant = false)
    (compound : op.compoundBase?.isSome = true → declared.assigned = true)
    (uses : d.useAll e = .ok used) :
    ((used.markAssigned name).push (.assign (.plain name) op e)).Replayed indicator := by
  have same := sameBut_of_useAll uses
  refine h.leaf begins ((changes_push _ _).of_markAssigned.of_sameBut same)
    (((h.formed.of_sameBut same).of_markAssigned _).push_leaf rfl) rfl (by rintro text ⟨⟩)
    (Node.prints_assign word form settled) fun writable e' again site _ named => ?_
  obtain ⟨e'', made, again'⟩ := again.assignValue known mutable compound uses
  have legible : e.writable = true := writable e (by simp [Node.exprs])
  exact ⟨e'', again', TagSite.does_assign named settled legible form made⟩

theorem defineValue (word : Text.IsWord name) (settled : e.Settled)
    (uses : d.useAll e = .ok used) : (used.push (.define name (some e))).Replayed indicator := by
  have same := sameBut_of_useAll uses
  refine h.leaf begins ((changes_push _ _).of_sameBut same)
    ((h.formed.of_sameBut same).push_leaf rfl) rfl (by rintro text ⟨⟩)
    (Node.prints_defineValue word settled) fun writable e' again site _ named => ?_
  obtain ⟨used', uses', again'⟩ := again.useAll uses
  have legible : e.writable = true := writable e (by simp [Node.exprs])
  exact ⟨_, again'.push (by rintro text ⟨⟩),
    TagSite.does_defineValue named settled legible uses'⟩

theorem evaluate (word : Text.IsWord name) :
    (d.push (.evaluate name none)).Replayed indicator :=
  h.leaf begins (changes_push _ _) (h.formed.push_leaf rfl) rfl (by rintro text ⟨⟩)
    (Node.prints_evaluate word) fun _ _ again _ _ named =>
      ⟨_, again.push (by rintro text ⟨⟩), TagSite.does_evaluate named⟩

theorem evaluateOr (word : Text.IsWord name) (settled : e.Settled)
    (uses : d.useAll e = .ok used) : (used.push (.evaluate name (some e))).Replayed indicator := by
  have same := sameBut_of_useAll uses
  refine h.leaf begins ((changes_push _ _).of_sameBut same)
    ((h.formed.of_sameBut same).push_leaf rfl) rfl (by rintro text ⟨⟩)
    (Node.prints_evaluateOr word settled) fun writable e' again site _ named => ?_
  obtain ⟨used', uses', again'⟩ := again.useAll uses
  have legible : e.writable = true := writable e (by simp [Node.exprs])
  exact ⟨_, again'.push (by rintro text ⟨⟩),
    TagSite.does_evaluateOr named settled legible uses'⟩

theorem inlineRaw {file : String} (quotable : Text.Quotable file) :
    ((({ d with raws := NameSet.insert file d.raws } : Draft).push (.inline file true)).push
      (.scope none)).Replayed indicator := by
  have formed : ({ d with raws := NameSet.insert file d.raws } : Draft).Formed :=
    h.formed.of_shape rfl rfl
  refine h.place begins ((changes_place _ file true).behind rfl rfl) (formed.push_place file true)
    (Node.prints_inlineRaw quotable) fun e' again site _ named => ?_
  have raws : ({ d with raws := NameSet.insert file d.raws } : Draft).Reread
      { e' with raws := NameSet.insert file e'.raws } :=
    ⟨again.tables, again.opened, again.declared, again.required, again.templates,
      by rw [again.raws]⟩
  exact ⟨_, raws.push_place file true, TagSite.does_inlineRaw named⟩

theorem inlineTemplate {file : String} (quotable : Text.Quotable file) :
    ((({ d with templates := NameSet.insert file d.templates } : Draft).push
      (.inline file false)).push (.scope none)).Replayed indicator := by
  have formed : ({ d with templates := NameSet.insert file d.templates } : Draft).Formed :=
    h.formed.of_shape rfl rfl
  refine h.place begins ((changes_place _ file false).behind rfl rfl)
    (formed.push_place file false) (Node.prints_inline quotable) fun e' again site _ named => ?_
  have templates : ({ d with templates := NameSet.insert file d.templates } : Draft).Reread
      { e' with templates := NameSet.insert file e'.templates } :=
    ⟨again.tables, again.opened, again.declared, again.required, by rw [again.templates],
      again.raws⟩
  exact ⟨_, templates.push_place file false, TagSite.does_inline named⟩

theorem defineBody (word : Text.IsWord name) (place : Text.Location) :
    (d.openScope (.define name none) "define" .define place []).Replayed indicator := by
  have formed : (d.openScope (.define name none) "define" .define place []).Formed :=
    h.formed.openScope rfl (fun chained => by cases chained) (fun _ kind => by cases kind)
  refine h.body (.refl d) rfl rfl (fun _ _ => rfl) formed fun p replays => ?_
  refine replays.body begins (Node.prints_define word)
    (allWritable_openScope h.formed _ _ _) fun _ e' again site _ named => ?_
  exact ⟨_, again.openScope (by rintro text ⟨⟩) "define" .define place site.location [],
    TagSite.opens_define named⟩

theorem encode {handler : String} {encoder : Encoder} (word : Text.IsWord handler)
    (known : Entities.core.encoder? handler = some encoder) (place : Text.Location) :
    (d.openScope (.encode handler encoder) "raw" .encode place []).Replayed indicator := by
  have formed : (d.openScope (.encode handler encoder) "raw" .encode place []).Formed :=
    h.formed.openScope rfl (fun chained => by cases chained) (fun _ kind => by cases kind)
  refine h.body (.refl d) rfl rfl (fun _ _ => rfl) formed fun p replays => ?_
  refine replays.body begins (Node.prints_encode word)
    (allWritable_openScope h.formed _ _ _) fun _ e' again site core named => ?_
  exact ⟨_, again.openScope (by rintro text ⟨⟩) "raw" .encode place site.location [],
    TagSite.opens_raw named (by rw [core, known])⟩

end Replayed

end Draft

theorem Entities.isName_of_block {tag : String} {form : BlockForm}
    (known : core.block? tag = some form) : Text.IsName tag := by
  have mem := TagSite.tag_of_block known
  simp only [List.mem_cons, List.not_mem_nil, or_false] at mem
  rcases mem with rfl | rfl | rfl | rfl | rfl <;> exact Text.isName_of_cons rfl rfl rfl

theorem Expr.values_rereadItems (t : List (Option String × Expr)) :
    Tuple.values (rereadItems t) = (Tuple.values t).map Expr.reread := by
  induction t with
  | nil => rfl
  | cons item t ih =>
    obtain ⟨label, e⟩ := item
    rw [rereadItems]
    exact congrArg (e.reread :: ·) ih

section Blocks

variable {tag : String} {form : BlockForm} {made : BlockInstance} {chain : List String}
  (place : Text.Location)

/-- The node of a block. -/
def BlockInstance.node (made : BlockInstance) (tag : String) (chain : List String) : Node :=
  .block tag (1 < chain.length) made.behaviour made.args

/-- The draft behind the tag of a block. -/
def Draft.openBlock (d : Draft) (tag : String) (made : BlockInstance) (chain : List String) :
    Draft :=
  d.openScope (made.node tag chain) tag (.chain chain) place
    (Entries.ofList (made.declares.map fun name => (name, Declared.mk true true)))

/-- The tag of a block, given that the scopes which it closes are closed when it is read back. -/
theorem Replays.block (begins : TagStart indicator) (h : Replays indicator d p)
    (formed : closed.Formed) (tables : closed.tables = d.tables)
    (known : Entities.core.block? tag = some form) (block : Block.Made tag made)
    (chained : ∀ e, d.Reread e → ∀ site : TagSite, site.entities = .core → site.tag = tag →
      ∃ e', closed.Reread e' ∧ site.chainOf form e = .ok (chain, e'))
    (uses : made.args.values.foldlM Draft.useAll closed = .ok used) :
    Replays indicator (used.openBlock place tag made chain)
      ⟨p.text ++ (made.node tag chain).tagText indicator, false⟩ := by
  have same := Draft.sameBut_of_useArgs uses
  have writable : AllWritable (used.openBlock place tag made chain).tables ↔
      AllWritable d.tables ∧ (made.node tag chain).Writable := by
    have kept : used.tables = d.tables := by rw [same, ← tables]
    rw [← kept]
    exact Draft.allWritable_openScope (formed.of_sameBut same) _ _ _
  have opened {e : Draft} (again : used.Reread e) (site : TagSite) (named : site.tag = tag) :
      (used.openBlock place tag made chain).Reread (site.openedBlock made.reread chain e) := by
    subst named
    exact again.openScope (by rintro text ⟨⟩) site.tag (.chain chain) place site.location _
  by_cases other : tag = "else"
  · subst other
    cases known
    cases block.eq_of_else rfl
    cases uses
    have shown : (BlockInstance.node ⟨Block.otherwise, [], []⟩ "else" chain).tagText indicator =
        String.ofList (indicator :: ("else".toList ++ [':'])) := by
      rw [← String.toList_inj]
      simp [BlockInstance.node, Node.tagText, Block.otherwise]
    have nothing : (BlockInstance.node ⟨Block.otherwise, [], []⟩ "else" chain).Writable := by
      simp [Node.Writable, BlockInstance.node, Node.exprs, Tuple.values]
    refine h.mark begins (Text.isName_of_cons rfl rfl rfl) shown
      (writable.trans (and_iff_left nothing)) fun e again site core named => ?_
    obtain ⟨e', again', chainOf⟩ := chained e again site core named
    exact ⟨_, opened again' site named, fun mark more => TagSite.opens_else core named chainOf⟩
  · obtain ⟨text, tokens, spells⟩ := block.spells known other
    refine h.body begins (Node.prints_block (Entities.isName_of_block known) spells) writable
      fun legible e again site core named => ?_
    obtain ⟨e', again', chainOf⟩ := chained e again site core named
    obtain ⟨used', uses', again''⟩ := again'.useArgs uses
    rw [← Expr.values_rereadItems] at uses'
    have args : ∀ e ∈ made.args.values, e.writable = true := fun e mem => legible e mem
    exact ⟨_, opened again'' site named,
      TagSite.opens_block core (by rw [named, known]) spells args chainOf uses'⟩

namespace Draft.Replayed

/-- A block that starts a chain. -/
theorem block (begins : TagStart indicator) (h : d.Replayed indicator)
    (known : Entities.core.block? tag = some form) (starts : form.follows = [])
    (block : Block.Made tag made) (uses : made.args.values.foldlM Draft.useAll d = .ok used) :
    (used.openBlock place tag made [tag]).Replayed indicator := by
  have same := sameBut_of_useArgs uses
  have word := Entities.isName_of_block known
  have formed : (used.openBlock place tag made [tag]).Formed :=
    (h.formed.of_sameBut same).openScope rfl (fun chained => by cases chained) (fun _ _ => rfl)
  refine h.body same rfl rfl (fun q texts => ?_) formed fun p replays => ?_
  · exact ⟨tag, [], rfl, word, rfl, rfl⟩
  · refine replays.block place begins h.formed rfl known block ?_ uses
    intro e again site core named
    subst named
    exact ⟨e, again, TagSite.chainOf_start starts⟩

/-- A block that goes on with the chain of the innermost scope. -/
theorem chained (begins : TagStart indicator) (h : d.Replayed indicator) {top : OpenScope}
    {outer : List OpenScope} {names : List String} (filled : names ≠ [])
    (opened : d.opened = top :: outer) (kind : top.kind = .chain names)
    (known : Entities.core.block? tag = some form) (follows : form.follows.contains top.name = true)
    (block : Block.Made tag made)
    (uses : made.args.values.foldlM Draft.useAll d.closeScope = .ok used) :
    (used.openBlock place tag made (names ++ [tag])).Replayed indicator := by
  have same := sameBut_of_useArgs uses
  have goesOn : made.node tag (names ++ [tag]) = .block tag true made.behaviour made.args := by
    have := List.length_pos_iff.mpr filled
    simpa [BlockInstance.node] using this
  have formed : (used.openBlock place tag made (names ++ [tag])).Formed := by
    refine (h.formed.closeScope.of_sameBut same).openScope rfl (fun _ nodes here => ?_)
      (fun _ _ => rfl)
    rw [same] at here
    exact h.formed.endsInBlock_of_close opened kind nodes here
  refine h.link opened kind same rfl (by rw [goesOn]; rfl) (fun q texts awaits => ?_) formed
    fun p replays => ?_
  · obtain ⟨first, more, rfl, word, chain, -⟩ := awaits
    rw [goesOn]
    refine ⟨first, more ++ [tag], rfl, word, chain, ?_⟩
    show some (q.chain.getD tag) = some first
    rw [chain]
    rfl
  · refine replays.block place begins h.formed.closeScope rfl known block ?_ uses
    intro e again site core named
    have scopes := again.opened
    rw [opened, List.map_cons] at scopes
    obtain ⟨top', outer', opened', like, -⟩ := List.map_eq_cons_iff.mp scopes
    have kind' : top'.kind = .chain names := (congrArg (·.kind) like).trans kind
    have name' : top'.name = top.name := congrArg (·.name) like
    rw [← name'] at follows
    subst named
    exact ⟨_, again.closeScope, TagSite.chainOf_link opened' kind' follows⟩

end Draft.Replayed

end Blocks

namespace Draft.Replayed

variable {source : List Lexeme} {site : TagSite}

/-- A tag of the core registry keeps a draft replayed. -/
theorem of_coreStep (begins : TagStart indicator) (linked : d.Linked) (h : d.Replayed indicator)
    (step : TagSite.CoreStep site d d') : d'.Replayed indicator := by
  cases step with
  | text => exact h.addRaw begins _
  | output settled uses => exact h.output begins settled uses
  | declareEmpty word fresh => exact h.declareEmpty begins word fresh
  | declare word settled uses fresh => exact h.declare begins word settled uses fresh
  | assign word form settled known mutable compound uses =>
    exact h.assign begins word form settled known mutable compound uses
  | defineValue word settled uses => exact h.defineValue begins word settled uses
  | defineBody word => exact h.defineBody begins word site.location
  | evaluate word => exact h.evaluate begins word
  | evaluateOr word settled uses => exact h.evaluateOr begins word settled uses
  | inlineRaw quotable => exact h.inlineRaw begins quotable
  | inlineTemplate quotable => exact h.inlineTemplate begins quotable
  | encode word known => exact h.encode begins word known site.location
  | block known starts made uses => exact h.block site.location begins known starts made uses
  | link known opened kind follows made uses =>
    exact h.chained site.location begins (linked.endsInLink_of_close opened kind).1 opened kind
      known follows made uses
  | close own => exact h.close begins own

theorem of_step (begins : TagStart indicator) (spelled : ∀ l ∈ source, l.token.Spelled)
    (linked : d.Linked) (h : d.Replayed indicator) (step : Step source .core indicator d d') :
    d'.Replayed indicator := by
  cases step with
  | raw => exact h.addRaw begins _
  | mark => exact h.addRaw begins _
  | tag _ step => exact h.of_coreStep begins linked (step.core rfl spelled)

end Draft.Replayed

/-- Whatever is read is replayed by its printed source. -/
theorem Draft.replayed_of_read {source : List Lexeme} {tag : String} (begins : TagStart indicator)
    (spelled : ∀ l ∈ source, l.token.Spelled) (h : read .core indicator {} tag source = .ok d) :
    d.Replayed indicator := by
  have both : d.Linked ∧ d.Replayed indicator :=
    invariant_of_read (P := fun d => d.Linked ∧ d.Replayed indicator)
      ⟨.start, .start⟩ (fun before step =>
        ⟨before.1.of_step step, before.2.of_step begins spelled before.1 step⟩) h
  exact both.2

end Stencil
