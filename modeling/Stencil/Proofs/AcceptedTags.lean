import Stencil.Proofs.RefusedTags
import Stencil.Proofs.SpelledNodes

/-!
# Printed tags that are accepted

Printed source may be read or refused, tag by tag. If all of it is read, every tag of it was
accepted, and what an accepted tag does to a draft is known: it adds what its node is read as, opens
a body, goes on with the chain of the block before it, or closes the innermost scope.
-/

namespace Stencil

variable {indicator : Char} {final d d' used closed : Draft} {rest : List Char} {node : Node}
  {name : String} {text : List Char} {tokens : List Token}

namespace Draft

/-- Reading what is left of a source, a draft comes to another one in the end. -/
def Ends (indicator : Char) (final d : Draft) (rest : List Char) : Prop :=
  ∃ tag place, readAt .core indicator d tag ⟨rest, place⟩ = .ok final

namespace Ends

variable (begins : TagStart indicator)
include begins

/-- Printed raw text. -/
theorem raw {text : String} {bare : Bool}
    (h : Ends indicator final d ((printRaw indicator text bare).text.toList ++ rest)) :
    Ends indicator final (d.readRaw bare text) rest := by
  obtain ⟨tag, place, read⟩ := h
  obtain ⟨tag', place', same⟩ := readAt_printRaw begins d text bare tag place
  exact ⟨tag', place', (same rest).symm.trans read⟩

/-- A tag with arguments does what it does unless it is refused. -/
theorem call {Does : Draft → Prop} (prints : node.Prints indicator name text tokens [])
    (h : Ends indicator final d ((node.tagText indicator).toList ++ rest))
    (reads : node.Writable → ∀ site : TagSite, site.entities = .core → site.tag = name →
      (∃ d', Does d' ∧ site.Does tokens d d') ∨ site.Refuses tokens d) :
    ∃ d', Does d' ∧ Ends indicator final d' rest := by
  obtain ⟨tag, place, read⟩ := h
  have inside := Replays.tag_inside prints.named
  have first := Replays.tag_start prints.named
  rw [prints.shown, List.append_nil] at read
  have legible : Token.AllLegible tokens := by
    by_contra illegible
    obtain ⟨failure, refused⟩ := readAt_refused begins.toIndicatorAllowed inside first
      prints.written illegible place
    rw [refused] at read
    cases read
  rcases reads (prints.legible.mp legible)
    { entities := .core, indicator, tag := String.ofList name.toList, location := place } rfl
    String.ofList_toList with ⟨d', done, does⟩ | refuses
  · rw [readAt_call begins.toIndicatorAllowed inside first prints.written legible does] at read
    exact ⟨d', done, _, _, read⟩
  · obtain ⟨failure, refused⟩ := readAt_call_error begins.toIndicatorAllowed inside first
      prints.written legible refuses
    rw [refused] at read
    cases read

/-- A tag with arguments and a body. -/
theorem body {Opens : Draft → Prop} (prints : node.Prints indicator name text tokens [':'])
    (h : Ends indicator final d ((node.tagText indicator).toList ++ rest))
    (reads : node.Writable → ∀ site : TagSite, site.entities = .core → site.tag = name →
      (∃ d', Opens d' ∧ site.Opens tokens d d') ∨ site.Refuses tokens d) :
    ∃ d', Opens d' ∧ Ends indicator final d' rest := by
  obtain ⟨tag, place, read⟩ := h
  have inside := Replays.tag_inside prints.named
  have first := Replays.tag_start prints.named
  rw [prints.shown, List.append_assoc, List.singleton_append] at read
  have legible : Token.AllLegible tokens := by
    by_contra illegible
    obtain ⟨failure, refused⟩ := readAt_refused begins.toIndicatorAllowed inside first
      prints.written illegible place
    rw [refused] at read
    cases read
  rcases reads (prints.legible.mp legible)
    { entities := .core, indicator, tag := String.ofList name.toList, location := place } rfl
    String.ofList_toList with ⟨d', done, opens⟩ | refuses
  · rw [readAt_body begins.toIndicatorAllowed inside first prints.written legible opens] at read
    exact ⟨d', done, _, _, read⟩
  · obtain ⟨failure, refused⟩ := readAt_call_error begins.toIndicatorAllowed inside first
      prints.written legible refuses
    rw [refused] at read
    cases read

/-- A tag without arguments and a body. -/
theorem mark {Opens : Draft → Prop} (word : Text.IsName name)
    (shown : (node.tagText indicator).toList = indicator :: (name.toList ++ [':']))
    (h : Ends indicator final d ((node.tagText indicator).toList ++ rest))
    (reads : ∀ site : TagSite, site.entities = .core → site.tag = name →
      (∃ d', Opens d' ∧ ∀ (mark : Text.Location) (more : List Lexeme),
        ∃ left, site.read d (⟨.blockMark, mark⟩ :: more) = .ok (d', left) ∧ left.1 = more) ∨
      ∀ (mark : Text.Location) (more : List Lexeme),
        ∃ fault, site.read d (⟨.blockMark, mark⟩ :: more) = .error fault) :
    ∃ d', Opens d' ∧ Ends indicator final d' rest := by
  obtain ⟨tag, place, read⟩ := h
  have split : indicator :: (name.toList ++ [':']) ++ rest =
      indicator :: (name.toList ++ ':' :: rest) := by simp
  rw [shown, split] at read
  rcases reads { entities := .core, indicator, tag := name, location := place } rfl rfl with
    ⟨d', done, opens⟩ | refuses
  · rw [readAt_mark begins.toIndicatorAllowed word opens] at read
    exact ⟨d', done, _, _, read⟩
  · obtain ⟨failure, refused⟩ := readAt_mark_error begins.toIndicatorAllowed word refuses
    rw [refused] at read
    cases read

/-- The end tag of the innermost scope. -/
theorem close (word : Text.IsName name) (own : d.opened.head?.any (·.closedBy name) = true)
    (fits : Fits true rest)
    (h : Ends indicator final d (indicator :: (("end" ++ name).toList ++ rest))) :
    Ends indicator final d.closeScope rest := by
  obtain ⟨tag, place, read⟩ := h
  rw [readAt_bare begins.toIndicatorAllowed (Text.isName_end word) (fits rfl)
    fun more plain => TagSite.read_end rfl word own plain] at read
  exact ⟨_, _, read⟩

end Ends

/-- A declaration that is made adds its node. -/
theorem changes_of_declare {constant : Bool} {value : Option Expr}
    (made : TagSite.declare d constant name value = .ok d') :
    d.Changes d' (· ++ [.declare name constant value]) := by
  have added {used : Draft} (same : SameBut d used) (known : Declared) :
      d.Changes ((used.declare name known).push (.declare name constant value))
        (· ++ [.declare name constant value]) :=
    (changes_push _ _).of_declare.of_sameBut same
  unfold TagSite.declare at made
  cases value with
  | none =>
    cases constant with
    | true => cases made
    | false =>
      by_cases taken : d.innermost.has name = true
      · simp [taken, bind, Except.bind, pure, Except.pure, throw, throwThe,
          MonadExceptOf.throw] at made
      · simp only [Option.isNone_none, Bool.and_true, Bool.false_eq_true, if_false, pure_bind,
          taken] at made
        cases made
        exact added (.refl d) _
  | some e =>
    simp only [Option.isNone_some, Bool.and_false, Bool.false_eq_true, if_false] at made
    obtain ⟨used, uses, made⟩ := ok_of_bind made
    by_cases taken : used.innermost.has name = true
    · simp [taken, bind, Except.bind, throw, throwThe, MonadExceptOf.throw] at made
    · simp only [taken, Bool.false_eq_true, if_false] at made
      cases made
      exact added (sameBut_of_useAll uses) _

/-- An assignment that is made adds its node. -/
theorem changes_of_assign {v : Variable} {op : Operator} {value : Expr}
    (made : TagSite.assign d v op value = .ok d') :
    d.Changes d' (· ++ [.assign v op value]) := by
  unfold TagSite.assign at made
  by_cases atomic : v.isAtomic = true
  · simp only [atomic, Bool.not_true, Bool.false_eq_true, if_false] at made
    split at made
    · cases made
    rename_i declared known
    by_cases constant : declared.constant = true
    · simp [constant, bind, Except.bind, throw, throwThe, MonadExceptOf.throw] at made
    simp only [constant, Bool.false_eq_true, if_false] at made
    by_cases compound : (op.compoundBase?.isSome && !declared.assigned) = true
    · simp [compound, bind, Except.bind, throw, throwThe, MonadExceptOf.throw] at made
    simp only [compound, Bool.false_eq_true, if_false] at made
    obtain ⟨used, uses, made⟩ := ok_of_bind made
    cases made
    exact (changes_push _ _).of_markAssigned.of_sameBut (sameBut_of_useAll uses)
  · simp [atomic, bind, Except.bind, throw, throwThe, MonadExceptOf.throw] at made

theorem changes_of_uses {e : Expr} (uses : d.useAll e = .ok used) (node : Node) :
    d.Changes (used.push node) (· ++ [node]) :=
  (changes_push _ _).of_sameBut (sameBut_of_useAll uses)

/-- The tag of a single node adds what the node is read as. -/
theorem Ends.leaf (begins : TagStart indicator) (spelled : node.Spelled)
    (single : node.isLeaf = true) (other : ∀ text, node ≠ .raw text)
    (h : Ends indicator final d ((node.tagText indicator).toList ++ rest)) :
    ∃ d', d.Changes d' (· ++ [node.reread]) ∧ Ends indicator final d' rest := by
  cases spelled with
  | raw => exact absurd rfl (other _)
  | inline | scope | block | encode | define => cases single
  | @output e settled =>
    refine h.call begins (Node.prints_output settled) fun writable site _ named => ?_
    have legible : e.writable = true := writable e (by simp [Node.exprs])
    cases uses : d.useAll e.reread with
    | error fault => exact .inr (TagSite.refuses_output named settled legible uses)
    | ok used =>
      exact .inl ⟨_, changes_of_uses uses _, TagSite.does_output named settled legible uses⟩
  | @declareEmpty name word =>
    refine h.call begins (Node.prints_declareEmpty word) fun _ site _ named => ?_
    cases made : TagSite.declare d false name none with
    | error fault => exact .inr (TagSite.refuses_declareEmpty named made)
    | ok d' => exact .inl ⟨d', changes_of_declare made, TagSite.does_declareEmpty named made⟩
  | @declare name constant e word settled =>
    refine h.call begins (Node.prints_declare word settled) fun writable site _ named => ?_
    have legible : e.writable = true := writable e (by simp [Node.exprs])
    cases made : TagSite.declare d constant name (some e.reread) with
    | error fault => exact .inr (TagSite.refuses_declare named settled legible made)
    | ok d' =>
      exact .inl ⟨d', changes_of_declare made, TagSite.does_declare named settled legible made⟩
  | @assign name op e word form settled =>
    refine h.call begins (Node.prints_assign word form settled) fun writable site _ named => ?_
    have legible : e.writable = true := writable e (by simp [Node.exprs])
    cases made : TagSite.assign d (.plain name) op e.reread with
    | error fault => exact .inr (TagSite.refuses_assign named settled legible form made)
    | ok d' =>
      exact .inl ⟨d', changes_of_assign made, TagSite.does_assign named settled legible form made⟩
  | @defineValue name e word settled =>
    refine h.call begins (Node.prints_defineValue word settled) fun writable site _ named => ?_
    have legible : e.writable = true := writable e (by simp [Node.exprs])
    cases uses : d.useAll e.reread with
    | error fault => exact .inr (TagSite.refuses_defineValue named settled legible uses)
    | ok used =>
      exact .inl ⟨_, changes_of_uses uses _, TagSite.does_defineValue named settled legible uses⟩
  | @evaluate name word =>
    exact h.call begins (Node.prints_evaluate word) fun _ site _ named =>
      .inl ⟨_, changes_push d _, TagSite.does_evaluate named⟩
  | @evaluateOr name e word settled =>
    refine h.call begins (Node.prints_evaluateOr word settled) fun writable site _ named => ?_
    have legible : e.writable = true := writable e (by simp [Node.exprs])
    cases uses : d.useAll e.reread with
    | error fault => exact .inr (TagSite.refuses_evaluateOr named settled legible uses)
    | ok used =>
      exact .inl ⟨_, changes_of_uses uses _, TagSite.does_evaluateOr named settled legible uses⟩

/-- A draft behind the tag of a body: the node and its scope stand behind what was written, and the
body is open. -/
structure Enters (d d' : Draft) (node : Node) (kind : ScopeKind) : Prop where
  tables : d'.tables =
    d.tables.modify d.current (· ++ [node, .scope (some d.tables.length)]) ++ [[]]
  opened : d'.opened.map (·.shape) = (d.tables.length, kind) :: d.opened.map (·.shape)

theorem enters_openScope (same : SameBut d used) (node : Node) (name : String) (kind : ScopeKind)
    (place : Text.Location) (declared : Entries Declared) :
    d.Enters (used.openScope node name kind place declared) node kind := by
  have tables : used.tables = d.tables := by rw [same]
  have opened : used.opened = d.opened := by rw [same]
  have current : used.current = d.current := writtenTable_of_shape (by rw [opened])
  refine ⟨?_, ?_⟩
  · rw [tables_openScope, tables, current]
  · rw [← tables, ← opened]
    rfl

/-- The innermost open scope is that of a block whose chain a further link can go on with. -/
def Pending (d : Draft) (chain : Option String) : Prop :=
  ∃ top outer first more, d.opened = top :: outer ∧ top.kind = .chain (first :: more) ∧
    Text.IsName first ∧ chain = some first

variable {tag : String} {form : BlockForm} {made : BlockInstance} {chained : Bool}
  {chain : Option String}

/-- What a block does to the chain before it, unless it is refused. -/
theorem chains_of_pending (known : Entities.core.block? tag = some form)
    (goesOn : chained = !form.follows.isEmpty) (pending : chained = true → d.Pending chain) :
    ∃ first more, Text.IsName first ∧ (if chained then chain else some tag) = some first ∧
      decide (1 < (first :: more).length) = chained ∧ ∀ site : TagSite, site.tag = tag →
        site.chainOf form d = .ok (first :: more, if chained then d.closeScope else d) ∨
          ∃ fault, site.chainOf form d = .error fault := by
  cases chained with
  | false =>
    have starts : form.follows = [] := by simpa using goesOn.symm
    refine ⟨tag, [], Entities.isName_of_block known, rfl, rfl, fun site named => .inl ?_⟩
    rw [TagSite.chainOf_start starts, named]
    rfl
  | true =>
    obtain ⟨top, outer, first, more, opened, kind, word, head⟩ := pending rfl
    refine ⟨first, more ++ [tag], word, head, by simp, fun site named => ?_⟩
    cases follows : form.follows.contains top.name with
    | true =>
      refine .inl ?_
      rw [TagSite.chainOf_link opened kind follows, named]
      rfl
    | false =>
      obtain ⟨name, kind', place, table, declared⟩ := top
      dsimp only at kind follows
      subst kind
      refine .inr ⟨.unmatched site.tag (.mustFollow form.follows), ?_⟩
      unfold TagSite.chainOf
      rw [opened]
      simp only [follows]
      rw [if_neg (by simpa using goesOn.symm), if_neg Bool.false_ne_true]

/-- The tag of a block opens the body of the block, with the chain that it starts or goes on with. -/
theorem Ends.opensBlock (begins : TagStart indicator)
    (known : Entities.core.block? tag = some form) (goesOn : chained = !form.follows.isEmpty)
    (block : Block.Made tag made) (pending : chained = true → d.Pending chain)
    (h : Ends indicator final d
      (((Node.block tag chained made.behaviour made.args).tagText indicator).toList ++ rest)) :
    ∃ first more, Text.IsName first ∧ (if chained then chain else some tag) = some first ∧
      ∃ d', (if chained then d.closeScope else d).Enters d'
        (Node.block tag chained made.behaviour made.args).reread (.chain (first :: more)) ∧
        Ends indicator final d' rest := by
  obtain ⟨first, more, word, head, links, chains⟩ := chains_of_pending known goesOn pending
  refine ⟨first, more, word, head, ?_⟩
  have opened {closed used : Draft} (kept : SameBut closed used) {site : TagSite}
      (named : site.tag = tag) : closed.Enters (site.openedBlock made.reread (first :: more) used)
        (Node.block tag chained made.behaviour made.args).reread (.chain (first :: more)) := by
    subst named
    rw [← links]
    exact enters_openScope kept _ _ _ _ _
  by_cases other : tag = "else"
  · subst other
    cases known
    cases block.eq_of_else rfl
    have shown : ((Node.block "else" chained Block.otherwise []).tagText indicator).toList =
        indicator :: ("else".toList ++ [':']) := by
      simp [Node.tagText, Block.otherwise]
    refine h.mark begins (Text.isName_of_cons rfl rfl rfl) shown fun site core named => ?_
    rcases chains site named with links | ⟨fault, failed⟩
    · exact .inl ⟨_, opened (.refl _) named,
        fun mark more => TagSite.opens_else core named links⟩
    · exact .inr (TagSite.read_else_error core named failed)
  · obtain ⟨text, tokens, spells⟩ := block.spells known other
    refine h.body begins (Node.prints_block (Entities.isName_of_block known) spells)
      fun writable site core named => ?_
    have args : ∀ e ∈ made.args.values, e.writable = true := fun e mem => writable e mem
    have here : Entities.core.block? site.tag = some form := by rw [named, known]
    rcases chains site named with links | ⟨fault, failed⟩
    · cases uses : made.reread.args.values.foldlM Draft.useAll
          (if chained then d.closeScope else d) with
      | ok used =>
        exact .inl ⟨_, opened (sameBut_of_useArgs uses) named,
          TagSite.opens_block core here spells args links uses⟩
      | error fault =>
        exact .inr (TagSite.refuses_block_of_uses core here spells args links uses)
    · exact .inr (TagSite.refuses_block_of_chainOf core here spells args failed)

/-- The tag of a body opens the body of what the node is read as. -/
theorem Ends.opens (begins : TagStart indicator) (spelled : node.Spelled)
    (opens : node.hasBody = true) (pending : node.isChained = true → d.Pending chain)
    (h : Ends indicator final d ((node.tagText indicator).toList ++ rest)) :
    ∃ kind d', (if node.isChained then d.closeScope else d).Enters d' node.reread kind ∧
      Ends indicator final d' rest ∧
      (Printing.mk "" false (node.chainHead chain)
        (node.endName? (node.chainHead chain) [])).Awaits kind ∧
      (node.isBlock = true → ∃ names, kind = .chain names) := by
  cases spelled with
  | raw | output | declareEmpty | declare | assign | defineValue | evaluate | evaluateOr | inline
  | scope => cases opens
  | @define name word =>
    have entered : ∃ d', d.Enters d' (.define name none) .define ∧ Ends indicator final d' rest :=
      h.body begins (Node.prints_define word) fun _ site _ named =>
        .inl ⟨_, enters_openScope (.refl d) _ _ _ _ _, TagSite.opens_define named⟩
    obtain ⟨d', enters, behind⟩ := entered
    exact ⟨.define, d', enters, behind, rfl, fun block => by cases block⟩
  | @encode handler encoder word known =>
    have entered : ∃ d', d.Enters d' (.encode handler encoder) .encode ∧
        Ends indicator final d' rest :=
      h.body begins (Node.prints_encode word) fun _ site core named =>
        .inl ⟨_, enters_openScope (.refl d) _ _ _ _ _,
          TagSite.opens_raw named (by rw [core, known])⟩
    obtain ⟨d', enters, behind⟩ := entered
    exact ⟨.encode, d', enters, behind, rfl, fun block => by cases block⟩
  | @block tag form made chained known goesOn block =>
    have same : (Node.block tag chained made.behaviour made.args).isChained = chained := by
      cases chained <;> rfl
    rw [same] at pending ⊢
    obtain ⟨first, more, word, head, d', enters, behind⟩ :=
      Ends.opensBlock begins known goesOn block pending h
    have awaits : (Printing.mk "" false
        ((Node.block tag chained made.behaviour made.args).chainHead chain)
        ((Node.block tag chained made.behaviour made.args).endName?
          ((Node.block tag chained made.behaviour made.args).chainHead chain) [])).Awaits
          (.chain (first :: more)) := by
      refine ⟨first, more, rfl, word, head, ?_⟩
      show some ((if chained then chain else some tag).getD tag) = some first
      rw [head]
      rfl
    exact ⟨_, d', enters, behind, awaits, fun _ => ⟨_, rfl⟩⟩

end Draft

end Stencil
