import Stencil.Proofs.CoveredTemplates

/-!
# Conditional chains in tables

The links of a conditional chain stand behind each other, each with the scope of its body: an `if`,
any number of `elseif` and at most one `else`. A draft keeps this, since only the body of a link
that is still open can be followed by another one; the scopes of chains know the name of their last
link. Splicing moves scopes only. `exists_links` finds the chain that an `if` starts.
-/

namespace Stencil

/-- Nodes that end with the body of a block of a name. -/
def EndsInLink (name : String) (nodes : List Node) : Prop :=
  ∃ front chained behaviour args target,
    nodes = front ++ [.block name chained behaviour args, .scope (some target)]

/-- A block goes on with a chain if it is a further link by its name, and then it stands behind the
body of a link that can be followed. -/
def Node.Continues (front : List Node) : Node → Prop
  | .block name chained _ _ =>
    (chained = true ↔ name = "elseif" ∨ name = "else") ∧
      (chained = true → ∃ link ∈ Block.chainLinks, EndsInLink link front)
  | _ => True

/-- Each block stands where its name lets it. -/
def Linked (nodes : List Node) : Prop :=
  ∀ front node rest, nodes = front ++ node :: rest → node.Continues front

theorem continues_of_not_block {front : List Node} {node : Node} (h : node.isBlock = false) :
    node.Continues front := by
  cases node with
  | block => cases h
  | _ => trivial

theorem linked_nil : Linked [] := by
  intro front node rest eq
  simp at eq

theorem linked_concat {nodes : List Node} {node : Node} :
    Linked (nodes ++ [node]) ↔ Linked nodes ∧ node.Continues nodes := by
  constructor
  · intro h
    refine ⟨fun front x rest eq => ?_, h nodes node [] rfl⟩
    exact h front x (rest ++ [node]) (by simp [eq])
  · rintro ⟨old, new⟩ front x rest eq
    rcases List.eq_nil_or_concat rest with rfl | ⟨rest, last, rfl⟩
    · obtain ⟨rfl, same⟩ := List.append_inj' eq rfl
      cases same
      exact new
    · rw [List.concat_eq_append, ← List.cons_append, ← List.append_assoc] at eq
      exact old front x rest (List.append_inj' eq rfl).1

theorem linked_raw (text : String) : Linked [.raw text] := by
  have whole : Linked ([] ++ [.raw text]) := linked_concat.mpr ⟨linked_nil, trivial⟩
  exact whole

/-- Raw text at the end of a table. -/
theorem Linked.appendRaw {nodes : List Node} (h : Linked nodes) (text : String) :
    Linked (Draft.appendRaw text nodes) := by
  unfold Draft.appendRaw
  split
  · rename_i before last
    obtain ⟨front, rfl⟩ := List.getLast?_eq_some_iff.mp last
    rw [List.dropLast_concat]
    exact linked_concat.mpr ⟨(linked_concat.mp h).1, trivial⟩
  · exact linked_concat.mpr ⟨h, trivial⟩

theorem EndsInLink.retarget {name : String} {xs ys : List Node} (h : EndsInLink name xs)
    (r : List.Forall₂ Node.Retarget xs ys) : EndsInLink name ys := by
  obtain ⟨front, chained, behaviour, args, target, rfl⟩ := h
  obtain ⟨front', last, rfl, _, rl⟩ := forall₂_append_inv r
  obtain _ | ⟨rb, _ | ⟨rs, _ | _⟩⟩ := rl
  have same := rb.eq_of_not_scope (by rintro _ ⟨⟩)
  subst same
  cases rs with
  | same => exact ⟨front', chained, behaviour, args, target, rfl⟩
  | scope filled =>
    obtain ⟨b, rfl⟩ := Option.isSome_iff_exists.mp (filled rfl)
    exact ⟨front', chained, behaviour, args, b, rfl⟩

/-- Scopes may be filled or moved. -/
theorem Linked.retarget {xs ys : List Node} (h : Linked xs)
    (r : List.Forall₂ Node.Retarget xs ys) : Linked ys := by
  rintro front node rest rfl
  obtain ⟨front', _, rfl, before, _ | ⟨here, _⟩⟩ := forall₂_append_inv r.flip
  have old := h front' _ _ rfl
  cases here with
  | same =>
    cases node with
    | block name chained behaviour args =>
      refine ⟨old.1, fun goesOn => ?_⟩
      obtain ⟨link, mem, ends⟩ := old.2 goesOn
      exact ⟨link, mem, ends.retarget before.flip⟩
    | _ => trivial
  | scope => trivial

/-- Behind each chain that is open the table around it ends in the body of its last link. -/
inductive OpenLinks (tables : List (List Node)) : List OpenScope → Prop
  | nil : OpenLinks tables []
  | cons {s : OpenScope} {outer : List OpenScope}
      (around : ∀ names, s.kind = .chain names → names ≠ [] ∧
        ∃ nodes, tables[writtenTable outer]? = some nodes ∧ EndsInLink s.name nodes)
      (rest : OpenLinks tables outer) : OpenLinks tables (s :: outer)

/-- Open scopes are not affected by what happens to the table that is written, or to later ones. -/
theorem OpenLinks.congr {tables tables' : List (List Node)} {opened : List OpenScope}
    (h : OpenLinks tables opened) (inside : OpenedIn tables opened) {bound : Nat}
    (le : writtenTable opened ≤ bound) (same : ∀ i, i < bound → tables'[i]? = tables[i]?) :
    OpenLinks tables' opened := by
  induction h with
  | nil => exact .nil
  | @cons s outer around rest ih =>
    cases inside with
    | cons _ later _ _ insideRest =>
      have below : writtenTable outer < bound := Nat.lt_of_lt_of_le later le
      refine .cons (fun names kind => ?_) (ih insideRest (Nat.le_of_lt below))
      rw [same _ below]
      exact around names kind

/-- Only names, kinds and tables count. -/
theorem OpenLinks.of_shape {tables : List (List Node)} {opened opened' : List OpenScope}
    (h : OpenLinks tables opened)
    (same : opened'.map (fun s => (s.name, s.shape)) = opened.map (fun s => (s.name, s.shape))) :
    OpenLinks tables opened' := by
  induction h generalizing opened' with
  | nil =>
    rw [List.map_nil, List.map_eq_nil_iff] at same
    subst same
    exact .nil
  | @cons s outer around rest ih =>
    obtain ⟨s', outer', rfl, hs, ho⟩ := List.map_eq_cons_iff.mp same
    have name : s'.name = s.name := congrArg Prod.fst hs
    have kind : s'.kind = s.kind := congrArg (·.2.2) hs
    have written : writtenTable outer' = writtenTable outer := by
      have shapes := congrArg (List.map Prod.snd) ho
      rw [List.map_map, List.map_map] at shapes
      exact writtenTable_of_shape shapes
    refine .cons ?_ (ih ho)
    rw [name, kind, written]
    exact around

/-- The tables of a draft are linked, also behind the chains that are open. -/
structure Draft.Linked (d : Draft) : Prop where
  formed : d.Formed
  linked : ∀ nodes ∈ d.tables, Stencil.Linked nodes
  opened : OpenLinks d.tables d.opened

namespace Draft.Linked

variable {d d' : Draft}

theorem start : ({} : Draft).Linked where
  formed := .start
  linked := by
    intro nodes mem
    rw [List.mem_singleton.mp mem]
    exact linked_nil
  opened := .nil

theorem of_shape (h : d.Linked) (tables : d'.tables = d.tables)
    (opened : d'.opened.map (fun s => (s.name, s.shape)) =
      d.opened.map (fun s => (s.name, s.shape))) : d'.Linked where
  formed := by
    refine h.formed.of_shape tables ?_
    have := congrArg (List.map Prod.snd) opened
    simpa [List.map_map, Function.comp_def] using this
  linked := tables ▸ h.linked
  opened := (tables ▸ h.opened).of_shape opened

theorem of_sameBut (h : d.Linked) (same : SameBut d d') : d'.Linked := by
  unfold SameBut at same
  rw [same]
  exact h.of_shape rfl rfl

/-- The table that is written may be rewritten if it stays linked. -/
theorem rewrite (h : d.Linked) {f : List Node → List Node}
    (formed : Draft.Formed { d with tables := d.tables.modify d.current f })
    (linked : ∀ nodes, Stencil.Linked nodes → Stencil.Linked (f nodes)) :
    Draft.Linked { d with tables := d.tables.modify d.current f } where
  formed := formed
  linked := forall_mem_modify h.linked fun nodes _ old => linked nodes old
  opened := h.opened.congr h.formed.opened (Nat.le_refl _) fun _ before =>
    List.getElem?_modify_ne f d.tables (Nat.ne_of_gt before)

theorem push_leaf (h : d.Linked) {node : Node} (single : node.isLeaf = true)
    (plain : node.isBlock = false) : (d.push node).Linked :=
  h.rewrite (h.formed.push_leaf single) fun _ old =>
    linked_concat.mpr ⟨old, continues_of_not_block plain⟩

theorem push_place (h : d.Linked) (file : String) (asRaw : Bool) :
    ((d.push (.inline file asRaw)).push (.scope none)).Linked := by
  have formed := h.formed.push_place file asRaw
  rw [push_push] at formed ⊢
  refine h.rewrite formed fun nodes old => ?_
  rw [List.append_cons]
  exact linked_concat.mpr ⟨linked_concat.mpr ⟨old, trivial⟩, trivial⟩

theorem addRaw (h : d.Linked) (text : String) : (d.addRaw text).Linked := by
  have formed := h.formed.addRaw text
  unfold Draft.addRaw at formed ⊢
  split
  · exact h
  · rename_i filled
    rw [if_neg filled] at formed
    exact h.rewrite formed fun _ old => old.appendRaw text

/-- A node with a body is written where it can stand, and a chain is known by its last link. -/
theorem openScope (h : d.Linked) {node : Node} {name : String} {kind : ScopeKind}
    {place : Text.Location} {declared : Entries Declared}
    (formed : (d.openScope node name kind place declared).Formed)
    (continues : ∀ nodes, d.tables[d.current]? = some nodes → node.Continues nodes)
    (chain : ∀ names, kind = .chain names → names ≠ [] ∧
      ∃ chained behaviour args, node = .block name chained behaviour args) :
    (d.openScope node name kind place declared).Linked := by
  let write : List Node → List Node := (· ++ [node, .scope (some d.tables.length)])
  have tables : (d.openScope node name kind place declared).tables =
      d.tables.modify d.current write ++ [[]] := d.tables_openScope ..
  have inside : d.current < d.tables.length := h.formed.current_lt
  refine ⟨formed, ?_, ?_⟩
  · rw [tables]
    intro nodes mem
    rcases List.mem_append.mp mem with mem | mem
    · refine forall_mem_modify h.linked (fun old hold linked => ?_) nodes mem
      change Stencil.Linked (old ++ [node, _])
      rw [List.append_cons]
      exact linked_concat.mpr ⟨linked_concat.mpr ⟨linked, continues old hold⟩, trivial⟩
    · rw [List.mem_singleton.mp mem]
      exact linked_nil
  · refine .cons (fun names isChain => ?_) ?_
    · obtain ⟨filled, chained, behaviour, args, rfl⟩ := chain names isChain
      refine ⟨filled, write (d.tables.get ⟨d.current, inside⟩), ?_, _, chained, behaviour, args, _,
        rfl⟩
      change (d.openScope _ name kind place declared).tables[d.current]? = _
      rw [tables, List.getElem?_append_left (by simpa using inside),
        List.getElem?_modify_eq, List.getElem?_eq_getElem inside]
      rfl
    · refine h.opened.congr h.formed.opened (Nat.le_refl _) fun i before => ?_
      have below := Nat.lt_trans before inside
      rw [tables, List.getElem?_append_left (by simpa using below)]
      exact List.getElem?_modify_ne write d.tables (Nat.ne_of_gt before)

theorem closeScope (h : d.Linked) : d.closeScope.Linked where
  formed := h.formed.closeScope
  linked := h.linked
  opened := by
    have inside : OpenLinks d.tables d.opened := h.opened
    show OpenLinks d.tables d.opened.tail
    generalize d.opened = opened at inside
    cases inside with
    | nil => exact .nil
    | cons _ rest => exact rest

/-- Behind a chain that is closed stands its last link. -/
theorem endsInLink_of_close (h : d.Linked) {top : OpenScope} {outer : List OpenScope}
    {names : List String} (opened : d.opened = top :: outer) (kind : top.kind = .chain names) :
    names ≠ [] ∧ ∀ nodes, d.closeScope.tables[d.closeScope.current]? = some nodes →
      EndsInLink top.name nodes := by
  have inside := h.opened
  rw [opened] at inside
  cases inside with
  | cons around _ =>
    obtain ⟨filled, nodes, found, ends⟩ := around names kind
    refine ⟨filled, fun nodes' here => ?_⟩
    simp only [Draft.closeScope, current, opened, List.tail_cons] at here
    unfold writtenTable at found
    rw [found] at here
    cases here
    exact ends

theorem of_declare (h : d.Linked) (name : String) (declared : Declared) :
    (d.declare name declared).Linked :=
  h.of_shape (tables_declare d name declared) (opened_declare (fun _ _ => rfl) name declared)

theorem of_markAssigned (h : d.Linked) (name : String) : (d.markAssigned name).Linked :=
  h.of_shape (tables_markAssigned d name) (opened_markAssigned (fun _ _ => rfl) name)

variable {source : List Lexeme} {indicator : Char}

/-- A tag of the core registry keeps tables linked. -/
theorem of_tagStep {site : TagSite} (core : site.entities = .core) (h : d.Linked)
    (step : TagSite.Step source site d d') : d'.Linked := by
  have formed := h.formed.of_tagStep step
  cases step with
  | text => exact h.addRaw _
  | output _ _ uses => exact (h.of_sameBut (sameBut_of_useAll uses)).push_leaf rfl rfl
  | call _ _ uses => exact (h.of_sameBut (sameBut_of_useAll uses)).push_leaf rfl rfl
  | declareEmpty => exact (h.of_declare _ _).push_leaf rfl rfl
  | declare _ _ uses =>
    exact ((h.of_sameBut (sameBut_of_useAll uses)).of_declare _ _).push_leaf rfl rfl
  | assign _ _ _ _ _ uses =>
    exact ((h.of_sameBut (sameBut_of_useAll uses)).of_markAssigned _).push_leaf rfl rfl
  | defineValue _ _ uses => exact (h.of_sameBut (sameBut_of_useAll uses)).push_leaf rfl rfl
  | defineBody => exact h.openScope formed (fun _ _ => trivial) (by rintro _ ⟨⟩)
  | evaluate => exact h.push_leaf rfl rfl
  | evaluateOr _ _ uses => exact (h.of_sameBut (sameBut_of_useAll uses)).push_leaf rfl rfl
  | inlineRaw =>
    refine push_place ?_ _ _
    exact h.of_shape rfl rfl
  | inlineTemplate =>
    refine push_place ?_ _ _
    exact h.of_shape rfl rfl
  | encode => exact h.openScope formed (fun _ _ => trivial) (by rintro _ ⟨⟩)
  | @block form _ _ _ known starts _ _ uses =>
    have used := h.of_sameBut (sameBut_of_useArgs uses)
    rw [core] at known
    refine used.openScope formed (fun _ _ => ⟨?_, by rintro ⟨⟩⟩)
      (fun _ eq => ⟨by cases eq; simp, _, _, _, rfl⟩)
    refine ⟨by rintro ⟨⟩, fun further => ?_⟩
    rw [Entities.follows_core known, if_pos further] at starts
    cases starts
  | link known opened kind follows _ _ uses =>
    obtain ⟨filled, ends⟩ := h.endsInLink_of_close opened kind
    have same := sameBut_of_useArgs uses
    have used := h.closeScope.of_sameBut same
    rw [core] at known
    rw [Entities.follows_core known] at follows
    refine used.openScope formed (fun nodes here => ?_) (fun _ eq => ⟨?_, _, _, _, rfl⟩)
    · unfold SameBut at same
      rw [same] at here
      split at follows
      · rename_i further
        refine ⟨⟨fun _ => further, fun _ => ?_⟩, fun _ => ?_⟩
        · have := List.length_pos_iff.mpr filled
          simpa using this
        · exact ⟨_, List.contains_iff_mem.mp follows, ends nodes here⟩
      · cases follows
    · cases eq
      simp
  | close => exact h.closeScope

theorem of_step (h : d.Linked) (step : Step source .core indicator d d') : d'.Linked := by
  cases step with
  | raw => exact h.addRaw _
  | mark => exact h.addRaw _
  | tag _ step => exact h.of_tagStep rfl step

end Draft.Linked

namespace Template

/-- Every table is linked. -/
def Linked (t : Template) : Prop := ∀ nodes ∈ t.tables, Stencil.Linked nodes

variable {t other : Template}

theorem ParsedCore.linked (h : t.ParsedCore) : t.Linked := by
  obtain ⟨config, name, source, made⟩ := h
  obtain ⟨tokens, _, made⟩ := ofTokens_of_parse made
  obtain ⟨d, read, _, rfl⟩ := read_of_ofTokens made
  exact (Draft.invariant_of_read Draft.Linked.start (fun h step => h.of_step step) read).linked

/-- Splicing keeps tables linked. -/
theorem Assembled.linked (h : Assembled ParsedCore t) : t.Linked :=
  h.forall_tables (fun _ => ParsedCore.linked) (fun r linked => linked.retarget r) linked_raw

end Template

/-- The nodes of the links of a chain, the first an `if` unless the chain goes on with them: the
conditions, each with the table of its body, and the table of the body of an `else`. -/
def chainNodes (goesOn : Bool) (otherwise : Option Nat) : List (Expr × Nat) → List Node
  | [] => match otherwise with
    | some body => [.block "else" goesOn Block.otherwise [], .scope (some body)]
    | none => []
  | (condition, body) :: more =>
    .block (if goesOn then "elseif" else "if") goesOn Block.condition [(none, condition)] ::
      .scope (some body) :: chainNodes true otherwise more

/-- What a chain is followed by: no further link. -/
def EndsChain : List Node → Prop
  | .block _ true _ _ :: _ => False
  | _ => True

theorem EndsInLink.name_eq {name link : String} {front : List Node} {chained : Bool}
    {behaviour : Behaviour} {args : Tuple} {target : Option Nat}
    (h : EndsInLink link (front ++ [.block name chained behaviour args, .scope target])) :
    link = name := by
  obtain ⟨front', _, _, _, _, eq⟩ := h
  cases (List.append_inj' eq rfl).2
  rfl

section Chains

variable {known : Nat → List String} {t : Template} {table : Nat} {name : String} {chained : Bool}
  {behaviour : Behaviour} {args : Tuple} {nodes tail : List Node}

/-- A block of a template is of the core registry and has the scope of its body behind it. -/
theorem exists_body (covered : t.Covered known) (layout : t.Layout)
    (stands : .block name chained behaviour args :: tail <:+ t.table table) :
    ∃ body rest declared, tail = .scope (some body) :: rest ∧
      Block.Made name ⟨behaviour, args, declared⟩ := by
  obtain ⟨declared, made⟩ := covered.made (stands.subset List.mem_cons_self)
  obtain ⟨front, eq⟩ := stands
  have laid : Laid (t.table table) := by
    unfold Template.table
    cases found : t.tables[table]? with
    | none => exact .nil
    | some nodes => exact layout.laid nodes (List.mem_of_getElem? found)
  have here : (t.table table)[front.length]? = some (.block name chained behaviour args) := by
    rw [← eq]
    simp
  obtain ⟨body, behind⟩ := laid.tableForm.body here rfl
  rw [← eq, List.getElem?_append_right (Nat.le_succ _)] at behind
  simp only [Nat.succ_sub (Nat.le_refl _), Nat.sub_self, List.getElem?_cons_succ] at behind
  cases tail with
  | nil => cases behind
  | cons node rest =>
    cases behind
    exact ⟨body, rest, declared, rfl, made⟩

theorem continues_of_table (linked : t.Linked) {front : List Node} {node : Node}
    (stands : front ++ node :: tail = t.table table) : node.Continues front := by
  unfold Template.table at stands
  cases found : t.tables[table]? with
  | none =>
    rw [found] at stands
    simp at stands
  | some nodes =>
    rw [found] at stands
    exact linked nodes (List.mem_of_getElem? found) front node tail stands.symm

/-- At any place of a table stand the further links of a chain, maybe none, and then something
else. The induction is on what is left of the table. -/
theorem exists_links (covered : t.Covered known) (linked : t.Linked) (layout : t.Layout)
    (n : Nat) (few : nodes.length < n) (stands : nodes <:+ t.table table) :
    ∃ otherwise conditions rest, nodes = chainNodes true otherwise conditions ++ rest ∧
      EndsChain rest := by
  induction n generalizing nodes with
  | zero => cases few
  | succ n ih =>
    rcases nodes with _ | ⟨node, tail⟩
    · exact ⟨none, [], [], rfl, trivial⟩
    · cases goesOn : node.isChained with
      | false =>
        refine ⟨none, [], node :: tail, rfl, ?_⟩
        unfold EndsChain
        split
        · rename_i eq
          cases eq
          cases goesOn
        · trivial
      | true =>
        obtain ⟨name, behaviour, args, rfl⟩ : ∃ name behaviour args,
            node = .block name true behaviour args := by
          cases node with
          | block name chained behaviour args =>
            cases goesOn
            exact ⟨name, behaviour, args, rfl⟩
          | _ => cases goesOn
        obtain ⟨body, rest, declared, rfl, made⟩ := exists_body covered layout stands
        have more := (List.suffix_cons _ _).trans ((List.suffix_cons _ _).trans stands)
        obtain ⟨front, eq⟩ := stands
        rcases (continues_of_table linked eq).1.mp rfl with rfl | rfl
        · obtain ⟨condition, _, same⟩ := made.condition_of_link (.inr rfl)
          cases same
          obtain ⟨otherwise, conditions, rest, rfl, ends⟩ := ih (by simp at few; omega) more
          exact ⟨otherwise, (condition, body) :: conditions, rest, rfl, ends⟩
        · cases made.eq_of_else rfl
          refine ⟨some body, [], rest, rfl, ?_⟩
          unfold EndsChain
          split
          · -- an `else` is no link that can be followed
            rename_i name behaviour args rest
            have stands : (front ++ [.block "else" true Block.otherwise [], .scope (some body)]) ++
                .block name true behaviour args :: rest = t.table table := by
              rw [← eq]
              simp
            obtain ⟨link, mem, ends⟩ := (continues_of_table linked stands).2 rfl
            rw [ends.name_eq] at mem
            simp [Block.chainLinks] at mem
          · trivial

/-- An `if` starts a chain. -/
theorem exists_chain (covered : t.Covered known) (linked : t.Linked) (layout : t.Layout)
    (stands : .block "if" chained behaviour args :: tail <:+ t.table table) :
    ∃ otherwise conditions rest, .block "if" chained behaviour args :: tail =
      chainNodes false otherwise conditions ++ rest ∧ conditions ≠ [] ∧ EndsChain rest := by
  obtain ⟨body, rest, declared, rfl, made⟩ := exists_body covered layout stands
  have more := (List.suffix_cons _ _).trans ((List.suffix_cons _ _).trans stands)
  obtain ⟨front, eq⟩ := stands
  have first : chained = false := by
    cases chained with
    | false => rfl
    | true => simpa using (continues_of_table linked eq).1.mp rfl
  subst first
  obtain ⟨condition, _, same⟩ := made.condition_of_link (.inl rfl)
  cases same
  obtain ⟨otherwise, conditions, rest, rfl, ends⟩ :=
    exists_links covered linked layout _ (Nat.lt_succ_self _) more
  exact ⟨otherwise, (condition, body) :: conditions, rest, rfl, List.cons_ne_nil _ _, ends⟩

end Chains

end Stencil
