import Mathlib.Data.Set.Finite.Lattice
import Stencil.Proofs.MissingReports

/-!
# Splices

A template and a raw text are spliced in alike: the empty places for a file are referred to tables
that are put behind all others, and what they miss is noted. A place is filled once its scope names
a table. A parse leaves all places empty, and a splice fills those for its file and no others, so it
fills as many as it says.
-/

namespace Stencil

/-- A template or a raw text under the name by which it is spliced in. -/
inductive Splice
  | template (name : String) (other : Template)
  | raw (name text : String)

namespace Splice

/-- The file and the kind of the places that it is for. -/
def place : Splice → String × Bool
  | template name _ => (name, false)
  | raw name _ => (name, true)

/-- The tables that it brings. -/
def tables : Splice → List (List Node)
  | template _ other => other.tables
  | raw _ text => [[.raw text]]

/-- The empty places in these. -/
def emptyPlaces (s : Splice) : List (String × Bool) := s.tables.flatMap Node.emptyPlaces

/-- The variables, templates and raw texts that it requires. -/
def required : Splice → NameSet
  | template _ other => other.required
  | raw _ _ => []

@[inherit_doc required]
def templates : Splice → NameSet
  | template _ other => other.templates
  | raw _ _ => []

@[inherit_doc required]
def raws : Splice → NameSet
  | template _ other => other.raws
  | raw _ _ => []

/-- A lower bound of the size of its output, in bytes. -/
def size : Splice → Nat
  | template _ other => other.size
  | raw _ text => text.utf8ByteSize

/-- Splices it into a template; gives the number of places. -/
def into (s : Splice) (t : Template) : Template × Nat :=
  match s with
  | template name other => t.inlineTemplate name other
  | raw name text => t.inlineRaw name text

/-- A template of the same name is not spliced into a template. -/
def IsOwn (s : Splice) (t : Template) : Prop := s.place = (t.name, false)

instance (s : Splice) (t : Template) : Decidable (s.IsOwn t) :=
  inferInstanceAs (Decidable (s.place = (t.name, false)))

/-- The names that a template notes, but for that of a splice. -/
def without (s : Splice) (t : Template) : NameSet × NameSet :=
  if s.place.2 then (t.templates, t.raws.erase s.place.1) else (t.templates.erase s.place.1, t.raws)

/-- A template with a splice in the places for it. -/
def filling (s : Splice) (t : Template) : Template :=
  { t with
    tables := t.fillAll s.place.1 s.place.2 t.tables.length ++
      s.tables.map (·.map (Node.shift t.tables.length))
    templates := (s.without t).1.union s.templates
    raws := (s.without t).2.union s.raws
    required := t.required.union s.required
    size := t.size + s.size * t.countAwaiting s.place.1 s.place.2 }

/-- Nothing is spliced into a template of the name, or without a place. -/
theorem into_eq (s : Splice) (t : Template) :
    s.into t = if s.IsOwn t ∨ t.countAwaiting s.place.1 s.place.2 = 0 then (t, 0)
      else (s.filling t, t.countAwaiting s.place.1 s.place.2) := by
  cases s with
  | template name other =>
    have own : (template name other).IsOwn t ↔ name = t.name := by simp [IsOwn, place]
    exact if_congr (or_congr_left own.symm) rfl rfl
  | raw name text =>
    have other : ¬(raw name text).IsOwn t := by simp [IsOwn, place]
    exact if_congr (or_iff_right other).symm rfl rfl

variable {s : Splice} {t : Template}

theorem into_of_own (own : s.IsOwn t) : s.into t = (t, 0) := by
  rw [into_eq, if_pos (.inl own)]

theorem into_of_not_mem (none : s.place ∉ t.emptyPlaces) : s.into t = (t, 0) := by
  rw [into_eq, if_pos (.inr (Classical.not_not.mp (Template.countAwaiting_ne_zero.not.mpr none)))]

theorem into_of_mem (other : ¬s.IsOwn t) (mem : s.place ∈ t.emptyPlaces) :
    s.into t = (s.filling t, t.countAwaiting s.place.1 s.place.2) := by
  rw [into_eq, if_neg (not_or.mpr ⟨other, Template.countAwaiting_ne_zero.mpr mem⟩)]

theorem name_into (s : Splice) (t : Template) : (s.into t).1.name = t.name := by
  rw [into_eq]
  split <;> rfl

/-- A splice is made of parsed templates. -/
def Given : Splice → Prop
  | template _ other => Template.Assembled Template.Parsed other
  | raw _ _ => True

end Splice

/-- Splicing keeps a template assembled. -/
theorem Template.Assembled.into {t : Template} (h : Assembled Parsed t) {s : Splice}
    (part : s.Given) : Assembled Parsed (s.into t).1 :=
  match s with
  | .template name _ => .inlineTemplate name h part
  | .raw name text => .inlineRaw name text h

namespace Splice

variable {s : Splice} {t : Template}

/-- What the places of a splice are noted for, as those of a template. -/
theorem Given.tally (h : s.Given) : Tally s.templates s.raws s.tables := by
  cases s with
  | template name other => exact h.tallies
  | raw name text => exact ⟨by simp [Noted, templates, raws, tables, Node.emptyPlaces], .nil, .nil⟩

/-- A splice takes the places for it and brings its own. -/
theorem emptyPlaces_filling (s : Splice) (t : Template) : (s.filling t).emptyPlaces =
    t.emptyPlaces.filter (· ≠ s.place) ++ s.emptyPlaces := by
  rw [Template.emptyPlaces, filling, List.flatMap_append, Template.flatMap_fillAll,
    List.flatMap_map]
  simp only [Node.emptyPlaces_shift, emptyPlaces]

theorem mem_emptyPlaces_filling {q : String × Bool} : q ∈ (s.filling t).emptyPlaces ↔
    q ∈ t.emptyPlaces ∧ q ≠ s.place ∨ q ∈ s.emptyPlaces := by
  rw [emptyPlaces_filling, List.mem_append, List.mem_filter, decide_eq_true_iff]

end Splice

namespace Node

/-- A filled place stands at a position of a table. -/
def FilledAt (nodes : List Node) (k : Nat) : Prop :=
  ∃ file asRaw target,
    nodes[k]? = some (.inline file asRaw) ∧ nodes[k + 1]? = some (.scope (some target))

variable {place : String × Bool} {table k : Nat} {nodes : List Node}

theorem getElem?_fillPlaces_zero : (fillPlaces place table nodes)[0]? = nodes[0]? := by
  rw [← List.head?_eq_getElem?, ← List.head?_eq_getElem?, head?_fillPlaces]

/-- An empty place for the file is filled. -/
theorem fillPlaces_of_awaits (here : AwaitsAt place nodes k) :
    (fillPlaces place table nodes)[k + 1]? = some (.scope (some table)) := by
  fun_induction fillPlaces place table nodes generalizing k with
  | case1 node rest same ih =>
    rcases k with _ | _ | k
    · rfl
    · cases here.1
    · exact ih here
  | case2 node rest differs ih =>
    cases k with
    | zero =>
      cases here.1
      exact absurd rfl differs
    | succ k => exact ih (awaitsAt_succ.mp here)
  | case3 node rest other ih =>
    cases k with
    | zero =>
      obtain ⟨behind, rfl⟩ : ∃ behind, rest = .scope none :: behind := by
        cases rest with
        | nil => cases here.2
        | cons next behind =>
          cases here.2
          exact ⟨behind, rfl⟩
      exact absurd rfl (other behind)
    | succ k => exact ih (awaitsAt_succ.mp here)
  | case4 => cases here.1

/-- All else stays. -/
theorem fillPlaces_of_not_awaits (elsewhere : ¬AwaitsAt place nodes k) :
    (fillPlaces place table nodes)[k + 1]? = nodes[k + 1]? := by
  fun_induction fillPlaces place table nodes generalizing k with
  | case1 node rest same ih =>
    rcases k with _ | _ | k
    · refine absurd (awaitsAt_zero.mpr ?_) elsewhere
      simp [isUnfilled, same]
    · exact getElem?_fillPlaces_zero
    · exact ih elsewhere
  | case2 node rest differs ih =>
    cases k with
    | zero => exact getElem?_fillPlaces_zero
    | succ k => exact ih (awaitsAt_succ.not.mp elsewhere)
  | case3 node rest other ih =>
    cases k with
    | zero => exact getElem?_fillPlaces_zero
    | succ k => exact ih (awaitsAt_succ.not.mp elsewhere)
  | case4 => rfl

/-- Filling changes scopes only. -/
theorem getElem?_fillPlaces_inline {file : String} {asRaw : Bool} :
    (fillPlaces place table nodes)[k]? = some (.inline file asRaw) ↔
      nodes[k]? = some (.inline file asRaw) := by
  cases k with
  | zero => rw [getElem?_fillPlaces_zero]
  | succ k =>
    by_cases here : AwaitsAt place nodes k
    · rw [fillPlaces_of_awaits here, here.2]
      exact iff_of_false (by rintro ⟨⟩) (by rintro ⟨⟩)
    · rw [fillPlaces_of_not_awaits here]

/-- Filling the empty places for a file fills these and no others. -/
theorem filledAt_fillPlaces :
    FilledAt (fillPlaces place table nodes) k ↔ FilledAt nodes k ∨ AwaitsAt place nodes k := by
  unfold FilledAt
  simp only [getElem?_fillPlaces_inline]
  by_cases here : AwaitsAt place nodes k
  · refine iff_of_true ⟨place.1, place.2, table, here.1, fillPlaces_of_awaits here⟩ (.inr here)
  · rw [fillPlaces_of_not_awaits here]
    exact (or_iff_left here).symm

/-- A node behind a place leaves it empty. -/
def Waits (before node : Node) : Prop := before.isPlace = true → node.scopeTarget? = none

theorem waits_concat {node : Node} (h : nodes.IsChain Waits) (none : node.scopeTarget? = none) :
    (nodes ++ [node]).IsChain Waits := by
  refine List.isChain_append.mpr ⟨h, .singleton _, ?_⟩
  rintro before _ _ ⟨⟩ _
  exact none

theorem waits_body {node : Node} {target : Nat} (h : nodes.IsChain Waits)
    (opens : node.hasBody = true) :
    (nodes ++ [node] ++ [Node.scope (some target)]).IsChain Waits := by
  refine List.isChain_append.mpr
    ⟨waits_concat h (scopeTarget?_of_hasBody opens), .singleton _, ?_⟩
  rintro before last _ _ isPlace
  rw [List.getLast?_concat, Option.mem_some_iff] at last
  rw [← last, isPlace_of_hasBody opens] at isPlace
  cases isPlace

theorem waits_appendRaw (h : nodes.IsChain Waits) (text : String) :
    (Draft.appendRaw text nodes).IsChain Waits := by
  unfold Draft.appendRaw
  split
  · exact waits_concat h.dropLast rfl
  · exact waits_concat h rfl

theorem not_filledAt (h : nodes.IsChain Waits) : ¬FilledAt nodes k := by
  rintro ⟨file, asRaw, target, here, behind⟩
  have bound : k + 1 < nodes.length := lt_of_getElem?_eq_some behind
  have waits := List.isChain_iff_getElem.mp h k bound
  rw [List.getElem?_eq_getElem (by omega), Option.some.injEq] at here
  rw [List.getElem?_eq_getElem bound, Option.some.injEq] at behind
  rw [here, behind] at waits
  cases waits rfl

end Node

namespace Draft

/-- The places of a draft are empty. -/
def Waits (d : Draft) : Prop := ∀ nodes ∈ d.tables, nodes.IsChain Node.Waits

namespace Waits

variable {d d' : Draft} {node : Node}

theorem start : Waits {} := by
  intro nodes mem
  rw [List.mem_singleton.mp mem]
  exact .nil

theorem of_sameBut (h : d.Waits) (same : SameBut d d') : d'.Waits := by
  unfold SameBut at same
  rw [same]
  exact h

theorem push (h : d.Waits) (none : node.scopeTarget? = none) : (d.push node).Waits :=
  forall_mem_modify h fun _ _ before => Node.waits_concat before none

theorem addRaw (h : d.Waits) (text : String) : (d.addRaw text).Waits := by
  unfold Draft.addRaw
  split
  · exact h
  · exact forall_mem_modify h fun _ _ before => Node.waits_appendRaw before text

theorem openScope (h : d.Waits) (opens : node.hasBody = true) (name : String) (kind : ScopeKind)
    (place : Text.Location) (declared : Entries Declared) :
    (d.openScope node name kind place declared).Waits := by
  have both : ∀ nodes ∈ d.tables.modify d.current
      (· ++ [node, Node.scope (some d.tables.length)]), nodes.IsChain Node.Waits :=
    forall_mem_modify h fun nodes _ before => by
      rw [List.append_cons]
      exact Node.waits_body before opens
  intro nodes mem
  rcases List.mem_append.mp mem with old | added
  · rw [push_push] at old
    exact both nodes old
  · rw [List.mem_singleton.mp added]
    exact .nil

theorem of_tables (h : d.Waits) (same : d'.tables = d.tables) : d'.Waits := by
  unfold Waits
  rw [same]
  exact h

variable {source : List Lexeme} {entities : Entities} {indicator : Char}

/-- A tag leaves the places of a draft empty. -/
theorem of_tagStep {site : TagSite} (h : d.Waits) (step : TagSite.Step source site d d') :
    d'.Waits := by
  cases step with
  | text => exact h.addRaw _
  | output _ _ uses => exact (h.of_sameBut (sameBut_of_useAll uses)).push rfl
  | call _ _ uses => exact (h.of_sameBut (sameBut_of_useAll uses)).push rfl
  | declareEmpty => exact push (h.of_tables (tables_declare ..)) rfl
  | declare _ _ uses =>
    exact push ((h.of_sameBut (sameBut_of_useAll uses)).of_tables (tables_declare ..)) rfl
  | assign _ _ _ _ _ uses =>
    exact push ((h.of_sameBut (sameBut_of_useAll uses)).of_tables (tables_markAssigned ..)) rfl
  | defineValue _ _ uses => exact (h.of_sameBut (sameBut_of_useAll uses)).push rfl
  | defineBody => exact h.openScope rfl _ _ _ _
  | evaluate => exact h.push rfl
  | evaluateOr _ _ uses => exact (h.of_sameBut (sameBut_of_useAll uses)).push rfl
  | inlineRaw => exact (h.push rfl).push rfl
  | inlineTemplate => exact (h.push rfl).push rfl
  | encode => exact h.openScope rfl _ _ _ _
  | block _ _ _ _ uses => exact (h.of_sameBut (sameBut_of_useArgs uses)).openScope rfl _ _ _ _
  | link _ _ _ _ _ _ uses =>
    have closed : d.closeScope.Waits := h
    exact (closed.of_sameBut (sameBut_of_useArgs uses)).openScope rfl _ _ _ _
  | close => exact h

theorem of_step (h : d.Waits) (step : Step source entities indicator d d') : d'.Waits := by
  cases step with
  | raw => exact h.addRaw _
  | mark => exact h.addRaw _
  | tag _ step => exact h.of_tagStep step

end Waits

end Draft

/-- A parsed template waits for all that it names. -/
theorem Template.Parsed.waits {t : Template} (h : t.Parsed) :
    ∀ nodes ∈ t.tables, nodes.IsChain Node.Waits := by
  obtain ⟨entities, config, name, tokens, made⟩ := h
  obtain ⟨d, read, _, rfl⟩ := read_of_ofTokens made
  exact Draft.invariant_of_read (P := Draft.Waits) .start (fun h step => h.of_step step) read

namespace Template

/-- The filled places, by table and position. -/
def filled (t : Template) : Set (Nat × Nat) :=
  {site | ∃ nodes, t.tables[site.1]? = some nodes ∧ Node.FilledAt nodes site.2}

theorem finite_filled (t : Template) : t.filled.Finite := by
  have inside : t.filled ⊆ ⋃ i ∈ {i | i < t.tables.length},
      Prod.mk i '' {k | k < (t.table i).length} := by
    rintro ⟨i, k⟩ ⟨nodes, found, file, asRaw, target, here, -⟩
    have table : t.table i = nodes := by rw [Template.table, found, Option.getD_some]
    simp only [Set.mem_iUnion, Set.mem_ofPred_eq, Set.mem_image, Prod.mk.injEq]
    refine ⟨i, lt_of_getElem?_eq_some found, k, ?_, rfl, rfl⟩
    rw [table]
    exact lt_of_getElem?_eq_some here
  refine (Set.Finite.biUnion (Set.finite_lt_nat _) fun i _ => ?_).subset inside
  exact (Set.finite_lt_nat _).image _

/-- From a template to another, so many places are filled and none is emptied. -/
structure Fills (t u : Template) (count : Nat) : Prop where
  kept : t.filled ⊆ u.filled
  more : u.filled.ncard = t.filled.ncard + count

namespace Fills

variable {t u v : Template} {n m : Nat}

theorem refl (t : Template) : t.Fills t 0 := ⟨subset_rfl, rfl⟩

theorem trans (h : t.Fills u n) (h' : u.Fills v m) : t.Fills v (n + m) :=
  ⟨h.kept.trans h'.kept, by rw [h'.more, h.more, Nat.add_assoc]⟩

/-- The places that became filled are as many as it says. -/
theorem ncard_sdiff (h : t.Fills u n) : (u.filled \ t.filled).ncard = n := by
  have sum := Set.ncard_sdiff_add_ncard_of_subset h.kept u.finite_filled
  have := h.more
  omega

end Fills

end Template

namespace Splice

variable {s : Splice} {t : Template}

/-- A splice brings empty places only. -/
def Waits (s : Splice) : Prop := ∀ nodes ∈ s.tables, nodes.IsChain Node.Waits

theorem waits_raw (name text : String) : (raw name text).Waits := by
  intro nodes mem
  rw [List.mem_singleton.mp mem]
  exact .singleton _

theorem waits_shift (waits : s.Waits) (offset : Nat) {nodes : List Node}
    (mem : nodes ∈ s.tables.map (·.map (Node.shift offset))) : nodes.IsChain Node.Waits := by
  obtain ⟨old, inside, rfl⟩ := List.mem_map.mp mem
  refine (List.isChain_map _).mpr ((waits old inside).imp fun before node none isPlace => ?_)
  rw [Node.isPlace, Node.place?_shift] at isPlace
  have := none isPlace
  cases node with
  | scope target =>
    cases target with
    | none => rfl
    | some => cases this
  | _ => rfl

/-- The empty places for the file are filled, and no others. -/
theorem filled_filling (waits : s.Waits) (t : Template) :
    (s.filling t).filled = t.filled ∪ Node.sites s.place t.tables := by
  ext ⟨i, k⟩
  by_cases inside : i < t.tables.length
  · have found : (s.filling t).tables[i]? =
        t.tables[i]?.map (Node.fillPlaces s.place t.tables.length) := by
      rw [filling, List.getElem?_append_left (by rwa [Template.length_fillAll]), Template.fillAll,
        List.getElem?_map]
    have here : t.tables[i]? = some t.tables[i] := List.getElem?_eq_getElem inside
    simp only [Template.filled, Node.sites, Set.mem_union, Set.mem_ofPred_eq, found, here,
      Option.map_some, Option.some.injEq, exists_eq_left']
    exact Node.filledAt_fillPlaces
  · have beyond : t.tables[i]? = none := List.getElem?_eq_none (by omega)
    refine iff_of_false ?_ ?_
    · rintro ⟨nodes, found, filledAt⟩
      rw [filling, List.getElem?_append_right (by rw [Template.length_fillAll]; omega)] at found
      exact Node.not_filledAt (waits_shift waits _ (List.mem_of_getElem? found)) filledAt
    · rintro (⟨nodes, found, -⟩ | ⟨nodes, found, -⟩) <;> simp [beyond] at found

/-- A splice fills as many places as it says. -/
theorem fills_into (waits : s.Waits) (t : Template) : t.Fills (s.into t).1 (s.into t).2 := by
  rw [into_eq]
  split
  · exact .refl t
  · have new := filled_filling waits t
    refine ⟨new ▸ Set.subset_union_left, ?_⟩
    have apart : Disjoint t.filled (Node.sites s.place t.tables) := by
      rw [Set.disjoint_left]
      rintro ⟨i, k⟩ ⟨nodes, found, file, asRaw, target, -, behind⟩ ⟨others, found', awaits⟩
      cases found.symm.trans found'
      cases behind.symm.trans awaits.2
    rw [new, Set.ncard_union_eq apart t.finite_filled (Node.finite_sites _ _),
      Template.countAwaiting_eq, Template.unfilled]

end Splice

end Stencil
