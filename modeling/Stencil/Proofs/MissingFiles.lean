import Mathlib.Data.Set.Card
import Mathlib.Data.String.Basic
import Stencil.Proofs.Splicing

/-!
# Missing files

A place for a file is empty as long as the scope behind it names no table. The files that a template
is said to miss are those of its empty places: a parse notes a file where it writes a place, and
splicing takes a file out where it fills the places, and adds what the spliced template misses.

The files that a template names as missing are exactly those of its empty places, through a parse
and any splicing, and the report on it warns once of each.
-/

namespace Stencil

namespace Node

/-- Whether a node is the scope of an empty place. -/
def isUnfilled : Node → Bool
  | scope none => true
  | _ => false

/-- An empty place stands at a position of a table. -/
def AwaitsAt (place : String × Bool) (nodes : List Node) (k : Nat) : Prop :=
  nodes[k]? = some (.inline place.1 place.2) ∧ nodes[k + 1]? = some (.scope none)

theorem emptyPlaces_cons (node : Node) (rest : List Node) : emptyPlaces (node :: rest) =
    (bif rest.head?.any isUnfilled then node.place?.toList else []) ++ emptyPlaces rest := by
  rcases rest with _ | ⟨next, rest⟩
  · rfl
  · match next with
    | .scope none => rfl
    | .scope (some _) | .raw _ | .output _ | .declare .. | .assign .. | .block .. | .define ..
    | .evaluate .. | .inline .. | .encode .. => rfl

theorem isUnfilled_iff {node : Node} : node.isUnfilled = true ↔ node = .scope none := by
  unfold isUnfilled
  split
  · simp
  · rename_i other
    simpa using other

/-- A node other than the scope of a place adds no empty place. -/
theorem emptyPlaces_concat (nodes : List Node) {node : Node} (filled : node.isUnfilled = false) :
    emptyPlaces (nodes ++ [node]) = emptyPlaces nodes := by
  induction nodes with
  | nil => rfl
  | cons first nodes ih =>
    rw [List.cons_append, emptyPlaces_cons, emptyPlaces_cons, ih]
    cases nodes with
    | nil => simp [filled]
    | cons => rfl

/-- A place that is written is empty. -/
theorem emptyPlaces_place (nodes : List Node) (file : String) (asRaw : Bool) :
    emptyPlaces (nodes ++ [.inline file asRaw, .scope none]) =
      emptyPlaces nodes ++ [(file, asRaw)] := by
  induction nodes with
  | nil => rfl
  | cons first nodes ih =>
    rw [List.cons_append, emptyPlaces_cons, emptyPlaces_cons, ih]
    cases nodes with
    | nil => rfl
    | cons => simp

theorem emptyPlaces_appendRaw (text : String) (nodes : List Node) :
    emptyPlaces (Draft.appendRaw text nodes) = emptyPlaces nodes := by
  unfold Draft.appendRaw
  split
  · rename_i before last
    obtain ⟨front, rfl⟩ := List.getLast?_eq_some_iff.mp last
    rw [List.dropLast_concat, emptyPlaces_concat front rfl, emptyPlaces_concat front rfl]
  · exact emptyPlaces_concat nodes rfl

theorem place?_shift (offset : Nat) (node : Node) : (node.shift offset).place? = node.place? := by
  unfold shift
  split <;> rfl

theorem isUnfilled_shift (offset : Nat) (node : Node) :
    (node.shift offset).isUnfilled = node.isUnfilled := by
  unfold shift
  split <;> rfl

/-- Moved tables have the same empty places. -/
theorem emptyPlaces_shift (offset : Nat) (nodes : List Node) :
    emptyPlaces (nodes.map (shift offset)) = emptyPlaces nodes := by
  induction nodes with
  | nil => rfl
  | cons node nodes ih =>
    rw [List.map_cons, emptyPlaces_cons, emptyPlaces_cons, ih, place?_shift]
    cases nodes with
    | nil => rfl
    | cons next nodes =>
      simp only [List.map_cons, List.head?_cons, Option.any_some, isUnfilled_shift]

theorem head?_fillPlaces (place : String × Bool) (table : Nat) (nodes : List Node) :
    (fillPlaces place table nodes).head? = nodes.head? := by
  fun_cases fillPlaces place table nodes <;> rfl

/-- Filling the places for a file leaves the empty places for other files. -/
theorem emptyPlaces_fillPlaces (place : String × Bool) (table : Nat) (nodes : List Node) :
    emptyPlaces (fillPlaces place table nodes) = (emptyPlaces nodes).filter (· ≠ place) := by
  fun_induction fillPlaces place table nodes with
  | case1 node rest same ih =>
    simp only [emptyPlaces_cons, ih, List.head?_cons, Option.any_some, isUnfilled, cond_true,
      cond_false, List.nil_append, same, Option.toList_some, List.filter_append]
    simp [place?]
  | case2 node rest differs ih =>
    have kept : node.place?.toList.filter (· ≠ place) = node.place?.toList := by
      rw [List.filter_eq_self]
      intro other mem
      have own : node.place? = some other := by simpa using mem
      rw [own, Option.some.injEq] at differs
      simpa using differs
    simp only [emptyPlaces_cons node, ih, head?_fillPlaces, List.head?_cons, Option.any_some,
      isUnfilled, cond_true, List.filter_append, kept]
  | case3 node rest other ih =>
    have filled : rest.head?.any isUnfilled = false := by
      cases rest with
      | nil => rfl
      | cons next rest =>
        have differs : next ≠ .scope none := fun eq => other rest (by rw [eq])
        exact Bool.eq_false_iff.mpr fun unfilled => differs (isUnfilled_iff.mp unfilled)
    simp only [emptyPlaces_cons node, ih, head?_fillPlaces, filled, cond_false, List.nil_append]
  | case4 => rfl

theorem finite_awaitsAt (place : String × Bool) (nodes : List Node) :
    {k | AwaitsAt place nodes k}.Finite := by
  refine (Set.finite_lt_nat nodes.length).subset fun k here => ?_
  exact lt_of_getElem?_eq_some here.1

/-- Behind the first node the positions are those of the rest. -/
theorem awaitsAt_succ {place : String × Bool} {node : Node} {rest : List Node} {k : Nat} :
    AwaitsAt place (node :: rest) (k + 1) ↔ AwaitsAt place rest k := by
  unfold AwaitsAt
  rw [List.getElem?_cons_succ, List.getElem?_cons_succ]

theorem awaitsAt_zero {place : String × Bool} {node : Node} {rest : List Node} :
    AwaitsAt place (node :: rest) 0 ↔
      place ∈ (bif rest.head?.any isUnfilled then node.place?.toList else []) := by
  have place?_iff : node = .inline place.1 place.2 ↔ node.place? = some place := by
    unfold place?
    split
    · simp [Prod.ext_iff]
    · rename_i other
      simpa using other place.1 place.2
  have unfilled_iff : rest[0]? = some (.scope none) ↔ rest.head?.any isUnfilled = true := by
    cases rest with
    | nil => simp
    | cons next rest => simp [isUnfilled_iff]
  unfold AwaitsAt
  rw [List.getElem?_cons_zero, List.getElem?_cons_succ, Option.some.injEq, place?_iff,
    unfilled_iff]
  cases rest.head?.any isUnfilled <;> simp

/-- The empty places for a file are counted by their positions. -/
theorem count_emptyPlaces (place : String × Bool) (nodes : List Node) :
    (emptyPlaces nodes).count place = {k | AwaitsAt place nodes k}.ncard := by
  induction nodes with
  | nil => simp [emptyPlaces, AwaitsAt]
  | cons node rest ih =>
    have behind :
        (Nat.succ '' {k | AwaitsAt place rest k}).ncard = (emptyPlaces rest).count place := by
      rw [Set.ncard_image_of_injective _ Nat.succ_injective, ih]
    rw [emptyPlaces_cons, List.count_append, ← behind]
    by_cases here : AwaitsAt place (node :: rest) 0
    · have positions : {k | AwaitsAt place (node :: rest) k} =
          insert 0 (Nat.succ '' {k | AwaitsAt place rest k}) := by
        ext k
        cases k with
        | zero => simpa using here
        | succ k => simp [awaitsAt_succ]
      have finite := (finite_awaitsAt place rest).image Nat.succ
      rw [positions, Set.ncard_insert_of_notMem (by simp) finite, Nat.add_comm]
      have mem := awaitsAt_zero.mp here
      cases unfilled : rest.head?.any isUnfilled with
      | false => simp [unfilled] at mem
      | true =>
        rw [unfilled, cond_true, Option.mem_toList] at mem
        simp [Option.mem_def.mp mem]
    · have positions : {k | AwaitsAt place (node :: rest) k} =
          Nat.succ '' {k | AwaitsAt place rest k} := by
        ext k
        cases k with
        | zero => simpa using here
        | succ k => simp [awaitsAt_succ]
      rw [positions, List.count_eq_zero_of_not_mem (here ∘ awaitsAt_zero.mpr), Nat.zero_add]

/-- The empty places for a file in an array of tables, by table and position. -/
def sites (place : String × Bool) (tables : List (List Node)) : Set (Nat × Nat) :=
  {site | ∃ nodes, tables[site.1]? = some nodes ∧ AwaitsAt place nodes site.2}

theorem sites_cons (place : String × Bool) (nodes : List Node) (tables : List (List Node)) :
    sites place (nodes :: tables) =
      Prod.mk 0 '' {k | AwaitsAt place nodes k} ∪ Prod.map Nat.succ id '' sites place tables := by
  ext ⟨i, k⟩
  cases i with
  | zero => simp [sites]
  | succ i => simp [sites]

theorem finite_sites (place : String × Bool) (tables : List (List Node)) :
    (sites place tables).Finite := by
  induction tables with
  | nil => simp [sites]
  | cons nodes tables ih =>
    rw [sites_cons]
    exact ((finite_awaitsAt place nodes).image _).union (ih.image _)

/-- The empty places for a file in all tables are counted by their sites. -/
theorem count_flatMap_emptyPlaces (place : String × Bool) (tables : List (List Node)) :
    (tables.flatMap emptyPlaces).count place = (sites place tables).ncard := by
  induction tables with
  | nil => simp [sites]
  | cons nodes tables ih =>
    have here : (Prod.mk 0 '' {k | AwaitsAt place nodes k}).ncard =
        (emptyPlaces nodes).count place := by
      rw [Set.ncard_image_of_injective _ (Prod.mk_right_injective 0), count_emptyPlaces]
    have behind : (Prod.map Nat.succ id '' sites place tables).ncard =
        (tables.flatMap emptyPlaces).count place := by
      have injective : (Prod.map Nat.succ (id : Nat → Nat)).Injective :=
        Nat.succ_injective.prodMap Function.injective_id
      rw [Set.ncard_image_of_injective _ injective, ih]
    have apart : Disjoint (Prod.mk 0 '' {k | AwaitsAt place nodes k})
        (Prod.map Nat.succ id '' sites place tables) := by
      rw [Set.disjoint_left]
      rintro _ ⟨k, _, rfl⟩ ⟨site, _, eq⟩
      exact Nat.succ_ne_zero _ (congrArg Prod.fst eq)
    rw [List.flatMap_cons, List.count_append, sites_cons,
      Set.ncard_union_eq apart ((finite_awaitsAt place nodes).image _)
        ((finite_sites place tables).image _), here, behind]

end Node

namespace NameSet

/-- Names ascend, so that none occurs twice. -/
def Ascending (names : NameSet) : Prop := names.Pairwise (· < ·)

theorem Ascending.nodup {names : NameSet} (h : Ascending names) : names.Nodup :=
  h.imp fun less => ne_of_lt less

theorem Ascending.insert {names : NameSet} (h : Ascending names) (name : String) :
    Ascending (NameSet.insert name names) := by
  induction names with
  | nil => exact List.pairwise_singleton _ _
  | cons n rest ih =>
    have later : ∀ other ∈ rest, n < other := (List.pairwise_cons.mp h).1
    simp only [NameSet.insert]
    split
    · rename_i less
      refine List.pairwise_cons.mpr ⟨fun other mem => ?_, h⟩
      rcases List.mem_cons.mp mem with rfl | mem
      · exact less
      · exact less.trans (later other mem)
    · rename_i notLess
      split
      · exact h
      · rename_i differs
        refine List.pairwise_cons.mpr ⟨fun other mem => ?_, ih (List.Pairwise.of_cons h)⟩
        rcases mem_insert.mp mem with rfl | mem
        · exact lt_of_le_of_ne (not_lt.mp notLess) differs
        · exact later other mem

theorem Ascending.erase {names : NameSet} (h : Ascending names) (name : String) :
    Ascending (NameSet.erase name names) := h.filter _

theorem Ascending.union {names : NameSet} (h : Ascending names) (others : NameSet) :
    Ascending (names.union others) := by
  unfold NameSet.union
  induction others generalizing names with
  | nil => exact h
  | cons name others ih => exact ih (h.insert name)

end NameSet

/-- A file is noted as missing, as a template or as a raw text. -/
def Noted (templates raws : NameSet) (place : String × Bool) : Prop :=
  if place.2 then place.1 ∈ raws else place.1 ∈ templates

/-- The notes name the files of the empty places, each once. -/
structure Tally (templates raws : NameSet) (tables : List (List Node)) : Prop where
  noted : ∀ place, Noted templates raws place ↔ place ∈ tables.flatMap Node.emptyPlaces
  templates : templates.Ascending
  raws : raws.Ascending

namespace Tally

variable {templates raws templates' raws' : NameSet} {tables tables' : List (List Node)} {i : Nat}

theorem start : Tally [] [] [[]] :=
  ⟨by simp [Noted, Node.emptyPlaces], .nil, .nil⟩

/-- Tables may be rewritten as long as their empty places stay. -/
theorem rewrite (h : Tally templates raws tables) {f : List Node → List Node}
    (keep : ∀ nodes, Node.emptyPlaces (f nodes) = Node.emptyPlaces nodes) :
    Tally templates raws (tables.modify i f) :=
  ⟨by rw [flatMap_modify keep]; exact h.noted, h.templates, h.raws⟩

theorem concat (h : Tally templates raws tables) : Tally templates raws (tables ++ [[]]) :=
  ⟨by simpa [Node.emptyPlaces] using h.noted, h.templates, h.raws⟩

/-- A new place is noted with its file. -/
theorem place (h : Tally templates raws tables) (bound : i < tables.length) {file : String}
    {asRaw : Bool} (noted : ∀ other, Noted templates' raws' other ↔
      Noted templates raws other ∨ other = (file, asRaw))
    (ascendingTemplates : templates'.Ascending) (ascendingRaws : raws'.Ascending) :
    Tally templates' raws' (tables.modify i (· ++ [.inline file asRaw, .scope none])) := by
  have more := perm_flatMap_modify bound fun nodes => Node.emptyPlaces_place nodes file asRaw
  refine ⟨fun other => ?_, ascendingTemplates, ascendingRaws⟩
  rw [noted, h.noted, more.mem_iff, List.mem_append, List.mem_singleton]

end Tally

namespace Draft

/-- A draft notes the files of its empty places. -/
def Tallies (d : Draft) : Prop := Tally d.templates d.raws d.tables

namespace Tallies

variable {d d' : Draft}

theorem of_sameBut (h : d.Tallies) (same : SameBut d d') : d'.Tallies := by
  unfold SameBut at same
  rw [same]
  exact h

theorem push (h : d.Tallies) {node : Node} (filled : node.isUnfilled = false) :
    (d.push node).Tallies :=
  Tally.rewrite h fun nodes => Node.emptyPlaces_concat nodes filled

theorem addRaw (h : d.Tallies) (text : String) : (d.addRaw text).Tallies := by
  unfold Draft.addRaw
  split
  · exact h
  · exact Tally.rewrite h (Node.emptyPlaces_appendRaw text)

theorem openScope (h : d.Tallies) {node : Node} (filled : node.isUnfilled = false) (name : String)
    (kind : ScopeKind) (place : Text.Location) (declared : Entries Declared) :
    (d.openScope node name kind place declared).Tallies :=
  Tally.concat ((h.push filled).push rfl)

theorem declare (h : d.Tallies) (name : String) (declared : Declared) :
    (d.declare name declared).Tallies := by
  unfold Draft.declare
  split <;> exact h

theorem markAssigned (h : d.Tallies) (name : String) : (d.markAssigned name).Tallies := by
  unfold Draft.markAssigned
  split
  · exact h
  · split <;> exact h

variable {source : List Lexeme} {entities : Entities} {indicator : Char}

/-- A tag keeps the notes of a draft. -/
theorem of_tagStep {site : TagSite} (h : d.Tallies) (formed : d.Formed)
    (step : TagSite.Step source site d d') : d'.Tallies := by
  have both (d : Draft) (file : String) (asRaw : Bool) :
      ((d.push (.inline file asRaw)).push (.scope none)).tables =
        d.tables.modify d.current (· ++ [.inline file asRaw, .scope none]) := by
    rw [push_push]
  cases step with
  | text => exact h.addRaw _
  | output _ _ uses => exact (h.of_sameBut (sameBut_of_useAll uses)).push rfl
  | call _ _ uses => exact (h.of_sameBut (sameBut_of_useAll uses)).push rfl
  | declareEmpty => exact (h.declare _ _).push rfl
  | declare _ _ uses => exact ((h.of_sameBut (sameBut_of_useAll uses)).declare _ _).push rfl
  | assign _ _ _ _ _ uses =>
    exact ((h.of_sameBut (sameBut_of_useAll uses)).markAssigned _).push rfl
  | defineValue _ _ uses => exact (h.of_sameBut (sameBut_of_useAll uses)).push rfl
  | defineBody => exact h.openScope rfl _ _ _ _
  | evaluate => exact h.push rfl
  | evaluateOr _ _ uses => exact (h.of_sameBut (sameBut_of_useAll uses)).push rfl
  | @inlineRaw t file =>
    unfold Tallies
    rw [both]
    refine Tally.place h formed.current_lt (fun other => ?_) h.templates (h.raws.insert file)
    obtain ⟨name, _ | _⟩ := other <;> simp [Noted, Draft.push, or_comm]
  | @inlineTemplate t file =>
    unfold Tallies
    rw [both]
    refine Tally.place h formed.current_lt (fun other => ?_) (h.templates.insert file) h.raws
    obtain ⟨name, _ | _⟩ := other <;> simp [Noted, Draft.push, or_comm]
  | encode => exact h.openScope rfl _ _ _ _
  | block _ _ _ _ uses => exact (h.of_sameBut (sameBut_of_useArgs uses)).openScope rfl _ _ _ _
  | link _ _ _ _ _ _ uses =>
    have closed : d.closeScope.Tallies := h
    exact (closed.of_sameBut (sameBut_of_useArgs uses)).openScope rfl _ _ _ _
  | close => exact h

theorem of_step (h : d.Tallies) (formed : d.Formed) (step : Step source entities indicator d d') :
    d'.Tallies := by
  cases step with
  | raw => exact h.addRaw _
  | mark => exact h.addRaw _
  | tag _ step => exact h.of_tagStep formed step

end Tallies

end Draft

namespace Template

/-- A template notes the files of its empty places. -/
def Tallies (t : Template) : Prop := Tally t.templates t.raws t.tables

theorem Parsed.tallies {t : Template} (h : t.Parsed) : t.Tallies := by
  obtain ⟨entities, config, name, tokens, made⟩ := h
  obtain ⟨d, read, _, rfl⟩ := read_of_ofTokens made
  have both : d.Formed ∧ d.Tallies :=
    Draft.invariant_of_read (P := fun d => d.Formed ∧ d.Tallies) ⟨.start, Tally.start⟩
      (fun h step => ⟨h.1.of_step step, h.2.of_step h.1 step⟩) read
  exact both.2

theorem flatMap_fillAll (t : Template) (file : String) (asRaw : Bool) (table : Nat) :
    (t.fillAll file asRaw table).flatMap Node.emptyPlaces =
      t.emptyPlaces.filter (· ≠ (file, asRaw)) := by
  simp only [fillAll, emptyPlaces, List.flatMap_map, Node.emptyPlaces_fillPlaces,
    List.filter_flatMap]

theorem flatMap_shift (t : Template) (offset : Nat) :
    (t.tables.map (·.map (Node.shift offset))).flatMap Node.emptyPlaces = t.emptyPlaces := by
  simp only [List.flatMap_map, Node.emptyPlaces_shift, emptyPlaces]

/-- Splicing a template takes its name out and puts in what it misses itself. -/
theorem Tallies.inlineTemplate {t other : Template} (h : t.Tallies) (part : other.Tallies)
    (name : String) : (t.inlineTemplate name other).1.Tallies := by
  unfold Template.inlineTemplate
  dsimp only
  split
  · exact h
  · refine ⟨fun place => ?_, (h.templates.erase name).union _, h.raws.union _⟩
    have own := h.noted place
    have new := part.noted place
    dsimp only
    rw [List.flatMap_append, flatMap_fillAll, flatMap_shift, List.mem_append, List.mem_filter]
    unfold emptyPlaces
    rw [← own, ← new]
    obtain ⟨file, _ | _⟩ := place <;> simp [Noted]

/-- Splicing a raw text takes its name out. -/
theorem Tallies.inlineRaw {t : Template} (h : t.Tallies) (name text : String) :
    (t.inlineRaw name text).1.Tallies := by
  unfold Template.inlineRaw
  dsimp only
  split
  · exact h
  · refine ⟨fun place => ?_, h.templates, h.raws.erase name⟩
    have own := h.noted place
    dsimp only
    rw [List.flatMap_append, flatMap_fillAll, List.mem_append, List.mem_filter]
    unfold emptyPlaces
    rw [← own]
    obtain ⟨file, _ | _⟩ := place <;> simp [Noted, Node.emptyPlaces]

theorem Assembled.tallies {t : Template} (h : Assembled Parsed t) : t.Tallies := by
  induction h with
  | given h => exact h.tallies
  | inlineTemplate name _ _ ih part => exact ih.inlineTemplate part name
  | inlineRaw name text _ ih => exact ih.inlineRaw name text

end Template

end Stencil
