import Stencil.Proofs.CoveredParse
import Stencil.Proofs.Splicing

/-!
# Coverage of spliced templates

Nothing is known where the template itself or a spliced table is entered, so that splicing joins the
coverage of templates.
-/

namespace Stencil

namespace Node

variable {required : NameSet} {known known' : Nat → List String} {before : Option Node}
  {names : List String} {nodes : List Node}

/-- Of the node before, only counts what it binds and whether it is a place. -/
theorem AllCovered.of_before {before' : Option Node}
    (h : AllCovered required known before names nodes)
    (binds : ∀ name, Binds before' name ↔ Binds before name)
    (place : FromElsewhere before' ↔ FromElsewhere before) :
    AllCovered required known before' names nodes := by
  cases nodes with
  | nil => trivial
  | cons node nodes =>
    refine ⟨⟨h.1.exprs, h.1.assigned, ?_, ?_, h.1.made⟩, h.2⟩
    · intro table eq name mem
      exact (h.1.entered table eq name mem).imp_right (binds name).mpr
    · intro table eq here name mem
      exact h.1.carried table eq (mt place.mpr here) name (mem.imp_right (binds name).mp)

/-- Filled places keep nodes covered, if nothing is known in the table they refer to. -/
theorem AllCovered.fillPlaces (h : AllCovered required known before names nodes)
    (place : String × Bool) {table : Nat} (new : known table = []) :
    AllCovered required known before names (Node.fillPlaces place table nodes) := by
  fun_induction Node.fillPlaces place table nodes generalizing before names with
  | case1 node rest same ih =>
    have behind : AllCovered required known (some (.scope (some table)))
        (node.declares ++ names) rest := h.2.2.of_before (fun _ => Iff.rfl) Iff.rfl
    refine ⟨h.1, ⟨by simp [exprs], by rintro v op value ⟨⟩, ?_, ?_,
      by rintro tag chained behaviour args ⟨⟩⟩, ih behind⟩
    · rintro _ ⟨⟩
      rw [new]
      simp
    · intro _ _ here
      refine absurd ?_ here
      change node.place?.isSome = true
      rw [same]
      rfl
  | case2 node rest differs ih => exact ⟨h.1, ih h.2⟩
  | case3 node rest other ih => exact ⟨h.1, ih h.2⟩
  | case4 => trivial

theorem exprs_shift (offset : Nat) (node : Node) : (node.shift offset).exprs = node.exprs := by
  unfold shift
  split <;> rfl

theorem declares_shift (offset : Nat) (node : Node) :
    (node.shift offset).declares = node.declares := by
  unfold shift
  split <;> rfl

theorem binds_shift (offset : Nat) (before : Option Node) (name : String) :
    Binds (before.map (shift offset)) name ↔ Binds before name := by
  cases before with
  | none => exact Iff.rfl
  | some node =>
    unfold shift
    dsimp only [Option.map_some]
    split <;> exact Iff.rfl

theorem fromElsewhere_shift (offset : Nat) (before : Option Node) :
    FromElsewhere (before.map (shift offset)) ↔ FromElsewhere before := by
  cases before with
  | none => exact Iff.rfl
  | some node =>
    unfold shift
    dsimp only [Option.map_some]
    split <;> exact Iff.rfl

/-- Shifted nodes are covered like the others, if the same is known in the shifted tables. -/
theorem AllCovered.shift (h : AllCovered required known before names nodes) {offset : Nat}
    (same : ∀ table, known' (table + offset) = known table) :
    AllCovered required known' (before.map (Node.shift offset)) names
      (nodes.map (Node.shift offset)) := by
  induction nodes generalizing before names with
  | nil => trivial
  | cons node nodes ih =>
    have unshifted {table : Nat} (eq : node.shift offset = .scope (some table)) :
        ∃ old, node = .scope (some old) ∧ table = old + offset := by
      unfold Node.shift at eq
      split at eq
      · rename_i old
        cases eq
        exact ⟨old, rfl, rfl⟩
      · rename_i notFilled
        exact absurd eq (notFilled table)
    refine ⟨⟨?_, ?_, ?_, ?_, ?_⟩, ?_⟩
    · rw [exprs_shift]
      exact h.1.exprs
    · intro v op value eq
      refine h.1.assigned v op value ?_
      unfold Node.shift at eq
      split at eq
      · cases eq
      · exact eq
    · intro table eq name mem
      obtain ⟨old, here, rfl⟩ := unshifted eq
      rw [same] at mem
      exact (h.1.entered old here name mem).imp_right (binds_shift _ _ _).mpr
    · intro table eq own name mem
      obtain ⟨old, here, rfl⟩ := unshifted eq
      rw [same]
      exact h.1.carried old here (mt (fromElsewhere_shift _ _).mpr own) name
        (mem.imp_right (binds_shift _ _ _).mp)
    · intro tag chained behaviour args eq
      refine h.1.made tag chained behaviour args ?_
      unfold Node.shift at eq
      split at eq
      · cases eq
      · exact eq
    · rw [declares_shift]
      exact ih h.2

end Node

namespace Template

/-- Every table is covered, with nothing known in the first. -/
structure Covered (known : Nat → List String) (t : Template) : Prop where
  start : known 0 = []
  tables : ∀ i nodes, t.tables[i]? = some nodes →
    Node.AllCovered t.required known none (known i) nodes

/-- Templates of sources, with the core registry. -/
def ParsedCore (t : Template) : Prop :=
  ∃ config name source, parse .core config name source = .ok t

theorem ParsedCore.parsed {t : Template} (h : t.ParsedCore) : t.Parsed := by
  obtain ⟨config, name, source, made⟩ := h
  exact parsed_of_parse made

theorem ParsedCore.covered {t : Template} (h : t.ParsedCore) : ∃ known, t.Covered known := by
  obtain ⟨config, name, source, made⟩ := h
  obtain ⟨tokens, scanned, made⟩ := ofTokens_of_parse made
  obtain ⟨d, read, _, rfl⟩ := read_of_ofTokens made
  obtain ⟨_, known, covered⟩ := Draft.covered_of_read (Token.spelled_of_scan scanned) read
  exact ⟨known, covered.start, covered.tables⟩

theorem Assembled.mono {Given Given' : Template → Prop} (weaker : ∀ t, Given t → Given' t)
    {t : Template} (h : Assembled Given t) : Assembled Given' t := by
  induction h with
  | given h => exact .given (weaker _ h)
  | inlineTemplate name _ _ ih part => exact .inlineTemplate name ih part
  | inlineRaw name text _ ih => exact .inlineRaw name text ih

/-- What is known in the tables of two templates, the second behind the first. -/
def knownBehind (offset : Nat) (known more : Nat → List String) (i : Nat) : List String :=
  if i < offset then known i else more (i - offset)

variable {t other : Template} {known more : Nat → List String}

theorem allCovered_fillAll (h : t.Covered known) (layout : t.Layout) {file : String}
    {asRaw : Bool} {required : NameSet} (grow : t.required ⊆ required)
    (empty : more 0 = []) {i : Nat} {nodes : List Node}
    (found : (t.fillAll file asRaw t.tables.length)[i]? = some nodes) :
    Node.AllCovered required (knownBehind t.tables.length known more) none
      (knownBehind t.tables.length known more i) nodes := by
  rw [fillAll, List.getElem?_map] at found
  obtain ⟨old, here, rfl⟩ := Option.map_eq_some_iff.mp found
  have inside := lt_of_getElem?_eq_some here
  have entry : knownBehind t.tables.length known more i = known i := if_pos inside
  rw [entry]
  refine Node.AllCovered.fillPlaces ?_ _ ?_
  · refine ((h.tables i old here).mono grow).congr fun table mem => ?_
    exact if_pos (layout.forward i old table here mem).2
  · unfold knownBehind
    rw [if_neg (Nat.lt_irrefl _), Nat.sub_self]
    exact empty

theorem Covered.inlineTemplate (h : t.Covered known) (layout : t.Layout)
    (part : other.Covered more) (name : String) :
    ∃ known', (t.inlineTemplate name other).1.Covered known' := by
  unfold Template.inlineTemplate
  dsimp only
  split
  · exact ⟨known, h⟩
  · refine ⟨knownBehind t.tables.length known more, ?_, ?_⟩
    · unfold knownBehind
      rw [if_pos layout.nonempty]
      exact h.start
    · intro i nodes found
      rw [List.getElem?_append] at found
      split at found
      · refine allCovered_fillAll h layout ?_ part.start found
        intro key mem
        exact NameSet.mem_union.mpr (.inl mem)
      · rename_i behind
        rw [length_fillAll] at found behind
        rw [List.getElem?_map] at found
        obtain ⟨old, here, rfl⟩ := Option.map_eq_some_iff.mp found
        have entry : knownBehind t.tables.length known more i = more (i - t.tables.length) :=
          if_neg behind
        rw [entry]
        have covered := part.tables _ old here
        refine (covered.mono ?_).shift ?_
        · intro key mem
          exact NameSet.mem_union.mpr (.inr mem)
        · intro table
          unfold knownBehind
          rw [if_neg (by omega), Nat.add_sub_cancel]

theorem Covered.inlineRaw (h : t.Covered known) (layout : t.Layout) (name text : String) :
    ∃ known', (t.inlineRaw name text).1.Covered known' := by
  unfold Template.inlineRaw
  dsimp only
  split
  · exact ⟨known, h⟩
  · refine ⟨knownBehind t.tables.length known fun _ => [], ?_, ?_⟩
    · unfold knownBehind
      rw [if_pos layout.nonempty]
      exact h.start
    · intro i nodes found
      rw [List.getElem?_append] at found
      split at found
      · exact allCovered_fillAll h layout (List.Subset.refl _) rfl found
      · rw [List.mem_singleton.mp (List.mem_of_getElem? found)]
        exact ⟨Node.covered_raw text, trivial⟩

/-- The blocks of a template are those of the core registry. -/
theorem Covered.made (h : t.Covered known) {table : Nat} {tag : String} {chained : Bool}
    {behaviour : Behaviour} {args : Tuple}
    (mem : .block tag chained behaviour args ∈ t.table table) :
    ∃ declared, Block.Made tag ⟨behaviour, args, declared⟩ := by
  obtain ⟨nodes, found, inside⟩ := exists_of_mem_getD mem
  obtain ⟨front, rest, rfl⟩ := List.append_of_mem inside
  have covered := (Node.allCovered_append.mp (h.tables table _ found)).2.1
  exact covered.made tag chained behaviour args rfl

/-- Splicing keeps templates covered. -/
theorem Assembled.covered (h : Assembled ParsedCore t) : ∃ known, t.Covered known := by
  induction h with
  | given h => exact h.covered
  | inlineTemplate name h _ ih part =>
    obtain ⟨known, covered⟩ := ih
    obtain ⟨more, covered'⟩ := part
    exact covered.inlineTemplate (h.mono fun _ h => h.parsed).layout covered' name
  | inlineRaw name text h ih =>
    obtain ⟨known, covered⟩ := ih
    exact covered.inlineRaw (h.mono fun _ h => h.parsed).layout name text

end Template

end Stencil
