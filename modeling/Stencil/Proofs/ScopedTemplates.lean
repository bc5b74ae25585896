import Stencil.Proofs.CoveredTemplates
import Stencil.Proofs.ScopedParse

/-!
# Scopes of spliced templates

A spliced table stands in no scope but its own, so the scopes of a template and of its parts are put
side by side.
-/

namespace Stencil

namespace Node

variable {env env' : Nat → Scopes} {before : Option Node} {scopes : Scopes} {nodes : List Node}

theorem BoundBy.of_before {before' : Option Node} {own : Names} (h : BoundBy before own)
    (binds : ∀ name, Binds before' name ↔ Binds before name) : BoundBy before' own :=
  ⟨fun name => (h.names name).trans (binds name).symm, h.constants⟩

/-- Filled places keep nodes scoped, if the table they refer to stands in its own scope alone. -/
theorem AllScoped.fillPlaces (h : AllScoped env before scopes nodes) (place : String × Bool)
    {table : Nat} (new : env table = [[]]) :
    AllScoped env before scopes (Node.fillPlaces place table nodes) := by
  fun_induction Node.fillPlaces place table nodes generalizing before scopes with
  | case1 node rest same ih =>
    refine ⟨h.1, ⟨by rintro v op value ⟨⟩, by rintro _ _ _ ⟨⟩, ?_, ?_⟩, ?_⟩
    · rintro _ ⟨⟩ _
      exact new
    · intro _ _ here
      refine absurd ?_ here
      change node.place?.isSome = true
      rw [same]
      rfl
    · -- what stands behind a scope does not depend on where the scope leads
      have behind := h.2.2
      refine ih ?_
      cases rest with
      | nil => trivial
      | cons next rest => exact ⟨⟨behind.1.assigned, behind.1.fresh, behind.1.spliced,
          fun table eq here => (behind.1.entered table eq here).imp fun own both =>
            ⟨both.1, both.2.of_before fun _ => Iff.rfl⟩⟩, behind.2⟩
  | case2 node rest differs ih => exact ⟨h.1, ih h.2⟩
  | case3 node rest other ih => exact ⟨h.1, ih h.2⟩
  | case4 => trivial

theorem declareIn_shift (offset : Nat) (node : Node) (scopes : Scopes) :
    (node.shift offset).declareIn scopes = node.declareIn scopes := by
  unfold shift
  split <;> rfl

/-- Shifted nodes are scoped like the others, if the shifted tables stand in the same scopes. -/
theorem AllScoped.shift (h : AllScoped env before scopes nodes) {offset : Nat}
    (same : ∀ table, env' (table + offset) = env table) :
    AllScoped env' (before.map (Node.shift offset)) scopes (nodes.map (Node.shift offset)) := by
  induction nodes generalizing before scopes with
  | nil => trivial
  | cons node nodes ih =>
    have unshifted {table : Nat} (eq : node.shift offset = .scope (some table)) :
        ∃ old, node = .scope (some old) ∧ table = old + offset := by
      unfold Node.shift at eq
      split at eq
      · rename_i old
        cases eq
        exact ⟨old, rfl, rfl⟩
      · rename_i notFilled
        exact absurd eq (notFilled table)
    have kept {other : Node} (eq : node.shift offset = other)
        (notScope : ∀ table, other ≠ .scope (some table)) : node = other := by
      unfold Node.shift at eq
      split at eq
      · exact absurd eq.symm (notScope _)
      · exact eq
    refine ⟨⟨?_, ?_, ?_, ?_⟩, ?_⟩
    · intro v op value eq
      exact h.1.assigned v op value (kept eq (by rintro _ ⟨⟩))
    · intro name constant value eq
      exact h.1.fresh name constant value (kept eq (by rintro _ ⟨⟩))
    · intro table eq elsewhere
      obtain ⟨old, here, rfl⟩ := unshifted eq
      rw [same]
      exact h.1.spliced old here ((fromElsewhere_shift _ _).mp elsewhere)
    · intro table eq here
      obtain ⟨old, stands, rfl⟩ := unshifted eq
      obtain ⟨own, entered, bound⟩ := h.1.entered old stands (mt (fromElsewhere_shift _ _).mpr here)
      rw [same]
      exact ⟨own, entered, bound.of_before (binds_shift _ _)⟩
    · rw [declareIn_shift]
      exact ih h.2

end Node

namespace Template

/-- Every table is scoped, the first in its own scope alone. At its start a scope has constants
only. -/
structure Scoped (env : Nat → Scopes) (t : Template) : Prop where
  start : env 0 = [[]]
  tables : ∀ i nodes, t.tables[i]? = some nodes → Node.AllScoped env none (env i) nodes
  constants : ∀ i name, ((env i).headD []).find? name ≠ some false

theorem Scoped.table {env : Nat → Scopes} {t : Template} (h : t.Scoped env) (table : Nat) :
    Node.AllScoped env none (env table) (t.table table) := by
  unfold Template.table
  cases found : t.tables[table]? with
  | none => trivial
  | some nodes => exact h.tables table nodes found

/-- A node behind others in a table of a scoped template. -/
theorem Scoped.node {env : Nat → Scopes} {t : Template} (h : t.Scoped env) {table : Nat}
    {front rest : List Node} {node : Node} (place : t.table table = front ++ node :: rest) :
    node.Scoped env front.getLast? (Node.scopesAfter (env table) front) := by
  have all := h.table table
  rw [place] at all
  exact all.node

theorem ParsedCore.scopes {t : Template} (h : t.ParsedCore) : ∃ env, t.Scoped env := by
  obtain ⟨config, name, source, made⟩ := h
  obtain ⟨tokens, scanned, made⟩ := ofTokens_of_parse made
  obtain ⟨d, read, _, rfl⟩ := read_of_ofTokens made
  obtain ⟨env, all⟩ := Draft.scoped_of_read (Token.spelled_of_scan scanned) read
  exact ⟨env, all.start, all.tables, all.constants⟩

/-- The scopes of the tables of two templates, the second behind the first. -/
def envBehind (offset : Nat) (env more : Nat → Scopes) (i : Nat) : Scopes :=
  if i < offset then env i else more (i - offset)

variable {t other : Template} {env more : Nat → Scopes}

theorem allScoped_fillAll (h : t.Scoped env) (layout : t.Layout) (file : String) (asRaw : Bool)
    (alone : more 0 = [[]]) {i : Nat} {nodes : List Node}
    (found : (t.fillAll file asRaw t.tables.length)[i]? = some nodes) :
    Node.AllScoped (envBehind t.tables.length env more) none
      (envBehind t.tables.length env more i) nodes := by
  rw [fillAll, List.getElem?_map] at found
  obtain ⟨old, here, rfl⟩ := Option.map_eq_some_iff.mp found
  have inside := lt_of_getElem?_eq_some here
  have entry : envBehind t.tables.length env more i = env i := if_pos inside
  rw [entry]
  refine Node.AllScoped.fillPlaces ?_ _ ?_
  · refine (h.tables i old here).congr fun table mem => ?_
    exact if_pos (layout.forward i old table here mem).2
  · unfold envBehind
    rw [if_neg (Nat.lt_irrefl _), Nat.sub_self]
    exact alone

theorem Scoped.inlineTemplate (h : t.Scoped env) (layout : t.Layout) (part : other.Scoped more)
    (name : String) : ∃ env', (t.inlineTemplate name other).1.Scoped env' := by
  unfold Template.inlineTemplate
  dsimp only
  split
  · exact ⟨env, h⟩
  · refine ⟨envBehind t.tables.length env more, ?_, ?_, fun i name => ?_⟩
    · unfold envBehind
      rw [if_pos layout.nonempty]
      exact h.start
    · intro i nodes found
      rw [List.getElem?_append] at found
      split at found
      · exact allScoped_fillAll h layout name false part.start found
      · rename_i behind
        rw [length_fillAll] at found behind
        rw [List.getElem?_map] at found
        obtain ⟨old, here, rfl⟩ := Option.map_eq_some_iff.mp found
        have entry : envBehind t.tables.length env more i = more (i - t.tables.length) :=
          if_neg behind
        rw [entry]
        refine (part.tables _ old here).shift fun table => ?_
        unfold envBehind
        rw [if_neg (by omega), Nat.add_sub_cancel]
    · unfold envBehind
      split
      · exact h.constants i name
      · exact part.constants _ name

theorem Scoped.inlineRaw (h : t.Scoped env) (layout : t.Layout) (name text : String) :
    ∃ env', (t.inlineRaw name text).1.Scoped env' := by
  unfold Template.inlineRaw
  dsimp only
  split
  · exact ⟨env, h⟩
  · refine ⟨envBehind t.tables.length env fun _ => [[]], ?_, ?_, fun i name => ?_⟩
    · unfold envBehind
      rw [if_pos layout.nonempty]
      exact h.start
    · intro i nodes found
      rw [List.getElem?_append] at found
      split at found
      · exact allScoped_fillAll h layout name true rfl found
      · rw [List.mem_singleton.mp (List.mem_of_getElem? found)]
        exact ⟨Node.scoped_of_plain rfl, trivial⟩
    · unfold envBehind
      split
      · exact h.constants i name
      · rintro ⟨⟩

/-- Splicing keeps templates scoped. -/
theorem Assembled.scopes (h : Assembled ParsedCore t) : ∃ env, t.Scoped env := by
  induction h with
  | given h => exact h.scopes
  | inlineTemplate name h _ ih part =>
    obtain ⟨env, all⟩ := ih
    obtain ⟨more, all'⟩ := part
    exact all.inlineTemplate (h.mono fun _ h => h.parsed).layout all' name
  | inlineRaw name text h ih =>
    obtain ⟨env, all⟩ := ih
    exact all.inlineRaw (h.mono fun _ h => h.parsed).layout name text

end Template

end Stencil
