import Stencil.Proofs.ScopeArray

/-!
# The nodes of a draft

A property that all nodes of a draft have is kept when nodes that have it are written. Raw text and
scopes are written besides the nodes of tags.

Every encoder in a parsed template was found in the registry under the name that its tag gives it
(`Template.encoder?_of_mem`). Tables get their nodes from tags, one step of the reading after the
other, and nothing else than an encoder tag writes the node of one.
-/

namespace Stencil

namespace Draft

/-- All nodes of a draft have a property. -/
def Each (P : Node → Prop) (d : Draft) : Prop := ∀ nodes ∈ d.tables, ∀ node ∈ nodes, P node

namespace Each

variable {P : Node → Prop} {d d' : Draft} {node : Node}

theorem start : Each P {} := by
  intro nodes mem node inside
  rw [List.mem_singleton.mp mem] at inside
  cases inside

theorem of_tables (h : d.Each P) (tables : d'.tables = d.tables) : d'.Each P := by
  unfold Each
  rw [tables]
  exact h

theorem of_sameBut (h : d.Each P) (same : SameBut d d') : d'.Each P := by
  unfold SameBut at same
  rw [same]
  exact h.of_tables rfl

/-- The current table may get nodes that have the property. -/
theorem rewrite (h : d.Each P) {f : List Node → List Node}
    (new : ∀ nodes, ∀ node ∈ f nodes, node ∈ nodes ∨ P node) :
    Each P { d with tables := d.tables.modify d.current f } := by
  refine forall_mem_modify h fun nodes _ before node inside => ?_
  exact (new nodes node inside).elim (before node) id

theorem push (h : d.Each P) (new : P node) : (d.push node).Each P := by
  refine h.rewrite fun nodes other inside => ?_
  rcases List.mem_append.mp inside with old | added
  · exact .inl old
  · rw [List.mem_singleton.mp added]
    exact .inr new

theorem addRaw (h : d.Each P) (raw : ∀ text, text ≠ "" → P (.raw text)) (text : String) :
    (d.addRaw text).Each P := by
  unfold Draft.addRaw
  split
  · exact h
  · rename_i some
    have nonempty : text ≠ "" := by simpa using some
    refine h.rewrite fun nodes node inside => ?_
    unfold appendRaw at inside
    split at inside
    · rename_i before _
      have joined : before ++ text ≠ "" := fun empty =>
        nonempty (String.append_eq_empty_iff.mp empty).2
      rcases List.mem_append.mp inside with old | added
      · exact .inl (List.dropLast_subset nodes old)
      · rw [List.mem_singleton.mp added]
        exact .inr (raw _ joined)
    · rcases List.mem_append.mp inside with old | added
      · exact .inl old
      · rw [List.mem_singleton.mp added]
        exact .inr (raw _ nonempty)

theorem openScope (h : d.Each P) {name : String} {kind : ScopeKind} {place : Text.Location}
    {declared : Entries Declared} (new : P node) (scope : ∀ table, P (.scope (some table))) :
    (d.openScope node name kind place declared).Each P := by
  intro nodes mem other inside
  rcases List.mem_append.mp mem with old | added
  · exact (h.push new).push (scope _) nodes old other inside
  · rw [List.mem_singleton.mp added] at inside
    cases inside

end Each

end Draft

/-! ## Encoders -/

/-- If a node has an encoder, it is that of its name in a registry. -/
def Node.KnowsEncoder (entities : Entities) (node : Node) : Prop :=
  ∀ handler encoder, node = .encode handler encoder → entities.encoder? handler = some encoder

namespace Draft

variable {entities : Entities} {d d' : Draft} {source : List Lexeme} {indicator : Char}

/-- Only an encoder tag writes an encoder, and looks it up before. -/
theorem Each.knowsEncoder_of_tagStep {site : TagSite}
    (h : d.Each (Node.KnowsEncoder site.entities)) (step : TagSite.Step source site d d') :
    d'.Each (Node.KnowsEncoder site.entities) := by
  cases step with
  | text => exact h.addRaw (by rintro _ _ _ _ ⟨⟩) _
  | output _ _ uses | call _ _ uses | defineValue _ _ uses | evaluateOr _ _ uses =>
    exact (h.of_sameBut (sameBut_of_useAll uses)).push (by rintro _ _ ⟨⟩)
  | declareEmpty => exact (h.of_tables (tables_declare d _ _)).push (by rintro _ _ ⟨⟩)
  | declare _ _ uses =>
    have used := h.of_sameBut (sameBut_of_useAll uses)
    exact (used.of_tables (tables_declare _ _ _)).push (by rintro _ _ ⟨⟩)
  | assign _ _ _ _ _ uses =>
    have used := h.of_sameBut (sameBut_of_useAll uses)
    exact (used.of_tables (tables_markAssigned _ _)).push (by rintro _ _ ⟨⟩)
  | defineBody => exact h.openScope (by rintro _ _ ⟨⟩) (by rintro _ _ _ ⟨⟩)
  | evaluate => exact h.push (by rintro _ _ ⟨⟩)
  | inlineRaw | inlineTemplate =>
    refine push (push ?_ (by rintro _ _ ⟨⟩)) (by rintro _ _ ⟨⟩)
    exact h.of_tables rfl
  | encode _ _ known =>
    refine h.openScope ?_ (by rintro _ _ _ ⟨⟩)
    rintro _ _ ⟨⟩
    exact known
  | block _ _ _ _ uses =>
    exact (h.of_sameBut (sameBut_of_useArgs uses)).openScope (by rintro _ _ ⟨⟩)
      (by rintro _ _ _ ⟨⟩)
  | link _ _ _ _ _ _ uses =>
    have closed : d.closeScope.Each (Node.KnowsEncoder site.entities) := h.of_tables rfl
    exact (closed.of_sameBut (sameBut_of_useArgs uses)).openScope (by rintro _ _ ⟨⟩)
      (by rintro _ _ _ ⟨⟩)
  | close => exact h.of_tables rfl

theorem Each.knowsEncoder_of_step (h : d.Each (Node.KnowsEncoder entities))
    (step : Step source entities indicator d d') : d'.Each (Node.KnowsEncoder entities) := by
  cases step with
  | raw => exact h.addRaw (by rintro _ _ _ _ ⟨⟩) _
  | mark => exact h.addRaw (by rintro _ _ _ _ ⟨⟩) _
  | tag _ step => exact knowsEncoder_of_tagStep h step

end Draft

/-- The encoder of a tag is the one that is registered under the name the tag gives. -/
theorem Template.encoder?_of_mem {entities : Entities} {config : Config} {name source : String}
    {t : Template} (parsed : parse entities config name source = .ok t) {nodes : List Node}
    (mem : nodes ∈ t.tables) {handler : String} {encoder : Encoder}
    (inside : .encode handler encoder ∈ nodes) : entities.encoder? handler = some encoder := by
  obtain ⟨tokens, -, made⟩ := ofTokens_of_parse parsed
  obtain ⟨d, read, -, rfl⟩ := read_of_ofTokens made
  have known : d.Each (Node.KnowsEncoder entities) :=
    Draft.invariant_of_read .start (fun before step => before.knowsEncoder_of_step step) read
  exact known nodes mem _ inside handler encoder rfl

end Stencil
