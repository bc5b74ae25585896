import Stencil.Proofs.ScopeArray

/-!
# Parsed templates with others spliced in

`Template.Assembled` are the templates that splicing makes of parsed ones, in any order and with any
names, a round of an engine that breaks off included. Their tables are well formed: scopes name
later tables, bodies and places are followed by their scopes, and a block that goes on with a chain
follows the block before it.
-/

namespace Stencil

namespace Template

/-- Templates that splicing makes of given ones. -/
inductive Assembled (Given : Template → Prop) : Template → Prop
  | given {t : Template} (h : Given t) : Assembled Given t
  | inlineTemplate {t other : Template} (name : String) (h : Assembled Given t)
      (part : Assembled Given other) : Assembled Given (t.inlineTemplate name other).1
  | inlineRaw {t : Template} (name text : String) (h : Assembled Given t) :
      Assembled Given (t.inlineRaw name text).1

/-- Templates of token sequences, with any registry and configuration. -/
def Parsed (t : Template) : Prop :=
  ∃ entities config name tokens, ofTokens entities config name tokens = .ok t

theorem parsed_of_parse {entities : Entities} {config : Config} {name source : String}
    {t : Template} (h : parse entities config name source = .ok t) : t.Parsed := by
  obtain ⟨tokens, _, made⟩ := ofTokens_of_parse h
  exact ⟨entities, config, name, tokens, made⟩

/-- The form of the tables of a template. -/
structure WellFormed (t : Template) : Prop where
  /-- A scope names a later table. -/
  forward : ∀ (i : Nat) (nodes : List Node) (j : Nat), t.tables[i]? = some nodes →
    .scope (some j) ∈ nodes → i < j ∧ j < t.tables.length
  /-- Bodies and places are followed by their scopes, and links by the block before them. -/
  form : ∀ nodes ∈ t.tables, TableForm nodes

/-- What splicing keeps: there is a table, and the tables are directed and laid out. -/
structure Layout (t : Template) : Prop where
  nonempty : 0 < t.tables.length
  forward : Forward t.tables.length t.tables
  laid : ∀ nodes ∈ t.tables, Laid nodes

theorem Layout.wellFormed {t : Template} (h : t.Layout) : t.WellFormed :=
  ⟨h.forward, fun nodes mem => (h.laid nodes mem).tableForm⟩

theorem Parsed.layout {t : Template} (h : t.Parsed) : t.Layout := by
  obtain ⟨entities, config, name, tokens, made⟩ := h
  obtain ⟨d, formed, tables⟩ := formed_of_ofTokens made
  exact ⟨tables ▸ formed.nonempty, tables ▸ formed.forward, tables ▸ formed.laid⟩

theorem length_fillAll (t : Template) (file : String) (asRaw : Bool) (table : Nat) :
    (t.fillAll file asRaw table).length = t.tables.length := by
  simp [fillAll]

/-- What holds of the tables of given templates and of any text, wherever scopes refer to, holds of
all tables that are spliced of them. -/
theorem Assembled.forall_tables {Given : Template → Prop} {P : List Node → Prop} {t : Template}
    (h : Assembled Given t) (given : ∀ t, Given t → ∀ nodes ∈ t.tables, P nodes)
    (retarget : ∀ {xs ys}, List.Forall₂ Node.Retarget xs ys → P xs → P ys)
    (raw : ∀ text, P [.raw text]) : ∀ nodes ∈ t.tables, P nodes := by
  have filled {t : Template} (before : ∀ nodes ∈ t.tables, P nodes) (file : String) (asRaw : Bool)
      (table : Nat) : ∀ nodes ∈ t.fillAll file asRaw table, P nodes := by
    intro nodes mem
    obtain ⟨old, inside, rfl⟩ := List.mem_map.mp mem
    exact retarget (Node.retarget_fillPlaces _ _ _) (before old inside)
  induction h with
  | given h => exact given _ h
  | @inlineTemplate t other name _ _ ih part =>
    unfold Template.inlineTemplate
    dsimp only
    split
    · exact ih
    · intro nodes mem
      rcases List.mem_append.mp mem with mem | mem
      · exact filled ih name false _ nodes mem
      · obtain ⟨old, inside, rfl⟩ := List.mem_map.mp mem
        refine retarget ?_ (part old inside)
        rw [List.forall₂_map_right_iff]
        exact List.forall₂_same.mpr fun node _ => Node.retarget_shift _ node
  | @inlineRaw t name text _ ih =>
    unfold Template.inlineRaw
    dsimp only
    split
    · exact ih
    · intro nodes mem
      rcases List.mem_append.mp mem with mem | mem
      · exact filled ih name true _ nodes mem
      · rw [List.mem_singleton.mp mem]
        exact raw text

/-- Filled places name the table that is put behind all others. -/
theorem Layout.forward_fillAll {t : Template} (h : t.Layout) (file : String) (asRaw : Bool)
    {bound : Nat} (more : t.tables.length < bound) :
    Forward bound (t.fillAll file asRaw t.tables.length) := by
  intro i nodes j hi mem
  rw [fillAll, List.getElem?_map] at hi
  obtain ⟨old, hold, rfl⟩ := Option.map_eq_some_iff.mp hi
  have inside := lt_of_getElem?_eq_some hold
  rcases Node.mem_scope_fillPlaces mem with mem | rfl
  · have := h.forward i old j hold mem
    omega
  · exact ⟨inside, more⟩

theorem Layout.laid_fillAll {t : Template} (h : t.Layout) (file : String) (asRaw : Bool)
    (table : Nat) : ∀ nodes ∈ t.fillAll file asRaw table, Laid nodes := by
  intro nodes mem
  obtain ⟨old, hold, rfl⟩ := List.mem_map.mp mem
  exact (h.laid old hold).retarget (Node.retarget_fillPlaces _ _ _)

theorem Layout.laid_shift {t : Template} (h : t.Layout) (offset : Nat) :
    ∀ nodes ∈ t.tables.map (·.map (Node.shift offset)), Laid nodes := by
  intro nodes mem
  obtain ⟨old, hold, rfl⟩ := List.mem_map.mp mem
  refine (h.laid old hold).retarget ?_
  rw [List.forall₂_map_right_iff]
  exact List.forall₂_same.mpr fun node _ => Node.retarget_shift offset node

/-- A spliced template keeps its tables directed behind those it is spliced into. -/
theorem Layout.inlineTemplate {t other : Template} (h : t.Layout) (part : other.Layout)
    (name : String) : (t.inlineTemplate name other).1.Layout := by
  unfold Template.inlineTemplate
  dsimp only
  split
  · exact h
  · have nonempty := part.nonempty
    refine ⟨?_, ?_, ?_⟩
    · have := h.nonempty
      simp only [List.length_append, length_fillAll]
      omega
    · dsimp only
      rw [List.length_append, length_fillAll, List.length_map]
      refine (h.forward_fillAll name false (by omega)).append fun i nodes j hi mem => ?_
      rw [List.getElem?_map] at hi
      obtain ⟨old, hold, rfl⟩ := Option.map_eq_some_iff.mp hi
      obtain ⟨k, named, rfl⟩ := Node.mem_scope_map_shift mem
      have := part.forward i old k hold named
      rw [length_fillAll]
      omega
    · intro nodes mem
      rcases List.mem_append.mp mem with mem | mem
      · exact h.laid_fillAll name false _ nodes mem
      · exact part.laid_shift _ nodes mem

theorem Layout.inlineRaw {t : Template} (h : t.Layout) (name text : String) :
    (t.inlineRaw name text).1.Layout := by
  unfold Template.inlineRaw
  dsimp only
  split
  · exact h
  · refine ⟨?_, ?_, ?_⟩
    · simp
    · dsimp only
      rw [List.length_append, length_fillAll, List.length_singleton]
      refine (h.forward_fillAll name true (by omega)).append fun i nodes j hi mem => ?_
      rw [List.mem_singleton.mp (List.mem_of_getElem? hi)] at mem
      simp at mem
    · intro nodes mem
      rcases List.mem_append.mp mem with mem | mem
      · exact h.laid_fillAll name true _ nodes mem
      · rw [List.mem_singleton.mp mem]
        exact .leaf .nil rfl

theorem Assembled.layout {t : Template} (h : Assembled Parsed t) : t.Layout := by
  induction h with
  | given h => exact h.layout
  | inlineTemplate name _ _ ih part => exact ih.inlineTemplate part name
  | inlineRaw name text _ ih => exact ih.inlineRaw name text

end Template

namespace Engine

variable {Given : Template → Prop} {engine : Engine}

theorem assembled_spliceTemplates (parsed : ∀ {name source t},
      engine.templates.find? name = some source → engine.parse name source = .ok t → Given t)
    (names : List String) {t : Template} (filled : Nat) (h : Template.Assembled Given t) :
    Template.Assembled Given (engine.spliceTemplates names t filled).1 := by
  induction names generalizing t filled with
  | nil => exact h
  | cons name names ih =>
    unfold spliceTemplates
    split
    · exact ih _ h
    · rename_i source found
      split
      · exact h
      · rename_i other made
        exact ih _ (.inlineTemplate name h (.given (parsed found made)))

theorem assembled_spliceRaws (engine : Engine) (names : List String) {t : Template}
    (h : Template.Assembled Given t) :
    Template.Assembled Given (engine.spliceRaws names t).1 := by
  refine List.foldlRecOn names _
    (motive := fun state : Template × Nat => Template.Assembled Given state.1) h
    fun state made name _ => ?_
  dsimp only
  split
  · exact made
  · exact .inlineRaw name _ made

theorem assembled_resolveRounds (parsed : ∀ {name source t},
      engine.templates.find? name = some source → engine.parse name source = .ok t → Given t)
    {rounds : Nat} {t : Template} {total : Nat} (h : Template.Assembled Given t) :
    Template.Assembled Given (engine.resolveRounds rounds t total).1 := by
  induction rounds generalizing t total with
  | zero => exact h
  | succ rounds ih =>
    unfold resolveRounds
    have spliced := assembled_spliceTemplates parsed t.templates 0 h
    split
    · rename_i eq
      rw [eq] at spliced
      exact spliced
    · rename_i t' filled eq
      rw [eq] at spliced
      have both := assembled_spliceRaws engine t'.raws spliced
      dsimp only
      split
      · exact both
      · exact ih both

/-- Resolving splices in what is registered, whether or not it comes to its end. -/
theorem assembled_resolve_of_registered (parsed : ∀ {name source t},
      engine.templates.find? name = some source → engine.parse name source = .ok t → Given t)
    {t : Template} (h : Template.Assembled Given t) :
    Template.Assembled Given (engine.resolve t).1 :=
  assembled_resolveRounds parsed h

theorem assembled_resolve
    (parsed : ∀ {name source t}, engine.parse name source = .ok t → Given t) {t : Template}
    (h : Template.Assembled Given t) : Template.Assembled Given (engine.resolve t).1 :=
  assembled_resolve_of_registered (fun _ made => parsed made) h

end Engine

namespace Template

/-- The scope that names a table of a parsed template is the only one. -/
theorem Parsed.count_scopeTargets {t : Template} (h : t.Parsed) {j : Nat} (pos : 0 < j)
    (bound : j < t.tables.length) : (scopeTargets t.tables).count j = 1 := by
  obtain ⟨entities, config, name, tokens, made⟩ := h
  obtain ⟨d, formed, tables⟩ := formed_of_ofTokens made
  rw [← tables, formed.once.count_eq, tables]
  have distinct : (List.range' 1 (t.tables.length - 1)).Nodup := List.nodup_range'
  rw [distinct.count, if_pos]
  rw [List.mem_range'_1]
  omega

/-- Splicing, a resolution that fails midway included, keeps the tables of parsed templates well
formed, and in a parsed template each table but the first is named by exactly one scope. -/
theorem wellFormed_of_assembled {t : Template} (h : Assembled Parsed t) :
    t.WellFormed ∧ (∀ engine : Engine, (engine.resolve t).1.WellFormed) ∧
      (t.Parsed → ∀ j, 0 < j → j < t.tables.length → (scopeTargets t.tables).count j = 1) := by
  refine ⟨h.layout.wellFormed, fun engine => ?_, fun parsed j pos bound =>
    parsed.count_scopeTargets pos bound⟩
  exact (Engine.assembled_resolve parsed_of_parse h).layout.wellFormed

/-- A page with a chain spliced between its texts. -/
theorem wellFormed_page_with_chain :
    ∃ page part : Template,
      Template.parse .core {} "page" "A#inline(\"part\")B" = .ok page ∧
      Template.parse .core {} "part" "#if(flag):yes#else:no#endif" = .ok part ∧
      (page.inlineTemplate "part" part).1.tables.length = 4 ∧
      (page.inlineTemplate "part" part).1.WellFormed := by
  have run : (match Template.parse .core {} "page" "A#inline(\"part\")B",
      Template.parse .core {} "part" "#if(flag):yes#else:no#endif" with
      | .ok page, .ok part => (page.inlineTemplate "part" part).1.tables.length
      | _, _ => 0) = 4 := by decide +kernel
  split at run
  · rename_i page part hpage hpart
    have made : Assembled Parsed (page.inlineTemplate "part" part).1 :=
      .inlineTemplate "part" (.given (parsed_of_parse hpage)) (.given (parsed_of_parse hpart))
    exact ⟨page, part, hpage, hpart, run, (wellFormed_of_assembled made).1⟩
  · cases run

end Template

end Stencil
