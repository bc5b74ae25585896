import Stencil.Diagnostic
import Stencil.Proofs.CursorErrors
import Stencil.Proofs.CursorStack
import Stencil.Proofs.MissingFiles

/-!
# What a template misses

The files that a template notes as missing are those of its empty places, and nothing else tells
otherwise: a template without notes has no empty scope, a walk meets an unfilled place only in a
template with notes, and the report has one warning for each note, with the number of its places.
-/

namespace Stencil

namespace Node

/-- A file is awaited where one of its places is empty. -/
theorem mem_emptyPlaces_iff {place : String × Bool} {nodes : List Node} :
    place ∈ emptyPlaces nodes ↔ ∃ k, AwaitsAt place nodes k := by
  rw [← List.count_pos_iff, count_emptyPlaces, Set.ncard_pos (finite_awaitsAt place nodes)]
  exact Iff.rfl

end Node

/-- An empty scope is that of a place. -/
theorem TableForm.awaits_of_scope {nodes : List Node} (form : TableForm nodes)
    (mem : .scope none ∈ nodes) : ∃ place k, Node.AwaitsAt place nodes k := by
  obtain ⟨k, here⟩ := List.mem_iff_getElem?.mp mem
  obtain ⟨m, node, rfl, before, kind⟩ := form.scope here
  have notBody : node.hasBody = false := by
    by_contra opens
    obtain ⟨target, filled⟩ := form.body before (Bool.eq_true_of_not_eq_false opens)
    rw [filled] at here
    cases here
  rw [notBody] at kind
  have isPlace : node.isPlace = true := kind.resolve_left (by simp)
  cases node with
  | inline file asRaw => exact ⟨(file, asRaw), m, before, here⟩
  | _ => cases isPlace

namespace Template

/-- The empty places for a file, by table and position. -/
def unfilled (t : Template) (file : String) (asRaw : Bool) : Set (Nat × Nat) :=
  Node.sites (file, asRaw) t.tables

theorem countAwaiting_eq (t : Template) (file : String) (asRaw : Bool) :
    t.countAwaiting file asRaw = (t.unfilled file asRaw).ncard := by
  have same : (fun place : String × Bool => place.1 == file && place.2 == asRaw) =
      (· == (file, asRaw)) := rfl
  rw [countAwaiting, same, ← List.count_eq_countP, unfilled, emptyPlaces,
    Node.count_flatMap_emptyPlaces]

/-- A place is empty where the file is counted. -/
theorem countAwaiting_ne_zero {t : Template} {place : String × Bool} :
    t.countAwaiting place.1 place.2 ≠ 0 ↔ place ∈ t.emptyPlaces := by
  have same : (fun other : String × Bool => other.1 == place.1 && other.2 == place.2) =
      (· == place) := rfl
  rw [countAwaiting, same, ← List.count_eq_countP, ← Nat.pos_iff_ne_zero, List.count_pos_iff]

/-- The files that are awaited as a template or as a raw text, each once. -/
def awaitedPlaces (t : Template) : List (String × Bool) :=
  let files := t.emptyPlaces.foldl (fun names place => NameSet.insert place.1 names) []
  (files.flatMap fun file => [(file, false), (file, true)]).filter fun place =>
    t.countAwaiting place.1 place.2 ≠ 0

theorem awaiting_eq (t : Template) :
    t.awaiting = t.awaitedPlaces.map fun place => (place, t.countAwaiting place.1 place.2) := by
  have pairs (files : List String) :
      (files.flatMap fun file => [((file, false), t.countAwaiting file false),
        ((file, true), t.countAwaiting file true)]) =
      (files.flatMap fun file => [(file, false), (file, true)]).map fun place =>
        (place, t.countAwaiting place.1 place.2) := by
    simp [List.map_flatMap]
  simp only [awaiting, awaitedPlaces, pairs, List.filter_map, Function.comp_def]

theorem files_of_places (places : List (String × Bool)) (names : NameSet)
    (ascending : names.Ascending) :
    let files := places.foldl (fun names place => NameSet.insert place.1 names) names
    files.Ascending ∧ ∀ file, file ∈ files ↔ file ∈ names ∨ ∃ place ∈ places, place.1 = file := by
  induction places generalizing names with
  | nil => exact ⟨ascending, by simp⟩
  | cons place places ih =>
    obtain ⟨sorted, mem⟩ := ih _ (ascending.insert place.1)
    refine ⟨sorted, fun file => (mem file).trans ?_⟩
    rw [NameSet.mem_insert, List.exists_mem_cons_iff, eq_comm (a := file), or_assoc, or_left_comm]

theorem nodup_awaitedPlaces (t : Template) : t.awaitedPlaces.Nodup := by
  obtain ⟨ascending, _⟩ := files_of_places t.emptyPlaces [] .nil
  refine List.Nodup.filter _ ?_
  refine List.nodup_flatMap.mpr ⟨fun file _ => by simp, ascending.nodup.imp fun {a b} differs => ?_⟩
  intro place here there
  simp only [List.mem_cons, List.not_mem_nil, or_false] at here there
  rcases here with rfl | rfl <;> rcases there with eq | eq <;> cases eq <;> exact differs rfl

theorem mem_awaitedPlaces {t : Template} {place : String × Bool} :
    place ∈ t.awaitedPlaces ↔ place ∈ t.emptyPlaces := by
  obtain ⟨_, mem⟩ := files_of_places t.emptyPlaces [] .nil
  unfold awaitedPlaces
  rw [List.mem_filter, decide_eq_true_iff, countAwaiting_ne_zero]
  refine and_iff_right_of_imp fun awaited => ?_
  refine List.mem_flatMap.mpr ⟨place.1, (mem place.1).mpr (.inr ⟨place, awaited, rfl⟩), ?_⟩
  obtain ⟨file, _ | _⟩ := place <;> simp

end Template

namespace Report

/-- The warnings on a template are those about what it misses. -/
theorem warnings_analyze (name : String) (t : Template) :
    (analyze name t).filter (·.severity == .warning) = t.awaitedPlaces.map fun place =>
      Diagnostic.ofMissing name place.1 place.2 (t.countAwaiting place.1 place.2) := by
  unfold analyze
  rw [List.filter_append, t.awaiting_eq, List.map_map]
  have required : (if t.required.isEmpty then []
      else [({ template := name, kind := .required t.required,
               message := "需要的变量: " ++ ", ".intercalate t.required } : Diagnostic)]).filter
        (·.severity == .warning) = [] := by
    split <;> rfl
  have missing : ∀ d ∈ t.awaitedPlaces.map ((fun entry : (String × Bool) × Nat =>
      Diagnostic.ofMissing name entry.1.1 entry.1.2 entry.2) ∘
        fun place => (place, t.countAwaiting place.1 place.2)),
      (d.severity == .warning) = true := by
    intro d mem
    obtain ⟨place, _, rfl⟩ := List.mem_map.mp mem
    rfl
  rw [required, List.append_nil, List.filter_eq_self.mpr missing]
  rfl

end Report

namespace Template

/-- The notes of a template account for its empty places. -/
structure Accounted (t : Template) : Prop where
  templates : ∀ file, file ∈ t.templates ↔ ∃ nodes ∈ t.tables, ∃ k,
    nodes[k]? = some (.inline file false) ∧ nodes[k + 1]? = some (.scope none)
  raws : ∀ file, file ∈ t.raws ↔ ∃ nodes ∈ t.tables, ∃ k,
    nodes[k]? = some (.inline file true) ∧ nodes[k + 1]? = some (.scope none)
  resolved : t.resolved = true ↔ ∀ nodes ∈ t.tables, .scope none ∉ nodes
  /-- A walk of a resolved template comes to no empty scope. -/
  filled : t.resolved = true → ∀ (context : Context) (config : Config) (encoder : Encoder) m,
    Machine.Reaches ⟨t, context, config⟩ (Machine.start ⟨t, context, config⟩ encoder) m →
      ∀ cursor ∈ m.cursors, .scope none ∉ cursor.rest
  /-- A walk notes a missing file only in a template that is not resolved, or as the error that an
  expression has for its value. -/
  unresolved : ∀ (context : Context) (config : Config) (encoder : Encoder) file,
    .unresolvedInline file ∈ (Rendering.walk ⟨t, context, config⟩ encoder).errors →
      t.resolved = false ∨ ∃ m,
        Machine.Reaches ⟨t, context, config⟩ (Machine.start ⟨t, context, config⟩ encoder) m ∧
        ∃ e ∈ m.reads, Rendering.eval ⟨t, context, config⟩ m.readState e =
          .error (.unresolvedInline file)
  /-- There is one warning for each file that is noted, with the number of its empty places. -/
  warnings : ∃ places : List (String × Bool), places.Nodup ∧
    (∀ file, (file, false) ∈ places ↔ file ∈ t.templates) ∧
    (∀ file, (file, true) ∈ places ↔ file ∈ t.raws) ∧
    ∀ name, (Report.analyze name t).filter (·.severity == .warning) = places.map fun place =>
      Diagnostic.ofMissing name place.1 place.2 (t.unfilled place.1 place.2).ncard

section

variable {t : Template}

theorem Tallies.noted_iff (h : t.Tallies) (place : String × Bool) :
    Noted t.templates t.raws place ↔ ∃ nodes ∈ t.tables, ∃ k, Node.AwaitsAt place nodes k := by
  rw [h.noted, List.mem_flatMap]
  simp only [Node.mem_emptyPlaces_iff]

/-- What is not resolved has a note. -/
theorem resolved_iff : t.resolved = true ↔ ∀ place, ¬Noted t.templates t.raws place := by
  unfold resolved
  rw [Bool.and_eq_true, List.isEmpty_iff, List.isEmpty_iff, List.eq_nil_iff_forall_not_mem,
    List.eq_nil_iff_forall_not_mem]
  constructor
  · rintro ⟨templates, raws⟩ ⟨file, _ | _⟩
    · exact templates file
    · exact raws file
  · intro none
    exact ⟨fun file => none (file, false), fun file => none (file, true)⟩

theorem Tallies.resolved_iff (h : t.Tallies) (layout : t.Layout) :
    t.resolved = true ↔ ∀ nodes ∈ t.tables, .scope none ∉ nodes := by
  rw [Template.resolved_iff]
  constructor
  · intro nothing nodes mem unfilled
    obtain ⟨place, k, awaits⟩ := (layout.laid nodes mem).tableForm.awaits_of_scope unfilled
    exact nothing place ((h.noted_iff place).mpr ⟨nodes, mem, k, awaits⟩)
  · intro filled place noted
    obtain ⟨nodes, mem, k, awaits⟩ := (h.noted_iff place).mp noted
    exact filled nodes mem (List.mem_of_getElem? awaits.2)

/-- Cursors in tables without empty scopes stand before none. -/
theorem filled_of_reaches (layout : t.Layout) (filled : ∀ nodes ∈ t.tables, .scope none ∉ nodes)
    {context : Context} {config : Config} {encoder : Encoder} {m : Machine}
    (reaches : Machine.Reaches ⟨t, context, config⟩
      (Machine.start ⟨t, context, config⟩ encoder) m) :
    ∀ cursor ∈ m.cursors, .scope none ∉ cursor.rest := by
  have stacked : Machine.Stacked t m.cursors := Machine.stacked_of_reaches layout.forward reaches
  intro cursor mem unfilled
  obtain ⟨front, outer, cursors⟩ := List.append_of_mem mem
  have inTable : .scope none ∈ t.table cursor.table := (stacked.stands mem).subset unfilled
  obtain ⟨nodes, found, inside⟩ := exists_of_mem_getD inTable
  exact filled nodes (List.mem_of_getElem? found) inside

theorem Tallies.accounted (h : t.Tallies) (layout : t.Layout) : t.Accounted where
  templates file := h.noted_iff (file, false)
  raws file := h.noted_iff (file, true)
  resolved := h.resolved_iff layout
  filled isResolved context config encoder m reaches :=
    filled_of_reaches layout ((h.resolved_iff layout).mp isResolved) reaches
  unresolved context config encoder file met := by
    refine or_iff_not_imp_left.mpr fun notUnresolved => ?_
    have filled := (h.resolved_iff layout).mp (Bool.eq_true_of_not_eq_false notUnresolved)
    have ends := Machine.reaches_walk (r := ⟨t, context, config⟩) layout.forward encoder
    rcases Machine.raised_of_reaches ends met with before | ⟨m, reaches, raised⟩
    · cases before
    · cases raised with
      | value mem failed => exact ⟨m, reaches, _, mem, failed⟩
      | @place cursor outer rest here unfilled =>
        refine absurd ?_ (filled_of_reaches layout filled reaches cursor ?_)
        · rw [unfilled]
          exact List.mem_cons_self
        · rw [here]
          exact List.mem_cons_self
  warnings := by
    refine ⟨t.awaitedPlaces, t.nodup_awaitedPlaces, fun file => ?_, fun file => ?_, fun name => ?_⟩
    · exact mem_awaitedPlaces.trans (h.noted (file, false)).symm
    · exact mem_awaitedPlaces.trans (h.noted (file, true)).symm
    · simp only [Report.warnings_analyze, countAwaiting_eq]

end

/-- Parsing and splicing, a resolution that fails midway included, keep the notes of a template
exact. -/
theorem accounted_of_assembled {t : Template} (h : Assembled Parsed t) :
    t.Accounted ∧ ∀ engine : Engine, (engine.resolve t).1.Accounted := by
  refine ⟨h.tallies.accounted h.layout, fun engine => ?_⟩
  have resolved : Assembled Parsed (engine.resolve t).1 :=
    Engine.assembled_resolve parsed_of_parse h
  exact resolved.tallies.accounted resolved.layout

/-- A page with a part that misses a part of its own name, and a raw text of that name. -/
theorem accounted_page_and_part :
    ∃ page part : Template,
      Template.parse .core {} "page"
        "#inline(\"part\")#inline(\"part\", as: raw)#inline(\"page\")" = .ok page ∧
      Template.parse .core {} "part" "#inline(\"part\")!" = .ok part ∧
      (page.inlineTemplate "part" part).1.templates = ["page", "part"] ∧
      (page.inlineTemplate "part" part).1.raws = ["part"] ∧
      (page.inlineTemplate "part" part).1.Accounted := by
  have run : (match Template.parse .core {} "page"
        "#inline(\"part\")#inline(\"part\", as: raw)#inline(\"page\")",
      Template.parse .core {} "part" "#inline(\"part\")!" with
      | .ok page, .ok part => ((page.inlineTemplate "part" part).1.templates,
          (page.inlineTemplate "part" part).1.raws)
      | _, _ => ([], [])) = (["page", "part"], ["part"]) := by decide +kernel
  split at run
  · rename_i page part hpage hpart
    have made : Assembled Parsed (page.inlineTemplate "part" part).1 :=
      .inlineTemplate "part" (.given (parsed_of_parse hpage)) (.given (parsed_of_parse hpart))
    exact ⟨page, part, hpage, hpart, congrArg Prod.fst run, congrArg Prod.snd run,
      (accounted_of_assembled made).1⟩
  · cases run

end Template

end Stencil
