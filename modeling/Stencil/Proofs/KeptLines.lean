import Stencil.Proofs.StrippedDrafts

/-!
# Parsing what is kept of lines

Where the source of lines is read, so is what is kept of them, and the two drafts have the same
scopes and declarations. So the kept lines of a template are a template as well, with the same
tables but for the raw text around the tags that stand alone.
-/

namespace Stencil

open Text (Location)
open LineStage

namespace Draft

variable {indicator : Char} {d last : Draft} {m : LineStage} {tables : List (List Node)}
  {tag : String} {rest : List Char} {here : Location}

/-- The end of a piece. -/
theorem readBefore_end (here : Location) (behind : List Lexeme) :
    readBefore .core indicator d tag ⟨[], here⟩ behind =
      readOn .core indicator d tag (.ok behind) := by
  rw [readBefore, Token.scanText_eq]
  rfl

theorem addRaw_withTables (d : Draft) (tables : List (List Node)) (text : String) :
    (d.withTables tables).addRaw text =
      (d.addRaw text).withTables ((d.withTables tables).addRaw text).tables := by
  unfold addRaw
  split <;> rfl

/-- A piece that turns a draft into another, with other tables as well, whatever follows it. -/
structure Passes (indicator : Char) (source : List Char) (here : Location) (fits : List Char → Prop)
    (d d' : Draft) : Prop where
  reads : ∀ (tag : String) (rest : List Char) (behind : List Lexeme), fits rest →
    parenFollows behind = false → ∃ tag',
      readBefore .core indicator d tag ⟨source ++ rest, here⟩ behind =
        readBefore .core indicator d' tag' ⟨rest, here.after source⟩ behind

/-- A tag that is read turns the draft into another, and drafts with other tables as well. -/
theorem passes_of_reading {source : List Char} {fits : List Char → Prop}
    {effect : Draft → (List (List Node) → Draft) → Prop} {name : String} {tokens : List Lexeme}
    (reading : TagSite.Reading indicator source here fits effect name tokens)
    (allowed : IndicatorAllowed indicator) (formed : d.Formed) (fit : fits rest)
    (read : readBefore .core indicator d tag ⟨source ++ rest, here⟩ [] = .ok last) :
    ∃ result, effect d result ∧ (result d.tables).Formed ∧
      ∀ tables, Passes indicator source here fits (d.withTables tables) (result tables) := by
  obtain ⟨more, d', left, stops, done⟩ := read_of_readBefore (reading.spells rest fit) rfl read
  obtain ⟨result, kind, reads⟩ := reading.reads stops done
  obtain ⟨left', same, -⟩ := reads d.tables more stops
  rw [withTables_tables, done] at same
  cases same
  refine ⟨result, kind, ?_, fun tables => ⟨fun tag rest behind fit tail =>
    ⟨name, readBefore_tag (reading.spells rest fit) tail allowed (reads tables)⟩⟩⟩
  exact formed.of_tagStep (TagSite.step_of_read done (List.Subset.refl _)).1

/-- A part of a line of text. -/
theorem passes_part {part : LinePart} (allowed : IndicatorAllowed indicator)
    (formed : part.Formed indicator) (h : d.Strips m tables) (content : m.IsContent)
    (read : readBefore .core indicator d tag ⟨part.source indicator ++ rest, here⟩ [] =
      .ok last) : ∃ d' tables', d'.Strips .inLine tables' ∧
      Passes indicator (part.source indicator) here (fun _ => True) d d' ∧
      Passes indicator (part.source indicator) here (fun _ => True) (d.withTables tables)
        (d'.withTables tables') := by
  cases part with
  | text chars =>
    have plain : ∀ c ∈ chars, c ≠ indicator ∧ c ≠ '\\' := fun c mem =>
      ⟨(formed c mem).1, (formed c mem).2.1⟩
    have inside : '\n' ∉ chars := fun mem => (formed _ mem).2.2 rfl
    refine ⟨_, _, h.addRaw fun written => written.text content inside, ⟨?_⟩, ⟨?_⟩⟩
    · exact fun tag rest behind _ _ => ⟨tag, readBefore_plain plain here rest behind⟩
    · intro tag rest behind _ _
      rw [← addRaw_withTables]
      exact ⟨tag, readBefore_plain plain here rest behind⟩
  | expression inside =>
    obtain ⟨tokens, reading⟩ := LinePart.reading allowed here formed
    obtain ⟨result, effect, formed', passes⟩ :=
      passes_of_reading reading allowed h.formed trivial read
    obtain ⟨tables', same, strips⟩ := h.expression content effect formed'
    refine ⟨_, tables', strips, ?_, ?_⟩
    · have own := passes d.tables
      rwa [withTables_tables] at own
    · rw [← same]
      exact passes tables

theorem Passes.trans {source more : List Char} {fits fits' : List Char → Prop} {d' d'' : Draft}
    (h : Passes indicator source here fits d d')
    (h' : Passes indicator more (here.after source) fits' d' d'')
    (fit : ∀ rest, fits' rest → fits (more ++ rest)) :
    Passes indicator (source ++ more) here fits' d d'' where
  reads tag rest behind fit' tail := by
    obtain ⟨tag', first⟩ := h.reads tag (more ++ rest) behind (fit rest fit') tail
    obtain ⟨tag'', second⟩ := h'.reads tag' rest behind fit' tail
    refine ⟨tag'', ?_⟩
    rw [List.append_assoc, first, second, Location.after_append]

/-- What is behind a piece is read with the draft that the piece leads to. -/
theorem Passes.behind {source : List Char} {fits : List Char → Prop} {d' : Draft}
    (h : Passes indicator source here fits d d') (fit : fits rest)
    (read : readBefore .core indicator d tag ⟨source ++ rest, here⟩ [] = .ok last) :
    ∃ tag', readBefore .core indicator d' tag' ⟨rest, here.after source⟩ [] = .ok last := by
  obtain ⟨tag', same⟩ := h.reads tag rest [] fit rfl
  exact ⟨tag', same ▸ read⟩

/-- The parts of a line of text. The induction is on the parts. -/
theorem passes_parts {parts : List LinePart} (allowed : IndicatorAllowed indicator)
    (formed : ∀ part ∈ parts, part.Formed indicator) (h : d.Strips m tables)
    (content : m.IsContent) (read : readBefore .core indicator d tag
      ⟨parts.flatMap (·.source indicator) ++ rest, here⟩ [] = .ok last) :
    ∃ d' tables' n, n.IsContent ∧ d'.Strips n tables' ∧
      Passes indicator (parts.flatMap (·.source indicator)) here (fun _ => True) d d' ∧
      Passes indicator (parts.flatMap (·.source indicator)) here (fun _ => True)
        (d.withTables tables) (d'.withTables tables') := by
  induction parts generalizing d m tables tag here with
  | nil =>
    exact ⟨d, tables, m, content, h, ⟨fun tag _ _ _ _ => ⟨tag, rfl⟩⟩,
      ⟨fun tag _ _ _ _ => ⟨tag, rfl⟩⟩⟩
  | cons part parts ih =>
    rw [List.flatMap_cons, List.append_assoc] at read
    obtain ⟨d₁, tables₁, strips, whole, kept⟩ :=
      passes_part allowed (formed part List.mem_cons_self) h content read
    obtain ⟨tag', read⟩ := whole.behind trivial read
    obtain ⟨d₂, tables₂, n, content', strips', whole', kept'⟩ :=
      ih (fun part mem => formed part (.tail _ mem)) strips (.inr rfl) read
    exact ⟨d₂, tables₂, n, content', strips', whole.trans whole' fun _ _ => trivial,
      kept.trans kept' fun _ _ => trivial⟩

section Lines

variable (admitted : Config.admitsIndicator indicator = true)
include admitted

/-- Blanks and line ends are text. -/
theorem plain_of_blank {c : Char} (blank : Text.isBlank c = true) : c ≠ indicator ∧ c ≠ '\\' := by
  constructor
  · rintro rfl
    unfold Config.admitsIndicator at admitted
    simp [blank] at admitted
  · rintro rfl
    revert blank
    decide

theorem passes_blanks {chars : List Char} (blank : ∀ c ∈ chars, Text.isBlank c = true)
    (d : Draft) (here : Location) :
    Passes indicator chars here (fun _ => True) d (d.addRaw (String.ofList chars)) :=
  ⟨fun tag rest behind _ _ => ⟨tag,
    readBefore_plain (fun c mem => plain_of_blank admitted (blank c mem)) here rest behind⟩⟩

omit admitted in
theorem isBlank_ending (ending : LineEnd) : ∀ c ∈ ending.text, Text.isBlank c = true :=
  List.all_eq_true.mp (by cases ending <;> decide)

omit admitted in
theorem isBlank_of_spaces {chars : List Char} (blank : ∀ c ∈ chars, c = ' ' ∨ c = '\t') :
    ∀ c ∈ chars, Text.isBlank c = true := by
  intro c mem
  rcases blank c mem with rfl | rfl <;> decide

omit admitted in
/-- What stands behind a tag on its line. -/
theorem mem_lineTail {after : List Char} {ending : LineEnd}
    (blank : ∀ c ∈ after, c = ' ' ∨ c = '\t') :
    ∀ c ∈ after ++ ending.text, c ∈ [' ', '\t', '\r', '\n'] := by
  intro c mem
  rcases List.mem_append.mp mem with mem | mem
  · rcases blank c mem with rfl | rfl <;> simp
  · cases ending <;> simp [LineEnd.text] at mem <;> simp [mem]

omit admitted in
theorem isBlank_of_lineTail {chars : List Char}
    (tail : ∀ c ∈ chars, c ∈ [' ', '\t', '\r', '\n']) :
    ∀ c ∈ chars, Text.isBlank c = true := by
  intro c mem
  have known := tail c mem
  simp only [List.mem_cons, List.not_mem_nil, or_false] at known
  rcases known with rfl | rfl | rfl | rfl <;> decide

omit admitted in
theorem ending_ne_nil (after : List Char) (ending : LineEnd) : after ++ ending.text ≠ [] := by
  cases ending <;> simp [LineEnd.text]

omit admitted in
theorem endsTag_lineTail {chars : List Char} (tail : ∀ c ∈ chars, c ∈ [' ', '\t', '\r', '\n'])
    (nonempty : chars ≠ []) (rest : List Char) : EndsTag (chars ++ rest) := by
  intro c first
  rw [List.head?_append_of_ne_nil _ nonempty] at first
  have known := tail c (List.mem_of_mem_head? first)
  simp only [List.mem_cons, List.not_mem_nil, or_false] at known
  rcases known with rfl | rfl | rfl | rfl <;> decide

omit admitted in
theorem withTables_addRaw (d : Draft) (text : String) (tables : List (List Node)) :
    (d.addRaw text).withTables tables = d.withTables tables := by
  unfold addRaw
  split <;> rfl

/-- A line is read, and so is what is kept of it. -/
theorem passes_line {line : Line} (formed : line.Formed indicator)
    (h : d.Strips .lineStart tables) (read : readBefore .core indicator d tag
      ⟨line.source indicator ++ rest, here⟩ [] = .ok last) :
    ∃ d' tables', d'.Strips .lineStart tables' ∧
      Passes indicator (line.source indicator) here (fun _ => True) d d' ∧
      ∀ tag behind, parenFollows behind = false → ∃ tag',
        readBefore .core indicator (d.withTables tables) tag (line.kept indicator here) behind =
          readOn .core indicator (d'.withTables tables') tag' (.ok behind) := by
  have allowed := (Config.tagStart_of_admits admitted).toIndicatorAllowed
  cases line with
  | content parts ending =>
    rw [Line.source, List.append_assoc] at read
    obtain ⟨d₁, tables₁, n, content, strips, whole, kept⟩ :=
      passes_parts allowed formed h (.inl rfl) read
    refine ⟨_, _, strips.addRaw fun written => written.ends content ending,
      whole.trans (passes_blanks admitted (isBlank_ending ending) _ _) fun _ _ => trivial, ?_⟩
    intro tag behind tail
    have both := kept.trans (passes_blanks admitted (isBlank_ending ending) _ _)
      fun _ _ => trivial
    obtain ⟨tag', same⟩ := both.reads tag [] behind trivial tail
    refine ⟨tag', ?_⟩
    rw [← addRaw_withTables, ← readBefore_end, ← same, List.append_nil]
    rfl
  | standalone before mark after ending =>
    obtain ⟨blank, formed⟩ := formed
    have front : ∀ c ∈ before, c = ' ' ∨ c = '\t' := fun c mem =>
      blank c (List.mem_append_left _ mem)
    have behind : ∀ c ∈ after, c = ' ' ∨ c = '\t' := fun c mem =>
      blank c (List.mem_append_right _ mem)
    have tail : ∀ c ∈ after ++ ending.text, c ∈ [' ', '\t', '\r', '\n'] := mem_lineTail behind
    simp only [Line.source, List.append_assoc] at read ⊢
    have first := passes_blanks admitted (isBlank_of_spaces front) d here
    obtain ⟨tag₁, read⟩ := first.behind trivial read
    have strips₁ := h.addStripped fun written => written.indent front
    obtain ⟨name, tokens, reading⟩ := LineTag.reading allowed (here.after before) formed
    rw [← List.append_assoc after] at read
    obtain ⟨result, effect, formed', passes⟩ := passes_of_reading reading allowed strips₁.formed
      (endsTag_lineTail tail (ending_ne_nil after ending) rest) read
    obtain ⟨tables₂, same, strips₂⟩ := strips₁.tag effect formed'
    refine ⟨_, tables₂, strips₂.addStripped fun written => written.tagEnds behind ending, ?_, ?_⟩
    · have own := passes (d.addRaw (String.ofList before)).tables
      rw [withTables_tables] at own
      refine first.trans (own.trans (passes_blanks admitted (isBlank_of_lineTail tail) _ _) ?_)
        fun _ _ => trivial
      exact fun rest _ => endsTag_lineTail tail (ending_ne_nil after ending) rest
    · intro tag behind stops
      have empty : EndsTag [] := by
        rintro c ⟨⟩
      obtain ⟨tag', read⟩ := (passes tables).reads tag [] behind empty stops
      refine ⟨tag', ?_⟩
      rw [withTables_addRaw, same, List.append_nil, readBefore_end] at read
      rw [withTables_addRaw]
      exact read

/-- What is kept of lines is read to the draft of the lines with other tables. The induction is on
the lines. -/
theorem read_keptTokens {lines : List Line} (formed : ∀ line ∈ lines, line.Formed indicator)
    (h : d.Strips .lineStart tables)
    (whole : readBefore .core indicator d tag ⟨linesSource indicator lines, here⟩ [] = .ok last) :
    ∃ tokens tables', keptTokens indicator here lines = .ok tokens ∧
      parenFollows tokens = false ∧ last.Strips .lineStart tables' ∧
      ∀ tag, read .core indicator (d.withTables tables) tag tokens =
        .ok (last.withTables tables') := by
  induction lines generalizing d tables tag here with
  | nil =>
    rw [linesSource, List.flatMap_nil, readBefore_end] at whole
    have same := ok_of_mapError (f := Failure.parse) whole
    rw [read] at same
    cases same
    exact ⟨[], tables, rfl, rfl, h, fun tag => by rw [read]⟩
  | cons line lines ih =>
    rw [linesSource, List.flatMap_cons] at whole
    obtain ⟨d₁, tables₁, strips, passes, kept⟩ :=
      passes_line admitted (formed line List.mem_cons_self) h whole
    obtain ⟨tag₁, behind⟩ := passes.behind trivial whole
    obtain ⟨more, tables', scanned, stops, strips', reads⟩ :=
      ih (fun line mem => formed line (.tail _ mem)) strips behind
    have front (tag : String) : ∃ tokens,
        Token.scanText indicator (line.kept indicator here) = .ok tokens ∧
        read .core indicator (d.withTables tables) tag (tokens ++ more) =
          .ok (last.withTables tables') := by
      obtain ⟨tag', same⟩ := kept tag more stops
      rw [readOn, reads tag', readBefore] at same
      cases found : Token.scanText indicator (line.kept indicator here) with
      | error e =>
        rw [found] at same
        cases same
      | ok tokens =>
        rw [found] at same
        exact ⟨tokens, rfl, ok_of_mapError same⟩
    obtain ⟨tokens, found, -⟩ := front tag
    refine ⟨tokens ++ more, tables', ?_, ?_, strips', fun tag => ?_⟩
    · rw [keptTokens, found]
      dsimp only [bind, Except.bind]
      rw [scanned]
      rfl
    · exact parenFollows_append_of_false (Token.parenFollows_of_scanText found) stops
    · obtain ⟨tokens', found', done⟩ := front tag
      rw [found] at found'
      cases found'
      exact done

end Lines

end Draft

/-- A template, and what is left of it when the tags that stand alone lose their lines. -/
structure Template.Strips (t t' : Template) : Prop where
  name : t'.name = t.name
  length : t'.tables.length = t.tables.length
  outer : Stripped .lineStart (t.table 0) (t'.table 0) .lineStart
  body : ∀ {k}, k ≠ 0 → ∃ stage : LineStage, stage.IsTag ∧
    Stripped .behindTag (t.table k) (t'.table k) stage

theorem Draft.Strips.finish {d : Draft} {tables : List (List Node)} (h : d.Strips .lineStart tables)
    (closed : d.opened = []) (name : String) (indicator : Char) :
    (d.finish name indicator).Strips ((d.withTables tables).finish name indicator) where
  name := rfl
  length := h.length
  outer := by
    have current : d.current = 0 := by
      rw [Draft.current, closed]
      rfl
    have table := h.stripped h.formed.nonempty
    rwa [Draft.stageOf, current, if_pos rfl] at table
  body {k} inner := by
    by_cases inside : k < d.tables.length
    · have current : d.current = 0 := by
        rw [Draft.current, closed]
        rfl
      have table := h.stripped inside
      rw [entry, if_neg inner, Draft.stageOf, current, if_neg inner, closed,
        if_neg (by simp [inner])] at table
      exact ⟨_, .inl rfl, table⟩
    · have beyond : d.tables.length ≤ k := Nat.le_of_not_lt inside
      have none : (d.finish name indicator).table k = [] := by
        rw [Template.table, Draft.finish, List.getElem?_eq_none beyond]
        rfl
      have none' : ((d.withTables tables).finish name indicator).table k = [] := by
        rw [Template.table, Draft.finish, Draft.tables_withTables,
          List.getElem?_eq_none (h.length ▸ beyond)]
        rfl
      rw [none, none']
      exact ⟨_, .inr rfl, .nil _⟩

namespace Template

/-- What is kept of the lines of a template is a template, with the same tables but for the raw text
around the tags that stand alone. -/
theorem strips_of_parse {config : Config} {name : String} {lines : List Line} {t : Template}
    (admitted : Config.admitsIndicator config.indicator = true)
    (formed : ∀ line ∈ lines, line.Formed config.indicator)
    (parsed : parse .core config name (String.ofList (linesSource config.indicator lines)) =
      .ok t) :
    ∃ tokens t', keptTokens config.indicator {} lines = .ok tokens ∧
      ofTokens .core config name tokens = .ok t' ∧ t.Strips t' := by
  obtain ⟨all, scanned, made⟩ := ofTokens_of_parse parsed
  obtain ⟨d, read, closed, rfl⟩ := read_of_ofTokens made
  have whole : Draft.readBefore .core config.indicator {} ""
      ⟨linesSource config.indicator lines, {}⟩ [] = .ok d := by
    have start : Cursor.start (String.ofList (linesSource config.indicator lines)) =
        ⟨linesSource config.indicator lines, {}⟩ := by
      rw [Cursor.start, String.toList_ofList]
    rw [Token.scan, start] at scanned
    rw [Draft.readBefore_nil, Draft.readAt, scanned, Draft.readOn, read]
    rfl
  obtain ⟨tokens, tables, kept, -, strips, reads⟩ :=
    Draft.read_keptTokens admitted formed .start whole
  refine ⟨tokens, _, kept, ?_, strips.finish closed name config.indicator⟩
  have begun : Draft.withTables {} [[]] = {} := rfl
  have last := reads ""
  rw [begun] at last
  have unopened : (d.withTables tables).unclosed? = none := by
    rw [Draft.unclosed?, show (d.withTables tables).opened = [] from closed]
    rfl
  rw [ofTokens, last]
  dsimp only
  rw [unopened]

end Template

end Stencil
