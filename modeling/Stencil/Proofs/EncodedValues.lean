import Stencil.Proofs.ActiveEncoders
import Stencil.Proofs.CursorStack
import Stencil.Proofs.DraftNodes
import Stencil.Proofs.ReadExpressions
import Stencil.Proofs.Splicing

/-!
# Values are encoded once

The output of a rendering next to the log of its steps, in which each value stands once, with the
encoder that was active (`Machine.Logged`). The output is the log without some blanks of the
template: each value is in it as its encoder gave it, and raw text as it stands in the template.
Under the HTML encoder no value can write a character of markup, and what it wrote can be decoded.
-/

namespace Stencil

namespace Encoder

/-- A text with the five entities of the HTML encoder replaced by their characters. -/
def decodeHtml : List Char → List Char
  | '&' :: 'a' :: 'm' :: 'p' :: ';' :: rest => '&' :: decodeHtml rest
  | '&' :: 'l' :: 't' :: ';' :: rest => '<' :: decodeHtml rest
  | '&' :: 'g' :: 't' :: ';' :: rest => '>' :: decodeHtml rest
  | '&' :: 'q' :: 'u' :: 'o' :: 't' :: ';' :: rest => '\x22' :: decodeHtml rest
  | '&' :: '#' :: '3' :: '9' :: ';' :: rest => '\x27' :: decodeHtml rest
  | c :: rest => c :: decodeHtml rest
  | [] => []

/-- The characters that HTML reads as markup. -/
def IsMarkup (c : Char) : Prop := c = '<' ∨ c = '>' ∨ c = '\x22' ∨ c = '\x27'

theorem decodeHtml_cons {c : Char} (other : c ≠ '&') (rest : List Char) :
    decodeHtml (c :: rest) = c :: decodeHtml rest := by
  conv_lhs => unfold decodeHtml
  split <;> simp_all

theorem decodeHtml_htmlChar (c : Char) (rest : List Char) :
    decodeHtml (htmlChar c ++ rest) = c :: decodeHtml rest := by
  unfold htmlChar
  by_cases ampersand : c = '&'
  · rw [if_pos ampersand, ampersand]
    exact decodeHtml.eq_1 rest
  rw [if_neg ampersand]
  by_cases less : c = '<'
  · rw [if_pos less, less]
    exact decodeHtml.eq_2 rest
  rw [if_neg less]
  by_cases greater : c = '>'
  · rw [if_pos greater, greater]
    exact decodeHtml.eq_3 rest
  rw [if_neg greater]
  by_cases quote : c = '\x22'
  · rw [if_pos quote, quote]
    exact decodeHtml.eq_4 rest
  rw [if_neg quote]
  by_cases apostrophe : c = '\x27'
  · rw [if_pos apostrophe, apostrophe]
    exact decodeHtml.eq_5 rest
  rw [if_neg apostrophe]
  exact decodeHtml_cons ampersand rest

/-- What the HTML encoder writes can be decoded. -/
theorem decodeHtml_html (text : String) : decodeHtml (html text).toList = text.toList := by
  have decoded (cs : List Char) : decodeHtml (cs.flatMap htmlChar) = cs := by
    induction cs with
    | nil => rfl
    | cons c cs ih => rw [List.flatMap_cons, decodeHtml_htmlChar, ih]
  rw [html, String.toList_ofList, decoded]

theorem not_isMarkup_htmlChar {c d : Char} (inside : d ∈ htmlChar c) : ¬IsMarkup d := by
  have table (name : String) (clean : (name.toList.all fun d =>
      !(d == '<' || d == '>' || d == '\x22' || d == '\x27')) = true) (mem : d ∈ name.toList) :
      ¬IsMarkup d := by
    have := List.all_eq_true.mp clean d mem
    simpa [IsMarkup, not_or, and_assoc] using this
  unfold htmlChar at inside
  split at inside
  · exact table "&amp;" rfl inside
  split at inside
  · exact table "&lt;" rfl inside
  split at inside
  · exact table "&gt;" rfl inside
  split at inside
  · exact table "&quot;" rfl inside
  split at inside
  · exact table "&#39;" rfl inside
  rename_i notLess notGreater notQuote notApostrophe
  rw [List.mem_singleton.mp inside]
  rintro (h | h | h | h)
  · exact notLess h
  · exact notGreater h
  · exact notQuote h
  · exact notApostrophe h

/-- The HTML encoder writes no markup. -/
theorem not_isMarkup_html {text : String} {d : Char} (inside : d ∈ (html text).toList) :
    ¬IsMarkup d := by
  rw [html, String.toList_ofList] at inside
  obtain ⟨c, -, inside⟩ := List.mem_flatMap.mp inside
  exact not_isMarkup_htmlChar inside

end Encoder

/-- What is left of a text with origins was in it. -/
theorem Trims.subset {written left : List (Char × Origin)} (h : Trims written left) :
    left ⊆ written := by
  induction h with
  | nil => exact List.Subset.refl _
  | keep c _ ih => exact List.cons_subset_cons c ih
  | drop _ _ ih => exact List.subset_cons_of_subset _ ih

/-- The pieces of a log that have a character of some origin. -/
theorem Piece.exists_of_mem_marked {log : List Piece} {c : Char} {origin : Origin}
    (mem : (c, origin) ∈ log.flatMap Piece.marked) :
    (origin = .template ∧ ∃ text, .raw text ∈ log ∧ c ∈ text.toList) ∨
      (origin = .value ∧ ∃ text encoder, .value text encoder ∈ log ∧
        c ∈ (encoder text).toList) := by
  obtain ⟨piece, inLog, inside⟩ := List.mem_flatMap.mp mem
  cases piece with
  | raw text =>
    obtain ⟨d, inText, eq⟩ := List.mem_map.mp inside
    cases eq
    exact .inl ⟨rfl, text, inLog, inText⟩
  | value text encoder =>
    obtain ⟨d, inText, eq⟩ := List.mem_map.mp inside
    cases eq
    exact .inr ⟨rfl, text, encoder, inLog, inText⟩

namespace Rendering

/-- The output is what was written, without some blanks of the template. -/
theorem logs_trims (r : Rendering) :
    r.Logs fun o written o' => o.BlankLine →
      o'.BlankLine ∧ Trims (o.marked ++ written.flatMap Piece.marked) o'.marked where
  nothing o blank := ⟨blank, by simpa using Trims.refl o.marked⟩
  raw o text blank := by
    refine ⟨blank.writeRaw text, ?_⟩
    have left : Trims (Origin.template.mark text.toList)
        (Origin.template.mark (o.undropped text)) := by
      unfold Output.undropped
      split
      · exact Output.trims_withoutBlankLine _
      · exact .refl _
    rw [Output.marked_writeRaw, List.flatMap_singleton]
    exact (Trims.refl o.marked).append left
  value o text encoder _ := by
    refine ⟨Output.BlankLine.keepLine o, ?_⟩
    rw [Output.marked_writeValue, List.flatMap_singleton]
    exact .refl _
  mark o _ := by
    refine ⟨Output.BlankLine.keepLine o, ?_⟩
    rw [Output.marked_markValue, List.flatMap_nil, List.append_nil]
    exact .refl _
  trim s blank := by
    unfold trimLine
    rw [List.flatMap_nil, List.append_nil]
    split
    · exact ⟨blank.trimLine, Output.trims_trimLine blank⟩
    · exact ⟨blank, .refl _⟩
  trans {o o' o'' written more} first second blank := by
    obtain ⟨between, front⟩ := first blank
    obtain ⟨behind, back⟩ := second between
    refine ⟨behind, Trims.trans ?_ back⟩
    rw [List.flatMap_append, ← List.append_assoc]
    exact front.append (.refl _)

end Rendering

namespace Machine

variable {r : Rendering} {default : Encoder} {m : Machine} {scopes : List (Option Encoder)}
  {log : List Piece}

theorem Logged.trims (h : Logged r default m scopes log) :
    Trims (log.flatMap Piece.marked) m.state.output.marked :=
  (h.written r.logs_trims (by rintro c ⟨⟩)).2

/-- A piece that a step writes is the text of a raw node, or the formatted text of a value under the
given encoder. -/
theorem piece_of_step {encoder : Encoder} {piece : Piece}
    (h : stepPiece? r encoder m = some piece) :
    (∃ text, piece = .raw text ∧ ∃ cursor ∈ m.cursors, .raw text ∈ cursor.rest) ∨
      ∃ text, piece = .value text encoder := by
  have value {v : Value} (written : r.valuePiece? encoder v = some piece) :
      ∃ text, piece = .value text encoder := by
    unfold Rendering.valuePiece? at written
    split at written
    · cases written
    · cases written
      exact ⟨_, rfl⟩
  obtain ⟨cursors, s⟩ := m
  cases cursors with
  | nil => cases h
  | cons cursor outer =>
    obtain ⟨node, first, written⟩ := Option.bind_eq_some_iff.mp h
    have inside : node ∈ cursor.rest := List.mem_of_mem_head? first
    cases node with
    | raw text =>
      cases written
      exact .inl ⟨text, rfl, cursor, List.mem_cons_self, inside⟩
    | output e => exact .inr (value written)
    | evaluate name default =>
      rw [Rendering.nodePiece?] at written
      split at written
      · exact .inr (value written)
      · cases written
      · exact .inr (value written)
    | _ => cases written

/-- Raw pieces of a log are raw nodes of the template. -/
theorem Logged.exists_raw (forward : Forward r.template.tables.length r.template.tables)
    (h : Logged r default m scopes log) {text : String} (mem : .raw text ∈ log) :
    ∃ table, .raw text ∈ r.template.table table := by
  induction h with
  | start => cases mem
  | step before step ih =>
    rcases List.mem_append.mp mem with old | new
    · exact ih old
    · rcases piece_of_step (Option.mem_toList.mp new) with
        ⟨text', eq, cursor, open_, inside⟩ | value
      · cases eq
        have stands := (stacked_of_reaches forward before.reaches).stands open_
        exact ⟨cursor.table, stands.subset inside⟩
      · obtain ⟨text', eq⟩ := value
        cases eq

/-- The encoder of the body that is opened next is that of a tag. -/
theorem exists_of_switchesTo? {inner : Encoder} (h : m.switchesTo? = some inner) :
    ∃ cursor ∈ m.cursors, ∃ handler, .encode handler inner ∈ cursor.rest := by
  obtain ⟨cursors, s⟩ := m
  cases cursors with
  | nil => cases h
  | cons cursor outer =>
    refine ⟨cursor, List.mem_cons_self, ?_⟩
    unfold switchesTo? at h
    split at h
    · cases h
    · rename_i eq
      cases eq
      split at h
      · rename_i handler inner' body rest front
        cases h
        exact ⟨handler, front ▸ List.mem_cons_self⟩
      · cases h

/-- Where all encoder tags switch to one encoder, which is the default as well, it is active in
every scope. -/
theorem Logged.activeEncoder_eq (forward : Forward r.template.tables.length r.template.tables)
    (same : ∀ table handler inner, .encode handler inner ∈ r.template.table table →
      inner = default) (h : Logged r default m scopes log) :
    ∀ inner, some inner ∈ scopes → inner = default := by
  induction h with
  | start =>
    intro inner mem
    simp at mem
  | @step m next scopes log before step ih =>
    intro inner mem
    unfold scopesBehind at mem
    split at mem
    · rcases List.mem_cons.mp mem with new | old
      · obtain ⟨cursor, open_, handler, inside⟩ := exists_of_switchesTo? new.symm
        have stands := (stacked_of_reaches forward before.reaches).stands open_
        exact same cursor.table handler inner (stands.subset inside)
      · exact ih inner old
    · split at mem
      · exact ih inner (List.mem_of_mem_tail mem)
      · exact ih inner mem

theorem activeEncoder_of_all (all : ∀ inner, some inner ∈ scopes → inner = default) :
    activeEncoder default scopes = default := by
  unfold activeEncoder
  cases found : scopes.findSome? id with
  | none => rfl
  | some inner =>
    obtain ⟨scope, mem, eq⟩ := List.exists_of_findSome?_eq_some found
    exact all inner (eq ▸ mem)

/-- Where one encoder is active in every scope, every value of a log is written with it. -/
theorem Logged.encoder_eq (forward : Forward r.template.tables.length r.template.tables)
    (same : ∀ table handler inner, .encode handler inner ∈ r.template.table table →
      inner = default) (h : Logged r default m scopes log) {text : String} {encoder : Encoder}
    (mem : .value text encoder ∈ log) : encoder = default := by
  induction h with
  | start => cases mem
  | step before step ih =>
    rcases List.mem_append.mp mem with old | new
    · exact ih old
    · have active := activeEncoder_of_all (before.activeEncoder_eq forward same)
      rw [active] at new
      rcases piece_of_step (Option.mem_toList.mp new) with ⟨_, eq, -⟩ | ⟨_, eq⟩
      · cases eq
      · cases eq
        rfl

/-- A rendering ends with the log of all its steps. -/
theorem exists_logged_walk (forward : Forward r.template.tables.length r.template.tables)
    (encoder : Encoder) :
    ∃ m scopes log, Logged r encoder m scopes log ∧ m.cursors = [] ∧
      ∀ text, r.render encoder = .ok text → text.toList = m.state.output.marked.map Prod.fst := by
  obtain ⟨scopes, log, logged⟩ := exists_logged (reaches_walk forward encoder)
  refine ⟨_, scopes, log, logged, rfl, fun text done => ?_⟩
  rw [Rendering.text_of_render done]
  exact Output.toList_text _

/-- Under the HTML encoder all markup in the output is text of the template, and what values wrote
can be decoded. -/
theorem Logged.html (forward : Forward r.template.tables.length r.template.tables)
    (same : ∀ table handler inner, .encode handler inner ∈ r.template.table table →
      inner = Encoder.html) (h : Logged r Encoder.html m scopes log) :
    (∀ text encoder, .value text encoder ∈ log →
      Encoder.decodeHtml (encoder text).toList = text.toList) ∧
    ∀ c origin, (c, origin) ∈ m.state.output.marked → Encoder.IsMarkup c →
      origin = .template ∧ ∃ table text, .raw text ∈ r.template.table table ∧ c ∈ text.toList := by
  refine ⟨fun text encoder mem => ?_, fun c origin mem markup => ?_⟩
  · rw [h.encoder_eq forward same mem]
    exact Encoder.decodeHtml_html text
  · rcases Piece.exists_of_mem_marked (h.trims.subset mem) with
      ⟨template, text, written, inside⟩ | ⟨-, text, encoder, written, inside⟩
    · obtain ⟨table, node⟩ := h.exists_raw forward written
      exact ⟨template, table, text, node, inside⟩
    · rw [h.encoder_eq forward same written] at inside
      exact absurd markup (Encoder.not_isMarkup_html inside)

end Machine

/-- The name of the encoder that a tag switches to. -/
def Node.encoderName? : Node → Option String
  | .encode handler _ => some handler
  | _ => none

namespace Rendering

/-- Every value is encoded once, by the encoder of the innermost body of an encoder tag it is put
out in, and text of the template is not encoded: the log holds each value with that encoder, and the
output is the log without some blanks of the template. A rendering comes to an end, and the
characters of its output are its result. Under the HTML encoder, where no tag switches to another,
each value can be decoded and all markup is text of the template. -/
theorem encoded_once {t : Template} (assembled : t.Assembled Template.Parsed) (context : Context)
    (config : Config) (encoder : Encoder) :
    let r : Rendering := ⟨t, context, config⟩
    (∀ m scopes log, Machine.Logged r encoder m scopes log →
      Trims (log.flatMap Piece.marked) m.state.output.marked ∧
        ∀ text, .raw text ∈ log → ∃ table, .raw text ∈ t.table table) ∧
    (∃ m scopes log, Machine.Logged r encoder m scopes log ∧ m.cursors = [] ∧
      ∀ text, r.render encoder = .ok text → text.toList = m.state.output.marked.map Prod.fst) ∧
    (encoder = Encoder.html →
      (∀ table handler inner, .encode handler inner ∈ t.table table → inner = Encoder.html) →
      ∀ m scopes log, Machine.Logged r encoder m scopes log →
        (∀ text inner, .value text inner ∈ log →
          Encoder.decodeHtml (inner text).toList = text.toList) ∧
        ∀ c origin, (c, origin) ∈ m.state.output.marked → Encoder.IsMarkup c →
          origin = .template ∧ ∃ table text, .raw text ∈ t.table table ∧ c ∈ text.toList) := by
  intro r
  have forward : Forward r.template.tables.length r.template.tables := assembled.layout.forward
  refine ⟨fun m scopes log logged => ⟨logged.trims, fun text => logged.exists_raw forward⟩,
    Machine.exists_logged_walk forward encoder, ?_⟩
  rintro rfl same m scopes log logged
  exact logged.html forward same

/-- A value between tags of the template, and once more in the body of an encoder tag. -/
theorem encoded_once_markup : ∃ page : Template, ∃ text,
    Template.parse .core {} "page" "<b>#(x)</b>#raw(html):#(x)#endraw" = .ok page ∧
      render ⟨page, ⟨[("x", .string "<i>")], []⟩, {}⟩ Encoder.html = .ok text ∧
      ∃ marked : List (Char × Origin), text.toList = marked.map Prod.fst ∧
        ∀ c origin, (c, origin) ∈ marked → Encoder.IsMarkup c → origin = .template := by
  have run : (Template.parse .core {} "page" "<b>#(x)</b>#raw(html):#(x)#endraw").toOption.any
      (fun page => (page.tables.all fun nodes => nodes.all fun node =>
        node.encoderName?.all (· == "html")) &&
        (render ⟨page, ⟨[("x", .string "<i>")], []⟩, {}⟩ Encoder.html).isOk) = true := by
    decide +kernel
  obtain ⟨page, parsed, both⟩ := ok_of_any run
  obtain ⟨named, succeeds⟩ := Bool.and_eq_true_iff.mp both
  cases done : render ⟨page, ⟨[("x", .string "<i>")], []⟩, {}⟩ Encoder.html with
  | error e =>
    rw [done] at succeeds
    cases succeeds
  | ok text =>
    have same (table : Nat) (handler : String) (inner : Encoder)
        (mem : .encode handler inner ∈ page.table table) : inner = Encoder.html := by
      obtain ⟨nodes, inTemplate, inside⟩ := Template.exists_of_mem_table mem
      have name := List.all_eq_true.mp (List.all_eq_true.mp named nodes inTemplate) _ inside
      obtain rfl : handler = "html" := beq_iff_eq.mp name
      exact (Option.some.inj (Template.encoder?_of_mem parsed inTemplate inside)).symm
    obtain ⟨-, ⟨m, scopes, log, logged, -, result⟩, html⟩ :=
      encoded_once (.given (Template.parsed_of_parse parsed)) ⟨[("x", .string "<i>")], []⟩ {}
        Encoder.html
    refine ⟨page, text, parsed, done, m.state.output.marked, result text done,
      fun c origin mem markup => ?_⟩
    exact ((html rfl same m scopes log logged).2 c origin mem markup).1

end Rendering

end Stencil
