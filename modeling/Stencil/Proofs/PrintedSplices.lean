import Stencil.Proofs.RecordedErrors
import Stencil.Proofs.PastedReading
import Stencil.Proofs.RereadRendering
import Stencil.Proofs.SplicedScopes

/-!
# Printing what is spliced

A part that is spliced runs in a frame of its own, and its place is the place of a tag. Its printed
source stands in the template around it, as if it had been written there. Where that makes no
difference, the printed source of a template with everything spliced means the same as the template
(`Template.printed_splices_mean_same`).

A whole walk of a template with spliced parts is followed on the other side, step by step: it comes
to the same text and the same errors, as long as its scopes are not so deep that the frames of the
parts matter.
-/

namespace Stencil

section

open RenderState

namespace Rendering

/-- Every way of writing keeps an output in order. -/
theorem logs_orderly (r : Rendering) : r.Logs fun o _ o' =>
    o.Orderly r.config.trimBlockLines → o'.Orderly r.config.trimBlockLines where
  nothing _ h := h
  raw o text _ := ⟨.writeRaw o text, fun _ => Output.dropBlankLine_writeRaw o text⟩
  value o text encoder _ := ⟨.writeValue o text encoder, fun _ => rfl⟩
  mark o _ := ⟨.markValue o, fun _ => rfl⟩
  trim s h := by
    unfold trimLine
    split
    · rename_i trims
      refine ⟨h.tidy.trimLine, fun untrimmed => ?_⟩
      rw [untrimmed] at trims
      cases trims
    · exact h
  trans first second h := second (first h)

end Rendering

/-- Throughout a rendering the output is in order. -/
theorem Machine.orderly_of_reaches {r : Rendering} {m m' : Machine} (h : Reaches r m m')
    (orderly : m.state.output.Orderly r.config.trimBlockLines) :
    m'.state.output.Orderly r.config.trimBlockLines := by
  induction h with
  | refl => exact orderly
  | @tail site last _ step ih =>
    obtain ⟨cursors, s⟩ := site
    cases cursors with
    | nil => cases step
    | cons cursor outer =>
      cases step
      exact logs_advance r.logs_orderly cursor outer s ih

open Machine
open Output (Coincides)

variable {r : Rendering} {again : Template} {m m' last : Machine}

/-- The run behind a machine that comes to an end is well-founded. -/
theorem acc_of_reaches (reaches : Reaches r m last) (ends : step r last = none) :
    Acc (fun n m => step r m = some n) m := by
  induction reaches using Relation.ReflTransGen.head_induction_on with
  | refl =>
    refine .intro _ fun n step => ?_
    rw [ends] at step
    cases step
  | head first _ ih =>
    refine .intro _ fun n step => ?_
    obtain rfl : _ = n := Option.some.inj (first.symm.trans step)
    exact ih

/-- A walk with spliced parts is followed to its end. -/
theorem Alongside.follows (admitted : r.Admitted) (h : Alongside r again m m')
    (orderly : m.state.output.Orderly r.config.trimBlockLines)
    (orderly' : m'.state.output.Orderly r.config.trimBlockLines)
    (reaches : Reaches r m last) (ends : step r last = none)
    (shallow : ∀ name, .passLimit name maxScopeDepth ∉ last.state.errors) :
    ∃ last', Reaches (r.onto again) m' last' ∧ Alongside r again last last' := by
  induction (acc_of_reaches reaches ends).transGen generalizing m' with
  | intro m _ ih =>
    obtain ⟨cursors, s⟩ := m
    cases cursors with
    | nil =>
      rcases reaches.cases_head with rfl | ⟨_, step, _⟩
      · exact ⟨m', .refl, h⟩
      · cases step
    | cons cursor outer =>
      have met (n : Machine) (there : Reaches r ⟨cursor :: outer, s⟩ n) (name : String) :
          .passLimit name maxScopeDepth ∉ n.state.errors := fun mem =>
        shallow name (subset_of_reaches (reaches_end reaches ends there) mem)
      obtain ⟨parts, linked, p, more, run, spliced⟩ := h
      obtain ⟨n, n', steps, there, alongside⟩ := advances spliced admitted orderly orderly' met
      have behind := reaches_end reaches ends steps.to_reflTransGen
      have next := orderly_of_reaches steps.to_reflTransGen orderly
      have next' : n'.state.output.Orderly (r.onto again).config.trimBlockLines :=
        orderly_of_reaches there orderly'
      obtain ⟨last', reached, done⟩ :=
        ih n (Relation.transGen_swap.mpr steps) alongside next next' behind
      exact ⟨last', there.trans reached, done⟩

section Walk

variable {more : List Node} {encoder : Encoder} (admitted : r.Admitted)
  (sited : Sited r.template r.config.trimBlockLines .lineStart (r.template.table 0))
  (pasted : Pasted r.template.table again.table false (r.template.table 0) more)
  (left : again.table 0 = joinRaw [] more) (plain : encoder.Plain)
include sited pasted left plain

theorem alongside_start :
    Alongside r again (start r encoder) (start (r.onto again) encoder) := by
  have below : Tracked r again [] false .anywhere [] [] [] := .nil
  have beside : Beside r again false .lineStart
      { table := 0, rest := r.template.table 0, encoder }
      { table := 0, rest := again.table 0, encoder } more :=
    ⟨rfl, plain, by rintro ⟨⟩, sited, pasted⟩
  refine ⟨[false], false, .lineStart, more, [], .own below (by rintro _ ⟨⟩) .none (by rintro ⟨⟩)
    beside, ?_, ⟨.own (.start []) .nil, rfl, .refl _⟩, fun _ => ⟨rfl, rfl⟩,
    fun _ _ _ some => absurd rfl some, fun _ => rfl⟩
  rintro _ ⟨⟩
  exact left

variable (forward : Forward r.template.tables.length r.template.tables)
  (forward' : Forward again.tables.length again.tables)
  (shallow : ∀ name, .passLimit name maxScopeDepth ∉ (r.walk encoder).errors)
include admitted forward forward' shallow

/-- The whole walk. -/
theorem coincides_walk : ((r.onto again).walk encoder).errors = (r.walk encoder).errors ∧
    Coincides (r.walk encoder).output ((r.onto again).walk encoder).output := by
  have orderly (trims : Bool) : ({} : Output).Orderly trims :=
    ⟨⟨by rintro ⟨⟩, by rintro ⟨⟩⟩, fun _ => rfl⟩
  obtain ⟨last', reached, parts, linked, p, rest, run, spliced⟩ :=
    (alongside_start sited pasted left plain).follows admitted (orderly _) (orderly _)
      (reaches_walk forward encoder) rfl shallow
  have ended : last'.cursors = [] := by
    have cursors := spliced.cursors
    generalize last'.cursors = cursors' at cursors
    cases cursors
    rfl
  have reached' : Reaches (r.onto again) (start (r.onto again) encoder)
      ⟨[], ((r.onto again).walk encoder).closeFrame⟩ := reaches_walk forward' encoder
  have same : last' = ⟨[], ((r.onto again).walk encoder).closeFrame⟩ := by
    have none : step (r.onto again) last' = none := by
      unfold step
      rw [ended]
    rcases (reaches_end reached' rfl reached).cases_head with same | ⟨_, more, _⟩
    · exact same
    · rw [none] at more
      cases more
  subst same
  have state := spliced.state
  rw [spliced.ended rfl] at state
  exact ⟨state.errors, state.output⟩

/-- A template is rendered as what its printed nodes are read as. -/
theorem render_onto : (r.onto again).render encoder = r.render encoder := by
  obtain ⟨errors, output⟩ :=
    coincides_walk admitted sited pasted left plain forward forward' shallow
  have room : (r.walk encoder).exhausted = false := exhausted_walk forward encoder
  have room' : ((r.onto again).walk encoder).exhausted = false := exhausted_walk forward' encoder
  have fatal : (r.onto again).fatal? ((r.onto again).walk encoder) = r.fatal? (r.walk encoder) := by
    unfold Rendering.fatal?
    rw [errors]
    rfl
  have text : ((r.onto again).walk encoder).output.text = (r.walk encoder).output.text := by
    rw [← String.toList_inj, Output.toList_text, Output.toList_text, output.text]
  rw [Rendering.render, Rendering.render, room, room', fatal, text]
  rfl

end Walk

end

namespace Node

theorem Apart.retarget {node next node' next' : Node} (h : node.Apart next)
    (here : node.Retarget node') (there : next.Retarget next') : node'.Apart next' := by
  rintro text more rfl rfl
  cases here
  cases there
  exact h text more rfl rfl

end Node

theorem apart_retarget {xs ys : List Node} (r : List.Forall₂ Node.Retarget xs ys)
    (h : xs.IsChain Node.Apart) : ys.IsChain Node.Apart := by
  induction r with
  | nil => exact .nil
  | cons here rest ih =>
    cases rest with
    | nil => exact .singleton _
    | cons there rest =>
      obtain ⟨first, behind⟩ := List.isChain_cons_cons.mp h
      exact List.isChain_cons_cons.mpr ⟨first.retarget here there, ih behind⟩

theorem apart_concat {nodes : List Node} {node : Node} (h : nodes.IsChain Node.Apart)
    (other : ∀ text, node ≠ .raw text) : (nodes ++ [node]).IsChain Node.Apart := by
  refine List.isChain_append.mpr ⟨h, .singleton _, ?_⟩
  rintro before _ _ ⟨⟩ text more _
  exact other more

/-- A parse joins raw text. -/
theorem Fresh.apart {nodes : List Node} (h : Fresh nodes) : nodes.IsChain Node.Apart := by
  induction h with
  | nil => exact .nil
  | raw _ _ last ih =>
    refine List.isChain_append.mpr ⟨ih, .singleton _, ?_⟩
    rintro _ inside _ ⟨⟩ text more rfl
    exact absurd inside (last text)
  | leaf _ _ other ih => exact apart_concat ih other
  | @place front file asRaw _ ih =>
    rw [List.append_cons]
    exact apart_concat (apart_concat ih (by rintro text ⟨⟩)) (by rintro text ⟨⟩)
  | @body front node target _ opens _ ih =>
    have other : ∀ text, node ≠ .raw text := by
      rintro text rfl
      cases opens
    rw [List.append_cons]
    exact apart_concat (apart_concat ih other) (by rintro text ⟨⟩)

namespace Template

variable {config : Config} {name json : String} {t again : Template}

theorem Assembled.apart (begins : TagStart config.indicator)
    (h : Assembled (ParsedWith config) t) :
    ∀ nodes ∈ t.tables, nodes.IsChain Node.Apart := by
  refine h.forall_tables ?_ (fun r chain => apart_retarget r chain) fun text => .singleton _
  rintro t ⟨name, source, made⟩ nodes mem
  obtain ⟨tokens, scanned, made⟩ := ofTokens_of_parse made
  obtain ⟨d, read, -, rfl⟩ := read_of_ofTokens made
  exact ((Draft.replayed_of_read begins (Token.spelled_of_scan scanned) read).fresh nodes mem).apart

/-- The encoders that the core registry knows leave alone what may go on with a tag. -/
theorem Assembled.plain (h : Assembled ParsedCore t) {nodes : List Node} (mem : nodes ∈ t.tables)
    {handler : String} {inner : Encoder} (inside : .encode handler inner ∈ nodes) :
    inner.Plain := by
  rcases h.spelled nodes mem with each | rfl
  · cases each _ inside with
    | encode _ known => exact plain_of_core known
  · cases List.mem_singleton.mp inside

theorem admits_of_admitsAll {trims : Bool} (h : t.admitsAll trims = true) {table : Nat}
    (inside : table ≠ 0) : t.admits trims .anywhere (t.table table) = true := by
  obtain ⟨k, rfl⟩ := Nat.exists_eq_succ_of_ne_zero inside
  cases found : t.tables[k + 1]? with
  | none =>
    rw [table_of_length_le (List.getElem?_eq_none_iff.mp found)]
    rfl
  | some nodes =>
    rw [table_of_getElem? found]
    rw [← List.getElem?_tail] at found
    exact List.all_eq_true.mp (Bool.and_eq_true_iff.mp h).2 nodes (List.mem_of_getElem? found)

/-- A table whose parts can be written out. -/
theorem Assembled.sited (begins : TagStart config.indicator)
    (h : Assembled (ParsedWith config) t) {trims : Bool} {p : LinePosition} {table : Nat}
    (admits : t.admits trims p (t.table table) = true) : Sited t trims p (t.table table) := by
  cases found : t.tables[table]? with
  | none =>
    rw [table_of_length_le (List.getElem?_eq_none_iff.mp found)] at admits ⊢
    exact ⟨admits, .nil, by simp, by simp⟩
  | some nodes =>
    have mem := List.mem_of_getElem? found
    rw [table_of_getElem? found] at admits ⊢
    refine ⟨admits, h.apart begins nodes mem, fun _ _ => h.core.plain mem, fun target inside => ?_⟩
    have later := (h.core.parsed.layout.forward table nodes target found inside).1
    omega

/-- A template with everything spliced, and what its printed source is parsed as, are rendered
alike with any data, to the same text or with the same error, if each part can be written out in its
place and no definition is put out too deep inside others. -/
theorem printed_splices_mean_same (accepted : Config.ofJson json = .ok config)
    (assembled : Assembled (ParsedWith config) t) (resolved : t.resolved = true)
    (reparsed : parse .core config name t.text = .ok again)
    (admits : t.admitsAll config.trimBlockLines = true) (context : Context) {encoder : Encoder}
    (default : encoder = Encoder.identity ∨ encoder = Encoder.html)
    (shallow : ∀ name, .passLimit name maxScopeDepth ∉
      (Rendering.walk ⟨t, context, config⟩ encoder).errors) :
    Rendering.render ⟨again, context, config⟩ encoder =
      Rendering.render ⟨t, context, config⟩ encoder := by
  let r : Rendering := ⟨t, context, config⟩
  have begins : TagStart config.indicator :=
    Config.tagStart_of_admits (Config.admitsIndicator_of_ofJson accepted)
  have same : t.indicator = config.indicator := assembled.indicator_eq
  obtain ⟨more, pasted, left⟩ :=
    pasted_of_parse (same ▸ begins) assembled.core resolved reparsed same
  have root := (Bool.and_eq_true_iff.mp admits).1
  have admitted : r.Admitted := by
    constructor
    · intro text
      rw [show r.config.formatters = .standard from Config.formatters_of_ofJson accepted]
      rfl
    · intro table inside
      exact assembled.sited begins (admits_of_admitsAll admits inside)
  have plain : encoder.Plain := by
    rcases default with rfl | rfl
    · exact Encoder.plain_identity
    · exact Encoder.plain_html
  have forward : Forward t.tables.length t.tables := assembled.core.parsed.layout.forward
  have forward' : Forward again.tables.length again.tables :=
    (parsed_of_parse reparsed).layout.forward
  exact render_onto (r := r) admitted (assembled.sited begins root) pasted left plain forward
    forward' shallow

/-- A part with a block, in the middle of a line. -/
theorem printed_splices_mean_same_page : ∃ page part again, ∃ context : Context,
    parse .core {} "page" "<p>#inline(\"part\")</p>" = .ok page ∧
    parse .core {} "part" "#if(ok):#(x)#endif." = .ok part ∧
    parse .core {} "page" (page.inlineTemplate "part" part).1.text = .ok again ∧
    Rendering.render ⟨again, context, {}⟩ Encoder.html =
      Rendering.render ⟨(page.inlineTemplate "part" part).1, context, {}⟩ Encoder.html := by
  let context : Context := ⟨[("ok", .bool true), ("x", .int 5)], []⟩
  have accepted : Config.ofJson "[]" = .ok {} := rfl
  have checked : ((parse .core {} "page" "<p>#inline(\"part\")</p>").toOption.any fun page =>
      (parse .core {} "part" "#if(ok):#(x)#endif.").toOption.any fun part =>
        (parse .core {} "page" (page.inlineTemplate "part" part).1.text).toOption.any fun _ =>
          (page.inlineTemplate "part" part).1.resolved &&
            (page.inlineTemplate "part" part).1.admitsAll true &&
            (Rendering.walk ⟨(page.inlineTemplate "part" part).1, context, {}⟩
              Encoder.html).errors.isEmpty) = true := by
    decide +kernel
  obtain ⟨page, parsed, checked⟩ := ok_of_any checked
  obtain ⟨part, parsedPart, checked⟩ := ok_of_any checked
  obtain ⟨again, reparsed, checked⟩ := ok_of_any checked
  obtain ⟨both, clean⟩ := Bool.and_eq_true_iff.mp checked
  obtain ⟨resolved, admits⟩ := Bool.and_eq_true_iff.mp both
  refine ⟨page, part, again, context, parsed, parsedPart, reparsed, ?_⟩
  refine printed_splices_mean_same accepted (.inlineTemplate "part" (.given ⟨_, _, parsed⟩)
    (.given ⟨_, _, parsedPart⟩)) resolved reparsed admits _ (.inr rfl) fun name mem => ?_
  rw [List.isEmpty_iff.mp clean] at mem
  cases mem

/-- A variable that a part declares is gone behind its place, but not in the printed source. -/
theorem declaration_leaks_from_printed_part :
    ((parse .core {} "page" "#inline(\"part\")#(x)").toOption.any fun page =>
      (parse .core {} "part" "#(var x = 1)").toOption.any fun part =>
        let spliced := (page.inlineTemplate "part" part).1
        let context : Context := ⟨[("x", .int 2)], []⟩
        spliced.resolved &&
          (Rendering.render ⟨spliced, context, {}⟩ .identity).toOption == some "2" &&
          (parse .core {} "page" spliced.text).toOption.any fun again =>
            (Rendering.render ⟨again, context, {}⟩ .identity).toOption == some "1") = true := by
  decide +kernel

end Template

end Stencil
