import Stencil.Proofs.KeptLines
import Stencil.Proofs.ParallelWalks
import Stencil.Proofs.StrippedOutput
import Stencil.Proofs.WrittenRun

/-!
# Tags that stand alone on their lines

A template whose tags stand alone on their lines is rendered, with its lines trimmed, to the same
output as what is kept of the lines without any trimming. The two walks go through the same states,
and at every stage of a line the outputs hold the same text.

A template of whole lines, of which some hold text and expressions and the others nothing but the
tag of a block, an end tag, a declaration or an assignment. The lines of such tags leave nothing
behind: the output is that of the lines of text, as often and in the order in which they are come
to.
-/

namespace Stencil

section

open LineStage
open RenderState (Alike)

namespace Rendering

variable {r r' : Rendering} {m n : LineStage} {nodes nodes' : List Node} {s s' : RenderState}
  {scope scope' : Nat → Encoder → Bindings → RenderState → RenderState}

/-- Nodes that are walked on both sides. -/
theorem walkNodes_rawNode (r : Rendering)
    (scope : Nat → Encoder → Bindings → RenderState → RenderState) (encoder : Encoder)
    (place : Option String) (settled : Bool) (run : List Char) (nodes : List Node)
    (s : RenderState) : r.walkNodes scope encoder place settled (rawNode run ++ nodes) s =
      r.walkNodes scope encoder place settled nodes { s with output := s.output.writeRun run } := by
  unfold rawNode Output.writeRun
  cases run with
  | nil => rfl
  | cons c run => rfl

theorem trimLine_alike (trims : r.config.trimBlockLines = true)
    (plain : r'.config.trimBlockLines = false) (h : Alike m.Holds s s') (tag : m.IsTag) :
    Alike LineStage.behindTag.Holds (r.trimLine s) (r'.trimLine s') := by
  unfold trimLine
  rw [trims, plain, if_pos rfl, if_neg Bool.false_ne_true]
  exact ⟨h.frames, h.errors, h.exhausted, h.output.trimLine tag⟩

theorem walkNode_change (r : Rendering)
    (scope : Nat → Encoder → Bindings → RenderState → RenderState) (encoder : Encoder)
    (place : Option String) (settled : Bool) {node : Node}
    (changes : TagSite.changes node = true) (nodes : List Node) (s : RenderState) :
    r.walkNodes scope encoder place settled (node :: nodes) s =
      r.walkNodes scope encoder place settled nodes (r.walkNode scope encoder node s) := by
  cases node with
  | declare => rfl
  | assign => rfl
  | _ => cases changes

/-- The nodes of a table, by induction on what is kept of them. -/
theorem walkNodes_stripped (same : SharesData r r') (trims : r.config.trimBlockLines = true)
    (plain : r'.config.trimBlockLines = false)
    (scopes : ∀ {s s' : RenderState} (body : Nat) (encoder : Encoder) (bindings : Bindings),
      body ≠ 0 → Alike LineStage.behindTag.Holds s s' → Alike LineStage.behindTag.Holds
        (scope body encoder bindings s) (scope' body encoder bindings s'))
    (encoder : Encoder) (place : Option String) (settled : Bool)
    (strips : Stripped m nodes nodes' n)
    (h : Alike m.Holds s s') :
    Alike n.Holds (r.walkNodes scope encoder place settled nodes s)
      (r'.walkNodes scope' encoder place settled nodes' s') := by
  induction strips generalizing settled s s' with
  | nil => exact h
  | raw run _ ih =>
    rw [walkNodes_rawNode, walkNodes_rawNode]
    exact ih settled ⟨h.frames, h.errors, h.exhausted, h.output.writeRun run⟩
  | @output m l nodes nodes' e content _ ih =>
    have read : r'.walkNode scope' encoder (.output e) s' =
        r'.writeValue encoder (r.eval s e) s' := by
      rw [walkNode, same.eval h]
    refine ih settled ?_
    rw [read]
    exact same.writeValue h encoder (r.eval s e) (fun out => out.markValue content)
      fun text encoder out => out.writeValue content text encoder
  | @change l nodes nodes' node changes _ ih =>
    have trimmed := trimLine_alike trims plain h (.inl rfl)
    rw [walkNode_change _ _ _ _ _ changes, walkNode_change _ _ _ _ _ changes]
    refine ih settled ?_
    cases node with
    | declare name constant value => exact same.declare trimmed name fun _ => rfl
    | assign v op value => exact same.assign trimmed v op fun _ => rfl
    | _ => cases changes
  | @block m l nodes nodes' name chained behaviour args body tag inner _ ih =>
    have trimmed := trimLine_alike trims plain h tag
    have ran := SharesData.runBlock (fun bindings => scopes body encoder bindings inner) same name
      behaviour (fun _ => rfl : ∀ env, args.eval env = args.eval env) trimmed
    simp only [walkNodes]
    by_cases skip : (chained && settled) = true
    · rw [if_pos skip, if_pos skip]
      exact ih settled trimmed
    · rw [if_neg skip, if_neg skip, ran.1]
      exact ih _ ran.2

/-- A body, by induction on the room. -/
theorem walkScope_stripped (same : SharesData r r') (trims : r.config.trimBlockLines = true)
    (plain : r'.config.trimBlockLines = false) (strips : r.template.Strips r'.template) (room : Nat)
    {body : Nat} (inner : body ≠ 0) (encoder : Encoder) (bindings : Bindings)
    (h : Alike LineStage.behindTag.Holds s s') :
    Alike LineStage.behindTag.Holds (r.walkScope room body encoder bindings s)
      (r'.walkScope room body encoder bindings s') := by
  induction room generalizing body encoder bindings s s' with
  | zero => exact ⟨h.frames, h.errors, rfl, h.output⟩
  | succ room ih =>
    obtain ⟨stage, tag, table⟩ := strips.body inner
    have walked := walkNodes_stripped same trims plain
      (fun body encoder bindings inner => ih inner encoder bindings) encoder none false table
      (h.openFrame bindings)
    exact trimLine_alike trims plain walked.closeFrame tag

/-- The whole template. -/
theorem walk_stripped (same : SharesData r r') (trims : r.config.trimBlockLines = true)
    (plain : r'.config.trimBlockLines = false) (strips : r.template.Strips r'.template)
    (encoder : Encoder) : Alike LineStage.lineStart.Holds (r.walk encoder) (r'.walk encoder) := by
  have room : r'.room = r.room := by rw [Rendering.room, Rendering.room, strips.length]
  rw [walk, walk, room]
  exact walkNodes_stripped same trims plain
    (fun _ encoder bindings inner =>
      walkScope_stripped same trims plain strips r.room inner encoder bindings)
    encoder none false strips.outer (.start [] ⟨rfl, rfl, rfl, rfl, rfl⟩)

/-- Both renderings fail with the same error, or write the same text. -/
theorem render_stripped (same : SharesData r r') (trims : r.config.trimBlockLines = true)
    (plain : r'.config.trimBlockLines = false) (strips : r.template.Strips r'.template)
    (encoder : Encoder) : r.render encoder = r'.render encoder := by
  have alike := walk_stripped same trims plain strips encoder
  have room : r'.room = r.room := by rw [Rendering.room, Rendering.room, strips.length]
  have text : (r'.walk encoder).output.text = (r.walk encoder).output.text := by
    rw [← String.toList_inj, Output.toList_text, Output.toList_text, alike.output.same]
  rw [render, render, alike.exhausted, same.fatal? alike, room, strips.name, text]

end Rendering

end

open Machine (Path start stepText)

namespace Template

/-- Tags that stand alone leave no trace. Of the lines of a template, what is kept is all of the
lines of text and nothing but the tag of any other line. That is a template too, and with the same
data the template of the lines, whose block lines are trimmed, is rendered like it, which is not
trimmed: it fails with the same error, or gives the same text. The text is what a run of the kept
template writes step by step, the raw text of lines as it is and expressions by their values. -/
theorem standalone_lines_leave_no_trace {config : Config}
    (admitted : Config.admitsIndicator config.indicator = true)
    (trims : config.trimBlockLines = true) {lines : List Line}
    (formed : ∀ line ∈ lines, line.Formed config.indicator) {name : String} {t : Template}
    (parsed : parse .core config name (String.ofList (linesSource config.indicator lines)) =
      .ok t) :
    ∃ tokens kept, keptTokens config.indicator {} lines = .ok tokens ∧
      ofTokens .core config name tokens = .ok kept ∧
      ∀ (context : Context) (encoder : Encoder),
        let plain : Rendering := ⟨kept, context, { config with trimBlockLines := false }⟩
        Rendering.render ⟨t, context, config⟩ encoder = plain.render encoder ∧
        ∀ text, Rendering.render ⟨t, context, config⟩ encoder = .ok text →
          ∃ ms last, Path plain (start plain encoder) ms last ∧ last.cursors = [] ∧
            text = String.join (ms.map (stepText plain)) := by
  obtain ⟨tokens, kept, scanned, made, strips⟩ := strips_of_parse admitted formed parsed
  refine ⟨tokens, kept, scanned, made, fun context encoder => ?_⟩
  let whole : Rendering := ⟨t, context, config⟩
  let plain : Rendering := ⟨kept, context, { config with trimBlockLines := false }⟩
  have same : whole.SharesData plain := ⟨rfl, rfl, rfl, rfl, rfl⟩
  have equal : whole.render encoder = plain.render encoder :=
    Rendering.render_stripped same trims rfl strips encoder
  refine ⟨equal, fun text done => ?_⟩
  obtain ⟨d, drafted, tables⟩ := formed_of_ofTokens made
  have forward : Forward kept.tables.length kept.tables := tables ▸ drafted.forward
  exact Rendering.exists_path_of_render (r := plain) forward rfl (equal ▸ done)

/-- A list of values, with a line for each. -/
def listLines : List Line :=
  [.standalone [' ', ' '] (.opener "for" (some "x in items".toList)) [] .lf,
    .content [.text "- ".toList, .expression "x".toList] .crlf,
    .standalone ['\t'] (.closer "for") [' '] .lf]

/-- The lines of a list, rendered with two items. -/
theorem standalone_lines_leave_no_trace_list : ∃ page : Template,
    parse .core {} "page" (String.ofList (linesSource '#' listLines)) = .ok page ∧
      ∃ tokens kept, keptTokens '#' {} listLines = .ok tokens ∧
        ofTokens .core {} "page" tokens = .ok kept ∧
        let plain : Rendering := ⟨kept, ⟨[("items", .array [.int 1, .int 2])], []⟩,
          { ({} : Config) with trimBlockLines := false }⟩
        ∃ ms last, Path plain (start plain .identity) ms last ∧ last.cursors = [] ∧
          "- 1\r\n- 2\r\n" = String.join (ms.map (stepText plain)) := by
  have rendered : ((parse .core {} "page"
      (String.ofList (linesSource '#' listLines))).toOption.any fun page =>
        (Rendering.render ⟨page, ⟨[("items", .array [.int 1, .int 2])], []⟩, {}⟩
          .identity).toOption == some "- 1\r\n- 2\r\n") = true := by
    decide +kernel
  have formed : ∀ line ∈ listLines, line.Formed '#' := by
    decide +kernel
  obtain ⟨page, parsed, rendered⟩ := ok_of_any rendered
  obtain ⟨tokens, kept, scanned, made, renders⟩ := standalone_lines_leave_no_trace
    (show Config.admitsIndicator ({} : Config).indicator = true by decide) rfl formed parsed
  obtain ⟨-, runs⟩ := renders ⟨[("items", .array [.int 1, .int 2])], []⟩ .identity
  cases done : Rendering.render ⟨page, ⟨[("items", .array [.int 1, .int 2])], []⟩, {}⟩
      .identity with
  | error failure =>
    rw [done] at rendered
    cases rendered
  | ok text =>
    rw [done, beq_iff_eq] at rendered
    obtain rfl : text = "- 1\r\n- 2\r\n" := Option.some.inj rendered
    obtain ⟨ms, last, path, ended, eq⟩ := runs _ done
    exact ⟨page, parsed, tokens, kept, scanned, made, ms, last, path, ended, eq⟩

end Template

end Stencil
