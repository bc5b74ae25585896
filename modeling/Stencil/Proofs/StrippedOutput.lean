import Stencil.Proofs.OutputMarks
import Stencil.Proofs.StrippedTables

/-!
# Output without the lines of tags

The output of a template whose lines are trimmed, next to the output of what is kept of the lines.
At every stage of a line the two hold the same text, but for blanks that are dropped with the tag
behind them.
-/

namespace Stencil

namespace StrippedRun

open LineStage

variable {m n : LineStage} {run run' : List Char}

/-- Raw text of lines of text is kept, but for the blanks in front of a tag. -/
theorem of_content (h : StrippedRun m run run' n) (content : m.IsContent) :
    n = m ∧ run = [] ∧ run' = [] ∨ n = .inLine ∧ run' = run ∨
      n = .lineStart ∧ run' = run ∧ (∃ lines, run = lines ++ ['\n']) ∨
      n = .indented ∧ ∃ blanks, run = run' ++ blanks ∧ (∀ c ∈ blanks, c = ' ' ∨ c = '\t') ∧
        (m = .lineStart ∧ run' = [] ∨ ∃ lines, run' = lines ++ ['\n']) := by
  have same {k : LineStage} {run run' : List Char} (inner : k.IsContent)
      (ih : k = m ∧ run = [] ∧ run' = [] ∨ k = .inLine ∧ run' = run ∨
        k = .lineStart ∧ run' = run ∧ (∃ lines, run = lines ++ ['\n']) ∨
        k = .indented ∧ ∃ blanks, run = run' ++ blanks ∧ (∀ c ∈ blanks, c = ' ' ∨ c = '\t') ∧
          (m = .lineStart ∧ run' = [] ∨ ∃ lines, run' = lines ++ ['\n'])) : run' = run := by
    rcases ih with ⟨-, rfl, rfl⟩ | ⟨-, eq⟩ | ⟨-, eq, -⟩ | ⟨rfl, -⟩
    · rfl
    · exact eq
    · exact eq
    · rcases inner with eq | eq <;> cases eq
  induction h with
  | nil => exact .inl ⟨rfl, rfl, rfl⟩
  | text _ inner _ ih => exact .inr (.inl ⟨rfl, by rw [same inner ih]⟩)
  | @ends k run run' _ inner ending ih =>
    refine .inr (.inr (.inl ⟨rfl, by rw [same inner ih], ?_⟩))
    cases ending with
    | lf => exact ⟨run, rfl⟩
    | crlf => exact ⟨run ++ ['\r'], by simp [LineEnd.text]⟩
  | indent _ blank ih =>
    refine .inr (.inr (.inr ⟨rfl, _, ?_, blank, ?_⟩))
    · rw [same (.inl rfl) ih]
    · rcases ih with ⟨rfl, -, rfl⟩ | ⟨eq, -⟩ | ⟨-, rfl, ends⟩ | ⟨eq, -⟩
      · exact .inl ⟨rfl, rfl⟩
      · cases eq
      · exact .inr ends
      · cases eq
  | tagEnds _ _ _ ih =>
    rcases ih with ⟨rfl, -⟩ | ⟨eq, -⟩ | ⟨eq, -⟩ | ⟨eq, -⟩
    · rcases content with eq | eq <;> cases eq
    all_goals cases eq

/-- Behind a tag its line ends, and lines of text follow. -/
theorem of_behindTag (h : StrippedRun .behindTag run run' n) :
    n = .behindTag ∧ run = [] ∧ run' = [] ∨ ∃ blanks ending left,
      (∀ c ∈ blanks, c = ' ' ∨ c = '\t') ∧ run = blanks ++ LineEnd.text ending ++ left ∧
        StrippedRun .lineStart left run' n := by
  induction h with
  | nil => exact .inl ⟨rfl, rfl, rfl⟩
  | text _ inner inside ih =>
    rcases ih with ⟨rfl, -⟩ | ⟨blanks, ending, left, blank, rfl, rest⟩
    · rcases inner with eq | eq <;> cases eq
    · exact .inr ⟨blanks, ending, _, blank, List.append_assoc _ _ _, rest.text inner inside⟩
  | ends _ inner more ih =>
    rcases ih with ⟨rfl, -⟩ | ⟨blanks, ending, left, blank, rfl, rest⟩
    · rcases inner with eq | eq <;> cases eq
    · exact .inr ⟨blanks, ending, _, blank, List.append_assoc _ _ _, rest.ends inner more⟩
  | indent _ inside ih =>
    rcases ih with ⟨eq, -⟩ | ⟨blanks, ending, left, blank, rfl, rest⟩
    · cases eq
    · exact .inr ⟨blanks, ending, _, blank, List.append_assoc _ _ _, rest.indent inside⟩
  | tagEnds _ blank ending ih =>
    rcases ih with ⟨-, rfl, rfl⟩ | ⟨blanks, ending', left, blank', rfl, rest⟩
    · exact .inr ⟨_, ending, [], blank, by simp, .nil⟩
    · rcases rest.of_content (.inl rfl) with ⟨eq, -⟩ | ⟨eq, -⟩ | ⟨eq, -⟩ | ⟨eq, -⟩ <;> cases eq

/-- No raw text stands between blanks before a tag and the tag. -/
theorem of_indented (h : StrippedRun .indented run run' n) :
    n = .indented ∧ run = [] ∧ run' = [] := by
  induction h with
  | nil => exact ⟨rfl, rfl, rfl⟩
  | text _ inner _ ih => rcases inner with eq | eq <;> exact absurd (eq ▸ ih.1) (by simp)
  | ends _ inner _ ih => rcases inner with eq | eq <;> exact absurd (eq ▸ ih.1) (by simp)
  | indent _ _ ih => cases ih.1
  | tagEnds _ _ _ ih => cases ih.1

end StrippedRun

namespace Output

variable {o : Output} {blanks : List Char}

theorem all_isLineBlank (blank : ∀ c ∈ blanks, c = ' ' ∨ c = '\t') :
    blanks.all isLineBlank = true :=
  List.all_eq_true.mpr fun c mem => by
    rcases blank c mem with rfl | rfl <;> rfl

theorem not_mem_blanks (blank : ∀ c ∈ blanks, c = ' ' ∨ c = '\t') : '\n' ∉ blanks := by
  intro mem
  rcases blank _ mem with eq | eq <;> cases eq

theorem undropped_ofList (whole : o.dropBlankLine = false) (text : List Char) :
    o.undropped (String.ofList text) = text := by
  rw [undropped, whole, if_neg Bool.false_ne_true, String.toList_ofList]

/-- Blanks on a line that is blank so far are kept apart. -/
theorem writeInLine_blank (fresh : o.kept = false) (blank : blanks.all isLineBlank = true) :
    o.writeInLine blanks = { o with blanks := blanks.reverse ++ o.blanks } := by
  rw [writeInLine, fresh, blank]
  rfl

/-- Raw text up to a line end and blanks behind it. -/
theorem writeRaw_blank_end (lines : List Char) (blank : ∀ c ∈ blanks, c = ' ' ∨ c = '\t')
    (whole : o.dropBlankLine = false) :
    (o.writeRaw (String.ofList (lines ++ '\n' :: blanks))).kept = false ∧
      (o.writeRaw (String.ofList (lines ++ '\n' :: blanks))).blanks = blanks.reverse ∧
      (o.writeRaw (String.ofList (lines ++ '\n' :: blanks))).markedDone =
        o.marked ++ Origin.template.mark (lines ++ ['\n']) := by
  rw [writeRaw_lines (undropped_ofList whole _) (not_mem_blanks blank),
    writeInLine_blank rfl (all_isLineBlank blank), blanks_endLine, List.append_nil]
  refine ⟨rfl, rfl, ?_⟩
  have done : ({ o with dropBlankLine := false }.keepLine.addRaw (lines ++ ['\n'])).markedDone =
      o.marked ++ Origin.template.mark (lines ++ ['\n']) := by
    rw [markedDone_addRaw, markedDone_keepLine]
    exact congrArg (· ++ _) (o.marked_drop false)
  exact done

/-- Blanks on a line that is blank so far. -/
theorem writeRaw_blanks (blank : ∀ c ∈ blanks, c = ' ' ∨ c = '\t')
    (whole : o.dropBlankLine = false) (fresh : o.kept = false) :
    o.writeRaw (String.ofList blanks) = { o with blanks := blanks.reverse ++ o.blanks } := by
  have same : { o with dropBlankLine := false } = o := by rw [← whole]
  have inLine : '\n' ∉ o.undropped (String.ofList blanks) := by
    rw [undropped_ofList whole]
    exact not_mem_blanks blank
  rw [writeRaw_inLine inLine, undropped_ofList whole, same,
    writeInLine_blank fresh (all_isLineBlank blank)]

/-- The rest of a line that is dropped. -/
theorem writeRaw_tagEnd (blank : ∀ c ∈ blanks, c = ' ' ∨ c = '\t') (ending : LineEnd)
    (drops : o.dropBlankLine = true) (text : List Char) :
    o.writeRaw (String.ofList (blanks ++ ending.text ++ text)) =
      { o with dropBlankLine := false }.writeRaw (String.ofList text) := by
  have line : withoutBlankLine (blanks ++ ending.text ++ text) = text := by
    have inside : ∀ c ∈ blanks, isLineBlank c = true :=
      List.all_eq_true.mp (all_isLineBlank blank)
    unfold withoutBlankLine
    rw [List.append_assoc, List.dropWhile_append_of_pos inside]
    cases ending <;> rfl
  unfold writeRaw
  rw [drops, if_pos rfl, if_neg Bool.false_ne_true, String.toList_ofList, String.toList_ofList,
    line]

/-- Raw text is written, if there is any. -/
def writeRun (o : Output) (run : List Char) : Output :=
  if run.isEmpty then o else o.writeRaw (String.ofList run)

end Output

namespace LineStage

open Output

/-- The output of a template with lines that are trimmed, and that of what is kept of them. -/
structure Holds (stage : LineStage) (o o' : Output) : Prop where
  kept : o'.dropBlankLine = false
  same : o'.marked = match stage with
    | .indented => o.markedDone
    | _ => o.marked
  drops : o.dropBlankLine = match stage with
    | .behindTag => true
    | _ => false
  blank : match stage with
    | .inLine => True
    | .indented => o.kept = false
    | _ => o.kept = false ∧ o.blanks = []

namespace Holds

variable {m n : LineStage} {o o' : Output} {run run' : List Char}

theorem inLine_of_content (h : m.Holds o o') (content : m.IsContent) :
    LineStage.inLine.Holds o o' := by
  rcases content with rfl | rfl
  · exact ⟨h.kept, h.same, h.drops, trivial⟩
  · exact h

theorem writeRun_of_content (h : m.Holds o o') (content : m.IsContent)
    (written : StrippedRun m run run' n) : n.Holds (o.writeRun run) (o'.writeRun run') := by
  have whole : o.dropBlankLine = false := by
    rcases content with rfl | rfl <;> exact h.drops
  have same : o'.marked = o.marked := by
    rcases content with rfl | rfl <;> exact h.same
  have writes {text : List Char} (nonempty : text ≠ []) {o : Output} :
      o.writeRun text = o.writeRaw (String.ofList text) := if_neg (by simpa using nonempty)
  have marked {text : List Char} {o : Output} (whole : o.dropBlankLine = false) :
      (o.writeRaw (String.ofList text)).marked = o.marked ++ Origin.template.mark text := by
    rw [marked_writeRaw, undropped_ofList whole]
  rcases written.of_content content with ⟨rfl, rfl, rfl⟩ | ⟨rfl, rfl⟩ | ⟨rfl, rfl, lines, rfl⟩ |
    ⟨rfl, blanks, rfl, blank, before⟩
  · exact h
  · by_cases empty : run' = []
    · subst empty
      exact h.inLine_of_content content
    · rw [writes empty, writes empty]
      refine ⟨dropBlankLine_writeRaw _ _, ?_, dropBlankLine_writeRaw _ _, trivial⟩
      rw [marked h.kept, same, marked whole]
  · rw [writes (by simp), writes (by simp)]
    have none : ∀ c ∈ ([] : List Char), c = ' ' ∨ c = '\t' := by simp
    obtain ⟨fresh, blanks, done⟩ := writeRaw_blank_end lines none whole
    refine ⟨dropBlankLine_writeRaw _ _, ?_, dropBlankLine_writeRaw _ _, fresh, blanks⟩
    rw [marked h.kept, same, marked whole]
  · rcases before with ⟨rfl, rfl⟩ | ⟨lines, rfl⟩
    · obtain ⟨fresh, none⟩ := h.blank
      have alone : o.writeRun ([] ++ blanks) = { o with blanks := blanks.reverse ++ o.blanks } := by
        cases blanks with
        | nil => rfl
        | cons c blanks => exact (writes (by simp)).trans (writeRaw_blanks blank whole fresh)
      rw [alone]
      refine ⟨h.kept, ?_, whole, fresh⟩
      calc o'.marked = o.marked := same
        _ = o.markedDone := by rw [marked_eq, none, List.reverse_nil, Origin.mark_nil,
              List.append_nil]
    · rw [writes (by simp), writes (by simp), List.append_assoc, List.singleton_append]
      obtain ⟨fresh, -, done⟩ := writeRaw_blank_end lines blank whole
      refine ⟨dropBlankLine_writeRaw _ _, ?_, dropBlankLine_writeRaw _ _, fresh⟩
      rw [marked h.kept, same]
      exact done.symm

/-- Raw text is written on both sides, as far as it is kept. -/
theorem writeRun (h : m.Holds o o') (written : StrippedRun m run run' n) :
    n.Holds (o.writeRun run) (o'.writeRun run') := by
  cases m with
  | lineStart => exact h.writeRun_of_content (.inl rfl) written
  | inLine => exact h.writeRun_of_content (.inr rfl) written
  | indented =>
    obtain ⟨rfl, rfl, rfl⟩ := written.of_indented
    exact h
  | behindTag =>
    rcases written.of_behindTag with ⟨rfl, rfl, rfl⟩ | ⟨blanks, ending, left, blank, rfl, rest⟩
    · exact h
    · obtain ⟨fresh, none⟩ := h.blank
      have ready : LineStage.lineStart.Holds { o with dropBlankLine := false } o' :=
        ⟨h.kept, h.same.trans (o.marked_drop false).symm, rfl, fresh, none⟩
      have some : blanks ++ ending.text ++ left ≠ [] := by
        cases ending <;> simp [LineEnd.text]
      have ends : o.writeRun (blanks ++ ending.text ++ left) =
          { o with dropBlankLine := false }.writeRun left := by
        rw [Output.writeRun, if_neg (by simpa using some), writeRaw_tagEnd blank ending h.drops]
        cases left with
        | nil =>
          have nothing : { o with dropBlankLine := false }.writeRaw (String.ofList []) = _ :=
            writeRaw_blanks (by simp) rfl fresh
          exact nothing
        | cons c left => rfl
      rw [ends]
      exact ready.writeRun_of_content (.inl rfl) rest

/-- A tag drops the blanks before it, and what comes behind it on its line. -/
theorem trimLine (h : m.Holds o o') (tag : m.IsTag) :
    LineStage.behindTag.Holds o.trimLine o' := by
  have fresh : o.kept = false := by
    rcases tag with rfl | rfl
    · exact h.blank
    · exact h.blank.1
  have trimmed : o.trimLine = { o with blanks := [], dropBlankLine := true } :=
    if_neg (by simp [fresh])
  rw [trimmed]
  refine ⟨h.kept, ?_, rfl, fresh, rfl⟩
  have done : { o with blanks := [], dropBlankLine := true }.marked = o.markedDone := by
    rw [marked_eq]
    exact List.append_nil _
  rw [done]
  rcases tag with rfl | rfl
  · exact h.same
  · rw [h.same, marked_eq, h.blank.2]
    exact List.append_nil _

theorem markValue (h : m.Holds o o') (content : m.IsContent) :
    LineStage.inLine.Holds o.markValue o'.markValue := by
  refine ⟨rfl, ?_, rfl, trivial⟩
  rw [marked_markValue, (h.inLine_of_content content).same]
  exact (marked_markValue o).symm

theorem writeValue (h : m.Holds o o') (content : m.IsContent) (text : String)
    (encoder : Encoder) :
    LineStage.inLine.Holds (o.writeValue text encoder) (o'.writeValue text encoder) := by
  refine ⟨rfl, ?_, rfl, trivial⟩
  rw [marked_writeValue, (h.inLine_of_content content).same]
  exact (marked_writeValue o text encoder).symm

end Holds

end LineStage

end Stencil
