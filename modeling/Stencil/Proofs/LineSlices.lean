import Stencil.Proofs.ActiveEncoders
import Stencil.Proofs.Slices

/-!
# Slices of an output at its lines

Raw text is cut behind its first line feed where its first line is dropped, and the output is cut
behind its last line feed where its last line is dropped. The cuts by offset always have a result.
For the second this means that the output keeps apart what stands behind its last line feed, which
is an invariant of rendering (`Output.Lined`).
-/

namespace Stencil

namespace Output

/-- A text without its last line, if that line is blank; cut at an offset. -/
def trimmedAt? (text : List Char) : Option (List Char) := do
  let line ← Text.sliceFrom? text (Text.lineStart text)
  if line.all isLineBlank then Text.sliceTo? text (Text.lineStart text) else some text

/-- Behind lines that end, a last line is cut off if it is blank. -/
theorem trimmedAt?_append {front line : List Char} (ends : front = [] ∨ front.getLast? = some '\n')
    (inLine : '\n' ∉ line) :
    trimmedAt? (front ++ line) = some (if line.all isLineBlank then front else front ++ line) := by
  have start : Text.lineStart (front ++ line) = Text.byteLength front := by
    rcases ends with rfl | ends
    · exact Text.lineStart_of_not_mem inLine
    · obtain ⟨lines, rfl⟩ := List.getLast?_eq_some_iff.mp ends
      rw [List.append_assoc]
      exact Text.lineStart_append inLine
  rw [trimmedAt?, start, Text.sliceFrom?_append, Option.bind_eq_bind, Option.bind_some,
    Text.sliceTo?_append]
  split <;> rfl

/-- As long as there is nothing but blanks of the template on the current line, the lines before
have ended, and the blanks are kept apart of them. -/
structure Lined (o : Output) : Prop where
  ended : o.kept = false →
    o.markedDone.map Prod.fst = [] ∨ (o.markedDone.map Prod.fst).getLast? = some '\n'
  blank : o.BlankLine

namespace Lined

variable {o : Output}

theorem of_kept (kept : o.kept = true) (blank : o.BlankLine) : o.Lined := by
  refine ⟨fun unkept => ?_, blank⟩
  rw [kept] at unkept
  cases unkept

theorem kept_addRaw (o : Output) (text : List Char) : (o.addRaw text).kept = o.kept := by
  unfold addRaw
  split <;> rfl

theorem writeInLine (h : o.Lined) (text : List Char) : (o.writeInLine text).Lined := by
  have blank := h.blank.writeInLine text
  unfold Output.writeInLine at blank ⊢
  split
  · rename_i unkept
    rw [if_pos unkept] at blank
    exact ⟨h.ended, blank⟩
  · rename_i other
    rw [if_neg other] at blank
    exact of_kept (kept_addRaw _ _) blank

/-- A line that ends is among the lines before. -/
theorem endLine (o : Output) (lines : List Char) : (o.endLine (lines ++ ['\n'])).Lined := by
  refine ⟨fun _ => .inr ?_, fun c mem => ?_⟩
  · have done : (o.endLine (lines ++ ['\n'])).markedDone =
        o.keepLine.markedDone ++ Origin.template.mark (lines ++ ['\n']) :=
      o.keepLine.markedDone_addRaw _
    rw [done, List.map_append, Origin.map_fst_mark, ← List.append_assoc, List.getLast?_concat]
  · rw [blanks_endLine] at mem
    cases mem

theorem writeRaw (h : o.Lined) (text : String) : (o.writeRaw text).Lined := by
  rcases exists_last_line (o.undropped text) with inLine | ⟨lines, last, parts, none⟩
  · rw [writeRaw_inLine inLine]
    exact Lined.writeInLine (o := { o with dropBlankLine := false }) ⟨h.ended, h.blank⟩ _
  · rw [writeRaw_lines parts none]
    exact (endLine _ lines).writeInLine last

theorem markValue (o : Output) : o.markValue.Lined := by
  refine of_kept rfl fun c mem => ?_
  cases mem

theorem writeValue (o : Output) (text : String) (encoder : Encoder) :
    (o.writeValue text encoder).Lined := by
  refine of_kept rfl fun c mem => ?_
  cases mem

theorem trimLine (h : o.Lined) : o.trimLine.Lined := by
  unfold Output.trimLine
  split
  · exact h
  · refine ⟨h.ended, fun c mem => ?_⟩
    cases mem

/-- The cut of an output gives the output without the blanks of its current line. -/
theorem trimmedAt? (h : o.Lined) (unkept : o.kept = false) :
    trimmedAt? o.text.toList = some o.trimLine.text.toList := by
  have blanks : o.blanks.reverse.all isLineBlank = true :=
    List.all_eq_true.mpr fun c mem => h.blank c (List.mem_reverse.mp mem)
  have inLine : '\n' ∉ o.blanks.reverse := fun mem =>
    absurd (h.blank _ (List.mem_reverse.mp mem)) (by decide)
  have before : o.text.toList = o.markedDone.map Prod.fst ++ o.blanks.reverse := by
    rw [toList_text, marked_eq, List.map_append, Origin.map_fst_mark]
  have behind : o.trimLine.text.toList = o.markedDone.map Prod.fst := by
    have trimmed : o.trimLine = { o with blanks := [], dropBlankLine := true } := by
      rw [Output.trimLine, if_neg (by simp [unkept])]
    rw [trimmed, toList_text, marked_eq]
    exact congrArg (List.map Prod.fst) (List.append_nil _)
  rw [before, behind, trimmedAt?_append (h.ended unkept) inLine, if_pos blanks]

end Lined

end Output

namespace Rendering

end Rendering

end Stencil
