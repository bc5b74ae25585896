import Stencil.Proofs.OutputMarks
import Stencil.Proofs.ParallelWalks

/-!
# What the trimming of lines takes away

A rendering with and without the trimming of lines. The two walks go through the same states, and
the output of the one that trims is that of the other without some blanks of the template
(`Rendering.trimming_deletes_blanks`).
-/

namespace Stencil

namespace Output

/-- The first output is not trimmed; the second is, and lacks only blanks of the template. -/
structure TrimsTo (o o' : Output) : Prop where
  whole : o.dropBlankLine = false
  blank : o'.BlankLine
  trims : Trims o.marked o'.marked

namespace TrimsTo

variable {o o' : Output}

theorem writeRaw (h : TrimsTo o o') (text : String) :
    TrimsTo (o.writeRaw text) (o'.writeRaw text) := by
  refine ⟨o.dropBlankLine_writeRaw text, h.blank.writeRaw text, ?_⟩
  have all : o.undropped text = text.toList := by rw [undropped, h.whole, if_neg Bool.false_ne_true]
  have fewer : Trims (Origin.template.mark text.toList)
      (Origin.template.mark (o'.undropped text)) := by
    unfold undropped
    split
    · exact trims_withoutBlankLine _
    · exact .refl _
  rw [marked_writeRaw, marked_writeRaw, all]
  exact h.trims.append fewer

theorem markValue (h : TrimsTo o o') : TrimsTo o.markValue o'.markValue := by
  refine ⟨rfl, BlankLine.keepLine o', ?_⟩
  rw [marked_markValue, marked_markValue]
  exact h.trims

theorem writeValue (h : TrimsTo o o') (text : String) (encoder : Encoder) :
    TrimsTo (o.writeValue text encoder) (o'.writeValue text encoder) := by
  refine ⟨rfl, BlankLine.keepLine o', ?_⟩
  rw [marked_writeValue, marked_writeValue]
  exact h.trims.append (.refl _)

theorem trimLine (h : TrimsTo o o') : TrimsTo o o'.trimLine :=
  ⟨h.whole, h.blank.trimLine, h.trims.trans (trims_trimLine h.blank)⟩

end TrimsTo

end Output

namespace Rendering

/-- The same rendering with lines trimmed or not. -/
def withTrimming (r : Rendering) (trimBlockLines : Bool) : Rendering :=
  { r with config := { r.config with trimBlockLines } }

variable (r : Rendering)

theorem sharesData_withTrimming (first second : Bool) :
    (r.withTrimming first).SharesData (r.withTrimming second) := ⟨rfl, rfl, rfl, rfl, rfl⟩

/-- Trimming deletes at the end of a line, and writing goes on alike. -/
theorem keeps_trimsTo : (r.withTrimming false).Keeps (r.withTrimming true) Output.TrimsTo where
  writeRaw text h := h.writeRaw text
  markValue h := h.markValue
  writeValue text encoder h := h.writeValue text encoder
  trimLine h := ⟨h.frames, h.errors, h.exhausted, h.output.trimLine⟩

theorem walk_withTrimming (encoder : Encoder) :
    ((r.withTrimming false).walk encoder).Alike Output.TrimsTo
      ((r.withTrimming true).walk encoder) := by
  have empty : Output.TrimsTo {} {} := ⟨rfl, by rintro c ⟨⟩, .refl _⟩
  exact r.keeps_trimsTo.walk (r.sharesData_withTrimming false true) (.refl r.template) encoder empty

/-- Trimming deletes only blanks of the template. With and without the trimming of lines, a
rendering either fails with the same error, or it succeeds both times. Then what is written with
trimming follows from what is written without by deleting spaces, tabs, carriage returns and line
feeds that are text of the template. The text of values is kept, whatever it consists of. -/
theorem trimming_deletes_blanks (encoder : Encoder) :
    (∃ e, (r.withTrimming false).render encoder = .error e ∧
      (r.withTrimming true).render encoder = .error e) ∨
    ∃ whole trimmed, (r.withTrimming false).render encoder = .ok whole ∧
      (r.withTrimming true).render encoder = .ok trimmed ∧
      whole.toList = ((r.withTrimming false).walk encoder).output.marked.map Prod.fst ∧
      trimmed.toList = ((r.withTrimming true).walk encoder).output.marked.map Prod.fst ∧
      Trims ((r.withTrimming false).walk encoder).output.marked
        ((r.withTrimming true).walk encoder).output.marked ∧
      ((r.withTrimming true).walk encoder).output.marked.filter (·.2 == .value) =
        ((r.withTrimming false).walk encoder).output.marked.filter (·.2 == .value) := by
  have alike := r.walk_withTrimming encoder
  have fatal := (r.sharesData_withTrimming false true).fatal? alike
  have room : (r.withTrimming true).room = (r.withTrimming false).room := rfl
  unfold render
  simp only [alike.exhausted, fatal, room]
  split
  · exact .inl ⟨_, rfl, rfl⟩
  · split
    · exact .inl ⟨_, rfl, rfl⟩
    · have trims := alike.output.trims
      exact .inr ⟨_, _, rfl, rfl, Output.toList_text _, Output.toList_text _, trims,
        trims.values_eq⟩

end Rendering

end Stencil
