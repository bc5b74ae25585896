import Stencil.Render.Output
import Mathlib.Data.List.TakeWhile

/-!
# What output is made of

The characters of an output, each with its origin: text of the template, or the text of a value.
Every way of writing appends to them; only the end of a line that is trimmed takes some away, and
these are blanks of the template.
-/

namespace Stencil

/-- Where a character of an output comes from. -/
inductive Origin
  | template
  | value
  deriving DecidableEq

namespace Origin

/-- A text all of one origin. -/
def mark (origin : Origin) (text : List Char) : List (Char × Origin) := text.map (·, origin)

@[simp]
theorem mark_nil (origin : Origin) : origin.mark [] = [] := rfl

@[simp]
theorem mark_append (origin : Origin) (text more : List Char) :
    origin.mark (text ++ more) = origin.mark text ++ origin.mark more := List.map_append

@[simp]
theorem map_fst_mark (origin : Origin) (text : List Char) :
    (origin.mark text).map Prod.fst = text := by
  simp [mark, Function.comp_def]

end Origin

/-- The characters of a piece with their origin. -/
def Piece.marked : Piece → List (Char × Origin)
  | raw text => Origin.template.mark text.toList
  | value text encoder => Origin.value.mark (encoder text).toList

theorem Piece.map_fst_marked (piece : Piece) : piece.marked.map Prod.fst = piece.text.toList := by
  cases piece <;> exact Origin.map_fst_mark _ _

/-- What may stand on a line that is dropped, and ends it. -/
def Output.isTrimmed (c : Char) : Bool := isLineBlank c || c == '\n'

/-- Characters of the template that may be trimmed are deleted from a text with origins. -/
inductive Trims : (written left : List (Char × Origin)) → Prop
  | nil : Trims [] []
  | keep {written left : List (Char × Origin)} (c : Char × Origin) (h : Trims written left) :
      Trims (c :: written) (c :: left)
  | drop {written left : List (Char × Origin)} {c : Char} (blank : Output.isTrimmed c = true)
      (h : Trims written left) : Trims ((c, .template) :: written) left

namespace Trims

variable {written written' left left' : List (Char × Origin)}

theorem refl (written : List (Char × Origin)) : Trims written written := by
  induction written with
  | nil => exact .nil
  | cons c _ ih => exact .keep c ih

/-- The text of values is all there. -/
theorem values_eq (h : Trims written left) :
    left.filter (·.2 == .value) = written.filter (·.2 == .value) := by
  induction h with
  | nil => rfl
  | keep c _ ih => simp only [List.filter_cons, ih]
  | drop _ _ ih => simpa [List.filter_cons] using ih

theorem append (h : Trims written left) (more : Trims written' left') :
    Trims (written ++ written') (left ++ left') := by
  induction h with
  | nil => exact more
  | keep c _ ih => exact .keep c ih
  | drop blank _ ih => exact .drop blank ih

theorem dropAll {text : List Char} (blank : ∀ c ∈ text, Output.isTrimmed c = true) :
    Trims (Origin.template.mark text) [] := by
  induction text with
  | nil => exact .nil
  | cons c text ih =>
    exact .drop (blank c List.mem_cons_self) (ih fun d mem => blank d (.tail _ mem))

theorem trans {fewer : List (Char × Origin)} (h : Trims written left) (more : Trims left fewer) :
    Trims written fewer := by
  induction h generalizing fewer with
  | nil => exact more
  | keep c _ ih =>
    cases more with
    | keep _ more => exact .keep c (ih more)
    | drop blank more => exact .drop blank (ih more)
  | drop blank _ ih => exact .drop blank (ih more)

end Trims

namespace Output

theorem isTrimmed_of_isLineBlank {c : Char} (h : isLineBlank c = true) : isTrimmed c = true := by
  rw [isTrimmed, h]
  rfl

/-- A first line that is dropped consists of blanks and its end. -/
theorem trims_withoutBlankLine (text : List Char) :
    Trims (Origin.template.mark text) (Origin.template.mark (withoutBlankLine text)) := by
  unfold withoutBlankLine
  split
  · rename_i rest ended
    have blank : ∀ c ∈ text.takeWhile isLineBlank ++ ['\n'], isTrimmed c = true := by
      intro c mem
      rcases List.mem_append.mp mem with mem | mem
      · exact isTrimmed_of_isLineBlank (List.all_eq_true.mp List.all_takeWhile c mem)
      · rw [List.mem_singleton.mp mem]
        rfl
    have parts : text = (text.takeWhile isLineBlank ++ ['\n']) ++ rest := by
      rw [List.append_assoc, List.singleton_append, ← ended, List.takeWhile_append_dropWhile]
    rw [parts, Origin.mark_append]
    have trims := (Trims.dropAll blank).append (Trims.refl (Origin.template.mark rest))
    simpa [← parts] using trims
  · exact .refl _

/-- All characters that have been written, with their origin. -/
def marked (o : Output) : List (Char × Origin) := o.pieces.flatMap Piece.marked

theorem toList_text (o : Output) : o.text.toList = o.marked.map Prod.fst := by
  simp only [text, marked, String.toList_join, List.map_flatMap, List.flatMap_map]
  congr 1
  funext piece
  exact piece.map_fst_marked.symm

/-- The characters of finished pieces. -/
def markedDone (o : Output) : List (Char × Origin) := o.done.reverse.flatMap Piece.marked

theorem markedDone_addRaw (o : Output) (text : List Char) :
    (o.addRaw text).markedDone = o.markedDone ++ Origin.template.mark text := by
  unfold addRaw
  split
  · rename_i empty
    simp [List.isEmpty_iff.mp empty]
  · simp [markedDone, Piece.marked]

theorem marked_eq (o : Output) :
    o.marked = o.markedDone ++ Origin.template.mark o.blanks.reverse :=
  o.markedDone_addRaw o.blanks.reverse

/-- Only the pieces and the blanks count. -/
theorem marked_congr {o o' : Output} (done : o'.done = o.done) (blanks : o'.blanks = o.blanks) :
    o'.marked = o.marked := by
  rw [marked_eq, marked_eq, markedDone, markedDone, done, blanks]

/-- It does not count if the rest of the line is dropped. -/
theorem marked_drop (o : Output) (drop : Bool) :
    { o with dropBlankLine := drop }.marked = o.marked :=
  marked_congr rfl rfl

theorem blanks_addRaw (o : Output) (text : List Char) : (o.addRaw text).blanks = o.blanks := by
  unfold addRaw
  split <;> rfl

theorem dropBlankLine_addRaw (o : Output) (text : List Char) :
    (o.addRaw text).dropBlankLine = o.dropBlankLine := by
  unfold addRaw
  split <;> rfl

theorem markedDone_keepLine (o : Output) : o.keepLine.markedDone = o.marked := by
  rw [marked_eq, ← markedDone_addRaw]
  rfl

@[simp]
theorem marked_keepLine (o : Output) : o.keepLine.marked = o.marked := by
  rw [marked_eq o.keepLine, markedDone_keepLine]
  exact List.append_nil _

theorem dropBlankLine_keepLine (o : Output) : o.keepLine.dropBlankLine = o.dropBlankLine :=
  o.dropBlankLine_addRaw _

theorem marked_addRaw {o : Output} (none : o.blanks = []) (text : List Char) :
    (o.addRaw text).marked = o.marked ++ Origin.template.mark text := by
  simp [marked_eq, markedDone_addRaw, blanks_addRaw, none]

@[simp]
theorem marked_writeInLine (o : Output) (text : List Char) :
    (o.writeInLine text).marked = o.marked ++ Origin.template.mark text := by
  unfold writeInLine
  split
  · simp [marked_eq, markedDone]
  · rw [marked_addRaw rfl, marked_keepLine]

theorem dropBlankLine_writeInLine (o : Output) (text : List Char) :
    (o.writeInLine text).dropBlankLine = o.dropBlankLine := by
  unfold writeInLine
  split
  · rfl
  · rw [dropBlankLine_addRaw, dropBlankLine_keepLine]

/-- The characters of raw text that are not dropped. -/
def undropped (o : Output) (text : String) : List Char :=
  if o.dropBlankLine then withoutBlankLine text.toList else text.toList

/-- Writes the rest of the current line with its end, and maybe more lines. -/
def endLine (o : Output) (finished : List Char) : Output :=
  { o.keepLine.addRaw finished with kept := false }

/-- The last line of a text, if there is more than one. -/
theorem exists_last_line (text : List Char) :
    '\n' ∉ text ∨ ∃ lines last, text = lines ++ '\n' :: last ∧ '\n' ∉ last := by
  by_cases ends : '\n' ∈ text
  · obtain ⟨last, lines, parts, none⟩ :=
      List.eq_append_cons_of_mem (List.mem_reverse.mpr ends)
    refine .inr ⟨lines.reverse, last.reverse, ?_, by simpa using none⟩
    rw [← List.reverse_reverse text, parts]
    simp
  · exact .inl ends

theorem writeRaw_inLine {o : Output} {text : String} (inLine : '\n' ∉ o.undropped text) :
    o.writeRaw text = { o with dropBlankLine := false }.writeInLine (o.undropped text) := by
  have inside : ∀ c ∈ (o.undropped text).reverse, (c != '\n') = true := fun c mem =>
    bne_iff_ne.mpr fun eq => inLine (List.mem_reverse.mp (eq ▸ mem))
  have none : (o.undropped text).reverse.dropWhile (· != '\n') = [] :=
    List.dropWhile_eq_nil_iff.mpr inside
  unfold undropped at none ⊢
  simp only [writeRaw, none]

theorem writeRaw_lines {o : Output} {text : String} {lines last : List Char}
    (parts : o.undropped text = lines ++ '\n' :: last) (none : '\n' ∉ last) :
    o.writeRaw text =
      ({ o with dropBlankLine := false }.endLine (lines ++ ['\n'])).writeInLine last := by
  have inside : ∀ c ∈ last.reverse, (c != '\n') = true := fun c mem =>
    bne_iff_ne.mpr fun eq => none (List.mem_reverse.mp (eq ▸ mem))
  have backwards : (o.undropped text).reverse = last.reverse ++ '\n' :: lines.reverse := by
    simp [parts]
  unfold undropped at backwards
  simp only [writeRaw, backwards, List.takeWhile_append_of_pos inside,
    List.dropWhile_append_of_pos inside]
  simp [endLine]

theorem blanks_endLine (o : Output) (finished : List Char) : (o.endLine finished).blanks = [] :=
  o.keepLine.blanks_addRaw _

theorem dropBlankLine_endLine (o : Output) (finished : List Char) :
    (o.endLine finished).dropBlankLine = o.dropBlankLine :=
  (o.keepLine.dropBlankLine_addRaw _).trans o.dropBlankLine_keepLine

@[simp]
theorem marked_endLine (o : Output) (finished : List Char) :
    (o.endLine finished).marked = o.marked ++ Origin.template.mark finished := by
  have same : (o.endLine finished).marked = (o.keepLine.addRaw finished).marked :=
    marked_congr rfl rfl
  rw [same, marked_addRaw rfl, marked_keepLine]

/-- Raw text is appended, without its first line where that is dropped. -/
theorem marked_writeRaw (o : Output) (text : String) :
    (o.writeRaw text).marked = o.marked ++ Origin.template.mark (o.undropped text) := by
  rcases exists_last_line (o.undropped text) with inLine | ⟨lines, last, parts, none⟩
  · rw [writeRaw_inLine inLine, marked_writeInLine, marked_drop]
  · rw [writeRaw_lines parts none, marked_writeInLine, marked_endLine, marked_drop, parts,
      List.append_assoc, ← Origin.mark_append, List.append_assoc, List.singleton_append]

theorem dropBlankLine_writeRaw (o : Output) (text : String) :
    (o.writeRaw text).dropBlankLine = false := by
  rcases exists_last_line (o.undropped text) with inLine | ⟨lines, last, parts, none⟩
  · rw [writeRaw_inLine inLine, dropBlankLine_writeInLine]
  · rw [writeRaw_lines parts none, dropBlankLine_writeInLine, dropBlankLine_endLine]

@[simp]
theorem marked_markValue (o : Output) : o.markValue.marked = o.marked :=
  (marked_congr rfl rfl).trans o.marked_keepLine

/-- The text of a value is appended. -/
theorem marked_writeValue (o : Output) (text : String) (encoder : Encoder) :
    (o.writeValue text encoder).marked =
      o.marked ++ Origin.value.mark (encoder text).toList := by
  have done : (o.writeValue text encoder).markedDone =
      o.markValue.markedDone ++ Origin.value.mark (encoder text).toList := by
    simp [markedDone, writeValue, Piece.marked]
  calc (o.writeValue text encoder).marked
      = (o.writeValue text encoder).markedDone := by
        rw [marked_eq]
        exact List.append_nil _
    _ = o.marked ++ Origin.value.mark (encoder text).toList := by
        rw [done]
        exact congrArg (· ++ _) o.markedDone_keepLine

/-- What is kept apart of the current line is blank. -/
def BlankLine (o : Output) : Prop := ∀ c ∈ o.blanks, isLineBlank c = true

theorem BlankLine.keepLine (o : Output) : o.keepLine.BlankLine := by
  intro c mem
  cases mem

theorem BlankLine.writeInLine {o : Output} (h : o.BlankLine) (text : List Char) :
    (o.writeInLine text).BlankLine := by
  unfold Output.writeInLine
  split
  · rename_i blank
    have inside := List.all_eq_true.mp (Bool.and_eq_true_iff.mp blank).2
    intro c mem
    rcases List.mem_append.mp mem with mem | mem
    · exact inside c (List.mem_reverse.mp mem)
    · exact h c mem
  · intro c mem
    rw [blanks_addRaw] at mem
    cases mem

theorem BlankLine.writeRaw {o : Output} (h : o.BlankLine) (text : String) :
    (o.writeRaw text).BlankLine := by
  rcases exists_last_line (o.undropped text) with inLine | ⟨lines, last, parts, none⟩
  · rw [writeRaw_inLine inLine]
    exact BlankLine.writeInLine (o := { o with dropBlankLine := false }) h _
  · rw [writeRaw_lines parts none]
    refine BlankLine.writeInLine (fun c mem => ?_) _
    rw [blanks_endLine] at mem
    cases mem

/-- A line that is dropped was blank. -/
theorem trims_trimLine {o : Output} (h : o.BlankLine) : Trims o.marked o.trimLine.marked := by
  unfold trimLine
  split
  · exact .refl _
  · rw [marked_eq, marked_eq]
    refine (Trims.refl _).append (Trims.dropAll fun c mem => ?_)
    exact isTrimmed_of_isLineBlank (h c (List.mem_reverse.mp mem))

theorem BlankLine.trimLine {o : Output} (h : o.BlankLine) : o.trimLine.BlankLine := by
  unfold Output.trimLine
  split
  · exact h
  · intro c mem
    cases mem

end Output

end Stencil
