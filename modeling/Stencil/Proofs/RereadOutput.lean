import Stencil.Proofs.OutputMarks
import Stencil.Proofs.ReadingOn

/-!
# Output with values in place of raw text

Two outputs that coincide hold the same text and treat the current line in the same way, whatever
the text comes from. They coincide on through every way of writing, so it does not matter if the
first character of raw text is written as a value: it is none that could be trimmed.
-/

namespace Stencil

theorem ne_of_goesOn {c d : Char} (goesOn : extendsTag c = true) (stops : extendsTag d = false) :
    c ≠ d := by
  rintro rfl
  rw [stops] at goesOn
  cases goesOn

/-- The characters that may go on with a tag stay as they are. -/
def Encoder.Plain (encoder : Encoder) : Prop :=
  ∀ c, extendsTag c = true → encoder (String.ofList [c]) = String.ofList [c]

theorem Encoder.plain_identity : identity.Plain := fun _ _ => rfl

theorem Encoder.plain_html : html.Plain := by
  intro c goesOn
  have same : htmlChar c = [c] := by
    unfold htmlChar
    rw [if_neg (ne_of_goesOn goesOn rfl), if_neg (ne_of_goesOn goesOn rfl),
      if_neg (ne_of_goesOn goesOn rfl), if_neg (ne_of_goesOn goesOn rfl),
      if_neg (ne_of_goesOn goesOn rfl)]
  rw [html, String.toList_ofList, List.flatMap_singleton, same]

namespace Output

/-- The same text has been written, and the current line stands alike. -/
structure Coincides (o o' : Output) : Prop where
  text : o'.marked.map Prod.fst = o.marked.map Prod.fst
  blanks : o'.blanks = o.blanks
  kept : o'.kept = o.kept
  drops : o'.dropBlankLine = o.dropBlankLine

/-- Raw text that is not blank is written out with the blanks before it. -/
theorem writeInLine_kept {o : Output} {text : List Char}
    (kept : o.kept = true ∨ text.all isLineBlank = false) :
    o.writeInLine text = o.keepLine.addRaw text := by
  refine if_neg ?_
  rcases kept with kept | some
  · simp [kept]
  · simp [some]

theorem kept_addRaw (o : Output) (text : List Char) : (o.addRaw text).kept = o.kept := by
  unfold addRaw
  split <;> rfl

namespace Coincides

variable {o o' : Output}

theorem trans {o'' : Output} (h : Coincides o o') (more : Coincides o' o'') : Coincides o o'' :=
  ⟨more.text.trans h.text, more.blanks.trans h.blanks, more.kept.trans h.kept,
    more.drops.trans h.drops⟩

/-- The rest of the line is no longer dropped. -/
theorem undrop (h : Coincides o o') :
    Coincides { o with dropBlankLine := false } { o' with dropBlankLine := false } := by
  refine ⟨?_, h.blanks, h.kept, rfl⟩
  rw [marked_drop o, marked_drop o', h.text]

theorem writeInLine (h : Coincides o o') (text : List Char) :
    Coincides (o.writeInLine text) (o'.writeInLine text) := by
  refine ⟨?_, ?_, ?_, ?_⟩
  · rw [marked_writeInLine, marked_writeInLine, List.map_append, List.map_append, h.text]
  · unfold Output.writeInLine
    rw [h.kept, h.blanks]
    split
    · rfl
    · rw [blanks_addRaw, blanks_addRaw]
      rfl
  · unfold Output.writeInLine
    rw [h.kept]
    split
    · rfl
    · rw [kept_addRaw, kept_addRaw]
      rfl
  · rw [dropBlankLine_writeInLine, dropBlankLine_writeInLine, h.drops]

theorem endLine (h : Coincides o o') (finished : List Char) :
    Coincides (o.endLine finished) (o'.endLine finished) := by
  refine ⟨?_, ?_, rfl, ?_⟩
  · rw [marked_endLine, marked_endLine, List.map_append, List.map_append, h.text]
  · rw [blanks_endLine, blanks_endLine]
  · rw [dropBlankLine_endLine, dropBlankLine_endLine, h.drops]

theorem writeRaw (h : Coincides o o') (text : String) :
    Coincides (o.writeRaw text) (o'.writeRaw text) := by
  have same : o'.undropped text = o.undropped text := by rw [undropped, undropped, h.drops]
  rcases exists_last_line (o.undropped text) with inLine | ⟨lines, last, parts, none⟩
  · rw [writeRaw_inLine inLine, writeRaw_inLine (by rwa [same]), same]
    exact h.undrop.writeInLine _
  · rw [writeRaw_lines parts none, writeRaw_lines (same.trans parts) none]
    exact (h.undrop.endLine _).writeInLine _

theorem markValue (h : Coincides o o') : Coincides o.markValue o'.markValue := by
  refine ⟨?_, rfl, rfl, rfl⟩
  rw [marked_markValue, marked_markValue, h.text]

theorem writeValue (h : Coincides o o') (text : String) (encoder : Encoder) :
    Coincides (o.writeValue text encoder) (o'.writeValue text encoder) := by
  refine ⟨?_, rfl, rfl, rfl⟩
  rw [marked_writeValue, marked_writeValue, List.map_append, List.map_append, h.text]

theorem trimLine (h : Coincides o o') : Coincides o.trimLine o'.trimLine := by
  unfold Output.trimLine
  rw [h.kept]
  split
  · exact h
  · refine ⟨?_, rfl, rfl, rfl⟩
    have line := h.text
    rw [marked_eq, marked_eq, h.blanks, List.map_append, List.map_append] at line
    have before : o'.markedDone.map Prod.fst = o.markedDone.map Prod.fst :=
      List.append_cancel_right line
    rw [marked_eq, marked_eq, List.map_append, List.map_append]
    exact congrArg (· ++ []) before

end Coincides

variable {c : Char}

/-- A character that may go on with a tag is neither a blank nor a line end. -/
theorem not_blank_of_goesOn (goesOn : extendsTag c = true) :
    isLineBlank c = false ∧ c ≠ '\n' := by
  refine ⟨?_, ne_of_goesOn goesOn rfl⟩
  have space : c ≠ ' ' := ne_of_goesOn goesOn rfl
  have tab : c ≠ '\t' := ne_of_goesOn goesOn rfl
  have carriage : c ≠ '\r' := ne_of_goesOn goesOn rfl
  simp [isLineBlank, space, tab, carriage]

/-- The first character of raw text may be written as a value. -/
theorem coincides_bare (goesOn : extendsTag c = true) {encoder : Encoder} (plain : encoder.Plain)
    (o : Output) (rest : List Char) :
    Coincides (o.writeRaw (String.ofList (c :: rest)))
      ((o.writeValue (String.ofList [c]) encoder).writeRaw (String.ofList rest)) := by
  obtain ⟨notBlank, notEnd⟩ := not_blank_of_goesOn goesOn
  let v := o.writeValue (String.ofList [c]) encoder
  have written : v.marked.map Prod.fst = o.marked.map Prod.fst ++ [c] := by
    rw [marked_writeValue, plain c goesOn, List.map_append, Origin.map_fst_mark,
      String.toList_ofList]
  have whole : o.undropped (String.ofList (c :: rest)) = c :: rest := by
    unfold undropped withoutBlankLine
    rw [String.toList_ofList, List.dropWhile_cons_of_neg (by simp [notBlank])]
    split
    · split
      · rename_i eq
        exact absurd (List.cons.inj eq).1 notEnd
      · rfl
    · rfl
  have left : v.undropped (String.ofList rest) = rest := String.toList_ofList
  rcases exists_last_line rest with inLine | ⟨lines, last, rfl, none⟩
  · have outside : '\n' ∉ c :: rest := by simp [Ne.symm notEnd, inLine]
    rw [writeRaw_inLine (by rwa [whole]), writeRaw_inLine (by rwa [left]), whole, left]
    refine ⟨?_, ?_, ?_, ?_⟩
    · rw [marked_writeInLine, marked_writeInLine, marked_drop o, marked_drop v, List.map_append,
        List.map_append, written, Origin.map_fst_mark, Origin.map_fst_mark, List.append_assoc,
        List.singleton_append]
    · rw [writeInLine_kept (.inl rfl), writeInLine_kept (.inr (by simp [notBlank])),
        blanks_addRaw, blanks_addRaw]
      rfl
    · rw [writeInLine_kept (.inl rfl), writeInLine_kept (.inr (by simp [notBlank])),
        kept_addRaw, kept_addRaw]
      rfl
    · rw [dropBlankLine_writeInLine, dropBlankLine_writeInLine]
  · rw [writeRaw_lines (whole.trans (List.cons_append ..).symm) none, writeRaw_lines left none]
    have ends : Coincides ({ o with dropBlankLine := false }.endLine (c :: lines ++ ['\n']))
        ({ v with dropBlankLine := false }.endLine (lines ++ ['\n'])) := by
      refine ⟨?_, ?_, rfl, ?_⟩
      · rw [marked_endLine, marked_endLine, marked_drop o, marked_drop v, List.map_append,
          List.map_append, written, Origin.map_fst_mark, Origin.map_fst_mark, List.append_assoc]
        rfl
      · rw [blanks_endLine, blanks_endLine]
      · rw [dropBlankLine_endLine, dropBlankLine_endLine]
    exact ends.writeInLine last

end Output

end Stencil
