import Stencil.Proofs.RereadOutput
import Stencil.Proofs.StepOutput
import Stencil.Proofs.StrippedOutput
import Stencil.Template.Basic

/-!
# Where on a line a walk stands

The nodes of a table tell, as far as they can be known without data, whether something stands on the
line that is written when the walk has come behind them. Where it does, or where nothing stands on
the line at all and text follows, trimming the line changes nothing.
-/

namespace Stencil

/-- What is known of the line that is written. -/
inductive LinePosition
  /-- Nothing stands on it. -/
  | lineStart
  /-- Something stands on it that is kept. -/
  | inLine
  | anywhere
  deriving DecidableEq

namespace LinePosition

/-- Behind raw text. -/
def afterText (p : LinePosition) (text : List Char) : LinePosition :=
  let backwards := text.reverse.takeWhile (· != '\n')
  if !backwards.all Output.isLineBlank then inLine
  else if text.contains '\n' then (if backwards.isEmpty then lineStart else anywhere)
  else if text.isEmpty || p == inLine then p else anywhere

/-- Behind a node and its body. What bodies write is not known. -/
def after (p : LinePosition) : Node → LinePosition
  | .raw text => p.afterText text.toList
  | .output _ | .inline _ _ => inLine
  | .declare .. | .assign .. | .define .. | .scope _ => p
  | .evaluate .. | .block .. | .encode .. => anywhere

/-- Behind nodes. -/
def afterAll (p : LinePosition) (nodes : List Node) : LinePosition := nodes.foldl after p

/-- An output stands there. -/
def Holds : LinePosition → Output → Prop
  | lineStart, o => o.kept = false ∧ o.blanks = []
  | inLine, o => o.kept = true
  | anywhere, _ => True

end LinePosition

namespace Output

variable {o o' : Output}

/-- Blanks are kept apart, and the rest of a line is dropped, only as long as nothing else stands on
the line. -/
structure Tidy (o : Output) : Prop where
  kept : o.kept = true → o.blanks = [] ∧ o.dropBlankLine = false
  drops : o.dropBlankLine = true → o.blanks = []

theorem Tidy.not_kept (h : o.Tidy) (drops : o.dropBlankLine = true) : o.kept = false := by
  cases kept : o.kept with
  | false => rfl
  | true =>
    rw [(h.kept kept).2] at drops
    cases drops

theorem kept_writeInLine (text : List Char) :
    (o.writeInLine text).kept = (o.kept || !text.all isLineBlank) := by
  unfold writeInLine
  cases kept : o.kept with
  | false =>
    cases blank : text.all isLineBlank with
    | true => rfl
    | false =>
      show (o.keepLine.addRaw text).kept = true
      rw [kept_addRaw]
      rfl
  | true =>
    show (o.keepLine.addRaw text).kept = true
    rw [kept_addRaw]
    rfl

theorem blanks_writeInLine (text : List Char) : (o.writeInLine text).blanks =
    if (o.writeInLine text).kept then [] else text.reverse ++ o.blanks := by
  rw [kept_writeInLine]
  unfold writeInLine
  cases kept : o.kept with
  | false =>
    cases blank : text.all isLineBlank with
    | true => rfl
    | false => exact o.keepLine.blanks_addRaw text
  | true => exact o.keepLine.blanks_addRaw text

theorem Tidy.writeInLine (whole : o.dropBlankLine = false) (text : List Char) :
    (o.writeInLine text).Tidy := by
  have same := (o.dropBlankLine_writeInLine text).trans whole
  constructor
  · intro kept
    rw [blanks_writeInLine, kept]
    exact ⟨rfl, same⟩
  · intro drops
    rw [same] at drops
    cases drops

theorem Tidy.writeRaw (o : Output) (text : String) : (o.writeRaw text).Tidy := by
  rcases exists_last_line (o.undropped text) with inLine | ⟨lines, last, parts, none⟩
  · rw [writeRaw_inLine inLine]
    exact .writeInLine rfl _
  · rw [writeRaw_lines parts none]
    exact .writeInLine (dropBlankLine_endLine _ _) _

theorem Tidy.markValue (o : Output) : o.markValue.Tidy :=
  ⟨fun _ => ⟨rfl, rfl⟩, by rintro ⟨⟩⟩

theorem Tidy.writeValue (o : Output) (text : String) (encoder : Encoder) :
    (o.writeValue text encoder).Tidy :=
  ⟨fun _ => ⟨rfl, rfl⟩, by rintro ⟨⟩⟩

theorem Tidy.trimLine (h : o.Tidy) : o.trimLine.Tidy := by
  unfold Output.trimLine
  split
  · exact h
  · rename_i fresh
    exact ⟨fun kept => absurd kept fresh, fun _ => rfl⟩

theorem trimLine_of_kept (kept : o.kept = true) : o.trimLine = o := if_pos kept

/-- The output of a rendering that trims lines or does not. -/
structure Orderly (trims : Bool) (o : Output) : Prop where
  tidy : o.Tidy
  whole : trims = false → o.dropBlankLine = false

/-- What is dropped of raw text is its first line. -/
theorem undropped_eq (o : Output) (text : String) : o.undropped text = text.toList ∨
    o.dropBlankLine = true ∧ ∃ line, text.toList = line ++ '\n' :: o.undropped text := by
  unfold undropped
  split
  · rename_i drops
    unfold withoutBlankLine
    split
    · rename_i rest eq
      refine .inr ⟨drops, text.toList.takeWhile isLineBlank, ?_⟩
      rw [← eq, List.takeWhile_append_dropWhile]
    · exact .inl rfl
  · exact .inl rfl

end Output

namespace LinePosition

variable {p : LinePosition} {o o' : Output}

theorem Holds.anywhere (o : Output) : LinePosition.anywhere.Holds o := trivial

/-- What is known of a line is known of one that looks the same. -/
theorem Holds.congr (h : p.Holds o) (kept : o'.kept = o.kept) (blanks : o'.blanks = o.blanks) :
    p.Holds o' := by
  cases p with
  | lineStart => exact ⟨kept.trans h.1, blanks.trans h.2⟩
  | inLine => exact kept.trans h
  | anywhere => trivial

/-- A line that is trimmed. -/
theorem Holds.trimLine (h : p.Holds o) : p.Holds o.trimLine := by
  unfold Output.trimLine
  split
  · exact h
  · rename_i fresh
    cases p with
    | lineStart => exact ⟨h.1, rfl⟩
    | inLine => exact absurd h fresh
    | anywhere => trivial

/-- The last line of a text, backwards. -/
theorem takeWhile_lines {lines last : List Char} (none : '\n' ∉ last) :
    (lines ++ '\n' :: last).reverse.takeWhile (· != '\n') = last.reverse := by
  have inside : ∀ c ∈ last.reverse, (c != '\n') = true := fun c mem =>
    bne_iff_ne.mpr fun eq => none (List.mem_reverse.mp (eq ▸ mem))
  simp [List.takeWhile_append_of_pos inside]

/-- Behind a line end and more text, written on a line that is blank so far. -/
theorem holds_lastLine {lines last : List Char} (none : '\n' ∉ last) (fresh : o.kept = false)
    (blank : o.blanks = []) : (p.afterText (lines ++ '\n' :: last)).Holds (o.writeInLine last) := by
  unfold afterText
  rw [takeWhile_lines none]
  simp only [List.all_reverse, List.isEmpty_reverse]
  have kept := o.kept_writeInLine last
  rw [fresh, Bool.false_or] at kept
  cases blanks : last.all Output.isLineBlank with
  | false =>
    rw [blanks] at kept
    exact kept
  | true =>
    rw [blanks] at kept
    simp only [Bool.not_true, Bool.false_eq_true, if_false]
    rw [if_pos (by simp)]
    split
    · rename_i empty
      have empty : last = [] := List.isEmpty_iff.mp empty
      refine ⟨kept, ?_⟩
      rw [Output.blanks_writeInLine, kept, blank, empty]
      rfl
    · trivial

/-- Behind more text on the same line. -/
theorem Holds.writeInLine (h : p.Holds o) {text : List Char} (inLine : '\n' ∉ text) :
    (p.afterText text).Holds (o.writeInLine text) := by
  have inside : ∀ c ∈ text.reverse, (c != '\n') = true := fun c mem =>
    bne_iff_ne.mpr fun eq => inLine (List.mem_reverse.mp (eq ▸ mem))
  have backwards : text.reverse.takeWhile (· != '\n') = text.reverse :=
    List.takeWhile_eq_self_iff.mpr inside
  have kept := o.kept_writeInLine text
  unfold afterText
  rw [backwards]
  simp only [List.all_reverse]
  cases blanks : text.all Output.isLineBlank with
  | false =>
    rw [blanks, Bool.not_false, Bool.or_true] at kept
    exact kept
  | true =>
    rw [blanks, Bool.not_true, Bool.or_false] at kept
    simp only [Bool.not_true, Bool.false_eq_true, if_false]
    rw [if_neg (by simpa using inLine)]
    split
    · rename_i same
      rcases Bool.or_eq_true_iff.mp same with empty | same
      · have empty : text = [] := List.isEmpty_iff.mp empty
        cases p with
        | lineStart =>
          refine ⟨kept.trans h.1, ?_⟩
          rw [Output.blanks_writeInLine, kept, h.1, h.2, empty]
          rfl
        | inLine => exact kept.trans h
        | anywhere => trivial
      · rw [beq_iff_eq.mp same] at h ⊢
        exact kept.trans h
    · trivial

/-- Behind raw text the line stands as the text tells. -/
theorem Holds.writeRaw (h : p.Holds o) (tidy : o.Tidy) (text : String) :
    (p.afterText text.toList).Holds (o.writeRaw text) := by
  rcases Output.exists_last_line (o.undropped text) with inLine | ⟨lines, last, parts, none⟩
  · rw [Output.writeRaw_inLine inLine]
    rcases o.undropped_eq text with whole | ⟨drops, line, eq⟩
    · rw [whole] at inLine ⊢
      have undropped : p.Holds { o with dropBlankLine := false } := h.congr rfl rfl
      exact undropped.writeInLine inLine
    · rw [eq]
      exact holds_lastLine inLine (tidy.not_kept drops) (tidy.drops drops)
  · rw [Output.writeRaw_lines parts none]
    have ended : ∃ lines, text.toList = lines ++ '\n' :: last := by
      rcases o.undropped_eq text with whole | ⟨-, line, eq⟩
      · exact ⟨lines, whole ▸ parts⟩
      · exact ⟨line ++ '\n' :: lines, by rw [eq, parts, List.append_assoc]; rfl⟩
    obtain ⟨lines', eq⟩ := ended
    rw [eq]
    exact holds_lastLine none rfl (Output.blanks_endLine _ _)

end LinePosition

namespace Output

variable {o o' : Output}

theorem Coincides.refl (o : Output) : o.Coincides o := ⟨rfl, rfl, rfl, rfl⟩

theorem Coincides.symm (h : o.Coincides o') : o'.Coincides o :=
  ⟨h.text.symm, h.blanks.symm, h.kept.symm, h.drops.symm⟩

/-- More text on a line may be written in one go. -/
theorem coincides_writeInLine (o : Output) (text more : List Char) :
    Coincides ((o.writeInLine text).writeInLine more) (o.writeInLine (text ++ more)) := by
  have kept : (o.writeInLine (text ++ more)).kept =
      ((o.writeInLine text).writeInLine more).kept := by
    simp only [kept_writeInLine, List.all_append, Bool.not_and, Bool.or_assoc]
  refine ⟨?_, ?_, kept, ?_⟩
  · simp only [marked_writeInLine, Origin.mark_append, List.append_assoc]
  · rw [blanks_writeInLine, blanks_writeInLine more, kept]
    split
    · rfl
    · rename_i blank
      rw [blanks_writeInLine, if_neg, List.reverse_append, List.append_assoc]
      intro before
      rw [kept_writeInLine, before] at blank
      exact blank rfl
  · simp only [dropBlankLine_writeInLine]

/-- Raw text is all there, or has something in its first line or behind it. -/
def Whole (o : Output) (text : List Char) : Prop :=
  o.dropBlankLine = true → ∃ c ∈ text, isLineBlank c = false

theorem withoutBlankLine_cons {text rest : List Char} {d : Char}
    (stops : text.dropWhile isLineBlank = d :: rest) :
    withoutBlankLine text = if d = '\n' then rest else text := by
  unfold withoutBlankLine
  rw [stops]
  split
  · rename_i eq
    cases eq
    rfl
  · rename_i other
    rw [if_neg]
    rintro rfl
    exact other rest rfl

theorem undropped_append {text more : List Char} (whole : o.Whole text) :
    o.undropped (String.ofList (text ++ more)) = o.undropped (String.ofList text) ++ more := by
  unfold undropped
  split
  · rename_i drops
    obtain ⟨c, mem, some⟩ := whole drops
    have stops : ∃ d rest, text.dropWhile isLineBlank = d :: rest := by
      cases eq : text.dropWhile isLineBlank with
      | nil =>
        rw [List.dropWhile_eq_nil_iff.mp eq c mem] at some
        cases some
      | cons d rest => exact ⟨d, rest, rfl⟩
    obtain ⟨d, rest, eq⟩ := stops
    have both : (text ++ more).dropWhile isLineBlank = d :: (rest ++ more) := by
      rw [List.dropWhile_append, eq]
      rfl
    rw [String.toList_ofList, String.toList_ofList, withoutBlankLine_cons both,
      withoutBlankLine_cons eq]
    split <;> rfl
  · simp only [String.toList_ofList]

/-- Raw text may be written in one go. -/
theorem coincides_writeRaw {text : List Char} (whole : o.Whole text) (more : List Char) :
    Coincides ((o.writeRaw (String.ofList text)).writeRaw (String.ofList more))
      (o.writeRaw (String.ofList (text ++ more))) := by
  have left : (o.writeRaw (String.ofList text)).undropped (String.ofList more) = more :=
    undropped_ofList (dropBlankLine_writeRaw _ _) more
  have both : o.undropped (String.ofList (text ++ more)) =
      o.undropped (String.ofList text) ++ more := undropped_append whole
  have same : { o.writeRaw (String.ofList text) with dropBlankLine := false } =
      o.writeRaw (String.ofList text) := by
    rw [← o.dropBlankLine_writeRaw (String.ofList text)]
  rcases exists_last_line more with inLine | ⟨lines, last, rfl, none⟩
  · rw [writeRaw_inLine (by rw [left]; exact inLine), left, same]
    rcases exists_last_line (o.undropped (String.ofList text)) with
      inside | ⟨lines, last, parts, none⟩
    · rw [writeRaw_inLine inside, writeRaw_inLine (by rw [both]; simp [inside, inLine]), both]
      exact coincides_writeInLine _ _ _
    · have whole : o.undropped (String.ofList (text ++ more)) =
          lines ++ '\n' :: (last ++ more) := by
        rw [both, parts, List.append_assoc]
        rfl
      rw [writeRaw_lines parts none, writeRaw_lines whole (by simp [none, inLine])]
      exact coincides_writeInLine _ _ _
  · have whole : o.undropped (String.ofList (text ++ (lines ++ '\n' :: last))) =
        o.undropped (String.ofList text) ++ lines ++ '\n' :: last := by
      rw [both, List.append_assoc]
    rw [writeRaw_lines left none, writeRaw_lines whole none, same]
    have ended : Coincides ((o.writeRaw (String.ofList text)).endLine (lines ++ ['\n']))
        ({ o with dropBlankLine := false }.endLine
          (o.undropped (String.ofList text) ++ lines ++ ['\n'])) := by
      refine ⟨?_, ?_, rfl, ?_⟩
      · rw [marked_endLine, marked_endLine, marked_writeRaw, marked_drop]
        simp only [Origin.mark_append, List.append_assoc]
      · rw [blanks_endLine, blanks_endLine]
      · rw [dropBlankLine_endLine, dropBlankLine_endLine, dropBlankLine_writeRaw]
    exact ended.writeInLine last

/-- Blanks alone leave the line of a tag as it is. -/
theorem undropped_blank {text : List Char} (blank : text.all isLineBlank = true) :
    o.undropped (String.ofList text) = text := by
  unfold undropped
  rw [String.toList_ofList]
  split
  · have all : text.dropWhile isLineBlank = [] :=
      List.dropWhile_eq_nil_iff.mpr (List.all_eq_true.mp blank)
    unfold withoutBlankLine
    rw [all]
  · rfl

/-- Behind raw text the line is known to be empty, or to be kept, only if the text is whole. -/
theorem whole_of_holds {p : LinePosition} {text : List Char} (tidy : o.Tidy) (some : text ≠ [])
    (known : p ≠ .anywhere) (h : p.Holds (o.writeRaw (String.ofList text))) : o.Whole text := by
  intro drops
  by_contra none
  have blank : text.all isLineBlank = true := List.all_eq_true.mpr fun c mem => by
    cases blank : isLineBlank c with
    | true => rfl
    | false => exact absurd ⟨c, mem, blank⟩ none
  have inLine : '\n' ∉ text := fun mem => absurd (List.all_eq_true.mp blank _ mem) (by decide)
  rw [writeRaw_inLine (by rw [undropped_blank blank]; exact inLine), undropped_blank blank] at h
  have fresh : o.kept = false := tidy.not_kept drops
  have kept : ({ o with dropBlankLine := false }.writeInLine text).kept = false := by
    rw [kept_writeInLine, blank]
    exact (Bool.or_false _).trans fresh
  cases p with
  | anywhere => exact known rfl
  | inLine =>
    have kept' : _ = true := h
    rw [kept] at kept'
    cases kept'
  | lineStart =>
    have blanks := h.2
    rw [blanks_writeInLine, kept] at blanks
    exact some (List.reverse_eq_nil_iff.mp (List.append_eq_nil_iff.mp blanks).1)

/-- Where nothing is dropped, empty raw text changes nothing. -/
theorem coincides_writeRaw_empty (tidy : o.Tidy) (whole : o.dropBlankLine = false) :
    Coincides o (o.writeRaw "") := by
  have left : o.undropped "" = [] := undropped_ofList whole []
  have same : { o with dropBlankLine := false } = o := by rw [← whole]
  rw [writeRaw_inLine (by rw [left]; exact List.not_mem_nil), left, same]
  have kept : (o.writeInLine []).kept = o.kept := by
    rw [kept_writeInLine]
    simp
  refine ⟨?_, ?_, kept, ?_⟩
  · rw [marked_writeInLine, Origin.mark_nil, List.append_nil]
  · rw [blanks_writeInLine, kept]
    split
    · rename_i inLine
      rw [(tidy.kept inLine).1]
    · rfl
  · exact dropBlankLine_writeInLine _ _

/-- Where nothing stands on the line, only the rest of it is affected when it is trimmed. -/
theorem trimLine_lineStart (h : LinePosition.lineStart.Holds o) :
    o.trimLine = { o with dropBlankLine := true } := by
  obtain ⟨fresh, blank⟩ := h
  unfold trimLine
  rw [fresh, if_neg Bool.false_ne_true, ← blank]

theorem writeRaw_trimLine (h : LinePosition.lineStart.Holds o) {text : String}
    (solid : withoutBlankLine text.toList = text.toList) :
    o.trimLine.writeRaw text = o.writeRaw text := by
  rw [trimLine_lineStart h]
  unfold writeRaw
  simp only [solid, ite_self]

theorem markValue_trimLine (h : LinePosition.lineStart.Holds o) :
    o.trimLine.markValue = o.markValue := by
  rw [trimLine_lineStart h]
  unfold markValue keepLine addRaw
  split <;> rfl

end Output

/-- Nodes that start with something that stays on a line. -/
def startsSolid : List Node → Bool
  | .output _ :: _ => true
  | .raw text :: _ => Output.withoutBlankLine text.toList == text.toList
  | _ => false

end Stencil
