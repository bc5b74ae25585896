import Stencil.Proofs.OutputMarks
import Stencil.Proofs.ScopeArray
import Stencil.Proofs.TokenPositions

/-!
# Positions of faults

The parser has no positions of its own: a fault is at the tag it was met in, at the token that
cannot be where it is, or at the tag that opened a scope which is never closed. So every failure of
a parse is at a character of the source that is not blank, and the marker that is drawn for it
stands below this character.

A position counts line feeds from the start of the source, and the window cuts the source into lines
once more to find its line. For a character that is no line end the two agree: the line of the
window is the line of the character, and the marker stands below the character.
-/

namespace Stencil

namespace Text

/-- What can stand behind a line: nothing, a line feed, or a carriage return and a line feed. A
carriage return before a line feed is not part of the line. -/
inductive EndsLine (line : List Char) : List Char → Prop
  | last : EndsLine line []
  | feed {later : List Char} (whole : line.getLast? ≠ some '\r') : EndsLine line ('\n' :: later)
  | returnFeed {later : List Char} : EndsLine line ('\r' :: '\n' :: later)

/-- The line of a source that has a character at an offset: what stands on it before the character,
and what stands there from the character on. -/
def LineAt (source : String) (offset : Nat) (front back : List Char) : Prop :=
  ∃ earlier later, source.toList = earlier ++ (front ++ back) ++ later ∧
    (earlier = [] ∨ ∃ lines, earlier = lines ++ ['\n']) ∧ '\n' ∉ front ++ back ∧
    back ≠ [] ∧ EndsLine (front ++ back) later ∧
    offset = (String.ofList (earlier ++ front)).utf8ByteSize

/-- What stands before a marker below a text: a tab where the text has a tab, else a space. -/
def blanksBelow (front : List Char) : List Char :=
  front.map fun c => if c = '\t' then '\t' else ' '

variable {front line current text later : List Char}

theorem linesFrom_append (inLine : '\n' ∉ front) :
    linesFrom current (front ++ text) = linesFrom (front.reverse ++ current) text := by
  induction front generalizing current with
  | nil => rfl
  | cons c front ih =>
    have other : c ≠ '\n' := fun eq => inLine (eq ▸ List.mem_cons_self)
    rw [List.cons_append, linesFrom, if_neg other, ih fun mem => inLine (.tail _ mem),
      List.reverse_cons, List.append_assoc]
    rfl

/-- Each line feed ends a line. -/
theorem getElem?_linesFrom (lines : List Char) (i : Nat) :
    (linesFrom current (lines ++ '\n' :: text))[lines.count '\n' + 1 + i]? =
      (linesFrom [] text)[i]? := by
  induction lines generalizing current with
  | nil =>
    have one : ([] : List Char).count '\n' + 1 + i = i + 1 := by
      rw [List.count_nil]
      omega
    rw [List.nil_append, linesFrom, if_pos rfl, one, List.getElem?_cons_succ]
  | cons c lines ih =>
    rw [List.cons_append, linesFrom]
    split
    · rename_i feed
      subst feed
      have more : ('\n' :: lines).count '\n' + 1 + i = lines.count '\n' + 1 + i + 1 := by
        rw [List.count_cons_self]
        omega
      rw [more, List.getElem?_cons_succ, ih]
    · rename_i other
      rw [List.count_cons_of_ne other, ih]

theorem finishedLine_reverse (whole : line.getLast? ≠ some '\r') :
    finishedLine line.reverse = line := by
  unfold finishedLine
  split
  · rename_i more eq
    rw [← List.head?_reverse, eq] at whole
    exact absurd rfl whole
  · exact List.reverse_reverse line

/-- The first line of a text is what stands before its end. -/
theorem head?_lines (inLine : '\n' ∉ line) (some : line ≠ []) (ends : EndsLine line later) :
    (lines (line ++ later)).head? = .some line := by
  have reversed : line.reverse ≠ [] := by simpa using some
  rw [lines, linesFrom_append inLine, List.append_nil]
  cases ends with
  | last =>
    rw [linesFrom, if_neg (by simpa using some), List.reverse_reverse]
    rfl
  | feed whole =>
    rw [linesFrom, if_pos rfl, finishedLine_reverse whole]
    rfl
  | returnFeed =>
    rw [linesFrom, if_neg (by decide), linesFrom, if_pos rfl]
    simp [finishedLine]

/-- A text whose first character is neither a line feed nor a carriage return starts with a line
that is not empty, whatever stands before it. -/
theorem exists_line {c : Char} (noFeed : c ≠ '\n') (noReturn : c ≠ '\r') (front text : List Char) :
    ∃ back later, c :: text = back ++ later ∧ back ≠ [] ∧ '\n' ∉ back ∧
      EndsLine (front ++ back) later := by
  by_cases ends : '\n' ∈ c :: text
  · obtain ⟨line, later, parts, inLine⟩ := List.eq_append_cons_of_mem ends
    have some : line ≠ [] := by
      rintro rfl
      exact noFeed (List.cons.inj parts).1
    rcases List.eq_nil_or_concat' line with rfl | ⟨back, last, rfl⟩
    · exact absurd rfl some
    · by_cases returns : last = '\r'
      · subst returns
        refine ⟨back, '\r' :: '\n' :: later, by simp [parts], ?_, ?_, .returnFeed⟩
        · rintro rfl
          exact noReturn (List.cons.inj parts).1
        · intro mem
          exact inLine (List.mem_append_left _ mem)
      · refine ⟨back ++ [last], '\n' :: later, parts, some, inLine, .feed ?_⟩
        rw [← List.append_assoc, List.getLast?_concat]
        simpa using returns
  · exact ⟨c :: text, [], by simp, List.cons_ne_nil _ _, ends, .last⟩

/-- The lines before a line, and what stands on it. -/
theorem exists_lineStart (before : List Char) : ∃ earlier front, before = earlier ++ front ∧
    (earlier = [] ∨ ∃ lines, earlier = lines ++ ['\n']) ∧ '\n' ∉ front ∧
    before.rtakeWhile (· != '\n') = front ∧
    ∀ text, (lines (earlier ++ text))[before.count '\n']? = (lines text).head? := by
  have kept {front : List Char} (inLine : '\n' ∉ front) : ∀ c ∈ front, (c != '\n') = true :=
    fun c mem => bne_iff_ne.mpr fun eq => inLine (eq ▸ mem)
  rcases Output.exists_last_line before with inLine | ⟨earlier, front, rfl, inLine⟩
  · refine ⟨[], before, rfl, .inl rfl, inLine, List.rtakeWhile_eq_self_iff.mpr (kept inLine), ?_⟩
    intro text
    rw [List.count_eq_zero.mpr inLine, List.nil_append, List.head?_eq_getElem?]
  · refine ⟨earlier ++ ['\n'], front, by simp, .inr ⟨earlier, rfl⟩, inLine, ?_, ?_⟩
    · have reversed : ∀ c ∈ front.reverse, (c != '\n') = true := fun c mem =>
        kept inLine c (List.mem_reverse.mp mem)
      rw [List.rtakeWhile, List.reverse_append, List.reverse_cons, List.append_assoc,
        List.takeWhile_append_of_pos reversed]
      simp
    · intro text
      have count : (earlier ++ '\n' :: front).count '\n' = earlier.count '\n' + 1 + 0 := by
        rw [List.count_append, List.count_cons_self, List.count_eq_zero.mpr inLine]
      rw [count, List.append_assoc, List.singleton_append, lines, getElem?_linesFrom,
        List.head?_eq_getElem?]
      rfl

/-- The window of a position of a character that ends no line shows the line of the character, with
the marker below the character. -/
theorem sourceWindow_eq {source : String} {place : Location}
    (h : Token.AtChar source (fun c => c ≠ '\n' ∧ c ≠ '\r') place) :
    ∃ front back, LineAt source place.offset front back ∧ ∀ width,
      sourceWindow source place width = String.ofList (front ++ back ++
        '\n' :: blanksBelow front ++ '^' :: List.replicate (max width 1 - 1) '~') := by
  obtain ⟨before, c, behind, parts, rfl, noFeed, noReturn⟩ := h
  obtain ⟨earlier, front, rfl, starts, inFront, own, found⟩ := exists_lineStart before
  obtain ⟨back, later, rest, some, inBack, ends⟩ := exists_line noFeed noReturn front behind
  have whole : source.toList = earlier ++ (front ++ back) ++ later := by
    rw [parts, rest]
    simp
  have inLine : '\n' ∉ front ++ back := fun mem => (List.mem_append.mp mem).elim inFront inBack
  have line : (lines source.toList)[(earlier ++ front).count '\n']? = .some (front ++ back) := by
    rw [whole, List.append_assoc, found]
    exact head?_lines inLine (by simp [some]) ends
  rw [Location.after_start, own]
  refine ⟨front, back, ⟨earlier, later, whole, starts, inLine, some, ends, byteLength_eq _⟩, ?_⟩
  intro width
  have index : 1 + (earlier ++ front).count '\n' - 1 = (earlier ++ front).count '\n' := by omega
  have before : 1 + front.length - 1 = front.length := by omega
  simp only [sourceWindow, index, line, markerPadding, before, List.take_left]
  rfl

end Text

variable {source : List Lexeme} {entities : Entities} {indicator : Char}

/-- A position of a tag among tokens. -/
def TagAt (source : List Lexeme) (place : Text.Location) : Prop :=
  ∃ name, ⟨.tag name, place⟩ ∈ source

namespace Draft

variable {d d' : Draft}

/-- The open scopes of a draft were opened by tags among the tokens. -/
def OpenedByTags (source : List Lexeme) (d : Draft) : Prop :=
  ∀ place ∈ d.opened.map (·.location), TagAt source place

namespace OpenedByTags

/-- The positions of the open scopes are all that counts. -/
theorem of_positions (h : OpenedByTags source d)
    (same : d'.opened.map (·.location) = d.opened.map (·.location)) : OpenedByTags source d' := by
  unfold OpenedByTags
  rw [same]
  exact h

theorem of_sameBut (h : OpenedByTags source d) (same : SameBut d d') : OpenedByTags source d' := by
  unfold SameBut at same
  rw [same]
  exact h.of_positions rfl

theorem addRaw (h : OpenedByTags source d) (text : String) :
    OpenedByTags source (d.addRaw text) := by
  unfold Draft.addRaw
  split
  · exact h
  · exact h.of_positions rfl

theorem openScope (h : OpenedByTags source d) {place : Text.Location} (tag : TagAt source place)
    {node : Node} {name : String} {kind : ScopeKind} {declared : Entries Declared} :
    OpenedByTags source (d.openScope node name kind place declared) := by
  intro found mem
  rcases List.mem_cons.mp mem with rfl | mem
  · exact tag
  · exact h found mem

theorem closeScope (h : OpenedByTags source d) : OpenedByTags source d.closeScope := by
  intro place mem
  exact h place (List.map_subset _ (List.tail_sublist d.opened).subset mem)

/-- A tag opens a scope at its own position at most. -/
theorem of_tagStep {site : TagSite} (h : OpenedByTags source d) (tag : TagAt source site.location)
    (step : TagSite.Step source site d d') : OpenedByTags source d' := by
  cases step with
  | text => exact h.addRaw _
  | output _ _ uses | call _ _ uses | defineValue _ _ uses | evaluateOr _ _ uses =>
    exact (h.of_sameBut (sameBut_of_useAll uses)).of_positions rfl
  | declareEmpty => exact h.of_positions (opened_declare (fun _ _ => rfl) _ _)
  | declare _ _ uses =>
    exact (h.of_sameBut (sameBut_of_useAll uses)).of_positions
      (opened_declare (fun _ _ => rfl) _ _)
  | assign _ _ _ _ _ uses =>
    exact (h.of_sameBut (sameBut_of_useAll uses)).of_positions
      (opened_markAssigned (fun _ _ => rfl) _)
  | evaluate | inlineRaw | inlineTemplate => exact h.of_positions rfl
  | defineBody | encode => exact h.openScope tag
  | block _ _ _ _ uses => exact (h.of_sameBut (sameBut_of_useArgs uses)).openScope tag
  | link _ _ _ _ _ _ uses =>
    exact (h.closeScope.of_sameBut (sameBut_of_useArgs uses)).openScope tag
  | close => exact h.closeScope

theorem of_step (h : OpenedByTags source d) (step : Step source entities indicator d d') :
    OpenedByTags source d' := by
  cases step with
  | raw | mark => exact h.addRaw _
  | tag read step => exact h.of_tagStep ⟨_, read⟩ step

end OpenedByTags

/-- A token that is refused is no raw text, and is among those that are read. -/
theorem token_of_read_error {tag : String} {tokens : List Lexeme} {e : ParseError}
    (sub : tokens ⊆ source) (h : read entities indicator d tag tokens = .error e) :
    ∃ token, ⟨token, e.location⟩ ∈ source ∧ ∀ text, token ≠ .raw text := by
  fun_induction read entities indicator d tag tokens with
  | case1 => cases h
  | case2 d tag text place rest ih => exact ih (fun _ m => sub (.tail _ m)) h
  | case3 d tag place rest ih => exact ih (fun _ m => sub (.tail _ m)) h
  | case4 d tag name place rest fault failed =>
    cases h
    exact ⟨.tag name, sub List.mem_cons_self, by simp⟩
  | case5 d tag name place rest d' left bound read ih =>
    have behind := (TagSite.step_of_read read fun _ m => sub (.tail _ m)).2
    exact ih (fun _ m => sub (.tail _ (behind m))) h
  | case6 d tag other place rest notRaw =>
    cases h
    exact ⟨other, sub List.mem_cons_self, notRaw⟩

end Draft

namespace Template

variable {config : Config} {name : String}

/-- A fault of the parser is at the position of a token that is no raw text. -/
theorem token_of_ofTokens_error {e : ParseError}
    (h : ofTokens entities config name source = .error e) :
    ∃ token, ⟨token, e.location⟩ ∈ source ∧ ∀ text, token ≠ .raw text := by
  unfold ofTokens at h
  split at h
  · rename_i failed
    cases h
    exact Draft.token_of_read_error (List.Subset.refl _) failed
  · rename_i d read
    split at h
    · rename_i unclosed
      cases h
      obtain ⟨outermost, last, rfl⟩ := Option.map_eq_some_iff.mp unclosed
      have opened : d.OpenedByTags source :=
        Draft.invariant_of_read (by simp [Draft.OpenedByTags]) (fun h step => h.of_step step) read
      obtain ⟨tag, mem⟩ := opened _ (List.mem_map_of_mem (List.mem_of_getLast? last))
      exact ⟨.tag tag, mem, by simp⟩
    · cases h

/-- A source that is not parsed fails at a character that is not blank. -/
theorem atChar_of_parse_error {text : String} {failure : Failure}
    (admitted : Config.admitsIndicator config.indicator = true)
    (h : parse entities config name text = .error failure) :
    ∃ place, failure.location? = some place ∧
      Token.AtChar text (Text.isBlank · = false) place := by
  have notBlank : Text.isBlank config.indicator = false := by
    unfold Config.admitsIndicator at admitted
    simp only [Bool.not_eq_true', Bool.or_eq_false_iff] at admitted
    exact admitted.1.2
  unfold parse at h
  split at h
  · rename_i scanned
    cases h
    exact ⟨_, rfl, Token.fault_at_char scanned⟩
  · rename_i tokens scanned
    cases made : ofTokens entities config name tokens with
    | ok t =>
      rw [made] at h
      cases h
    | error e =>
      rw [made] at h
      cases h
      obtain ⟨token, mem, notRaw⟩ := token_of_ofTokens_error made
      refine ⟨_, rfl, ((Token.tokens_at_chars scanned).1 _ mem).mono fun c starts => ?_⟩
      cases token with
      | raw raw => exact absurd rfl (notRaw raw)
      | tag =>
        rw [show c = config.indicator from starts]
        exact notBlank
      | _ => exact starts

/-- Every failure of a parse has a position in the source. The window that is drawn for it shows the
source line of the character there, and the marker stands below this character. -/
theorem marker_below_fault {text : String} {failure : Failure}
    (admitted : Config.admitsIndicator config.indicator = true)
    (h : parse entities config name text = .error failure) :
    ∃ place, failure.location? = some place ∧ place.StandsIn text ∧
      ∃ front back, Text.LineAt text place.offset front back ∧ ∀ width,
        Text.sourceWindow text place width = String.ofList (front ++ back ++
          '\n' :: Text.blanksBelow front ++ '^' :: List.replicate (max width 1 - 1) '~') := by
  obtain ⟨place, located, atChar⟩ := atChar_of_parse_error admitted h
  have noEnd (c : Char) (seen : Text.isBlank c = false) : c ≠ '\n' ∧ c ≠ '\r' := by
    constructor <;> rintro rfl <;> revert seen <;> decide
  exact ⟨place, located, atChar.standsIn, Text.sourceWindow_eq (atChar.mono noEnd)⟩

/-- A tag that is not closed, behind a tab on a second line. -/
theorem marker_below_fault_second_line :
    Config.admitsIndicator ({} : Config).indicator = true ∧
    ∃ failure, parse .core {} "page" "é\r\n\t#(1 +)\r\n" = .error failure ∧
      ∃ place, failure.location? = some place ∧ place.StandsIn "é\r\n\t#(1 +)\r\n" ∧
        ∃ front back, Text.LineAt "é\r\n\t#(1 +)\r\n" place.offset front back ∧ ∀ width,
          Text.sourceWindow "é\r\n\t#(1 +)\r\n" place width = String.ofList (front ++ back ++
            '\n' :: Text.blanksBelow front ++ '^' :: List.replicate (max width 1 - 1) '~') := by
  have admitted : Config.admitsIndicator ({} : Config).indicator = true := by decide
  have refused : (parse .core {} "page" "é\r\n\t#(1 +)\r\n").isOk = false := by
    decide +kernel
  refine ⟨admitted, ?_⟩
  cases h : parse .core {} "page" "é\r\n\t#(1 +)\r\n" with
  | ok t =>
    rw [h] at refused
    cases refused
  | error failure => exact ⟨failure, rfl, marker_below_fault admitted h⟩

end Template

end Stencil
