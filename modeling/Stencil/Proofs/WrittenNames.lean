import Stencil.Proofs.MissingFiles
import Stencil.Proofs.TokenPositions

/-!
# The names that a source writes

What a template waits for is written in its source. A tag notes one name at most, and takes a token,
and a token takes a character; so a source names no more files than it has bytes
(`Template.length_written_le`). Splicing a template in brings what it waits for, and no more.
-/

namespace Stencil

theorem NameSet.length_insert_le (name : String) (names : NameSet) :
    (NameSet.insert name names).length ≤ names.length + 1 := by
  induction names with
  | nil => simp [NameSet.insert]
  | cons n rest ih =>
    simp only [NameSet.insert]
    split
    · simp
    · split
      · simp
      · simpa using ih

namespace Draft

/-- The number of names that a draft notes. -/
def notes (d : Draft) : Nat := d.templates.length + d.raws.length

variable {source tokens : List Lexeme} {entities : Entities} {indicator : Char} {d d' : Draft}
  {tag : String}

theorem notes_addRaw (d : Draft) (text : String) : (d.addRaw text).notes = d.notes := by
  unfold addRaw
  split <;> rfl

theorem notes_declare (d : Draft) (name : String) (declared : Declared) :
    (d.declare name declared).notes = d.notes := by
  unfold declare
  split <;> rfl

theorem notes_markAssigned (d : Draft) (name : String) : (d.markAssigned name).notes = d.notes := by
  unfold markAssigned
  split
  · rfl
  · split <;> rfl

theorem SameBut.notes (h : SameBut d d') : d'.notes = d.notes := by
  unfold SameBut at h
  rw [h]
  rfl

/-- A tag notes one name at most. -/
theorem notes_of_tagStep {site : TagSite} (step : TagSite.Step source site d d') :
    d'.notes ≤ d.notes + 1 := by
  have kept {d' : Draft} (same : d'.notes = d.notes) : d'.notes ≤ d.notes + 1 := by omega
  cases step with
  | text => exact kept (notes_addRaw ..)
  | output _ _ uses => exact kept (sameBut_of_useAll uses).notes
  | call _ _ uses => exact kept (sameBut_of_useAll uses).notes
  | declareEmpty => exact kept (notes_declare ..)
  | declare _ _ uses => exact kept ((notes_declare ..).trans (sameBut_of_useAll uses).notes)
  | assign _ _ _ _ _ uses =>
    exact kept ((notes_markAssigned ..).trans (sameBut_of_useAll uses).notes)
  | defineValue _ _ uses => exact kept (sameBut_of_useAll uses).notes
  | defineBody => exact kept rfl
  | evaluate => exact kept rfl
  | evaluateOr _ _ uses => exact kept (sameBut_of_useAll uses).notes
  | @inlineRaw t file =>
    have more := NameSet.length_insert_le file d.raws
    have sum : d.templates.length + (NameSet.insert file d.raws).length ≤ d.notes + 1 := by
      unfold notes
      omega
    exact sum
  | @inlineTemplate t file =>
    have more := NameSet.length_insert_le file d.templates
    have sum : (NameSet.insert file d.templates).length + d.raws.length ≤ d.notes + 1 := by
      unfold notes
      omega
    exact sum
  | encode => exact kept rfl
  | block _ _ _ _ uses => exact kept (sameBut_of_useArgs uses).notes
  | link _ _ _ _ _ _ uses => exact kept (sameBut_of_useArgs uses).notes
  | close => exact kept rfl

/-- Reading notes no more names than there are tokens. -/
theorem notes_of_read (h : read entities indicator d tag tokens = .ok d') :
    d'.notes ≤ d.notes + tokens.length := by
  fun_induction read entities indicator d tag tokens with
  | case1 =>
    cases h
    exact Nat.le_refl _
  | case2 d tag text place rest ih =>
    have more := ih h
    rw [notes_addRaw] at more
    rw [List.length_cons]
    omega
  | case3 d tag place rest ih =>
    have more := ih h
    rw [notes_addRaw] at more
    rw [List.length_cons]
    omega
  | case4 => cases h
  | case5 d tag name place rest d'' left bound read ih =>
    have more := ih h
    have one := notes_of_tagStep (TagSite.step_of_read read (List.Subset.refl _)).1
    rw [List.length_cons]
    omega
  | case6 => cases h

end Draft

namespace Token

/-- A token takes a character at least. -/
theorem Located.length_le {indicator : Char} {text : List Char} {here : Text.Location}
    {read : Except LexError (List Lexeme)} (h : Located indicator text here read)
    {tokens : List Lexeme} (ok : read = .ok tokens) : tokens.length ≤ text.length := by
  induction h generalizing tokens with
  | ends =>
    cases ok
    exact Nat.zero_le _
  | fails => cases ok
  | skip _ ih => exact Nat.le_succ_of_le (ih ok)
  | @token token c text here read starts more ih =>
    cases read with
    | error e => cases ok
    | ok behind =>
      cases ok
      exact Nat.succ_le_succ (ih rfl)

end Token

namespace Text

theorem length_le_byteLength (text : List Char) : text.length ≤ byteLength text := by
  induction text with
  | nil => exact Nat.zero_le _
  | cons c text ih =>
    have positive := c.utf8Size_pos
    rw [byteLength_cons, List.length_cons]
    omega

end Text

namespace Template

/-- The files that a template waits for, each with whether it is raw text. -/
def noted (t : Template) : List (String × Bool) :=
  t.templates.map (·, false) ++ t.raws.map (·, true)

theorem mem_noted {t : Template} {place : String × Bool} :
    place ∈ t.noted ↔ Noted t.templates t.raws place := by
  obtain ⟨name, _ | _⟩ := place <;> simp [noted, Noted]

/-- Splicing a template in brings what it waits for, and no more. -/
theorem noted_inlineTemplate (t : Template) (name : String) (other : Template) :
    (t.inlineTemplate name other).1.noted ⊆ t.noted ++ other.noted := by
  intro place mem
  unfold inlineTemplate at mem
  dsimp only at mem
  split at mem
  · exact List.mem_append_left _ mem
  · rw [List.mem_append, mem_noted, mem_noted]
    rw [mem_noted] at mem
    obtain ⟨file, _ | _⟩ := place
    · exact (NameSet.mem_union.mp mem).imp_left fun kept => (NameSet.mem_erase.mp kept).1
    · exact NameSet.mem_union.mp mem

theorem noted_inlineRaw (t : Template) (name text : String) :
    (t.inlineRaw name text).1.noted ⊆ t.noted := by
  intro place mem
  unfold inlineRaw at mem
  dsimp only at mem
  split at mem
  · exact mem
  · rw [mem_noted] at mem ⊢
    obtain ⟨file, _ | _⟩ := place
    · exact mem
    · exact (NameSet.mem_erase.mp mem).1

/-- The files that a source names, if it can be parsed. -/
def written (entities : Entities) (config : Config) (source : String) : List (String × Bool) :=
  ((parse entities config "" source).toOption.map noted).getD []

variable {entities : Entities} {config : Config} {name source : String} {t : Template}

/-- The name of a template is no part of what it waits for. -/
theorem noted_of_parse (h : parse entities config name source = .ok t) :
    t.noted = written entities config source := by
  obtain ⟨tokens, scanned, made⟩ := ofTokens_of_parse h
  obtain ⟨d, read, closed, rfl⟩ := read_of_ofTokens made
  have again : parse entities config "" source = .ok (d.finish "" config.indicator) := by
    simp only [parse, scanned, ofTokens, read, Draft.unclosed?, closed, List.getLast?_nil,
      Option.map_none, Except.mapError]
  rw [written, again]
  rfl

/-- A source names no more files than it has bytes. -/
theorem length_written_le (entities : Entities) (config : Config) (source : String) :
    (written entities config source).length ≤ source.utf8ByteSize := by
  unfold written
  cases parsed : parse entities config "" source with
  | error e => exact Nat.zero_le _
  | ok t =>
    obtain ⟨tokens, scanned, made⟩ := ofTokens_of_parse parsed
    obtain ⟨d, read, closed, rfl⟩ := read_of_ofTokens made
    have names : d.notes ≤ tokens.length := by
      have := Draft.notes_of_read read
      rwa [show Draft.notes {} = 0 from rfl, Nat.zero_add] at this
    have tokens_le := (Token.located_scan config.indicator source).length_le scanned
    have chars := Text.length_le_byteLength source.toList
    rw [Text.byteLength_eq, String.ofList_toList] at chars
    have size : (d.finish "" config.indicator).noted.length = d.notes := by
      simp [noted, Draft.finish, Draft.notes]
    simp only [Except.toOption, Option.map_some, Option.getD_some, size]
    omega

end Template

end Stencil
