import Stencil.Config
import Stencil.Proofs.ReplayedSteps

/-!
# Printed templates parsed again

A parsed template is printed as source that parses to the same template, read back, exactly if every
integer in its expressions has a literal. Only the least integer has none: its digits alone, without
the sign, are too many.

A configuration that is read from JSON has a character that can start tags, and writes values in the
standard way: no field of the JSON form is about the texts of values.
-/

namespace Stencil

namespace Config

variable {config config' : Config} {s : List Char}

theorem formatters_set? {field : Field} {tree : Json.Tree}
    (h : field.set? config tree = some config') : config'.formatters = config.formatters := by
  unfold Field.set? at h
  split at h
  · split at h <;> cases h
    rfl
  · cases h
    rfl
  · cases h
    rfl
  · cases h
    rfl
  · split at h <;> cases h
    rfl
  · cases h

theorem formatters_readField {field : Field} {left : Json.Shorter s}
    (h : readField config field s = .ok (config', left)) :
    config'.formatters = config.formatters := by
  unfold readField at h
  split at h
  · cases h
  · split at h
    · cases h
    · split at h
      · cases h
      · split at h
        · cases h
        · rename_i set
          cases h
          exact formatters_set? set

/-- The array form, by induction on the fields that are left. -/
theorem formatters_readArray {first : Bool} {fields : List Field} {left : List Char}
    (h : readArray config first fields s = .ok (config', left)) :
    config'.formatters = config.formatters := by
  induction fields generalizing config first s with
  | nil =>
    unfold readArray at h
    split at h
    · cases h
    · split at h <;> cases h
      rfl
  | cons field fields ih =>
    unfold readArray at h
    split at h
    · cases h
    · split at h
      · cases h
        rfl
      · split at h
        · split at h
          · cases h
          · rename_i read
            exact (ih h).trans (formatters_readField read)
        · split at h
          · dsimp only at h
            split at h
            · cases h
            · split at h
              · cases h
              · rename_i read
                exact (ih h).trans (formatters_readField read)
          · cases h

theorem formatters_readMember {given given' : List Field} {left : Json.Shorter s}
    (h : readMember config given s = .ok ((config', given'), left)) :
    config'.formatters = config.formatters := by
  unfold readMember at h
  split at h
  · cases h
  · dsimp only at h
    split at h
    · cases h
    · split at h
      · cases h
      · split at h
        · split at h
          · split at h
            · cases h
            · rename_i read
              cases h
              exact formatters_readField read
          · split at h <;> cases h
            rfl
        · cases h

/-- The object form, by induction on the reading. -/
theorem formatters_readObject {given : List Field} {first : Bool} {left : List Char}
    (h : readObject config given first s = .ok (config', left)) :
    config'.formatters = config.formatters := by
  fun_induction readObject config given first s with
  | case2 =>
    cases h
    rfl
  | case4 config given s r next given' r' shorter read =>
    rename_i ih
    exact (ih h).trans (formatters_readMember read)
  | case8 config given first s r more r₁ next given' r' shorter read =>
    rename_i ih
    exact (ih h).trans (formatters_readMember read)
  | _ => cases h

/-- A configuration that was read writes values in the standard way. -/
theorem formatters_of_ofJson {text : String} (h : ofJson text = .ok config) :
    config.formatters = .standard := by
  have form {left : List Char} (read : readForm text.toList = .ok (config, left)) :
      config.formatters = .standard := by
    unfold readForm at read
    split at read
    · cases read
    · exact formatters_readArray read
    · exact formatters_readObject read
    · split at read <;> cases read
  unfold ofJson at h
  split at h
  · cases h
  · rename_i read
    split at h
    · cases h
    · split at h <;> cases h
      exact form read

theorem admitsIndicator_of_ofJson {text : String} (h : ofJson text = .ok config) :
    admitsIndicator config.indicator = true := by
  unfold ofJson at h
  split at h
  · cases h
  · split at h
    · cases h
    · split at h
      · rename_i admitted
        cases h
        exact admitted
      · cases h

end Config

variable {config : Config} {name source : String} {t : Template} {d : Draft}

namespace Template

/-- Every integer in the expressions of a template has a literal. -/
def Writable (t : Template) : Prop := AllWritable t.tables

/-- What the printed template is parsed as. -/
def reread (t : Template) : Template :=
  let tables := t.tables.map (Node.rereadAll false)
  { t with tables, size := rawSize (tables.headD []) }

theorem parse_of_readAt {entities : Entities}
    (h : Draft.readAt entities config.indicator {} "" ⟨source.toList, {}⟩ = .ok d)
    (closed : d.opened = []) :
    parse entities config name source = .ok (d.finish name config.indicator) := by
  unfold Draft.readAt Draft.readOn at h
  unfold parse Token.scan Cursor.start
  generalize Token.scanText config.indicator ⟨source.toList, {}⟩ = scanned at h
  cases scanned with
  | error e => cases h
  | ok tokens =>
    dsimp only at h ⊢
    have unclosed : d.unclosed? = none := by
      unfold Draft.unclosed?
      rw [closed]
      rfl
    unfold ofTokens
    rw [ok_of_mapError h]
    dsimp only
    rw [unclosed]
    rfl

theorem parse_of_readAt_error {entities : Entities} {failure : Failure}
    (h : Draft.readAt entities config.indicator {} "" ⟨source.toList, {}⟩ = .error failure) :
    ∃ e, parse entities config name source = .error e := by
  unfold Draft.readAt Draft.readOn at h
  unfold parse Token.scan Cursor.start
  generalize Token.scanText config.indicator ⟨source.toList, {}⟩ = scanned at h
  cases scanned with
  | error e => exact ⟨_, rfl⟩
  | ok tokens =>
    dsimp only at h ⊢
    unfold ofTokens
    cases read : Draft.read entities config.indicator {} "" tokens with
    | error e => exact ⟨_, rfl⟩
    | ok d =>
      rw [read] at h
      cases h

/-- The printed source of a parsed template replays the draft that it was made of. -/
theorem replays_of_parse (admitted : Config.admitsIndicator config.indicator = true)
    (parsed : parse .core config name source = .ok t) : ∃ d : Draft, d.opened = [] ∧
      t = d.finish name config.indicator ∧ Replays config.indicator d (t.bodyText 0) := by
  obtain ⟨tokens, scanned, made⟩ := ofTokens_of_parse parsed
  obtain ⟨d, read, closed, rfl⟩ := read_of_ofTokens made
  refine ⟨d, closed, rfl, ?_⟩
  have replayed := Draft.replayed_of_read (Config.tagStart_of_admits admitted)
    (Token.spelled_of_scan scanned) read
  generalize made : d.finish name config.indicator = t
  have text {j : Nat} {nodes : List Node} (found : d.tables[j]? = some nodes) :
      t.bodyText j = Printing.upTo config.indicator t.bodyText {} nodes := by
    subst made
    exact bodyText_eq replayed.fresh replayed.formed.forward found
  have agrees : Agrees config.indicator t.bodyText d := fun j nodes found _ _ => text found
  obtain ⟨nodes, found⟩ := replayed.formed.written
  obtain ⟨q, stands, replays⟩ := replayed.replays t.bodyText nodes agrees found
  rw [closed] at stands
  cases stands
  have first : d.current = 0 := by
    unfold Draft.current
    rw [closed]
    rfl
  rw [first] at found
  rwa [← text found] at replays

section

variable (admitted : Config.admitsIndicator config.indicator = true)
  (parsed : parse .core config name source = .ok t)
include admitted parsed

/-- The printed source of a template that can be written is parsed as the template read back. -/
theorem parse_text (writable : t.Writable) : parse .core config name t.text = .ok t.reread := by
  obtain ⟨d, closed, rfl, replays⟩ := replays_of_parse admitted parsed
  obtain ⟨e, tag, place, again, read⟩ := replays.read writable
  have whole := read [] fun _ c first => by cases first
  rw [List.append_nil] at whole
  have none : e.opened = [] := by
    have opened := again.opened
    rwa [closed, List.map_nil, List.map_eq_nil_iff] at opened
  have ends : Draft.readAt .core config.indicator e tag ⟨[], place⟩ = .ok e := by
    have nothing : Token.scanText config.indicator ⟨[], place⟩ = .ok [] := by
      rw [Token.scanText_eq]
      rfl
    unfold Draft.readAt Draft.readOn
    rw [nothing]
    dsimp only
    rw [Draft.read]
    rfl
  have finished : e.finish name config.indicator =
      (d.finish name config.indicator).reread := by
    simp only [Draft.finish, reread, again.tables, again.required, again.templates, again.raws]
  rw [← finished]
  exact parse_of_readAt (whole.trans ends) none

/-- The printed source of any other template is refused. -/
theorem parse_text_error (unwritable : ¬t.Writable) :
    ∃ e, parse .core config name t.text = .error e := by
  obtain ⟨d, closed, rfl, replays⟩ := replays_of_parse admitted parsed
  obtain ⟨failure, refused⟩ := replays.refused unwritable [] fun _ c first => by cases first
  rw [List.append_nil] at refused
  exact parse_of_readAt_error refused

end

/-- The printed source of a template can be parsed exactly if every integer in its expressions has a
literal. -/
theorem parses_again_iff {json : String} (accepted : Config.ofJson json = .ok config)
    (parsed : parse .core config name source = .ok t) :
    (∃ again, parse .core config name t.text = .ok again) ↔ t.Writable := by
  have admitted := Config.admitsIndicator_of_ofJson accepted
  constructor
  · rintro ⟨again, read⟩
    by_contra unwritable
    obtain ⟨failure, refused⟩ := parse_text_error admitted parsed unwritable
    rw [refused] at read
    cases read
  · intro writable
    exact ⟨t.reread, parse_text admitted parsed writable⟩

/-- A sum is parsed again. -/
theorem parses_again_sum : ∃ config page, Config.ofJson "[]" = .ok config ∧
    parse .core config "page" "#(x + 1)" = .ok page ∧ page.Writable ∧
    ∃ again, parse .core config "page" page.text = .ok again := by
  have accepted : Config.ofJson "[]" = .ok {} := rfl
  have writable : ((parse .core {} "page" "#(x + 1)").toOption.any fun page =>
      page.tables.all (·.all (·.exprs.all Expr.writable))) = true := by
    decide +kernel
  obtain ⟨page, parsed, writable⟩ := ok_of_any writable
  have all : page.Writable := by
    intro nodes mem node inside e given
    exact List.all_eq_true.mp
      (List.all_eq_true.mp (List.all_eq_true.mp writable nodes mem) node inside) e given
  exact ⟨{}, page, accepted, parsed, all, (parses_again_iff accepted parsed).mpr all⟩

/-- The least integer comes from constants, and has no literal: its digits are read as an integer of
their own before the sign is, and are too many for one. -/
theorem least_integer_not_parsed_again : ∃ config page, Config.ofJson "[]" = .ok config ∧
    parse .core config "page" "#(-9223372036854775807 - 1)" = .ok page ∧
    ∃ failure, parse .core config "page" page.text = .error failure := by
  have refused : ((parse .core {} "page" "#(-9223372036854775807 - 1)").toOption.any fun page =>
      !(parse .core {} "page" page.text).isOk) = true := by
    decide +kernel
  obtain ⟨page, parsed, refused⟩ := ok_of_any refused
  cases again : parse .core {} "page" page.text with
  | error failure => exact ⟨{}, page, rfl, parsed, failure, again⟩
  | ok other =>
    rw [again] at refused
    cases refused

end Template

end Stencil
