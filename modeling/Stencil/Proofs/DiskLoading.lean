import Mathlib.Data.Finset.Card
import Mathlib.Data.List.Chain
import Stencil.CommandLine.Run
import Stencil.Proofs.ReachedReferences
import Stencil.Proofs.WrittenNames

/-!
# Loading from a folder

The command line reads the files that a template waits for, splices, and goes on as long as a round
has read a file that was not registered. Splicing may make a template wait for more, and templates
that inline each other are never all in place; but what is waited for is written in the template, in
a registered template or in a file, and a text writes no more names than it has bytes. So the rounds
come to an end (`CommandLine.loading_ends`): each but the last registers a name of this supply, and
in the end what is missing has no file, or is registered.
-/

namespace Stencil

/-! ## What is registered -/

namespace Engine

variable {engine engine' engine'' : Engine} {place other : String × Bool} {text : String}

/-- What is registered for a place. -/
def text? (engine : Engine) (place : String × Bool) : Option String :=
  (if place.2 then engine.raws else engine.templates).find? place.1

theorem registers_iff : engine.Registers place ↔ ∃ text, engine.text? place = some text :=
  Option.ne_none_iff_exists'

/-- Registers a text for a place. -/
def register (engine : Engine) (place : String × Bool) (text : String) : Engine :=
  if place.2 then engine.addRaw place.1 text else engine.addTemplate place.1 text

theorem text?_register_self (engine : Engine) (place : String × Bool) (text : String) :
    (engine.register place text).text? place = some text := by
  obtain ⟨name, _ | _⟩ := place <;> exact Entries.find?_insert_self ..

theorem text?_register_of_ne (other_ne : other ≠ place) (text : String) :
    (engine.register place text).text? other = engine.text? other := by
  obtain ⟨name, asRaw⟩ := place
  obtain ⟨name', asRaw'⟩ := other
  have apart (same : asRaw' = asRaw) : name' ≠ name := by
    rintro rfl
    exact other_ne (same ▸ rfl)
  cases asRaw <;> cases asRaw'
  · exact Entries.find?_insert_of_ne (apart rfl) ..
  · rfl
  · rfl
  · exact Entries.find?_insert_of_ne (apart rfl) ..

/-- An engine that has all that another has registered, and is the same but for what it has
registered. -/
structure Extends (engine' engine : Engine) : Prop where
  entities : engine'.entities = engine.entities
  config : engine'.config = engine.config
  kept : ∀ place text, engine.text? place = some text → engine'.text? place = some text

namespace Extends

theorem refl (engine : Engine) : engine.Extends engine := ⟨rfl, rfl, fun _ _ here => here⟩

theorem trans (h : engine''.Extends engine') (h' : engine'.Extends engine) :
    engine''.Extends engine :=
  ⟨h.entities.trans h'.entities, h.config.trans h'.config,
    fun place text here => h.kept place text (h'.kept place text here)⟩

theorem registers (h : engine'.Extends engine) (here : engine.Registers place) :
    engine'.Registers place := by
  obtain ⟨text, found⟩ := registers_iff.mp here
  exact registers_iff.mpr ⟨text, h.kept place text found⟩

theorem register (free : engine.text? place = none) (text : String) :
    (engine.register place text).Extends engine := by
  refine ⟨?_, ?_, fun other found here => ?_⟩
  · unfold Engine.register
    split <;> rfl
  · unfold Engine.register
    split <;> rfl
  · rw [text?_register_of_ne _ text, here]
    rintro rfl
    cases free.symm.trans here

end Extends

end Engine

namespace CommandLine

open Engine (Extends)

variable {disk : Disk} {folder : String} {engine engine' : Engine} {t t' : Template}
  {places more : List (String × Bool)} {place : String × Bool} {count : Nat}

/-- Where the file for a place is looked for. -/
def fileOf (folder : String) (place : String × Bool) : String :=
  Path.join folder (if place.2 then place.1 else place.1 ++ "." ++ templateExtension)

/-- From an engine to another, so many of the places were read that were not registered before, and
no other is left that has a file. -/
structure Loaded (disk : Disk) (folder : String) (places : List (String × Bool))
    (engine engine' : Engine) (count : Nat) : Prop where
  grows : engine'.Extends engine
  /-- What is registered is what it was, or the file for a place. -/
  origin : ∀ place text, engine'.text? place = some text →
    engine.text? place = some text ∨ disk.readText (fileOf folder place) = .ok text
  idle : count = 0 → engine' = engine
  new : count ≠ 0 → ∃ place ∈ places, ¬engine.Registers place ∧ engine'.Registers place
  complete : ∀ place ∈ places,
    engine'.Registers place ∨ disk.isFile (fileOf folder place) = false

namespace Loaded

theorem nil (disk : Disk) (folder : String) (engine : Engine) :
    Loaded disk folder [] engine engine 0 :=
  ⟨.refl engine, fun _ _ here => .inl here, fun _ => rfl, fun none => absurd rfl none, by simp⟩

theorem skip (settled : engine.Registers place ∨ disk.isFile (fileOf folder place) = false)
    (h : Loaded disk folder places engine engine' count) :
    Loaded disk folder (place :: places) engine engine' count := by
  refine ⟨h.grows, h.origin, h.idle, fun some => ?_, List.forall_mem_cons.mpr ⟨?_, h.complete⟩⟩
  · obtain ⟨other, mem, registered⟩ := h.new some
    exact ⟨other, .tail _ mem, registered⟩
  · exact settled.imp_left h.grows.registers

theorem read {text : String} (free : engine.text? place = none)
    (found : disk.readText (fileOf folder place) = .ok text)
    (h : Loaded disk folder places (engine.register place text) engine' count) :
    Loaded disk folder (place :: places) engine engine' (count + 1) := by
  have here : engine'.Registers place := h.grows.registers
    (Engine.registers_iff.mpr ⟨text, Engine.text?_register_self engine place text⟩)
  refine ⟨h.grows.trans (.register free text), fun other seen after => ?_, fun none => ?_,
    fun _ => ⟨place, .head _, not_not_intro free, here⟩,
    List.forall_mem_cons.mpr ⟨.inl here, h.complete⟩⟩
  · refine (h.origin other seen after).elim (fun before => ?_) .inr
    by_cases same : other = place
    · subst same
      rw [Engine.text?_register_self] at before
      cases before
      exact .inr found
    · rw [Engine.text?_register_of_ne same] at before
      exact .inl before
  · cases none

end Loaded

/-- Registers the files of a folder for places that are not registered; gives their number. -/
def loadPlaces (disk : Disk) (folder : String) :
    List (String × Bool) → Engine → Nat → Except Causes (Engine × Nat)
  | [], engine, loaded => .ok (engine, loaded)
  | place :: places, engine, loaded =>
    let path := fileOf folder place
    if (engine.text? place).isSome || !disk.isFile path then
      loadPlaces disk folder places engine loaded
    else
      match disk.readText path with
      | .error e => .error (unreadable (if place.2 then "文件" else "模板") path e)
      | .ok text => loadPlaces disk folder places (engine.register place text) (loaded + 1)

theorem loadTemplates_eq (names : List String) (engine : Engine) (loaded : Nat) :
    loadTemplates disk folder names engine loaded =
      loadPlaces disk folder (names.map (·, false)) engine loaded := by
  induction names generalizing engine loaded with
  | nil => rfl
  | cons name names ih =>
    simp only [loadTemplates, ih]
    rfl

theorem loadRaws_eq (names : List String) (engine : Engine) (loaded : Nat) :
    loadRaws disk folder names engine loaded =
      loadPlaces disk folder (names.map (·, true)) engine loaded := by
  induction names generalizing engine loaded with
  | nil => rfl
  | cons name names ih =>
    simp only [loadRaws, ih]
    rfl

theorem loadPlaces_append (places more : List (String × Bool)) (engine : Engine) (loaded : Nat) :
    loadPlaces disk folder (places ++ more) engine loaded =
      (loadPlaces disk folder places engine loaded).bind fun state =>
        loadPlaces disk folder more state.1 state.2 := by
  induction places generalizing engine loaded with
  | nil => rfl
  | cons place places ih =>
    rw [List.cons_append, loadPlaces, loadPlaces]
    split
    · exact ih engine loaded
    · cases disk.readText (fileOf folder place) with
      | error e => rfl
      | ok text => exact ih _ _

/-- What a template waits for is read in order, the templates first. -/
theorem loadMissing_eq (disk : Disk) (folder : String) (engine : Engine) (t : Template) :
    loadMissing disk folder engine t = loadPlaces disk folder t.noted engine 0 := by
  rw [loadMissing, Template.noted, loadPlaces_append, loadTemplates_eq]
  cases loadPlaces disk folder (t.templates.map (·, false)) engine 0 with
  | error causes => rfl
  | ok state => exact loadRaws_eq t.raws state.1 state.2

theorem loaded_of_loadPlaces {before after : Nat}
    (h : loadPlaces disk folder places engine before = .ok (engine', after)) :
    ∃ count, after = before + count ∧ Loaded disk folder places engine engine' count := by
  induction places generalizing engine before with
  | nil =>
    cases h
    exact ⟨0, rfl, .nil ..⟩
  | cons place places ih =>
    rw [loadPlaces] at h
    split at h
    · rename_i skipped
      have settled : engine.Registers place ∨ disk.isFile (fileOf folder place) = false := by
        rcases Bool.or_eq_true_iff.mp skipped with known | missing
        · exact .inl (Option.isSome_iff_ne_none.mp known)
        · exact .inr ((Bool.not_eq_true' _).mp missing)
      obtain ⟨count, sum, loaded⟩ := ih h
      exact ⟨count, sum, loaded.skip settled⟩
    · rename_i kept
      rw [Bool.or_eq_true, not_or] at kept
      split at h
      · cases h
      · rename_i text found
        obtain ⟨count, sum, loaded⟩ := ih h
        have free : engine.text? place = none := Option.not_isSome_iff_eq_none.mp kept.1
        exact ⟨count + 1, by omega, .read free found loaded⟩

theorem loaded_of_loadMissing (h : loadMissing disk folder engine t = .ok (engine', count)) :
    Loaded disk folder t.noted engine engine' count := by
  rw [loadMissing_eq] at h
  obtain ⟨_, rfl, loaded⟩ := loaded_of_loadPlaces h
  rwa [Nat.zero_add]

/-! ## The supply of names -/

/-- All names that rounds can come to are among these places: those that a template waits for, and
those that registered templates and files write. -/
structure Supplied (disk : Disk) (places : List (String × Bool)) (engine : Engine) (t : Template) :
    Prop where
  noted : t.noted ⊆ places
  registered : ∀ name source, engine.templates.find? name = some source →
    Template.written engine.entities engine.config source ⊆ places
  files : ∀ path text, disk.readText path = .ok text →
    Template.written engine.entities engine.config text ⊆ places

/-- The files that a file names, if it is the text of a template. -/
def writtenIn (entities : Entities) (config : Config) (content : ByteArray) :
    List (String × Bool) :=
  ((String.fromUTF8? content).map (Template.written entities config)).getD []

/-- The names that a template, an engine and the files have. -/
def supply (disk : Disk) (engine : Engine) (t : Template) : List (String × Bool) :=
  t.noted ++
  engine.templates.flatMap (fun entry =>
    Template.written engine.entities engine.config entry.2) ++
  disk.files.flatMap fun entry => writtenIn engine.entities engine.config entry.2

theorem mem_of_readText {path text : String} (h : disk.readText path = .ok text) :
    ∃ entry ∈ disk.files, String.fromUTF8? entry.2 = some text := by
  unfold Disk.readText at h
  split at h
  · cases h
  · split at h
    · rename_i content found
      obtain ⟨entry, first, rfl⟩ := Option.map_eq_some_iff.mp found
      split at h
      · rename_i decoded
        cases h
        exact ⟨entry, List.mem_of_find?_eq_some first, decoded⟩
      · cases h
    · cases h

theorem utf8ByteSize_of_fromUTF8? {content : ByteArray} {text : String}
    (h : String.fromUTF8? content = some text) : text.utf8ByteSize = content.size := by
  unfold String.fromUTF8? at h
  split at h
  · cases h
    rfl
  · cases h

theorem length_writtenIn_le (entities : Entities) (config : Config) (content : ByteArray) :
    (writtenIn entities config content).length ≤ content.size := by
  unfold writtenIn
  cases decoded : String.fromUTF8? content with
  | none => exact Nat.zero_le _
  | some text =>
    rw [← utf8ByteSize_of_fromUTF8? decoded]
    exact Template.length_written_le entities config text

theorem mem_of_find? {α : Type} {entries : Entries α} {key : String} {value : α}
    (h : entries.find? key = some value) : (key, value) ∈ entries := by
  induction entries with
  | nil => cases h
  | cons entry rest ih =>
    rw [Entries.find?] at h
    split at h
    · rename_i same
      cases h
      rw [← same]
      exact .head _
    · exact .tail _ (ih h)

theorem supplied_supply (disk : Disk) (engine : Engine) (t : Template) :
    Supplied disk (supply disk engine t) engine t := by
  refine ⟨fun place mem => ?_, fun name source found place mem => ?_,
    fun path text found place mem => ?_⟩
  · exact List.mem_append_left _ (List.mem_append_left _ mem)
  · refine List.mem_append_left _ (List.mem_append_right _ ?_)
    exact List.mem_flatMap.mpr ⟨_, mem_of_find? found, mem⟩
  · obtain ⟨entry, inside, decoded⟩ := mem_of_readText found
    refine List.mem_append_right _ (List.mem_flatMap.mpr ⟨entry, inside, ?_⟩)
    rwa [writtenIn, decoded]

theorem length_flatMap_le {α β : Type} {f : α → List β} {size : α → Nat}
    (each : ∀ a, (f a).length ≤ size a) (items : List α) (start : Nat) :
    start + (items.flatMap f).length ≤ items.foldl (fun total a => total + size a) start := by
  induction items generalizing start with
  | nil => exact Nat.le_refl _
  | cons a items ih =>
    have rest := ih (start + size a)
    have here := each a
    rw [List.flatMap_cons, List.length_append, List.foldl_cons]
    omega

/-- There are no more of them than the template waits for and all sources have bytes. -/
theorem length_supply_le (disk : Disk) (engine : Engine) (t : Template) :
    (supply disk engine t).length ≤
      t.templates.length + t.raws.length + engine.sourceSize + disk.size := by
  have own : t.noted.length = t.templates.length + t.raws.length := by simp [Template.noted]
  have registered := length_flatMap_le (fun entry : String × String =>
    Template.length_written_le engine.entities engine.config entry.2) engine.templates 0
  have files := length_flatMap_le (fun entry : List String × ByteArray =>
    length_writtenIn_le engine.entities engine.config entry.2) disk.files 0
  unfold supply Engine.sourceSize Disk.size
  rw [List.length_append, List.length_append]
  omega

namespace Supplied

theorem load (h : Supplied disk places engine t)
    (loaded : Loaded disk folder more engine engine' count) :
    Supplied disk places engine' t := by
  obtain ⟨entities, config, -⟩ := loaded.grows
  refine ⟨h.noted, fun name source found => ?_, ?_⟩
  · rw [entities, config]
    rcases loaded.origin (name, false) source found with old | read
    · exact h.registered name source old
    · exact h.files _ source read
  · rw [entities, config]
    exact h.files

/-- Splicing comes to no other names. -/
theorem resolve (h : Supplied disk places engine t) :
    Supplied disk places engine (engine.resolve t).1 := by
  have spliced : Template.Assembled (fun u => u.noted ⊆ places) (engine.resolve t).1 := by
    refine Engine.assembled_resolve_of_registered (fun found made => ?_) (.given h.noted)
    rw [Template.noted_of_parse made]
    exact h.registered _ _ found
  refine ⟨?_, h.registered, h.files⟩
  generalize (engine.resolve t).1 = u at spliced ⊢
  induction spliced with
  | given inside => exact inside
  | @inlineTemplate u other name _ _ ih part =>
    exact List.Subset.trans (u.noted_inlineTemplate name other) (List.append_subset.mpr ⟨ih, part⟩)
  | @inlineRaw u name text _ ih => exact List.Subset.trans (u.noted_inlineRaw name text) ih

end Supplied

/-! ## The rounds -/

/-- The rounds of reading and splicing, however many, with the engine that each but the last leaves
behind, and what the last ends with. -/
inductive Loads (disk : Disk) (folder : String) :
    Engine → Template → List Engine → Except Causes (Engine × Template) → Prop
  | unreadable {engine : Engine} {t : Template} {causes : Causes}
      (read : loadMissing disk folder engine t = .error causes) :
      Loads disk folder engine t [] (.error causes)
  | nothing {engine engine' : Engine} {t : Template}
      (read : loadMissing disk folder engine t = .ok (engine', 0)) :
      Loads disk folder engine t [] (.ok (engine', t))
  | refused {engine engine' : Engine} {t t' : Template} {count : Nat} {failure : Failure}
      (read : loadMissing disk folder engine t = .ok (engine', count)) (some : count ≠ 0)
      (resolved : engine'.resolve t = (t', .error failure)) :
      Loads disk folder engine t [] (.error (causesOf failure))
  | again {engine engine' : Engine} {t t' : Template} {count filled : Nat}
      {later : List Engine} {result : Except Causes (Engine × Template)}
      (read : loadMissing disk folder engine t = .ok (engine', count)) (some : count ≠ 0)
      (resolved : engine'.resolve t = (t', .ok filled))
      (rest : Loads disk folder engine' t' later result) :
      Loads disk folder engine t (engine' :: later) result

/-- An engine that has all that another has registered, and something else. -/
def Gains (engine engine' : Engine) : Prop :=
  engine'.Extends engine ∧ ∃ place, ¬engine.Registers place ∧ engine'.Registers place

/-- A file for a place is registered, or there is none. -/
def Settled (disk : Disk) (folder : String) (engine : Engine) (place : String × Bool) : Prop :=
  engine.Registers place ∨ disk.isFile (fileOf folder place) = false

variable {later : List Engine} {result : Except Causes (Engine × Template)}

theorem Loaded.gains (h : Loaded disk folder places engine engine' count) (some : count ≠ 0) :
    Gains engine engine' := by
  obtain ⟨place, -, fresh, registered⟩ := h.new some
  exact ⟨h.grows, place, fresh, registered⟩

namespace Loads

/-- Each round but the last registers something. -/
theorem isChain (h : Loads disk folder engine t later result) :
    (engine :: later).IsChain Gains := by
  induction h with
  | unreadable | nothing | refused => exact .singleton _
  | again read some _ _ ih =>
    exact .cons_cons ((loaded_of_loadMissing read).gains some) ih

/-- What is missing when the rounds end well cannot be read. -/
theorem settled (h : Loads disk folder engine t later (.ok (engine', t'))) :
    ∀ place ∈ t'.noted, Settled disk folder engine' place := by
  generalize ended : Except.ok (engine', t') = result at h
  induction h with
  | unreadable | refused => cases ended
  | nothing read =>
    cases ended
    exact (loaded_of_loadMissing read).complete
  | again _ _ _ _ ih => exact ih ended

theorem unique {later' : List Engine} {result' : Except Causes (Engine × Template)}
    (h : Loads disk folder engine t later result) (h' : Loads disk folder engine t later' result') :
    later = later' ∧ result = result' := by
  induction h generalizing later' with
  | unreadable read =>
    cases h' with
    | unreadable read' => cases read.symm.trans read'; exact ⟨rfl, rfl⟩
    | nothing read' | refused read' | again read' => cases read.symm.trans read'
  | nothing read =>
    cases h' with
    | nothing read' => cases read.symm.trans read'; exact ⟨rfl, rfl⟩
    | unreadable read' => cases read.symm.trans read'
    | refused read' some | again read' some => cases read.symm.trans read'; exact absurd rfl some
  | refused read some resolved =>
    cases h' with
    | refused read' _ resolved' =>
      cases read.symm.trans read'
      cases resolved.symm.trans resolved'
      exact ⟨rfl, rfl⟩
    | unreadable read' => cases read.symm.trans read'
    | nothing read' => cases read.symm.trans read'; exact absurd rfl some
    | again read' _ resolved' =>
      cases read.symm.trans read'
      cases resolved.symm.trans resolved'
  | again read some resolved _ ih =>
    cases h' with
    | again read' _ resolved' rest' =>
      cases read.symm.trans read'
      cases resolved.symm.trans resolved'
      obtain ⟨rfl, rfl⟩ := ih rest'
      exact ⟨rfl, rfl⟩
    | unreadable read' => cases read.symm.trans read'
    | nothing read' => cases read.symm.trans read'; exact absurd rfl some
    | refused read' _ resolved' =>
      cases read.symm.trans read'
      cases resolved.symm.trans resolved'

/-- Rounds that end are not cut off by a larger number of rounds. -/
theorem spliceRounds_eq (h : Loads disk folder engine t later result) {rounds : Nat}
    (enough : later.length < rounds) : spliceRounds disk folder rounds engine t = result := by
  obtain ⟨rounds, rfl⟩ : ∃ n, rounds = n + 1 := ⟨rounds - 1, by omega⟩
  induction h generalizing rounds with
  | unreadable read => simp only [spliceRounds, read]
  | nothing read => simp only [spliceRounds, read, if_pos]
  | refused read some resolved => simp only [spliceRounds, read, if_neg some, resolved]
  | again read some resolved _ ih =>
    rw [List.length_cons] at enough
    obtain ⟨rounds, rfl⟩ : ∃ n, rounds = n + 1 := ⟨rounds - 1, by omega⟩
    simp only [spliceRounds, read, if_neg some, resolved]
    exact ih rounds (by omega)

end Loads

/-- How many of the places are not registered. -/
def unregistered (engine : Engine) (places : List (String × Bool)) : Nat :=
  (places.toFinset.filter fun place => engine.text? place = none).card

theorem unregistered_lt (h : Loaded disk folder more engine engine' count) (some : count ≠ 0)
    (inside : more ⊆ places) : unregistered engine' places < unregistered engine places := by
  obtain ⟨place, mem, fresh, registered⟩ := h.new some
  refine Finset.card_lt_card ((Finset.ssubset_iff_of_subset fun other here => ?_).mpr
    ⟨place, ?_, ?_⟩)
  · rw [Finset.mem_filter] at here ⊢
    exact ⟨here.1, Classical.not_not.mp fun old => h.grows.registers old here.2⟩
  · rw [Finset.mem_filter, List.mem_toFinset]
    exact ⟨inside mem, Classical.not_not.mp fresh⟩
  · exact fun here => registered (Finset.mem_filter.mp here).2

/-- The rounds end: each registers one at least of the places that are not registered, and comes to
no others. -/
theorem exists_loads (folder : String) (h : Supplied disk places engine t) :
    ∃ later result, Loads disk folder engine t later result ∧
      later.length ≤ unregistered engine places := by
  induction left : unregistered engine places using Nat.strong_induction_on
    generalizing engine t with
  | h left ih =>
    subst left
    cases read : loadMissing disk folder engine t with
    | error causes => exact ⟨[], _, .unreadable read, Nat.zero_le _⟩
    | ok state =>
      obtain ⟨engine', count⟩ := state
      by_cases none : count = 0
      · subst none
        exact ⟨[], _, .nothing read, Nat.zero_le _⟩
      · have loaded := loaded_of_loadMissing read
        have fewer := unregistered_lt loaded none h.noted
        have supplied := (h.load loaded).resolve
        cases resolved : engine'.resolve t with
        | mk t' ended =>
          rw [resolved] at supplied
          cases ended with
          | error failure => exact ⟨[], _, .refused read none resolved, Nat.zero_le _⟩
          | ok filled =>
            obtain ⟨later, result, rest, bound⟩ := ih _ fewer supplied rfl
            refine ⟨engine' :: later, result, .again read none resolved rest, ?_⟩
            rw [List.length_cons]
            omega

/-- For every folder and every template, reading and splicing ends after finitely many rounds, in
one way. Each round but the last registers a name that was not registered before, and keeps all that
were. If no round fails, each template and each raw text that is still missing is registered or has
no file. -/
theorem loading_ends (disk : Disk) (folder : String) (engine : Engine) (t : Template) :
    ∃ later result, Loads disk folder engine t later result ∧
      (∀ later' result', Loads disk folder engine t later' result' →
        later' = later ∧ result' = result) ∧
      spliceFrom disk folder engine t = result ∧
      later.length ≤ t.templates.length + t.raws.length + engine.sourceSize + disk.size ∧
      (engine :: later).IsChain Gains ∧
      ∀ engine' t', result = .ok (engine', t') →
        (∀ name ∈ t'.templates, Settled disk folder engine' (name, false)) ∧
        ∀ name ∈ t'.raws, Settled disk folder engine' (name, true) := by
  obtain ⟨later, result, loads, bound⟩ := exists_loads folder (supplied_supply disk engine t)
  have short : later.length ≤
      t.templates.length + t.raws.length + engine.sourceSize + disk.size := by
    refine (bound.trans (Finset.card_filter_le _ _)).trans ?_
    exact (List.toFinset_card_le _).trans (length_supply_le disk engine t)
  refine ⟨later, result, loads, fun _ _ other => other.unique loads, ?_, short, loads.isChain, ?_⟩
  · exact loads.spliceRounds_eq (Nat.lt_succ_of_le short)
  · rintro engine' t' rfl
    have settled := loads.settled
    exact ⟨fun name mem => settled _ (Template.mem_noted.mpr mem),
      fun name mem => settled _ (Template.mem_noted.mpr mem)⟩

end CommandLine

end Stencil
