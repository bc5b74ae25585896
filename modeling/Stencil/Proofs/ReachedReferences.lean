import Stencil.Proofs.Splices

/-!
# Reached references

A template comes to the places that are empty in it, and through the registered templates for them
to the empty places of these. Splicing one in brings nothing else to come to, and leaves what is
reached but not registered.
-/

namespace Stencil

namespace Engine

/-- A name is registered for a template that parses. -/
def Opens (engine : Engine) (name : String) (other : Template) : Prop :=
  ∃ source, engine.templates.find? name = some source ∧ engine.parse name source = .ok other

/-- A chain of references leads from a template through registered ones to the last of them. -/
inductive Leads (engine : Engine) : Template → List String → Template → Prop
  | here (t : Template) : Leads engine t [] t
  | through {t other last : Template} {name : String} {names : List String}
      (place : (name, false) ∈ t.emptyPlaces) (opens : engine.Opens name other)
      (rest : Leads engine other names last) : Leads engine t (name :: names) last

/-- A chain leads from a template to an empty place. -/
def Reaches (engine : Engine) (t : Template) (place : String × Bool) : Prop :=
  ∃ names last, engine.Leads t names last ∧ place ∈ last.emptyPlaces

/-- There is a template or a raw text for a place. -/
def Registers (engine : Engine) (place : String × Bool) : Prop :=
  (if place.2 then engine.raws else engine.templates).find? place.1 ≠ none

/-- All registered templates that are reached parse, the name of the template itself is not reached,
and no chain has more references than this. -/
structure Resolvable (engine : Engine) (t : Template) (bound : Nat) : Prop where
  parses : ∀ name source, engine.Reaches t (name, false) →
    engine.templates.find? name = some source → ∃ other, engine.parse name source = .ok other
  foreign : ¬engine.Reaches t (t.name, false)
  short : ∀ names last, engine.Leads t names last → names.length ≤ bound

variable {engine : Engine} {t u v other mid last : Template} {name : String}
  {names more : List String} {place : String × Bool}

theorem Opens.unique {first second : Template} (h : engine.Opens name first)
    (h' : engine.Opens name second) : first = second := by
  obtain ⟨source, found, parsed⟩ := h
  obtain ⟨source', found', parsed'⟩ := h'
  cases found.symm.trans found'
  exact Except.ok.inj (parsed.symm.trans parsed')

theorem Opens.registers (h : engine.Opens name other) : engine.Registers (name, false) := by
  obtain ⟨source, found, -⟩ := h
  exact fun none => by cases found.symm.trans none

theorem Opens.parsed (h : engine.Opens name other) : other.Parsed := by
  obtain ⟨source, -, parsed⟩ := h
  exact Template.parsed_of_parse parsed

theorem Leads.append (h : engine.Leads t names mid) (h' : engine.Leads mid more last) :
    engine.Leads t (names ++ more) last := by
  induction h with
  | here => exact h'
  | through place opens _ ih => exact .through place opens (ih h')

theorem reaches_of_mem (mem : place ∈ t.emptyPlaces) : engine.Reaches t place :=
  ⟨[], t, .here t, mem⟩

/-- A place is reached through at least one registered template. -/
def Below (engine : Engine) (t : Template) (place : String × Bool) : Prop :=
  ∃ name other, (name, false) ∈ t.emptyPlaces ∧ engine.Opens name other ∧ engine.Reaches other place

theorem reaches_iff :
    engine.Reaches t place ↔ place ∈ t.emptyPlaces ∨ engine.Below t place := by
  constructor
  · rintro ⟨names, last, leads, mem⟩
    cases leads with
    | here => exact .inl mem
    | @through _ other _ name names place opens rest =>
      exact .inr ⟨name, other, place, opens, names, last, rest, mem⟩
  · rintro (mem | ⟨name, other, mem, opens, names, last, rest, inside⟩)
    · exact reaches_of_mem mem
    · exact ⟨name :: names, last, .through mem opens rest, inside⟩

/-- What is reached through a template that is reached is below. -/
theorem below_of_opens (h : engine.Reaches t (name, false)) (opens : engine.Opens name other)
    (inside : engine.Reaches other place) : engine.Below t place := by
  obtain ⟨names, last, leads, mem⟩ := h
  obtain ⟨more, bottom, rest, found⟩ := inside
  have whole : engine.Leads t (names ++ name :: more) bottom :=
    leads.append (.through mem opens rest)
  cases names with
  | nil =>
    cases leads
    exact ⟨name, other, mem, opens, more, bottom, rest, found⟩
  | cons first names =>
    cases whole with
    | @through _ next _ _ _ here opened behind =>
      exact ⟨first, next, here, opened, _, bottom, behind, found⟩

/-- Whatever comes to places that are reached reaches nothing else. -/
theorem reaches_of_within (within : ∀ q ∈ u.emptyPlaces, engine.Reaches t q)
    (h : engine.Reaches u place) : engine.Reaches t place := by
  rcases reaches_iff.mp h with mem | ⟨name, other, mem, opens, inside⟩
  · exact within _ mem
  · exact reaches_iff.mpr (.inr (below_of_opens (within _ mem) opens inside))

/-- From a template to another that splicing registered ones makes of it. -/
structure Advances (engine : Engine) (t u : Template) : Prop where
  name : u.name = t.name
  /-- Nothing else is reached. -/
  within : ∀ q ∈ u.emptyPlaces, engine.Reaches t q
  /-- What is not registered is still reached. -/
  keeps : ∀ q, engine.Reaches t q → ¬engine.Registers q → engine.Reaches u q

namespace Advances

theorem refl (engine : Engine) (t : Template) : engine.Advances t t :=
  ⟨rfl, fun _ mem => reaches_of_mem mem, fun _ reached _ => reached⟩

theorem trans (h : engine.Advances t u) (h' : engine.Advances u v) : engine.Advances t v :=
  ⟨h'.name.trans h.name, fun q mem => reaches_of_within h.within (h'.within q mem),
    fun q reached not => h'.keeps q (h.keeps q reached not) not⟩

/-- Chains from the new template go on from the old one. -/
theorem exists_leads (h : engine.Advances t u) (leads : engine.Leads u (name :: names) last) :
    ∃ more, engine.Leads t (more ++ name :: names) last := by
  cases leads with
  | through place opens rest =>
    obtain ⟨more, mid, before, mem⟩ := h.within _ place
    exact ⟨more, before.append (.through mem opens rest)⟩

theorem resolvable (h : engine.Advances t u) {bound : Nat}
    (resolvable : engine.Resolvable t bound) : engine.Resolvable u bound := by
  refine ⟨fun name source reached => ?_, fun own => ?_, fun names last leads => ?_⟩
  · exact resolvable.parses name source (reaches_of_within h.within reached)
  · rw [h.name] at own
    exact resolvable.foreign (reaches_of_within h.within own)
  · cases names with
    | nil => exact Nat.zero_le _
    | cons name names =>
      obtain ⟨more, whole⟩ := h.exists_leads leads
      have bounded := resolvable.short _ _ whole
      rw [List.length_append] at bounded
      omega

end Advances

/-- A splice is registered under its name. -/
def Offers (engine : Engine) : Splice → Prop
  | .template name other => engine.Opens name other
  | .raw name text => engine.raws.find? name = some text

variable {s : Splice}

theorem Offers.registers (h : engine.Offers s) : engine.Registers s.place := by
  cases s with
  | template name other => exact Opens.registers h
  | raw name text => exact fun none => by cases Eq.trans (Eq.symm h) none

theorem Offers.given (h : engine.Offers s) : s.Given :=
  match s with
  | .template .. => .given (Opens.parsed h)
  | .raw .. => trivial

theorem Offers.waits (h : engine.Offers s) : s.Waits :=
  match s with
  | .template .. => (Opens.parsed h).waits
  | .raw name text => Splice.waits_raw name text

end Engine

namespace Splice

variable {s : Splice} {t : Template}

/-- The empty places after a splice. -/
theorem mem_emptyPlaces_into (foreign : (t.name, false) ∉ t.emptyPlaces) {q : String × Bool} :
    q ∈ (s.into t).1.emptyPlaces ↔ q ∈ t.emptyPlaces ∧ q ≠ s.place ∨
      s.place ∈ t.emptyPlaces ∧ q ∈ s.emptyPlaces := by
  by_cases mem : s.place ∈ t.emptyPlaces
  · have other : ¬s.IsOwn t := fun own => foreign (own ▸ mem)
    rw [into_of_mem other mem, mem_emptyPlaces_filling, and_iff_right mem]
  · rw [into_of_not_mem mem, or_iff_left (fun both => mem both.1)]
    exact (and_iff_left_of_imp fun inside (same : q = s.place) => mem (same ▸ inside)).symm

theorem into_fst_of_zero (none : (s.into t).2 = 0) : (s.into t).1 = t := by
  rw [into_eq] at none ⊢
  split
  · rfl
  · rename_i some
    rw [if_neg some] at none
    exact absurd (.inr none) some

theorem not_mem_of_zero (foreign : (t.name, false) ∉ t.emptyPlaces) (none : (s.into t).2 = 0) :
    s.place ∉ t.emptyPlaces := by
  intro mem
  have other : ¬s.IsOwn t := fun own => foreign (own ▸ mem)
  rw [into_of_mem other mem] at none
  exact Template.countAwaiting_ne_zero.mpr mem none

end Splice

namespace Engine

variable {engine : Engine} {t u v : Template} {s : Splice} {bound : Nat}

theorem Resolvable.not_mem (h : engine.Resolvable t bound) : (t.name, false) ∉ t.emptyPlaces :=
  fun mem => h.foreign (reaches_of_mem mem)

/-- A splice leaves what is reached but not registered. -/
theorem Offers.advances (offers : engine.Offers s) (foreign : (t.name, false) ∉ t.emptyPlaces) :
    engine.Advances t (s.into t).1 := by
  have places {q : String × Bool} := Splice.mem_emptyPlaces_into (s := s) foreign (q := q)
  have registered := offers.registers
  refine ⟨s.name_into t, fun q mem => ?_, fun q reached not => ?_⟩
  · rcases places.mp mem with ⟨old, -⟩ | ⟨here, brought⟩
    · exact reaches_of_mem old
    · cases s with
      | template name other =>
        exact reaches_iff.mpr (.inr ⟨name, other, here, offers, reaches_of_mem brought⟩)
      | raw name text => cases brought
  · have other : q ≠ s.place := fun same => not (same ▸ registered)
    rcases reaches_iff.mp reached with mem | ⟨name, part, mem, opens, inside⟩
    · exact reaches_of_mem (places.mpr (.inl ⟨mem, other⟩))
    · by_cases same : (name, false) = s.place
      · cases s with
        | template =>
          cases same
          cases Opens.unique opens offers
          refine reaches_of_within (fun p brought => ?_) inside
          exact reaches_of_mem (places.mpr (.inr ⟨mem, brought⟩))
        | raw => cases same
      · exact reaches_iff.mpr (.inr ⟨name, part, places.mpr (.inl ⟨mem, same⟩), opens, inside⟩)

end Engine

end Stencil
