import Stencil.Proofs.ReachedReferences

/-!
# Rounds of a resolution

A round splices in what is registered of the names that a template notes. What is left to splice was
reached through another registered template, so chains get shorter with each round. A round that
fills no place has met nothing registered, and changes nothing. So with as many rounds as the
longest chain has references, everything that is registered is spliced in.
-/

namespace Stencil

namespace Engine

variable {engine : Engine} {t u v other : Template} {s : Splice} {name : String}
  {names : List String} {places : List (String × Bool)} {place : String × Bool} {n bound : Nat}

/-- From a template to another so many places are filled; if none is, nothing changes, and what is
awaited of these places is not registered. -/
structure Splices (engine : Engine) (places : List (String × Bool)) (t u : Template) (count : Nat) :
    Prop where
  fills : t.Fills u count
  idle : count = 0 → u = t ∧ ∀ q ∈ places, q ∈ t.emptyPlaces → ¬engine.Registers q

namespace Splices

theorem nil (engine : Engine) (t : Template) : engine.Splices [] t t 0 :=
  ⟨.refl t, fun _ => ⟨rfl, by simp⟩⟩

theorem skip (h : engine.Splices places t u n) (not : ¬engine.Registers place) :
    engine.Splices (place :: places) t u n := by
  refine ⟨h.fills, fun none => ?_⟩
  obtain ⟨same, rest⟩ := h.idle none
  exact ⟨same, List.forall_mem_cons.mpr ⟨fun _ => not, rest⟩⟩

theorem cons (offers : engine.Offers s) (foreign : (t.name, false) ∉ t.emptyPlaces)
    (h : engine.Splices places (s.into t).1 u n) :
    engine.Splices (s.place :: places) t u ((s.into t).2 + n) := by
  refine ⟨(Splice.fills_into offers.waits t).trans h.fills, fun none => ?_⟩
  obtain ⟨here, behind⟩ := Nat.add_eq_zero_iff.mp none
  obtain ⟨same, rest⟩ := h.idle behind
  have kept : (s.into t).1 = t := Splice.into_fst_of_zero here
  rw [kept] at same rest
  refine ⟨same, List.forall_mem_cons.mpr ⟨fun mem => ?_, rest⟩⟩
  exact absurd mem (Splice.not_mem_of_zero foreign here)

end Splices

/-- What a round has made of a template so far, if templates of these names are still to be spliced
in. -/
structure Round (engine : Engine) (t v : Template) (todo : List String) : Prop where
  assembled : Template.Assembled Template.Parsed v
  advances : engine.Advances t v
  /-- A registered template that is awaited is to be spliced in, or is reached through another. -/
  pending : ∀ name, (name, false) ∈ v.emptyPlaces → engine.Registers (name, false) →
    name ∈ todo ∨ engine.Below t (name, false)

namespace Round

theorem skip (h : engine.Round t v (name :: names)) (not : ¬engine.Registers (name, false)) :
    engine.Round t v names := by
  refine ⟨h.assembled, h.advances, fun other mem registered => ?_⟩
  refine (h.pending other mem registered).imp_left fun todo => ?_
  refine List.mem_of_ne_of_mem ?_ todo
  rintro rfl
  exact not registered

theorem splice (h : engine.Round t v (name :: names)) (foreign : (v.name, false) ∉ v.emptyPlaces)
    (opens : engine.Opens name other) :
    engine.Round t ((Splice.template name other).into v).1 names := by
  have offers : engine.Offers (.template name other) := opens
  refine ⟨h.assembled.into offers.given, h.advances.trans (offers.advances foreign),
    fun next mem registered => ?_⟩
  rcases (Splice.mem_emptyPlaces_into foreign).mp mem with ⟨old, differs⟩ | ⟨here, brought⟩
  · refine (h.pending next old registered).imp_left fun todo => ?_
    refine List.mem_of_ne_of_mem ?_ todo
    rintro rfl
    exact differs rfl
  · exact .inr (below_of_opens (h.advances.within _ here) opens (reaches_of_mem brought))

/-- The templates that are to be spliced in parse, and are spliced in. -/
theorem spliceTemplates (resolvable : engine.Resolvable t bound)
    (reached : ∀ name ∈ names, engine.Reaches t (name, false)) (h : engine.Round t v names)
    (filled : Nat) :
    ∃ u count, engine.spliceTemplates names v filled = (u, .ok (filled + count)) ∧
      engine.Round t u [] ∧ engine.Splices (names.map (·, false)) v u count := by
  induction names generalizing v filled with
  | nil => exact ⟨v, 0, rfl, h, .nil engine v⟩
  | cons name names ih =>
    obtain ⟨here, rest⟩ := List.forall_mem_cons.mp reached
    rw [Engine.spliceTemplates]
    cases found : engine.templates.find? name with
    | none =>
      have not : ¬engine.Registers (name, false) := fun registered => registered found
      obtain ⟨u, count, run, round, splices⟩ := ih rest (h.skip not) filled
      exact ⟨u, count, run, round, splices.skip not⟩
    | some source =>
      obtain ⟨other, parsed⟩ := resolvable.parses name source here found
      have opens : engine.Opens name other := ⟨source, found, parsed⟩
      have foreign := (h.advances.resolvable resolvable).not_mem
      obtain ⟨u, count, run, round, splices⟩ := ih rest (h.splice foreign opens)
        (filled + ((Splice.template name other).into v).2)
      refine ⟨u, ((Splice.template name other).into v).2 + count, ?_, round,
        Splices.cons (s := .template name other) opens foreign splices⟩
      dsimp only
      rw [parsed, ← Nat.add_assoc]
      exact run

/-- After a round every chain is shorter. -/
theorem resolvable (h : engine.Round t v []) (resolvable : engine.Resolvable t (bound + 1)) :
    engine.Resolvable v bound := by
  refine { h.advances.resolvable resolvable with short := fun names last leads => ?_ }
  cases names with
  | nil => exact Nat.zero_le _
  | cons name names =>
    cases leads with
    | through mem opens rest =>
      obtain pending | ⟨first, other, here, opened, before, mid, inside, found⟩ :=
        h.pending name mem opens.registers
      · cases pending
      · have whole : engine.Leads t ((first :: before) ++ name :: names) last :=
          (Leads.through here opened inside).append (.through found opens rest)
        have bounded := resolvable.short _ _ whole
        simp only [List.length_append, List.length_cons] at bounded ⊢
        omega

end Round

/-- A number that each step adds to may be added in the end. -/
theorem foldl_counted {α β : Type} {f : β × Nat → α → β × Nat}
    (adds : ∀ b count a, f (b, count) a = ((f (b, 0) a).1, count + (f (b, 0) a).2)) (xs : List α)
    (b : β) (count : Nat) :
    xs.foldl f (b, count) = ((xs.foldl f (b, 0)).1, count + (xs.foldl f (b, 0)).2) := by
  induction xs generalizing b count with
  | nil => rfl
  | cons x xs ih =>
    have one := ih (f (b, 0) x).1 (f (b, 0) x).2
    rw [List.foldl_cons, List.foldl_cons, adds, ih, one, Nat.add_assoc]

/-- Raw texts are spliced in one after the other. -/
theorem spliceRaws_cons (engine : Engine) (name : String) (names : List String) (t : Template) :
    engine.spliceRaws (name :: names) t =
      match engine.raws.find? name with
      | none => engine.spliceRaws names t
      | some text =>
        ((engine.spliceRaws names ((Splice.raw name text).into t).1).1,
          ((Splice.raw name text).into t).2 +
            (engine.spliceRaws names ((Splice.raw name text).into t).1).2) := by
  unfold spliceRaws
  rw [List.foldl_cons]
  cases found : engine.raws.find? name with
  | none => rfl
  | some text =>
    refine (foldl_counted (fun state count other => ?_) names _ _).trans ?_
    · dsimp only
      cases engine.raws.find? other with
      | none => rfl
      | some text => exact congrArg (Prod.mk _) (congrArg (count + ·) (Nat.zero_add _).symm)
    · rw [Nat.zero_add]
      rfl

/-- The raw texts that are registered are spliced in, and nothing else changes. -/
theorem exists_spliceRaws (engine : Engine) (names : List String)
    (h : Template.Assembled Template.Parsed t) (foreign : (t.name, false) ∉ t.emptyPlaces) :
    ∃ u count, engine.spliceRaws names t = (u, count) ∧ Template.Assembled Template.Parsed u ∧
      engine.Advances t u ∧ engine.Splices (names.map (·, true)) t u count ∧
      ∀ q ∈ u.emptyPlaces, q ∈ t.emptyPlaces ∧
        (q.2 = true → engine.Registers q → q.1 ∉ names) := by
  induction names generalizing t with
  | nil =>
    exact ⟨t, 0, rfl, h, .refl engine t, .nil engine t, fun q mem =>
      ⟨mem, fun _ _ => List.not_mem_nil⟩⟩
  | cons name names ih =>
    rw [spliceRaws_cons]
    cases found : engine.raws.find? name with
    | none =>
      have not : ¬engine.Registers (name, true) := fun registered => registered found
      obtain ⟨u, count, run, assembled, advances, splices, left⟩ := ih h foreign
      refine ⟨u, count, run, assembled, advances, splices.skip not, ?_⟩
      rintro ⟨file, asRaw⟩ mem
      obtain ⟨old, others⟩ := left _ mem
      refine ⟨old, ?_⟩
      rintro rfl registered
      refine List.not_mem_cons_of_ne_of_not_mem ?_ (others rfl registered)
      rintro rfl
      exact not registered
    | some text =>
      have offers : engine.Offers (.raw name text) := found
      have places {q : String × Bool} : q ∈ ((Splice.raw name text).into t).1.emptyPlaces ↔
          q ∈ t.emptyPlaces ∧ q ≠ (name, true) := by
        refine (Splice.mem_emptyPlaces_into foreign).trans (or_iff_left ?_)
        rintro ⟨-, brought⟩
        cases brought
      have foreign' : (((Splice.raw name text).into t).1.name, false) ∉
          ((Splice.raw name text).into t).1.emptyPlaces := by
        rw [Splice.name_into]
        exact fun mem => foreign (places.mp mem).1
      obtain ⟨u, count, run, assembled, advances, splices, left⟩ :=
        ih (h.into offers.given) foreign'
      refine ⟨u, ((Splice.raw name text).into t).2 + count, by dsimp only; rw [run], assembled,
        (offers.advances foreign).trans advances,
        Splices.cons (s := .raw name text) offers foreign splices, ?_⟩
      rintro ⟨file, asRaw⟩ mem
      obtain ⟨inside, others⟩ := left _ mem
      obtain ⟨old, differs⟩ := places.mp inside
      refine ⟨old, ?_⟩
      rintro rfl registered
      refine List.not_mem_cons_of_ne_of_not_mem ?_ (others rfl registered)
      rintro rfl
      exact differs rfl

/-- Nothing that is awaited is registered. -/
def Settled (engine : Engine) (t : Template) : Prop := ∀ q ∈ t.emptyPlaces, ¬engine.Registers q

/-- What is settled stays as it is. -/
theorem resolve_of_settled (h : Template.Assembled Template.Parsed t) (settled : engine.Settled t) :
    engine.resolve t = (t, .ok 0) := by
  have templates : ∀ name ∈ t.templates, engine.templates.find? name = none := fun name mem =>
    Classical.not_not.mp (settled (name, false) ((h.tallies.noted (name, false)).mp mem))
  have raws : ∀ name ∈ t.raws, engine.raws.find? name = none := fun name mem =>
    Classical.not_not.mp (settled (name, true) ((h.tallies.noted (name, true)).mp mem))
  have first : engine.spliceTemplates t.templates t 0 = (t, .ok 0) := by
    generalize t.templates = names at templates
    induction names with
    | nil => rfl
    | cons name names ih =>
      obtain ⟨here, rest⟩ := List.forall_mem_cons.mp templates
      rw [spliceTemplates, here]
      exact ih rest
  have second : engine.spliceRaws t.raws t = (t, 0) := by
    generalize t.raws = names at raws
    induction names with
    | nil => rfl
    | cons name names ih =>
      obtain ⟨here, rest⟩ := List.forall_mem_cons.mp raws
      rw [spliceRaws_cons, here]
      exact ih rest
  rw [resolve, maxInlineRounds, resolveRounds, first]
  dsimp only
  rw [second]
  rfl

/-- A round of a resolution makes chains shorter, and leaves no raw text that is registered. If it
fills nothing, there was nothing to fill. -/
theorem exists_round (resolvable : engine.Resolvable t (bound + 1))
    (h : Template.Assembled Template.Parsed t) :
    ∃ v count u more, engine.spliceTemplates t.templates t 0 = (v, .ok count) ∧
      engine.spliceRaws v.raws v = (u, more) ∧ Template.Assembled Template.Parsed u ∧
      engine.Advances t u ∧ t.Fills u (count + more) ∧ engine.Resolvable u bound ∧
      (∀ name, (name, true) ∈ u.emptyPlaces → ¬engine.Registers (name, true)) ∧
      (count + more = 0 → u = t ∧ engine.Settled t) := by
  have noted := h.tallies.noted
  have start : engine.Round t t t.templates :=
    ⟨h, .refl engine t, fun name mem _ => .inl ((noted (name, false)).mpr mem)⟩
  have reached : ∀ name ∈ t.templates, engine.Reaches t (name, false) := fun name mem =>
    reaches_of_mem ((noted (name, false)).mp mem)
  obtain ⟨v, count, run, round, first⟩ := start.spliceTemplates resolvable reached 0
  have shorter := round.resolvable resolvable
  obtain ⟨u, more, run', assembled, advances, second, left⟩ :=
    exists_spliceRaws engine v.raws round.assembled shorter.not_mem
  refine ⟨v, count, u, more, by rw [run, Nat.zero_add], run', assembled,
    round.advances.trans advances, first.fills.trans second.fills, advances.resolvable shorter,
    fun name mem registered => ?_, fun none => ?_⟩
  · obtain ⟨old, others⟩ := left _ mem
    exact others rfl registered ((round.assembled.tallies.noted (name, true)).mpr old)
  · obtain ⟨none, nothing⟩ := Nat.add_eq_zero_iff.mp none
    obtain ⟨same, templates⟩ := first.idle none
    obtain ⟨kept, raws⟩ := second.idle nothing
    subst same
    refine ⟨kept, ?_⟩
    rintro ⟨file, _ | _⟩ mem
    · exact templates _ (List.mem_map_of_mem ((noted (file, false)).mpr mem)) mem
    · exact raws _ (List.mem_map_of_mem ((noted (file, true)).mpr mem)) mem

/-- As many rounds as the longest chain has references leave nothing registered to splice in; raw
texts take a round of their own if there are no references. -/
theorem exists_resolveRounds {rounds : Nat} (resolvable : engine.Resolvable t rounds)
    (raws : rounds = 0 → ∀ name, (name, true) ∈ t.emptyPlaces → ¬engine.Registers (name, true))
    (h : Template.Assembled Template.Parsed t) (total : Nat) :
    ∃ u count, engine.resolveRounds rounds t total = (u, .ok (total + count)) ∧
      Template.Assembled Template.Parsed u ∧ engine.Advances t u ∧ t.Fills u count ∧
      engine.Settled u := by
  induction rounds generalizing t total with
  | zero =>
    refine ⟨t, 0, rfl, h, .refl engine t, .refl t, ?_⟩
    rintro ⟨file, _ | _⟩ mem registered
    · obtain ⟨source, found⟩ := Option.ne_none_iff_exists'.mp registered
      obtain ⟨other, parsed⟩ := resolvable.parses file source (reaches_of_mem mem) found
      have one := resolvable.short _ _ (.through mem ⟨source, found, parsed⟩ (.here other))
      cases one
    · exact raws rfl file mem registered
  | succ rounds ih =>
    obtain ⟨v, count, w, more, run, run', assembled, advances, fills, shorter, spliced, idle⟩ :=
      exists_round resolvable h
    rw [resolveRounds, run]
    dsimp only
    rw [run']
    dsimp only
    split
    · rename_i ends
      refine ⟨_, _, rfl, assembled, advances, fills, ?_⟩
      rcases ends with none | resolved
      · obtain ⟨same, settled⟩ := idle none
        rw [same]
        exact settled
      · intro q mem
        exact absurd ((assembled.tallies.noted q).mpr mem) (Template.resolved_iff.mp resolved q)
    · obtain ⟨u, others, ends, assembled', advances', fills', settled⟩ :=
        ih shorter (fun _ => spliced) assembled (total + (count + more))
      exact ⟨u, count + more + others, by rw [ends, Nat.add_assoc], assembled',
        advances.trans advances', fills.trans fills', settled⟩

/-- A template that a resolution has come to an end with, and how many places it has filled. -/
structure Completes (engine : Engine) (t u : Template) (total : Nat) : Prop where
  /-- What is missing is what is reached and not registered. -/
  templates : ∀ name, name ∈ u.templates ↔
    engine.Reaches t (name, false) ∧ engine.templates.find? name = none
  raws : ∀ name, name ∈ u.raws ↔ engine.Reaches t (name, true) ∧ engine.raws.find? name = none
  resolved : u.resolved = true ↔ ∀ place, engine.Reaches t place → engine.Registers place
  /-- Filled places stay filled, and as many others are as it says. -/
  kept : t.filled ⊆ u.filled
  total : (u.filled \ t.filled).ncard = total
  /-- Another resolution changes nothing. -/
  again : engine.resolve u = (u, .ok 0)

/-- If what is registered parses, does not come back to the template itself and does not go deeper
than there are rounds, a resolution splices in everything that is registered. -/
theorem resolve_completes (h : Template.Assembled Template.Parsed t)
    (resolvable : engine.Resolvable t maxInlineRounds) :
    ∃ u total, engine.resolve t = (u, .ok total) ∧ engine.Completes t u total := by
  obtain ⟨u, total, run, assembled, advances, fills, settled⟩ :=
    exists_resolveRounds resolvable (fun none => by cases none) h 0
  have left : ∀ q, q ∈ u.emptyPlaces ↔ engine.Reaches t q ∧ ¬engine.Registers q := by
    intro q
    refine ⟨fun mem => ⟨advances.within q mem, settled q mem⟩, fun ⟨reached, not⟩ => ?_⟩
    rcases reaches_iff.mp (advances.keeps q reached not) with mem | ⟨name, other, mem, opens, -⟩
    · exact mem
    · exact absurd opens.registers (settled _ mem)
  have noted (q : String × Bool) := (assembled.tallies.noted q).trans (left q)
  refine ⟨u, total, by rw [resolve, run, Nat.zero_add], fun name => ?_, fun name => ?_, ?_,
    fills.kept, fills.ncard_sdiff, resolve_of_settled assembled settled⟩
  · exact (noted (name, false)).trans (and_congr_right' Classical.not_not)
  · exact (noted (name, true)).trans (and_congr_right' Classical.not_not)
  · rw [Template.resolved_iff]
    refine forall_congr' fun place => ?_
    rw [noted, not_and, Classical.not_not]

/-- A page with a header that comes with a style sheet, and with a menu that is not registered. -/
theorem resolve_completes_header :
    let source := "<h1>#inline(\"style\", as: raw)#inline(\"menu\")"
    let engine : Engine := { templates := [("header", source)], raws := [("style", "<style/>")] }
    ∃ page u total, engine.parse "page" "[#inline(\"header\")]" = .ok page ∧
      Template.Assembled Template.Parsed page ∧ engine.Resolvable page maxInlineRounds ∧
      engine.resolve page = (u, .ok total) ∧ engine.Completes page u total ∧
      "menu" ∈ u.templates := by
  intro source engine
  have run : (match engine.parse "page" "[#inline(\"header\")]", engine.parse "header" source with
      | .ok page, .ok header => (page.name, page.emptyPlaces, header.emptyPlaces)
      | _, _ => ("", [], [])) =
        ("page", [("header", false)], [("style", true), ("menu", false)]) := by decide +kernel
  split at run
  · rename_i page header parsedPage parsedHeader
    obtain ⟨own, ofPage, ofHeader⟩ : page.name = "page" ∧ page.emptyPlaces = [("header", false)] ∧
        header.emptyPlaces = [("style", true), ("menu", false)] := by simpa using run
    have registered {name text : String} (found : engine.templates.find? name = some text) :
        name = "header" ∧ text = source := by
      by_cases same : name = "header"
      · subst same
        cases found
        exact ⟨rfl, rfl⟩
      · simp [engine, Entries.find?, Ne.symm same] at found
    have opened {name : String} {other : Template} (opens : engine.Opens name other) :
        name = "header" ∧ other = header := by
      obtain ⟨text, found, parsed⟩ := opens
      obtain ⟨rfl, rfl⟩ := registered found
      exact ⟨rfl, Except.ok.inj (parsed.symm.trans parsedHeader)⟩
    have chains {names : List String} {last : Template} (leads : engine.Leads page names last) :
        names = [] ∧ last = page ∨ names = ["header"] ∧ last = header := by
      cases leads with
      | here => exact .inl ⟨rfl, rfl⟩
      | through _ opens rest =>
        obtain ⟨rfl, rfl⟩ := opened opens
        cases rest with
        | here => exact .inr ⟨rfl, rfl⟩
        | through place opens' _ =>
          obtain ⟨rfl, rfl⟩ := opened opens'
          simp [ofHeader] at place
    have assembled : Template.Assembled Template.Parsed page :=
      .given (Template.parsed_of_parse parsedPage)
    have headerOpens : engine.Opens "header" header := ⟨source, rfl, parsedHeader⟩
    have resolvable : engine.Resolvable page maxInlineRounds := by
      refine ⟨fun name text _ found => ?_, ?_, fun names last leads => ?_⟩
      · obtain ⟨rfl, rfl⟩ := registered found
        exact ⟨header, parsedHeader⟩
      · rintro ⟨names, last, leads, mem⟩
        rcases chains leads with ⟨-, rfl⟩ | ⟨-, rfl⟩
        · simp [own, ofPage] at mem
        · simp [own, ofHeader] at mem
      · rcases chains leads with ⟨rfl, -⟩ | ⟨rfl, -⟩ <;> decide
    obtain ⟨u, total, resolved, completes⟩ := resolve_completes assembled resolvable
    have menu : engine.Reaches page ("menu", false) :=
      ⟨["header"], header, .through (by simp [ofPage]) headerOpens (.here header),
        by simp [ofHeader]⟩
    exact ⟨page, u, total, parsedPage, assembled, resolvable, resolved, completes,
      (completes.templates "menu").mpr ⟨menu, rfl⟩⟩
  · simp at run

end Engine

end Stencil
