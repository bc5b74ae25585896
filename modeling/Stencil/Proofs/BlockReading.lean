import Stencil.Proofs.BlockSpelling

/-!
# Block structure as it is read

The reader follows the grammar of blocks. Each of its open scopes is an open block of the grammar,
so that a phrase is read where it can stand and refused anywhere else; and a derivation is written
to the tables of the template as it nests. `Template.parse_blocks` says what becomes of every
sequence of phrases.
-/

namespace Stencil

/-- A scope of the reader as an open block. -/
structure OpenScope.Is (scope : OpenScope) (block : OpenBlock) : Prop where
  name : block.links.getLast? = some scope.name
  place : scope.location = block.place
  kind : scope.kind = .chain block.links ∨
    (scope.kind = .define ∧ block.links = ["define"]) ∨
    (scope.kind = .encode ∧ block.links = ["raw"])
  formed : block.Formed

namespace OpenScope.Is

variable {scope : OpenScope} {block : OpenBlock}

theorem closedBy_iff (h : scope.Is block) (name : String) :
    scope.closedBy name = true ↔ name ∈ block.links := by
  unfold closedBy
  rcases h.kind with kind | ⟨kind, links⟩ | ⟨kind, links⟩
  · simp [kind]
  · simp [kind, links]
  · simp [kind, links]

theorem latest_eq (h : scope.Is block) : block.latest = scope.name := by
  unfold OpenBlock.latest
  rw [List.getLastD_eq_getLast?, h.name]
  rfl

end OpenScope.Is

/-- The name of a further link. -/
theorem Phrase.Spelled.further {indicator : Char} {tag : Opening} {place : Text.Location}
    {tokens : List Lexeme} (spelled : (Phrase.opening tag place).Spelled indicator tokens)
    (further : tag.name ∉ starters) : ∃ name made, tag = .block name made ∧
      (name = "elseif" ∨ name = "else") := by
  cases spelled with
  | @block name form _ made _ _ _ known =>
    have mem := TagSite.tag_of_block known
    simp only [List.mem_cons, List.not_mem_nil, or_false] at mem
    simp only [Opening.name, starters, List.mem_cons, List.not_mem_nil, or_false] at further
    exact ⟨name, made, rfl, by tauto⟩
  | define => exact absurd (by simp [Opening.name, starters]) further
  | encode => exact absurd (by simp [Opening.name, starters]) further

namespace Draft

variable {indicator : Char} {d : Draft} {tokens : List Lexeme} {tag : Opening}
  {place : Text.Location} {opened outer : List OpenBlock} {top block : OpenBlock}

theorem is_of_start (starts : tag.name ∈ starters) (place : Text.Location) (table : Nat)
    (declared : Entries Declared) :
    (OpenScope.mk tag.name (tag.kind [tag.name]) place table declared).Is ⟨[tag.name], place⟩ where
  name := rfl
  place := rfl
  kind := by
    cases tag with
    | block => exact .inl rfl
    | define => exact .inr (.inl ⟨rfl, rfl⟩)
    | encode => exact .inr (.inr ⟨rfl, rfl⟩)
  formed := by
    by_cases first : tag.name = "if"
    · left
      rw [first]
      rfl
    · exact .inr ⟨_, starts, first, rfl⟩

theorem is_of_link {links : List String} {name : String}
    (chain : isChain (links ++ [name]) = true) (place : Text.Location) (table : Nat)
    (declared : Entries Declared) :
    (OpenScope.mk name (.chain (links ++ [name])) place table declared).Is
      ⟨links ++ [name], place⟩ where
  name := by simp
  place := rfl
  kind := .inl rfl
  formed := .inl chain

/-- A tag that opens a body of its own. -/
theorem reads_start (spelled : (Phrase.opening tag place).Spelled indicator tokens)
    (starts : tag.name ∈ starters) (d : Draft) :
    Reads indicator tokens d (d.openBody tag false [tag.name] place) := by
  cases tag with
  | block name made =>
    refine reads_block [name] spelled fun form known => TagSite.chainOf_start ?_
    rw [Entities.follows_core known, if_neg]
    rintro (rfl | rfl) <;> simp [Opening.name, starters] at starts
  | define name => exact reads_define spelled d _ _
  | encode handler encoder => exact reads_encode spelled d _ _

/-- Behind a link that it can follow, a further link goes on with the chain. -/
theorem reads_link (spelled : (Phrase.opening tag place).Spelled indicator tokens)
    (further : tag.name ∉ starters) {scope : OpenScope} {scopes : List OpenScope}
    (opened : d.opened = scope :: scopes) (open_ : scope.Is block)
    (chain : isChain (block.links ++ [tag.name]) = true) : Reads indicator tokens d
      (d.closeScope.openBody tag true (block.links ++ [tag.name]) place) := by
  obtain ⟨name, made, rfl, named⟩ := spelled.further further
  obtain ⟨last, follows, eq⟩ := (open_.formed.isChain_concat named).mp chain
  rw [open_.name] at eq
  cases eq
  have kind : scope.kind = .chain block.links := by
    rcases open_.kind with kind | ⟨-, links⟩ | ⟨-, links⟩
    · exact kind
    all_goals
      have last := open_.name
      rw [links] at last
      rw [← Option.some.inj last] at follows
      simp [Block.chainLinks] at follows
  have more : decide (1 < (block.links ++ [name]).length) = true := by
    have filled : block.links ≠ [] := by
      intro none
      have last := open_.name
      rw [none] at last
      cases last
    have := List.length_pos_iff.mpr filled
    simpa using this
  have reads := reads_block (block.links ++ [name]) spelled
    fun form known => TagSite.chainOf_link opened kind (by
      rw [Entities.follows_core known, if_pos named]
      simpa using follows)
  rwa [more] at reads

/-- A further link is refused where no chain goes on. -/
theorem refuses_link (spelled : (Phrase.opening tag place).Spelled indicator tokens)
    (further : tag.name ∉ starters) (unmatched : ∀ scope scopes, d.opened = scope :: scopes →
      ∃ block, scope.Is block ∧ isChain (block.links ++ [tag.name]) = false) :
    Refuses indicator tokens d := by
  obtain ⟨name, made, rfl, named⟩ := spelled.further further
  refine refuses_block spelled fun form known => ⟨.mustFollow form.follows, ?_⟩
  have follows : form.follows = Block.chainLinks := by
    rw [Entities.follows_core known, if_pos named]
  unfold TagSite.chainOf
  rw [follows, if_neg (by decide)]
  split
  · rename_i scope names place' table declared scopes opened
    obtain ⟨block, open_, none⟩ := unmatched _ _ opened
    rw [if_neg]
    · rfl
    · intro last
      have chain := (open_.formed.isChain_concat named).mpr
        ⟨_, List.contains_iff_mem.mp last, open_.name⟩
      rw [show (Opening.block name made).name = name from rfl, chain] at none
      cases none
  · rfl

theorem isName_of_mem_closers {name : String} (known : name ∈ closers) : Text.IsName name := by
  simp only [closers, List.mem_cons, List.not_mem_nil, or_false] at known
  rcases known with rfl | rfl | rfl | rfl | rfl | rfl | rfl <;>
    exact Text.isName_of_cons rfl (by decide) (by decide)

/-- An end tag of the innermost block. -/
theorem reads_closing {name : String}
    (spelled : (Phrase.closing name).Spelled indicator tokens)
    (own : d.opened.head?.any (·.closedBy name) = true) :
    Reads indicator tokens d d.closeScope := by
  obtain _ | _ | _ | _ | _ | _ | @⟨_, place, known⟩ := spelled
  refine reads_of_read fun rest tail => ?_
  exact TagSite.read_end rfl (isName_of_mem_closers known) own tail

/-- Any other end tag is refused. -/
theorem refuses_closing {name : String}
    (spelled : (Phrase.closing name).Spelled indicator tokens)
    (other : d.opened.head?.any (·.closedBy name) = false) : Refuses indicator tokens d := by
  obtain _ | _ | _ | _ | _ | _ | @⟨_, place, known⟩ := spelled
  intro tag rest tail
  have registered : ((Entities.core.block? name).isSome || name == "define" || name == "raw") =
      true := by
    simp only [closers, List.mem_cons, List.not_mem_nil, or_false] at known
    rcases known with rfl | rfl | rfl | rfl | rfl | rfl | rfl <;> decide
  obtain ⟨reason, refused⟩ :
      ∃ reason, (TagSite.inCore indicator ("end" ++ name) place).read d rest =
      .error (.unmatched ("end" ++ name) reason) :=
    TagSite.read_end_error rfl (isName_of_mem_closers known) registered other tail
  unfold TagSite.inCore at refused
  exact ⟨place, _, reason, by rw [List.singleton_append, read, refused]⟩

/-- A phrase is read if it can stand inside of the blocks that are open, and else it is refused. -/
theorem reads_phrase {phrase : Phrase} (spelled : phrase.Spelled indicator tokens)
    (open_ : List.Forall₂ OpenScope.Is d.opened opened) :
    match phrase.move? opened with
    | some opened' => ∃ d', Reads indicator tokens d d' ∧
        List.Forall₂ OpenScope.Is d'.opened opened'
    | none => Refuses indicator tokens d := by
  cases phrase with
  | text text => exact ⟨_, reads_text spelled d, by rwa [opened_addRaw]⟩
  | output value => exact ⟨_, reads_output spelled d, open_⟩
  | opening tag place =>
    simp only [Phrase.move?]
    by_cases starts : tag.name ∈ starters
    · rw [if_pos starts]
      exact ⟨_, reads_start spelled starts d, .cons (is_of_start starts _ _ _) open_⟩
    · rw [if_neg starts]
      generalize eq : d.opened = scopes at open_
      cases open_ with
      | nil =>
        refine refuses_link spelled starts fun _ _ some => ?_
        rw [eq] at some
        cases some
      | @cons scope block scopes outer first rest =>
        dsimp only
        cases chain : isChain (block.links ++ [tag.name]) with
        | true =>
          refine ⟨_, reads_link spelled starts eq first chain, ?_⟩
          obtain ⟨name, made, rfl, -⟩ := spelled.further starts
          refine .cons (is_of_link chain _ _ _) ?_
          show List.Forall₂ _ d.opened.tail outer
          rwa [eq]
        | false =>
          refine refuses_link spelled starts fun _ _ some => ⟨block, ?_, chain⟩
          rw [eq] at some
          cases some
          exact first
  | closing name =>
    generalize eq : d.opened = scopes at open_
    cases open_ with
    | nil => exact refuses_closing spelled (by rw [eq]; rfl)
    | @cons scope block scopes outer first rest =>
      simp only [Phrase.move?]
      by_cases own : name ∈ block.links
      · rw [if_pos own]
        have closed := (first.closedBy_iff name).mpr own
        refine ⟨_, reads_closing spelled (by rw [eq]; exact closed), ?_⟩
        show List.Forall₂ _ d.opened.tail outer
        rwa [eq]
      · rw [if_neg own]
        refine refuses_closing spelled ?_
        rw [eq]
        exact Bool.eq_false_iff.mpr fun closed => own ((first.closedBy_iff name).mp closed)

/-- Phrases are read as long as each can stand where it is. -/
theorem reads_phrases {phrases : List Phrase} (spelled : Spelling indicator phrases tokens)
    (open_ : List.Forall₂ OpenScope.Is d.opened opened) :
    match moves? opened phrases with
    | some opened' => ∃ d', Reads indicator tokens d d' ∧
        List.Forall₂ OpenScope.Is d'.opened opened'
    | none => Refuses indicator tokens d := by
  induction spelled generalizing d opened with
  | nil => exact ⟨d, fun tag rest _ => ⟨tag, rfl⟩, open_⟩
  | @cons phrase phrases front back first rest ih =>
    rw [moves?_cons]
    have one := reads_phrase first open_
    cases move : phrase.move? opened with
    | none =>
      rw [move] at one
      exact one.append fun _ tail => rest.parenFollows tail
    | some between =>
      rw [move] at one
      obtain ⟨d', reads, open_⟩ := one
      have more := ih open_
      rw [Option.bind_some]
      cases moves : moves? between phrases with
      | none =>
        rw [moves] at more
        exact reads.refuses more fun _ tail => rest.parenFollows tail
      | some opened' =>
        rw [moves] at more
        obtain ⟨d'', reads', open_⟩ := more
        exact ⟨d'', reads.trans reads' fun _ tail => rest.parenFollows tail, open_⟩

end Draft

end Stencil
