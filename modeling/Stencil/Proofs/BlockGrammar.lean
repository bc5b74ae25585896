import Mathlib.Data.List.Basic
import Stencil.Block.Core
import Stencil.Parse.Draft

/-!
# The grammar of blocks

A template in phrases: text, expressions, and tags that open or close a body. `Derivation` is the
grammar of blocks, `BreaksOff` says with which blocks open a sentence of the grammar breaks off.
Both are what a stack of open blocks accepts, phrase by phrase (`breaksOff_iff`).
-/

namespace Stencil

/-- A tag that opens a body. -/
inductive Opening
  | block (name : String) (made : BlockInstance)
  | define (name : String)
  | encode (handler : String) (encoder : Encoder)

def Opening.name : Opening → String
  | block name _ => name
  | define _ => "define"
  | encode _ _ => "raw"

/-- A phrase of a template. -/
inductive Phrase
  | text (text : String)
  | output (value : Expr)
  | opening (tag : Opening) (place : Text.Location)
  | closing (name : String)

/-- The tags that open a body of their own, `if` the first one of a chain. -/
def starters : List String := ["if", "for", "while", "define", "raw"]

/-- What follows an `if`: any number of `elseif`, then at most one `else`. -/
def furtherLinks : List String → Bool
  | [] | ["else"] => true
  | "elseif" :: links => furtherLinks links
  | _ => false

/-- The names of the links of a chain. -/
def isChain : List String → Bool
  | "if" :: links => furtherLinks links
  | _ => false

/-- What is derived: the contents of a body, or what stands behind the body of the last of some
links. -/
inductive Part
  | body
  | behind (links : List String)

/-- The grammar of blocks. A body is closed by an end tag of its block, that of a chain by one of
any link so far, unless the chain goes on. -/
inductive Derivation : Part → Type
  | done : Derivation .body
  | text (text : String) (rest : Derivation .body) : Derivation .body
  | output (value : Expr) (rest : Derivation .body) : Derivation .body
  | opening (tag : Opening) (place : Text.Location) (starts : tag.name ∈ starters)
      (inside : Derivation .body) (rest : Derivation (.behind [tag.name])) : Derivation .body
  | link {links : List String} (tag : Opening) (place : Text.Location)
      (chain : isChain (links ++ [tag.name]) = true) (inside : Derivation .body)
      (rest : Derivation (.behind (links ++ [tag.name]))) : Derivation (.behind links)
  | closing {links : List String} (name : String) (own : name ∈ links)
      (rest : Derivation .body) : Derivation (.behind links)

namespace Derivation

/-- The phrases that are derived. -/
def phrases {part : Part} : Derivation part → List Phrase
  | .done => []
  | .text content rest => .text content :: rest.phrases
  | .output value rest => .output value :: rest.phrases
  | .opening tag place _ inside rest => .opening tag place :: (inside.phrases ++ rest.phrases)
  | .link tag place _ inside rest => .opening tag place :: (inside.phrases ++ rest.phrases)
  | .closing name _ rest => .closing name :: rest.phrases

/-- A derivation with more contents at its end. -/
def append {part : Part} : Derivation part → Derivation .body → Derivation part
  | .done, more => more
  | .text content rest, more => .text content (rest.append more)
  | .output value rest, more => .output value (rest.append more)
  | .opening tag place starts inside rest, more =>
    .opening tag place starts inside (rest.append more)
  | .link tag place chain inside rest, more => .link tag place chain inside (rest.append more)
  | .closing name own rest, more => .closing name own (rest.append more)

theorem phrases_append {part : Part} (d : Derivation part) (more : Derivation .body) :
    (d.append more).phrases = d.phrases ++ more.phrases := by
  induction d with
  | done => rfl
  | text _ _ ih | output _ _ ih | closing _ _ _ ih => simp [append, phrases, ih]
  | opening _ _ _ _ _ _ ih | link _ _ _ _ _ _ ih => simp [append, phrases, ih]

end Derivation

/-- A block that is open: its links so far, and where the latest one stands. -/
structure OpenBlock where
  links : List String
  place : Text.Location

/-- The name of the latest link. -/
def OpenBlock.latest (o : OpenBlock) : String := o.links.getLastD ""

/-- Phrases that break off inside of some blocks, the innermost first. -/
inductive BreaksOff : List OpenBlock → List Phrase → Prop
  | body (items : Derivation .body) : BreaksOff [] items.phrases
  | opening {outer : List OpenBlock} {front : List Phrase} (around : BreaksOff outer front)
      (tag : Opening) (place : Text.Location) (starts : tag.name ∈ starters)
      (items : Derivation .body) :
      BreaksOff (⟨[tag.name], place⟩ :: outer) (front ++ .opening tag place :: items.phrases)
  | link {top : OpenBlock} {outer : List OpenBlock} {front : List Phrase}
      (before : BreaksOff (top :: outer) front) (tag : Opening) (place : Text.Location)
      (chain : isChain (top.links ++ [tag.name]) = true) (items : Derivation .body) :
      BreaksOff (⟨top.links ++ [tag.name], place⟩ :: outer)
        (front ++ .opening tag place :: items.phrases)

/-- The blocks that are open behind a phrase, if it can stand inside of these. -/
def Phrase.move? : Phrase → List OpenBlock → Option (List OpenBlock)
  | .text _, opened | .output _, opened => some opened
  | .opening tag place, opened =>
    if tag.name ∈ starters then some (⟨[tag.name], place⟩ :: opened)
    else
      match opened with
      | top :: outer =>
        if isChain (top.links ++ [tag.name]) then some (⟨top.links ++ [tag.name], place⟩ :: outer)
        else none
      | [] => none
  | .closing name, top :: outer => if name ∈ top.links then some outer else none
  | .closing _, [] => none

/-- The blocks that are open behind phrases. -/
def moves? (opened : List OpenBlock) (phrases : List Phrase) : Option (List OpenBlock) :=
  phrases.foldlM (fun opened phrase => phrase.move? opened) opened

theorem moves?_cons (phrase : Phrase) (phrases : List Phrase) (opened : List OpenBlock) :
    moves? opened (phrase :: phrases) = (phrase.move? opened).bind (moves? · phrases) := rfl

theorem moves?_append (front back : List Phrase) (opened : List OpenBlock) :
    moves? opened (front ++ back) = (moves? opened front).bind (moves? · back) :=
  List.foldlM_append

namespace BreaksOff

variable {opened outer : List OpenBlock} {top : OpenBlock} {front : List Phrase}

/-- Contents at the end of the innermost body. -/
theorem append (h : BreaksOff opened front) (more : Derivation .body) :
    BreaksOff opened (front ++ more.phrases) := by
  cases h with
  | body items =>
    rw [← Derivation.phrases_append]
    exact .body _
  | opening around tag place starts items =>
    rw [List.append_assoc, List.cons_append, ← Derivation.phrases_append]
    exact .opening around tag place starts _
  | link before tag place chain items =>
    rw [List.append_assoc, List.cons_append, ← Derivation.phrases_append]
    exact .link before tag place chain _

/-- What stands behind the innermost body. The induction is on the links before. -/
theorem behind (h : BreaksOff (top :: outer) front) (rest : Derivation (.behind top.links)) :
    BreaksOff outer (front ++ rest.phrases) := by
  generalize eq : top :: outer = opened at h
  induction h generalizing top with
  | body => cases eq
  | opening around tag place starts items =>
    cases eq
    have whole := around.append (.opening tag place starts items rest)
    simpa [Derivation.phrases] using whole
  | link before tag place chain items ih =>
    cases eq
    have whole := ih (.link tag place chain items rest) rfl
    simpa [Derivation.phrases] using whole

theorem links_ne_nil (h : BreaksOff opened front) : ∀ o ∈ opened, o.links ≠ [] := by
  induction h with
  | body => simp
  | opening _ _ _ _ _ ih => simpa using ih
  | link _ _ _ _ _ ih => simpa using fun o (mem : o ∈ _) => ih o (.tail _ mem)

/-- A phrase that can stand there. -/
theorem concat (h : BreaksOff opened front) {phrase : Phrase}
    (move : phrase.move? opened = some outer) : BreaksOff outer (front ++ [phrase]) := by
  cases phrase with
  | text text =>
    cases move
    exact h.append (.text text .done)
  | output value =>
    cases move
    exact h.append (.output value .done)
  | opening tag place =>
    simp only [Phrase.move?] at move
    split at move
    · rename_i starts
      cases move
      exact .opening h tag place starts .done
    · split at move
      · split at move
        · rename_i chain
          cases move
          exact .link h tag place chain .done
        · cases move
      · cases move
  | closing name =>
    cases opened with
    | nil => cases move
    | cons top opened =>
      simp only [Phrase.move?] at move
      split at move
      · rename_i own
        cases move
        exact h.behind (.closing name own .done)
      · cases move

theorem of_moves? (h : BreaksOff opened front) {phrases : List Phrase}
    (moves : moves? opened phrases = some outer) : BreaksOff outer (front ++ phrases) := by
  induction phrases generalizing opened front with
  | nil =>
    cases moves
    simpa using h
  | cons phrase phrases ih =>
    rw [moves?_cons] at moves
    obtain ⟨between, move, moves⟩ := Option.bind_eq_some_iff.mp moves
    simpa using ih (h.concat move) moves

end BreaksOff

/-- A further link of a chain starts none. -/
theorem not_starts_of_isChain {links : List String} {tag : String} (some : links ≠ [])
    (chain : isChain (links ++ [tag]) = true) : tag ∉ starters := by
  have further (more : List String) (h : furtherLinks (more ++ [tag]) = true) :
      tag = "elseif" ∨ tag = "else" := by
    induction more with
    | nil =>
      unfold furtherLinks at h
      split at h <;> simp_all
    | cons link more ih =>
      rw [List.cons_append] at h
      unfold furtherLinks at h
      split at h <;> simp_all
  unfold isChain at chain
  split at chain
  · rename_i more eq
    cases links with
    | nil => exact absurd rfl some
    | cons link links =>
      cases eq
      rcases further links chain with rfl | rfl <;> decide
  · cases chain

theorem furtherLinks_concat {tag : String} (further : tag = "elseif" ∨ tag = "else")
    (links : List String) : ∀ link ∈ Block.chainLinks, furtherLinks links = true →
      (furtherLinks (links ++ [tag]) = true ↔
        ∃ last ∈ Block.chainLinks, (link :: links).getLast? = some last) := by
  induction links with
  | nil =>
    intro link follows _
    refine ⟨fun _ => ⟨link, follows, rfl⟩, fun _ => ?_⟩
    rcases further with rfl | rfl <;> rfl
  | cons next links ih =>
    intro link _ chain
    rw [List.getLast?_cons_cons]
    unfold furtherLinks at chain
    split at chain
    · rename_i eq
      cases eq
    · rename_i eq
      cases eq
      refine ⟨nofun, ?_⟩
      rintro ⟨last, mem, eq⟩
      rw [← Option.some.inj eq] at mem
      simp [Block.chainLinks] at mem
    · rename_i eq
      cases eq
      exact ih "elseif" (by decide) chain
    · cases chain

/-- The links of a block that is open: a chain, or the name of another block. -/
def OpenBlock.Formed (o : OpenBlock) : Prop :=
  isChain o.links = true ∨ ∃ name ∈ starters, name ≠ "if" ∧ o.links = [name]

/-- A further link goes on with what ends in a link that can be followed. -/
theorem OpenBlock.Formed.isChain_concat {o : OpenBlock} (h : o.Formed) {tag : String}
    (further : tag = "elseif" ∨ tag = "else") : isChain (o.links ++ [tag]) = true ↔
      ∃ last ∈ Block.chainLinks, o.links.getLast? = some last := by
  obtain ⟨links, place⟩ := o
  rcases h with chain | ⟨name, starts, other, eq⟩
  · dsimp only at chain ⊢
    unfold isChain at chain
    split at chain
    · exact furtherLinks_concat further _ "if" (by decide) chain
    · cases chain
  · dsimp only at eq ⊢
    subst eq
    simp only [starters, List.mem_cons, List.not_mem_nil, or_false] at starts
    rcases starts with rfl | rfl | rfl | rfl | rfl
    · exact absurd rfl other
    all_goals simp [isChain, Block.chainLinks]

theorem move?_link {top : OpenBlock} (some : top.links ≠ []) {tag : Opening}
    (chain : isChain (top.links ++ [tag.name]) = true) (place : Text.Location)
    (outer : List OpenBlock) : (Phrase.opening tag place).move? (top :: outer) =
      Option.some (⟨top.links ++ [tag.name], place⟩ :: outer) := by
  simp only [Phrase.move?, if_neg (not_starts_of_isChain some chain), if_pos chain]

/-- The phrases of a derivation leave the blocks open that were open around it. -/
theorem Derivation.moves?_phrases {part : Part} (d : Derivation part) :
    match part with
    | .body => ∀ opened, moves? opened d.phrases = some opened
    | .behind links => ∀ place outer, links ≠ [] →
      moves? (⟨links, place⟩ :: outer) d.phrases = some outer := by
  induction d with
  | done => exact fun _ => rfl
  | text _ _ ih | output _ _ ih => exact ih
  | opening tag place starts inside rest ihInside ihRest =>
    intro opened
    have move : (Phrase.opening tag place).move? opened =
        some (⟨[tag.name], place⟩ :: opened) := if_pos starts
    rw [phrases, moves?_cons, move, Option.bind_some, moves?_append, ihInside, Option.bind_some]
    exact ihRest place opened (List.cons_ne_nil _ _)
  | link tag place chain inside rest ihInside ihRest =>
    intro before outer filled
    rw [phrases, moves?_cons, move?_link filled chain, Option.bind_some, moves?_append, ihInside,
      Option.bind_some]
    exact ihRest place outer (by simp)
  | closing name own rest ih =>
    intro place outer _
    have move : (Phrase.closing name).move? (⟨_, place⟩ :: outer) = some outer := if_pos own
    rw [phrases, moves?_cons, move]
    exact ih outer

/-- Phrases break off in the blocks that a stack of open blocks comes to. -/
theorem breaksOff_iff {opened : List OpenBlock} {phrases : List Phrase} :
    BreaksOff opened phrases ↔ moves? [] phrases = some opened := by
  constructor
  · intro h
    induction h with
    | body items => exact items.moves?_phrases []
    | opening _ tag place starts items ih =>
      have move (outer : List OpenBlock) : (Phrase.opening tag place).move? outer =
          some (⟨[tag.name], place⟩ :: outer) := if_pos starts
      rw [moves?_append, ih, Option.bind_some, moves?_cons, move, Option.bind_some]
      exact items.moves?_phrases _
    | link before tag place chain items ih =>
      have filled := before.links_ne_nil _ List.mem_cons_self
      rw [moves?_append, ih, Option.bind_some, moves?_cons, move?_link filled chain,
        Option.bind_some]
      exact items.moves?_phrases _
  · intro moves
    have start : BreaksOff [] [] := .body .done
    exact start.of_moves? moves

/-- A sentence is what breaks off in no block. -/
theorem breaksOff_nil_iff {phrases : List Phrase} :
    BreaksOff [] phrases ↔ ∃ sentence : Derivation .body, sentence.phrases = phrases := by
  constructor
  · rintro ⟨items⟩
    exact ⟨items, rfl⟩
  · rintro ⟨sentence, rfl⟩
    exact .body sentence

/-- What breaks off goes on to a sentence, each block closed by its latest link. -/
theorem BreaksOff.exists_sentence {opened : List OpenBlock} {phrases : List Phrase}
    (h : BreaksOff opened phrases) :
    ∃ (sentence : Derivation .body) (rest : List Phrase), sentence.phrases = phrases ++ rest := by
  induction opened generalizing phrases with
  | nil =>
    obtain ⟨sentence, eq⟩ := breaksOff_nil_iff.mp h
    exact ⟨sentence, [], by simpa using eq⟩
  | cons top outer ih =>
    obtain ⟨name, own⟩ := List.exists_mem_of_ne_nil _ (h.links_ne_nil top List.mem_cons_self)
    obtain ⟨sentence, rest, eq⟩ := ih (h.behind (.closing name own .done))
    exact ⟨sentence, .closing name :: rest, by simpa [Derivation.phrases] using eq⟩

/-- What goes on to a sentence breaks off in some blocks, and nothing else does. -/
theorem exists_breaksOff_iff {phrases : List Phrase} : (∃ opened, BreaksOff opened phrases) ↔
    ∃ (sentence : Derivation .body) (rest : List Phrase), sentence.phrases = phrases ++ rest := by
  constructor
  · rintro ⟨opened, h⟩
    exact h.exists_sentence
  · rintro ⟨sentence, rest, eq⟩
    have moves := sentence.moves?_phrases []
    rw [eq, moves?_append] at moves
    obtain ⟨opened, moves, -⟩ := Option.bind_eq_some_iff.mp moves
    exact ⟨opened, breaksOff_iff.mpr moves⟩

end Stencil
