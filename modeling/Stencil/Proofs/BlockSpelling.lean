import Stencil.Proofs.ArgumentEnds
import Stencil.Proofs.BlockGrammar
import Stencil.Proofs.RereadBlocks

/-!
# Phrases as tokens

The tokens that spell the phrases of a template, each tag with arguments that are valid and
constant, and what the reader does with them: a phrase that can stand where it is read changes the
draft in its own way, any other is reported as unmatched. Arguments that are valid on their own are
so in front of anything.
-/

namespace Stencil

namespace Opening

/-- The node of the tag, a further link of a chain or not. -/
def node (goesOn : Bool) : Opening → Node
  | .block name made => .block name goesOn made.behaviour made.args
  | .define name => .define name none
  | .encode handler encoder => .encode handler encoder

/-- What the scope is opened for, of a block with the links of its chain. -/
def kind (links : List String) : Opening → ScopeKind
  | .block _ _ => .chain links
  | .define _ => .define
  | .encode _ _ => .encode

/-- The variables of the body. -/
def declared : Opening → Entries Declared
  | .block _ made => Entries.ofList (made.declares.map fun name => (name, Declared.mk true true))
  | _ => []

end Opening

/-- The names in end tags. -/
def closers : List String := ["if", "elseif", "else", "for", "while", "define", "raw"]

/-- A tag of the core registry. -/
def TagSite.inCore (indicator : Char) (tag : String) (location : Text.Location) : TagSite :=
  { entities := .core, indicator, tag, location }

/-- The tokens of a phrase, with arguments that are valid on their own and mention no variable. -/
inductive Phrase.Spelled (indicator : Char) : Phrase → List Lexeme → Prop
  | text (text : String) (place : Text.Location) :
      Spelled indicator (.text text) [⟨.raw text, place⟩]
  | colon (place : Text.Location) : Spelled indicator (.text ":") [⟨.blockMark, place⟩]
  | output {value : Expr} {inside : List Lexeme} (place opening : Text.Location)
      (plain : ∀ l, inside.head? = some l → ¬TagSite.declares l.token)
      (read : readArguments .core "" .assignment inside = .ok ([(none, value)], []))
      (constant : value.vars = []) :
      Spelled indicator (.output value) (⟨.tag "", place⟩ :: ⟨.openParen, opening⟩ :: inside)
  | block {name : String} {form : BlockForm} {arguments : BlockArguments} {made : BlockInstance}
      {head : List Lexeme} (place mark : Text.Location)
      (known : Entities.core.block? name = some form)
      (read : ((TagSite.inCore indicator name place).readBlockHead form
        (head ++ [⟨.blockMark, mark⟩])).map (fun found => (found.1, found.2.1)) =
          .ok (arguments, [⟨.blockMark, mark⟩]))
      (make : form.make arguments = .ok made)
      (constant : ∀ e ∈ made.args.values, e.vars = []) :
      Spelled indicator (.opening (.block name made) place)
        (⟨.tag name, place⟩ :: (head ++ [⟨.blockMark, mark⟩]))
  | define {name : String} {target : Expr} {inside : List Lexeme}
      (place opening mark : Text.Location)
      (read : readArguments .core "define" .assignment inside = .ok ([(none, target)], []))
      (named : target.atomicName? = some name) :
      Spelled indicator (.opening (.define name) place)
        (⟨.tag "define", place⟩ :: ⟨.openParen, opening⟩ :: (inside ++ [⟨.blockMark, mark⟩]))
  | encode {handler : String} {encoder : Encoder} {word : Expr} {inside : List Lexeme}
      (place opening mark : Text.Location)
      (read : readArguments .core "raw" .strict inside = .ok ([(none, word)], []))
      (named : TagSite.wordOf word = some handler)
      (known : Entities.core.encoder? handler = some encoder) :
      Spelled indicator (.opening (.encode handler encoder) place)
        (⟨.tag "raw", place⟩ :: ⟨.openParen, opening⟩ :: (inside ++ [⟨.blockMark, mark⟩]))
  | closing {name : String} (place : Text.Location) (known : name ∈ closers) :
      Spelled indicator (.closing name) [⟨.tag ("end" ++ name), place⟩]

/-- The tokens of phrases. -/
inductive Spelling (indicator : Char) : List Phrase → List Lexeme → Prop
  | nil : Spelling indicator [] []
  | cons {phrase : Phrase} {phrases : List Phrase} {front back : List Lexeme}
      (first : phrase.Spelled indicator front) (rest : Spelling indicator phrases back) :
      Spelling indicator (phrase :: phrases) (front ++ back)

namespace Spelling

variable {indicator : Char} {phrases more : List Phrase} {tokens rest : List Lexeme}

theorem of_append (h : Spelling indicator (phrases ++ more) tokens) : ∃ front back,
    tokens = front ++ back ∧ Spelling indicator phrases front ∧ Spelling indicator more back := by
  induction phrases generalizing tokens with
  | nil => exact ⟨[], tokens, rfl, .nil, h⟩
  | cons phrase phrases ih =>
    obtain _ | ⟨first, others⟩ := h
    obtain ⟨front, back, rfl, before, behind⟩ := ih others
    exact ⟨_, back, (List.append_assoc _ _ _).symm, .cons first before, behind⟩

/-- No phrase starts with an argument list. -/
theorem parenFollows (h : Spelling indicator phrases tokens)
    (tail : Stencil.parenFollows rest = false) : Stencil.parenFollows (tokens ++ rest) = false := by
  cases h with
  | nil => exact tail
  | cons first _ => cases first <;> rfl

end Spelling

namespace TagSite

variable {site : TagSite} {form : BlockForm} {d : Draft} {tokens head : List Lexeme}
  {arguments : BlockArguments} {mark : Lexeme}

/-- What was read, without the bound on what stands behind it. -/
def forget {α : Type} {tokens : List Lexeme} (found : α × Remaining tokens) : α × List Lexeme :=
  (found.1, found.2.1)

theorem forget_readTuple (site : TagSite) (mode : FoldMode) (opening : Text.Location)
    (inside : List Lexeme) : (site.readTuple mode (⟨.openParen, opening⟩ :: inside)).map forget =
      readArguments site.entities site.tag mode inside := by
  cases read : readArguments site.entities site.tag mode inside with
  | error fault =>
    rw [readTuple_error opening read]
    rfl
  | ok found =>
    obtain ⟨t, rest⟩ := found
    obtain ⟨left, done, eq⟩ := readTuple_of opening read
    rw [done]
    subst eq
    rfl

/-- The arguments of a block by what its list is read as in both modes. -/
def argumentsOf (form : BlockForm) (strict relaxed : Except Fault (Tuple × List Lexeme)) :
    Except Fault (BlockArguments × List Lexeme) :=
  match strict with
  | .ok (t, rest) =>
    match form.match? t with
    | some found => .ok (.parsed found, rest)
    | none => .ok (.call t, rest)
  | .error strict =>
    if form.patterns.isEmpty then .error strict
    else
      match relaxed with
      | .error relaxed => .error relaxed
      | .ok (t, rest) =>
        match form.match? t with
        | some found => .ok (.parsed found, rest)
        | none => .error strict

theorem forget_readBlockArguments (opening : Text.Location) (inside : List Lexeme) :
    (site.readBlockArguments form (⟨.openParen, opening⟩ :: inside)).map forget =
      argumentsOf form (readArguments site.entities site.tag .strict inside)
        (readArguments site.entities site.tag .relaxed inside) := by
  rw [← forget_readTuple site .strict opening, ← forget_readTuple site .relaxed opening]
  unfold readBlockArguments argumentsOf
  generalize site.readTuple .strict _ = strict
  generalize site.readTuple .relaxed _ = relaxed
  rcases strict with fault | ⟨t, rest⟩
  · cases form.patterns.isEmpty with
    | true => rfl
    | false =>
      rcases relaxed with fault | ⟨t, rest⟩
      · rfl
      · dsimp only [Except.map, forget]
        cases form.match? t <;> rfl
  · dsimp only [Except.map, forget]
    cases form.match? t <;> rfl

/-- What is read up to its end is read in front of anything. -/
def Ended {α : Type} (found : Except Fault (α × List Lexeme)) (more : List Lexeme) :
    Except Fault (α × List Lexeme) :=
  found.map fun found => (found.1, found.2 ++ more)

theorem argumentsOf_ended (form : BlockForm) (strict relaxed : Except Fault (Tuple × List Lexeme))
    (more : List Lexeme) : argumentsOf form (Ended strict more) (Ended relaxed more) =
      Ended (argumentsOf form strict relaxed) more := by
  unfold argumentsOf
  rcases strict with fault | ⟨t, rest⟩
  · cases form.patterns.isEmpty with
    | true => rfl
    | false =>
      rcases relaxed with fault | ⟨t, rest⟩
      · rfl
      · dsimp only [Ended, Except.map]
        cases form.match? t <;> rfl
  · dsimp only [Ended, Except.map]
    cases form.match? t <;> rfl

theorem behindList?_of_argumentsOf {inside rest : List Lexeme}
    (h : argumentsOf form (readArguments site.entities site.tag .strict inside)
      (readArguments site.entities site.tag .relaxed inside) = .ok (arguments, rest)) :
    Token.behindList? 0 inside = some rest := by
  unfold argumentsOf at h
  split at h
  · rename_i t left read
    refine behindList?_of_readArguments (t := t) (read.trans ?_)
    split at h <;> cases h <;> rfl
  · split at h
    · cases h
    · split at h
      · cases h
      · rename_i t left read
        refine behindList?_of_readArguments (t := t) (read.trans ?_)
        split at h <;> cases h
        rfl

/-- The head of a block that is valid on its own is so in front of anything. -/
theorem readBlockHead_append {rest : List Lexeme} (filled : tokens ≠ [])
    (read : (site.readBlockHead form tokens).map forget = .ok (arguments, rest))
    (more : List Lexeme) : (site.readBlockHead form (tokens ++ more)).map forget =
      .ok (arguments, rest ++ more) := by
  unfold readBlockHead at read ⊢
  rw [parenFollows_append filled]
  split at read
  · rename_i paren
    rw [if_pos paren]
    obtain ⟨⟨token, place⟩, inside, rfl⟩ := List.exists_cons_of_ne_nil filled
    cases eq_openParen_of_parenFollows paren
    rw [forget_readBlockArguments] at read
    have ends := behindList?_of_argumentsOf read
    rw [List.cons_append, forget_readBlockArguments, readArguments_append ends,
      readArguments_append ends]
    have ended := argumentsOf_ended form
      (readArguments site.entities site.tag .strict inside)
      (readArguments site.entities site.tag .relaxed inside) more
    rw [read] at ended
    exact ended
  · rename_i none
    rw [if_neg none]
    cases read
    rfl

theorem of_forget {α : Type} {tokens rest : List Lexeme} {a : α}
    {found : Except Fault (α × Remaining tokens)} (h : found.map forget = .ok (a, rest)) :
    ∃ left, found = .ok (a, left) ∧ left.1 = rest := by
  cases found with
  | error => cases h
  | ok found =>
    cases h
    exact ⟨found.2, rfl, rfl⟩

/-- A block with arguments or with a colon. -/
theorem read_head (core : site.entities = .core)
    (block : Entities.core.block? site.tag = some form)
    (head : (parenFollows tokens || markFollows tokens) = true) :
    site.read d tokens = site.readBlock form d tokens := by
  have mem := tag_of_block block
  simp only [List.mem_cons, List.not_mem_nil, or_false] at mem
  have plain : closedName? site.tag = none := by
    rcases mem with eq | eq | eq | eq | eq <;> rw [eq] <;> decide
  have named : site.tag.isEmpty = false := by
    rcases mem with eq | eq | eq | eq | eq <;> rw [eq] <;> decide
  have reads : site.readNamed d tokens = site.readBlock form d tokens := by
    unfold readNamed
    dsimp only
    rw [core, block, head]
    rcases mem with eq | eq | eq | eq | eq <;> rw [eq] <;>
      cases parenFollows tokens <;> rfl
  unfold read
  rw [named, plain, ite_self]
  exact reads

end TagSite

namespace Draft

variable {indicator : Char} {d d' d'' : Draft} {tokens front back : List Lexeme}

/-- Tokens that turn one draft into another, in front of anything but an argument list. -/
def Reads (indicator : Char) (tokens : List Lexeme) (d d' : Draft) : Prop :=
  ∀ tag rest, parenFollows rest = false → ∃ tag',
    read .core indicator d tag (tokens ++ rest) = read .core indicator d' tag' rest

/-- Tokens that do not fit the blocks that are open. -/
def Refuses (indicator : Char) (tokens : List Lexeme) (d : Draft) : Prop :=
  ∀ tag rest, parenFollows rest = false → ∃ place name reason,
    read .core indicator d tag (tokens ++ rest) = .error ⟨place, .unmatched name reason⟩

theorem Reads.trans (first : Reads indicator front d d') (second : Reads indicator back d' d'')
    (starts : ∀ rest, parenFollows rest = false → parenFollows (back ++ rest) = false) :
    Reads indicator (front ++ back) d d'' := by
  intro tag rest tail
  obtain ⟨tag', before⟩ := first tag (back ++ rest) (starts rest tail)
  obtain ⟨tag'', behind⟩ := second tag' rest tail
  exact ⟨tag'', by rw [List.append_assoc, before, behind]⟩

theorem Reads.refuses (first : Reads indicator front d d') (second : Refuses indicator back d')
    (starts : ∀ rest, parenFollows rest = false → parenFollows (back ++ rest) = false) :
    Refuses indicator (front ++ back) d := by
  intro tag rest tail
  obtain ⟨tag', before⟩ := first tag (back ++ rest) (starts rest tail)
  obtain ⟨place, name, reason, failed⟩ := second tag' rest tail
  exact ⟨place, name, reason, by rw [List.append_assoc, before, failed]⟩

theorem Refuses.append (h : Refuses indicator front d)
    (starts : ∀ rest, parenFollows rest = false → parenFollows (back ++ rest) = false) :
    Refuses indicator (front ++ back) d := by
  intro tag rest tail
  rw [List.append_assoc]
  exact h tag (back ++ rest) (starts rest tail)

theorem useAll_constant {e : Expr} (constant : e.vars = []) (d : Draft) : d.useAll e = .ok d := by
  unfold useAll
  rw [constant]
  rfl

theorem useArgs_constant {items : List Expr} (constant : ∀ e ∈ items, e.vars = []) (d : Draft) :
    items.foldlM useAll d = .ok d := by
  induction items with
  | nil => rfl
  | cons e items ih =>
    rw [List.foldlM_cons, useAll_constant (constant e List.mem_cons_self)]
    exact ih fun e mem => constant e (.tail _ mem)

/-- A draft inside of the body that a tag opens. -/
def openBody (d : Draft) (tag : Opening) (goesOn : Bool) (links : List String)
    (place : Text.Location) : Draft :=
  d.openScope (tag.node goesOn) tag.name (tag.kind links) place tag.declared

theorem reads_text {text : String} (spelled : (Phrase.text text).Spelled indicator tokens)
    (d : Draft) : Reads indicator tokens d (d.addRaw text) := by
  cases spelled with
  | text _ place => exact fun tag rest _ => ⟨tag, read_raw text place rest⟩
  | colon place => exact fun tag rest _ => ⟨tag, read_mark place rest⟩

/-- A tag that is read up to the end of its tokens. -/
theorem reads_of_read {name : String} {place : Text.Location}
    (h : ∀ rest, parenFollows rest = false → ∃ left,
      (TagSite.inCore indicator name place).read d (tokens ++ rest) = .ok (d', left) ∧
        left.1 = rest) :
    Reads indicator (⟨.tag name, place⟩ :: tokens) d d' := by
  intro tag rest tail
  obtain ⟨left, done, behind⟩ := h rest tail
  exact ⟨name, (read_tag done).trans (by rw [behind])⟩

/-- The one argument of a tag, read in front of the rest. -/
theorem readSingle_append {mode : FoldMode} {e : Expr} {inside : List Lexeme} (site : TagSite)
    (opening : Text.Location)
    (list : readArguments site.entities site.tag mode inside = .ok ([(none, e)], []))
    (otherwise : Malformed) (rest : List Lexeme) :
    ∃ left, site.readSingle mode (⟨.openParen, opening⟩ :: (inside ++ rest)) otherwise =
      .ok (e, left) ∧ left.1 = rest := by
  refine TagSite.readSingle_of site opening ?_ otherwise
  rw [readArguments_append (behindList?_of_readArguments list), list]
  rfl

theorem reads_output {value : Expr} (spelled : (Phrase.output value).Spelled indicator tokens)
    (d : Draft) : Reads indicator tokens d (d.push (.output value)) := by
  obtain _ | _ | @⟨_, inside, place, opening, plain, list, constant⟩ := spelled
  refine reads_of_read fun rest _ => ?_
  have filled : inside ≠ [] := by
    rintro rfl
    cases list
  have plain : ∀ l, (inside ++ rest).head? = some l → ¬TagSite.declares l.token := by
    intro l first
    rw [List.head?_append_of_ne_nil _ filled] at first
    exact plain l first
  obtain ⟨left, single, done⟩ := readSingle_append (TagSite.inCore indicator "" place) opening list
    .notOneAnonymous rest
  refine ⟨left, ?_, done⟩
  have other : ∀ v op e, value ≠ .sequence [.var v, .operator op, e] := by
    rintro v op e rfl
    cases constant
  show (TagSite.inCore indicator "" place).read d (⟨.openParen, opening⟩ :: (inside ++ rest)) =
    .ok (_, left)
  rw [TagSite.read_anonymous rfl]
  exact TagSite.readAnonymous_output plain single other (useAll_constant constant d)

/-- What the head of a block is read as in front of the rest. -/
theorem readBlockHead_of_spelled {name : String} {form : BlockForm} {arguments : BlockArguments}
    {head : List Lexeme} {place mark : Text.Location}
    (known : Entities.core.block? name = some form)
    (valid : ((TagSite.inCore indicator name place).readBlockHead form
      (head ++ [⟨.blockMark, mark⟩])).map TagSite.forget = .ok (arguments, [⟨.blockMark, mark⟩]))
    (d : Draft) (rest : List Lexeme) :
    (TagSite.inCore indicator name place).read d (head ++ [⟨.blockMark, mark⟩] ++ rest) =
        (TagSite.inCore indicator name place).readBlock form d
          (head ++ [⟨.blockMark, mark⟩] ++ rest) ∧
      ∃ left, (TagSite.inCore indicator name place).readBlockHead form
          (head ++ [⟨.blockMark, mark⟩] ++ rest) = .ok (arguments, left) ∧
        left.1 = ⟨.blockMark, mark⟩ :: rest := by
  have filled : head ++ [⟨.blockMark, mark⟩] ≠ [] := by simp
  refine ⟨TagSite.read_head rfl known ?_, TagSite.of_forget
    (TagSite.readBlockHead_append filled valid rest)⟩
  rw [parenFollows_append filled]
  unfold TagSite.readBlockHead at valid
  split at valid
  · rename_i paren
    rw [paren]
    rfl
  · obtain ⟨left, eq, behind⟩ := TagSite.of_forget valid
    cases eq
    dsimp only at behind
    rw [behind]
    rfl

section Blocks

variable {name : String} {made : BlockInstance} {place : Text.Location}

/-- A block that can stand there. -/
theorem reads_block (links : List String)
    (spelled : (Phrase.opening (.block name made) place).Spelled indicator tokens)
    (chained : ∀ form, Entities.core.block? name = some form →
      (TagSite.inCore indicator name place).chainOf form d = .ok (links, d')) :
    Reads indicator tokens d
      (d'.openBody (.block name made) (decide (1 < links.length)) links place) := by
  obtain _ | _ | _ | @⟨_, form, arguments, _, head, _, mark, known, valid, make, constant⟩ :=
    spelled
  refine reads_of_read fun rest _ => ?_
  obtain ⟨whole, left, done, behind⟩ := readBlockHead_of_spelled known valid d rest
  rw [whole]
  exact TagSite.readBlock_of done behind (chained form known) make (useArgs_constant constant d')

/-- A block that cannot. -/
theorem refuses_block (spelled : (Phrase.opening (.block name made) place).Spelled indicator tokens)
    (unmatched : ∀ form, Entities.core.block? name = some form → ∃ reason,
      (TagSite.inCore indicator name place).chainOf form d = .error (.unmatched name reason)) :
    Refuses indicator tokens d := by
  obtain _ | _ | _ | @⟨_, form, arguments, _, head, _, mark, known, valid, make, constant⟩ :=
    spelled
  intro tag rest _
  obtain ⟨whole, ⟨left, short⟩, done, behind⟩ := readBlockHead_of_spelled known valid d rest
  dsimp only at behind
  subst behind
  obtain ⟨reason, failed⟩ := unmatched form known
  refine ⟨place, name, reason, ?_⟩
  have refused : (TagSite.inCore indicator name place).readBlock form d
      (head ++ [⟨.blockMark, mark⟩] ++ rest) = .error (.unmatched name reason) := by
    unfold TagSite.readBlock
    simp only [done, TagSite.readMark, failed, bind, Except.bind]
  have refused' := whole.trans refused
  rw [List.cons_append, read]
  unfold TagSite.inCore at refused'
  rw [refused']

end Blocks

theorem reads_define {name : String} {place : Text.Location}
    (spelled : (Phrase.opening (.define name) place).Spelled indicator tokens) (d : Draft)
    (goesOn : Bool) (links : List String) :
    Reads indicator tokens d (d.openBody (.define name) goesOn links place) := by
  obtain _ | _ | _ | _ | @⟨_, target, inside, _, opening, mark, list, named⟩ := spelled
  refine reads_of_read fun rest _ => ?_
  obtain ⟨⟨left, short⟩, single, done⟩ := readSingle_append
    (TagSite.inCore indicator "define" place) opening list .notOneArgument
    (⟨.blockMark, mark⟩ :: rest)
  dsimp only at done
  subst done
  rw [List.cons_append, List.append_assoc, List.singleton_append, TagSite.read_define rfl,
    TagSite.readDefine, single]
  cases target with
  | var v =>
    simp only [bind, Except.bind, named]
    exact ⟨_, rfl, rfl⟩
  | _ => cases named

theorem reads_encode {handler : String} {encoder : Encoder} {place : Text.Location}
    (spelled : (Phrase.opening (.encode handler encoder) place).Spelled indicator tokens)
    (d : Draft)
    (goesOn : Bool) (links : List String) :
    Reads indicator tokens d (d.openBody (.encode handler encoder) goesOn links place) := by
  obtain _ | _ | _ | _ | _ | @⟨_, _, word, inside, _, opening, mark, list, named, known⟩ := spelled
  refine reads_of_read fun rest _ => ?_
  obtain ⟨⟨left, short⟩, single, done⟩ := readSingle_append
    (TagSite.inCore indicator "raw" place) opening list .notOneArgument (⟨.blockMark, mark⟩ :: rest)
  dsimp only at done
  subst done
  have known : (TagSite.inCore indicator "raw" place).entities.encoder? handler = some encoder :=
    known
  rw [List.cons_append, List.append_assoc, List.singleton_append, TagSite.read_raw rfl,
    TagSite.readRaw, single]
  simp only [bind, Except.bind, named, known]
  exact ⟨_, rfl, rfl⟩

end Draft

end Stencil
