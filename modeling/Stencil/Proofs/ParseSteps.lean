import Mathlib.Logic.Relation
import Stencil.Parse.Template

/-!
# Steps of a parse

One token of a source changes a draft in one of a few ways. `Draft.Step` lists them, each with what
the reader has checked, and a successful read is a sequence of steps (`Draft.steps_of_read`). What
holds of drafts throughout a parse is proved one step at a time, without the readers.
-/

namespace Stencil

/-- A computation in two parts succeeds only if both do. -/
theorem ok_of_bind {ε α β : Type} {x : Except ε α} {f : α → Except ε β} {b : β}
    (h : x >>= f = .ok b) : ∃ a, x = .ok a ∧ f a = .ok b := by
  cases x with
  | error e => cases h
  | ok a => exact ⟨a, rfl, h⟩

theorem ok_of_mapError {ε ε' α : Type} {x : Except ε α} {f : ε → ε'} {a : α}
    (h : x.mapError f = .ok a) : x = .ok a := by
  cases x with
  | error e => cases h
  | ok b => exact congrArg Except.ok (Except.ok.inj h)

theorem ok_of_any {ε α : Type} {x : Except ε α} {p : α → Bool} (h : x.toOption.any p = true) :
    ∃ a, x = .ok a ∧ p a = true := by
  cases x with
  | error e => cases h
  | ok a => exact ⟨a, rfl, h⟩

variable (source : List Lexeme)

namespace TagSite

/-- An argument list among the tokens of a source that was read in a mode. -/
def ReadsTuple (site : TagSite) (mode : FoldMode) (t : Tuple) : Prop :=
  ∃ tokens rest, tokens ⊆ source ∧
    readArguments site.entities site.tag mode tokens = .ok (t, rest)

/-- An argument list of one argument without label. -/
def Reads (site : TagSite) (mode : FoldMode) (e : Expr) : Prop :=
  site.ReadsTuple source mode [(none, e)]

/-- A name among the tokens of a source. -/
def ReadsName (name : String) : Prop := ∃ place, ⟨.ident name, place⟩ ∈ source

/-- The arguments that a block tag was read with. -/
inductive ReadsBlock (site : TagSite) (form : BlockForm) : BlockArguments → Prop
  | none : ReadsBlock site form (.call [])
  | call {t : Tuple} (read : site.ReadsTuple source .strict t) (unmatched : form.match? t = none) :
      ReadsBlock site form (.call t)
  | parsed {mode : FoldMode} {t : Tuple} {found : Matched} (plain : mode ≠ .assignment)
      (read : site.ReadsTuple source mode t) (matched : form.match? t = some found) :
      ReadsBlock site form (.parsed found)

/-- What a tag can do to a draft. -/
inductive Step (site : TagSite) (d : Draft) : Draft → Prop
  /-- A tag that means nothing is text. -/
  | text : Step site d (d.addRaw (String.ofList [site.indicator] ++ site.tag))
  | output {e : Expr} {used : Draft} (read : site.Reads source .assignment e)
      (single : ∀ v op value, e ≠ .sequence [.var v, .operator op, value])
      (uses : d.useAll e = .ok used) : Step site d (used.push (.output e))
  | call {t : Tuple} {e : Expr} {used : Draft} (read : site.ReadsTuple source .strict t)
      (resolved : site.entities.resolveCall site.tag site.tag false t = .ok e)
      (uses : d.useAll e = .ok used) : Step site d (used.push (.output e))
  | declareEmpty {name : String} (named : ReadsName source name)
      (fresh : d.innermost.has name = false) :
      Step site d ((d.declare name ⟨false, false⟩).push (.declare name false none))
  | declare {constant : Bool} {name : String} {value : Expr} {used : Draft}
      (named : ReadsName source name) (read : site.Reads source .strict value)
      (uses : d.useAll value = .ok used) (fresh : used.innermost.has name = false) :
      Step site d ((used.declare name ⟨constant, true⟩).push (.declare name constant (some value)))
  | assign {v : Variable} {op : Operator} {value : Expr} {declared : Declared} {used : Draft}
      (read : site.Reads source .assignment (.sequence [.var v, .operator op, value]))
      (atomic : v.isAtomic = true) (known : d.lookup? v.member = some declared)
      (mutable : declared.constant = false)
      (compound : op.compoundBase?.isSome = true → declared.assigned = true)
      (uses : d.useAll value = .ok used) :
      Step site d ((used.markAssigned v.member).push (.assign v op value))
  | defineValue {target value : Expr} {name : String} {used : Draft}
      (read : site.Reads source .assignment (.sequence [target, .operator .assign, value]))
      (named : target.atomicName? = some name) (uses : d.useAll value = .ok used) :
      Step site d (used.push (.define name (some value)))
  | defineBody {e : Expr} {name : String} (read : site.Reads source .assignment e)
      (named : e.atomicName? = some name) :
      Step site d (d.openScope (.define name none) "define" .define site.location [])
  | evaluate {e : Expr} {name : String} (read : site.Reads source .strict e)
      (named : site.evaluation e = .ok (name, none)) :
      Step site d (d.push (.evaluate name none))
  | evaluateOr {e default : Expr} {name : String} {used : Draft}
      (read : site.Reads source .strict e)
      (named : site.evaluation e = .ok (name, some default))
      (uses : d.useAll default = .ok used) :
      Step site d (used.push (.evaluate name (some default)))
  | inlineRaw {t : Tuple} {file : String} (read : site.ReadsTuple source .strict t)
      (target : inlineTarget t = .ok (file, true)) :
      Step site d ((({ d with raws := NameSet.insert file d.raws }).push (.inline file true)).push
        (.scope none))
  | inlineTemplate {t : Tuple} {file : String} (read : site.ReadsTuple source .strict t)
      (target : inlineTarget t = .ok (file, false)) :
      Step site d ((({ d with templates := NameSet.insert file d.templates }).push
        (.inline file false)).push (.scope none))
  | encode {e : Expr} {handler : String} {encoder : Encoder} (read : site.Reads source .strict e)
      (named : wordOf e = some handler) (known : site.entities.encoder? handler = some encoder) :
      Step site d (d.openScope (.encode handler encoder) "raw" .encode site.location [])
  /-- A block that starts a chain. -/
  | block {form : BlockForm} {arguments : BlockArguments} {made : BlockInstance} {used : Draft}
      (known : site.entities.block? site.tag = some form) (starts : form.follows = [])
      (read : site.ReadsBlock source form arguments) (make : form.make arguments = .ok made)
      (uses : made.args.values.foldlM Draft.useAll d = .ok used) :
      Step site d (used.openScope (.block site.tag false made.behaviour made.args)
        site.tag (.chain [site.tag]) site.location
        (Entries.ofList (made.declares.map fun name => (name, Declared.mk true true))))
  /-- A block that closes the one before it and goes on with its chain. -/
  | link {form : BlockForm} {arguments : BlockArguments} {made : BlockInstance} {used : Draft}
      {top : OpenScope} {outer : List OpenScope} {names : List String}
      (known : site.entities.block? site.tag = some form) (opened : d.opened = top :: outer)
      (kind : top.kind = .chain names) (follows : form.follows.contains top.name = true)
      (read : site.ReadsBlock source form arguments) (make : form.make arguments = .ok made)
      (uses : made.args.values.foldlM Draft.useAll d.closeScope = .ok used) :
      Step site d (used.openScope (.block site.tag (1 < (names ++ [site.tag]).length)
          made.behaviour made.args) site.tag (.chain (names ++ [site.tag])) site.location
        (Entries.ofList (made.declares.map fun name => (name, Declared.mk true true))))
  | close {closed : String} (named : closedName? site.tag = some closed)
      (own : d.opened.head?.any (·.closedBy closed) = true) : Step site d d.closeScope

end TagSite

/-- What a token can do to a draft, a tag together with its arguments. -/
inductive Draft.Step (entities : Entities) (indicator : Char) (d : Draft) : Draft → Prop
  | raw {text : String} {place : Text.Location} (read : ⟨.raw text, place⟩ ∈ source) :
      Step entities indicator d (d.addRaw text)
  | mark : Step entities indicator d (d.addRaw ":")
  | tag {name : String} {place : Text.Location} {d' : Draft}
      (read : ⟨.tag name, place⟩ ∈ source)
      (step : TagSite.Step source { entities, indicator, tag := name, location := place } d d') :
      Step entities indicator d d'

/-- The tokens behind an argument list are among those it was read from. -/
theorem subset_of_readLevels {r : Entities} {tag : String} {mode : FoldMode}
    {tokens rest : List Lexeme} {level : Level} {outer : List Level} {t : Tuple}
    (h : readLevels r tag mode tokens level outer = .ok (t, rest)) : rest ⊆ tokens := by
  induction tokens generalizing level outer with
  | nil => cases h
  | cons lexeme tokens ih =>
    simp only [readLevels] at h
    split at h
    · cases h
    · cases h
      exact List.subset_cons_self _ _
    · exact List.subset_cons_of_subset _ (ih h)

namespace TagSite

variable {source : List Lexeme} {site : TagSite}

theorem reads_of_readList {mode : FoldMode} {tokens : List Lexeme} {t : Tuple}
    {rest : Remaining tokens} (h : site.readList mode tokens = .ok (t, rest))
    (sub : tokens ⊆ source) : site.ReadsTuple source mode t ∧ rest.1 ⊆ tokens := by
  unfold readList at h
  split at h
  · rename_i t' rest' read
    cases h
    exact ⟨⟨tokens, rest', sub, read⟩, subset_of_readLevels read⟩
  · cases h

theorem reads_of_readTuple {mode : FoldMode} {tokens : List Lexeme} {t : Tuple}
    {rest : Remaining tokens} (h : site.readTuple mode tokens = .ok (t, rest))
    (sub : tokens ⊆ source) : site.ReadsTuple source mode t ∧ rest.1 ⊆ tokens := by
  unfold readTuple at h
  split at h
  · rename_i place inside
    split at h
    · rename_i t' rest' bound read
      cases h
      have inner := reads_of_readList read (List.Subset.trans (List.subset_cons_self _ _) sub)
      exact ⟨inner.1, List.subset_cons_of_subset _ inner.2⟩
    · cases h
  · cases h

theorem eq_of_single? {t : Tuple} {e : Expr} (h : t.single? = some e) : t = [(none, e)] := by
  unfold Tuple.single? at h
  split at h
  · cases h
    rfl
  · cases h

theorem reads_of_readSingle {mode : FoldMode} {tokens : List Lexeme} {otherwise : Malformed}
    {e : Expr} {rest : Remaining tokens}
    (h : site.readSingle mode tokens otherwise = .ok (e, rest)) (sub : tokens ⊆ source) :
    site.Reads source mode e ∧ rest.1 ⊆ tokens := by
  obtain ⟨⟨t, left⟩, read, h⟩ := ok_of_bind h
  dsimp only at h
  split at h
  · rename_i found single
    cases h
    have inner := reads_of_readTuple read sub
    rw [eq_of_single? single] at inner
    exact inner
  · cases h

theorem subset_of_readMark {tokens : List Lexeme} {otherwise : Malformed}
    {rest : Remaining tokens} (h : site.readMark tokens otherwise = .ok rest) :
    rest.1 ⊆ tokens := by
  unfold readMark at h
  split at h
  · cases h
    exact List.subset_cons_self _ _
  · cases h

theorem reads_of_readDeclared {tokens : List Lexeme} {value : Option Expr}
    {rest : Remaining tokens} (h : site.readDeclared tokens = .ok (value, rest))
    (sub : tokens ⊆ source) :
    (∀ e, value = some e → site.Reads source .strict e) ∧ rest.1 ⊆ tokens := by
  unfold readDeclared at h
  split at h
  · cases h
    exact ⟨by simp, List.subset_cons_self _ _⟩
  · split at h
    · cases h
    · rename_i t left bound read
      have inner := reads_of_readList read (List.Subset.trans (List.subset_cons_self _ _) sub)
      split at h
      · rename_i e single
        cases h
        rw [eq_of_single? single] at inner
        refine ⟨?_, List.subset_cons_of_subset _ inner.2⟩
        rintro _ ⟨⟩
        exact inner.1
      · cases h
  · cases h

theorem step_of_declare {d d' : Draft} {constant : Bool} {name : String} {value : Option Expr}
    (named : ReadsName source name) (read : ∀ e, value = some e → site.Reads source .strict e)
    (h : declare d constant name value = .ok d') : Step source site d d' := by
  unfold declare at h
  cases value with
  | none =>
    cases constant with
    | true => cases h
    | false =>
      by_cases fresh : d.innermost.has name = true
      · simp [fresh, bind, Except.bind, pure, Except.pure, throw, throwThe, MonadExceptOf.throw]
          at h
      · simp only [Option.isNone_none, Bool.and_true, Bool.false_eq_true, if_false, pure_bind,
          fresh] at h
        cases h
        exact .declareEmpty named (by simpa using fresh)
  | some value =>
    simp only [Option.isNone_some, Bool.and_false, Bool.false_eq_true, if_false] at h
    obtain ⟨used, uses, h⟩ := ok_of_bind h
    by_cases fresh : used.innermost.has name = true
    · simp [fresh, bind, Except.bind, throw, throwThe, MonadExceptOf.throw] at h
    · simp only [fresh, Bool.false_eq_true, if_false] at h
      cases h
      exact .declare named (read value rfl) uses (by simpa using fresh)

theorem step_of_readDeclaration {d d' : Draft} {constant : Bool} {tokens : List Lexeme}
    {rest : Remaining tokens} (h : site.readDeclaration d constant tokens = .ok (d', rest))
    (sub : tokens ⊆ source) : Step source site d d' ∧ rest.1 ⊆ tokens := by
  unfold readDeclaration at h
  split at h
  · rename_i name place behind
    obtain ⟨⟨value, ⟨left, bound⟩⟩, read, h⟩ := ok_of_bind h
    obtain ⟨declared, done, h⟩ := ok_of_bind h
    cases h
    have inner := reads_of_readDeclared read (List.Subset.trans (List.subset_cons_self _ _) sub)
    exact ⟨step_of_declare ⟨place, sub List.mem_cons_self⟩ inner.1 done,
      List.subset_cons_of_subset _ inner.2⟩
  · cases h

theorem step_of_assign {d d' : Draft} {v : Variable} {op : Operator} {value : Expr}
    (read : site.Reads source .assignment (.sequence [.var v, .operator op, value]))
    (h : assign d v op value = .ok d') : Step source site d d' := by
  unfold assign at h
  by_cases atomic : v.isAtomic = true
  · simp only [atomic, Bool.not_true, Bool.false_eq_true, if_false] at h
    split at h
    · cases h
    · rename_i declared known
      by_cases constant : declared.constant = true
      · simp [constant, bind, Except.bind, throw, throwThe, MonadExceptOf.throw] at h
      · simp only [constant, Bool.false_eq_true, if_false] at h
        by_cases compound : (op.compoundBase?.isSome && !declared.assigned) = true
        · simp [compound, bind, Except.bind, throw, throwThe, MonadExceptOf.throw] at h
        · simp only [compound, Bool.false_eq_true, if_false] at h
          obtain ⟨used, uses, h⟩ := ok_of_bind h
          cases h
          refine .assign read atomic known (by simpa using constant) ?_ uses
          intro isCompound
          simpa [isCompound] using compound
  · simp [atomic, bind, Except.bind, throw, throwThe, MonadExceptOf.throw] at h

theorem step_of_readAnonymous {d d' : Draft} {tokens : List Lexeme} {rest : Remaining tokens}
    (h : site.readAnonymous d tokens = .ok (d', rest)) (sub : tokens ⊆ source) :
    Step source site d d' ∧ rest.1 ⊆ tokens := by
  unfold readAnonymous at h
  split at h
  · obtain ⟨⟨declared, ⟨left, bound⟩⟩, read, h⟩ := ok_of_bind h
    cases h
    have inner := step_of_readDeclaration read
      (List.Subset.trans (fun _ h => .tail _ (.tail _ h)) sub)
    exact ⟨inner.1, fun _ h => .tail _ (.tail _ (inner.2 h))⟩
  · obtain ⟨⟨declared, ⟨left, bound⟩⟩, read, h⟩ := ok_of_bind h
    cases h
    have inner := step_of_readDeclaration read
      (List.Subset.trans (fun _ h => .tail _ (.tail _ h)) sub)
    exact ⟨inner.1, fun _ h => .tail _ (.tail _ (inner.2 h))⟩
  · obtain ⟨⟨e, left⟩, read, h⟩ := ok_of_bind h
    have inner := reads_of_readSingle read sub
    dsimp only at h
    split at h
    · obtain ⟨assigned, done, h⟩ := ok_of_bind h
      cases h
      exact ⟨step_of_assign inner.1 done, inner.2⟩
    · rename_i single
      obtain ⟨used, uses, h⟩ := ok_of_bind h
      cases h
      exact ⟨.output inner.1 single uses, inner.2⟩

theorem step_of_readDefine {d d' : Draft} {tokens : List Lexeme} {rest : Remaining tokens}
    (h : site.readDefine d tokens = .ok (d', rest)) (sub : tokens ⊆ source) :
    Step source site d d' ∧ rest.1 ⊆ tokens := by
  obtain ⟨⟨e, left⟩, read, h⟩ := ok_of_bind h
  have inner := reads_of_readSingle read sub
  dsimp only at h
  split at h
  · split at h
    · rename_i name named
      obtain ⟨used, uses, h⟩ := ok_of_bind h
      cases h
      exact ⟨.defineValue inner.1 named uses, inner.2⟩
    · cases h
  · split at h
    · rename_i name named
      obtain ⟨behind, mark, h⟩ := ok_of_bind h
      cases h
      exact ⟨.defineBody inner.1 named, fun _ m => inner.2 (subset_of_readMark mark m)⟩
    · cases h

theorem step_of_readEvaluate {d d' : Draft} {tokens : List Lexeme} {rest : Remaining tokens}
    (h : site.readEvaluate d tokens = .ok (d', rest)) (sub : tokens ⊆ source) :
    Step source site d d' ∧ rest.1 ⊆ tokens := by
  obtain ⟨⟨e, left⟩, read, h⟩ := ok_of_bind h
  have inner := reads_of_readSingle read sub
  obtain ⟨⟨name, default⟩, named, h⟩ := ok_of_bind h
  cases default with
  | none =>
    cases h
    exact ⟨.evaluate inner.1 named, inner.2⟩
  | some default =>
    obtain ⟨used, uses, h⟩ := ok_of_bind h
    cases h
    exact ⟨.evaluateOr inner.1 named uses, inner.2⟩

theorem step_of_readInline {d d' : Draft} {tokens : List Lexeme} {rest : Remaining tokens}
    (h : site.readInline d tokens = .ok (d', rest)) (sub : tokens ⊆ source) :
    Step source site d d' ∧ rest.1 ⊆ tokens := by
  obtain ⟨⟨t, left⟩, read, h⟩ := ok_of_bind h
  have inner := reads_of_readTuple read sub
  obtain ⟨⟨file, asRaw⟩, target, h⟩ := ok_of_bind h
  cases asRaw with
  | true =>
    cases h
    exact ⟨.inlineRaw inner.1 (ok_of_mapError target), inner.2⟩
  | false =>
    cases h
    exact ⟨.inlineTemplate inner.1 (ok_of_mapError target), inner.2⟩

theorem step_of_readRaw {d d' : Draft} {tokens : List Lexeme} {rest : Remaining tokens}
    (h : site.readRaw d tokens = .ok (d', rest)) (sub : tokens ⊆ source) :
    Step source site d d' ∧ rest.1 ⊆ tokens := by
  obtain ⟨⟨e, left⟩, read, h⟩ := ok_of_bind h
  have inner := reads_of_readSingle read sub
  dsimp only at h
  split at h
  · cases h
  · rename_i handler named
    split at h
    · cases h
    · rename_i encoder known
      obtain ⟨behind, mark, h⟩ := ok_of_bind h
      cases h
      exact ⟨.encode inner.1 named known, fun _ m => inner.2 (subset_of_readMark mark m)⟩

theorem reads_of_readBlockArguments {form : BlockForm} {tokens : List Lexeme}
    {arguments : BlockArguments} {rest : Remaining tokens}
    (h : site.readBlockArguments form tokens = .ok (arguments, rest)) (sub : tokens ⊆ source) :
    site.ReadsBlock source form arguments ∧ rest.1 ⊆ tokens := by
  unfold readBlockArguments at h
  split at h
  · rename_i t left read
    have inner := reads_of_readTuple read sub
    split at h
    · rename_i found matched
      cases h
      exact ⟨.parsed (by decide) inner.1 matched, inner.2⟩
    · rename_i unmatched
      cases h
      exact ⟨.call inner.1 unmatched, inner.2⟩
  · split at h
    · cases h
    · split at h
      · cases h
      · rename_i t left read
        have inner := reads_of_readTuple read sub
        split at h
        · rename_i found matched
          cases h
          exact ⟨.parsed (by decide) inner.1 matched, inner.2⟩
        · cases h

theorem reads_of_readBlockHead {form : BlockForm} {tokens : List Lexeme}
    {arguments : BlockArguments} {rest : Remaining tokens}
    (h : site.readBlockHead form tokens = .ok (arguments, rest)) (sub : tokens ⊆ source) :
    site.ReadsBlock source form arguments ∧ rest.1 ⊆ tokens := by
  unfold readBlockHead at h
  split at h
  · exact reads_of_readBlockArguments h sub
  · cases h
    exact ⟨.none, List.Subset.refl _⟩

theorem step_of_readBlock {form : BlockForm} {d d' : Draft} {tokens : List Lexeme}
    {rest : Remaining tokens} (known : site.entities.block? site.tag = some form)
    (h : site.readBlock form d tokens = .ok (d', rest)) (sub : tokens ⊆ source) :
    Step source site d d' ∧ rest.1 ⊆ tokens := by
  obtain ⟨⟨arguments, left⟩, read, h⟩ := ok_of_bind h
  have inner := reads_of_readBlockHead read sub
  obtain ⟨behind, mark, h⟩ := ok_of_bind h
  obtain ⟨⟨chain, closed⟩, linked, h⟩ := ok_of_bind h
  obtain ⟨made, make, h⟩ := ok_of_bind h
  obtain ⟨used, uses, h⟩ := ok_of_bind h
  cases h
  refine ⟨?_, fun _ m => inner.2 (subset_of_readMark mark m)⟩
  unfold chainOf at linked
  split at linked
  · rename_i starts
    cases linked
    exact .block known (by simpa using starts) inner.1 (ok_of_mapError make) uses
  · split at linked
    · rename_i opened
      split at linked
      · rename_i follows
        cases linked
        exact .link known opened rfl follows inner.1 (ok_of_mapError make) uses
      · cases linked
    · cases linked

theorem step_of_readCall {d d' : Draft} {tokens : List Lexeme} {rest : Remaining tokens}
    (h : site.readCall d tokens = .ok (d', rest)) (sub : tokens ⊆ source) :
    Step source site d d' ∧ rest.1 ⊆ tokens := by
  obtain ⟨⟨t, left⟩, read, h⟩ := ok_of_bind h
  have inner := reads_of_readTuple read sub
  obtain ⟨e, resolved, h⟩ := ok_of_bind h
  obtain ⟨used, uses, h⟩ := ok_of_bind h
  cases h
  exact ⟨.call inner.1 resolved uses, inner.2⟩

theorem step_of_readNamed {d d' : Draft} {tokens : List Lexeme} {rest : Remaining tokens}
    (h : site.readNamed d tokens = .ok (d', rest)) (sub : tokens ⊆ source) :
    Step source site d d' ∧ rest.1 ⊆ tokens := by
  unfold readNamed at h
  dsimp only at h
  split at h
  · exact step_of_readDefine h sub
  · exact step_of_readEvaluate h sub
  · exact step_of_readInline h sub
  · exact step_of_readRaw h sub
  · split at h
    · rename_i form known _
      exact step_of_readBlock known h sub
    · split at h
      · exact step_of_readCall h sub
      · cases h
        exact ⟨.text, List.Subset.refl _⟩

theorem step_of_close? {d d' : Draft} {closed : String}
    (named : closedName? site.tag = some closed) (h : site.close? d closed = .ok (some d')) :
    Step source site d d' := by
  unfold close? at h
  split at h
  · rename_i own
    cases h
    exact .close named own
  · dsimp only at h
    split at h
    · cases h
    · split at h <;> cases h

/-- A tag that is read makes one step. -/
theorem step_of_read {d d' : Draft} {tokens : List Lexeme} {rest : Remaining tokens}
    (h : site.read d tokens = .ok (d', rest)) (sub : tokens ⊆ source) :
    Step source site d d' ∧ rest.1 ⊆ tokens := by
  unfold read at h
  split at h
  · exact step_of_readAnonymous h sub
  · split at h
    · exact step_of_readNamed h sub
    · rename_i closed named
      obtain ⟨found, close, h⟩ := ok_of_bind h
      cases found with
      | none => exact step_of_readNamed h sub
      | some d'' =>
        cases h
        refine ⟨step_of_close? ?_ close, List.Subset.refl _⟩
        split at named
        · cases named
        · exact named

end TagSite

namespace Draft

/-- A variable that is used is declared and assigned, or becomes required. -/
theorem use_cases {d d' : Draft} {v : Variable} (h : d.use v = .ok d') :
    (∃ declared, v.scope = none ∧ d.lookup? v.member = some declared ∧
        declared.assigned = true ∧ d' = d) ∨
      ((v.scope = none → d.lookup? v.member = none) ∧
        d' = { d with required := NameSet.insert v.rootKey d.required }) := by
  unfold use at h
  dsimp only at h
  by_cases plain : v.scope = none
  · simp only [plain, Option.isNone_none, if_true] at h
    split at h
    · rename_i declared known
      split at h
      · rename_i assigned
        cases h
        exact .inl ⟨declared, plain, known, assigned, rfl⟩
      · cases h
    · rename_i unknown
      cases h
      exact .inr ⟨fun _ => unknown, rfl⟩
  · have inScope : v.scope.isNone = false := by simpa [Option.isSome_iff_ne_none] using plain
    simp only [inScope, Bool.false_eq_true, if_false] at h
    cases h
    exact .inr ⟨fun none => absurd none plain, rfl⟩

/-- Drafts that differ in what is required at most. -/
def SameBut (d d' : Draft) : Prop := d' = { d with required := d'.required }

theorem SameBut.refl (d : Draft) : SameBut d d := rfl

theorem SameBut.trans {d d' d'' : Draft} (h : SameBut d d') (h' : SameBut d' d'') :
    SameBut d d'' := by
  unfold SameBut at *
  rw [h', h]

theorem sameBut_of_use {d d' : Draft} {v : Variable} (h : d.use v = .ok d') : SameBut d d' := by
  rcases use_cases h with ⟨_, _, _, _, rfl⟩ | ⟨_, rfl⟩
  · exact .refl _
  · rfl

theorem sameBut_of_foldlM {α : Type} {f : Draft → α → Except Fault Draft}
    (keep : ∀ {d d' a}, f d a = .ok d' → SameBut d d') {d d' : Draft} {items : List α}
    (h : items.foldlM f d = .ok d') : SameBut d d' := by
  induction items generalizing d with
  | nil => cases h; exact .refl _
  | cons a items ih =>
    rw [List.foldlM_cons] at h
    obtain ⟨next, first, h⟩ := ok_of_bind h
    exact (keep first).trans (ih h)

theorem sameBut_of_useAll {d d' : Draft} {e : Expr} (h : d.useAll e = .ok d') : SameBut d d' :=
  sameBut_of_foldlM sameBut_of_use h

theorem sameBut_of_useArgs {d d' : Draft} {items : List Expr}
    (h : items.foldlM useAll d = .ok d') : SameBut d d' :=
  sameBut_of_foldlM sameBut_of_useAll h

variable {source : List Lexeme} {entities : Entities} {indicator : Char}

/-- Reading tokens is a sequence of steps. -/
theorem steps_of_read {d d' : Draft} {tag : String} {tokens : List Lexeme}
    (h : read entities indicator d tag tokens = .ok d') (sub : tokens ⊆ source) :
    Relation.ReflTransGen (Step source entities indicator) d d' := by
  fun_induction read entities indicator d tag tokens with
  | case1 => cases h; exact .refl
  | case2 d tag text place rest ih =>
    exact .head (.raw (sub List.mem_cons_self)) (ih h fun _ m => sub (.tail _ m))
  | case3 d tag place rest ih => exact .head .mark (ih h fun _ m => sub (.tail _ m))
  | case4 => cases h
  | case5 d tag name place rest d'' left bound read ih =>
    have inner := TagSite.step_of_read read fun _ m => sub (.tail _ m)
    exact .head (.tag (sub List.mem_cons_self) inner.1)
      (ih h fun _ m => sub (.tail _ (inner.2 m)))
  | case6 => cases h

/-- What holds of the empty draft and is kept by each step holds of every draft that was read. -/
theorem invariant_of_read {P : Draft → Prop} (start : P {})
    (keep : ∀ {d d'}, P d → Step source entities indicator d d' → P d') {d : Draft} {tag : String}
    (h : read entities indicator {} tag source = .ok d) : P d := by
  have steps := steps_of_read h (List.Subset.refl source)
  clear h
  induction steps with
  | refl => exact start
  | tail _ step ih => exact keep ih step

end Draft

namespace Template

/-- A template of tokens is a draft without open scopes. -/
theorem read_of_ofTokens {entities : Entities} {config : Config} {name : String}
    {tokens : List Lexeme} {t : Template} (h : ofTokens entities config name tokens = .ok t) :
    ∃ d : Draft, Draft.read entities config.indicator {} "" tokens = .ok d ∧ d.opened = [] ∧
      t = d.finish name config.indicator := by
  unfold ofTokens at h
  split at h
  · cases h
  · rename_i d read
    split at h
    · cases h
    · rename_i closed
      cases h
      refine ⟨d, read, ?_, rfl⟩
      simpa [Draft.unclosed?] using closed

/-- A template of a source is one of the tokens of the source. -/
theorem ofTokens_of_parse {entities : Entities} {config : Config} {name source : String}
    {t : Template} (h : parse entities config name source = .ok t) :
    ∃ tokens, Token.scan config.indicator source = .ok tokens ∧
      ofTokens entities config name tokens = .ok t := by
  unfold parse at h
  split at h
  · cases h
  · rename_i tokens scanned
    exact ⟨tokens, scanned, ok_of_mapError h⟩

end Template

end Stencil
