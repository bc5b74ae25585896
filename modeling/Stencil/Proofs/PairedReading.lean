import Stencil.Proofs.GroupedValues
import Stencil.Proofs.Longhand

/-!
# Reading in longhand

A source and the same source with compound assignments in longhand are read side by side. Their
tokens are the same from place to place, up to the argument list of one assignment. Whatever is read
of the rest does the same to both drafts, and the assignment adds a node and its longhand, so that
both sources are parsed to templates that are the same in longhand, or neither is parsed.
-/

namespace Stencil

theorem rawSize_longhand (nodes : List Node) :
    rawSize (nodes.map Node.longhand) = rawSize nodes := by
  unfold rawSize
  rw [List.foldl_map]
  congr 1
  funext total node
  cases node with
  | assign v op value =>
    obtain ⟨op', value', eq⟩ := Node.exists_longhand_assign v op value
    rw [eq]
  | _ => rfl

namespace Draft

/-- A draft with its assignments in longhand, wherever its scopes were opened. -/
def inLonghand (d : Draft) : Draft :=
  { d with
    tables := d.tables.map (List.map Node.longhand)
    opened := d.opened.map OpenScope.unplaced }

/-- Two drafts that are the same in longhand. -/
def Matches (d d' : Draft) : Prop := d.inLonghand = d'.inLonghand

section Changes

variable (d : Draft) {node : Node}

theorem current_inLonghand : d.inLonghand.current = d.current := by
  unfold current inLonghand
  cases d.opened <;> rfl

theorem frames_inLonghand : d.inLonghand.frames = d.frames := by
  unfold frames inLonghand
  rw [List.map_map]
  rfl

theorem lookup?_inLonghand (name : String) : d.inLonghand.lookup? name = d.lookup? name := by
  unfold lookup?
  rw [frames_inLonghand]

theorem modify_inLonghand {change change' : List Node → List Node}
    (same : ∀ nodes, (change nodes).map Node.longhand = change' (nodes.map Node.longhand)) :
    ({ d with tables := d.tables.modify d.current change } : Draft).inLonghand =
      { d.inLonghand with
        tables := d.inLonghand.tables.modify d.inLonghand.current change' } := by
  rw [current_inLonghand]
  unfold inLonghand
  rw [map_modify fun nodes _ => same nodes]

theorem push_inLonghand (node : Node) :
    (d.push node).inLonghand = d.inLonghand.push node.longhand :=
  d.modify_inLonghand fun _ => List.map_append

theorem appendRaw_longhand (text : String) (nodes : List Node) :
    (appendRaw text nodes).map Node.longhand = appendRaw text (nodes.map Node.longhand) := by
  unfold appendRaw
  rw [List.getLast?_map]
  cases nodes.getLast? with
  | none => exact List.map_append
  | some last =>
    cases last with
    | raw before =>
      dsimp only [Option.map_some, Node.longhand]
      rw [List.map_append, List.map_dropLast]
      rfl
    | assign v op value =>
      obtain ⟨op', value', eq⟩ := Node.exists_longhand_assign v op value
      rw [Option.map_some, eq]
      exact List.map_append
    | _ => exact List.map_append

theorem addRaw_inLonghand (text : String) :
    (d.addRaw text).inLonghand = d.inLonghand.addRaw text := by
  unfold addRaw
  split
  · rfl
  · exact d.modify_inLonghand (appendRaw_longhand text)

theorem openScope_inLonghand (node : Node) (name : String) (kind : ScopeKind)
    (here : Text.Location) (declared : Entries Declared) :
    (d.openScope node name kind here declared).inLonghand =
      d.inLonghand.openScope node.longhand name kind {} declared := by
  have length : d.inLonghand.tables.length = d.tables.length := List.length_map _
  have written (body : Nat) : (d.inLonghand.push node.longhand).push (.scope (some body)) =
      ((d.push node).push (.scope (some body))).inLonghand := by
    rw [push_inLonghand, push_inLonghand]
    rfl
  unfold openScope
  dsimp only
  rw [length, written]
  unfold inLonghand
  rw [List.map_append]
  rfl

theorem closeScope_inLonghand : d.closeScope.inLonghand = d.inLonghand.closeScope := by
  unfold closeScope inLonghand
  rw [List.map_tail]

theorem declare_inLonghand (name : String) (known : Declared) :
    (d.declare name known).inLonghand = d.inLonghand.declare name known := by
  unfold declare inLonghand
  cases d.opened <;> rfl

theorem markIn_unplaced (name : String) (opened : List OpenScope) :
    markIn name (opened.map OpenScope.unplaced) =
      ((markIn name opened).1.map OpenScope.unplaced, (markIn name opened).2) := by
  induction opened with
  | nil => rfl
  | cons s outer ih =>
    rw [List.map_cons, markIn, markIn, ih]
    dsimp only [OpenScope.unplaced]
    cases s.declared.find? name <;> rfl

theorem markAssigned_inLonghand (name : String) :
    (d.markAssigned name).inLonghand = d.inLonghand.markAssigned name := by
  have marked := markIn_unplaced name d.opened
  unfold markAssigned
  rw [show d.inLonghand.opened = d.opened.map OpenScope.unplaced from rfl, marked]
  generalize markIn name d.opened = result
  obtain ⟨opened, found⟩ := result
  cases found with
  | true => rfl
  | false =>
    dsimp only
    rw [show d.inLonghand.declared = d.declared from rfl]
    cases d.declared.find? name <;> rfl

theorem use_inLonghand (v : Variable) :
    (d.use v).map inLonghand = d.inLonghand.use v := by
  unfold use
  rw [lookup?_inLonghand]
  dsimp only
  generalize (if v.scope.isNone then d.lookup? v.member else none) = known
  cases known with
  | none => rfl
  | some known =>
    dsimp only
    split <;> rfl

end Changes

namespace Matches

variable {d d' : Draft}

theorem lookup? (h : Matches d d') (name : String) : d.lookup? name = d'.lookup? name := by
  rw [← lookup?_inLonghand, h, lookup?_inLonghand]

theorem innermost (h : Matches d d') : d.innermost = d'.innermost := by
  unfold Draft.innermost
  rw [← frames_inLonghand, h, frames_inLonghand]

theorem push (h : Matches d d') {node node' : Node} (same : node.longhand = node'.longhand) :
    Matches (d.push node) (d'.push node') := by
  unfold Matches
  rw [push_inLonghand, push_inLonghand, h, same]

theorem addRaw (h : Matches d d') (text : String) : Matches (d.addRaw text) (d'.addRaw text) := by
  unfold Matches
  rw [addRaw_inLonghand, addRaw_inLonghand, h]

theorem openScope (h : Matches d d') (node : Node) (name : String) (kind : ScopeKind)
    (here there : Text.Location) (declared : Entries Declared) :
    Matches (d.openScope node name kind here declared)
      (d'.openScope node name kind there declared) := by
  unfold Matches
  rw [openScope_inLonghand, openScope_inLonghand, h]

theorem closeScope (h : Matches d d') : Matches d.closeScope d'.closeScope := by
  unfold Matches
  rw [closeScope_inLonghand, closeScope_inLonghand, h]

theorem declare (h : Matches d d') (name : String) (known : Declared) :
    Matches (d.declare name known) (d'.declare name known) := by
  unfold Matches
  rw [declare_inLonghand, declare_inLonghand, h]

theorem markAssigned (h : Matches d d') (name : String) :
    Matches (d.markAssigned name) (d'.markAssigned name) := by
  unfold Matches
  rw [markAssigned_inLonghand, markAssigned_inLonghand, h]

theorem use (h : Matches d d') (v : Variable) : Paired Matches (d.use v) (d'.use v) := by
  refine .of_map ?_
  rw [use_inLonghand, use_inLonghand, h]

theorem foldlM {α : Type} {f : Draft → α → Except Fault Draft}
    (step : ∀ {d d'} a, Matches d d' → Paired Matches (f d a) (f d' a)) (h : Matches d d')
    (items : List α) : Paired Matches (items.foldlM f d) (items.foldlM f d') := by
  induction items generalizing d d' with
  | nil => exact .done h
  | cons a items ih =>
    rw [List.foldlM_cons, List.foldlM_cons]
    exact (step a h).bind fun _ _ next => ih next

theorem useAll (h : Matches d d') (e : Expr) : Paired Matches (d.useAll e) (d'.useAll e) :=
  foldlM (fun v h => h.use v) h e.vars

/-- The scopes that are open, wherever they were opened. -/
theorem opened (h : Matches d d') :
    d.opened.map OpenScope.unplaced = d'.opened.map OpenScope.unplaced :=
  congrArg Draft.opened h

theorem map_opened {α : Type} {f : OpenScope → α} (h : Matches d d')
    (unplaced : ∀ s, f s.unplaced = f s) : d.opened.map f = d'.opened.map f := by
  have same := congrArg (List.map f) h.opened
  rwa [List.map_map, List.map_map, show f ∘ OpenScope.unplaced = f from funext unplaced] at same

end Matches

end Draft

/-- Tokens that are the same from place to place, up to an anonymous tag behind which there are
argument lists that go on in one way or the other. -/
inductive SideBySide (X Y : List Lexeme) : List Lexeme → List Lexeme → Prop
  | nil : SideBySide X Y [] []
  | cons (token : Token) (here there : Text.Location) {rest rest' : List Lexeme}
      (more : SideBySide X Y rest rest') :
      SideBySide X Y (⟨token, here⟩ :: rest) (⟨token, there⟩ :: rest')
  | site (here there opens opens' : Text.Location) :
      SideBySide X Y (⟨.tag "", here⟩ :: ⟨.openParen, opens⟩ :: X)
        (⟨.tag "", there⟩ :: ⟨.openParen, opens'⟩ :: Y)

/-- The same tokens in other places are side by side. -/
theorem SideBySide.of_same {X Y tokens lexemes : List Lexeme}
    (same : lexemes.map (·.token) = tokens.map (·.token)) : SideBySide X Y tokens lexemes := by
  induction tokens generalizing lexemes with
  | nil =>
    rw [List.map_nil, List.map_eq_nil_iff] at same
    rw [same]
    exact .nil
  | cons first tokens ih =>
    obtain ⟨token, place⟩ := first
    obtain ⟨⟨_, place'⟩, rest, rfl, rfl, behind⟩ := List.map_eq_cons_iff.mp same
    exact .cons _ _ _ (ih behind)

theorem SideBySide.behind (front : List Lexeme) {X Y tokens tokens' : List Lexeme}
    (h : SideBySide X Y tokens tokens') : SideBySide X Y (front ++ tokens) (front ++ tokens') := by
  induction front with
  | nil => exact h
  | cons lexeme front ih => exact .cons lexeme.token lexeme.location lexeme.location ih

section Reading

variable {X Y tokens tokens' : List Lexeme} {r : Entities} {tag : String} {mode : FoldMode}

theorem SideBySide.parenFollows_eq (h : SideBySide X Y tokens tokens') :
    parenFollows tokens = parenFollows tokens' := by
  cases h with
  | nil | site => rfl
  | cons token => cases token <;> rfl

theorem SideBySide.markFollows_eq (h : SideBySide X Y tokens tokens') :
    TagSite.markFollows tokens = TagSite.markFollows tokens' := by
  cases h with
  | nil | site => rfl
  | cons token => cases token <;> rfl

/-- A tag cannot stand in an argument list. -/
theorem readLevels_tag_error {name : String} (place : Text.Location) (rest : List Lexeme)
    (level : Level) (outer : List Level) :
    ∃ fault, readLevels r tag mode (⟨.tag name, place⟩ :: rest) level outer = .error fault := by
  rw [readLevels]
  cases next : Progress.next r tag mode (.tag name) (parenFollows rest) level outer with
  | error fault => exact ⟨fault, rfl⟩
  | ok progress => exact absurd (stands_of_next next).1 (by simp [Token.standsInside])

theorem paired_readLevels (h : SideBySide X Y tokens tokens') (level : Level) (outer : List Level) :
    Paired (fun read read' => read.1 = read'.1 ∧ SideBySide X Y read.2 read'.2)
      (readLevels r tag mode tokens level outer) (readLevels r tag mode tokens' level outer) := by
  induction h generalizing level outer with
  | nil => exact .failed _ _
  | cons token here there more ih =>
    simp only [readLevels, more.parenFollows_eq]
    split
    · exact .failed _ _
    · exact .done ⟨rfl, more⟩
    · exact ih _ _
  | site here there opens opens' =>
    obtain ⟨fault, eq⟩ := readLevels_tag_error (r := r) here (⟨.openParen, opens⟩ :: X) level outer
    obtain ⟨fault', eq'⟩ :=
      readLevels_tag_error (r := r) there (⟨.openParen, opens'⟩ :: Y) level outer
    rw [eq, eq']
    exact .failed _ _

/-- Results that belong together, with tokens left that are side by side. -/
def SideBySide.With {α β : Type} (X Y : List Lexeme) (R : α → β → Prop)
    (read : α × Remaining tokens) (read' : β × Remaining tokens') : Prop :=
  R read.1 read'.1 ∧ SideBySide X Y read.2.1 read'.2.1

namespace TagSite

/-- A tag of the same name in another place. -/
def moved (site : TagSite) (there : Text.Location) : TagSite := { site with location := there }

variable (site : TagSite) (there : Text.Location)

theorem paired_readList (mode : FoldMode) (h : SideBySide X Y tokens tokens') :
    Paired (SideBySide.With X Y Eq) (site.readList mode tokens)
      ((site.moved there).readList mode tokens') := by
  have read : Paired (fun read read' => read.1 = read'.1 ∧ SideBySide X Y read.2 read'.2)
      (readArguments site.entities site.tag mode tokens)
      (readArguments site.entities site.tag mode tokens') := paired_readLevels h _ _
  unfold readList
  split
  · rename_i t rest made
    split
    · rename_i t' rest' made'
      rw [made, show readArguments site.entities site.tag mode tokens' = _ from made'] at read
      cases read with
      | done h => exact .done h
    · rename_i fault' failed'
      rw [made, show readArguments site.entities site.tag mode tokens' = _ from failed'] at read
      cases read
  · rename_i fault failed
    split
    · rename_i t' rest' made'
      rw [failed, show readArguments site.entities site.tag mode tokens' = _ from made'] at read
      cases read
    · exact .failed _ _

theorem paired_readTuple (mode : FoldMode) (h : SideBySide X Y tokens tokens') :
    Paired (SideBySide.With X Y Eq) (site.readTuple mode tokens)
      ((site.moved there).readTuple mode tokens') := by
  cases h with
  | nil | site => exact .failed _ _
  | cons token here here' more =>
    cases token with
    | openParen =>
      have list := site.paired_readList there mode more
      unfold readTuple
      dsimp only
      generalize site.readList mode _ = read at list ⊢
      generalize (site.moved there).readList mode _ = read' at list ⊢
      cases list with
      | failed fault fault' => exact .failed fault fault'
      | done h => exact .done h
    | _ => exact .failed _ _

theorem paired_readSingle (mode : FoldMode) (otherwise : Malformed)
    (h : SideBySide X Y tokens tokens') : Paired (SideBySide.With X Y Eq)
      (site.readSingle mode tokens otherwise)
      ((site.moved there).readSingle mode tokens' otherwise) := by
  refine (site.paired_readTuple there mode h).bind ?_
  rintro ⟨t, rest⟩ ⟨_, rest'⟩ ⟨rfl, more⟩
  dsimp only
  cases t.single? with
  | none => exact .failed _ _
  | some e => exact .done ⟨rfl, more⟩

theorem paired_readMark (otherwise : Malformed) (h : SideBySide X Y tokens tokens') :
    Paired (fun rest rest' => SideBySide X Y rest.1 rest'.1) (site.readMark tokens otherwise)
      ((site.moved there).readMark tokens' otherwise) := by
  cases h with
  | nil | site => exact .failed _ _
  | cons token here here' more =>
    cases token with
    | blockMark => exact .done more
    | _ => exact .failed _ _

theorem paired_readDeclared (h : SideBySide X Y tokens tokens') :
    Paired (SideBySide.With X Y Eq) (site.readDeclared tokens)
      ((site.moved there).readDeclared tokens') := by
  cases h with
  | nil | site => exact .failed _ _
  | cons token here here' more =>
    cases token with
    | closeParen => exact .done ⟨rfl, more⟩
    | operator op =>
      cases op with
      | assign =>
        have list := site.paired_readList there .strict more
        unfold readDeclared
        dsimp only
        generalize site.readList .strict _ = read at list ⊢
        generalize (site.moved there).readList .strict _ = read' at list ⊢
        cases list with
        | failed fault fault' => exact .failed fault fault'
        | @done read read' h =>
          obtain ⟨t, rest⟩ := read
          obtain ⟨_, rest'⟩ := read'
          obtain ⟨rfl, more⟩ := h
          dsimp only
          cases t.single? with
          | none => exact .failed _ _
          | some e => exact .done ⟨rfl, more⟩
      | _ => exact .failed _ _
    | _ => exact .failed _ _

variable {d d' : Draft}

theorem paired_declare (h : Draft.Matches d d') (constant : Bool) (name : String)
    (value : Option Expr) :
    Paired Draft.Matches (declare d constant name value) (declare d' constant name value) := by
  -- a declaration of a value that is computed, if there is one
  have written {d d' : Draft} (h : Draft.Matches d d') : Paired Draft.Matches
      (if d.innermost.has name then .error (.variable name .redeclared)
        else .ok ((d.declare name ⟨constant, value.isSome⟩).push (.declare name constant value)) :
        Except Fault Draft)
      (if d'.innermost.has name then .error (.variable name .redeclared)
        else .ok ((d'.declare name ⟨constant, value.isSome⟩).push (.declare name constant value)) :
        Except Fault Draft) := by
    rw [h.innermost]
    split
    · exact .failed _ _
    · exact .done ((h.declare name _).push rfl)
  unfold declare
  refine .guard ?_
  cases value with
  | none => exact written h
  | some e => exact (h.useAll e).bind fun _ _ h => written h

theorem paired_readDeclaration (h : Draft.Matches d d') (constant : Bool)
    (beside : SideBySide X Y tokens tokens') : Paired (SideBySide.With X Y Draft.Matches)
      (site.readDeclaration d constant tokens)
      ((site.moved there).readDeclaration d' constant tokens') := by
  cases beside with
  | nil | site => exact .failed _ _
  | cons token here here' more =>
    cases token with
    | ident name =>
      refine (site.paired_readDeclared there more).bind ?_
      rintro ⟨value, rest⟩ ⟨_, rest'⟩ ⟨rfl, more⟩
      exact (paired_declare h constant name value).bind fun _ _ h => .done ⟨h, more⟩
    | _ => exact .failed _ _

/-- The same assignment to the same variable. -/
theorem paired_assign (h : Draft.Matches d d') (v : Variable) (op : Operator) (value : Expr) :
    Paired Draft.Matches (assign d v op value) (assign d' v op value) := by
  unfold assign
  refine .guard ?_
  rw [h.lookup?]
  cases d'.lookup? v.member with
  | none => exact .failed _ _
  | some declared =>
    refine .guard (.guard ?_)
    exact (h.useAll value).bind fun _ _ h => .done ((h.markAssigned v.member).push rfl)

/-- A compound assignment, and its longhand: the one asks whether the variable was assigned, the
other uses the variable. -/
theorem paired_assign_longhand (h : Draft.Matches d d') {op base : Operator}
    (compound : op.compoundBase? = some base) (x : String) (value : Expr) :
    Paired Draft.Matches (assign d (.plain x) op value)
      (assign d' (.plain x) .assign (.binary base (.var (.plain x)) value)) := by
  have nodes : (Node.assign (.plain x) op value).longhand =
      (Node.assign (.plain x) .assign (.binary base (.var (.plain x)) value)).longhand :=
    Node.longhand_assign compound _ _
  unfold assign
  refine .guard ?_
  rw [h.lookup?]
  cases known : d'.lookup? (Variable.plain x).member with
  | none => exact .failed _ _
  | some declared =>
    refine .guard ?_
    have used : d'.use (.plain x) =
        if declared.assigned then .ok d' else .error (.variable x .unassigned) := by
      have local? : (if (Variable.plain x).scope.isNone then d'.lookup? (Variable.plain x).member
          else none) = some declared := known
      unfold Draft.use
      rw [local?]
      rfl
    have all : d'.useAll (.binary base (.var (.plain x)) value) =
        d'.use (.plain x) >>= fun d => d.useAll value := rfl
    rw [compound, all, used]
    cases declared.assigned with
    | false => exact .failed _ _
    | true =>
      exact (h.useAll value).bind fun _ _ h => .done ((h.markAssigned x).push nodes)

/-- What an anonymous tag with one argument does. -/
theorem paired_statement (h : Draft.Matches d d') (e : Expr) {rest : Remaining tokens}
    {rest' : Remaining tokens'} (more : SideBySide X Y rest.1 rest'.1) :
    Paired (SideBySide.With X Y Draft.Matches)
      (match e with
        | .sequence [.var v, .operator op, value] => do
          let d ← assign d v op value
          return (d, rest)
        | e => do
          let d ← d.useAll e
          return (d.push (.output e), rest))
      (match e with
        | .sequence [.var v, .operator op, value] => do
          let d ← assign d' v op value
          return (d, rest')
        | e => do
          let d ← d'.useAll e
          return (d.push (.output e), rest')) := by
  split
  · exact (paired_assign h _ _ _).bind fun _ _ h => .done ⟨h, more⟩
  · exact (h.useAll _).bind fun _ _ h => .done ⟨h.push rfl, more⟩

theorem paired_readAnonymous (h : Draft.Matches d d') (beside : SideBySide X Y tokens tokens') :
    Paired (SideBySide.With X Y Draft.Matches) (site.readAnonymous d tokens)
      ((site.moved there).readAnonymous d' tokens') := by
  have single := site.paired_readSingle there .assignment .notOneAnonymous beside
  cases beside with
  | nil | site => exact .failed _ _
  | cons token here here' more =>
    cases more with
    | nil | site =>
      refine single.bind ?_
      rintro ⟨e, rest⟩ ⟨_, rest'⟩ ⟨rfl, more⟩
      exact paired_statement h e more
    | cons word place place' inside =>
      cases word with
      | keyword word =>
        cases word with
        | declareVar =>
          exact (site.paired_readDeclaration there h false inside).bind
            fun _ _ read => .done read
        | declareLet =>
          exact (site.paired_readDeclaration there h true inside).bind
            fun _ _ read => .done read
        | _ =>
          refine single.bind ?_
          rintro ⟨e, rest⟩ ⟨_, rest'⟩ ⟨rfl, more⟩
          exact paired_statement h e more
      | _ =>
        refine single.bind ?_
        rintro ⟨e, rest⟩ ⟨_, rest'⟩ ⟨rfl, more⟩
        exact paired_statement h e more

theorem paired_readDefine (h : Draft.Matches d d') (beside : SideBySide X Y tokens tokens') :
    Paired (SideBySide.With X Y Draft.Matches) (site.readDefine d tokens)
      ((site.moved there).readDefine d' tokens') := by
  refine (site.paired_readSingle there .assignment .notOneArgument beside).bind ?_
  rintro ⟨e, rest⟩ ⟨_, rest'⟩ ⟨rfl, more⟩
  dsimp only
  split
  · split
    · exact (h.useAll _).bind fun _ _ h => .done ⟨h.push rfl, more⟩
    · exact .failed _ _
  · split
    · refine (site.paired_readMark there .defineNeedsBody more).bind fun _ _ behind => ?_
      exact .done ⟨h.openScope _ _ _ _ _ _, behind⟩
    · exact .failed _ _

theorem paired_readEvaluate (h : Draft.Matches d d') (beside : SideBySide X Y tokens tokens') :
    Paired (SideBySide.With X Y Draft.Matches) (site.readEvaluate d tokens)
      ((site.moved there).readEvaluate d' tokens') := by
  refine (site.paired_readSingle there .strict .notOneArgument beside).bind ?_
  rintro ⟨e, rest⟩ ⟨_, rest'⟩ ⟨rfl, more⟩
  have target : Paired Eq (site.evaluation e) ((site.moved there).evaluation e) := .rfl
  refine target.bind ?_
  rintro ⟨name, default⟩ _ rfl
  cases default with
  | none => exact .done ⟨h.push rfl, more⟩
  | some e => exact (h.useAll e).bind fun _ _ h => .done ⟨h.push rfl, more⟩

theorem paired_readInline (h : Draft.Matches d d') (beside : SideBySide X Y tokens tokens') :
    Paired (SideBySide.With X Y Draft.Matches) (site.readInline d tokens)
      ((site.moved there).readInline d' tokens') := by
  refine (site.paired_readTuple there .strict beside).bind ?_
  rintro ⟨t, rest⟩ ⟨_, rest'⟩ ⟨rfl, more⟩
  have target : Paired Eq ((inlineTarget t).mapError (Fault.signature "inline"))
      ((inlineTarget t).mapError (Fault.signature "inline")) := .rfl
  refine target.bind ?_
  rintro ⟨file, raw⟩ _ rfl
  refine .done ⟨(Draft.Matches.push ?_ rfl).push rfl, more⟩
  cases raw with
  | true => exact congrArg (fun d : Draft => { d with raws := NameSet.insert file d.raws }) h
  | false =>
    exact congrArg (fun d : Draft => { d with templates := NameSet.insert file d.templates }) h

theorem paired_readRaw (h : Draft.Matches d d') (beside : SideBySide X Y tokens tokens') :
    Paired (SideBySide.With X Y Draft.Matches) (site.readRaw d tokens)
      ((site.moved there).readRaw d' tokens') := by
  refine (site.paired_readSingle there .strict .notOneArgument beside).bind ?_
  rintro ⟨e, rest⟩ ⟨_, rest'⟩ ⟨rfl, more⟩
  dsimp only
  split
  · exact .failed _ _
  · rename_i handler _
    rw [show (site.moved there).entities = site.entities from rfl]
    cases site.entities.encoder? handler with
    | none => exact .failed _ _
    | some encoder =>
      refine (site.paired_readMark there .rawNeedsBody more).bind fun _ _ behind => ?_
      exact .done ⟨h.openScope _ _ _ _ _ _, behind⟩

theorem paired_readBlockArguments (form : BlockForm) (h : SideBySide X Y tokens tokens') :
    Paired (SideBySide.With X Y Eq) (site.readBlockArguments form tokens)
      ((site.moved there).readBlockArguments form tokens') := by
  have strict := site.paired_readTuple there .strict h
  have relaxed := site.paired_readTuple there .relaxed h
  unfold readBlockArguments
  generalize site.readTuple .strict tokens = read at strict ⊢
  generalize (site.moved there).readTuple .strict tokens' = read' at strict ⊢
  cases strict with
  | @done read read' found =>
    obtain ⟨t, rest⟩ := read
    obtain ⟨_, rest'⟩ := read'
    obtain ⟨rfl, more⟩ := found
    dsimp only
    cases form.match? t with
    | none => exact .done ⟨rfl, more⟩
    | some found => exact .done ⟨rfl, more⟩
  | failed fault fault' =>
    dsimp only
    split
    · exact .failed _ _
    · generalize site.readTuple .relaxed tokens = again at relaxed ⊢
      generalize (site.moved there).readTuple .relaxed tokens' = again' at relaxed ⊢
      cases relaxed with
      | failed => exact .failed _ _
      | @done read read' found =>
        obtain ⟨t, rest⟩ := read
        obtain ⟨_, rest'⟩ := read'
        obtain ⟨rfl, more⟩ := found
        dsimp only
        cases form.match? t with
        | none => exact .failed _ _
        | some found => exact .done ⟨rfl, more⟩

theorem paired_readBlockHead (form : BlockForm) (h : SideBySide X Y tokens tokens') :
    Paired (SideBySide.With X Y Eq) (site.readBlockHead form tokens)
      ((site.moved there).readBlockHead form tokens') := by
  unfold readBlockHead
  rw [h.parenFollows_eq]
  split
  · exact site.paired_readBlockArguments there form h
  · exact .done ⟨rfl, h⟩

/-- The chain that a block goes on with. -/
theorem paired_chainOf (h : Draft.Matches d d') (form : BlockForm) :
    Paired (fun read read' => read.1 = read'.1 ∧ Draft.Matches read.2 read'.2)
      (site.chainOf form d) ((site.moved there).chainOf form d') := by
  have opened := h.opened
  unfold chainOf
  split
  · exact .done ⟨rfl, h⟩
  · cases here : d.opened with
    | nil =>
      rw [here, List.map_nil, eq_comm, List.map_eq_nil_iff] at opened
      rw [opened]
      exact .failed _ _
    | cons s outer =>
      rw [here, List.map_cons, eq_comm] at opened
      obtain ⟨s', outer', eq, same, -⟩ := List.map_eq_cons_iff.mp opened
      rw [eq]
      obtain ⟨name, kind, place, table, declared⟩ := s
      obtain ⟨name', kind', place', table', declared'⟩ := s'
      cases same
      cases kind with
      | chain names =>
        dsimp only
        split
        · exact .done ⟨rfl, h.closeScope⟩
        · exact .failed _ _
      | _ => exact .failed _ _

theorem paired_readBlock (h : Draft.Matches d d') (form : BlockForm)
    (beside : SideBySide X Y tokens tokens') : Paired (SideBySide.With X Y Draft.Matches)
      (site.readBlock form d tokens) ((site.moved there).readBlock form d' tokens') := by
  refine (site.paired_readBlockHead there form beside).bind ?_
  rintro ⟨arguments, rest⟩ ⟨_, rest'⟩ ⟨rfl, more⟩
  refine (site.paired_readMark there (.blockNeedsBody site.tag) more).bind fun _ _ behind => ?_
  refine (site.paired_chainOf there h form).bind ?_
  rintro ⟨chain, d⟩ ⟨_, d'⟩ ⟨rfl, h⟩
  have block : Paired Eq
      ((form.make arguments).mapError fun e => Fault.signature site.tag (.block e))
      ((form.make arguments).mapError fun e => Fault.signature site.tag (.block e)) := .rfl
  refine block.bind ?_
  rintro made _ rfl
  refine (Draft.Matches.foldlM (fun e h => h.useAll e) h made.args.values).bind fun _ _ h => ?_
  exact .done ⟨h.openScope _ _ _ _ _ _, behind⟩

theorem paired_close? (h : Draft.Matches d d') (closed : String) :
    Paired (Option.Rel Draft.Matches) (site.close? d closed)
      ((site.moved there).close? d' closed) := by
  have byName := h.map_opened (f := (·.closedBy closed)) fun _ => rfl
  have first : d.opened.head?.any (·.closedBy closed) =
      d'.opened.head?.any (·.closedBy closed) := by
    have heads := congrArg (fun names => names.head?.any id) byName
    simpa only [List.head?_map, Option.any_map, id] using heads
  have some : d.opened.any (·.closedBy closed) = d'.opened.any (·.closedBy closed) := by
    have all := congrArg (fun names => names.any id) byName
    simpa only [List.any_map, Function.id_comp] using all
  unfold close?
  dsimp only [moved]
  rw [first, some]
  split
  · exact .done (.some h.closeScope)
  · split
    · exact .done .none
    · split <;> split <;> exact .failed _ _

theorem paired_readCall (h : Draft.Matches d d') (beside : SideBySide X Y tokens tokens') :
    Paired (SideBySide.With X Y Draft.Matches) (site.readCall d tokens)
      ((site.moved there).readCall d' tokens') := by
  refine (site.paired_readTuple there .strict beside).bind ?_
  rintro ⟨t, rest⟩ ⟨_, rest'⟩ ⟨rfl, more⟩
  have call : Paired Eq (site.entities.resolveCall site.tag site.tag false t)
      (site.entities.resolveCall site.tag site.tag false t) := .rfl
  refine call.bind ?_
  rintro e _ rfl
  exact (h.useAll e).bind fun _ _ h => .done ⟨h.push rfl, more⟩

theorem paired_readNamed (h : Draft.Matches d d') (beside : SideBySide X Y tokens tokens') :
    Paired (SideBySide.With X Y Draft.Matches) (site.readNamed d tokens)
      ((site.moved there).readNamed d' tokens') := by
  unfold readNamed
  rw [beside.parenFollows_eq, beside.markFollows_eq]
  dsimp only [moved]
  split
  · exact site.paired_readDefine there h beside
  · exact site.paired_readEvaluate there h beside
  · exact site.paired_readInline there h beside
  · exact site.paired_readRaw there h beside
  · split
    · exact site.paired_readBlock there h _ beside
    · split
      · exact site.paired_readCall there h beside
      · exact .done ⟨h.addRaw _, beside⟩

/-- A tag that is read from tokens side by side. -/
theorem paired_read (h : Draft.Matches d d') (beside : SideBySide X Y tokens tokens') :
    Paired (SideBySide.With X Y Draft.Matches) (site.read d tokens)
      ((site.moved there).read d' tokens') := by
  unfold read
  rw [beside.parenFollows_eq, show (site.moved there).tag = site.tag from rfl]
  by_cases anonymous : site.tag.isEmpty = true
  · rw [if_pos anonymous, if_pos anonymous]
    exact site.paired_readAnonymous there h beside
  · rw [if_neg anonymous, if_neg anonymous]
    generalize (if parenFollows tokens' then none else closedName? site.tag) = ended
    cases ended with
    | none => exact site.paired_readNamed there h beside
    | some closed =>
      refine (site.paired_close? there h closed).bind ?_
      rintro _ _ (h' | _)
      · exact .done ⟨h', beside⟩
      · exact site.paired_readNamed there h beside

end TagSite

end Reading

namespace Draft

/-- Whatever is read of an anonymous tag with an argument list that goes on in one way or the other
does the same to drafts that match. -/
def PairedSite (entities : Entities) (indicator : Char) (X Y : List Lexeme) : Prop :=
  ∀ (d d' : Draft) (here there opens opens' : Text.Location), Matches d d' →
    Paired (SideBySide.With X Y Matches)
      (TagSite.read ⟨entities, indicator, "", here⟩ d (⟨.openParen, opens⟩ :: X))
      (TagSite.read ⟨entities, indicator, "", there⟩ d' (⟨.openParen, opens'⟩ :: Y))

/-- Tokens side by side are read as drafts that match. The induction is on the tokens that are
left. -/
theorem paired_read {entities : Entities} {indicator : Char} {X Y : List Lexeme}
    (site : PairedSite entities indicator X Y) {tokens tokens' : List Lexeme}
    (beside : SideBySide X Y tokens tokens') {d d' : Draft} (h : Matches d d') (tag : String) :
    Paired Matches (read entities indicator d tag tokens)
      (read entities indicator d' tag tokens') := by
  induction hn : tokens.length using Nat.strongRecOn generalizing tokens tokens' d d' tag with
  | ind n ih =>
    -- the tag of a name, and what is left behind it
    have tagged (name : String) (here there : Text.Location) {rest rest' : List Lexeme}
        (shorter : rest.length < n)
        (tags : Paired (SideBySide.With X Y Matches)
          (TagSite.read ⟨entities, indicator, name, here⟩ d rest)
          (TagSite.read ⟨entities, indicator, name, there⟩ d' rest')) :
        Paired Matches (read entities indicator d tag (⟨.tag name, here⟩ :: rest))
          (read entities indicator d' tag (⟨.tag name, there⟩ :: rest')) := by
      rw [read, read]
      generalize TagSite.read _ d rest = result at tags ⊢
      generalize TagSite.read _ d' rest' = result' at tags ⊢
      cases tags with
      | failed => exact .failed _ _
      | @done a b related =>
        obtain ⟨d, left, short⟩ := a
        obtain ⟨d', left'⟩ := b
        exact ih _ (Nat.lt_of_le_of_lt short shorter) related.2 related.1 name rfl
    cases beside with
    | nil =>
      rw [read, read]
      exact .done h
    | site here there opens opens' =>
      exact tagged "" here there (hn ▸ Nat.lt_succ_self _) (site d d' here there opens opens' h)
    | cons token here there more =>
      cases token with
      | raw text =>
        rw [read, read]
        exact ih _ (hn ▸ Nat.lt_succ_self _) more (h.addRaw text) tag rfl
      | blockMark =>
        rw [read, read]
        exact ih _ (hn ▸ Nat.lt_succ_self _) more (h.addRaw ":") tag rfl
      | tag name =>
        exact tagged name here there (hn ▸ Nat.lt_succ_self _)
          (TagSite.paired_read ⟨entities, indicator, name, here⟩ there h more)
      | _ =>
        rw [read, read]
        · exact .failed _ _
        all_goals first | rintro _ ⟨⟩ | rintro ⟨⟩

theorem finish_longhand (d : Draft) (name : String) (indicator : Char) :
    (d.finish name indicator).longhand = d.inLonghand.finish name indicator := by
  have size : rawSize (d.inLonghand.tables.headD []) = rawSize (d.tables.headD []) := by
    unfold inLonghand
    cases d.tables with
    | nil => rfl
    | cons table tables => exact rawSize_longhand table
  unfold finish
  rw [size]
  rfl

theorem Matches.unclosed? {d d' : Draft} (h : Matches d d') :
    d.unclosed?.isSome = d'.unclosed?.isSome := by
  have last := congrArg (·.getLast?.isSome) h.opened
  simp only [List.getLast?_map, Option.isSome_map] at last
  unfold Draft.unclosed?
  rw [Option.isSome_map, Option.isSome_map, last]

end Draft

/-- Tokens side by side make templates that are the same in longhand, or none. -/
theorem Template.paired_ofTokens {entities : Entities} {config : Config} {name : String}
    {X Y tokens tokens' : List Lexeme} (site : Draft.PairedSite entities config.indicator X Y)
    (beside : SideBySide X Y tokens tokens') :
    Paired (fun t t' => t.longhand = t'.longhand) (ofTokens entities config name tokens)
      (ofTokens entities config name tokens') := by
  have start : Draft.Matches {} {} := rfl
  have read := Draft.paired_read site beside start ""
  unfold ofTokens
  generalize Draft.read entities config.indicator {} "" tokens = result at read ⊢
  generalize Draft.read entities config.indicator {} "" tokens' = result' at read ⊢
  cases read with
  | failed => exact .failed _ _
  | @done d d' h =>
    have unclosed := h.unclosed?
    dsimp only
    generalize d.unclosed? = open? at unclosed ⊢
    generalize d'.unclosed? = open?' at unclosed ⊢
    cases open? <;> cases open?' <;> try cases unclosed
    · refine .done ?_
      rw [Draft.finish_longhand, Draft.finish_longhand, h]
    · exact .failed _ _

end Stencil
