import Stencil.Proofs.BlockSpelling
import Stencil.Proofs.ScopeArray

/-!
# Drafts with other tables

The tables of a draft are only written while a source is read. A tag that is read with one draft is
read in the same way with a draft that has other tables, whatever stands behind the tag, and adds
the same nodes to them.
-/

namespace Stencil

namespace Draft

variable {d d' : Draft} {tables : List (List Node)}

/-- A draft with other tables. -/
def withTables (d : Draft) (tables : List (List Node)) : Draft := { d with tables }

@[simp]
theorem tables_withTables (d : Draft) (tables : List (List Node)) :
    (d.withTables tables).tables = tables := rfl

theorem withTables_tables (d : Draft) : d.withTables d.tables = d := rfl

/-- Nothing is written, and the same scopes are open. -/
structure SameScopes (d used : Draft) : Prop where
  tables : used.tables = d.tables
  opened : used.opened.map (·.shape) = d.opened.map (·.shape)

namespace SameScopes

theorem trans {used used' : Draft} (h : SameScopes d used) (h' : SameScopes used used') :
    SameScopes d used' := ⟨h'.tables.trans h.tables, h'.opened.trans h.opened⟩

theorem of_sameBut (h : SameBut d d') : SameScopes d d' := by
  unfold SameBut at h
  rw [h]
  exact ⟨rfl, rfl⟩

theorem declare (d : Draft) (name : String) (known : Declared) :
    SameScopes d (d.declare name known) :=
  ⟨tables_declare d name known, opened_declare (fun _ _ => rfl) name known⟩

theorem markAssigned (d : Draft) (name : String) : SameScopes d (d.markAssigned name) :=
  ⟨tables_markAssigned d name, opened_markAssigned (fun _ _ => rfl) name⟩

theorem table (h : SameScopes d d') : d'.opened.map (·.table) = d.opened.map (·.table) := by
  have tables := congrArg (List.map Prod.fst) h.opened
  rw [List.map_map, List.map_map] at tables
  exact tables

theorem current (h : SameScopes d d') : d'.current = d.current := by
  rw [Draft.current, Draft.current, ← List.head?_map, ← List.head?_map, h.table]

theorem formed (h : SameScopes d d') (formed : d.Formed) : d'.Formed :=
  formed.of_shape h.tables h.opened

end SameScopes

theorem use_withTables (d : Draft) (tables : List (List Node)) (v : Variable) :
    (d.withTables tables).use v = (d.use v).map (·.withTables tables) := by
  unfold use
  have known : (d.withTables tables).lookup? v.member = d.lookup? v.member := rfl
  rw [known]
  dsimp only
  cases (if v.scope.isNone = true then d.lookup? v.member else none) with
  | none => rfl
  | some declared =>
    dsimp only
    split <;> rfl

theorem foldlM_withTables {α : Type} {f : Draft → α → Except Fault Draft}
    (step : ∀ d a, f (d.withTables tables) a = (f d a).map (·.withTables tables)) (items : List α)
    (d : Draft) :
    items.foldlM f (d.withTables tables) = (items.foldlM f d).map (·.withTables tables) := by
  induction items generalizing d with
  | nil => rfl
  | cons a items ih =>
    rw [List.foldlM_cons, List.foldlM_cons, step]
    cases f d a with
    | error e => rfl
    | ok next => exact ih next

theorem useAll_withTables (d : Draft) (tables : List (List Node)) (e : Expr) :
    (d.withTables tables).useAll e = (d.useAll e).map (·.withTables tables) :=
  foldlM_withTables (fun d v => use_withTables d tables v) e.vars d

theorem useArgs_withTables (d : Draft) (tables : List (List Node)) (items : List Expr) :
    items.foldlM useAll (d.withTables tables) =
      (items.foldlM useAll d).map (·.withTables tables) :=
  foldlM_withTables (fun d e => useAll_withTables d tables e) items d

theorem declare_withTables (d : Draft) (tables : List (List Node)) (name : String)
    (known : Declared) :
    (d.withTables tables).declare name known = (d.declare name known).withTables tables := by
  obtain ⟨_, _, opened, _, _, _⟩ := d
  cases opened <;> rfl

theorem markAssigned_withTables (d : Draft) (tables : List (List Node)) (name : String) :
    (d.withTables tables).markAssigned name = (d.markAssigned name).withTables tables := by
  have opened : (d.withTables tables).opened = d.opened := rfl
  have declared : (d.withTables tables).declared = d.declared := rfl
  unfold markAssigned
  rw [opened, declared]
  split
  · rfl
  · split <;> rfl

end Draft

namespace TagSite

variable {site : TagSite} {form : BlockForm} {d d' : Draft} {inside more : List Lexeme}

/-- A change of a draft that adds a node, whatever the tables are. -/
structure Adds (change : Draft → Except Fault Draft) (node : Node) (d used : Draft) : Prop where
  scopes : d.SameScopes used
  done : ∀ tables, change (d.withTables tables) = .ok ((used.withTables tables).push node)

/-- A declaration adds its node. -/
theorem adds_declare {constant : Bool} {name : String} {value : Option Expr}
    (h : declare d constant name value = .ok d') :
    ∃ used, Adds (declare · constant name value) (.declare name constant value) d used := by
  have innermost (d : Draft) (tables : List (List Node)) :
      (d.withTables tables).innermost = d.innermost := rfl
  unfold declare at h
  cases value with
  | none =>
    cases constant with
    | true => cases h
    | false =>
      by_cases fresh : d.innermost.has name = true
      · simp [fresh, bind, Except.bind, pure, Except.pure, throw, throwThe, MonadExceptOf.throw]
          at h
      · refine ⟨_, .declare d name ⟨false, false⟩, fun tables => ?_⟩
        simp only [declare, Option.isNone_none, Bool.and_true, Bool.false_eq_true, if_false,
          pure_bind, innermost, if_neg fresh]
        rw [← Draft.declare_withTables]
        rfl
  | some value =>
    simp only [Option.isNone_some, Bool.and_false, Bool.false_eq_true, if_false] at h
    obtain ⟨used, uses, h⟩ := ok_of_bind h
    by_cases fresh : used.innermost.has name = true
    · simp [fresh, bind, Except.bind, throw, throwThe, MonadExceptOf.throw] at h
    · refine ⟨_, (Draft.SameScopes.of_sameBut (Draft.sameBut_of_useAll uses)).trans
        (.declare used name ⟨constant, true⟩), fun tables => ?_⟩
      simp only [declare, Option.isNone_some, Bool.and_false, Bool.false_eq_true, if_false,
        Draft.useAll_withTables, uses, Except.map, bind, Except.bind, innermost, if_neg fresh]
      rw [← Draft.declare_withTables]
      rfl

/-- An assignment adds its node. -/
theorem adds_assign {v : Variable} {op : Operator} {value : Expr}
    (h : assign d v op value = .ok d') :
    ∃ used, Adds (assign · v op value) (.assign v op value) d used := by
  have lookup (tables : List (List Node)) :
      (d.withTables tables).lookup? v.member = d.lookup? v.member := rfl
  unfold assign at h
  by_cases atomic : v.isAtomic = true
  · simp only [atomic, Bool.not_true, Bool.false_eq_true, if_false] at h
    split at h
    · cases h
    · rename_i declared known
      by_cases constant : declared.constant = true
      · simp [constant, bind, Except.bind, throw, throwThe, MonadExceptOf.throw] at h
      · simp only [constant, Bool.false_eq_true, if_false] at h
        by_cases compound : (op.compoundBase?.isSome && !declared.assigned) = true
        · simp [compound, bind, Except.bind, throw, throwThe, MonadExceptOf.throw] at h
        · simp only [compound, Bool.false_eq_true, if_false] at h
          obtain ⟨used, uses, h⟩ := ok_of_bind h
          refine ⟨_, (Draft.SameScopes.of_sameBut (Draft.sameBut_of_useAll uses)).trans
            (.markAssigned used v.member), fun tables => ?_⟩
          simp only [assign, atomic, Bool.not_true, Bool.false_eq_true, if_false, lookup, known,
            constant, compound, Draft.useAll_withTables, uses, Except.map, bind, Except.bind]
          rw [← Draft.markAssigned_withTables]
          rfl
  · simp [atomic, bind, Except.bind, throw, throwThe, MonadExceptOf.throw] at h

/-- A tag is read up to the end of its tokens, in front of anything but an argument list. -/
def ReadsTo (site : TagSite) (tokens : List Lexeme) (d d' : Draft) : Prop :=
  ∀ more, parenFollows more = false →
    ∃ left, site.read d (tokens ++ more) = .ok (d', left) ∧ left.1 = more

/-- An argument list that ends is read alone as it is read in front of others. -/
theorem readArguments_inside {r : Entities} {tag : String} {mode : FoldMode} {t : Tuple}
    {rest : List Lexeme} (ends : Token.behindList? 0 inside = some [])
    (h : readArguments r tag mode (inside ++ more) = .ok (t, rest)) :
    readArguments r tag mode inside = .ok (t, []) := by
  rw [readArguments_append ends] at h
  cases whole : readArguments r tag mode inside with
  | error e =>
    rw [whole] at h
    cases h
  | ok found =>
    obtain ⟨t', last⟩ := found
    rw [whole] at h
    cases h
    have none := behindList?_of_readArguments whole
    rw [ends] at none
    rw [← Option.some.inj none]

theorem readArguments_of_readList {mode : FoldMode} {t : Tuple} {tokens : List Lexeme}
    {left : Remaining tokens} (h : site.readList mode tokens = .ok (t, left)) :
    readArguments site.entities site.tag mode tokens = .ok (t, left.1) := by
  unfold readList at h
  split at h
  · rename_i found
    cases h
    exact found
  · cases h

/-- The one argument of a tag that is read is the whole list. -/
theorem readArguments_of_readSingle {mode : FoldMode} {e : Expr} {opening : Text.Location}
    {otherwise : Malformed} {left : Remaining (⟨.openParen, opening⟩ :: (inside ++ more))}
    (ends : Token.behindList? 0 inside = some [])
    (h : site.readSingle mode (⟨.openParen, opening⟩ :: (inside ++ more)) otherwise =
      .ok (e, left)) :
    readArguments site.entities site.tag mode inside = .ok ([(none, e)], []) := by
  obtain ⟨⟨t, rest⟩, read, h⟩ := ok_of_bind h
  have list := forget_readTuple site mode opening (inside ++ more)
  rw [read] at list
  dsimp only at h
  split at h
  · rename_i found single
    cases h
    rw [eq_of_single? single] at list
    exact readArguments_inside ends list.symm
  · cases h

/-- What is given to a declared variable is read from the list alone. -/
theorem readDeclared_anywhere {value : Option Expr} {left : Remaining (inside ++ more)}
    (ends : Token.behindList? 0 inside = some [])
    (h : site.readDeclared (inside ++ more) = .ok (value, left)) (more' : List Lexeme) :
    ∃ left', site.readDeclared (inside ++ more') = .ok (value, left') ∧ left'.1 = more' := by
  rcases inside with _ | ⟨⟨token, place⟩, list⟩
  · cases ends
  · cases token with
    | closeParen =>
      cases ends
      cases h
      exact ⟨_, rfl, rfl⟩
    | operator op =>
      cases op with
      | assign =>
        have behind : Token.behindList? 0 list = some [] := ends
        simp only [List.cons_append, readDeclared] at h
        split at h
        · cases h
        · rename_i t rest bound read
          split at h
          · rename_i e single
            cases h
            have alone := readArguments_inside behind (readArguments_of_readList read)
            have again : readArguments site.entities site.tag .strict (list ++ more') =
                .ok (t, more') := by
              rw [readArguments_append behind, alone]
              rfl
            obtain ⟨left', done, eq⟩ := readList_of again
            refine ⟨⟨left'.1, Nat.le_succ_of_le left'.2⟩, ?_, eq⟩
            simp only [List.cons_append, readDeclared, done, single]
          · cases h
      | _ => cases h
    | _ => cases h

/-- Whether a token is the word of a declaration. -/
def isDeclaration : Token → Bool
  | .keyword .declareVar => true
  | .keyword .declareLet => true
  | _ => false

/-- Whether the argument of a tag is an assignment. -/
def isAssignment : Tuple → Bool
  | [(none, .sequence [.var _, .operator _, _])] => true
  | _ => false

/-- Whether the tokens of an argument list declare a variable or assign to one. -/
def changesVariable (tokens : List Lexeme) : Bool :=
  (tokens.head?.any fun first => isDeclaration first.token) ||
    match readArguments .core "" .assignment tokens with
    | .ok (t, _) => isAssignment t
    | .error _ => false

theorem isDeclaration_iff {token : Token} : isDeclaration token = true ↔ declares token := by
  unfold isDeclaration declares
  split
  · simp
  · simp
  · simp_all

/-- What an anonymous tag with the word of a declaration is read as. -/
theorem declaration_of_readAnonymous {constant : Bool} {opening mark : Text.Location}
    {tokens : List Lexeme} {left : Remaining (⟨.openParen, opening⟩ ::
      ⟨.keyword (if constant then .declareLet else .declareVar), mark⟩ :: tokens)}
    (h : site.readAnonymous d (⟨.openParen, opening⟩ ::
      ⟨.keyword (if constant then .declareLet else .declareVar), mark⟩ :: tokens) =
        .ok (d', left)) :
    ∃ name place behind value, tokens = ⟨.ident name, place⟩ :: behind ∧
      (∃ left' : Remaining behind, site.readDeclared behind = .ok (value, left')) ∧
      declare d constant name value = .ok d' := by
  have read : ∃ left' : Remaining tokens,
      site.readDeclaration d constant tokens = .ok (d', left') := by
    cases constant <;>
    · obtain ⟨⟨declared, left'⟩, read, done⟩ := ok_of_bind h
      cases done
      exact ⟨left', read⟩
  obtain ⟨left', read⟩ := read
  unfold readDeclaration at read
  split at read
  · rename_i name place behind
    obtain ⟨⟨value, rest⟩, value?, read⟩ := ok_of_bind read
    obtain ⟨declared, made, done⟩ := ok_of_bind read
    cases done
    exact ⟨name, place, behind, value, rfl, ⟨rest, value?⟩, made⟩
  · cases read

/-- A node that declares a variable or assigns to one. -/
def changes : Node → Bool
  | .declare _ _ _ => true
  | .assign _ _ _ => true
  | _ => false

variable {indicator : Char} {place opening : Text.Location}

/-- A declaration is read in the same way with other tables and in front of anything. -/
theorem reads_declaration {constant : Bool} {mark : Text.Location} {list : List Lexeme}
    {left : Remaining (⟨.openParen, opening⟩ ::
      ⟨.keyword (if constant then .declareLet else .declareVar), mark⟩ :: (list ++ more))}
    (ends : Token.behindList? 0 list = some [])
    (h : (inCore indicator "" place).read d (⟨.openParen, opening⟩ ::
      ⟨.keyword (if constant then .declareLet else .declareVar), mark⟩ :: (list ++ more)) =
        .ok (d', left)) :
    ∃ name value used, d.SameScopes used ∧ ∀ tables, (inCore indicator "" place).ReadsTo
      (⟨.openParen, opening⟩ ::
        ⟨.keyword (if constant then .declareLet else .declareVar), mark⟩ :: list)
      (d.withTables tables) ((used.withTables tables).push (.declare name constant value)) := by
  rw [read_anonymous rfl] at h
  obtain ⟨name, named, behind, value, eq, ⟨left', value?⟩, made⟩ := declaration_of_readAnonymous h
  rcases list with _ | ⟨first, list⟩
  · cases ends
  · cases eq
    obtain ⟨used, adds⟩ := adds_declare made
    have behind : Token.behindList? 0 list = some [] := ends
    refine ⟨name, value, used, adds.scopes, fun tables more' _ => ?_⟩
    obtain ⟨rest, again, eq⟩ := readDeclared_anywhere behind value? more'
    obtain ⟨left', done, last⟩ : ∃ left', (inCore indicator "" place).readAnonymous
        (d.withTables tables) (⟨.openParen, opening⟩ ::
          ⟨.keyword (if constant then .declareLet else .declareVar), mark⟩ ::
          ⟨.ident name, named⟩ :: (list ++ more')) = .ok (_, left') ∧ left'.1 = rest.1 :=
      readAnonymous_declaration rfl rfl again (adds.done tables)
    exact ⟨left', (read_anonymous rfl).trans done, last.trans eq⟩

/-- Any other anonymous tag is read in the same way with other tables and in front of anything. -/
theorem reads_single {left : Remaining (⟨.openParen, opening⟩ :: (inside ++ more))}
    (ends : Token.behindList? 0 inside = some [])
    (plain : ∀ l, inside.head? = some l → ¬declares l.token)
    (h : (inCore indicator "" place).read d (⟨.openParen, opening⟩ :: (inside ++ more)) =
      .ok (d', left)) :
    ∃ e node used, readArguments .core "" .assignment inside = .ok ([(none, e)], []) ∧
      d.SameScopes used ∧
      ((∃ v op value, e = .sequence [.var v, .operator op, value] ∧
          node = .assign v op value) ∨
        (∀ v op value, e ≠ .sequence [.var v, .operator op, value]) ∧ node = .output e) ∧
      ∀ tables, (inCore indicator "" place).ReadsTo (⟨.openParen, opening⟩ :: inside)
        (d.withTables tables) ((used.withTables tables).push node) := by
  have filled : inside ≠ [] := by
    rintro rfl
    cases ends
  have first (more : List Lexeme) :
      ∀ l, (inside ++ more).head? = some l → ¬declares l.token := by
    intro l head
    rw [List.head?_append_of_ne_nil _ filled] at head
    exact plain l head
  rw [read_anonymous rfl, readAnonymous_of (first more)] at h
  obtain ⟨⟨e, rest⟩, single, h⟩ := ok_of_bind h
  have list := readArguments_of_readSingle ends single
  have again (more' : List Lexeme) := Draft.readSingle_append (inCore indicator "" place) opening
    list .notOneAnonymous more'
  dsimp only at h
  split at h
  · rename_i v op value
    obtain ⟨assigned, made, -⟩ := ok_of_bind h
    obtain ⟨used, adds⟩ := adds_assign made
    refine ⟨_, _, used, list, adds.scopes, .inl ⟨v, op, value, rfl, rfl⟩, fun tables more' _ => ?_⟩
    obtain ⟨left', read, eq⟩ := again more'
    refine ⟨left', ?_, eq⟩
    rw [read_anonymous rfl]
    show readAnonymous _ _ (⟨.openParen, opening⟩ :: (inside ++ more')) = .ok (_, left')
    rw [readAnonymous_of (first more'), read]
    simp only [bind, Except.bind, adds.done tables]
    rfl
  · rename_i other
    obtain ⟨used, uses, -⟩ := ok_of_bind h
    refine ⟨e, _, used, list, .of_sameBut (Draft.sameBut_of_useAll uses),
      .inr ⟨fun v op value => other v op value, rfl⟩, fun tables more' _ => ?_⟩
    obtain ⟨left', read, eq⟩ := again more'
    refine ⟨left', ?_, eq⟩
    rw [read_anonymous rfl]
    refine readAnonymous_output (first more') read other ?_
    rw [Draft.useAll_withTables, uses]
    rfl

/-- An anonymous tag is read in the same way with other tables and in front of anything: as the
change of a variable or as an expression that is put out. -/
theorem reads_anonymous {left : Remaining (⟨.openParen, opening⟩ :: (inside ++ more))}
    (ends : Token.behindList? 0 inside = some [])
    (h : (inCore indicator "" place).read d (⟨.openParen, opening⟩ :: (inside ++ more)) =
      .ok (d', left)) :
    ∃ node used, d.SameScopes used ∧
      ((changesVariable inside = true ∧ changes node = true) ∨
        (changesVariable inside = false ∧ ∃ e, node = .output e)) ∧
      ∀ tables, (inCore indicator "" place).ReadsTo (⟨.openParen, opening⟩ :: inside)
        (d.withTables tables) ((used.withTables tables).push node) := by
  by_cases announced : ∃ l list, inside = l :: list ∧ declares l.token
  · obtain ⟨⟨token, mark⟩, list, rfl, word⟩ := announced
    obtain ⟨constant, rfl⟩ : ∃ constant : Bool,
        token = .keyword (if constant then .declareLet else .declareVar) := by
      rcases word with rfl | rfl
      · exact ⟨false, rfl⟩
      · exact ⟨true, rfl⟩
    have behind : Token.behindList? 0 list = some [] := by
      cases constant <;> exact ends
    obtain ⟨name, value, used, same, reads⟩ := reads_declaration behind h
    refine ⟨_, used, same, .inl ⟨?_, rfl⟩, reads⟩
    have first : isDeclaration (.keyword (if constant then .declareLet else .declareVar)) = true :=
      isDeclaration_iff.mpr word
    rw [changesVariable, List.head?_cons, Option.any_some, first, Bool.true_or]
  · have plain (l : Lexeme) (head : inside.head? = some l) : ¬declares l.token := by
      intro word
      cases inside with
      | nil => cases head
      | cons first list =>
        cases head
        exact announced ⟨_, _, rfl, word⟩
    obtain ⟨e, node, used, list, same, kind, reads⟩ := reads_single ends plain h
    have first : (inside.head?.any fun first => isDeclaration first.token) = false := by
      cases head : inside.head? with
      | none => rfl
      | some l => exact Bool.eq_false_iff.mpr fun word => plain l head (isDeclaration_iff.mp word)
    have asRead : changesVariable inside = isAssignment [(none, e)] := by
      rw [changesVariable, first, list]
      rfl
    refine ⟨node, used, same, ?_, reads⟩
    rcases kind with ⟨v, op, value, rfl, rfl⟩ | ⟨other, rfl⟩
    · exact .inl ⟨asRead, rfl⟩
    · refine .inr ⟨asRead.trans ?_, e, rfl⟩
      unfold isAssignment
      split
      · rename_i eq
        cases eq
        exact absurd rfl (other _ _ _)
      · rfl

theorem chainOf_withTables (site : TagSite) (form : BlockForm) (d : Draft)
    (tables : List (List Node)) : site.chainOf form (d.withTables tables) =
      (site.chainOf form d).map fun found => (found.1, found.2.withTables tables) := by
  have opened : (d.withTables tables).opened = d.opened := rfl
  unfold chainOf
  rw [opened]
  split
  · rfl
  · split
    · split <;> rfl
    · rfl

/-- A chain goes on in the draft as it is, or with its innermost scope closed. -/
theorem opened_of_chainOf {chain : List String} {closed : Draft}
    (h : site.chainOf form d = .ok (chain, closed)) :
    closed = d ∨ closed = d.closeScope ∧ d.opened ≠ [] := by
  unfold chainOf at h
  split at h
  · cases h
    exact .inl rfl
  · split at h
    · rename_i opened
      split at h
      · cases h
        exact .inr ⟨rfl, by rw [opened]; exact List.cons_ne_nil _ _⟩
      · cases h
    · cases h

/-- The head of a block, with the colon behind it. -/
def ReadsHead (site : TagSite) (form : BlockForm) (tokens : List Lexeme) (mark : Text.Location)
    (arguments : BlockArguments) : Prop :=
  ∀ more, ∃ left, site.readBlockHead form (tokens ++ ⟨.blockMark, mark⟩ :: more) =
    .ok (arguments, left) ∧ left.1 = ⟨.blockMark, mark⟩ :: more

theorem readsHead_none (site : TagSite) (form : BlockForm) (mark : Text.Location) :
    site.ReadsHead form [] mark (.call []) := fun _ => ⟨_, rfl, rfl⟩

theorem readsHead_list {mark : Text.Location} {arguments : BlockArguments}
    {left : Remaining (⟨.openParen, opening⟩ :: (inside ++ ⟨.blockMark, mark⟩ :: more))}
    (ends : Token.behindList? 0 inside = some [])
    (h : site.readBlockHead form (⟨.openParen, opening⟩ :: (inside ++ ⟨.blockMark, mark⟩ :: more)) =
      .ok (arguments, left)) :
    site.ReadsHead form (⟨.openParen, opening⟩ :: inside) mark arguments := by
  have list (behind : List Lexeme) :
      (site.readBlockHead form (⟨.openParen, opening⟩ :: (inside ++ behind))).map forget =
        Ended (argumentsOf form (readArguments site.entities site.tag .strict inside)
          (readArguments site.entities site.tag .relaxed inside)) behind := by
    rw [← argumentsOf_ended, Ended, Ended, ← readArguments_append ends,
      ← readArguments_append ends, ← forget_readBlockArguments opening]
    rfl
  have alone := list (⟨.blockMark, mark⟩ :: more)
  rw [h] at alone
  cases found : argumentsOf form (readArguments site.entities site.tag .strict inside)
      (readArguments site.entities site.tag .relaxed inside) with
  | error e =>
    rw [found] at alone
    cases alone
  | ok read =>
    obtain ⟨arguments', last⟩ := read
    have none := behindList?_of_argumentsOf found
    rw [ends] at none
    cases none
    rw [found] at alone
    have same : arguments = arguments' := congrArg Prod.fst (Except.ok.inj alone)
    subst same
    intro more'
    have behind := list (⟨.blockMark, mark⟩ :: more')
    rw [found] at behind
    exact of_forget behind

variable {tokens : List Lexeme} {mark : Text.Location} {name : String}

theorem readsHead_of_read
    {left : Remaining (⟨.openParen, opening⟩ :: (inside ++ ⟨.blockMark, mark⟩ :: more))}
    (known : Entities.core.block? name = some form) (ends : Token.behindList? 0 inside = some [])
    (h : (inCore indicator name place).read d
      (⟨.openParen, opening⟩ :: (inside ++ ⟨.blockMark, mark⟩ :: more)) = .ok (d', left)) :
    ∃ arguments, (inCore indicator name place).ReadsHead form (⟨.openParen, opening⟩ :: inside)
      mark arguments := by
  rw [read_head rfl known rfl] at h
  obtain ⟨⟨arguments, rest⟩, head, -⟩ := ok_of_bind h
  exact ⟨arguments, readsHead_list ends head⟩

/-- A block is read in the same way with other tables and in front of anything. -/
theorem reads_opener {arguments : BlockArguments}
    {left : Remaining (tokens ++ ⟨.blockMark, mark⟩ :: more)}
    (known : Entities.core.block? name = some form)
    (starts : tokens = [] ∨ parenFollows tokens = true)
    (head : (inCore indicator name place).ReadsHead form tokens mark arguments)
    (h : (inCore indicator name place).read d (tokens ++ ⟨.blockMark, mark⟩ :: more) =
      .ok (d', left)) :
    ∃ made chain closed used, (closed = d ∨ closed = d.closeScope ∧ d.opened ≠ []) ∧
      closed.SameScopes used ∧ ∀ tables, (inCore indicator name place).ReadsTo
        (tokens ++ [⟨.blockMark, mark⟩]) (d.withTables tables)
        ((inCore indicator name place).openedBlock made chain (used.withTables tables)) := by
  have block (d : Draft) (more : List Lexeme) :
      (inCore indicator name place).read d (tokens ++ ⟨.blockMark, mark⟩ :: more) =
        (inCore indicator name place).readBlock form d (tokens ++ ⟨.blockMark, mark⟩ :: more) := by
    refine read_head rfl known ?_
    rcases starts with rfl | paren
    · rfl
    · have filled : tokens ≠ [] := by
        rintro rfl
        cases paren
      rw [parenFollows_append filled, paren, Bool.true_or]
  obtain ⟨left', read, behind⟩ := head more
  rw [block] at h
  obtain ⟨⟨arguments', rest⟩, read', h⟩ := ok_of_bind h
  rw [read] at read'
  cases read'
  obtain ⟨marked, -, h⟩ := ok_of_bind h
  obtain ⟨⟨chain, closed⟩, chained, h⟩ := ok_of_bind h
  obtain ⟨made, make, h⟩ := ok_of_bind h
  obtain ⟨used, uses, -⟩ := ok_of_bind h
  refine ⟨made, chain, closed, used, opened_of_chainOf chained,
    .of_sameBut (Draft.sameBut_of_useArgs uses), fun tables more' _ => ?_⟩
  obtain ⟨left', read, behind⟩ := head more'
  have chained' : (inCore indicator name place).chainOf form (d.withTables tables) =
      .ok (chain, closed.withTables tables) := by
    rw [chainOf_withTables, chained]
    rfl
  have uses' : made.args.values.foldlM Draft.useAll (closed.withTables tables) =
      .ok (used.withTables tables) := by
    rw [Draft.useArgs_withTables, uses]
    rfl
  rw [List.append_assoc, List.singleton_append, block]
  exact readBlock_of read behind chained' (ok_of_mapError make) uses'

/-- An end tag is read in the same way with other tables. -/
theorem reads_closer (word : Text.IsName name)
    (known : (Entities.core.block? name).isSome = true) (tail : parenFollows more = false)
    {left : Remaining more}
    (h : (inCore indicator ("end" ++ name) place).read d more = .ok (d', left)) :
    d.opened ≠ [] ∧ ∀ tables, (inCore indicator ("end" ++ name) place).ReadsTo []
      (d.withTables tables) (d.closeScope.withTables tables) := by
  have own : d.opened.head?.any (·.closedBy name) = true := by
    by_contra other
    have registered : ((Entities.core.block? name).isSome || name == "define" || name == "raw") =
        true := by
      rw [known]
      rfl
    obtain ⟨reason, refused⟩ : ∃ reason, (inCore indicator ("end" ++ name) place).read d more =
        .error (.unmatched ("end" ++ name) reason) :=
      read_end_error rfl word registered (Bool.eq_false_of_not_eq_true other) tail
    rw [refused] at h
    cases h
  refine ⟨?_, fun tables more' tail' => read_end (d := d.withTables tables) rfl word own tail'⟩
  intro none
  rw [none] at own
  cases own

end TagSite

end Stencil
