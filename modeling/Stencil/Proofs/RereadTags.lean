import Stencil.Proofs.CoreBlocks
import Stencil.Proofs.GivenExpressions
import Stencil.Proofs.ReadingOn

/-!
# Printed tags read back

What each kind of printed tag does to a draft when it is read again.
-/

namespace Stencil

variable {site : TagSite} {mode : FoldMode} {tokens others : List Token} {row more : List Expr}
  {e : Expr} {t : Tuple} {kinds : LevelKind → Prop} {lexemes rest inside : List Lexeme}
  {opening closing mark : Text.Location} {d d' used : Draft}

/-- The arguments of a tag without label that are read so far. -/
def Level.listing (t : Tuple) : Level := { kind := .top, tuple := t, afterComma := !t.isEmpty }

section Arguments

variable (r : Entities) (tag : String) (place : Text.Location) (rest : List Lexeme)

theorem finish_listing (folded : Expr.fold mode row = .ok e) :
    ((Level.listing t).grown row).finish mode =
      .ok { Level.listing t with tuple := t ++ [(none, e)] } :=
  finish_of_fold rfl (by exact folded) rfl

/-- An argument in front of another. -/
theorem readLevels_comma (gives : Gives AnyKind tokens row) (folded : Expr.fold mode row = .ok e)
    (same : lexemes.map (·.token) = tokens) :
    readLevels r tag mode (lexemes ++ ⟨.comma, place⟩ :: rest) (.listing t) [] =
      readLevels r tag mode rest (.listing (t ++ [(none, e)])) [] := by
  have filled : ((Level.listing t).grown row).row.isEmpty = false := by
    cases row with
    | nil => cases folded
    | cons => rfl
  have next : Level.listing (t ++ [(none, e)]) =
      { kind := .top, tuple := t ++ [(none, e)], afterComma := true } := by
    simp [Level.listing]
  have separated (paren : Bool) : Progress.next r tag mode .comma paren
      ((Level.listing t).grown row) [] =
      .ok (.reading (.listing (t ++ [(none, e)])) []) := by
    show (Progress.comma mode ((Level.listing t).grown row) []).mapError _ = _
    unfold Progress.comma
    rw [finish_listing folded, filled, next]
    rfl
  rw [gives r tag mode lexemes _ (.listing t) [] same (parenFollows_cons rfl (by rintro ⟨⟩))
      trivial rfl rfl, readLevels_next rfl (separated _)]

/-- The last argument. -/
theorem readLevels_last (gives : Gives AnyKind tokens row) (folded : Expr.fold mode row = .ok e)
    (same : lexemes.map (·.token) = tokens) :
    readLevels r tag mode (lexemes ++ ⟨.closeParen, place⟩ :: rest) (.listing t) [] =
      .ok (t ++ [(none, e)], rest) := by
  have closed (paren : Bool) : Progress.next r tag mode .closeParen paren
      ((Level.listing t).grown row) [] = .ok (.finished (t ++ [(none, e)])) := by
    show Progress.closeParen r tag mode ((Level.listing t).grown row) [] = _
    unfold Progress.closeParen
    rw [finish_listing folded]
    rfl
  rw [gives r tag mode lexemes _ (.listing t) [] same rfl trivial rfl rfl, readLevels, closed]

/-- The last argument, if it is none. -/
theorem readLevels_last_error {error : FoldError} (gives : Gives AnyKind tokens row)
    (some : row ≠ []) (failed : Expr.fold mode row = .error error)
    (same : lexemes.map (·.token) = tokens) :
    readLevels r tag mode (lexemes ++ ⟨.closeParen, place⟩ :: rest) (.listing t) [] =
      .error (.malformed tag (.fold error)) := by
  rw [gives r tag mode lexemes _ (.listing t) [] same rfl trivial rfl rfl]
  exact readLevels_close_error rfl rfl (finish_of_fold_error rfl some failed)

end Arguments

/-- The only argument of a tag. -/
theorem readArguments_single (gives : Gives AnyKind tokens row)
    (folded : Expr.fold mode row = .ok e) (same : lexemes.map (·.token) = tokens)
    (r : Entities) (tag : String) (place : Text.Location) (rest : List Lexeme) :
    readArguments r tag mode (lexemes ++ ⟨.closeParen, place⟩ :: rest) =
      .ok ([(none, e)], rest) :=
  readLevels_last r tag place rest gives folded same

namespace TagSite

theorem readList_of (h : readArguments site.entities site.tag mode inside = .ok (t, rest)) :
    ∃ left, site.readList mode inside = .ok (t, left) ∧ left.1 = rest := by
  unfold readList
  split
  · rename_i t' rest' read
    rw [h] at read
    cases read
    exact ⟨_, rfl, rfl⟩
  · rename_i failed
    rw [h] at failed
    cases failed

theorem readTuple_of (opening : Text.Location)
    (h : readArguments site.entities site.tag mode inside = .ok (t, rest)) :
    ∃ left, site.readTuple mode (⟨.openParen, opening⟩ :: inside) = .ok (t, left) ∧
      left.1 = rest := by
  obtain ⟨left, read, eq⟩ := readList_of h
  refine ⟨⟨left.1, Nat.le_succ_of_le left.2⟩, ?_, eq⟩
  simp only [readTuple, read]

theorem readSingle_of (site : TagSite) (opening : Text.Location)
    (h : readArguments site.entities site.tag mode inside = .ok ([(none, e)], rest))
    (otherwise : Malformed) :
    ∃ left, site.readSingle mode (⟨.openParen, opening⟩ :: inside) otherwise = .ok (e, left) ∧
      left.1 = rest := by
  obtain ⟨left, read, eq⟩ := readTuple_of opening h
  refine ⟨left, ?_, eq⟩
  unfold readSingle
  rw [read]
  rfl

theorem readList_error_iff {fault : Fault} : site.readList mode inside = .error fault ↔
    readArguments site.entities site.tag mode inside = .error fault := by
  unfold readList
  split
  · rename_i read
    simp [read]
  · rename_i read
    simp [read]

theorem readTuple_error (opening : Text.Location) {fault : Fault}
    (h : readArguments site.entities site.tag mode inside = .error fault) :
    site.readTuple mode (⟨.openParen, opening⟩ :: inside) = .error fault := by
  have list := readList_error_iff.mpr h
  simp only [readTuple, list]

theorem readSingle_error (site : TagSite) (opening : Text.Location) {fault : Fault}
    (h : readArguments site.entities site.tag mode inside = .error fault) (otherwise : Malformed) :
    site.readSingle mode (⟨.openParen, opening⟩ :: inside) otherwise = .error fault := by
  unfold readSingle
  rw [readTuple_error opening h]
  rfl

/-- A tag with a name and arguments is no end tag. -/
theorem read_named (named : site.tag ≠ "") :
    site.read d (⟨.openParen, opening⟩ :: inside) =
      site.readNamed d (⟨.openParen, opening⟩ :: inside) := by
  have some : site.tag.isEmpty = false := by simpa using named
  unfold read
  rw [some]
  rfl

/-- Whether a token announces a declaration. -/
def declares (token : Token) : Prop :=
  token = .keyword .declareVar ∨ token = .keyword .declareLet

/-- An anonymous tag that declares nothing holds one argument. -/
theorem readAnonymous_of (plain : ∀ l, inside.head? = some l → ¬declares l.token) :
    site.readAnonymous d (⟨.openParen, opening⟩ :: inside) = (do
      let (e, rest) ← site.readSingle .assignment (⟨.openParen, opening⟩ :: inside) .notOneAnonymous
      match e with
      | .sequence [.var v, .operator op, value] =>
        let d ← assign d v op value
        return (d, rest)
      | e =>
        let d ← d.useAll e
        return (d.push (.output e), rest)) := by
  cases inside with
  | nil => rfl
  | cons l inside =>
    have other := plain l rfl
    obtain ⟨token, place⟩ := l
    cases token with
    | keyword word =>
      cases word with
      | declareVar => exact absurd (.inl rfl) other
      | declareLet => exact absurd (.inr rfl) other
      | _ => rfl
    | _ => rfl

/-- An expression that is put out. -/
theorem readAnonymous_output {left : Remaining (⟨.openParen, opening⟩ :: inside)}
    (plain : ∀ l, inside.head? = some l → ¬declares l.token)
    (single : site.readSingle .assignment (⟨.openParen, opening⟩ :: inside) .notOneAnonymous =
      .ok (e, left))
    (other : ∀ v op value, e ≠ .sequence [.var v, .operator op, value])
    (uses : d.useAll e = .ok used) :
    site.readAnonymous d (⟨.openParen, opening⟩ :: inside) = .ok (used.push (.output e), left) := by
  rw [readAnonymous_of plain, single]
  simp only [bind, Except.bind, uses]
  rfl

/-- A tag with arguments of some tokens turns one draft into another. -/
def Does (site : TagSite) (tokens : List Token) (d d' : Draft) : Prop :=
  ∀ (opening closing : Text.Location) (lexemes more : List Lexeme),
    lexemes.map (·.token) = tokens → ∃ left,
      site.read d (⟨.openParen, opening⟩ :: (lexemes ++ ⟨.closeParen, closing⟩ :: more)) =
        .ok (d', left) ∧ left.1 = more

/-- A tag with arguments of some tokens and a colon turns one draft into another. -/
def Opens (site : TagSite) (tokens : List Token) (d d' : Draft) : Prop :=
  ∀ (opening closing mark : Text.Location) (lexemes more : List Lexeme),
    lexemes.map (·.token) = tokens → ∃ left,
      site.read d (⟨.openParen, opening⟩ ::
        (lexemes ++ ⟨.closeParen, closing⟩ :: ⟨.blockMark, mark⟩ :: more)) = .ok (d', left) ∧
      left.1 = more

theorem read_anonymous (anonymous : site.tag = "") :
    site.read d inside = site.readAnonymous d inside := by
  unfold read
  rw [anonymous]
  rfl

theorem not_declares_number (data : Value) :
    ∀ token, (Token.ofNumber data).head? = some token → ¬declares token := by
  unfold Token.ofNumber
  split
  · rintro _ ⟨⟩ (eq | eq) <;> cases eq
  · rintro _ ⟨⟩ (eq | eq) <;> cases eq

theorem not_declares_value (data : Value) :
    ∀ token, data.tokens.head? = some token → ¬declares token := by
  cases data with
  | int i => exact not_declares_number (.int i)
  | double d =>
    rw [Value.tokens]
    unfold Token.ofDouble
    split
    · rintro _ ⟨⟩ (eq | eq) <;> cases eq
    · split
      · split <;> rintro _ ⟨⟩ (eq | eq) <;> cases eq
      · exact not_declares_number (.double d)
  | bool b => cases b <;> rintro _ ⟨⟩ (eq | eq) <;> cases eq
  | dictionary entries => cases entries <;> rintro _ ⟨⟩ (eq | eq) <;> cases eq
  | _ => rintro _ ⟨⟩ (eq | eq) <;> cases eq

/-- The tokens of an operand announce no declaration. -/
theorem not_declares_head (settled : e.Settled) (same : lexemes.map (·.token) = e.tokens)
    (place : Text.Location) (rest : List Lexeme) :
    ∀ l, (lexemes ++ ⟨.closeParen, place⟩ :: rest).head? = some l → ¬declares l.token := by
  have first : ∀ token, e.tokens.head? = some token → ¬declares token := by
    cases settled with
    | value => exact not_declares_value _
    | @var v =>
      rw [Expr.tokens]
      unfold Variable.tokens
      split
      · rintro _ ⟨⟩ (eq | eq) <;> cases eq
      · split <;> rintro _ ⟨⟩ (eq | eq) <;> cases eq
    | @binary op =>
      cases op <;> rintro _ ⟨⟩ (eq | eq) <;> cases eq
    | _ => rintro _ ⟨⟩ (eq | eq) <;> cases eq
  intro l found
  cases lexemes with
  | nil =>
    cases found
    rintro (eq | eq) <;> cases eq
  | cons l' lexemes =>
    cases found
    rw [List.map_cons] at same
    exact first _ (by rw [← same]; rfl)

theorem ne_sequence_of_valued (valued : e.valued = true) (items : List Expr) :
    e ≠ .sequence items := by
  rintro rfl
  cases valued

theorem does_output (anonymous : site.tag = "") (settled : e.Settled) (writable : e.writable = true)
    (uses : d.useAll e.reread = .ok used) :
    site.Does e.tokens d (used.push (.output e.reread)) := by
  intro opening closing lexemes more same
  have row := Expr.operandRow settled.valued writable
  have arguments := readArguments_single (settled.gives writable) (row.fold .assignment) same
    site.entities site.tag closing more
  obtain ⟨left, single, done⟩ := readSingle_of site opening arguments .notOneAnonymous
  refine ⟨left, ?_, done⟩
  rw [read_anonymous anonymous]
  exact readAnonymous_output (not_declares_head settled same closing more) single
    (fun _ _ _ => ne_sequence_of_valued row.valued _) uses

/-- A declaration, given what stands behind its name. -/
theorem readAnonymous_declaration {constant : Bool} {name : String} {value : Option Expr}
    {word named : Lexeme} {behind : List Lexeme} {left : Remaining behind}
    (announced : word.token = .keyword (if constant then .declareLet else .declareVar))
    (called : named.token = .ident name) (read : site.readDeclared behind = .ok (value, left))
    (made : declare d constant name value = .ok d') :
    ∃ left', site.readAnonymous d (⟨.openParen, opening⟩ :: word :: named :: behind) =
      .ok (d', left') ∧ left'.1 = left.1 := by
  obtain ⟨token, place⟩ := word
  obtain ⟨token', place'⟩ := named
  dsimp only at announced called
  subst announced called
  have declaration : site.readDeclaration d constant (⟨.ident name, place'⟩ :: behind) =
      .ok (d', ⟨left.1, Nat.le_succ_of_le left.2⟩) := by
    simp only [readDeclaration, read, bind, Except.bind, made]
    rfl
  have short : left.1.length ≤ behind.length + 3 :=
    Nat.le_trans left.2 (Nat.le_add_right _ 3)
  refine ⟨⟨left.1, short⟩, ?_, rfl⟩
  cases constant with
  | false =>
    show (site.readDeclaration d false _ >>= _) = _
    rw [declaration]
    rfl
  | true =>
    show (site.readDeclaration d true _ >>= _) = _
    rw [declaration]
    rfl

theorem does_declareEmpty {name : String} (anonymous : site.tag = "")
    (made : declare d false name none = .ok d') :
    site.Does [.keyword .declareVar, .ident name] d d' := by
  intro opening closing lexemes more same
  obtain ⟨word, lexemes, rfl, announced, same⟩ := List.map_eq_cons_iff.mp same
  obtain ⟨named, rfl, called⟩ := List.map_eq_singleton_iff.mp same
  have nothing : site.readDeclared (⟨.closeParen, closing⟩ :: more) =
      .ok (none, ⟨more, Nat.le_succ _⟩) := rfl
  rw [read_anonymous anonymous]
  exact readAnonymous_declaration announced called nothing made

theorem does_declare {constant : Bool} {name : String} (anonymous : site.tag = "")
    (settled : e.Settled) (writable : e.writable = true)
    (made : declare d constant name (some e.reread) = .ok d') :
    site.Does (.keyword (if constant then .declareLet else .declareVar) :: .ident name ::
      .operator .assign :: e.tokens) d d' := by
  intro opening closing lexemes more same
  obtain ⟨word, lexemes, rfl, announced, same⟩ := List.map_eq_cons_iff.mp same
  obtain ⟨named, lexemes, rfl, called, same⟩ := List.map_eq_cons_iff.mp same
  obtain ⟨⟨token, place⟩, lexemes, rfl, assigned, behind⟩ := List.map_eq_cons_iff.mp same
  dsimp only at assigned
  subst assigned
  have row := Expr.operandRow settled.valued writable
  obtain ⟨left, list, done⟩ := readList_of (readArguments_single (settled.gives writable)
    (row.fold .strict) behind site.entities site.tag closing more)
  have declared : site.readDeclared (⟨.operator .assign, place⟩ ::
      (lexemes ++ ⟨.closeParen, closing⟩ :: more)) =
      .ok (some e.reread, ⟨left.1, Nat.le_succ_of_le left.2⟩) := by
    simp only [readDeclared, list]
    rfl
  rw [read_anonymous anonymous]
  obtain ⟨left', read, done'⟩ := readAnonymous_declaration announced called declared made
  exact ⟨left', read, done'.trans done⟩

/-- The name of a plain variable, an operator and an operand. -/
theorem gives_assignment {name : String} {op : Operator} (settled : e.Settled)
    (writable : e.writable = true) (form : op.form = .binary ∨ op.form = .assignment) :
    Gives AnyKind (.ident name :: .operator op :: e.tokens)
      (.var (.plain name) :: .operator op :: e.row) :=
  (Gives.ident name).binary ⟨[], _, rfl, rfl⟩ (settled.gives writable) form

theorem not_declares_ident {name : String} {others : List Token}
    (same : lexemes.map (·.token) = .ident name :: others) (rest : List Lexeme) :
    ∀ l, (lexemes ++ rest).head? = some l → ¬declares l.token := by
  obtain ⟨l, lexemes, rfl, first, -⟩ := List.map_eq_cons_iff.mp same
  rintro _ ⟨⟩
  rw [first]
  rintro (eq | eq) <;> cases eq

theorem does_assign {name : String} {op : Operator} (anonymous : site.tag = "")
    (settled : e.Settled) (writable : e.writable = true) (form : op.form = .assignment)
    (made : assign d (.plain name) op e.reread = .ok d') :
    site.Does (.ident name :: .operator op :: e.tokens) d d' := by
  intro opening closing lexemes more same
  have row := Expr.operandRow settled.valued writable
  have arguments := readArguments_single (gives_assignment settled writable (.inr form))
    (Expr.fold_assignment row form) same site.entities site.tag closing more
  obtain ⟨left, single, done⟩ := readSingle_of site opening arguments .notOneAnonymous
  refine ⟨left, ?_, done⟩
  rw [read_anonymous anonymous, readAnonymous_of (not_declares_ident same _), single]
  show (do let d ← assign d (.plain name) op e.reread; return (d, left)) = _
  rw [made]
  rfl

/-- The tags with a meaning of their own, by name. -/
theorem read_define (named : site.tag = "define") : site.read d (⟨.openParen, opening⟩ :: inside) =
    site.readDefine d (⟨.openParen, opening⟩ :: inside) := by
  rw [read_named (by rw [named]; decide), readNamed, named]
  rfl

theorem read_evaluate (named : site.tag = "evaluate") :
    site.read d (⟨.openParen, opening⟩ :: inside) =
      site.readEvaluate d (⟨.openParen, opening⟩ :: inside) := by
  rw [read_named (by rw [named]; decide), readNamed, named]
  rfl

theorem read_inline (named : site.tag = "inline") : site.read d (⟨.openParen, opening⟩ :: inside) =
    site.readInline d (⟨.openParen, opening⟩ :: inside) := by
  rw [read_named (by rw [named]; decide), readNamed, named]
  rfl

theorem read_raw (named : site.tag = "raw") : site.read d (⟨.openParen, opening⟩ :: inside) =
    site.readRaw d (⟨.openParen, opening⟩ :: inside) := by
  rw [read_named (by rw [named]; decide), readNamed, named]
  rfl

theorem does_defineValue {name : String} (named : site.tag = "define") (settled : e.Settled)
    (writable : e.writable = true) (uses : d.useAll e.reread = .ok used) :
    site.Does (.ident name :: .operator .assign :: e.tokens) d
      (used.push (.define name (some e.reread))) := by
  intro opening closing lexemes more same
  have row := Expr.operandRow settled.valued writable
  have arguments := readArguments_single (gives_assignment settled writable (.inr rfl))
    (Expr.fold_assignment row rfl) same site.entities site.tag closing more
  obtain ⟨left, single, done⟩ := readSingle_of site opening arguments .notOneArgument
  refine ⟨left, ?_, done⟩
  rw [read_define named, readDefine, single]
  show (do let d ← d.useAll e.reread; return (d.push (.define name (some e.reread)), left)) = _
  rw [uses]
  rfl

theorem opens_define {name : String} (named : site.tag = "define") :
    site.Opens [.ident name] d
      (d.openScope (.define name none) "define" .define site.location []) := by
  intro opening closing mark lexemes more same
  have arguments := readArguments_single (Gives.ident name)
    (Expr.OperandRow.fold (.plain rfl) .assignment) same site.entities site.tag closing
    (⟨.blockMark, mark⟩ :: more)
  obtain ⟨⟨left, short⟩, single, done⟩ := readSingle_of site opening arguments .notOneArgument
  dsimp only at done
  subst done
  rw [read_define named, readDefine, single]
  exact ⟨_, rfl, rfl⟩

theorem does_evaluate {name : String} (named : site.tag = "evaluate") :
    site.Does [.ident name] d (d.push (.evaluate name none)) := by
  intro opening closing lexemes more same
  have arguments := readArguments_single (Gives.ident name)
    (Expr.OperandRow.fold (.plain rfl) .strict) same site.entities site.tag closing more
  obtain ⟨left, single, done⟩ := readSingle_of site opening arguments .notOneArgument
  refine ⟨left, ?_, done⟩
  rw [read_evaluate named, readEvaluate, single]
  rfl

theorem does_evaluateOr {name : String} (named : site.tag = "evaluate") (settled : e.Settled)
    (writable : e.writable = true) (uses : d.useAll e.reread = .ok used) :
    site.Does (.ident name :: .operator .nilCoalesce :: e.tokens) d
      (used.push (.evaluate name (some e.reread))) := by
  intro opening closing lexemes more same
  have row := Expr.operandRow settled.valued writable
  have stays : (Expr.binary .nilCoalesce (.var (.plain name)) e.reread).foldConstant =
      .ok (.binary .nilCoalesce (.var (.plain name)) e.reread) := rfl
  have folded : Expr.fold .strict ([.var (.plain name)] ++ .operator .nilCoalesce :: e.row) =
      .ok (.binary .nilCoalesce (.var (.plain name)) e.reread) :=
    Expr.fold_binary (.plain rfl) row rfl (by decide) stays rfl
  have arguments := readArguments_single (gives_assignment settled writable (.inl rfl))
    folded same site.entities site.tag closing more
  obtain ⟨left, single, done⟩ := readSingle_of site opening arguments .notOneArgument
  refine ⟨left, ?_, done⟩
  rw [read_evaluate named, readEvaluate, single]
  show (do let d ← d.useAll e.reread; return (d.push (.evaluate name (some e.reread)), left)) = _
  rw [uses]
  rfl

theorem opens_raw {handler : String} {encoder : Encoder} (named : site.tag = "raw")
    (known : site.entities.encoder? handler = some encoder) :
    site.Opens [.ident handler] d
      (d.openScope (.encode handler encoder) "raw" .encode site.location []) := by
  intro opening closing mark lexemes more same
  have arguments := readArguments_single (Gives.ident handler)
    (Expr.OperandRow.fold (.plain rfl) .strict) same site.entities site.tag closing
    (⟨.blockMark, mark⟩ :: more)
  obtain ⟨⟨left, short⟩, single, done⟩ := readSingle_of site opening arguments .notOneArgument
  dsimp only at done
  subst done
  have word : wordOf (.var (.plain handler)) = some handler := rfl
  rw [read_raw named, readRaw, single]
  simp only [bind, Except.bind, word, known]
  exact ⟨_, rfl, rfl⟩

/-- The arguments of an inline tag for raw text. -/
theorem readArguments_asRaw {file : String} (mode : FoldMode)
    (same : lexemes.map (·.token) =
      [.literal (.string file), .comma, .ident "as", .operator .colon, .ident "raw"])
    (r : Entities) (tag : String) (place : Text.Location) (rest : List Lexeme) :
    readArguments r tag mode (lexemes ++ ⟨.closeParen, place⟩ :: rest) =
      .ok ([(none, .value (.string file)), (some "as", .var (.plain "raw"))], rest) := by
  obtain ⟨text, lexemes, rfl, first, same⟩ := List.map_eq_cons_iff.mp same
  obtain ⟨comma, lexemes, rfl, second, same⟩ := List.map_eq_cons_iff.mp same
  obtain ⟨label, lexemes, rfl, third, same⟩ := List.map_eq_cons_iff.mp same
  obtain ⟨colon, lexemes, rfl, fourth, same⟩ := List.map_eq_cons_iff.mp same
  obtain ⟨word, rfl, fifth⟩ := List.map_eq_singleton_iff.mp same
  let named : Tuple := [(none, .value (.string file))]
  let front : Level := { kind := .top, row := [.value (.string file)] }
  let between : Level := { kind := .top, tuple := named, afterComma := true }
  let back : Level := { between with label := some "as", row := [.var (.plain "raw")] }
  have finished : front.finish mode = .ok { kind := .top, tuple := named } :=
    finish_of_fold rfl (by exact Expr.OperandRow.fold (.plain rfl) mode) rfl
  have ended : back.finish mode =
      .ok { between with tuple := named ++ [(some "as", .var (.plain "raw"))] } :=
    finish_of_fold rfl (by exact Expr.OperandRow.fold (.plain rfl) mode) rfl
  have separated (paren : Bool) :
      Progress.next r tag mode .comma paren front [] = .ok (.reading between []) := by
    show (Progress.comma mode front []).mapError _ = _
    unfold Progress.comma
    rw [finished]
    rfl
  have closed (paren : Bool) : Progress.next r tag mode .closeParen paren back [] =
      .ok (.finished (named ++ [(some "as", .var (.plain "raw"))])) := by
    show Progress.closeParen r tag mode back [] = _
    unfold Progress.closeParen
    rw [ended]
    rfl
  unfold readArguments
  rw [List.cons_append, readLevels_next first rfl, List.cons_append]
  show readLevels r tag mode _ front [] = _
  rw [readLevels_next second (separated _), List.cons_append, List.cons_append,
    readLevels_next third (by rw [parenFollows_cons fourth (by rintro ⟨⟩)]; rfl),
    readLevels_next fourth rfl, List.singleton_append, readLevels_next fifth rfl]
  show readLevels r tag mode _ back [] = _
  rw [readLevels, closed]
  rfl

theorem does_inline {file : String} (named : site.tag = "inline") :
    site.Does [.literal (.string file)] d
      ((({ d with templates := NameSet.insert file d.templates } : Draft).push
        (.inline file false)).push (.scope none)) := by
  intro opening closing lexemes more same
  have arguments := readArguments_single (Gives.literal (.string file))
    (Expr.OperandRow.fold (.plain rfl) .strict) same site.entities site.tag closing more
  obtain ⟨left, read, done⟩ := readTuple_of opening arguments
  have target : inlineTarget [(none, .value (.string file))] = .ok (file, false) := rfl
  refine ⟨left, ?_, done⟩
  rw [read_inline named, readInline, read]
  simp only [bind, Except.bind, target]
  rfl

theorem does_inlineRaw {file : String} (named : site.tag = "inline") :
    site.Does [.literal (.string file), .comma, .ident "as", .operator .colon, .ident "raw"] d
      ((({ d with raws := NameSet.insert file d.raws } : Draft).push
        (.inline file true)).push (.scope none)) := by
  intro opening closing lexemes more same
  have arguments := readArguments_asRaw .strict same site.entities site.tag closing more
  obtain ⟨left, read, done⟩ := readTuple_of opening arguments
  have target : inlineTarget
      [(none, .value (.string file)), (some "as", .var (.plain "raw"))] = .ok (file, true) := by
    rfl
  refine ⟨left, ?_, done⟩
  rw [read_inline named, readInline, read]
  simp only [bind, Except.bind, target]
  rfl

end TagSite

end Stencil
