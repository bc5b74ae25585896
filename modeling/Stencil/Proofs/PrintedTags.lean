import Stencil.Proofs.PrintedDrafts
import Stencil.Proofs.RereadBlocks

/-!
# The tags of printed nodes

The tag of each kind of node is a name, the text of its arguments, and for a body a colon. The
arguments are legible exactly if the expressions of the node can be written.
-/

namespace Stencil

open Token

namespace Node

/-- Every integer in the expressions of a node has a literal. -/
def Writable (node : Node) : Prop := ∀ e ∈ node.exprs, e.writable = true

/-- The tag of a node: its name, the text and the tokens of its arguments, and what stands behind
them. -/
structure Prints (indicator : Char) (node : Node) (name : String) (text : List Char)
    (tokens : List Token) (behind : List Char) : Prop where
  shown : (node.tagText indicator).toList = callText indicator name.toList text ++ behind
  named : name = "" ∨ Text.IsName name
  written : Written EndsOperand text tokens
  legible : AllLegible tokens ↔ node.Writable

variable {indicator : Char} {e : Expr} {name file : String} {op : Operator}

theorem lexable_nilCoalesce : Operator.nilCoalesce ∈ Operator.lexable := by decide

theorem lexable_assign : Operator.assign ∈ Operator.lexable := by decide

theorem lexable_of_assignment (form : op.form = .assignment) : op ∈ Operator.lexable := by
  cases op <;> first | decide | cases form

/-- A name, an operator and an operand. -/
def givenText (name : String) (op : Operator) (e : Expr) : List Char :=
  name.toList ++ (' ' :: (op.symbol.toList ++ [' ']) ++ e.text.toList)

theorem written_given (word : Text.IsWord name) (lexable : op ∈ Operator.lexable)
    (settled : e.Settled) :
    Written EndsOperand (givenText name op e) (.ident name :: .operator op :: e.tokens) :=
  (written_ident word.1 word.2).append ((written_spaced lexable).andThen settled.written)
    fun rest _ c => by
      rintro ⟨⟩
      decide

/-- A name alone. -/
theorem written_word (word : Text.IsWord name) :
    Written EndsOperand name.toList [.ident name] :=
  (written_ident word.1 word.2).mono fun _ => endsName_of_endsOperand

/-- The word in front of a declaration. -/
theorem written_declaration {word : Keyword} {text : List Char} {tokens : List Token}
    (declared : Written EndsOperand text tokens) :
    Written EndsOperand (word.word.toList ++ (' ' :: text)) (.keyword word :: tokens) :=
  (written_keyword word).append (written_blank.andThen declared) fun rest _ c => by
    rintro ⟨⟩
    decide

theorem isName_define : Text.IsName "define" := Text.isName_of_cons rfl rfl rfl

theorem isName_evaluate : Text.IsName "evaluate" := Text.isName_of_cons rfl rfl rfl

theorem isName_inline : Text.IsName "inline" := Text.isName_of_cons rfl rfl rfl

theorem isName_raw : Text.IsName "raw" := Text.isName_of_cons rfl rfl rfl

theorem isWord_raw : Text.IsWord "raw" := ⟨isName_raw, rfl⟩

theorem isWord_as : Text.IsWord "as" := ⟨Text.isName_of_cons rfl rfl rfl, rfl⟩

theorem prints_output (settled : e.Settled) :
    (output e).Prints indicator "" e.text.toList e.tokens [] where
  shown := by simp [tagText_output, callText]
  named := .inl rfl
  written := settled.written
  legible := by
    rw [settled.allLegible_tokens]
    simp [Writable, exprs]

theorem prints_declareEmpty (word : Text.IsWord name) :
    (declare name false none).Prints indicator ""
      (Keyword.declareVar.word.toList ++ (' ' :: name.toList))
      [.keyword .declareVar, .ident name] [] where
  shown := by simp [tagText, callText, Keyword.word]
  named := .inl rfl
  written := written_declaration (written_word word)
  legible := by simp [Writable, exprs]

theorem prints_declare {constant : Bool} (word : Text.IsWord name) (settled : e.Settled) :
    (declare name constant (some e)).Prints indicator ""
      ((if constant then Keyword.declareLet else .declareVar).word.toList ++
        (' ' :: givenText name .assign e))
      (.keyword (if constant then .declareLet else .declareVar) :: .ident name ::
        .operator .assign :: e.tokens) [] where
  shown := by
    cases constant <;> simp [tagText, callText, Keyword.word, givenText, Operator.symbol]
  named := .inl rfl
  written := written_declaration (written_given word lexable_assign settled)
  legible := by simp [Writable, exprs, settled.allLegible_tokens]

theorem prints_assign (word : Text.IsWord name) (form : op.form = .assignment)
    (settled : e.Settled) : (assign (.plain name) op e).Prints indicator "" (givenText name op e)
      (.ident name :: .operator op :: e.tokens) [] where
  shown := by simp [tagText, callText, givenText, Variable.text, Variable.plain]
  named := .inl rfl
  written := written_given word (lexable_of_assignment form) settled
  legible := by simp [Writable, exprs, settled.allLegible_tokens, Expr.writable]

theorem prints_defineValue (word : Text.IsWord name) (settled : e.Settled) :
    (define name (some e)).Prints indicator "define" (givenText name .assign e)
      (.ident name :: .operator .assign :: e.tokens) [] where
  shown := by simp [tagText, callText, givenText, Operator.symbol]
  named := .inr isName_define
  written := written_given word lexable_assign settled
  legible := by simp [Writable, exprs, settled.allLegible_tokens]

theorem prints_define (word : Text.IsWord name) :
    (define name none).Prints indicator "define" name.toList [.ident name] [':'] where
  shown := by simp [tagText, callText]
  named := .inr isName_define
  written := written_word word
  legible := by simp [Writable, exprs]

theorem prints_evaluate (word : Text.IsWord name) :
    (evaluate name none).Prints indicator "evaluate" name.toList [.ident name] [] where
  shown := by simp [tagText, callText]
  named := .inr isName_evaluate
  written := written_word word
  legible := by simp [Writable, exprs]

theorem prints_evaluateOr (word : Text.IsWord name) (settled : e.Settled) :
    (evaluate name (some e)).Prints indicator "evaluate" (givenText name .nilCoalesce e)
      (.ident name :: .operator .nilCoalesce :: e.tokens) [] where
  shown := by simp [tagText, callText, givenText, Operator.symbol]
  named := .inr isName_evaluate
  written := written_given word lexable_nilCoalesce settled
  legible := by simp [Writable, exprs, settled.allLegible_tokens]

/-- A text between quotes. -/
def quotedText (text : String) : List Char := '\x22' :: (text.toList ++ ['\x22'])

theorem prints_inline (quotable : Text.Quotable file) :
    (inline file false).Prints indicator "inline" (quotedText file)
      [.literal (.string file)] [] where
  shown := by simp [tagText, callText, quotedText]
  named := .inr isName_inline
  written := (written_text quotable).before
  legible := by simp [Writable, exprs]

theorem written_asRaw : Written EndsOperand (',' :: (' ' :: ("as".toList ++ (':' :: (' ' ::
    "raw".toList))))) [.comma, .ident "as", .operator .colon, .ident "raw"] := by
  have word := written_blank.andThen (written_word isWord_raw)
  have label := (written_ident isWord_as.1 isWord_as.2).append (written_colon.andThen word)
    fun rest _ c => by
      rintro ⟨⟩
      decide
  exact written_comma.andThen (written_blank.andThen label)

theorem prints_inlineRaw (quotable : Text.Quotable file) :
    (inline file true).Prints indicator "inline" (quotedText file ++ (',' :: (' ' ::
        ("as".toList ++ (':' :: (' ' :: "raw".toList))))))
      [.literal (.string file), .comma, .ident "as", .operator .colon, .ident "raw"] [] where
  shown := by simp [tagText, callText, quotedText]
  named := .inr isName_inline
  written := (written_text quotable).andThen written_asRaw
  legible := by simp [Writable, exprs]

theorem prints_encode {handler : String} {encoder : Encoder} (word : Text.IsWord handler) :
    (encode handler encoder).Prints indicator "raw" handler.toList [.ident handler] [':'] where
  shown := by simp [tagText, callText]
  named := .inr isName_raw
  written := written_word word
  legible := by simp [Writable, exprs]

theorem prints_block {form : BlockForm} {made : BlockInstance} {text : List Char}
    {tokens : List Token} {chained : Bool} (named : Text.IsName name)
    (spells : Block.Spells form made text tokens) :
    (block name chained made.behaviour made.args).Prints indicator name text tokens [':'] where
  shown := by simp [tagText, callText, spells.parameters]
  named := .inr named
  written := spells.written
  legible := spells.legible

end Node

end Stencil
