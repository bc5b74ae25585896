import Stencil.Proofs.FoldedSentences
import Stencil.Proofs.RereadTags
import Stencil.Proofs.RowReading

/-!
# Arguments that are read once more

The arguments of a block with patterns are read strictly and, if that fails, once more in relaxed
mode. The two readings differ only where an argument of the tag itself ends: its elements are folded
in the mode, those of inner levels always strictly. So they go through the same states up to the
first such argument that strict folding refuses, and any other fault is one of both.
-/

namespace Stencil

namespace Expr

variable {row : List Expr} {e : Expr}

/-- What strict folding accepts is folded to the same in relaxed mode. -/
theorem fold_relaxed_of_strict (h : fold .strict row = .ok e) : fold .relaxed row = .ok e := by
  obtain ⟨reduced, valued⟩ := reduce_of_fold h
  have nonempty : row ≠ [] := by
    rintro rfl
    cases h
  rw [fold_of_reduce nonempty (fun other => absurd rfl other) reduced, finish_operand valued]

/-- In relaxed mode a short row may be left, and a longer one is refused as in strict mode. -/
theorem finish_relaxed (row : List Expr) :
    finish .relaxed row = finish .strict row ∨ finish .relaxed row = .ok (.sequence row) := by
  have leftover (row : List Expr) : finish.leftover .relaxed row = finish.leftover .strict row ∨
      finish.leftover .relaxed row = .ok (.sequence row) := by
    by_cases short : row.length ≤ 3 <;> simp [finish.leftover, short]
  unfold finish
  split
  · split
    · exact .inl rfl
    · exact leftover _
  · exact leftover _

/-- A row that neither mode folds is refused for the same reason, unless strict folding refuses its
elements beforehand. -/
theorem fold_relaxed_error {strict relaxed : FoldError} (faultless : rowFault row = none)
    (h : fold .strict row = .error strict) (h' : fold .relaxed row = .error relaxed) :
    relaxed = strict := by
  by_cases empty : row = []
  · subst empty
    cases h
    cases h'
    rfl
  · rw [fold_eq empty fun _ => faultless] at h
    rw [fold_eq empty fun other => absurd rfl other] at h'
    cases reduced : reduce row with
    | error error =>
      rw [reduced] at h h'
      cases h
      cases h'
      rfl
    | ok result =>
      rw [reduced] at h h'
      dsimp only at h h'
      rcases finish_relaxed result with same | left
      · rw [same, h] at h'
        exact (Except.error.inj h').symm
      · rw [left] at h'
        cases h'

end Expr

/-- Whether a token ends an argument, be it in vain. -/
def Token.endsArgument : Token → Bool
  | .closeParen | .comma | .operator .bracketClose => true
  | _ => false

/-- An argument of the tag itself that strict folding refuses. -/
structure Level.Refused (level : Level) (fault : FoldError) : Prop where
  own : level.kind = .top
  full : level.emptyDictionary = false
  filled : level.row ≠ []
  refused : Expr.fold .strict level.row = .error fault

namespace Level

variable {level : Level} {fault : FoldError}

/-- An argument ends in both modes alike, unless it is one of the tag itself that strict folding
refuses. -/
theorem finish_relaxed (level : Level) :
    level.finish .relaxed = level.finish .strict ∨ ∃ fault, level.Refused fault := by
  unfold finish
  by_cases empty : level.row.isEmpty = true
  · exact .inl (by rw [if_pos empty, if_pos empty])
  · rw [if_neg empty, if_neg empty]
    cases full : level.emptyDictionary with
    | true => exact .inl rfl
    | false =>
      by_cases own : level.kind = .top
      · have modes (mode : FoldMode) : level.foldMode mode = mode := by rw [foldMode, own]
        cases folded : Expr.fold .strict level.row with
        | error fault => exact .inr ⟨fault, own, full, by simpa using empty, folded⟩
        | ok e =>
          rw [modes, modes, folded, Expr.fold_relaxed_of_strict folded]
          exact .inl rfl
      · have modes (mode : FoldMode) : level.foldMode mode = .strict := by
          unfold foldMode
          split
          · rename_i top
            exact absurd top own
          · rfl
        rw [modes, modes]
        exact .inl rfl

theorem Refused.finish (h : level.Refused fault) {mode : FoldMode} {error : FoldError}
    (failed : Expr.fold mode level.row = .error error) :
    level.finish mode = .error (.fold error) := by
  refine finish_of_fold_error h.full h.filled ?_
  rwa [foldMode, h.own]

end Level

namespace Progress

variable {r : Entities} {tag : String} {mode mode' : FoldMode} {token : Token} {paren : Bool}
  {level : Level} {outer : List Level}

/-- Of a mode it only matters how the current argument ends. -/
theorem next_congr (same : level.finish mode = level.finish mode') :
    next r tag mode token paren level outer = next r tag mode' token paren level outer := by
  unfold next freely closeParen comma operator closeBracket
  rw [same]

/-- Where no argument ends, the mode does not matter. -/
theorem next_mode (other : level.pending = .nothing → token.endsArgument = false) :
    next r tag mode token paren level outer = next r tag mode' token paren level outer := by
  cases pending : level.pending with
  | nothing =>
    unfold next
    rw [pending]
    have inside := other pending
    cases token with
    | closeParen | comma => cases inside
    | operator op =>
      cases op with
      | bracketClose => cases inside
      | _ => rfl
    | _ => rfl
  | scope name dotted =>
    unfold next
    rw [pending]
    cases dotted <;> cases token <;> first | rfl | (rename_i op; cases op <;> rfl)
  | member | callee =>
    unfold next
    rw [pending]
    cases token <;> rfl

theorem next_of_refused {fault error : FoldError} (h : level.Refused fault)
    (free : level.pending = .nothing) (ends : token.endsArgument = true)
    (failed : Expr.fold mode level.row = .error error) :
    next r tag mode token paren level outer = .error (.malformed tag (.fold error)) := by
  have finished := h.finish failed
  have filled : level.row.isEmpty = false := by simpa using h.filled
  unfold next
  rw [free]
  cases token with
  | closeParen =>
    simp only [freely, closeParen, finished]
    rfl
  | comma =>
    simp only [freely, comma, h.own, filled, finished]
    rfl
  | operator op =>
    cases op with
    | bracketClose =>
      simp only [freely, operator, closeBracket, finished]
      rfl
    | _ => cases ends
  | _ => cases ends

/-- A token is read in both modes alike, unless it ends an argument that strict folding refuses. -/
theorem next_relaxed (r : Entities) (tag : String) (token : Token) (paren : Bool) (level : Level)
    (outer : List Level) :
    next r tag .relaxed token paren level outer = next r tag .strict token paren level outer ∨
      level.pending = .nothing ∧ token.endsArgument = true ∧ ∃ fault, level.Refused fault := by
  by_cases ends : level.pending = .nothing ∧ token.endsArgument = true
  · rcases level.finish_relaxed with same | refused
    · exact .inl (next_congr same)
    · exact .inr ⟨ends.1, ends.2, refused⟩
  · exact .inl (next_mode fun free => Bool.eq_false_iff.mpr fun last => ends ⟨free, last⟩)

end Progress

/-- Strict reading goes on to the end of an argument of the tag itself and refuses its elements. -/
inductive StopsAt (r : Entities) (tag : String) (row : List Expr) (fault : FoldError) :
    List Lexeme → Level → List Level → Prop
  | here {lexeme : Lexeme} {rest : List Lexeme} {level : Level} {outer : List Level}
      (refused : level.Refused fault) (own : level.row = row) (free : level.pending = .nothing)
      (ends : lexeme.token.endsArgument = true) :
      StopsAt r tag row fault (lexeme :: rest) level outer
  | later {lexeme : Lexeme} {rest : List Lexeme} {level level' : Level} {outer outer' : List Level}
      (step : Progress.next r tag .strict lexeme.token (parenFollows rest) level outer =
        .ok (.reading level' outer'))
      (more : StopsAt r tag row fault rest level' outer') :
      StopsAt r tag row fault (lexeme :: rest) level outer

namespace StopsAt

variable {r : Entities} {tag : String} {row : List Expr} {fault : FoldError}
  {tokens : List Lexeme} {level : Level} {outer : List Level}

theorem refused (h : StopsAt r tag row fault tokens level outer) :
    Expr.fold .strict row = .error fault := by
  induction h with
  | here refused own => exact own ▸ refused.refused
  | later _ _ ih => exact ih

/-- Reading comes to the argument in both modes, and fails there if it is not folded either. -/
theorem readLevels (h : StopsAt r tag row fault tokens level outer) {mode : FoldMode}
    (retries : mode = .strict ∨ mode = .relaxed) {error : FoldError}
    (failed : Expr.fold mode row = .error error) :
    readLevels r tag mode tokens level outer = .error (.malformed tag (.fold error)) := by
  induction h with
  | here refused own free ends =>
    rw [Stencil.readLevels, Progress.next_of_refused refused free ends (own ▸ failed)]
  | @later lexeme rest level level' outer outer' step more ih =>
    have same : Progress.next r tag mode lexeme.token (parenFollows rest) level outer =
        .ok (.reading level' outer') := by
      rcases retries with rfl | rfl
      · exact step
      · rcases Progress.next_relaxed r tag lexeme.token (parenFollows rest) level outer with
          same | ⟨free, ends, _, refused⟩
        · exact same.trans step
        · rw [Progress.next_of_refused refused free ends refused.refused] at step
          cases step
    rw [Stencil.readLevels, same]
    exact ih

end StopsAt

/-- Both modes read the same, up to an argument of the tag itself that strict folding refuses. The
induction is on the tokens: at each of them the modes are in the same state. -/
theorem readLevels_relaxed (r : Entities) (tag : String) (tokens : List Lexeme) (level : Level)
    (outer : List Level) :
    readLevels r tag .relaxed tokens level outer = readLevels r tag .strict tokens level outer ∨
      ∃ row fault, StopsAt r tag row fault tokens level outer := by
  induction tokens generalizing level outer with
  | nil => exact .inl rfl
  | cons lexeme rest ih =>
    rcases Progress.next_relaxed r tag lexeme.token (parenFollows rest) level outer with
      same | ⟨free, ends, fault, refused⟩
    · simp only [readLevels, same]
      cases step : Progress.next r tag .strict lexeme.token (parenFollows rest) level outer with
      | error e => exact .inl rfl
      | ok progress =>
        cases progress with
        | finished t => exact .inl rfl
        | reading level' outer' =>
          rcases ih level' outer' with same | ⟨row, fault, stops⟩
          · exact .inl same
          · exact .inr ⟨row, fault, .later step stops⟩
    · exact .inr ⟨level.row, fault, .here refused rfl free ends⟩

namespace TagSite

variable {site : TagSite} {form : BlockForm} {tokens : List Lexeme} {mode : FoldMode}

/-- Strict reading of the argument list in front of the tokens stops at an argument of the tag. -/
def StopsAt (site : TagSite) (row : List Expr) (fault : FoldError) (tokens : List Lexeme) : Prop :=
  ∃ place inside, tokens = ⟨.openParen, place⟩ :: inside ∧
    Stencil.StopsAt site.entities site.tag row fault inside { kind := .top } []

theorem StopsAt.readTuple {row : List Expr} {fault : FoldError} (h : site.StopsAt row fault tokens)
    (retries : mode = .strict ∨ mode = .relaxed) {error : FoldError}
    (failed : Expr.fold mode row = .error error) :
    site.readTuple mode tokens = .error (.malformed site.tag (.fold error)) := by
  obtain ⟨place, inside, rfl, stops⟩ := h
  exact readTuple_error place (stops.readLevels retries failed)

/-- What strict reading refuses is refused in relaxed mode for the same reason, unless it is an
argument of the tag. -/
theorem readTuple_relaxed_error {fault : Fault}
    (failed : site.readTuple .strict tokens = .error fault) :
    site.readTuple .relaxed tokens = .error fault ∨ ∃ row fault, site.StopsAt row fault tokens := by
  unfold readTuple at failed
  split at failed
  · rename_i place inside
    split at failed
    · cases failed
    · rename_i refused
      cases failed
      have strict := readList_error_iff.mp refused
      rcases readLevels_relaxed site.entities site.tag inside { kind := .top } [] with
        same | ⟨row, fault, stops⟩
      · exact .inl (readTuple_error place (same.trans strict))
      · exact .inr ⟨row, fault, place, inside, rfl, stops⟩
  · rename_i other
    refine .inl ?_
    unfold readTuple
    split
    · exact absurd rfl (other _ _)
    · exact failed

theorem readBlockArguments_of_errors {strict relaxed : Fault}
    (patterns : form.patterns.isEmpty = false)
    (failed : site.readTuple .strict tokens = .error strict)
    (retried : site.readTuple .relaxed tokens = .error relaxed) :
    site.readBlockArguments form tokens = .error relaxed := by
  simp [readBlockArguments, failed, retried, patterns]

/-- Where no pattern matches in the second reading, a block reports the fault of the first. It
reports the fault of the second instead where strict reading stops at an argument of the tag that
the second reading folds, so that it fails behind it, or whose elements strict folding refuses
before it folds them, so that the second reading fails there for another reason. -/
theorem retried_fault {strict : Fault} (patterns : form.patterns.isEmpty = false)
    (failed : site.readTuple .strict tokens = .error strict)
    (unmatched : ∀ t rest, site.readTuple .relaxed tokens = .ok (t, rest) → form.match? t = none) :
    site.readBlockArguments form tokens = .error strict ∨
      ∃ row fault relaxed, site.StopsAt row fault tokens ∧
        strict = .malformed site.tag (.fold fault) ∧
        site.readTuple .relaxed tokens = .error relaxed ∧
        site.readBlockArguments form tokens = .error relaxed ∧
        ((∃ e, Expr.fold .relaxed row = .ok e) ∨
          Expr.rowFault row = some fault ∧ ∃ other, Expr.fold .relaxed row = .error other ∧
            relaxed = .malformed site.tag (.fold other)) := by
  cases retried : site.readTuple .relaxed tokens with
  | ok read =>
    obtain ⟨t, rest⟩ := read
    refine .inl ?_
    simp [readBlockArguments, failed, retried, patterns, unmatched t rest retried]
  | error relaxed =>
    have reported := readBlockArguments_of_errors patterns failed retried
    rcases readTuple_relaxed_error failed with same | ⟨row, fault, stops⟩
    · rw [same] at retried
      cases retried
      exact .inl reported
    · obtain ⟨place, inside, parts, list⟩ := stops
      have stops : site.StopsAt row fault tokens := ⟨place, inside, parts, list⟩
      have refused := list.refused
      have read := stops.readTuple (.inl rfl) refused
      rw [failed] at read
      cases read
      cases folded : Expr.fold .relaxed row with
      | ok e =>
        exact .inr ⟨row, fault, relaxed, stops, rfl, rfl, reported, .inl ⟨e, folded⟩⟩
      | error other =>
        have read := stops.readTuple (.inr rfl) folded
        rw [retried] at read
        cases read
        cases beforehand : Expr.rowFault row with
        | none =>
          rw [Expr.fold_relaxed_error beforehand refused folded] at reported
          exact .inl reported
        | some first =>
          obtain rfl : first = fault := by
            have filled : row.isEmpty = false := by
              cases row with
              | nil => cases beforehand
              | cons => rfl
            simpa [Expr.fold, filled, beforehand] using refused
          exact .inr ⟨row, first, _, stops, rfl, rfl, reported, .inr ⟨beforehand, other, folded, rfl⟩⟩

/-- A loop with a second name that nothing is in: the fault of its first argument is reported. -/
theorem retried_fault_loop : ∃ tokens strict, Block.forForm.patterns.isEmpty = false ∧
    (⟨.core, '#', "for", {}⟩ : TagSite).readTuple .strict tokens = .error strict ∧
    (∀ t rest, (⟨.core, '#', "for", {}⟩ : TagSite).readTuple .relaxed tokens = .ok (t, rest) →
      Block.forForm.match? t = none) ∧
    (⟨.core, '#', "for", {}⟩ : TagSite).readBlockArguments Block.forForm tokens =
      .error strict := by
  let site : TagSite := ⟨.core, '#', "for", {}⟩
  let tokens : List Lexeme := [⟨.openParen, {}⟩, ⟨.ident "x", {}⟩, ⟨.keyword .within, {}⟩,
    ⟨.ident "rows", {}⟩, ⟨.comma, {}⟩, ⟨.ident "y", {}⟩, ⟨.ident "z", {}⟩, ⟨.closeParen, {}⟩]
  have stops : site.StopsAt [.var (.plain "x"), .keyword .within, .var (.plain "rows")]
      (.keyword .within) tokens :=
    ⟨_, _, rfl, .later rfl (.later rfl (.later rfl
      (.here ⟨rfl, rfl, List.cons_ne_nil _ _, rfl⟩ rfl rfl rfl)))⟩
  have strict := stops.readTuple (.inl rfl) rfl
  have retried : ((site.readTuple .relaxed tokens).toOption.any fun read =>
      (Block.forForm.match? read.1).isNone) = true := by
    decide +kernel
  obtain ⟨read, retried, none⟩ := ok_of_any retried
  have unmatched (t : Tuple) (rest : Remaining tokens)
      (other : site.readTuple .relaxed tokens = .ok (t, rest)) :
      Block.forForm.match? t = .none := by
    rw [retried] at other
    cases other
    simpa using none
  refine ⟨tokens, _, rfl, strict, unmatched, ?_⟩
  have patterns : Block.forForm.patterns.isEmpty = false := rfl
  rcases retried_fault patterns strict unmatched with reported | ⟨_, _, relaxed, _, _, failed, _⟩
  · exact reported
  · rw [retried] at failed
    cases failed

/-- Four names in a row: strict reading refuses the first two beforehand, and the second reading
all four of them for their number. The fault of the second reading is reported. -/
theorem second_fault_reported : ∃ tokens strict relaxed, Block.forForm.patterns.isEmpty = false ∧
    (⟨.core, '#', "for", {}⟩ : TagSite).readTuple .strict tokens = .error strict ∧
    (⟨.core, '#', "for", {}⟩ : TagSite).readTuple .relaxed tokens = .error relaxed ∧
    (⟨.core, '#', "for", {}⟩ : TagSite).readBlockArguments Block.forForm tokens =
      .error relaxed ∧
    relaxed ≠ strict := by
  let site : TagSite := ⟨.core, '#', "for", {}⟩
  let tokens : List Lexeme := [⟨.openParen, {}⟩, ⟨.ident "x", {}⟩, ⟨.ident "y", {}⟩,
    ⟨.ident "z", {}⟩, ⟨.ident "w", {}⟩, ⟨.closeParen, {}⟩]
  have stops : site.StopsAt [.var (.plain "x"), .var (.plain "y"), .var (.plain "z"),
      .var (.plain "w")] (.adjacent (.var (.plain "x")) (.var (.plain "y"))) tokens :=
    ⟨_, _, rfl, .later rfl (.later rfl (.later rfl (.later rfl
      (.here ⟨rfl, rfl, List.cons_ne_nil _ _, rfl⟩ rfl rfl rfl))))⟩
  have longer : Expr.fold .relaxed [.var (.plain "x"), .var (.plain "y"), .var (.plain "z"),
      .var (.plain "w")] = .error (.unfoldable [.var (.plain "x"), .var (.plain "y"),
        .var (.plain "z"), .var (.plain "w")]) := by
    rw [Expr.fold_eq (List.cons_ne_nil _ _) fun other => absurd rfl other, Expr.reduce_eq]
    rfl
  have strict := stops.readTuple (.inl rfl) rfl
  have relaxed := stops.readTuple (.inr rfl) longer
  refine ⟨tokens, _, _, rfl, strict, relaxed, readBlockArguments_of_errors rfl strict relaxed, ?_⟩
  rintro ⟨⟩

end TagSite

end Stencil
