import Stencil.Proofs.BoundCalls

/-!
# Calls that are resolved while parsing

Where the arguments of a call are literals, the slots of each overload are looked up among them
while the call is resolved, and what can be computed is evaluated. Both find a value at every index,
and the expression that is made has slots among the arguments of its calls again.
-/

namespace Stencil

namespace Expr

variable {e e' : Expr}

theorem callsFit_value (data : Value) : (value data).CallsFit := List.forall_mem_nil _

/-- Computing leaves an operation or makes a literal of it. -/
theorem CallsFit.folded (fit : e.CallsFit) (made : e.folded = .ok e') : e'.CallsFit := by
  rcases foldConstant_cases (foldConstant_of_folded made) with rfl | ⟨data, rfl, -⟩
  · exact fit
  · exact callsFit_value data

theorem callsFit_unary {op : Operator} {e : Expr} : (unary op e).CallsFit ↔ e.CallsFit := Iff.rfl

theorem callsFit_binary {op : Operator} {l r : Expr} :
    (binary op l r).CallsFit ↔ l.CallsFit ∧ r.CallsFit := List.forall_mem_append

theorem callsFit_conditional {c t f : Expr} :
    (conditional c t f).CallsFit ↔ (c.CallsFit ∧ t.CallsFit) ∧ f.CallsFit :=
  List.forall_mem_append.trans (and_congr_left' List.forall_mem_append)

theorem mem_callsAll {row : List Expr} {call : List Slot × Nat} :
    call ∈ callsAll row ↔ ∃ e ∈ row, call ∈ e.calls := by
  induction row with
  | nil => simp [callsAll]
  | cons e row ih => simp [callsAll, ih]

theorem mem_callsOf {items : Tuple} {call : List Slot × Nat} :
    call ∈ callsOf items ↔ ∃ item ∈ items, call ∈ item.2.calls := by
  induction items with
  | nil => simp [callsOf]
  | cons item items ih => simp [callsOf, ih]

theorem callsFit_collection {items : Tuple} (each : items.Each CallsFit) :
    (collection items).CallsFit := by
  intro call mem
  obtain ⟨item, inside, mem⟩ := mem_callsOf.mp mem
  exact each item inside call mem

theorem callsFit_sequence {row : List Expr} :
    (sequence row).CallsFit ↔ ∀ e ∈ row, e.CallsFit := by
  unfold CallsFit
  rw [calls]
  simp only [mem_callsAll]
  exact ⟨fun fit e mem call inside => fit call ⟨e, mem, inside⟩,
    fun fit call ⟨e, mem, inside⟩ => fit e mem call inside⟩

end Expr

namespace Tuple

variable {t : Tuple}

end Tuple

section Resolving

variable {r : Entities} {tag name : String} {method : Bool} {t : Tuple}

/-- An overload that arguments fit in shape takes them from among them. -/
theorem fits_of_shaped {candidates : List Function} {entry : Function × List Slot}
    (mem : entry ∈ shapedOverloads candidates t) : ∀ slot ∈ entry.2, slot.Fits t.length := by
  obtain ⟨f, -, bound⟩ := List.mem_filterMap.mp mem
  split at bound
  · rename_i slots bound'
    cases bound
    exact Signature.fits_of_bind (fun entry inside => (Tuple.of_mem_labels inside).1) bound'
  · cases bound

theorem callsFit_pendingCall (each : t.Each Expr.CallsFit)
    {overloads : List (Function × List Slot)}
    (fit : ∀ entry ∈ overloads, ∀ slot ∈ entry.2, slot.Fits t.length) :
    (pendingCall name method t overloads).CallsFit := by
  unfold pendingCall
  split
  · exact List.forall_mem_cons.mpr ⟨fit _ List.mem_cons_self, Expr.callsFit_collection each⟩
  · exact Expr.callsFit_collection each

/-- What a call is resolved to fits, if its arguments do. -/
theorem callsFit_of_resolveCall (each : t.Each Expr.CallsFit) {e : Expr}
    (made : r.resolveCall tag name method t = .ok e) : e.CallsFit := by
  have pending (overloads : List (Function × List Slot))
      (fit : ∀ entry ∈ overloads, ∀ slot ∈ entry.2, slot.Fits t.length)
      (folded : ((pendingCall name method t overloads).folded.mapError fun e =>
        Fault.malformed tag (.fold e)) = .ok e) : e.CallsFit :=
    (callsFit_pendingCall each fit).folded (ok_of_mapError folded)
  unfold Entities.resolveCall at made
  dsimp only at made
  split at made
  · cases made
  · split at made
    · cases made
    · split at made
      · exact pending _ (fun _ mem => fits_of_shaped mem) made
      · split at made
        · cases made
        · rename_i entry only
          have mem : entry ∈ [entry] := List.mem_cons_self
          rw [← only] at mem
          refine pending [entry] ?_ made
          simpa using fits_of_shaped (List.mem_of_mem_filter mem)
        · cases made

end Resolving

/-- Reading argument lists makes calls whose slots are among their arguments. -/
theorem Expr.callsFit_kept (r : Entities) (source : List Lexeme) :
    KeptByReading r source CallsFit where
  value _ := callsFit_value _
  keyword _ := List.forall_mem_nil _
  operator _ := List.forall_mem_nil _
  var _ := List.forall_mem_nil _
  unary operand made := CallsFit.folded (callsFit_unary.mpr operand) made
  binary left right made := CallsFit.folded (callsFit_binary.mpr ⟨left, right⟩) made
  conditional condition whenTrue whenFalse made :=
    CallsFit.folded (callsFit_conditional.mpr ⟨⟨condition, whenTrue⟩, whenFalse⟩) made
  sequence all := callsFit_sequence.mpr all
  collection all made := CallsFit.folded (callsFit_collection all) made
  call all made := callsFit_of_resolveCall all made

end Stencil
