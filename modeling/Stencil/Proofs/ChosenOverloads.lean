import Stencil.Proofs.InvariantValues
import Stencil.Proofs.ResolvedCalls

/-!
# Chosen overloads

An overload is chosen while parsing if all arguments are literals, and when the call runs otherwise.
Both ways come to the same: the same function on the same arguments, the same number of overloads
that take the values, or none.
-/

namespace Stencil

/-- What a call with given values comes to. -/
inductive Dispatch
  /-- A function runs on arguments, coerced and with defaults filled in. -/
  | runs (f : Function) (arguments : List Value)
  /-- The one overload of the shape does not take the values. -/
  | refused (reason : CallError)
  /-- So many overloads take the values, and not one. -/
  | undecided (matching : Nat)

namespace Dispatch

/-- The value of a call, given what functions give. -/
def value (run : Function → List Value → Value) (name : String) (values : List Value) :
    Dispatch → Value
  | runs f arguments => run f arguments
  | refused reason => .error (.typeMismatch name (.call reason))
  | undecided matching =>
    .error (.typeMismatch name (.overloads (values.map Value.type?) matching))

/-- No overload takes the values. -/
def Refuses : Dispatch → Prop
  | runs _ _ => False
  | refused _ => True
  | undecided matching => matching = 0

end Dispatch

namespace Function

/-- What a call of one function comes to, its arguments bound to slots. -/
def dispatchBound (f : Function) (slots : List Slot) (values : List Value) : Dispatch :=
  match f.signature.resolve slots values with
  | .ok arguments => .runs f arguments
  | .error reason => .refused reason

/-- What a call of several candidates comes to. -/
def dispatchMatching (candidates : List Function) (labels : Entries Nat) (values : List Value) :
    Dispatch :=
  match candidates.filter fun f => f.signature.accepts values labels with
  | [f] =>
    match f.signature.arguments values labels with
    | .ok arguments => .runs f arguments
    | .error reason => .refused reason
  | matching => .undecided matching.length

variable {run : Function → List Value → Value} {name : String} {values : List Value}

theorem runBound_eq (f : Function) (slots : List Slot) :
    (f.calling run).runBound name slots values =
      (f.dispatchBound slots values).value run name values := by
  have same : (f.calling run).signature = f.signature := rfl
  unfold runBound dispatchBound
  rw [same]
  cases f.signature.resolve slots values <;> rfl

theorem runMatching_eq (candidates : List Function) (labels : Entries Nat) :
    runMatching (candidates.map (calling run)) name labels values =
      (dispatchMatching candidates labels values).value run name values := by
  have same (f : Function) : (f.calling run).signature = f.signature := rfl
  have matching : (candidates.map (calling run)).filter
      (fun f => f.signature.accepts values labels) =
        (candidates.filter fun f => f.signature.accepts values labels).map (calling run) :=
    List.filter_map
  unfold runMatching dispatchMatching
  rw [matching]
  generalize candidates.filter (fun f => f.signature.accepts values labels) = found
  match found with
  | [] => rfl
  | [f] =>
    simp only [List.map_cons, List.map_nil, same]
    cases f.signature.arguments values labels <;> rfl
  | _ :: _ :: _ => simp [Dispatch.value]

end Function

/-- A call is for one overload or for several. -/
theorem eq_single_or_overload (name : String) (method : Bool) (args : Tuple)
    (entries : List (Function × List Slot)) :
    (∃ target slots, entries = [(target, slots)]) ∨
      (∀ entry, entries ≠ [entry]) ∧ pendingCall name method args entries =
        .overload name method (entries.map Prod.fst) args := by
  match entries with
  | [] => exact .inr ⟨fun _ => by simp, rfl⟩
  | [(target, slots)] => exact .inl ⟨target, slots, rfl⟩
  | _ :: _ :: _ => exact .inr ⟨fun _ => by simp, rfl⟩

namespace Setting

variable (w : Setting)

/-- The values of arguments in a setting, unless one of them is an error. -/
def arguments (args : Tuple) : Except EvalError (List Value) :=
  Expr.evalItems w.env (Expr.callingOf w.run args)

/-- What a call comes to in a setting, once its arguments have values. -/
def dispatch? : Expr → Option Dispatch
  | .call _ _ target slots args =>
    (w.arguments args).toOption.map (target.dispatchBound slots)
  | .overload _ _ candidates args =>
    (w.arguments args).toOption.map (Function.dispatchMatching candidates (Tuple.labels args))
  | _ => none

end Setting

/-- The overloads that take the values, with the slots of the arguments. -/
def takers (values : List Value) (entries : List (Function × List Slot)) :
    List (Function × List Slot) :=
  entries.filter fun entry => (entry.1.signature.resolve entry.2 values).isOk

/-- What a call comes to, given the overloads that take its values. -/
inductive Dispatch.From (values : List Value) : List (Function × List Slot) → Dispatch → Prop
  | refuses {d : Dispatch} (none : d.Refuses) : From values [] d
  | runs {f : Function} {slots : List Slot} {arguments : List Value}
      (resolved : f.signature.resolve slots values = .ok arguments) :
      From values [(f, slots)] (.runs f arguments)
  | undecided {entries : List (Function × List Slot)} (several : 2 ≤ entries.length) :
      From values entries (.undecided entries.length)

theorem Dispatch.From.refuses_iff {values : List Value} {left : List (Function × List Slot)}
    {d : Dispatch} (takes : d.From values left) : d.Refuses ↔ left = [] := by
  cases takes with
  | refuses none => exact iff_of_true none rfl
  | runs => exact iff_of_false id (List.cons_ne_nil _ _)
  | undecided several =>
    refine iff_of_false (fun zero : left.length = 0 => ?_) fun none => ?_
    · omega
    · rw [none] at several
      cases several

section Taking

variable {candidates : List Function} {args : Tuple} {values : List Value}
  {entries : List (Function × List Slot)}

theorem mem_shapedOverloads {entry : Function × List Slot} :
    entry ∈ shapedOverloads candidates args ↔
      entry.1 ∈ candidates ∧ entry.1.signature.bind args.length args.labels = .ok entry.2 := by
  obtain ⟨f, slots⟩ := entry
  unfold shapedOverloads
  rw [List.mem_filterMap]
  constructor
  · rintro ⟨g, mem, found⟩
    split at found
    · rename_i bound
      cases found
      exact ⟨mem, bound⟩
    · cases found
  · rintro ⟨mem, bound⟩
    exact ⟨f, mem, by rw [bound]⟩

/-- The arguments of a bound call come from its slots. -/
theorem Signature.arguments_of_bind {s : Signature} {labels : Entries Nat} {slots : List Slot}
    (bound : s.bind values.length labels = .ok slots) :
    s.arguments values labels = s.resolve slots values := by
  rw [arguments, bound]
  rfl

/-- Overloads of the shape take the values if they accept them. -/
theorem map_fst_takers {labels : Entries Nat}
    (bound : ∀ entry ∈ entries, entry.1.signature.bind values.length labels = .ok entry.2) :
    (entries.map Prod.fst).filter (fun f => f.signature.accepts values labels) =
      (takers values entries).map Prod.fst := by
  rw [List.filter_map, takers]
  refine congrArg (List.map Prod.fst) (List.filter_congr fun entry mem => ?_)
  rw [Function.comp_apply, Signature.accepts, Signature.arguments_of_bind (bound entry mem)]

theorem takers_eq_nil_iff (length : values.length = args.length) :
    takers values (shapedOverloads candidates args) = [] ↔
      ∀ f ∈ candidates, f.signature.accepts values args.labels = false := by
  rw [takers, List.filter_eq_nil_iff]
  constructor
  · intro none f mem
    rw [Signature.accepts]
    cases bound : f.signature.bind values.length args.labels with
    | error e =>
      rw [Signature.arguments, bound]
      rfl
    | ok slots =>
      rw [Signature.arguments_of_bind bound]
      rw [length] at bound
      exact Bool.eq_false_iff.mpr (none (f, slots) (mem_shapedOverloads.mpr ⟨mem, bound⟩))
  · intro none entry mem taken
    obtain ⟨inside, bound⟩ := mem_shapedOverloads.mp mem
    rw [← length] at bound
    have accepted := none _ inside
    rw [Signature.accepts, Signature.arguments_of_bind bound, taken] at accepted
    cases accepted

/-- Several candidates come to what those of them come to that take the values. -/
theorem from_dispatchMatching {labels : Entries Nat}
    (bound : ∀ entry ∈ entries, entry.1.signature.bind values.length labels = .ok entry.2) :
    (Function.dispatchMatching (entries.map Prod.fst) labels values).From values
      (takers values entries) := by
  have inside : ∀ entry ∈ takers values entries, entry ∈ entries ∧
      (entry.1.signature.resolve entry.2 values).isOk = true := fun entry mem =>
    List.mem_filter.mp mem
  unfold Function.dispatchMatching
  rw [map_fst_takers bound]
  generalize takers values entries = found at inside
  match found with
  | [] => exact .refuses rfl
  | [(f, slots)] =>
    obtain ⟨mem, taken⟩ := inside _ List.mem_cons_self
    simp only [List.map_cons, List.map_nil, Signature.arguments_of_bind (bound _ mem)]
    cases resolved : f.signature.resolve slots values with
    | ok arguments => exact .runs resolved
    | error reason =>
      rw [resolved] at taken
      cases taken
  | first :: second :: rest =>
    have several : 2 ≤ (first :: second :: rest).length := by simp
    have undecided : Dispatch.From values _ _ := .undecided several
    rwa [← List.length_map Prod.fst] at undecided

/-- A call of one function has the value of what it comes to. -/
theorem Setting.eval_call {w : Setting} {name : String} {method : Bool} {target : Function}
    {slots : List Slot} (evaluated : w.arguments args = .ok values) :
    w.eval (.call name method target slots args) =
      (target.dispatchBound slots values).value w.run name values := by
  have inside : Expr.evalItems w.env (Expr.callingOf w.run args) = .ok values := evaluated
  rw [Setting.eval, Expr.calling, Expr.eval, inside]
  exact Function.runBound_eq target slots

/-- A call for some overloads has the value of what it comes to, which depends on the overloads that
take the values of its arguments. -/
theorem Setting.exists_dispatch {w : Setting} (name : String) (method : Bool)
    (evaluated : w.arguments args = .ok values)
    (bound : ∀ entry ∈ entries, entry.1.signature.bind values.length args.labels = .ok entry.2) :
    ∃ d, w.dispatch? (pendingCall name method args entries) = some d ∧
      w.eval (pendingCall name method args entries) = d.value w.run name values ∧
      d.From values (takers values entries) := by
  have labels : Tuple.labels (Expr.callingOf w.run args) = Tuple.labels args := by
    refine Expr.labels_congr ?_
    rw [Expr.callingOf_eq_map, List.map_map]
    rfl
  have inside : Expr.evalItems w.env (Expr.callingOf w.run args) = .ok values := evaluated
  rcases eq_single_or_overload name method args entries with
    ⟨target, slots, rfl⟩ | ⟨several, call⟩
  · refine ⟨target.dispatchBound slots values, by rw [pendingCall, dispatch?, evaluated]; rfl,
      eval_call evaluated, ?_⟩
    unfold Function.dispatchBound takers
    cases resolved : target.signature.resolve slots values with
    | ok arguments =>
      rw [List.filter_cons_of_pos (by rw [resolved]; rfl)]
      exact .runs resolved
    | error reason =>
      rw [List.filter_cons_of_neg (by rw [resolved]; exact Bool.false_ne_true)]
      exact .refuses trivial
  · refine ⟨Function.dispatchMatching (entries.map Prod.fst) args.labels values,
      by rw [call, dispatch?, evaluated]; rfl, ?_, ?_⟩
    · rw [call, Setting.eval, Expr.calling, Expr.eval, inside, labels]
      exact Function.runMatching_eq _ _
    · exact from_dispatchMatching bound

end Taking

/-- The call for literals, from the overloads that take them. -/
def settle (name : String) (method : Bool) (args : Tuple) :
    List (Function × List Slot) → Except Fault Expr
  | [] => .error (.signature name .noOverload)
  | [entry] => .ok (pendingCall name method args [entry])
  | several => .error (.ambiguous name several.length)

/-- The call that arguments as written are settled on, before anything is computed. -/
def Entities.chosenCall (r : Entities) (name : String) (method : Bool) (args : Tuple) :
    Except Fault Expr :=
  let candidates := r.candidates method name
  let shaped := shapedOverloads candidates args
  if candidates.isEmpty then .error (.signature name (.unregistered method))
  else if shaped.isEmpty then .error (.signature name (.bind (lastBindError candidates args)))
  else
    match args.literals? with
    | none => .ok (pendingCall name method args shaped)
    | some values => settle name method args (takers values shaped)

/-- Resolving a call is choosing one and computing it as far as possible. -/
theorem Entities.resolveCall_eq (r : Entities) (tag name : String) (method : Bool) (args : Tuple) :
    r.resolveCall tag name method args = r.chosenCall name method args >>= fun e =>
      e.folded.mapError fun error => .malformed tag (.fold error) := by
  unfold resolveCall chosenCall takers
  dsimp only
  split
  · rfl
  · split
    · rfl
    · cases args.literals? with
      | none => rfl
      | some values =>
        dsimp only
        generalize List.filter _ (shapedOverloads (r.candidates method name) args) = left
        match left with
        | [] | [_] | _ :: _ :: _ => rfl

section Shapes

variable {candidates : List Function} {args others : Tuple}

theorem shapedOverloads_congr (shape : others.map Prod.fst = args.map Prod.fst) :
    shapedOverloads candidates others = shapedOverloads candidates args := by
  have length : others.length = args.length := by simpa using congrArg List.length shape
  unfold shapedOverloads
  rw [Expr.labels_congr shape, length]

theorem lastBindError_congr (shape : others.map Prod.fst = args.map Prod.fst) :
    lastBindError candidates others = lastBindError candidates args := by
  have length : others.length = args.length := by simpa using congrArg List.length shape
  unfold lastBindError
  rw [Expr.labels_congr shape, length]

end Shapes

section Values

variable {w : Setting} {args : Tuple} {values : List Value}

/-- Values of arguments are no errors. -/
theorem Expr.sound_of_evalItems {env : Env} {items : List (Option String × Expr)}
    (h : evalItems env items = .ok values) : ∀ v ∈ values, v.isError = false := by
  induction items generalizing values with
  | nil =>
    cases h
    exact List.forall_mem_nil _
  | cons item items ih =>
    obtain ⟨label, e⟩ := item
    rw [evalItems] at h
    split at h
    · cases h
    · rename_i sound
      split at h
      · cases h
      · rename_i more evaluated
        cases h
        exact List.forall_mem_cons.mpr ⟨Value.isError_of_ne sound, ih evaluated⟩

/-- Literals have their data for values in every setting. -/
theorem Setting.arguments_of_literals (w : Setting) (literals : args.literals? = some values)
    (sound : ∀ v ∈ values, v.isError = false) : w.arguments args = .ok values := by
  unfold arguments
  induction args generalizing values with
  | nil =>
    cases literals
    rfl
  | cons item args ih =>
    obtain ⟨label, e⟩ := item
    rw [Tuple.literals?, Tuple.values, List.map_cons, List.mapM_cons] at literals
    obtain ⟨data, given, literals⟩ := Option.bind_eq_some_iff.mp literals
    obtain ⟨more, others, literals⟩ := Option.bind_eq_some_iff.mp literals
    cases literals
    obtain ⟨first, rest⟩ := List.forall_mem_cons.mp sound
    cases e with
    | value inner =>
      cases given
      rw [Expr.callingOf, Expr.evalItems, ih others rest, Expr.calling, Expr.eval]
      cases data with
      | error => cases first
      | _ => rfl
    | _ => cases given

theorem Setting.length_of_arguments (evaluated : w.arguments args = .ok values) :
    values.length = args.length := by
  rw [Expr.length_of_evalItems evaluated, Expr.callingOf_eq_map, List.length_map]

end Values

/-- Computing what can be computed keeps the value of a call, and fails only if that is an error. -/
theorem Setting.eval_of_computed {w : Setting} (lawful : w.Lawful) {call : Expr} {tag : String} :
    (∀ e, (call.folded.mapError fun error => Fault.malformed tag (.fold error)) = .ok e →
      w.eval e = w.eval call) ∧
    ∀ fault, (call.folded.mapError fun error => Fault.malformed tag (.fold error)) =
      .error fault → ∃ error, w.eval call = .error error := by
  unfold Expr.folded
  constructor
  · intro e computed
    exact Expr.eval_foldConstant lawful (ok_of_mapError (ok_of_mapError computed))
  · intro fault refused
    cases folded : call.foldConstant with
    | ok e =>
      rw [folded] at refused
      cases refused
    | error error =>
      exact ((Expr.foldConstant_error_iff lawful).mp ⟨error, folded⟩).2.2

/-- What a call comes to when it runs, next to the same call with literals. -/
structure Entities.Agrees (r : Entities) (tag name : String) (method : Bool) (w : Setting)
    (written later : Tuple) (values : List Value) (d : Dispatch) : Prop where
  /-- The later call comes to this. -/
  comes : ∃ call, r.chosenCall name method later = .ok call ∧ w.dispatch? call = some d
  /-- It has the value of that, -/
  value : ∀ e, r.resolveCall tag name method later = .ok e → w.eval e = d.value w.run name values
  /-- unless it is computed while parsing and the value is an error. -/
  refused : ∀ fault, r.resolveCall tag name method later = .error fault →
    ∃ error, d.value w.run name values = .error error
  /-- It runs a function on arguments if the call with literals is settled on these. -/
  runs : ∀ f arguments, d = .runs f arguments ↔ ∃ call,
    r.chosenCall name method written = .ok call ∧ w.dispatch? call = some (.runs f arguments)
  /-- The call with literals has the same value then. -/
  sameValue : ∀ e, r.resolveCall tag name method written = .ok e →
    w.eval e = d.value w.run name values
  /-- So many overloads take the values if the literals are ambiguous between as many. -/
  ambiguous : ∀ n, r.resolveCall tag name method written = .error (.ambiguous name n) ↔
    2 ≤ n ∧ d = .undecided n
  /-- The types of literals do not match if the values are refused, -/
  mismatch : r.resolveCall tag name method written = .error (.signature name .noOverload) ↔
    d.Refuses
  /-- and that is so if no overload accepts them. -/
  none : d.Refuses ↔
    ∀ f ∈ r.candidates method name, f.signature.accepts values written.labels = false

section Choosing

variable {r : Entities} {tag name : String} {method : Bool} {args : Tuple} {values : List Value}
  {w : Setting}

/-- An overload of the shape is one of a registered name. -/
theorem Entities.chosenCall_of_shaped
    (shaped : shapedOverloads (r.candidates method name) args ≠ []) :
    r.chosenCall name method args =
      match args.literals? with
      | none => .ok (pendingCall name method args (shapedOverloads (r.candidates method name) args))
      | some values =>
        settle name method args
          (takers values (shapedOverloads (r.candidates method name) args)) := by
  have registered : (r.candidates method name).isEmpty = false := by
    refine List.isEmpty_eq_false_iff.mpr fun none => shaped ?_
    rw [none]
    rfl
  unfold chosenCall
  dsimp only
  rw [registered, List.isEmpty_eq_false_iff.mpr shaped]
  rfl

/-- Without an overload of the shape the values do not matter. -/
theorem Entities.resolveCall_of_not_shaped
    (none : shapedOverloads (r.candidates method name) args = []) :
    r.resolveCall tag name method args = .error (.signature name
      (if (r.candidates method name).isEmpty then .unregistered method
      else .bind (lastBindError (r.candidates method name) args))) := by
  unfold resolveCall
  dsimp only
  rw [none]
  split <;> rfl

/-- A fault that does not come from computing is met while choosing. -/
theorem Entities.resolveCall_eq_error_iff {fault : Fault}
    (other : ∀ error, fault ≠ .malformed tag (.fold error)) :
    r.resolveCall tag name method args = .error fault ↔
      r.chosenCall name method args = .error fault := by
  rw [resolveCall_eq]
  cases r.chosenCall name method args with
  | error e => exact Iff.rfl
  | ok call =>
    refine iff_of_false (fun refused => ?_) fun h => by cases h
    change (call.folded.mapError fun error => Fault.malformed tag (.fold error)) = _ at refused
    cases folded : call.folded with
    | ok e =>
      rw [folded] at refused
      cases refused
    | error error =>
      rw [folded] at refused
      cases refused
      exact other error rfl

/-- What the call for literals is settled on, next to what the values come to. -/
theorem settle_of_from (evaluated : w.arguments args = .ok values)
    {left : List (Function × List Slot)} {d : Dispatch} (takes : d.From values left) :
    (∀ f arguments, d = .runs f arguments ↔ ∃ call,
      settle name method args left = .ok call ∧ w.dispatch? call = some (.runs f arguments)) ∧
    (∀ n, settle name method args left = .error (.ambiguous name n) ↔ 2 ≤ n ∧ d = .undecided n) ∧
    (settle name method args left = .error (.signature name .noOverload) ↔ d.Refuses) := by
  cases takes with
  | refuses none =>
    refine ⟨fun f arguments => ⟨fun same => ?_, fun ⟨_, settled, _⟩ => (nomatch settled)⟩,
      fun n => ⟨fun settled => (nomatch settled), fun ⟨several, same⟩ => ?_⟩, fun _ => none,
      fun _ => rfl⟩
    · subst same
      cases none
    · subst same
      have zero : n = 0 := none
      omega
  | @runs f slots arguments resolved =>
    have comes : w.dispatch? (.call name method f slots args) = some (.runs f arguments) := by
      rw [Setting.dispatch?, evaluated]
      simp only [Except.toOption, Option.map_some, Function.dispatchBound, resolved]
    refine ⟨fun g others => ⟨fun same => ⟨_, rfl, ?_⟩, fun ⟨call, settled, runs⟩ => ?_⟩,
      fun n => ⟨fun settled => (nomatch settled), fun ⟨_, same⟩ => (nomatch same)⟩,
      fun settled => (nomatch settled), fun refuses => (nomatch refuses)⟩
    · rw [← same]
      exact comes
    · cases settled
      exact Option.some.inj (comes.symm.trans runs)
  | @undecided _ several =>
    match left, several with
    | first :: second :: rest, several =>
      refine ⟨fun f arguments =>
          ⟨fun same => (nomatch same), fun ⟨_, settled, _⟩ => (nomatch settled)⟩,
        fun n => ⟨fun settled => ?_, fun ⟨_, same⟩ => ?_⟩, fun settled => (nomatch settled),
        fun refuses => (nomatch refuses)⟩
      · cases settled
        exact ⟨several, rfl⟩
      · cases same
        rfl

/-- The call that literals are settled on has the value of what the values come to. -/
theorem eval_of_settled (evaluated : w.arguments args = .ok values)
    {left : List (Function × List Slot)} {d : Dispatch} (takes : d.From values left) {call : Expr}
    (settled : settle name method args left = .ok call) :
    w.eval call = d.value w.run name values := by
  cases takes with
  | refuses => cases settled
  | runs resolved =>
    cases settled
    rw [pendingCall, Setting.eval_call evaluated, Function.dispatchBound, resolved]
  | undecided several =>
    match left, several with
    | first :: second :: rest, _ => cases settled

end Choosing

/-- Choosing an overload while parsing and choosing it when the call runs come to the same: without
an overload of the shape both calls are refused alike, otherwise they agree. -/
theorem overloads_agree (r : Entities) (tag name : String) (method : Bool) {w : Setting}
    (lawful : w.Lawful) {written later : Tuple} {values : List Value}
    (literals : written.literals? = some values) (waits : later.literals? = none)
    (shape : later.map Prod.fst = written.map Prod.fst)
    (evaluated : w.arguments later = .ok values) :
    (∀ args, r.resolveCall tag name method args = r.chosenCall name method args >>= fun e =>
      e.folded.mapError fun error => .malformed tag (.fold error)) ∧
    (shapedOverloads (r.candidates method name) written = [] →
      ∃ fault, r.resolveCall tag name method written = .error fault ∧
        r.resolveCall tag name method later = .error fault) ∧
    (shapedOverloads (r.candidates method name) written ≠ [] →
      ∃ d, r.Agrees tag name method w written later values d) := by
  have same : shapedOverloads (r.candidates method name) later =
      shapedOverloads (r.candidates method name) written := shapedOverloads_congr shape
  refine ⟨r.resolveCall_eq tag name method, fun none => ?_, fun shaped => ?_⟩
  · refine ⟨_, Entities.resolveCall_of_not_shaped none, ?_⟩
    rw [Entities.resolveCall_of_not_shaped (same.trans none), lastBindError_congr shape]
  · have length := w.length_of_arguments evaluated
    have bound : ∀ entry ∈ shapedOverloads (r.candidates method name) later,
        entry.1.signature.bind values.length later.labels = .ok entry.2 := fun entry mem => by
      rw [length]
      exact (mem_shapedOverloads.mp mem).2
    obtain ⟨d, comes, value, takes⟩ := Setting.exists_dispatch name method evaluated bound
    rw [same] at comes value takes
    have chosen : r.chosenCall name method later = .ok (pendingCall name method later
        (shapedOverloads (r.candidates method name) written)) := by
      rw [Entities.chosenCall_of_shaped (same ▸ shaped), waits, same]
    have settled : r.chosenCall name method written = settle name method written
        (takers values (shapedOverloads (r.candidates method name) written)) := by
      rw [Entities.chosenCall_of_shaped shaped, literals]
    have evaluated' : w.arguments written = .ok values :=
      w.arguments_of_literals literals (Expr.sound_of_evalItems evaluated)
    obtain ⟨runs, ambiguous, mismatch⟩ := settle_of_from evaluated' takes
    rw [← settled] at runs ambiguous mismatch
    refine ⟨d, ⟨_, chosen, comes⟩, fun e made => ?_, fun fault refused => ?_, runs,
      fun e made => ?_, fun n => ?_, ?_, ?_⟩
    · rw [Entities.resolveCall_eq, chosen] at made
      rw [← value]
      exact (Setting.eval_of_computed lawful).1 e made
    · rw [Entities.resolveCall_eq, chosen] at refused
      rw [← value]
      exact (Setting.eval_of_computed lawful).2 fault refused
    · rw [Entities.resolveCall_eq] at made
      obtain ⟨call, choice, computed⟩ := ok_of_bind made
      rw [(Setting.eval_of_computed lawful).1 e computed]
      exact eval_of_settled evaluated' takes (settled.symm.trans choice)
    · refine (Entities.resolveCall_eq_error_iff ?_).trans (ambiguous n)
      exact fun _ same => nomatch same
    · refine (Entities.resolveCall_eq_error_iff ?_).trans mismatch
      exact fun _ same => nomatch same
    · rw [takes.refuses_iff, takers_eq_nil_iff (w.length_of_arguments evaluated')]

/-- A number next to its text: the overload for numbers runs, whether the number is written or comes
from a variable. -/
theorem overloads_agree_number :
    let number : Function := ⟨1,
      ⟨[{ types := [.int] }, { label := some "by", default := some .nil }]⟩, false,
      fun args => args.headD .nil⟩
    let r : Entities := (Entities.empty.addFunction "f" fun id =>
      ⟨id, ⟨[{ types := [.string] }]⟩, false, fun _ => .nil⟩).addFunction "f" fun _ => number
    let w : Setting := ⟨fun _ => .int 2, fun f => f.run⟩
    let written : Tuple := [(none, .value (.int 2))]
    let later : Tuple := [(none, .var (.plain "n"))]
    w.Lawful ∧ written.literals? = some [.int 2] ∧ later.literals? = none ∧
      later.map Prod.fst = written.map Prod.fst ∧ w.arguments later = .ok [.int 2] ∧
      shapedOverloads (r.candidates false "f") written ≠ [] ∧
      r.Agrees "value" "f" false w written later [.int 2] (.runs number [.int 2, .nil]) := by
  intro number r w written later
  have lawful : w.Lawful := fun _ _ => rfl
  have literals : written.literals? = some [.int 2] := rfl
  have waits : later.literals? = none := rfl
  have shape : later.map Prod.fst = written.map Prod.fst := rfl
  have evaluated : w.arguments later = .ok [.int 2] := rfl
  have shaped : shapedOverloads (r.candidates false "f") written ≠ [] := List.cons_ne_nil _ _
  obtain ⟨d, agrees⟩ :=
    (overloads_agree r "value" "f" false lawful literals waits shape evaluated).2.2 shaped
  have runs : d = .runs number [.int 2, .nil] := (agrees.runs _ _).mpr ⟨_, rfl, rfl⟩
  exact ⟨lawful, literals, waits, shape, evaluated, shaped, runs ▸ agrees⟩

end Stencil
