import Stencil.Proofs.Settled
import Stencil.Render.Walk

/-!
# Values from a context

Values read from JSON are plain. Where a context provides all that is required, a variable without
path has a value, and only a variable with a path can be missing. The text of a variable tells
whether it has a path.
-/

namespace Stencil

namespace Json

mutual
theorem sound_toValue (tree : Tree) : tree.toValue.Sound := by
  match tree with
  | .null => exact .nil
  | .bool b => exact .bool b
  | .number (.integer n) =>
    simp only [Tree.toValue, Number.toValue]
    split
    · exact .int _
    · exact .double _
  | .number (.real x) => exact .double x
  | .string s => exact .string trivial
  | .array items => exact .array (sound_toValues items)
  | .object members =>
    refine .dictionary (Entries.Ascending.insertAll List.Pairwise.nil _) (fun _ _ => trivial) ?_
    intro entry mem
    rcases Entries.mem_insertAll mem with mem | mem
    · cases mem
    · exact sound_toEntries members entry mem

theorem sound_toValues (items : List Tree) : ∀ v ∈ toValues items, v.Sound := by
  match items with
  | [] => simp [toValues]
  | tree :: rest =>
    intro v mem
    rcases List.mem_cons.mp mem with rfl | mem
    · exact sound_toValue tree
    · exact sound_toValues rest v mem

theorem sound_toEntries (members : List (String × Tree)) :
    ∀ entry ∈ toEntries members, entry.2.Sound := by
  match members with
  | [] => simp [toEntries]
  | (key, tree) :: rest =>
    intro entry mem
    rcases List.mem_cons.mp mem with rfl | mem
    · exact sound_toValue tree
    · exact sound_toEntries rest entry mem
end

theorem sound_of_readValueText {text : String} {v : Value} (h : readValueText text = .ok v) :
    v.Sound := by
  unfold readValueText at h
  cases found : read text with
  | error e =>
    rw [found] at h
    cases h
  | ok tree =>
    rw [found] at h
    cases h
    exact sound_toValue tree

end Json

namespace Context

/-- All values of a context are plain. -/
structure Sound (c : Context) : Prop where
  root : ∀ entry ∈ c.root, entry.2.Sound
  scopes : ∀ scope ∈ c.scopes, ∀ entry ∈ scope.2, entry.2.Sound

theorem Sound.set {c : Context} (h : c.Sound) (name : String) {v : Value} (sound : v.Sound) :
    (c.set name v).Sound := by
  refine ⟨?_, h.scopes⟩
  intro entry mem
  rcases Entries.mem_insert mem with rfl | mem
  · exact sound
  · exact h.root entry mem

theorem Sound.addMember {c : Context} (h : c.Sound) (key : String) {v : Value} (sound : v.Sound) :
    (c.addMember key v).Sound := by
  unfold Context.addMember
  split
  · rename_i scope entries _
    refine ⟨h.root, ?_⟩
    intro entered mem entry inside
    rcases Entries.mem_insert mem with rfl | mem
    · cases sound with
      | dictionary _ _ values => exact values entry inside
    · exact h.scopes entered mem entry inside
  · exact h.set key sound

theorem sound_of_ofJson {text : String} {c : Context} (h : ofJson text = .ok c) : c.Sound := by
  unfold ofJson at h
  split at h
  · cases h
  · rename_i entries found
    cases h
    have all : ∀ entry ∈ entries, entry.2.Sound := by
      cases Json.sound_of_readValueText found with
      | dictionary _ _ values => exact values
    have members (c : Context) (sound : c.Sound) :
        (entries.foldl (fun context entry => context.addMember entry.1 entry.2) c).Sound := by
      clear found
      induction entries generalizing c with
      | nil => exact sound
      | cons entry entries ih =>
        have first := sound.addMember entry.1 (all entry List.mem_cons_self)
        exact ih (fun other mem => all other (.tail _ mem)) _ first
    exact members {} ⟨by simp, by simp⟩
  · cases h

theorem Sound.of_scope? {c : Context} (h : c.Sound) {name : String} {values : Entries Value}
    (found : c.scope? name = some values) : ∀ entry ∈ values, entry.2.Sound :=
  h.scopes _ (Entries.mem_of_find? found)

theorem splitKey?_of_isName {s : String} (h : Text.IsName s) : splitKey? s = none := by
  unfold splitKey?
  split
  · rename_i rest eq
    exact absurd eq (Text.not_dollar_of_isName h _)
  · rfl

theorem splitKey?_scoped {scope : String} (h : Text.IsName scope) (member : String) :
    splitKey? ("$" ++ scope ++ "." ++ member) = some (scope, member) := by
  have plain : ∀ c ∈ scope.toList, (c != '.') = true := by
    intro c mem
    exact bne_iff_ne.mpr (Text.not_dot_of_isName h c mem)
  have shape : ("$" ++ scope ++ "." ++ member).toList =
      '$' :: (scope.toList ++ '.' :: member.toList) := by
    simp
  unfold splitKey?
  rw [shape]
  simp only
  rw [List.dropWhile_append_of_pos plain, List.takeWhile_append_of_pos plain]
  simp

/-- A variable whose root key is provided has a value, up to its path. -/
theorem Sound.get?_of_provides {c : Context} (h : c.Sound) {v : Variable} (spelled : v.Spelled)
    (provided : c.provides v.rootKey = true) :
    ∃ base : Value, base.Sound ∧ c.get? v = base.walk? v.path := by
  have member : Text.IsName v.member := spelled.member.1
  have atRoot (key : v.rootKey = v.member) :
      ∃ base : Value, base.Sound ∧ c.root.find? v.member = some base := by
    unfold provides at provided
    rw [key, splitKey?_of_isName member] at provided
    obtain ⟨base, found⟩ := Option.isSome_iff_exists.mp provided
    exact ⟨base, h.root _ (Entries.mem_of_find? found), found⟩
  unfold get?
  cases scope : v.scope with
  | none =>
    obtain ⟨base, sound, found⟩ := atRoot (by rw [Variable.rootKey, scope])
    exact ⟨base, sound, by simp [found]⟩
  | some name =>
    by_cases own : name = Variable.ownScope
    · obtain ⟨base, sound, found⟩ := atRoot (by simp [Variable.rootKey, scope, own])
      exact ⟨base, sound, by simp [found, own]⟩
    · have key : v.rootKey = "$" ++ name ++ "." ++ v.member := by
        simp [Variable.rootKey, scope, own]
      unfold provides at provided
      rw [key, splitKey?_scoped (spelled.scope name scope)] at provided
      cases values : c.scope? name with
      | none => simp [values] at provided
      | some entries =>
        simp only [values, Option.map_some, Option.getD_some] at provided
        obtain ⟨base, found⟩ := Option.isSome_iff_exists.mp provided
        have sound := h.of_scope? values _ (Entries.mem_of_find? found)
        exact ⟨base, sound, by simp [own, values, found]⟩

theorem provides_of_missing {c : Context} {keys : NameSet} (h : c.missing keys = []) :
    ∀ key ∈ keys, c.provides key = true := by
  intro key mem
  have all := List.filter_eq_nil_iff.mp h key mem
  simpa using all

end Context

namespace Variable

theorem count_dot_of_isName {s : String} (h : Text.IsName s) : s.toList.count '.' = 0 :=
  List.count_eq_zero.mpr fun mem => Text.not_dot_of_isName h _ mem rfl

/-- The part of a text before the member. -/
def start (v : Variable) : String :=
  match v.scope with
  | none => ""
  | some scope => if scope = ownScope then ownScope ++ "." else "$" ++ scope ++ "."

theorem toList_text (v : Variable) : v.text.toList =
    v.start.toList ++ v.member.toList ++ v.path.flatMap fun step => '.' :: step.toList := by
  have steps (path : List String) : (String.join (path.map ("." ++ ·))).toList =
      path.flatMap fun step => '.' :: step.toList := by
    induction path with
    | nil => rfl
    | cons step path ih => simp [String.join_cons, ih]
  change (v.start ++ v.member ++ String.join (v.path.map ("." ++ ·))).toList = _
  rw [String.toList_append, String.toList_append, steps]

theorem count_dot_start {v : Variable} (h : v.Spelled) :
    v.start.toList.count '.' = if v.scope.isSome then 1 else 0 := by
  unfold start
  cases scope : v.scope with
  | none => rfl
  | some name =>
    dsimp only
    split
    · rfl
    · simp [count_dot_of_isName (h.scope name scope)]

/-- The dots of a spelled variable stand behind its scope and before each step of its path. -/
theorem count_dot_text {v : Variable} (h : v.Spelled) :
    v.text.toList.count '.' = (if v.scope.isSome then 1 else 0) + v.path.length := by
  have steps : (v.path.flatMap fun step => '.' :: step.toList).count '.' = v.path.length := by
    have names := h.path
    generalize v.path = path at names
    induction path with
    | nil => rfl
    | cons step path ih =>
      have first := count_dot_of_isName (names step List.mem_cons_self).1
      have more := ih fun other mem => names other (.tail _ mem)
      simp only [List.flatMap_cons, List.cons_append, List.count_cons_self, List.count_append,
        first, more, List.length_cons]
      omega
  rw [toList_text, List.count_append, List.count_append, count_dot_start h,
    count_dot_of_isName h.member.1, steps, Nat.add_zero]

/-- The text of a variable up to its first dot. -/
theorem takeWhile_text {v : Variable} (h : v.Spelled) : v.text.toList.takeWhile (· != '.') =
    match v.scope with
    | none => v.member.toList
    | some name => if name = ownScope then ownScope.toList else '$' :: name.toList := by
  have noDot {s : String} (h : Text.IsName s) : ∀ c ∈ s.toList, (c != '.') = true :=
    fun c mem => bne_iff_ne.mpr (Text.not_dot_of_isName h c mem)
  rw [toList_text]
  unfold start
  cases scope : v.scope with
  | none =>
    simp only [String.toList_empty, List.nil_append]
    rw [List.takeWhile_append_of_pos (noDot h.member.1)]
    cases v.path <;> simp
  | some name =>
    have named := noDot (h.scope name scope)
    dsimp only
    split
    · simp [ownScope]
    · simp [List.takeWhile_append_of_pos named]

/-- A variable with a path is not written like one without. -/
theorem path_of_text {v w : Variable} (hv : v.Spelled) (hw : w.Spelled) (same : v.text = w.text)
    (plain : w.path = []) : v.path = [] := by
  have dots := count_dot_text hv
  have fronts := takeWhile_text hv
  rw [same, count_dot_text hw, plain, List.length_nil] at dots
  rw [same, takeWhile_text hw] at fronts
  cases inV : v.scope with
  | some name =>
    rw [inV, Option.isSome_some, if_pos rfl] at dots
    have atMostOne : (if w.scope.isSome = true then 1 else 0) ≤ 1 := by
      split <;> decide
    exact List.eq_nil_of_length_eq_zero (by omega)
  | none =>
    cases inW : w.scope with
    | none =>
      rw [inV, inW] at dots
      exact List.eq_nil_of_length_eq_zero (by simpa using dots.symm)
    | some name =>
      -- then the scope would be the member of the other
      rw [inV, inW] at fronts
      dsimp only at fronts
      split at fronts
      · have member : v.member = ownScope := String.toList_injective fronts.symm
        have word := hv.member.2
        rw [member] at word
        exact absurd word (by decide)
      · exact absurd fronts.symm (Text.not_dollar_of_isName hv.member.1 _)

end Variable
namespace Rendering

variable (r : Rendering)

/-- The value of a variable, if there is one. -/
def find? (s : RenderState) (v : Variable) : Option Value :=
  match v.scope, s.local? v.member with
  | none, some value => value.walk? v.path
  | _, _ => r.context.get? v

/-- A variable without value is an error in strict mode, and nil otherwise. -/
theorem env_eq (s : RenderState) (v : Variable) : r.env s v =
    match r.find? s v with
    | some value => value
    | none => if r.config.strict then .error (.missingVariable v.text) else .nil := rfl

end Rendering

end Stencil
