import Stencil.Proofs.CoreBlocks
import Stencil.Proofs.ScopeArray

/-!
# Declared names

The parser takes a variable for a local one where a declaration is in effect; any other becomes
required. In the tables this shows as *coverage*: every table has names that are known where it is
entered, the declarations of the table add to them, and each variable of an expression is known or
required. A table is entered behind a node that makes its names known.
-/

namespace Stencil

namespace Variable

/-- A variable is one of some names, or the context has to provide it. -/
def Covered (required : NameSet) (names : List String) (v : Variable) : Prop :=
  v.scope = none ∧ v.member ∈ names ∨ v.rootKey ∈ required

theorem Covered.mono {required more : NameSet} {names others : List String} {v : Variable}
    (h : v.Covered required names) (grow : required ⊆ more) (known : names ⊆ others) :
    v.Covered more others :=
  h.imp (fun h => ⟨h.1, known h.2⟩) fun mem => grow mem

end Variable

/-- A settled expression all of whose variables are covered. -/
structure Expr.Covered (required : NameSet) (names : List String) (e : Expr) : Prop where
  settled : e.Settled
  vars : ∀ v ∈ e.vars, v.Covered required names

theorem Expr.Covered.mono {required more : NameSet} {names others : List String} {e : Expr}
    (h : e.Covered required names) (grow : required ⊆ more) (known : names ⊆ others) :
    e.Covered more others :=
  ⟨h.settled, fun v mem => (h.vars v mem).mono grow known⟩

namespace Node

/-- The expressions of a node. -/
def exprs : Node → List Expr
  | output e => [e]
  | declare _ _ value => value.toList
  | assign v _ value => [value, .var v]
  | block _ _ _ args => args.values
  | define _ value => value.toList
  | evaluate _ default => default.toList
  | raw _ | inline _ _ | encode _ _ | scope _ => []

/-- The names that a node declares in the table it stands in. -/
def declares : Node → List String
  | declare name _ _ => [name]
  | _ => []

/-- The node before a scope binds a name in each pass over the table of the scope. -/
def Binds : Option Node → String → Prop
  | some (block _ _ behaviour _), name => behaviour.Binds name
  | _, _ => False

/-- The node before a scope is a place, whose table was parsed by itself. -/
def FromElsewhere (before : Option Node) : Prop := (before.bind place?).isSome = true

/-- The expressions of a node are covered, what it assigns is known, and so is what is known where
its table is entered. Into a table of the same source all names are carried. A block is of the core
registry. -/
structure Covered (required : NameSet) (known : Nat → List String) (before : Option Node)
    (names : List String) (node : Node) : Prop where
  exprs : ∀ e ∈ node.exprs, e.Covered required names
  assigned : ∀ v op value, node = .assign v op value → v.isAtomic = true ∧ v.member ∈ names
  entered : ∀ table, node = .scope (some table) → ∀ name ∈ known table,
    name ∈ names ∨ Binds before name
  carried : ∀ table, node = .scope (some table) → ¬FromElsewhere before → ∀ name,
    name ∈ names ∨ Binds before name → name ∈ known table
  made : ∀ tag chained behaviour args, node = .block tag chained behaviour args →
    ∃ declared, Block.Made tag ⟨behaviour, args, declared⟩

/-- A node that is no assignment, no block and no scope. -/
def passive : Node → Bool
  | assign .. | block .. | scope _ => false
  | _ => true

theorem Covered.mono {required more : NameSet} {known : Nat → List String} {before : Option Node}
    {names : List String} {node : Node} (h : node.Covered required known before names)
    (grow : required ⊆ more) : node.Covered more known before names :=
  { h with exprs := fun e mem => (h.exprs e mem).mono grow (List.Subset.refl _) }

/-- Of a passive node only the expressions count. -/
theorem covered_of_passive {required : NameSet} {known : Nat → List String} {before : Option Node}
    {names : List String} {node : Node} (passive : node.passive = true)
    (exprs : ∀ e ∈ node.exprs, e.Covered required names) :
    node.Covered required known before names where
  exprs := exprs
  assigned := by
    rintro v op value rfl
    cases passive
  entered := by
    rintro table rfl
    cases passive
  carried := by
    rintro table rfl
    cases passive
  made := by
    rintro tag chained behaviour args rfl
    cases passive

theorem covered_raw {required : NameSet} {known : Nat → List String} {before : Option Node}
    {names : List String} (text : String) : (Node.raw text).Covered required known before names :=
  covered_of_passive rfl (by simp [exprs])

theorem covered_scope_none {required : NameSet} {known : Nat → List String} {before : Option Node}
    {names : List String} : (Node.scope none).Covered required known before names :=
  ⟨by simp [exprs], by rintro v op value ⟨⟩, by rintro table ⟨⟩, by rintro table ⟨⟩,
    by rintro tag chained behaviour args ⟨⟩⟩

/-- Nodes in order, each with the names that are known there. -/
def AllCovered (required : NameSet) (known : Nat → List String) :
    (before : Option Node) → (names : List String) → List Node → Prop
  | _, _, [] => True
  | before, names, node :: rest =>
    node.Covered required known before names ∧
      AllCovered required known (some node) (node.declares ++ names) rest

/-- The names that are known behind nodes. -/
def namesAfter (names : List String) (nodes : List Node) : List String :=
  nodes.foldl (fun names node => node.declares ++ names) names

theorem namesAfter_append (names : List String) (front more : List Node) :
    namesAfter names (front ++ more) = namesAfter (namesAfter names front) more := by
  simp [namesAfter]

theorem subset_namesAfter (names : List String) (nodes : List Node) :
    names ⊆ namesAfter names nodes := by
  induction nodes generalizing names with
  | nil => exact List.Subset.refl _
  | cons node nodes ih =>
    exact List.Subset.trans (List.subset_append_right _ _) (ih (node.declares ++ names))

variable {required more : NameSet} {known : Nat → List String} {before : Option Node}
  {names : List String} {front nodes : List Node}

theorem allCovered_append : AllCovered required known before names (front ++ nodes) ↔
    AllCovered required known before names front ∧
      AllCovered required known (front.getLast?.or before) (namesAfter names front) nodes := by
  induction front generalizing before names with
  | nil => simp [AllCovered, namesAfter]
  | cons node front ih =>
    have last : (node :: front).getLast?.or before = front.getLast?.or (some node) := by
      rw [List.getLast?_cons]
      cases front.getLast? <;> rfl
    rw [last]
    simp only [List.cons_append, AllCovered, ih, and_assoc]
    rfl

theorem AllCovered.mono (h : AllCovered required known before names nodes)
    (grow : required ⊆ more) : AllCovered more known before names nodes := by
  induction nodes generalizing before names with
  | nil => trivial
  | cons node nodes ih => exact ⟨h.1.mono grow, ih h.2⟩

/-- Only the names at the entries of the tables that are referred to count. -/
theorem AllCovered.congr {known' : Nat → List String}
    (h : AllCovered required known before names nodes)
    (same : ∀ table, .scope (some table) ∈ nodes → known' table = known table) :
    AllCovered required known' before names nodes := by
  induction nodes generalizing before names with
  | nil => trivial
  | cons node nodes ih =>
    have later : ∀ table, .scope (some table) ∈ nodes → known' table = known table :=
      fun table mem => same table (.tail _ mem)
    refine ⟨⟨h.1.exprs, h.1.assigned, ?_, ?_, h.1.made⟩, ih h.2 later⟩
    · intro table eq
      rw [same table (eq ▸ List.mem_cons_self)]
      exact h.1.entered table eq
    · intro table eq
      rw [same table (eq ▸ List.mem_cons_self)]
      exact h.1.carried table eq

theorem namesAfter_appendRaw (text : String) :
    namesAfter names (Draft.appendRaw text nodes) = namesAfter names nodes := by
  unfold Draft.appendRaw
  split
  · rename_i old last
    obtain ⟨front, rfl⟩ := List.getLast?_eq_some_iff.mp last
    simp [namesAfter, declares]
  · simp [namesAfter, declares]

theorem AllCovered.appendRaw (h : AllCovered required known before names nodes) (text : String) :
    AllCovered required known before names (Draft.appendRaw text nodes) := by
  unfold Draft.appendRaw
  split
  · rename_i old last
    obtain ⟨front, rfl⟩ := List.getLast?_eq_some_iff.mp last
    rw [List.dropLast_concat]
    exact allCovered_append.mpr ⟨(allCovered_append.mp h).1, covered_raw _, trivial⟩
  · exact allCovered_append.mpr ⟨h, covered_raw _, trivial⟩

end Node

end Stencil
