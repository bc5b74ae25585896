import Stencil.Proofs.Coverage

/-!
# Static scopes

Where a name is declared, as the text tells it. Each place in a template stands in nested scopes,
and a name refers to the innermost that declares it: as a variable, or as a constant. A table is
entered in the scopes of the place that refers to it, with a new one that has the names its block
binds; a spliced table is entered in no scope but its own.
-/

namespace Stencil

/-- The names declared in a scope, with whether they are constants. -/
abbrev Names := Entries Bool

/-- Nested scopes, the innermost first. -/
abbrev Scopes := List Names

namespace Scopes

/-- Whether a name refers to a constant, if it is declared at all. -/
def lookup? (scopes : Scopes) (name : String) : Option Bool := scopes.findSome? (·.find? name)

/-- A name is declared in one of the scopes. -/
def Declares (scopes : Scopes) (name : String) : Prop :=
  ∃ own ∈ scopes, (own.find? name).isSome = true

theorem declares_of_lookup? {scopes : Scopes} {name : String} {constant : Bool}
    (h : scopes.lookup? name = some constant) : scopes.Declares name := by
  obtain ⟨own, mem, found⟩ := List.exists_of_findSome?_eq_some h
  exact ⟨own, mem, by rw [found]; rfl⟩

theorem lookup?_cons (own : Names) (outer : Scopes) (name : String) :
    lookup? (own :: outer) name = (own.find? name).or (outer.lookup? name) := by
  unfold lookup?
  rw [List.findSome?_cons]
  cases own.find? name <;> rfl

end Scopes

namespace Node

/-- The scopes behind a node: a declaration adds to the innermost. -/
def declareIn : Node → Scopes → Scopes
  | declare name constant _, own :: outer => own.insert name constant :: outer
  | _, scopes => scopes

/-- The scopes behind nodes. -/
def scopesAfter (scopes : Scopes) (nodes : List Node) : Scopes :=
  nodes.foldl (fun scopes node => node.declareIn scopes) scopes

theorem scopesAfter_append (scopes : Scopes) (front more : List Node) :
    scopesAfter scopes (front ++ more) = scopesAfter (scopesAfter scopes front) more :=
  List.foldl_append

theorem scopesAfter_concat (scopes : Scopes) (front : List Node) (node : Node) :
    scopesAfter scopes (front ++ [node]) = node.declareIn (scopesAfter scopes front) :=
  scopesAfter_append scopes front [node]

theorem exists_of_declares {node : Node} {name : String} (h : node.declares = [name]) :
    ∃ constant value, node = .declare name constant value := by
  cases node with
  | declare other constant value =>
    cases h
    exact ⟨constant, value, rfl⟩
  | _ => cases h

theorem declareIn_of_declares {node : Node} (nothing : node.declares = []) (scopes : Scopes) :
    node.declareIn scopes = scopes := by
  cases node with
  | declare => cases nothing
  | _ => rfl

theorem tail_declareIn (node : Node) (scopes : Scopes) :
    (node.declareIn scopes).tail = scopes.tail := by
  unfold declareIn
  split <;> rfl

theorem tail_scopesAfter (scopes : Scopes) (nodes : List Node) :
    (scopesAfter scopes nodes).tail = scopes.tail := by
  induction nodes generalizing scopes with
  | nil => rfl
  | cons node nodes ih => exact (ih _).trans (node.tail_declareIn scopes)

theorem scopesAfter_of_declares {nodes : List Node} (nothing : ∀ node ∈ nodes, node.declares = [])
    (scopes : Scopes) : scopesAfter scopes nodes = scopes := by
  induction nodes generalizing scopes with
  | nil => rfl
  | cons node nodes ih =>
    change scopesAfter (node.declareIn scopes) nodes = scopes
    rw [declareIn_of_declares (nothing node List.mem_cons_self)]
    exact ih (fun other mem => nothing other (.tail _ mem)) scopes

/-- There is an innermost scope behind nodes only if there was one before them. -/
theorem eq_cons_of_scopesAfter {scopes around : Scopes} {nodes : List Node} {own : Names}
    (h : scopesAfter scopes nodes = own :: around) : scopes = scopes.headD [] :: around := by
  have tail : scopes.tail = around := by
    rw [← tail_scopesAfter scopes nodes, h]
    rfl
  cases scopes with
  | nil =>
    have none : scopesAfter [] nodes = [] := by
      clear h tail
      induction nodes with
      | nil => rfl
      | cons node nodes ih =>
        have same : node.declareIn [] = [] := by cases node <;> rfl
        change scopesAfter (node.declareIn []) nodes = []
        rw [same]
        exact ih
    rw [none] at h
    cases h
  | cons first rest =>
    rw [← tail]
    rfl

/-- What a node binds for the scope behind it, all of it constant. -/
structure BoundBy (before : Option Node) (own : Names) : Prop where
  names : ∀ name, (own.find? name).isSome = true ↔ Binds before name
  constants : ∀ name, own.find? name ≠ some false

/-- What an assignment names is a variable, a declaration is the first of its name in the scope, and
a table is entered in the scopes of its place, a spliced one in its own alone. -/
structure Scoped (env : Nat → Scopes) (before : Option Node) (scopes : Scopes) (node : Node) :
    Prop where
  assigned : ∀ v op value, node = .assign v op value → scopes.lookup? v.member = some false
  fresh : ∀ name constant value, node = .declare name constant value →
    (scopes.headD []).find? name = none
  spliced : ∀ table, node = .scope (some table) → FromElsewhere before → env table = [[]]
  entered : ∀ table, node = .scope (some table) → ¬FromElsewhere before →
    ∃ own, env table = own :: scopes ∧ BoundBy before own

/-- A node that neither assigns nor declares and enters no table. -/
def plain : Node → Bool
  | assign .. | declare .. | scope (some _) => false
  | _ => true

theorem scoped_of_plain {env : Nat → Scopes} {before : Option Node} {scopes : Scopes} {node : Node}
    (plain : node.plain = true) : node.Scoped env before scopes where
  assigned := by
    rintro v op value rfl
    cases plain
  fresh := by
    rintro name constant value rfl
    cases plain
  spliced := by
    rintro table rfl
    cases plain
  entered := by
    rintro table rfl
    cases plain

theorem declares_of_plain {node : Node} (plain : node.plain = true) : node.declares = [] := by
  cases node with
  | declare => cases plain
  | _ => rfl

/-- Nodes in order, each with the scopes it stands in. -/
def AllScoped (env : Nat → Scopes) :
    (before : Option Node) → (scopes : Scopes) → List Node → Prop
  | _, _, [] => True
  | before, scopes, node :: rest =>
    node.Scoped env before scopes ∧ AllScoped env (some node) (node.declareIn scopes) rest

variable {env env' : Nat → Scopes} {before : Option Node} {scopes : Scopes}
  {front nodes : List Node}

theorem allScoped_append : AllScoped env before scopes (front ++ nodes) ↔
    AllScoped env before scopes front ∧
      AllScoped env (front.getLast?.or before) (scopesAfter scopes front) nodes := by
  induction front generalizing before scopes with
  | nil => simp [AllScoped, scopesAfter]
  | cons node front ih =>
    have last : (node :: front).getLast?.or before = front.getLast?.or (some node) := by
      rw [List.getLast?_cons]
      cases front.getLast? <;> rfl
    rw [last]
    simp only [List.cons_append, AllScoped, ih, and_assoc]
    rfl

/-- The node behind others in a table. -/
theorem AllScoped.node {rest : List Node} {node : Node}
    (h : AllScoped env none scopes (front ++ node :: rest)) :
    node.Scoped env front.getLast? (scopesAfter scopes front) := by
  have behind := (allScoped_append.mp h).2
  rw [Option.or_none] at behind
  exact behind.1

/-- Only the scopes of the tables that are referred to count. -/
theorem AllScoped.congr (h : AllScoped env before scopes nodes)
    (same : ∀ table, .scope (some table) ∈ nodes → env' table = env table) :
    AllScoped env' before scopes nodes := by
  induction nodes generalizing before scopes with
  | nil => trivial
  | cons node nodes ih =>
    have later : ∀ table, .scope (some table) ∈ nodes → env' table = env table :=
      fun table mem => same table (.tail _ mem)
    refine ⟨⟨h.1.assigned, h.1.fresh, ?_, ?_⟩, ih h.2 later⟩
    · intro table eq elsewhere
      rw [same table (eq ▸ List.mem_cons_self)]
      exact h.1.spliced table eq elsewhere
    · intro table eq here
      rw [same table (eq ▸ List.mem_cons_self)]
      exact h.1.entered table eq here

theorem scopesAfter_appendRaw (text : String) :
    scopesAfter scopes (Draft.appendRaw text nodes) = scopesAfter scopes nodes := by
  unfold Draft.appendRaw
  split
  · rename_i old last
    obtain ⟨front, rfl⟩ := List.getLast?_eq_some_iff.mp last
    rw [List.dropLast_concat, scopesAfter_concat, scopesAfter_concat]
    rfl
  · rw [scopesAfter_concat]
    rfl

theorem AllScoped.appendRaw (h : AllScoped env before scopes nodes) (text : String) :
    AllScoped env before scopes (Draft.appendRaw text nodes) := by
  unfold Draft.appendRaw
  split
  · rename_i old last
    obtain ⟨front, rfl⟩ := List.getLast?_eq_some_iff.mp last
    rw [List.dropLast_concat]
    exact allScoped_append.mpr ⟨(allScoped_append.mp h).1, scoped_of_plain rfl, trivial⟩
  · exact allScoped_append.mpr ⟨h, scoped_of_plain rfl, trivial⟩

end Node

end Stencil
