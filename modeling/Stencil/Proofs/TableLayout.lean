import Mathlib.Data.List.Forall2
import Stencil.Template.Basic

/-!
# The layout of a table

A table is laid out from single nodes, places with their scope, and nodes with a body, whose scope
is filled. `Laid` builds tables from the front, the way a parse writes them. Nodes are only ever
retargeted afterwards, and a retargeted table is still laid out (`Laid.retarget`). `TableForm` says
the same by positions: what stands before and behind a node.
-/

namespace Stencil

namespace Node

/-- Whether a node has a body, whose table is named behind it. -/
def hasBody : Node → Bool
  | block .. | define _ none | encode _ _ => true
  | _ => false

def isBlock : Node → Bool
  | block .. => true
  | _ => false

/-- Whether a node is a block that goes on with a chain. -/
def isChained : Node → Bool
  | block _ chained _ _ => chained
  | _ => false

/-- Whether a node is a place for a template or a text. -/
def isPlace (node : Node) : Bool := node.place?.isSome

/-- The table that a scope names. -/
def scopeTarget? : Node → Option Nat
  | scope target => target
  | _ => none

/-- Whether a node stands for itself. -/
def isLeaf : Node → Bool
  | raw _ | output _ | declare .. | assign .. | define _ (some _) | evaluate .. => true
  | _ => false

theorem hasBody_of_isLeaf {node : Node} (h : node.isLeaf = true) : node.hasBody = false := by
  unfold isLeaf at h
  split at h <;> first | rfl | cases h

theorem isPlace_of_isLeaf {node : Node} (h : node.isLeaf = true) : node.isPlace = false := by
  unfold isLeaf at h
  split at h <;> first | rfl | cases h

theorem isChained_of_isLeaf {node : Node} (h : node.isLeaf = true) : node.isChained = false := by
  unfold isLeaf at h
  split at h <;> first | rfl | cases h

theorem scopeTarget?_of_isLeaf {node : Node} (h : node.isLeaf = true) :
    node.scopeTarget? = none := by
  unfold isLeaf at h
  split at h <;> first | rfl | cases h

theorem scopeTarget?_of_hasBody {node : Node} (h : node.hasBody = true) :
    node.scopeTarget? = none := by
  unfold hasBody at h
  split at h <;> first | rfl | cases h

theorem isPlace_of_hasBody {node : Node} (h : node.hasBody = true) : node.isPlace = false := by
  unfold hasBody at h
  split at h <;> first | rfl | cases h

/-- A node whose scope may have been filled or moved. -/
inductive Retarget : Node → Node → Prop
  | same (node : Node) : Retarget node node
  | scope {a b : Option Nat} (filled : a.isSome → b.isSome) : Retarget (.scope a) (.scope b)

theorem retarget_shift (offset : Nat) (node : Node) : Retarget node (node.shift offset) := by
  unfold shift
  split
  · exact .scope id
  · exact .same node

theorem retarget_fillPlaces (place : String × Bool) (table : Nat) (nodes : List Node) :
    List.Forall₂ Retarget nodes (fillPlaces place table nodes) := by
  fun_induction fillPlaces place table nodes with
  | case1 node rest h ih => exact .cons (.same node) (.cons (.scope (by simp)) ih)
  | case2 node rest h ih => exact .cons (.same node) ih
  | case3 node rest h ih => exact .cons (.same node) ih
  | case4 => exact .nil

theorem Retarget.eq_of_not_scope {node other : Node} (h : Retarget node other)
    (not : ∀ target, node ≠ .scope target) : other = node := by
  cases h with
  | same => rfl
  | scope => exact absurd rfl (not _)

/-- A filled place refers to the new table, any other scope to its old one. -/
theorem mem_scope_fillPlaces {place : String × Bool} {table j : Nat} {nodes : List Node}
    (h : .scope (some j) ∈ fillPlaces place table nodes) :
    .scope (some j) ∈ nodes ∨ j = table := by
  fun_induction fillPlaces place table nodes with
  | case1 node rest _ ih =>
    simp only [List.mem_cons, Node.scope.injEq, Option.some.injEq] at h ⊢
    rcases h with h | h | h
    · exact .inl (.inl h)
    · exact .inr h
    · exact (ih h).imp_left (fun m => .inr (.inr m))
  | case2 node rest _ ih =>
    rcases List.mem_cons.mp h with h | h
    · exact .inl (h ▸ List.mem_cons_self)
    · exact (ih h).imp_left (.tail _)
  | case3 node rest _ ih =>
    rcases List.mem_cons.mp h with h | h
    · exact .inl (h ▸ List.mem_cons_self)
    · exact (ih h).imp_left (.tail _)
  | case4 => cases h

theorem mem_scope_map_shift {offset j : Nat} {nodes : List Node}
    (h : .scope (some j) ∈ nodes.map (shift offset)) :
    ∃ k, .scope (some k) ∈ nodes ∧ j = k + offset := by
  obtain ⟨node, mem, eq⟩ := List.mem_map.mp h
  unfold shift at eq
  split at eq
  · rename_i k
    cases eq
    exact ⟨k, mem, rfl⟩
  · rename_i not
    subst eq
    exact absurd rfl (not j)

end Node

/-- Nodes that end with the body of a block. -/
def EndsInBlock (nodes : List Node) : Prop :=
  ∃ front block target, nodes = front ++ [block, .scope (some target)] ∧ block.isBlock = true

/-- Nodes in the order and in the groups in which a parse writes them. -/
inductive Laid : List Node → Prop
  | nil : Laid []
  | leaf {front : List Node} {node : Node} (before : Laid front) (single : node.isLeaf = true) :
      Laid (front ++ [node])
  | place {front : List Node} {file : String} {asRaw : Bool} {target : Option Nat}
      (before : Laid front) : Laid (front ++ [.inline file asRaw, .scope target])
  | body {front : List Node} {node : Node} {target : Nat} (before : Laid front)
      (opens : node.hasBody = true) (linked : node.isChained = true → EndsInBlock front) :
      Laid (front ++ [node, .scope (some target)])

theorem forall₂_append_inv {α β : Type} {R : α → β → Prop} {a b : List α} {ys : List β}
    (h : List.Forall₂ R (a ++ b) ys) :
    ∃ c d, ys = c ++ d ∧ List.Forall₂ R a c ∧ List.Forall₂ R b d := by
  induction a generalizing ys with
  | nil => exact ⟨[], ys, rfl, .nil, h⟩
  | cons x a ih =>
    cases h with
    | cons hx rest =>
      obtain ⟨c, d, rfl, hc, hd⟩ := ih rest
      exact ⟨_ :: c, d, rfl, .cons hx hc, hd⟩

theorem EndsInBlock.retarget {xs ys : List Node} (h : EndsInBlock xs)
    (r : List.Forall₂ Node.Retarget xs ys) : EndsInBlock ys := by
  obtain ⟨front, block, target, rfl, isBlock⟩ := h
  obtain ⟨front', last, rfl, _, rl⟩ := forall₂_append_inv r
  obtain _ | ⟨rb, _ | ⟨rs, _ | _⟩⟩ := rl
  have same := rb.eq_of_not_scope (by rintro _ rfl; cases isBlock)
  subst same
  cases rs with
  | same => exact ⟨front', _, target, rfl, isBlock⟩
  | scope filled =>
    obtain ⟨b, rfl⟩ := Option.isSome_iff_exists.mp (filled rfl)
    exact ⟨front', _, b, rfl, isBlock⟩

/-- A table stays laid out when scopes are filled or moved. -/
theorem Laid.retarget {xs ys : List Node} (h : Laid xs) (r : List.Forall₂ Node.Retarget xs ys) :
    Laid ys := by
  induction h generalizing ys with
  | nil => cases r; exact .nil
  | leaf _ single ih =>
    obtain ⟨front', last, rfl, rf, rl⟩ := forall₂_append_inv r
    obtain _ | ⟨rn, _ | _⟩ := rl
    have same := rn.eq_of_not_scope (by rintro _ rfl; cases single)
    subst same
    exact .leaf (ih rf) single
  | place _ ih =>
    obtain ⟨front', last, rfl, rf, rl⟩ := forall₂_append_inv r
    obtain _ | ⟨rn, _ | ⟨rs, _ | _⟩⟩ := rl
    have same := rn.eq_of_not_scope (by rintro _ h; cases h)
    subst same
    cases rs with
    | same => exact .place (ih rf)
    | scope => exact .place (ih rf)
  | body _ opens linked ih =>
    obtain ⟨front', last, rfl, rf, rl⟩ := forall₂_append_inv r
    obtain _ | ⟨rn, _ | ⟨rs, _ | _⟩⟩ := rl
    have same := rn.eq_of_not_scope (by rintro _ rfl; cases opens)
    subst same
    have linked' := fun c => (linked c).retarget rf
    cases rs with
    | same => exact .body (ih rf) opens linked'
    | scope filled =>
      obtain ⟨b, rfl⟩ := Option.isSome_iff_exists.mp (filled rfl)
      exact .body (ih rf) opens linked'

/-- What stands before and behind the nodes of a table, by positions. -/
structure TableForm (nodes : List Node) : Prop where
  /-- A node with a body is followed by its filled scope. -/
  body : ∀ {k : Nat} {node : Node}, nodes[k]? = some node → node.hasBody = true →
    ∃ target, nodes[k + 1]? = some (.scope (some target))
  /-- A place is followed by its scope. -/
  place : ∀ {k : Nat} {node : Node}, nodes[k]? = some node → node.isPlace = true →
    ∃ target, nodes[k + 1]? = some (.scope target)
  /-- A scope follows a node with a body or a place. -/
  scope : ∀ {k : Nat} {target : Option Nat}, nodes[k]? = some (.scope target) →
    ∃ m node, k = m + 1 ∧ nodes[m]? = some node ∧ (node.hasBody = true ∨ node.isPlace = true)
  /-- A block that goes on with a chain follows a block and its scope. -/
  chained : ∀ {k : Nat} {node : Node}, nodes[k]? = some node → node.isChained = true →
    ∃ m block target, k = m + 2 ∧ nodes[m]? = some block ∧ block.isBlock = true ∧
      nodes[m + 1]? = some (.scope target)

theorem lt_of_getElem?_eq_some {α : Type} {xs : List α} {k : Nat} {x : α}
    (h : xs[k]? = some x) : k < xs.length :=
  (List.getElem?_eq_some_iff.mp h).1

/-- What is in a list by number is in a list that there is. -/
theorem exists_of_mem_getD {α : Type} {xs : List (List α)} {i : Nat} {x : α}
    (mem : x ∈ xs[i]?.getD []) : ∃ ys, xs[i]? = some ys ∧ x ∈ ys := by
  cases found : xs[i]? with
  | none =>
    rw [found] at mem
    cases mem
  | some ys =>
    rw [found] at mem
    exact ⟨ys, rfl, mem⟩

/-- More nodes at the end keep the form, if they have it themselves at their positions. -/
theorem TableForm.append {front more : List Node} (h : TableForm front)
    (body : ∀ {k : Nat} {node : Node}, more[k]? = some node → node.hasBody = true →
      ∃ target, more[k + 1]? = some (.scope (some target)))
    (place : ∀ {k : Nat} {node : Node}, more[k]? = some node → node.isPlace = true →
      ∃ target, more[k + 1]? = some (.scope target))
    (scope : ∀ {k : Nat} {target : Option Nat}, more[k]? = some (.scope target) →
      ∃ m node, k = m + 1 ∧ more[m]? = some node ∧ (node.hasBody = true ∨ node.isPlace = true))
    (chained : ∀ {k : Nat} {node : Node}, more[k]? = some node → node.isChained = true →
      k = 0 ∧ EndsInBlock front) : TableForm (front ++ more) := by
  have left {k : Nat} {x : Node} (hx : front[k]? = some x) : (front ++ more)[k]? = some x := by
    rw [List.getElem?_append_left (lt_of_getElem?_eq_some hx), hx]
  have right (k : Nat) : (front ++ more)[front.length + k]? = more[k]? := by
    rw [List.getElem?_append_right (by omega), Nat.add_sub_cancel_left]
  have split {k : Nat} {x : Node} (hx : (front ++ more)[k]? = some x) :
      front[k]? = some x ∨ ∃ m, k = front.length + m ∧ more[m]? = some x := by
    by_cases hk : k < front.length
    · exact .inl (by rwa [List.getElem?_append_left hk] at hx)
    · refine .inr ⟨k - front.length, by omega, ?_⟩
      rwa [List.getElem?_append_right (by omega)] at hx
  refine ⟨fun hx opens => ?_, fun hx isPlace => ?_, fun hx => ?_, fun hx isChained => ?_⟩
  · rcases split hx with hf | ⟨m, rfl, hm⟩
    · obtain ⟨target, ht⟩ := h.body hf opens
      exact ⟨target, left ht⟩
    · obtain ⟨target, ht⟩ := body hm opens
      exact ⟨target, by rw [Nat.add_assoc, right, ht]⟩
  · rcases split hx with hf | ⟨m, rfl, hm⟩
    · obtain ⟨target, ht⟩ := h.place hf isPlace
      exact ⟨target, left ht⟩
    · obtain ⟨target, ht⟩ := place hm isPlace
      exact ⟨target, by rw [Nat.add_assoc, right, ht]⟩
  · rcases split hx with hf | ⟨m, rfl, hm⟩
    · obtain ⟨m, node, rfl, hn, kind⟩ := h.scope hf
      exact ⟨m, node, rfl, left hn, kind⟩
    · obtain ⟨m, node, rfl, hn, kind⟩ := scope hm
      exact ⟨front.length + m, node, rfl, by rw [right, hn], kind⟩
  · rcases split hx with hf | ⟨m, rfl, hm⟩
    · obtain ⟨m, block, target, rfl, hb, isBlock, ht⟩ := h.chained hf isChained
      exact ⟨m, block, target, rfl, left hb, isBlock, left ht⟩
    · obtain ⟨rfl, first, block, target, rfl, isBlock⟩ := chained hm isChained
      refine ⟨first.length, block, some target, by simp, left ?_, isBlock, left ?_⟩
      · simp
      · simp

/-- A table that is laid out has the form. -/
theorem Laid.tableForm {nodes : List Node} (h : Laid nodes) : TableForm nodes := by
  induction h with
  | nil => exact ⟨by simp, by simp, by simp, by simp⟩
  | @leaf front node _ single ih =>
    have only {k : Nat} {x : Node} (hx : [node][k]? = some x) : x = node := by
      simpa using List.mem_of_getElem? hx
    refine ih.append ?_ ?_ ?_ ?_
    · intro k x hx opens
      rw [only hx, Node.hasBody_of_isLeaf single] at opens
      cases opens
    · intro k x hx isPlace
      rw [only hx, Node.isPlace_of_isLeaf single] at isPlace
      cases isPlace
    · intro k target hx
      rw [← only hx] at single
      cases single
    · intro k x hx isChained
      rw [only hx, Node.isChained_of_isLeaf single] at isChained
      cases isChained
  | @place front file asRaw target _ ih =>
    refine ih.append ?_ ?_ ?_ ?_
    · rintro (_ | _ | k) x hx opens <;> cases hx <;> cases opens
    · rintro (_ | _ | k) x hx isPlace
      · exact ⟨target, rfl⟩
      · cases hx; cases isPlace
      · cases hx
    · rintro (_ | _ | k) x hx
      · cases hx
      · exact ⟨0, _, rfl, rfl, .inr rfl⟩
      · cases hx
    · rintro (_ | _ | k) x hx isChained <;> cases hx <;> cases isChained
  | @body front node target _ opens linked ih =>
    refine ih.append ?_ ?_ ?_ ?_
    · rintro (_ | _ | k) x hx hasBody
      · exact ⟨target, rfl⟩
      · cases hx; cases hasBody
      · cases hx
    · rintro (_ | _ | k) x hx isPlace
      · cases hx
        rw [Node.isPlace_of_hasBody opens] at isPlace
        cases isPlace
      · cases hx; cases isPlace
      · cases hx
    · rintro (_ | _ | k) x hx
      · cases hx
        cases opens
      · exact ⟨0, node, rfl, rfl, .inl opens⟩
      · cases hx
    · rintro (_ | _ | k) x hx isChained
      · cases hx
        exact ⟨rfl, linked isChained⟩
      · cases hx; cases isChained
      · cases hx

end Stencil
