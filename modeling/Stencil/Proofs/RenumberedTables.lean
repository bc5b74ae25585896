import Stencil.Proofs.TableLayout
import Stencil.Template.Printer

/-!
# Renumbered tables

Two templates whose tables are the same but for their numbers. A relation says which numbers belong
together: related tables have the same nodes, and the scopes in them name related tables. Printing
follows scopes and shows no numbers, so both are printed alike.
-/

namespace Stencil

namespace Node

/-- Nodes that are the same but for the table that a scope names. -/
inductive Renamed (B : Nat → Nat → Prop) : Node → Node → Prop
  | same {node : Node} (other : ∀ target, node ≠ .scope target) : Renamed B node node
  | scope {target target' : Option Nat} (named : Option.Rel B target target') :
      Renamed B (.scope target) (.scope target')

namespace Renamed

variable {B : Nat → Nat → Prop} {node node' : Node} {nodes nodes' : List Node}

theorem refl (node : Node) : Renamed Eq node node := by
  cases node with
  | scope target =>
    refine .scope ?_
    cases target with
    | none => exact .none
    | some => exact .some rfl
  | _ => exact .same fun _ => by rintro ⟨⟩

theorem continuesChain_eq (h : List.Forall₂ (Renamed B) nodes nodes') :
    continuesChain nodes' = continuesChain nodes := by
  cases h with
  | nil => rfl
  | @cons node _ _ _ first =>
    cases first with
    | same =>
      cases node with
      | block name chained => cases chained <;> rfl
      | _ => rfl
    | scope => rfl

theorem endName?_eq (h : List.Forall₂ (Renamed B) nodes nodes') (chain : Option String)
    (node : Node) : node.endName? chain nodes' = node.endName? chain nodes := by
  unfold endName?
  rw [continuesChain_eq h]

/-- A scope that comes up was one. -/
theorem exists_scope {target' : Option Nat} {more' : List Node}
    (h : List.Forall₂ (Renamed B) nodes (.scope target' :: more')) :
    ∃ target more, nodes = .scope target :: more ∧ Option.Rel B target target' := by
  obtain _ | ⟨first, behind⟩ := h
  cases first with
  | same other => exact absurd rfl (other target')
  | scope named => exact ⟨_, _, rfl, named⟩

/-- A node with the scope of its table. -/
theorem exists_body {i : Nat} {rest : List Node}
    (h : List.Forall₂ (Renamed B) (node :: .scope (some i) :: rest) nodes')
    (other : ∀ target, node ≠ .scope target) :
    ∃ j rest', nodes' = node :: .scope (some j) :: rest' ∧ B i j ∧
      List.Forall₂ (Renamed B) rest rest' := by
  obtain _ | ⟨first, _ | ⟨second, behind⟩⟩ := h
  cases first with
  | scope => exact absurd rfl (other _)
  | same =>
    cases second with
    | same not => exact absurd rfl (not _)
    | scope named =>
      cases named with
      | some named => exact ⟨_, _, rfl, named, behind⟩

end Renamed

end Node

/-- Two templates with tables that belong together. -/
structure Template.Renumbered (B : Nat → Nat → Prop) (t u : Template) : Prop where
  name : u.name = t.name
  indicator : u.indicator = t.indicator
  length : u.tables.length = t.tables.length
  start : B 0 0
  tables : ∀ {i j : Nat}, B i j → List.Forall₂ (Node.Renamed B) (t.table i) (u.table j)

theorem Template.Renumbered.refl (t : Template) : t.Renumbered Eq t where
  name := rfl
  indicator := rfl
  length := rfl
  start := rfl
  tables same := by
    rw [same]
    exact List.forall₂_same.mpr fun node _ => .refl node

section Printing

variable {B : Nat → Nat → Prop} {nodes nodes' : List Node} {table table' : Nat → Bool → Printed}

/-- Nodes are printed alike, if the tables that they name are. By induction on their number, as a
node is printed together with the scope behind it. -/
theorem printNodes_renamed (indicator : Char)
    (tables : ∀ {i j : Nat}, B i j → table' j = table i)
    (h : List.Forall₂ (Node.Renamed B) nodes nodes') (chain : Option String) :
    printNodes indicator table' nodes' chain = printNodes indicator table nodes chain := by
  have targets {target target' : Option Nat} (named : Option.Rel B target target') :
      printNodes.printTarget table' target' = printNodes.printTarget table target := by
    funext bare
    cases named with
    | none => rfl
    | some named => exact congrFun (tables named) bare
  induction size : nodes.length using Nat.strongRecOn generalizing nodes nodes' chain with
  | ind n ih =>
    have follows {rest rest' : List Node} (h : List.Forall₂ (Node.Renamed B) rest rest')
        (shorter : rest.length < nodes.length) (chain : Option String) :
        printNodes indicator table' rest' chain = printNodes indicator table rest chain :=
      ih rest.length (size ▸ shorter) h chain rfl
    have shorter {node next : Node} {rest : List Node} :
        rest.length < (node :: next :: rest).length := by
      simp only [List.length_cons]
      omega
    funext bare
    rw [printNodes.eq_def indicator table]
    split
    · cases h
      rfl
    · obtain _ | ⟨first, behind⟩ := h
      cases first
      rw [printNodes, follows behind (by simp)]
    · obtain _ | ⟨first, behind⟩ := h
      cases first with
      | same other => exact absurd rfl (other _)
      | scope named => rw [printNodes, targets named, follows behind (by simp)]
    · obtain ⟨j, rest', rfl, named, behind⟩ :=
        Node.Renamed.exists_body h fun _ => by rintro ⟨⟩
      rw [printNodes, tables named, follows behind shorter]
    · rename_i notRaw notScope notPlace
      obtain _ | ⟨first, _ | ⟨second, behind⟩⟩ := h
      cases first with
      | scope => exact absurd rfl (notScope _)
      | same =>
        cases second with
        | same other => exact absurd rfl (other _)
        | scope named =>
          rw [printNodes, targets named, follows behind shorter, Node.Renamed.endName?_eq behind]
          · exact notRaw
          · exact notScope
          · rintro file asRaw table' rfl rfl
            cases named with
            | some => exact notPlace _ _ _ rfl rfl
    · rename_i notRaw notScope notPlace notBody
      cases h with
      | @cons _ _ _ rest' first behind =>
        have alone (target : Option Nat) (more : List Node) (eq : rest' = .scope target :: more) :
            False := by
          obtain ⟨target', more', same, -⟩ := Node.Renamed.exists_scope (eq ▸ behind)
          exact notBody target' more' same
        cases first with
        | scope => exact absurd rfl (notScope _)
        | same =>
          rw [printNodes, follows behind (by simp), Node.Renamed.endName?_eq behind]
          · exact notRaw
          · exact notScope
          · exact fun _ _ target more _ => alone (some target) more
          · exact alone

end Printing

namespace Template.Renumbered

variable {B : Nat → Nat → Prop} {t u : Template}

theorem printTable_eq (h : t.Renumbered B u) (levels : Nat) {i j : Nat} (named : B i j) :
    u.printTable levels j = t.printTable levels i := by
  induction levels generalizing i j with
  | zero => rfl
  | succ levels ih =>
    funext bare
    rw [printTable, printTable, h.indicator]
    have alike := printNodes_renamed t.indicator (fun named => ih named) (h.tables named) none
    exact congrFun alike bare

/-- Renumbered templates are printed alike. -/
theorem text_eq (h : t.Renumbered B u) : u.text = t.text := by
  rw [text, text, h.length, h.printTable_eq _ h.start]

end Template.Renumbered

end Stencil
