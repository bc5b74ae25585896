import Stencil.Proofs.RereadDrafts
import Stencil.Proofs.StrippedTables

/-!
# Tables with what is spliced pasted in

A table whose places are filled, next to the table that its printed source is read as: in each place
stand the nodes of what is spliced there, bodies have tables of their own again, and raw text that
comes together is one node. `Pasted` relates the two before raw text is joined.
-/

namespace Stencil

open Node

/-- Nodes in the groups in which a parse writes them, every place filled. The first flag tells
whether the body of a block stands right in front of the nodes, the second whether it does behind
them. -/
inductive Grouped : Bool → List Node → Bool → Prop
  | nil (linked : Bool) : Grouped linked [] linked
  | leaf {linked last : Bool} {node : Node} {rest : List Node} (single : node.isLeaf = true)
      (behind : Grouped false rest last) : Grouped linked (node :: rest) last
  | place {linked last asRaw : Bool} {file : String} {table : Nat} {rest : List Node}
      (behind : Grouped false rest last) :
      Grouped linked (.inline file asRaw :: .scope (some table) :: rest) last
  | body {linked last : Bool} {node : Node} {table : Nat} {rest : List Node}
      (opens : node.hasBody = true) (chained : node.isChained = true → linked = true)
      (behind : Grouped node.isBlock rest last) :
      Grouped linked (node :: .scope (some table) :: rest) last

namespace Grouped

variable {linked last : Bool} {nodes more : List Node}

theorem append {ends : Bool} (h : Grouped linked nodes last) (behind : Grouped last more ends) :
    Grouped linked (nodes ++ more) ends := by
  induction h with
  | nil => exact behind
  | leaf single _ ih => exact .leaf single (ih behind)
  | place _ ih => exact .place (ih behind)
  | body opens chained _ ih => exact .body opens chained (ih behind)

/-- The tables of a template are grouped, once every place is filled. -/
theorem of_laid (h : Laid nodes) (filled : .scope none ∉ nodes) :
    ∃ last, Grouped false nodes last ∧ (EndsInBlock nodes → last = true) := by
  induction h with
  | nil =>
    refine ⟨false, .nil false, ?_⟩
    rintro ⟨front, block, target, eq, -⟩
    simp at eq
  | @leaf front node _ single ih =>
    obtain ⟨last, grouped, -⟩ := ih fun mem => filled (List.mem_append_left _ mem)
    refine ⟨false, grouped.append (.leaf single (.nil false)), ?_⟩
    rintro ⟨front', block, target, eq, -⟩
    rw [List.append_cons front' block] at eq
    obtain ⟨-, same⟩ := List.append_inj' eq rfl
    cases same
    cases single
  | @place front file asRaw target _ ih =>
    obtain ⟨last, grouped, -⟩ := ih fun mem => filled (List.mem_append_left _ mem)
    cases target with
    | none => exact absurd (by simp) filled
    | some target =>
      refine ⟨false, grouped.append (.place (.nil false)), ?_⟩
      rintro ⟨front', block, target', eq, isBlock⟩
      obtain ⟨-, same⟩ := List.append_inj' eq rfl
      cases same
      cases isBlock
  | @body front node target _ opens chained ih =>
    obtain ⟨last, grouped, ends⟩ := ih fun mem => filled (List.mem_append_left _ mem)
    refine ⟨node.isBlock, grouped.append (.body opens (fun c => ends (chained c)) (.nil _)), ?_⟩
    rintro ⟨front', block, target', eq, isBlock⟩
    obtain ⟨-, same⟩ := List.append_inj' eq rfl
    cases same
    exact isBlock

theorem head?_ne_scope (h : Grouped linked nodes last) (target : Option Nat) :
    nodes.head? ≠ some (.scope target) := by
  cases h with
  | nil => rintro ⟨⟩
  | leaf single =>
    rintro ⟨⟩
    cases single
  | place => rintro ⟨⟩
  | body opens =>
    rintro ⟨⟩
    cases opens

/-- Only behind the body of a block nodes go on with a chain. -/
theorem not_continuesChain (h : Grouped false nodes last) : continuesChain nodes = false := by
  cases h with
  | nil => rfl
  | leaf single => rw [Printing.continuesChain_cons, isChained_of_isLeaf single]
  | place => rfl
  | @body _ _ node _ _ opens chained =>
    rw [Printing.continuesChain_cons]
    cases goesOn : node.isChained with
    | false => rfl
    | true => exact absurd (chained goesOn) (by decide)

end Grouped

/-- What printed raw text is read as, if it is not empty. -/
def Node.rawPieces (bare : Bool) (text : String) : List Node :=
  if text = "" then [] else rereadRaw bare text

/-- A node behind a table; raw text goes on with raw text. -/
def addNode (table : List Node) : Node → List Node
  | .raw text => Draft.appendRaw text table
  | node => table ++ [node]

/-- Nodes behind a table. -/
def addNodes (table nodes : List Node) : List Node := nodes.foldl addNode table

variable {table nodes more : List Node} {node : Node}

theorem addNodes_append : addNodes table (nodes ++ more) = addNodes (addNodes table nodes) more :=
  List.foldl_append

theorem addNode_of_ne_raw (other : ∀ text, node ≠ .raw text) :
    addNode table node = table ++ [node] := by
  cases node with
  | raw text => exact absurd rfl (other text)
  | _ => rfl

theorem addNodes_body (other : ∀ text, node ≠ .raw text) (copy : Nat) :
    addNodes table [node, .scope (some copy)] = table ++ [node, .scope (some copy)] := by
  show addNode (addNode table node) (.scope (some copy)) = _
  rw [addNode_of_ne_raw other, addNode_of_ne_raw (by rintro text ⟨⟩), List.append_assoc]
  rfl

/-- Raw text is joined to raw text that is left over. -/
def joinRaw : List Char → List Node → List Node
  | run, [] => rawNode run
  | run, .raw text :: rest => joinRaw (run ++ text.toList) rest
  | run, node :: rest => rawNode run ++ node :: joinRaw [] rest

theorem joinRaw_cons (other : ∀ text, node ≠ .raw text) (run : List Char) :
    joinRaw run (node :: nodes) = rawNode run ++ node :: joinRaw [] nodes := by
  cases node with
  | raw text => exact absurd rfl (other text)
  | _ => rfl

/-- The nodes of a table, with raw text joined. -/
theorem addNodes_eq_joinRaw (nonempty : .raw "" ∉ nodes) (last : EndsPlain table)
    (run : List Char) : addNodes (table ++ rawNode run) nodes = table ++ joinRaw run nodes := by
  induction nodes generalizing table run with
  | nil => rfl
  | cons node nodes ih =>
    have behind : .raw "" ∉ nodes := fun mem => nonempty (.tail _ mem)
    by_cases isRaw : ∃ text, node = .raw text
    · obtain ⟨text, rfl⟩ := isRaw
      have some : text.toList ≠ [] := by
        intro empty
        rw [String.toList_eq_nil_iff.mp empty] at nonempty
        exact nonempty List.mem_cons_self
      have joined : addNode (table ++ rawNode run) (.raw text) =
          table ++ rawNode (run ++ text.toList) := by
        have appended := appendRaw_rawNode last some run
        rwa [String.ofList_toList] at appended
      show addNodes (addNode (table ++ rawNode run) (.raw text)) nodes = _
      rw [joined, ih behind last]
      rfl
    · have other : ∀ text, node ≠ .raw text := fun text eq => isRaw ⟨text, eq⟩
      have behindNode := ih behind (endsPlain_concat other (table ++ rawNode run)) []
      show addNodes (addNode (table ++ rawNode run) node) nodes = _
      rw [addNode_of_ne_raw other, joinRaw_cons other]
      simpa [rawNode] using behindNode

theorem addNodes_nil (nonempty : .raw "" ∉ nodes) : addNodes [] nodes = joinRaw [] nodes := by
  have none : EndsPlain [] := by
    rintro text ⟨⟩
  exact addNodes_eq_joinRaw nonempty none []

/-- Nodes whose places are filled, given the tables around them, and the nodes that their printed
source is read as, given the tables that are read; raw text is not joined yet. -/
inductive Pasted (tables copies : Nat → List Node) : Bool → List Node → List Node → Prop
  | nil {linked : Bool} : Pasted tables copies linked [] []
  | raw {linked : Bool} {text : String} {rest more : List Node} (bare : Bool)
      (behind : Pasted tables copies false rest more) :
      Pasted tables copies linked (.raw text :: rest) (rawPieces bare text ++ more)
  | leaf {linked : Bool} {node : Node} {rest more : List Node} (single : node.isLeaf = true)
      (other : ∀ text, node ≠ .raw text) (behind : Pasted tables copies false rest more) :
      Pasted tables copies linked (node :: rest) (node.reread :: more)
  | place {linked asRaw : Bool} {file : String} {table : Nat} {inner rest more : List Node}
      (part : Pasted tables copies false (tables table) inner)
      (behind : Pasted tables copies false rest more) :
      Pasted tables copies linked (.inline file asRaw :: .scope (some table) :: rest)
        (inner ++ more)
  | body {linked : Bool} {node : Node} {table copy : Nat} {inner rest more : List Node}
      (opens : node.hasBody = true) (chained : node.isChained = true → linked = true)
      (same : copies copy = addNodes [] inner)
      (inside : Pasted tables copies false (tables table) inner)
      (behind : Pasted tables copies node.isBlock rest more) :
      Pasted tables copies linked (node :: .scope (some table) :: rest)
        (node.reread :: .scope (some copy) :: more)

theorem Node.nonempty_rawPieces (bare : Bool) (text : String) : .raw "" ∉ rawPieces bare text := by
  unfold rawPieces
  split
  · exact List.not_mem_nil
  · rename_i some
    have whole : Node.raw "" ∉ [Node.raw text] := fun mem =>
      some (Node.raw.inj (List.mem_singleton.mp mem)).symm
    unfold rereadRaw
    split
    · exact whole
    · rename_i c rest _
      split
      · intro mem
        rcases List.mem_cons.mp mem with eq | mem
        · cases eq
        · cases rest with
          | nil => cases mem
          | cons d rest =>
            have eq := Node.raw.inj (List.mem_singleton.mp mem)
            exact absurd eq.symm (by simp)
      · exact whole

/-- No empty text is read. -/
theorem Pasted.nonempty {tables copies : Nat → List Node} {linked : Bool}
    (h : Pasted tables copies linked nodes more) : .raw "" ∉ more := by
  induction h with
  | nil => simp
  | raw bare _ ih => simp [nonempty_rawPieces, ih]
  | leaf _ other _ ih =>
    simp [ih, Ne.symm (reread_ne_raw other "")]
  | place _ _ part ih => simp [part, ih]
  | @body _ node _ _ _ _ _ opens _ _ _ _ _ ih =>
    have other : node.reread ≠ .raw "" := by
      cases node with
      | raw => cases opens
      | _ => rintro ⟨⟩
    simp [ih, Ne.symm other]

end Stencil
