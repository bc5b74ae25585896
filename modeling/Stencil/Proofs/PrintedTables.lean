import Stencil.Proofs.ScopeArray
import Stencil.Template.Printer

/-!
# Tables printed node by node

Nodes can be printed in the order in which a parse writes them. Between two nodes the printer knows
what is printed so far, the chain that is open, and the end tag that is due unless the next node
goes on with the chain. A table of a parsed template comes out as the printer of templates prints
it.
-/

namespace Stencil

/-- Nodes as a parse writes them: raw text is not empty and stands alone, and nothing is spliced
into a place. -/
inductive Fresh : List Node → Prop
  | nil : Fresh []
  | raw {front : List Node} {text : String} (before : Fresh front) (nonempty : text ≠ "")
      (last : ∀ other, front.getLast? ≠ some (.raw other)) : Fresh (front ++ [.raw text])
  | leaf {front : List Node} {node : Node} (before : Fresh front) (single : node.isLeaf = true)
      (other : ∀ text, node ≠ .raw text) : Fresh (front ++ [node])
  | place {front : List Node} {file : String} {asRaw : Bool} (before : Fresh front) :
      Fresh (front ++ [.inline file asRaw, .scope none])
  | body {front : List Node} {node : Node} {target : Nat} (before : Fresh front)
      (opens : node.hasBody = true) (linked : node.isChained = true → EndsInBlock front) :
      Fresh (front ++ [node, .scope (some target)])

theorem Fresh.appendRaw {nodes : List Node} (h : Fresh nodes) {text : String}
    (nonempty : text ≠ "") :
    Fresh (Draft.appendRaw text nodes) := by
  cases last : nodes.getLast? with
  | none =>
    rw [List.getLast?_eq_none_iff.mp last]
    exact .raw .nil nonempty (by rintro other ⟨⟩)
  | some node =>
    by_cases raw : ∃ before, node = .raw before
    · obtain ⟨before, rfl⟩ := raw
      have longer : before ++ text ≠ "" := fun empty =>
        nonempty (String.append_eq_empty_iff.mp empty).2
      cases h with
      | nil => cases last
      | @raw front old older _ alone =>
        have same : old = before := by simpa using last
        subst same
        have joined := Fresh.raw older longer alone
        simpa [Draft.appendRaw] using joined
      | leaf _ _ other => exact absurd (by simpa using last) (other before)
      | place => simp at last
      | body => simp at last
    · have behind : Draft.appendRaw text nodes = nodes ++ [.raw text] := by
        unfold Draft.appendRaw
        rw [last]
        split
        · rename_i before eq
          exact absurd ⟨before, Option.some.inj eq⟩ raw
        · rfl
      rw [behind]
      refine .raw h nonempty fun other eq => raw ⟨other, ?_⟩
      rw [last] at eq
      exact Option.some.inj eq

/-- What is printed in front of a node. -/
@[ext]
structure Printing where
  text : String := ""
  bare : Bool := false
  chain : Option String := none
  due : Option String := none

namespace Printing

/-- Prints the end tag that is due. -/
def settle (indicator : Char) (p : Printing) : Printing :=
  match p.due with
  | none => p
  | some name =>
    { p with
      text := p.text ++ String.ofList [indicator] ++ "end" ++ name
      bare := true
      due := none }

/-- What is printed, without what may follow. -/
def printed (p : Printing) : Printed := ⟨p.text, p.bare⟩

/-- Prints one more node, given the texts of the tables behind nodes with a body. -/
def add (indicator : Char) (texts : Nat → Printed) (p : Printing) : Node → Printing
  | .raw text =>
    let p := p.settle indicator
    let q := printRaw indicator text p.bare
    { p with text := p.text ++ q.text, bare := q.bare }
  | .scope (some table) =>
    { p with text := p.text ++ (texts table).text, bare := (texts table).bare }
  | .scope none => p
  | node =>
    let p := if node.isChained then p else p.settle indicator
    let chain := node.chainHead p.chain
    ⟨p.text ++ node.tagText indicator, false, chain, node.endName? chain []⟩

/-- Prints more nodes. -/
def addAll (indicator : Char) (texts : Nat → Printed) (p : Printing) (nodes : List Node) :
    Printing :=
  nodes.foldl (add indicator texts) p

/-- The printed source of nodes that nothing goes on with. -/
def upTo (indicator : Char) (texts : Nat → Printed) (p : Printing) (nodes : List Node) : Printed :=
  ((p.addAll indicator texts nodes).settle indicator).printed

/-- The printed source in front of nodes, with the end tag that is due unless they go on with the
chain. -/
def inFrontOf (indicator : Char) (p : Printing) (more : List Node) : Printed :=
  if continuesChain more then p.printed else (p.settle indicator).printed

variable {indicator : Char} {texts others : Nat → Printed} {p : Printing} {front more : List Node}
  {node : Node}

theorem addAll_append : p.addAll indicator texts (front ++ more) =
    (p.addAll indicator texts front).addAll indicator texts more :=
  List.foldl_append

theorem addAll_snoc : p.addAll indicator texts (front ++ [node]) =
    (p.addAll indicator texts front).add indicator texts node :=
  addAll_append

theorem addAll_congr (same : ∀ j, .scope (some j) ∈ front → texts j = others j) :
    p.addAll indicator texts front = p.addAll indicator others front := by
  induction front generalizing p with
  | nil => rfl
  | cons first front ih =>
    have here : p.add indicator texts first = p.add indicator others first := by
      unfold add
      split <;> first | rfl | rw [same _ List.mem_cons_self]
    show (p.add indicator texts first).addAll indicator texts front = _
    rw [here, ih fun j mem => same j (.tail _ mem)]
    rfl

@[simp] theorem settle_due : (p.settle indicator).due = none := by
  unfold settle
  split <;> first | assumption | rfl

@[simp] theorem settle_chain : (p.settle indicator).chain = p.chain := by
  unfold settle
  split <;> rfl

theorem settle_of_due (h : p.due = none) : p.settle indicator = p := by
  unfold settle
  rw [h]

theorem inFrontOf_of_due (h : p.due = none) : p.inFrontOf indicator more = p.printed := by
  unfold inFrontOf
  rw [settle_of_due h, ite_self]

theorem inFrontOf_mk (text : String) (bare : Bool) (chain : Option String) :
    (mk text bare chain none).inFrontOf indicator more = ⟨text, bare⟩ :=
  inFrontOf_of_due rfl

theorem continuesChain_cons : continuesChain (node :: more) = node.isChained := by
  cases node with
  | block name chained => cases chained <;> rfl
  | _ => rfl

/-- A tag is printed behind the end tag that is due, unless it goes on with the chain. -/
theorem add_tag (other : ∀ text, node ≠ .raw text) (tag : ∀ target, node ≠ .scope target) :
    p.add indicator texts node =
      ⟨(p.inFrontOf indicator (node :: more)).text ++ node.tagText indicator, false,
        node.chainHead p.chain, node.endName? (node.chainHead p.chain) []⟩ := by
  unfold add inFrontOf
  rw [continuesChain_cons]
  split
  · exact absurd rfl (other _)
  · exact absurd rfl (tag _)
  · exact absurd rfl (tag _)
  · dsimp only
    split <;> simp [printed]

end Printing

theorem Printed.andThen_assoc (p : Printed) (f g : Bool → Printed) :
    (p.andThen f).andThen g = p.andThen fun bare => (f bare).andThen g := by
  simp [Printed.andThen, String.append_assoc]

variable {indicator : Char} {table : Nat → Bool → Printed} {front more : List Node} {node : Node}
  {chain : Option String} {bare : Bool}

/-- A tag without scope. -/
theorem printNodes_leaf (single : node.isLeaf = true) (other : ∀ text, node ≠ .raw text)
    (behind : ∀ target, more.head? ≠ some (.scope target)) :
    printNodes indicator table (node :: more) chain bare =
      (Printed.mk (node.tagText indicator) false).andThen
        (printNodes indicator table more chain) := by
  cases more with
  | nil =>
    cases node with
    | raw text => exact absurd rfl (other text)
    | define name value =>
      cases value with
      | none => cases single
      | some e => rfl
    | block | inline | encode | scope => cases single
    | _ => rfl
  | cons next more =>
    cases next with
    | scope target => exact absurd rfl (behind target)
    | _ =>
      cases node with
      | raw text => exact absurd rfl (other text)
      | define name value =>
        cases value with
        | none => cases single
        | some e => rfl
      | block | inline | encode | scope => cases single
      | _ => rfl

/-- A tag with the scope of its body. -/
theorem printNodes_body (opens : node.hasBody = true) (target : Nat) :
    printNodes indicator table (node :: .scope (some target) :: more) chain bare =
      (Node.close indicator
        ((Printed.mk (node.tagText indicator) false).andThen (table target))
        (node.endName? (node.chainHead chain) more)).andThen
          (printNodes indicator table more (node.chainHead chain)) := by
  cases node with
  | block | encode => rfl
  | define name value =>
    cases value with
    | none => rfl
    | some e => cases opens
  | _ => cases opens

namespace Node

theorem chainHead_of_isLeaf (single : node.isLeaf = true) : node.chainHead chain = chain := by
  cases node with
  | block => cases single
  | _ => rfl

theorem endName?_of_isLeaf (single : node.isLeaf = true) : node.endName? chain more = none := by
  cases node with
  | define name value =>
    cases value with
    | none => cases single
    | some e => rfl
  | block | encode => cases single
  | _ => rfl

theorem endName?_of_continues (block : node.isBlock = true)
    (continues : continuesChain more = true) :
    node.endName? chain more = none := by
  cases node with
  | block => exact if_pos continues
  | _ => cases block

theorem endName?_of_not_continues (ends : continuesChain more = false) :
    node.endName? chain more = node.endName? chain [] := by
  cases node with
  | block => exact if_neg (by rw [ends]; decide)
  | define name value => cases value <;> rfl
  | _ => rfl

end Node

/-- The body of a node ends a table with a block only if the node is the block. -/
theorem isBlock_of_endsInBlock {target : Nat}
    (h : EndsInBlock (front ++ [node, .scope (some target)])) : node.isBlock = true := by
  obtain ⟨before, block, target', eq, isBlock⟩ := h
  obtain ⟨-, same⟩ := List.append_inj' eq rfl
  cases same
  exact isBlock

namespace Printing

/-- What was printed, and the nodes behind it. -/
def whole (indicator : Char) (table : Nat → Bool → Printed) (p : Printing) (more : List Node) :
    Printed :=
  (p.inFrontOf indicator more).andThen (printNodes indicator table more p.chain)

variable (p : Printing)

theorem whole_raw (text : String) : p.whole indicator table (.raw text :: more) =
    (p.add indicator (fun j => table j false) (.raw text)).whole indicator table more := by
  have added : p.add indicator (fun j => table j false) (.raw text) =
      { p.settle indicator with
        text := (p.settle indicator).text ++
          (printRaw indicator text (p.settle indicator).bare).text
        bare := (printRaw indicator text (p.settle indicator).bare).bare } := rfl
  have front : p.inFrontOf indicator (.raw text :: more) = (p.settle indicator).printed := rfl
  have next : printNodes indicator table (.raw text :: more) p.chain = fun bare =>
      (printRaw indicator text bare).andThen (printNodes indicator table more p.chain) := rfl
  rw [whole, whole, added, front, next, ← Printed.andThen_assoc, inFrontOf_of_due (by simp)]
  simp [Printed.andThen, printed]

theorem whole_leaf (single : node.isLeaf = true) (other : ∀ text, node ≠ .raw text)
    (behind : ∀ target, more.head? ≠ some (.scope target)) : p.whole indicator table (node :: more) =
      (p.add indicator (fun j => table j false) node).whole indicator table more := by
  have tag : ∀ target, node ≠ .scope target := by
    rintro target rfl
    cases single
  have added : p.add indicator (fun j => table j false) node =
      ⟨(p.inFrontOf indicator (node :: more)).text ++ node.tagText indicator, false, p.chain,
        none⟩ := by
    rw [add_tag other tag, Node.endName?_of_isLeaf single, Node.chainHead_of_isLeaf single]
  rw [whole, whole, added, inFrontOf_mk]
  simp only [Printed.andThen, printNodes_leaf single other behind, String.append_assoc]

/-- An empty place is printed as its tag. -/
theorem whole_place (file : String) (asRaw : Bool) :
    p.whole indicator table (.inline file asRaw :: .scope none :: more) =
      ((p.add indicator (fun j => table j false) (.inline file asRaw)).add indicator
        (fun j => table j false) (.scope none)).whole indicator table more := by
  have place : printNodes indicator table (.inline file asRaw :: .scope none :: more) =
      fun chain _ => (Printed.mk (Node.tagText indicator (.inline file asRaw)) false).andThen
        (printNodes indicator table more chain) := by
    funext chain bare
    simp [printNodes, printNodes.printTarget, Node.close, Node.endName?, Node.chainHead,
      Printed.andThen]
  have single : (p.add indicator (fun j => table j false) (.inline file asRaw)) =
      ⟨(p.inFrontOf indicator (.inline file asRaw :: .scope none :: more)).text ++
        Node.tagText indicator (.inline file asRaw), false, p.chain, none⟩ :=
    add_tag (by rintro text ⟨⟩) (by rintro target ⟨⟩)
  rw [whole, whole, single, place, add, inFrontOf_mk]
  simp only [Printed.andThen, String.append_assoc]

/-- A body is printed behind its tag, and behind the body an end tag, unless the next node goes on
with the chain. -/
theorem whole_body (opens : node.hasBody = true) (target : Nat)
    (linked : continuesChain more = true → node.isBlock = true) :
    p.whole indicator table (node :: .scope (some target) :: more) =
      ((p.add indicator (fun j => table j false) node).add indicator (fun j => table j false)
        (.scope (some target))).whole indicator table more := by
  have tag : ∀ target, node ≠ .scope target := by
    rintro target rfl
    cases opens
  have other : ∀ text, node ≠ .raw text := by
    rintro text rfl
    cases opens
  have added : p.add indicator (fun j => table j false) node =
      ⟨(p.inFrontOf indicator (node :: .scope (some target) :: more)).text ++
        node.tagText indicator, false, node.chainHead p.chain,
        node.endName? (node.chainHead p.chain) []⟩ := add_tag other tag
  rw [whole, added]
  generalize p.inFrontOf indicator (node :: .scope (some target) :: more) = q
  simp only [whole, Printed.andThen, printNodes_body opens, add]
  cases continues : continuesChain more with
  | true =>
    rw [Node.endName?_of_continues (linked continues) continues]
    simp only [inFrontOf, continues, if_true, Node.close, printed, String.append_assoc]
  | false =>
    rw [Node.endName?_of_not_continues continues]
    simp only [inFrontOf, continues, Bool.false_eq_true, if_false, printed]
    cases node.endName? (node.chainHead p.chain) [] <;>
      simp only [Node.close, settle, String.append_assoc]

end Printing

/-- Nodes in front of others are printed node by node. -/
theorem Fresh.printNodes_append {front more : List Node} (h : Fresh front) {indicator : Char}
    {table : Nat → Bool → Printed}
    (behind : ∀ target, more.head? ≠ some (.scope target))
    (linked : continuesChain more = true → EndsInBlock front) (chain : Option String)
    (bare : Bool) : printNodes indicator table (front ++ more) chain bare =
      (Printing.addAll indicator (fun j => table j false) ⟨"", bare, chain, none⟩ front).whole
        indicator table more := by
  induction h generalizing more with
  | nil =>
    rw [Printing.whole, Printing.inFrontOf_of_due rfl]
    simp [Printing.addAll, Printing.printed, Printed.andThen]
  | @raw front text before nonempty last ih =>
    rw [List.append_assoc, List.singleton_append, ih (by rintro target ⟨⟩) (by rintro ⟨⟩),
      Printing.whole_raw, Printing.addAll_snoc]
  | @leaf front node before single other ih =>
    have start : ∀ target, (node :: more).head? ≠ some (.scope target) := by
      rintro target eq
      cases eq
      cases single
    have single' : continuesChain (node :: more) = false :=
      Printing.continuesChain_cons.trans (Node.isChained_of_isLeaf single)
    rw [List.append_assoc, List.singleton_append, ih start (by rw [single']; rintro ⟨⟩),
      Printing.whole_leaf _ single other behind, Printing.addAll_snoc]
  | @place front file asRaw before ih =>
    have added : front ++ [.inline file asRaw, .scope none] ++ more =
        front ++ (.inline file asRaw :: .scope none :: more) := by simp
    have nodes : front ++ [.inline file asRaw, .scope none] =
        front ++ [.inline file asRaw] ++ [.scope none] := by simp
    rw [added, ih (by rintro target ⟨⟩) (by rintro ⟨⟩), Printing.whole_place, nodes,
      Printing.addAll_snoc, Printing.addAll_snoc]
  | @body front node target before opens link ih =>
    have added : front ++ [node, .scope (some target)] ++ more =
        front ++ (node :: .scope (some target) :: more) := by simp
    have nodes : front ++ [node, .scope (some target)] =
        front ++ [node] ++ [.scope (some target)] := by simp
    have start : ∀ j, (node :: .scope (some target) :: more).head? ≠ some (.scope j) := by
      rintro j eq
      cases eq
      cases opens
    have block (goesOn : continuesChain more = true) : node.isBlock = true :=
      isBlock_of_endsInBlock (linked goesOn)
    have chained (goesOn : continuesChain (node :: .scope (some target) :: more) = true) :
        EndsInBlock front := link (by rwa [Printing.continuesChain_cons] at goesOn)
    rw [added, ih start chained, Printing.whole_body _ opens target block, nodes,
      Printing.addAll_snoc, Printing.addAll_snoc]

/-- The nodes of a table are printed node by node. -/
theorem Fresh.printNodes {nodes : List Node} (h : Fresh nodes) (indicator : Char)
    (table : Nat → Bool → Printed) :
    Stencil.printNodes indicator table nodes none false =
      Printing.upTo indicator (fun j => table j false) {} nodes := by
  have nothing : ∀ target, ([] : List Node).head? ≠ some (.scope target) := by rintro target ⟨⟩
  have whole := @Fresh.printNodes_append _ _ h indicator table nothing (by rintro ⟨⟩) none false
  rw [List.append_nil] at whole
  rw [whole]
  simp [Printing.whole, Printing.upTo, Printing.inFrontOf, continuesChain, Stencil.printNodes,
    Printed.andThen]

namespace Template

variable {t : Template} {j : Nat} {nodes : List Node}

theorem table_of_getElem? (found : t.tables[j]? = some nodes) : t.table j = nodes := by
  unfold table
  rw [found]
  rfl

theorem table_of_length_le (beyond : t.tables.length ≤ j) : t.table j = [] := by
  unfold table
  rw [List.getElem?_eq_none beyond]
  rfl

/-- The text of a table behind its tag. -/
def bodyText (t : Template) (table : Nat) : Printed := t.printTable t.tables.length table false

theorem printTable_of_length_le (beyond : t.tables.length ≤ j) (levels : Nat) :
    t.printTable levels j false = ⟨"", false⟩ := by
  cases levels with
  | zero => rfl
  | succ levels => rw [printTable, table_of_length_le beyond, printNodes]

section

variable (fresh : ∀ nodes ∈ t.tables, Fresh nodes) (forward : Forward t.tables.length t.tables)
include fresh forward

/-- As many levels as there are tables behind a table print it in full. -/
theorem printTable_enough {n levels more : Nat} (behind : t.tables.length ≤ j + n)
    (enough : n ≤ levels) (enough' : n ≤ more) :
    t.printTable levels j false = t.printTable more j false := by
  induction n generalizing j levels more with
  | zero =>
    have beyond : t.tables.length ≤ j := behind
    rw [printTable_of_length_le beyond, printTable_of_length_le beyond]
  | succ n ih =>
    cases found : t.tables[j]? with
    | none =>
      have beyond := List.getElem?_eq_none_iff.mp found
      rw [printTable_of_length_le beyond, printTable_of_length_le beyond]
    | some nodes =>
      obtain ⟨levels, rfl⟩ := Nat.exists_eq_add_of_le' (Nat.lt_of_lt_of_le n.succ_pos enough)
      obtain ⟨more, rfl⟩ := Nat.exists_eq_add_of_le' (Nat.lt_of_lt_of_le n.succ_pos enough')
      have whole := fresh nodes (List.mem_of_getElem? found)
      rw [printTable, printTable, table_of_getElem? found, whole.printNodes, whole.printNodes]
      unfold Printing.upTo
      rw [Printing.addAll_congr fun k mem => ih ?_ ?_ ?_]
      · have := (forward j nodes k found mem).1
        omega
      · omega
      · omega

/-- The text of a table is printed node by node, with the texts of the later tables. -/
theorem bodyText_eq (found : t.tables[j]? = some nodes) : t.bodyText j =
    Printing.upTo t.indicator t.bodyText {} nodes := by
  have inside := lt_of_getElem?_eq_some found
  obtain ⟨levels, length⟩ := Nat.exists_eq_add_of_le' (Nat.lt_of_le_of_lt j.zero_le inside)
  have whole := fresh nodes (List.mem_of_getElem? found)
  unfold bodyText
  conv_lhs => rw [length]
  rw [printTable, table_of_getElem? found, whole.printNodes]
  unfold Printing.upTo
  rw [Printing.addAll_congr fun k mem => printTable_enough fresh forward (n := levels) ?_ ?_ ?_]
  · have := (forward j nodes k found mem).1
    omega
  · omega
  · omega

end

end Template

end Stencil
