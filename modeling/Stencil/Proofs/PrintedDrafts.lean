import Stencil.Proofs.PrintedTables
import Stencil.Proofs.RereadDrafts

/-!
# Drafts printed node by node

What is printed in front of the place where a draft is written: the tables around it up to the nodes
whose bodies are open, and the table that is written. A table whose scope is closed is printed in
one piece, so that its text has to be known only from then on.
-/

namespace Stencil

namespace Printing

variable {indicator : Char} {texts : Nat → Printed} {p : Printing} {nodes : List Node} {node : Node}

/-- The same behind other text. -/
def behind (front : String) (p : Printing) : Printing := { p with text := front ++ p.text }

theorem settle_behind (front : String) :
    (p.behind front).settle indicator = (p.settle indicator).behind front := by
  cases due : p.due <;> simp only [settle, behind, due, String.append_assoc]

theorem add_behind (front : String) :
    (p.behind front).add indicator texts node = (p.add indicator texts node).behind front := by
  cases node with
  | raw text =>
    simp only [add, settle_behind]
    simp [behind, String.append_assoc]
  | scope target => cases target <;> simp [add, behind, String.append_assoc]
  | block name chained => cases chained <;> simp [add, settle_behind, Node.isChained] <;>
      simp [behind, String.append_assoc]
  | _ =>
    simp only [add, settle_behind, Node.isChained]
    simp [behind, String.append_assoc]

/-- What is printed does not depend on the text in front. -/
theorem addAll_behind (front : String) :
    (p.behind front).addAll indicator texts nodes =
      (p.addAll indicator texts nodes).behind front := by
  induction nodes generalizing p with
  | nil => rfl
  | cons node nodes ih =>
    show ((p.behind front).add indicator texts node).addAll indicator texts nodes = _
    rw [add_behind, ih]
    rfl

theorem printRaw_bare {text : String} (nonempty : text ≠ "") (bare : Bool) :
    (printRaw indicator text bare).bare = false := by
  unfold printRaw
  split
  · rename_i empty
    exact absurd (String.toList_eq_nil_iff.mp empty) nonempty
  · split <;> rfl

/-- More raw text behind raw text is only escaped. -/
theorem printRaw_append {before : String} (nonempty : before ≠ "") (text : String) (bare : Bool) :
    (printRaw indicator (before ++ text) bare).text = (printRaw indicator before bare).text ++
      String.ofList (text.toList.flatMap (escapedChar indicator)) := by
  unfold printRaw
  rw [String.toList_append]
  cases eq : before.toList with
  | nil => exact absurd (String.toList_eq_nil_iff.mp eq) nonempty
  | cons c rest =>
    dsimp only [List.cons_append]
    split <;> simp [String.append_assoc]

theorem upTo_raw (text : String) : p.upTo indicator texts (nodes ++ [.raw text]) =
    (p.upTo indicator texts nodes).andThen (printRaw indicator text) := by
  unfold upTo
  rw [addAll_snoc, settle_of_due (by simp [add])]
  rfl

/-- Raw text that goes on with the raw text at the end. -/
theorem upTo_appendRaw {before : String} (nonempty : before ≠ "")
    (last : nodes.getLast? = some (.raw before)) (text : String) :
    p.upTo indicator texts (Draft.appendRaw text nodes) =
      ⟨(p.upTo indicator texts nodes).text ++
        String.ofList (text.toList.flatMap (escapedChar indicator)), false⟩ := by
  obtain ⟨front, rfl⟩ := List.getLast?_eq_some_iff.mp last
  have longer : before ++ text ≠ "" := fun empty =>
    nonempty (String.append_eq_empty_iff.mp empty).1
  have behind :
      Draft.appendRaw text (front ++ [.raw before]) = front ++ [.raw (before ++ text)] := by
    rw [Node.appendRaw_append text (by simp)]
    rfl
  rw [behind, upTo_raw, upTo_raw]
  simp only [Printed.andThen, printRaw_append nonempty, printRaw_bare longer, String.append_assoc]

/-- A tag without body. -/
theorem upTo_leaf (single : node.isLeaf = true) (other : ∀ text, node ≠ .raw text) :
    p.upTo indicator texts (nodes ++ [node]) =
      ⟨(p.upTo indicator texts nodes).text ++ node.tagText indicator, false⟩ := by
  have tag : ∀ target, node ≠ .scope target := by
    rintro target rfl
    cases single
  have behind : (p.addAll indicator texts nodes).inFrontOf indicator [node] =
      p.upTo indicator texts nodes :=
    if_neg (by rw [continuesChain_cons, Node.isChained_of_isLeaf single]; decide)
  unfold upTo
  rw [addAll_snoc, add_tag other tag, behind, Node.endName?_of_isLeaf single,
    settle_of_due rfl]
  rfl

/-- A place that nothing is spliced into. -/
theorem upTo_place (file : String) (asRaw : Bool) :
    p.upTo indicator texts (nodes ++ [.inline file asRaw, .scope none]) =
      ⟨(p.upTo indicator texts nodes).text ++ Node.tagText indicator (.inline file asRaw),
        false⟩ := by
  unfold upTo
  rw [addAll_append]
  rfl

/-- Behind the body of a scope that is closed. -/
theorem upTo_of_due {name : String} (due : (p.addAll indicator texts nodes).due = some name) :
    p.upTo indicator texts nodes = ⟨(p.addAll indicator texts nodes).text ++
      String.ofList [indicator] ++ "end" ++ name, true⟩ := by
  unfold upTo settle
  rw [due]
  rfl

/-- An end tag stands in front exactly if the last node is a body. -/
theorem bare_upTo (fresh : Fresh nodes) (due : p.due = none) (bare : p.bare = false) :
    (p.upTo indicator texts nodes).bare = Node.bareBehind false nodes := by
  cases fresh with
  | nil =>
    unfold upTo
    rw [show p.addAll indicator texts [] = p from rfl, settle_of_due due]
    exact bare
  | raw _ nonempty =>
    rw [upTo_raw]
    simp [Printed.andThen, printRaw_bare nonempty, Node.bareBehind, Node.endsBody]
  | @leaf front node _ single other =>
    have scope : node.endsBody = false := by
      cases node <;> first | rfl | cases single
    rw [upTo_leaf single other]
    simp [Node.bareBehind, scope]
  | place =>
    rw [upTo_place]
    simp [Node.bareBehind, Node.endsBody]
  | @body front node target _ opens =>
    have due : ∃ name, (p.addAll indicator texts (front ++ [node, .scope (some target)])).due =
        some name := by
      rw [addAll_append]
      cases node with
      | block | encode => exact ⟨_, rfl⟩
      | define name value =>
        cases value with
        | none => exact ⟨_, rfl⟩
        | some e => cases opens
      | _ => cases opens
    obtain ⟨name, due⟩ := due
    rw [upTo_of_due due]
    simp [Node.bareBehind, Node.endsBody]

/-- The end tag behind the body of an open scope is known, and for a chain also its first block. -/
def Awaits (p : Printing) : ScopeKind → Prop
  | .chain names => ∃ name more, names = name :: more ∧ Text.IsName name ∧ p.chain = some name ∧
      p.due = some name
  | .define => p.due = some "define"
  | .encode => p.due = some "raw"

end Printing

/-- What is printed in front of the table that is written when these scopes are open. -/
inductive Stands (indicator : Char) (texts : Nat → Printed) (tables : List (List Node)) :
    List OpenScope → Printing → Prop
  | nil : Stands indicator texts tables [] {}
  | cons {s : OpenScope} {outer : List OpenScope} {p : Printing} {front : List Node} {node : Node}
      (rest : Stands indicator texts tables outer p)
      (around : tables[writtenTable outer]? = some (front ++ [node, .scope (some s.table)]))
      (awaits : (p.addAll indicator texts (front ++ [node])).Awaits s.kind) :
      Stands indicator texts tables (s :: outer)
        { text := (p.addAll indicator texts (front ++ [node])).text }

variable {indicator : Char} {texts : Nat → Printed} {tables tables' : List (List Node)}
  {opened opened' : List OpenScope} {p : Printing}

/-- What stands in front does not depend on the table that is written. -/
theorem Stands.congr (h : Stands indicator texts tables opened p) (inside : OpenedIn tables opened)
    {bound : Nat} (le : writtenTable opened ≤ bound)
    (same : ∀ i, i < bound → tables'[i]? = tables[i]?) :
    Stands indicator texts tables' opened p := by
  induction h with
  | nil => exact .nil
  | @cons s outer p front node rest around awaits ih =>
    cases inside with
    | cons _ later _ _ inside =>
      have less : writtenTable outer < bound := Nat.lt_of_lt_of_le later le
      exact .cons (ih inside (Nat.le_of_lt less)) (by rw [same _ less, around]) awaits

theorem Stands.of_shape (h : Stands indicator texts tables opened p)
    (same : opened'.map (·.shape) = opened.map (·.shape)) :
    Stands indicator texts tables opened' p := by
  induction h generalizing opened' with
  | nil =>
    rw [List.map_nil, List.map_eq_nil_iff] at same
    subst same
    exact .nil
  | @cons s outer p front node rest around awaits ih =>
    obtain ⟨s', outer', rfl, here, more⟩ := List.map_eq_cons_iff.mp same
    have table : s'.table = s.table := congrArg Prod.fst here
    have kind : s'.kind = s.kind := congrArg Prod.snd here
    rw [← kind] at awaits
    refine .cons (ih more) ?_ awaits
    rw [writtenTable_of_shape more, around, table]

/-- No end tag is due where a table starts. -/
theorem Stands.start (h : Stands indicator texts tables opened p) :
    p.due = none ∧ p.bare = false := by
  cases h <;> exact ⟨rfl, rfl⟩

/-- The innermost open scope has the last table of them. -/
theorem OpenedIn.le_written (h : OpenedIn tables opened) :
    ∀ s ∈ opened, s.table ≤ writtenTable opened := by
  induction h with
  | nil => simp
  | cons _ later _ _ _ ih =>
    intro s mem
    rcases List.mem_cons.mp mem with rfl | mem
    · exact Nat.le_refl _
    · exact Nat.le_trans (ih s mem) (Nat.le_of_lt later)

/-- The texts of the tables whose scopes are closed. -/
def Agrees (indicator : Char) (texts : Nat → Printed) (d : Draft) : Prop :=
  ∀ j nodes, d.tables[j]? = some nodes → j ≠ 0 → (∀ s ∈ d.opened, s.table ≠ j) →
    texts j = Printing.upTo indicator texts {} nodes

/-- A draft in whose current table something was changed. -/
structure Draft.Changes (d d' : Draft) (change : List Node → List Node) : Prop where
  tables : d'.tables = d.tables.modify d.current change
  opened : d'.opened.map (·.shape) = d.opened.map (·.shape)

namespace Draft

variable {d d' : Draft} {change : List Node → List Node} {nodes : List Node} {node : Node}

theorem ne_current {j : Nat} (later : j ≠ 0) (closed : ∀ s ∈ d.opened, s.table ≠ j) :
    d.current ≠ j := by
  unfold current
  cases opened : d.opened with
  | nil => exact Ne.symm later
  | cons s outer => exact closed s (by rw [opened]; exact List.mem_cons_self)

namespace Changes

variable (h : d.Changes d' change)
include h

theorem current : d'.current = d.current := writtenTable_of_shape h.opened

theorem here (found : d.tables[d.current]? = some nodes) :
    d'.tables[d'.current]? = some (change nodes) := by
  rw [h.current, h.tables, List.getElem?_modify_eq, found]
  rfl

theorem stands (formed : d.Formed) (stands : Stands indicator texts d.tables d.opened p) :
    Stands indicator texts d'.tables d'.opened p := by
  refine Stands.of_shape ?_ h.opened
  refine stands.congr formed.opened (Nat.le_refl _) fun i less => ?_
  rw [h.tables]
  exact List.getElem?_modify_ne _ _ (Nat.ne_of_gt less)

theorem agrees (agrees : Agrees indicator texts d') : Agrees indicator texts d := by
  intro j nodes found later closed
  refine agrees j nodes ?_ later fun s' mem eq => ?_
  · rw [h.tables, List.getElem?_modify_ne _ _ (ne_current later closed), found]
  · have shape : s'.shape ∈ d.opened.map (·.shape) :=
      h.opened ▸ List.mem_map.mpr ⟨s', mem, rfl⟩
    obtain ⟨s, inside, same⟩ := List.mem_map.mp shape
    have table : s.table = s'.table := congrArg Prod.fst same
    exact closed s inside (table.trans eq)

end Changes

/-- A body is opened behind its node. -/
theorem stands_openScope (formed : d.Formed) (h : Stands indicator texts d.tables d.opened p)
    (found : d.tables[d.current]? = some nodes) {name : String} {kind : ScopeKind}
    (awaits : (p.addAll indicator texts (nodes ++ [node])).Awaits kind) (place : Text.Location)
    (declared : Entries Declared) :
    Stands indicator texts (d.openScope node name kind place declared).tables
      (d.openScope node name kind place declared).opened
      { text := (p.addAll indicator texts (nodes ++ [node])).text } := by
  have before {i : Nat} (less : i < d.tables.length) :
      (d.tables.modify d.current (· ++ [node, .scope (some d.tables.length)]) ++ [[]])[i]? =
        (d.tables.modify d.current (· ++ [node, .scope (some d.tables.length)]))[i]? :=
    List.getElem?_append_left (by simpa using less)
  rw [tables_openScope]
  refine .cons ?_ ?_ awaits
  · refine h.congr formed.opened (Nat.le_refl _) fun i less => ?_
    rw [before (Nat.lt_trans less formed.current_lt)]
    exact List.getElem?_modify_ne _ _ (Nat.ne_of_gt less)
  · show (_ ++ [[]])[d.current]? = _
    rw [before formed.current_lt, List.getElem?_modify_eq, found]
    rfl

theorem agrees_of_openScope {name : String} {kind : ScopeKind} {place : Text.Location}
    {declared : Entries Declared}
    (h : Agrees indicator texts (d.openScope node name kind place declared)) :
    Agrees indicator texts d := by
  intro j nodes found later closed
  have inside := lt_of_getElem?_eq_some found
  refine h j nodes ?_ later fun s mem => ?_
  · rw [tables_openScope, List.getElem?_append_left (by simpa using inside),
      List.getElem?_modify_ne _ _ (ne_current later closed), found]
  · rcases List.mem_cons.mp mem with rfl | mem
    · exact Nat.ne_of_gt inside
    · exact closed s mem

theorem agrees_of_closeScope (h : Agrees indicator texts d.closeScope) : Agrees indicator texts d :=
  fun j nodes found later closed =>
    h j nodes found later fun s mem => closed s (List.mem_of_mem_tail mem)

/-- When the innermost scope is closed, its table is printed with the others, and its end tag is
due. -/
theorem stands_closeScope {top : OpenScope} {outer : List OpenScope} (formed : d.Formed)
    (opened : d.opened = top :: outer) (found : d.tables[d.current]? = some nodes)
    (h : Stands indicator texts d.tables d.opened p)
    (agrees : Agrees indicator texts d.closeScope) :
    ∃ q around, Stands indicator texts d.closeScope.tables d.closeScope.opened q ∧
      d.closeScope.tables[d.closeScope.current]? = some around ∧
      (q.addAll indicator texts around).printed = p.upTo indicator texts nodes ∧
      (q.addAll indicator texts around).Awaits top.kind := by
  have inside := formed.opened
  rw [opened] at h inside
  cases h with
  | @cons _ _ q front node rest around awaits =>
    have outside : d.closeScope.opened = outer := by
      show d.opened.tail = outer
      rw [opened]
      rfl
    have current : d.closeScope.current = writtenTable outer := by
      show writtenTable d.closeScope.opened = _
      rw [outside]
    have text : texts top.table = Printing.upTo indicator texts {} nodes := by
      have here : d.current = top.table := by
        show writtenTable d.opened = _
        rw [opened]
        rfl
      rw [here] at found
      cases inside with
      | cons _ later _ _ inner =>
        refine agrees top.table nodes found (Nat.ne_of_gt (Nat.zero_lt_of_lt later)) ?_
        rw [outside]
        intro s mem
        exact Nat.ne_of_lt (Nat.lt_of_le_of_lt (inner.le_written s mem) later)
    have whole : q.addAll indicator texts (front ++ [node, .scope (some top.table)]) =
        (q.addAll indicator texts (front ++ [node])).add indicator texts
          (.scope (some top.table)) := by
      rw [← Printing.addAll_snoc, List.append_assoc]
      rfl
    have entered : ({ text := (q.addAll indicator texts (front ++ [node])).text } : Printing) =
        Printing.behind (q.addAll indicator texts (front ++ [node])).text {} := by
      simp [Printing.behind]
    refine ⟨q, _, by rw [outside]; exact rest, by rw [current]; exact around, ?_, ?_⟩
    · unfold Printing.upTo at text ⊢
      rw [whole, entered, Printing.addAll_behind, Printing.settle_behind]
      simp only [Printing.add, Printing.printed, Printing.behind, text]
    · rw [whole]
      cases kind : top.kind <;> rw [kind] at awaits <;> exact awaits

end Draft

end Stencil
