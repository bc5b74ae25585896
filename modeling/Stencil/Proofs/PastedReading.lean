import Stencil.Proofs.AcceptedTags
import Stencil.Proofs.MissingReports
import Stencil.Proofs.PastedTables
import Stencil.Proofs.Reparsing

/-!
# Printed source with what is spliced, read

The printed source of a template with spliced parts says what the parts say, in place. If all of it
is read, it is read as the nodes of the template with those of the parts pasted in
(`Template.pasted_of_parse`).
-/

namespace Stencil

variable {indicator : Char} {final d d' e e' : Draft} {node : Node} {nodes more inner : List Node}
  {kind : ScopeKind} {rest : List Char}

namespace Draft

/-- The tables that are written exist. -/
structure Sized (d : Draft) : Prop where
  filled : 0 < d.tables.length
  opened : ∀ shape ∈ d.opened.map (·.shape), shape.1 < d.tables.length

namespace Sized

theorem start : ({} : Draft).Sized where
  filled := Nat.zero_lt_one
  opened := by simp

theorem current_lt (h : d.Sized) : d.current < d.tables.length := by
  unfold current
  cases opened : d.opened with
  | nil => exact h.filled
  | cons top outer => exact h.opened top.shape (by simp [opened])

theorem closeScope (h : d.Sized) : d.closeScope.Sized where
  filled := h.filled
  opened shape mem := by
    obtain ⟨s, inside, rfl⟩ := List.mem_map.mp mem
    exact h.opened _ (List.mem_map_of_mem (List.mem_of_mem_tail inside))

end Sized

/-- A draft to whose current table nodes were added. Other tables may have come behind the last. -/
structure Grows (d d' : Draft) (more : List Node) : Prop where
  opened : d'.opened.map (·.shape) = d.opened.map (·.shape)
  length : d.tables.length ≤ d'.tables.length
  here : d'.tables[d.current]? = d.tables[d.current]?.map (addNodes · more)
  other : ∀ i, i < d.tables.length → i ≠ d.current → d'.tables[i]? = d.tables[i]?

theorem Changes.grows {change : List Node → List Node} (h : d.Changes d' change)
    (adds : ∀ table, change table = addNodes table more) : d.Grows d' more where
  opened := h.opened
  length := by simp [h.tables]
  here := by
    rw [h.tables, List.getElem?_modify_eq]
    cases d.tables[d.current]? with
    | none => rfl
    | some table => exact congrArg some (adds table)
  other i _ apart := by rw [h.tables, List.getElem?_modify_ne _ _ (Ne.symm apart)]

namespace Grows

theorem refl (d : Draft) : d.Grows d [] where
  opened := rfl
  length := Nat.le_refl _
  here := by simp [addNodes]
  other _ _ _ := rfl

theorem current (h : d.Grows d' more) : d'.current = d.current := writtenTable_of_shape h.opened

theorem trans (h : d.Grows d' nodes) (behind : d'.Grows e more) : d.Grows e (nodes ++ more) where
  opened := behind.opened.trans h.opened
  length := Nat.le_trans h.length behind.length
  here := by
    have here := behind.here
    rw [h.current, h.here, Option.map_map] at here
    rw [here]
    congr 1
    funext table
    exact addNodes_append.symm
  other i less apart := by
    rw [behind.other i (Nat.lt_of_lt_of_le less h.length) (by rw [h.current]; exact apart),
      h.other i less apart]

theorem sized (h : d.Grows d' more) (sized : d.Sized) : d'.Sized where
  filled := Nat.lt_of_lt_of_le sized.filled h.length
  opened shape mem := by
    rw [h.opened] at mem
    exact Nat.lt_of_lt_of_le (sized.opened shape mem) h.length

theorem push (other : ∀ text, node ≠ .raw text) (h : d.Changes d' (· ++ [node])) :
    d.Grows d' [node] :=
  h.grows fun _ => (addNode_of_ne_raw other).symm

theorem addRaw {text : String} (nonempty : text ≠ "") : d.Grows (d.addRaw text) [.raw text] :=
  (changes_addRaw nonempty).grows fun _ => rfl

/-- Printed raw text that is read. -/
theorem readRaw (d : Draft) (bare : Bool) (text : String) :
    d.Grows (d.readRaw bare text) (Node.rawPieces bare text) := by
  unfold Draft.readRaw Node.rawPieces
  cases eq : text.toList with
  | nil =>
    rw [if_pos (String.toList_eq_nil_iff.mp eq)]
    exact refl d
  | cons c rest =>
    have nonempty : text ≠ "" := by
      rintro rfl
      cases eq
    rw [if_neg nonempty]
    simp only [Node.rereadRaw, eq]
    split
    · have first : d.Grows (d.push (.output (.value (.string (String.ofList [c])))))
          [.output (.value (.string (String.ofList [c])))] :=
        push (by rintro text ⟨⟩) (changes_push _ _)
      cases rest with
      | nil => exact first
      | cons c' rest => exact first.trans (addRaw (by simp))
    · exact addRaw nonempty

end Grows

namespace Enters

variable (h : d.Enters e node kind)
include h

theorem length : e.tables.length = d.tables.length + 1 := by simp [h.tables]

theorem current : e.current = d.tables.length := by
  have shapes := h.opened
  cases opened : e.opened with
  | nil => simp [opened] at shapes
  | cons top outer =>
    rw [opened, List.map_cons] at shapes
    unfold Draft.current
    rw [opened]
    exact congrArg Prod.fst (List.cons.inj shapes).1

theorem sized (sized : d.Sized) : e.Sized where
  filled := by rw [h.length]; exact Nat.succ_pos _
  opened shape mem := by
    rw [h.opened] at mem
    rw [h.length]
    rcases List.mem_cons.mp mem with rfl | mem
    · exact Nat.lt_succ_self _
    · exact Nat.lt_succ_of_lt (sized.opened shape mem)

/-- The table of a body when its scope is closed. -/
theorem body (grows : e.Grows e' inner) :
    e'.tables[d.tables.length]? = some (addNodes [] inner) := by
  have here := grows.here
  rw [h.current, h.tables, List.getElem?_append_right (by simp)] at here
  simpa using here

/-- A body behind its node. -/
theorem closed (sized : d.Sized) (other : ∀ text, node ≠ .raw text) (grows : e.Grows e' inner) :
    d.Grows e'.closeScope [node, .scope (some d.tables.length)] := by
  have before {i : Nat} (less : i < d.tables.length) : e'.tables[i]? =
      (d.tables.modify d.current (· ++ [node, .scope (some d.tables.length)]))[i]? := by
    have kept := grows.other i (by rw [h.length]; exact Nat.lt_succ_of_lt less)
      (by rw [h.current]; exact Nat.ne_of_lt less)
    rw [kept, h.tables, List.getElem?_append_left (by simpa using less)]
  refine ⟨?_, ?_, ?_, fun i less apart => ?_⟩
  · have opened := grows.opened.trans h.opened
    show e'.opened.tail.map _ = _
    rw [List.map_tail, opened]
    rfl
  · refine Nat.le_trans ?_ grows.length
    rw [h.length]
    exact Nat.le_succ _
  · show e'.tables[d.current]? = _
    rw [before sized.current_lt, List.getElem?_modify_eq]
    cases d.tables[d.current]? with
    | none => rfl
    | some table => exact congrArg some (addNodes_body other _).symm
  · show e'.tables[i]? = _
    rw [before less, List.getElem?_modify_ne _ _ (Ne.symm apart)]

end Enters

/-- From one draft to another the source of nodes was read; the tables of their bodies are those
that came. -/
def ReadsAs (tables : Nat → List Node) (d d' : Draft) (linked : Bool) (nodes : List Node) : Prop :=
  ∃ more, d.Grows d' more ∧ ∀ copies : Nat → List Node,
    (∀ j table, d.tables.length ≤ j → d'.tables[j]? = some table → copies j = table) →
      Pasted tables copies linked nodes more

namespace ReadsAs

variable {tables : Nat → List Node} {linked : Bool} {pieces part behind : List Node}

/-- Nodes behind one that was read. -/
theorem cons (first : d.Grows d' pieces) (h : d'.ReadsAs tables e false behind)
    (pasted : ∀ copies more, Pasted tables copies false behind more →
      Pasted tables copies linked nodes (pieces ++ more)) : d.ReadsAs tables e linked nodes := by
  obtain ⟨more, grows, pastes⟩ := h
  exact ⟨_, first.trans grows, fun copies agrees => pasted copies more
    (pastes copies fun j table later => agrees j table (Nat.le_trans first.length later))⟩

/-- Nodes behind what is spliced into a place. -/
theorem place {asRaw : Bool} {file : String} {target : Nat} (sized : d.Sized)
    (first : d.ReadsAs tables d' false (tables target)) (h : d'.ReadsAs tables e false behind) :
    d.ReadsAs tables e linked (.inline file asRaw :: .scope (some target) :: behind) := by
  obtain ⟨part, adds, partPastes⟩ := first
  obtain ⟨more, grows, pastes⟩ := h
  refine ⟨_, adds.trans grows, fun copies agrees =>
    .place (partPastes copies ?_) (pastes copies ?_)⟩
  · intro j table later found
    refine agrees j table later ?_
    rw [grows.other j (lt_of_getElem?_eq_some found), found]
    rw [adds.current]
    exact Nat.ne_of_gt (Nat.lt_of_lt_of_le sized.current_lt later)
  · exact fun j table later => agrees j table (Nat.le_trans adds.length later)

/-- The scope of a body is still open when the body is read. -/
theorem opened (h : d'.ReadsAs tables e linked nodes) (enters : d.Enters d' node kind) :
    ∃ top outer, e.opened = top :: outer ∧ top.kind = kind := by
  obtain ⟨more, grows, -⟩ := h
  obtain ⟨top, outer, opened, shape, -⟩ :=
    List.map_eq_cons_iff.mp (grows.opened.trans enters.opened)
  exact ⟨top, outer, opened, congrArg Prod.snd shape⟩

/-- Nodes behind a body. -/
theorem body {target : Nat} (sized : d.Sized) (opens : node.hasBody = true)
    (chained : node.isChained = true → linked = true) (enters : d.Enters d' node.reread kind)
    (first : d'.ReadsAs tables e false (tables target))
    (h : e.closeScope.ReadsAs tables e' node.isBlock behind) :
    d.ReadsAs tables e' linked (node :: .scope (some target) :: behind) := by
  obtain ⟨part, adds, partPastes⟩ := first
  obtain ⟨more, grows, pastes⟩ := h
  have other : ∀ text, node.reread ≠ .raw text :=
    Node.reread_ne_raw (by rintro text rfl; cases opens)
  have closed := enters.closed sized other adds
  have kept {j : Nat} {table : List Node} (later : d.tables.length ≤ j)
      (found : e.tables[j]? = some table) : e'.tables[j]? = some table := by
    rw [grows.other j (lt_of_getElem?_eq_some found)]
    · exact found
    · rw [closed.current]
      exact Nat.ne_of_gt (Nat.lt_of_lt_of_le sized.current_lt later)
  refine ⟨_, closed.trans grows, fun copies agrees => .body opens chained ?_ (partPastes copies ?_)
    (pastes copies ?_)⟩
  · exact agrees _ _ (Nat.le_refl _) (kept (Nat.le_refl _) (enters.body adds))
  · intro j table later found
    rw [enters.length] at later
    exact agrees j table (Nat.le_of_succ_le later) (kept (Nat.le_of_succ_le later) found)
  · exact fun j table later => agrees j table (Nat.le_trans closed.length later)

end ReadsAs

end Draft

/-- Printed nodes can be followed: what may stand behind them may stand behind what is in front of
them, and if all of the source is read, they are. -/
structure Followed (indicator : Char) (final : Draft) (printed : Bool → Printed)
    (tables : Nat → List Node) (nodes : List Node) : Prop where
  fits : ∀ bare rest, Fits (printed bare).bare rest →
    Fits bare ((printed bare).text.toList ++ rest)
  reads : ∀ (d : Draft) bare rest, d.Sized →
    Draft.Ends indicator final d ((printed bare).text.toList ++ rest) →
      Fits (printed bare).bare rest →
        ∃ d', d.ReadsAs tables d' false nodes ∧ Draft.Ends indicator final d' rest

/-- A tag starts with the indicator. -/
theorem Node.tagText_cons (raw : ∀ text, node ≠ .raw text) (scope : ∀ target, node ≠ .scope target)
    (indicator : Char) : ∃ more, (node.tagText indicator).toList = indicator :: more := by
  cases node with
  | raw text => exact absurd rfl (raw text)
  | scope target => exact absurd rfl (scope target)
  | define name value => cases value <;> exact ⟨_, by simp [tagText]; rfl⟩
  | _ => exact ⟨_, by simp [tagText]; rfl⟩

/-- Behind the body of a node comes an end tag, if nothing goes on with its chain. -/
theorem Node.exists_endName? (opens : node.hasBody = true) (chain : Option String) :
    ∃ name, node.endName? chain [] = some name := by
  cases node with
  | block | encode => exact ⟨_, rfl⟩
  | define name value =>
    cases value with
    | none => exact ⟨_, rfl⟩
    | some e => cases opens
  | _ => cases opens

/-- Behind anything there may stand a tag. -/
theorem fits_tag (begins : TagStart indicator) (raw : ∀ text, node ≠ .raw text)
    (scope : ∀ target, node ≠ .scope target) (bare : Bool) (behind : String) :
    Fits bare ((node.tagText indicator ++ behind).toList ++ rest) := by
  obtain ⟨more, eq⟩ := Node.tagText_cons raw scope indicator
  rw [String.toList_append, eq]
  exact fits_cons begins.stops bare _

variable {table : Nat → Bool → Printed} {tables : Nat → List Node} {linked last : Bool}
  {chain : Option String}

section

variable (begins : TagStart indicator)
  (inside : ∀ k, .scope (some k) ∈ nodes → Followed indicator final (table k) tables (tables k))
  (grouped : Grouped linked nodes last)
include begins inside grouped

/-- What may stand behind printed nodes may stand behind what is in front of them. -/
theorem fits_printNodes (bare : Bool)
    (fits : Fits (printNodes indicator table nodes chain bare).bare rest) :
    Fits bare ((printNodes indicator table nodes chain bare).text.toList ++ rest) := by
  induction grouped generalizing chain bare with
  | nil => exact fits
  | @leaf _ _ node behind single _ ih =>
    have next {chain : Option String} (bare : Bool)
        (fits : Fits (printNodes indicator table behind chain bare).bare rest) :
        Fits bare ((printNodes indicator table behind chain bare).text.toList ++ rest) :=
      ih (fun k mem => inside k (.tail _ mem)) bare fits
    by_cases raw : ∃ text, node = .raw text
    · obtain ⟨text, rfl⟩ := raw
      have front : printNodes indicator table (.raw text :: behind) chain bare =
          (printRaw indicator text bare).andThen (printNodes indicator table behind chain) := rfl
      rw [front] at fits ⊢
      by_cases empty : text = ""
      · subst empty
        exact next _ fits
      · show Fits bare ((_ ++ _ : String).toList ++ rest)
        rw [String.toList_append, List.append_assoc]
        exact fits_printRaw begins empty bare _
    · have other : ∀ text, node ≠ .raw text := fun text eq => raw ⟨text, eq⟩
      have tag : ∀ target, node ≠ .scope target := by
        rintro target rfl
        cases single
      rw [printNodes_leaf single other ‹Grouped false behind _›.head?_ne_scope]
      exact fits_tag begins other tag bare _
  | @place _ _ asRaw file target behind _ ih =>
    have front : printNodes indicator table (.inline file asRaw :: .scope (some target) :: behind)
        chain bare = (table target bare).andThen (printNodes indicator table behind chain) := rfl
    rw [front] at fits ⊢
    have next := ih (fun k mem => inside k (.tail _ (.tail _ mem))) _ fits
    show Fits bare ((_ ++ _ : String).toList ++ rest)
    rw [String.toList_append, List.append_assoc]
    exact (inside target (by simp)).fits bare _ next
  | @body _ _ node target behind opens _ _ _ =>
    have other : ∀ text, node ≠ .raw text := by
      rintro text rfl
      cases opens
    have tag : ∀ target, node ≠ .scope target := by
      rintro target rfl
      cases opens
    rw [printNodes_body opens]
    cases node.endName? (node.chainHead chain) behind with
    | none =>
      simp only [Node.close, Printed.andThen, String.append_assoc]
      exact fits_tag begins other tag bare _
    | some name =>
      simp only [Node.close, Printed.andThen, String.append_assoc]
      exact fits_tag begins other tag bare _

end

/-- Wherever all of a source is read in which the nodes are printed, they are read as what they are
with everything pasted in. -/
def ReadsPrinted (indicator : Char) (final : Draft) (table : Nat → Bool → Printed)
    (tables : Nat → List Node) (linked : Bool) (nodes : List Node) : Prop :=
  ∀ ⦃d : Draft⦄ ⦃chain : Option String⦄ ⦃bare : Bool⦄ ⦃rest : List Char⦄, d.Sized →
    (continuesChain nodes = true → d.Pending chain) →
    Draft.Ends indicator final d
      ((printNodes indicator table nodes chain bare).text.toList ++ rest) →
    Fits (printNodes indicator table nodes chain bare).bare rest →
    ∃ d', (if continuesChain nodes then d.closeScope else d).ReadsAs tables d' linked nodes ∧
      Draft.Ends indicator final d' rest

namespace ReadsPrinted

variable {behind : List Node} {target : Nat} (begins : TagStart indicator)
  (grouped : Grouped false behind last)
  (next : ReadsPrinted indicator final table tables false behind)

/-- Behind what is no block nothing goes on with a chain. -/
theorem unlinked (grouped : Grouped false behind last) (sized : d.Sized)
    (next : ReadsPrinted indicator final table tables false behind)
    {chain : Option String} {bare : Bool}
    (h : Draft.Ends indicator final d
      ((printNodes indicator table behind chain bare).text.toList ++ rest))
    (fits : Fits (printNodes indicator table behind chain bare).bare rest) :
    ∃ d', d.ReadsAs tables d' false behind ∧ Draft.Ends indicator final d' rest := by
  have plain := grouped.not_continuesChain
  have reads := next sized (by rw [plain]; rintro ⟨⟩) h fits
  rwa [plain] at reads

include begins grouped next

theorem raw (text : String) :
    ReadsPrinted indicator final table tables linked (.raw text :: behind) := by
  intro d chain bare rest sized _ h fits
  have front : printNodes indicator table (.raw text :: behind) chain bare =
      (printRaw indicator text bare).andThen (printNodes indicator table behind chain) := rfl
  rw [front] at fits h
  simp only [Printed.andThen, String.toList_append, List.append_assoc] at h
  have grows := Draft.Grows.readRaw d bare text
  obtain ⟨d', reads, ends⟩ := next.unlinked grouped (grows.sized sized) (.raw begins h) fits
  exact ⟨d', reads.cons grows fun copies more => .raw bare, ends⟩

theorem leaf (single : node.isLeaf = true) (other : ∀ text, node ≠ .raw text)
    (spelled : node.Spelled) :
    ReadsPrinted indicator final table tables linked (node :: behind) := by
  intro d chain bare rest sized _ h fits
  have start : continuesChain (node :: behind) = false :=
    Printing.continuesChain_cons.trans (Node.isChained_of_isLeaf single)
  rw [start]
  rw [printNodes_leaf single other grouped.head?_ne_scope] at fits h
  simp only [Printed.andThen, String.toList_append, List.append_assoc] at h
  obtain ⟨d₁, changes, h⟩ := Draft.Ends.leaf begins spelled single other h
  have grows := Draft.Grows.push (Node.reread_ne_raw other) changes
  obtain ⟨d', reads, ends⟩ := next.unlinked grouped (grows.sized sized) h fits
  exact ⟨d', reads.cons grows fun copies more => .leaf single other, ends⟩

/-- What is spliced into a place is read in front of the nodes behind the place. -/
theorem place {asRaw : Bool} {file : String}
    (inside : ∀ k, .scope (some k) ∈ .scope (some target) :: behind →
      Followed indicator final (table k) tables (tables k)) :
    ReadsPrinted indicator final table tables linked
      (.inline file asRaw :: .scope (some target) :: behind) := by
  intro d chain bare rest sized _ h fits
  have front : printNodes indicator table (.inline file asRaw :: .scope (some target) :: behind)
      chain bare = (table target bare).andThen (printNodes indicator table behind chain) := rfl
  rw [front] at fits h
  simp only [Printed.andThen, String.toList_append, List.append_assoc] at h
  obtain ⟨d₁, part, h⟩ := (inside target (by simp)).reads d bare _ sized h
    (fits_printNodes begins (fun k mem => inside k (.tail _ mem)) grouped _ fits)
  obtain ⟨d', reads, ends⟩ := next.unlinked grouped (part.choose_spec.1.sized sized) h fits
  exact ⟨d', .place sized part reads, ends⟩

omit grouped next

/-- A body is read behind its tag, and the nodes behind it either go on with its chain or follow its
end tag. -/
theorem body (opens : node.hasBody = true) (chained : node.isChained = true → linked = true)
    (spelled : node.Spelled) (grouped : Grouped node.isBlock behind last)
    (inside : ∀ k, .scope (some k) ∈ .scope (some target) :: behind →
      Followed indicator final (table k) tables (tables k))
    (next : ReadsPrinted indicator final table tables node.isBlock behind) :
    ReadsPrinted indicator final table tables linked (node :: .scope (some target) :: behind) := by
  intro d chain bare rest sized pending h fits
  have within : ∀ k, .scope (some k) ∈ behind →
      Followed indicator final (table k) tables (tables k) := fun k mem => inside k (.tail _ mem)
  have body := (inside target (by simp)).reads
  rw [Printing.continuesChain_cons] at pending ⊢
  rw [printNodes_body opens] at fits h
  have based : (if node.isChained then d.closeScope else d).Sized := by
    split
    · exact sized.closeScope
    · exact sized
  cases goesOn : continuesChain behind with
  | true =>
    have block : node.isBlock = true := by
      by_contra other
      rw [Bool.eq_false_of_not_eq_true other] at grouped
      rw [grouped.not_continuesChain] at goesOn
      cases goesOn
    rw [Node.endName?_of_continues block goesOn] at fits h
    simp only [Node.close, Printed.andThen, String.toList_append, List.append_assoc] at fits h
    obtain ⟨kind, e, enters, h, awaits, isChain⟩ :=
      Draft.Ends.opens begins spelled opens pending h
    obtain ⟨e', part, h⟩ := body e false _ (enters.sized based) h
      (fits_printNodes begins within grouped _ fits)
    obtain ⟨top, outer, opened, topKind⟩ := part.opened enters
    have goes : e'.Pending (node.chainHead chain) := by
      obtain ⟨names, rfl⟩ := isChain block
      obtain ⟨first, more, rfl, word, head, -⟩ := awaits
      exact ⟨top, outer, first, more, opened, topKind, word, head⟩
    have read := next (part.choose_spec.1.sized (enters.sized based)) (fun _ => goes) h fits
    rw [goesOn] at read
    obtain ⟨d', reads, ends⟩ := read
    exact ⟨d', .body based opens chained enters part reads, ends⟩
  | false =>
    obtain ⟨name, due⟩ := Node.exists_endName? opens (node.chainHead chain)
    rw [Node.endName?_of_not_continues goesOn, due] at fits h
    simp only [Node.close, Printed.andThen, String.toList_append, String.toList_ofList,
      List.append_assoc, List.singleton_append] at fits h
    obtain ⟨kind, e, enters, h, awaits, -⟩ := Draft.Ends.opens begins spelled opens pending h
    obtain ⟨e', part, h⟩ := body e false _ (enters.sized based) h (fits_cons begins.stops _ _)
    obtain ⟨top, outer, opened, rfl⟩ := part.opened enters
    obtain ⟨name', word, same, closes⟩ := awaits.closes
    obtain rfl : name = name' := Option.some.inj (due.symm.trans same)
    have closed := Draft.Ends.close begins word (by rw [opened]; exact closes)
      (fits_printNodes begins within grouped true fits) (by simpa using h)
    have read := next (part.choose_spec.1.sized (enters.sized based)).closeScope
      (by rw [goesOn]; rintro ⟨⟩) closed fits
    rw [goesOn] at read
    obtain ⟨d', reads, ends⟩ := read
    exact ⟨d', .body based opens chained enters part reads, ends⟩

end ReadsPrinted

/-- Printed nodes are read as what they are with everything pasted in. -/
theorem reads_printNodes (begins : TagStart indicator)
    (inside : ∀ k, .scope (some k) ∈ nodes → Followed indicator final (table k) tables (tables k))
    (grouped : Grouped linked nodes last) (each : ∀ node ∈ nodes, node.Spelled ∨ node = .raw "") :
    ReadsPrinted indicator final table tables linked nodes := by
  induction grouped with
  | nil =>
    intro d chain bare rest _ _ h _
    exact ⟨d, ⟨[], .refl d, fun _ _ => .nil⟩, h⟩
  | @leaf _ _ node behind single grouped ih =>
    obtain ⟨spelled, each⟩ := List.forall_mem_cons.mp each
    have next := ih (fun k mem => inside k (.tail _ mem)) each
    by_cases raw : ∃ text, node = .raw text
    · obtain ⟨text, rfl⟩ := raw
      exact .raw begins grouped next text
    · have other : ∀ text, node ≠ .raw text := fun text eq => raw ⟨text, eq⟩
      exact .leaf begins grouped next single other (spelled.resolve_right (other ""))
  | @place _ _ asRaw file target behind grouped ih =>
    have each := (List.forall_mem_cons.mp (List.forall_mem_cons.mp each).2).2
    have next := ih (fun k mem => inside k (.tail _ (.tail _ mem))) each
    exact .place begins grouped next fun k mem => inside k (.tail _ mem)
  | @body _ _ node target behind opens chained grouped ih =>
    obtain ⟨spelled, each⟩ := List.forall_mem_cons.mp each
    have next := ih (fun k mem => inside k (.tail _ (.tail _ mem))) (List.forall_mem_cons.mp each).2
    have spelled : node.Spelled := spelled.resolve_right (by rintro rfl; cases opens)
    exact .body begins opens chained spelled grouped (fun k mem => inside k (.tail _ mem)) next

namespace Template

variable {config : Config} {name : String} {t again : Template}

/-- Templates that were parsed with one configuration. -/
def ParsedWith (config : Config) (t : Template) : Prop :=
  ∃ name source, parse .core config name source = .ok t

theorem ParsedWith.parsedCore (h : t.ParsedWith config) : t.ParsedCore := by
  obtain ⟨name, source, made⟩ := h
  exact ⟨config, name, source, made⟩

theorem Assembled.core (h : Assembled (ParsedWith config) t) : Assembled ParsedCore t :=
  h.mono fun _ => ParsedWith.parsedCore

theorem Assembled.parsed (h : Assembled ParsedCore t) : Assembled Parsed t :=
  h.mono fun _ => ParsedCore.parsed

theorem Assembled.indicator_eq (h : Assembled (ParsedWith config) t) :
    t.indicator = config.indicator := by
  induction h with
  | given h =>
    obtain ⟨name, source, made⟩ := h
    obtain ⟨tokens, -, made⟩ := ofTokens_of_parse made
    obtain ⟨d, -, -, rfl⟩ := read_of_ofTokens made
    rfl
  | inlineTemplate name _ _ ih =>
    unfold Template.inlineTemplate
    dsimp only
    split <;> exact ih
  | inlineRaw name text _ ih =>
    unfold Template.inlineRaw
    dsimp only
    split <;> exact ih

section

variable (begins : TagStart t.indicator) (assembled : Assembled ParsedCore t)
  (resolved : t.resolved = true)
include begins assembled resolved

/-- The printed source of a table can be followed, by induction on the tables behind it. -/
theorem followed_printTable {levels j : Nat} (enough : t.tables.length ≤ j + levels) :
    Followed t.indicator final (t.printTable levels j) t.table (t.table j) := by
  have layout := assembled.parsed.layout
  have filled := (assembled.parsed.tallies.resolved_iff layout).mp resolved
  induction levels generalizing j with
  | zero =>
    rw [table_of_length_le (show t.tables.length ≤ j from enough)]
    exact ⟨fun _ _ fits => fits, fun d _ _ _ ends _ => ⟨d, ⟨[], .refl d, fun _ _ => .nil⟩, ends⟩⟩
  | succ levels ih =>
    have printed : t.printTable (levels + 1) j =
        printNodes t.indicator (t.printTable levels) (t.table j) none := rfl
    rw [printed]
    obtain ⟨last, grouped, each, inside⟩ : ∃ last, Grouped false (t.table j) last ∧
        (∀ node ∈ t.table j, node.Spelled ∨ node = .raw "") ∧
        ∀ k, .scope (some k) ∈ t.table j →
          Followed t.indicator final (t.printTable levels k) t.table (t.table k) := by
      cases found : t.tables[j]? with
      | none =>
        rw [table_of_length_le (List.getElem?_eq_none_iff.mp found)]
        exact ⟨false, .nil false, by simp, by simp⟩
      | some nodes =>
        have mem := List.mem_of_getElem? found
        rw [table_of_getElem? found]
        obtain ⟨last, grouped, -⟩ := Grouped.of_laid (layout.laid nodes mem) (filled nodes mem)
        refine ⟨last, grouped, ?_, fun k inside => ih ?_⟩
        · rcases assembled.spelled nodes mem with each | rfl
          · exact fun node inside => .inl (each node inside)
          · exact fun node inside => .inr (List.mem_singleton.mp inside)
        · have later := (layout.forward j nodes k found inside).1
          omega
    refine ⟨fun bare rest => fits_printNodes begins inside grouped bare, ?_⟩
    intro d bare rest sized ends fits
    have reads := reads_printNodes begins inside grouped each
    exact reads.unlinked grouped sized ends fits

/-- If the printed source of a template with everything spliced can be parsed, it is parsed as its
nodes with those of its parts pasted in. -/
theorem pasted_of_parse (reparsed : parse .core config name t.text = .ok again)
    (same : t.indicator = config.indicator) : ∃ more,
      Pasted t.table again.table false (t.table 0) more ∧ again.table 0 = joinRaw [] more := by
  obtain ⟨tokens, scanned, made⟩ := ofTokens_of_parse reparsed
  obtain ⟨d, read, -, rfl⟩ := read_of_ofTokens made
  have scanned : Token.scanText config.indicator ⟨t.text.toList, {}⟩ = .ok tokens := scanned
  have ends : Draft.Ends t.indicator d {} (t.text.toList ++ []) := by
    refine ⟨"", {}, ?_⟩
    rw [List.append_nil, same]
    unfold Draft.readAt Draft.readOn
    rw [scanned]
    dsimp only
    rw [read]
    rfl
  have nothing : Fits (t.printTable t.tables.length 0 false).bare [] := fun _ c first => by
    cases first
  have followed : Followed t.indicator d (t.printTable t.tables.length 0) t.table (t.table 0) :=
    followed_printTable begins assembled resolved (Nat.le_add_left _ _)
  obtain ⟨e, ⟨more, grows, pastes⟩, tag, place, last⟩ :=
    followed.reads {} false [] .start ends nothing
  have whole : e = d := by
    unfold Draft.readAt Draft.readOn at last
    rw [show Token.scanText t.indicator ⟨[], place⟩ = .ok [] by rw [Token.scanText_eq]; rfl] at last
    dsimp only at last
    rw [Draft.read] at last
    exact Except.ok.inj last
  subst whole
  have copies : ∀ k table, 1 ≤ k → e.tables[k]? = some table →
      (e.finish name config.indicator).table k = table :=
    fun k table _ found => @table_of_getElem? (e.finish name config.indicator) _ _ found
  have pasted := pastes _ copies
  refine ⟨more, pasted, ?_⟩
  rw [← addNodes_nil pasted.nonempty]
  exact table_of_getElem? grows.here

end

end Template

end Stencil
