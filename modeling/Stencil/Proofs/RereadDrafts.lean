import Stencil.Proofs.Coverage
import Stencil.Proofs.ReadingOn

/-!
# Drafts read back

What printed nodes are read as: the same nodes with their expressions read back, except that a
character of raw text may come back as an expression behind an end tag. The draft of printed source
has the same declarations and scopes as the draft that was printed, and every change to the one has
its counterpart for the other.
-/

namespace Stencil

namespace Node

/-- What a printed node is read as. -/
def reread : Node → Node
  | output e => output e.reread
  | declare name constant value => declare name constant (value.map Expr.reread)
  | assign v op value => assign v op value.reread
  | block name chained behaviour args => block name chained behaviour (Expr.rereadItems args)
  | define name value => define name (value.map Expr.reread)
  | evaluate name default => evaluate name (default.map Expr.reread)
  | node => node

/-- Whether a node names the table of a body, behind which an end tag may stand. -/
def endsBody : Node → Bool
  | scope target => target.isSome
  | _ => false

/-- What printed raw text is read as, given whether it stands right behind an end tag. -/
def rereadRaw (bare : Bool) (text : String) : List Node :=
  match text.toList with
  | [] => [.raw text]
  | c :: rest =>
    if bare && extendsTag c then
      .output (.value (.string (String.ofList [c]))) ::
        (if rest.isEmpty then [] else [.raw (String.ofList rest)])
    else [.raw text]

/-- What printed nodes are read as. -/
def rereadAll : (bare : Bool) → List Node → List Node
  | _, [] => []
  | bare, .raw text :: rest => rereadRaw bare text ++ rereadAll false rest
  | _, node :: rest => node.reread :: rereadAll node.endsBody rest

/-- Whether the last node names the table of a body. -/
def bareBehind (bare : Bool) (nodes : List Node) : Bool :=
  (nodes.getLast?.map endsBody).getD bare

variable {bare : Bool} {node : Node} {nodes more : List Node}

theorem rereadAll_cons (other : ∀ text, node ≠ .raw text) :
    rereadAll bare (node :: nodes) = node.reread :: rereadAll node.endsBody nodes := by
  cases node with
  | raw text => exact absurd rfl (other text)
  | _ => rfl

theorem bareBehind_cons : bareBehind bare (node :: nodes) = bareBehind node.endsBody nodes := by
  cases nodes with
  | nil => rfl
  | cons next nodes => simp [bareBehind, List.getLast?_cons]

theorem rereadAll_append :
    rereadAll bare (nodes ++ more) =
      rereadAll bare nodes ++ rereadAll (bareBehind bare nodes) more := by
  induction nodes generalizing bare with
  | nil => rfl
  | cons node nodes ih =>
    rw [bareBehind_cons, List.cons_append]
    by_cases raw : ∃ text, node = .raw text
    · obtain ⟨text, rfl⟩ := raw
      rw [rereadAll, rereadAll, ih, List.append_assoc]
      rfl
    · have other : ∀ text, node ≠ .raw text := fun text eq => raw ⟨text, eq⟩
      rw [rereadAll_cons other, rereadAll_cons other, ih, List.cons_append]

/-- A node behind others, unless it is raw text. -/
theorem rereadAll_snoc (other : ∀ text, node ≠ .raw text) :
    rereadAll bare (nodes ++ [node]) = rereadAll bare nodes ++ [node.reread] := by
  rw [rereadAll_append, rereadAll_cons other]
  rfl

theorem appendRaw_of_ne_raw (text : String) (last : ∀ before, nodes.getLast? ≠ some (.raw before)) :
    Draft.appendRaw text nodes = nodes ++ [.raw text] := by
  unfold Draft.appendRaw
  split
  · rename_i before eq
    exact absurd eq (last before)
  · rfl

/-- Raw text behind nodes that do not end with raw text. -/
theorem rereadAll_appendRaw_of_ne_raw (text : String)
    (last : ∀ before, nodes.getLast? ≠ some (.raw before)) :
    rereadAll false (Draft.appendRaw text nodes) =
      rereadAll false nodes ++ rereadRaw (bareBehind false nodes) text := by
  rw [appendRaw_of_ne_raw text last, rereadAll_append, rereadAll, rereadAll, List.append_nil]

/-- More raw text behind raw text. -/
theorem rereadRaw_append {before text : String} (some : before ≠ "") (more : text ≠ "") :
    rereadRaw bare (before ++ text) = Draft.appendRaw text (rereadRaw bare before) := by
  unfold rereadRaw
  rw [String.toList_append]
  cases eq : before.toList with
  | nil => exact absurd (String.toList_eq_nil_iff.mp eq) some
  | cons c rest =>
    dsimp only [List.cons_append]
    split
    · have nonempty : (rest ++ text.toList).isEmpty = false := by
        simp [more]
      rw [nonempty]
      cases rest with
      | nil => simp [Draft.appendRaw]
      | cons d rest =>
        rw [String.ofList_append, String.ofList_toList]
        rfl
    · rfl

theorem rereadRaw_ne_nil (bare : Bool) (text : String) : rereadRaw bare text ≠ [] := by
  unfold rereadRaw
  split
  · simp
  · split <;> simp

theorem appendRaw_append (text : String) (some : more ≠ []) :
    Draft.appendRaw text (nodes ++ more) = nodes ++ Draft.appendRaw text more := by
  unfold Draft.appendRaw
  rw [List.getLast?_append_of_ne_nil _ some, List.dropLast_append_of_ne_nil some]
  split <;> rw [List.append_assoc]

theorem reread_ne_raw (other : ∀ text, node ≠ .raw text) : ∀ text, node.reread ≠ .raw text := by
  cases node with
  | raw text => exact absurd rfl (other text)
  | _ => rintro text ⟨⟩

/-- Nodes that do not end with raw text are read as nodes that do not. -/
theorem getLast?_rereadAll_ne_raw (last : ∀ text, nodes.getLast? ≠ some (.raw text)) :
    ∀ text, (rereadAll bare nodes).getLast? ≠ some (.raw text) := by
  intro text
  cases found : nodes.getLast? with
  | none =>
    rw [List.getLast?_eq_none_iff.mp found]
    rintro ⟨⟩
  | some node =>
    obtain ⟨front, rfl⟩ := List.getLast?_eq_some_iff.mp found
    have other : ∀ text, node ≠ .raw text := by
      rintro text rfl
      exact last text found
    rw [rereadAll_snoc other, List.getLast?_append_of_ne_nil _ (by simp)]
    exact fun eq => reread_ne_raw other text (Option.some.inj eq)

theorem rereadAll_appendRaw_of_raw {before text : String} (nonempty : before ≠ "")
    (more : text ≠ "")
    (last : nodes.getLast? = some (.raw before)) :
    rereadAll false (Draft.appendRaw text nodes) =
      Draft.appendRaw text (rereadAll false nodes) := by
  obtain ⟨front, rfl⟩ := List.getLast?_eq_some_iff.mp last
  have behind :
      Draft.appendRaw text (front ++ [.raw before]) = front ++ [.raw (before ++ text)] := by
    rw [appendRaw_append text (by simp)]
    rfl
  have single (bare : Bool) (text : String) : rereadAll bare [.raw text] = rereadRaw bare text :=
    List.append_nil _
  rw [behind, rereadAll_append, rereadAll_append, single, single, rereadRaw_append nonempty more,
    appendRaw_append text (rereadRaw_ne_nil _ _)]

end Node

theorem map_modify {α β : Type} {f : α → β} {xs : List α} {i : Nat} {change : α → α}
    {change' : β → β}
    (same : ∀ x, xs[i]? = some x → f (change x) = change' (f x)) :
    (xs.modify i change).map f = (xs.map f).modify i change' := by
  refine List.ext_getElem? fun k => ?_
  rw [List.getElem?_map, List.getElem?_modify, List.getElem?_modify, List.getElem?_map]
  cases found : xs[k]? with
  | none => rfl
  | some x =>
    by_cases here : i = k
    · subst here
      simp [same x found]
    · simp [here]

/-- What printed raw text does to a draft when it is read. -/
def Draft.readRaw (d : Draft) (bare : Bool) (text : String) : Draft :=
  match text.toList with
  | [] => d
  | c :: rest =>
    if bare && extendsTag c then
      (d.push (.output (.value (.string (String.ofList [c]))))).addRaw (String.ofList rest)
    else d.addRaw text

theorem modify_congr {α : Type} {xs : List α} {i : Nat} {f g : α → α}
    (same : ∀ x, xs[i]? = some x → f x = g x) : xs.modify i f = xs.modify i g := by
  have mapped : (xs.modify i f).map id = (xs.map id).modify i g := map_modify same
  rwa [List.map_id, List.map_id] at mapped

/-- Raw text that is read is added to the table as it stands. -/
theorem Draft.readRaw_eq {d : Draft} {bare : Bool} {text : String} {nodes : List Node}
    (nonempty : text ≠ "") (here : d.tables[d.current]? = some nodes)
    (last : ∀ before, nodes.getLast? ≠ some (.raw before)) :
    d.readRaw bare text = { d with
      tables := d.tables.modify d.current (· ++ Node.rereadRaw bare text) } := by
  unfold readRaw
  cases eq : text.toList with
  | nil => exact absurd (String.toList_eq_nil_iff.mp eq) nonempty
  | cons c rest =>
    dsimp only
    by_cases first : (bare && extendsTag c) = true
    · have split : Node.rereadRaw bare text = .output (.value (.string (String.ofList [c]))) ::
          (if rest.isEmpty then [] else [.raw (String.ofList rest)]) := by
        simp only [Node.rereadRaw, eq, if_pos first]
      rw [if_pos first, split]
      cases rest with
      | nil => rfl
      | cons e rest =>
        rw [addRaw_of_nonempty _ (by simp)]
        unfold push
        dsimp only [current]
        rw [List.modify_modify_eq]
        congr 2
        funext nodes
        exact Node.appendRaw_append _ (by simp)
    · have whole : Node.rereadRaw bare text = [.raw text] := by
        simp only [Node.rereadRaw, eq, if_neg first]
      rw [if_neg first, whole, addRaw_of_nonempty d nonempty]
      have same : d.tables.modify d.current (appendRaw text) =
          d.tables.modify d.current (· ++ [.raw text]) := by
        refine modify_congr fun found here' => ?_
        rw [here] at here'
        cases here'
        exact Node.appendRaw_of_ne_raw text last
      rw [same]

/-- A scope without the place where it was opened. -/
def OpenScope.unplaced (s : OpenScope) : OpenScope := { s with location := {} }

namespace Draft

/-- A draft, and the draft that its printed source is read as. -/
structure Reread (d d' : Draft) : Prop where
  tables : d'.tables = d.tables.map (Node.rereadAll false)
  opened : d'.opened.map (·.unplaced) = d.opened.map (·.unplaced)
  declared : d'.declared = d.declared
  required : d'.required = d.required
  templates : d'.templates = d.templates
  raws : d'.raws = d.raws

namespace Reread

variable {d d' u : Draft} {v : Variable} {e : Expr} {node : Node} {nodes : List Node}
  {text : String}

theorem start : Reread {} {} := ⟨rfl, rfl, rfl, rfl, rfl, rfl⟩

/-- What is read from the scopes without their places is the same. -/
theorem map_opened {α : Type} {f : OpenScope → α} (h : Reread d d')
    (unplaced : ∀ s, f s.unplaced = f s) : d'.opened.map f = d.opened.map f := by
  have same := congrArg (List.map f) h.opened
  rwa [List.map_map, List.map_map, show f ∘ OpenScope.unplaced = f from funext unplaced] at same

theorem current (h : Reread d d') : d'.current = d.current := by
  unfold Draft.current
  rw [← List.head?_map, ← List.head?_map, h.map_opened fun _ => rfl]

theorem frames (h : Reread d d') : d'.frames = d.frames := by
  unfold Draft.frames
  rw [h.map_opened fun _ => rfl, h.declared]

theorem lookup? (h : Reread d d') (name : String) : d'.lookup? name = d.lookup? name := by
  unfold Draft.lookup?
  rw [h.frames]

theorem innermost (h : Reread d d') : d'.innermost = d.innermost := by
  unfold Draft.innermost
  rw [h.frames]

theorem use (h : Reread d d') (made : d.use v = .ok u) :
    ∃ u', d'.use v = .ok u' ∧ Reread u u' := by
  unfold Draft.use at made ⊢
  rw [h.lookup?]
  dsimp only at made ⊢
  generalize (if v.scope.isNone then d.lookup? v.member else none) = known at made ⊢
  cases known with
  | none =>
    cases made
    exact ⟨_, rfl, h.tables, h.opened, h.declared, by rw [h.required], h.templates, h.raws⟩
  | some known =>
    dsimp only at made ⊢
    by_cases assigned : known.assigned = true
    · rw [if_pos assigned] at made ⊢
      cases made
      exact ⟨d', rfl, h⟩
    · rw [if_neg assigned] at made
      cases made

theorem foldlM {α : Type} {f : Draft → α → Except Fault Draft} {g : α → α}
    (step : ∀ {d d' u a}, Reread d d' → f d a = .ok u → ∃ u', f d' (g a) = .ok u' ∧ Reread u u')
    {items : List α} (h : Reread d d') (made : items.foldlM f d = .ok u) :
    ∃ u', (items.map g).foldlM f d' = .ok u' ∧ Reread u u' := by
  induction items generalizing d d' with
  | nil =>
    cases made
    exact ⟨d', rfl, h⟩
  | cons a items ih =>
    rw [List.foldlM_cons] at made
    obtain ⟨next, first, made⟩ := ok_of_bind made
    obtain ⟨next', first', h'⟩ := step h first
    obtain ⟨u', rest, done⟩ := ih h' made
    refine ⟨u', ?_, done⟩
    rw [List.map_cons, List.foldlM_cons, first']
    exact rest

theorem useAll (h : Reread d d') (made : d.useAll e = .ok u) :
    ∃ u', d'.useAll e.reread = .ok u' ∧ Reread u u' := by
  unfold Draft.useAll at made ⊢
  rw [Expr.vars_reread, ← List.map_id e.vars]
  exact h.foldlM (g := id) (fun h made => h.use made) made

theorem useArgs (h : Reread d d') {items : List Expr} (made : items.foldlM Draft.useAll d = .ok u) :
    ∃ u', (items.map Expr.reread).foldlM Draft.useAll d' = .ok u' ∧ Reread u u' :=
  h.foldlM (fun h made => h.useAll made) made

theorem declare (h : Reread d d') (name : String) (known : Declared) :
    Reread (d.declare name known) (d'.declare name known) := by
  have opened := h.opened
  unfold Draft.declare
  cases here : d.opened with
  | nil =>
    rw [here, List.map_nil, List.map_eq_nil_iff] at opened
    rw [opened]
    exact ⟨h.tables, rfl, by rw [h.declared], h.required, h.templates, h.raws⟩
  | cons s outer =>
    rw [here, List.map_cons] at opened
    obtain ⟨s', outer', eq, same, rest⟩ := List.map_eq_cons_iff.mp opened
    rw [eq]
    refine ⟨h.tables, ?_, h.declared, h.required, h.templates, h.raws⟩
    have declared : s'.declared = s.declared := congrArg (·.declared) same
    rw [List.map_cons, List.map_cons, rest, declared]
    exact congrArg (fun t : OpenScope => { t with declared := s.declared.insert name known } :: _)
      same

theorem markIn (name : String) {opened opened' : List OpenScope}
    (h : opened'.map (·.unplaced) = opened.map (·.unplaced)) :
    (Draft.markIn name opened').1.map (·.unplaced) =
        (Draft.markIn name opened).1.map (·.unplaced) ∧
      (Draft.markIn name opened').2 = (Draft.markIn name opened).2 := by
  induction opened generalizing opened' with
  | nil =>
    rw [List.map_nil, List.map_eq_nil_iff] at h
    rw [h]
    exact ⟨rfl, rfl⟩
  | cons s outer ih =>
    rw [List.map_cons] at h
    obtain ⟨s', outer', rfl, same, rest⟩ := List.map_eq_cons_iff.mp h
    have declared : s'.declared = s.declared := congrArg (·.declared) same
    obtain ⟨marked, told⟩ := ih rest
    unfold Draft.markIn
    rw [declared]
    cases s.declared.find? name with
    | none =>
      dsimp only
      rw [List.map_cons, List.map_cons, marked, same]
      exact ⟨rfl, told⟩
    | some found =>
      dsimp only
      rw [List.map_cons, List.map_cons, rest]
      exact ⟨congrArg (fun t : OpenScope =>
        { t with declared := s.declared.insert name { found with assigned := true } } :: _)
          same, rfl⟩

theorem markAssigned (h : Reread d d') (name : String) :
    Reread (d.markAssigned name) (d'.markAssigned name) := by
  obtain ⟨marked, told⟩ := markIn name h.opened
  unfold Draft.markAssigned
  generalize Draft.markIn name d.opened = result at marked told
  generalize Draft.markIn name d'.opened = result' at marked told
  obtain ⟨opened, done⟩ := result
  obtain ⟨opened', done'⟩ := result'
  dsimp only at marked told
  subst told
  cases done' with
  | true => exact ⟨h.tables, marked, h.declared, h.required, h.templates, h.raws⟩
  | false =>
    dsimp only
    rw [h.declared]
    cases d.declared.find? name with
    | none => exact h
    | some found =>
      exact ⟨h.tables, h.opened, rfl, h.required, h.templates, h.raws⟩

/-- A change of the current table. -/
theorem rewrite (h : Reread d d') {f g : List Node → List Node}
    (same : ∀ nodes, d.tables[d.current]? = some nodes →
      Node.rereadAll false (f nodes) = g (Node.rereadAll false nodes)) :
    Reread { d with tables := d.tables.modify d.current f }
      { d' with tables := d'.tables.modify d'.current g } := by
  refine ⟨?_, h.opened, h.declared, h.required, h.templates, h.raws⟩
  show d'.tables.modify d'.current g = (d.tables.modify d.current f).map _
  rw [h.current, h.tables, map_modify same]

theorem push (h : Reread d d') (other : ∀ text, node ≠ .raw text) :
    Reread (d.push node) (d'.push node.reread) :=
  h.rewrite fun _ _ => Node.rereadAll_snoc other

theorem push_place (h : Reread d d') (file : String) (asRaw : Bool) :
    Reread ((d.push (.inline file asRaw)).push (.scope none))
      ((d'.push (.inline file asRaw)).push (.scope none)) :=
  (h.push (by rintro text ⟨⟩)).push (by rintro text ⟨⟩)

/-- Raw text that goes on with the raw text before it. -/
theorem addRaw_behind (h : Reread d d') {before : String} (nonempty : before ≠ "")
    (here : d.tables[d.current]? = some nodes) (last : nodes.getLast? = some (.raw before))
    (text : String) : Reread (d.addRaw text) (d'.addRaw text) := by
  by_cases empty : text = ""
  · subst empty
    exact h
  · rw [addRaw_of_nonempty d empty, addRaw_of_nonempty d' empty]
    refine h.rewrite fun found same => ?_
    rw [here] at same
    cases same
    exact Node.rereadAll_appendRaw_of_raw nonempty empty last

/-- Raw text that is the first behind a tag. -/
theorem addRaw_front (h : Reread d d') (nonempty : text ≠ "")
    (here : d.tables[d.current]? = some nodes)
    (last : ∀ before, nodes.getLast? ≠ some (.raw before)) :
    Reread (d.addRaw text) (d'.readRaw (Node.bareBehind false nodes) text) := by
  have here' : d'.tables[d'.current]? = some (Node.rereadAll false nodes) := by
    rw [h.current, h.tables, List.getElem?_map, here]
    rfl
  have last' : ∀ before, (Node.rereadAll false nodes).getLast? ≠ some (.raw before) :=
    Node.getLast?_rereadAll_ne_raw last
  rw [addRaw_of_nonempty d nonempty, readRaw_eq nonempty here' last']
  refine h.rewrite fun found same => ?_
  rw [here] at same
  cases same
  exact Node.rereadAll_appendRaw_of_ne_raw text last

theorem closeScope (h : Reread d d') : Reread d.closeScope d'.closeScope :=
  ⟨h.tables, by simpa [Draft.closeScope] using congrArg List.tail h.opened, h.declared, h.required,
    h.templates, h.raws⟩

theorem openScope (h : Reread d d') (other : ∀ text, node ≠ .raw text) (name : String)
    (kind : ScopeKind) (place place' : Text.Location) (declared : Entries Declared) :
    Reread (d.openScope node name kind place declared)
      (d'.openScope node.reread name kind place' declared) := by
  have length : d'.tables.length = d.tables.length := by rw [h.tables, List.length_map]
  have scope : ∀ text, Node.scope (some d.tables.length) ≠ .raw text := by rintro text ⟨⟩
  have written := (h.push other).push scope
  unfold Draft.openScope
  dsimp only
  rw [length]
  refine ⟨?_, ?_, h.declared, h.required, h.templates, h.raws⟩
  · show _ ++ [[]] = (_ ++ [[]]).map _
    rw [List.map_append, ← written.tables]
    rfl
  · show OpenScope.unplaced _ :: d'.opened.map _ = OpenScope.unplaced _ :: d.opened.map _
    rw [h.opened]
    rfl

end Reread

end Draft

end Stencil
