import Stencil.Engine
import Stencil.Proofs.ParseSteps
import Stencil.Proofs.TableLayout

/-!
# The array of tables

Tables refer forward, each table but the first is named by one scope of a parsed template, and the
nodes of every table stand in their groups. A draft keeps this through each step of a parse together
with what it says about the open scopes: the table of a scope is the last that the table around it
names. Splicing keeps it as well.
-/

namespace Stencil

/-- Raw text at the end of a table keeps it laid out. -/
theorem Laid.appendRaw {nodes : List Node} (h : Laid nodes) (text : String) :
    Laid (Draft.appendRaw text nodes) := by
  unfold Draft.appendRaw
  split
  · rename_i before last
    cases h with
    | nil => cases last
    | @leaf front _ old _ =>
      have more : Laid (front ++ [.raw (before ++ text)]) := .leaf old rfl
      simpa using more
    | place => simp at last
    | body => simp at last
  · exact .leaf h rfl

theorem filterMap_appendRaw (text : String) (nodes : List Node) :
    (Draft.appendRaw text nodes).filterMap Node.scopeTarget? =
      nodes.filterMap Node.scopeTarget? := by
  unfold Draft.appendRaw
  split
  · rename_i before last
    obtain ⟨front, rfl⟩ := List.getLast?_eq_some_iff.mp last
    simp [List.filterMap_append, List.filterMap_cons, Node.scopeTarget?]
  · simp [List.filterMap_append, List.filterMap_cons, Node.scopeTarget?]

/-- The tables that scopes name, in order. -/
def scopeTargets (tables : List (List Node)) : List Nat :=
  tables.flatMap fun nodes => nodes.filterMap Node.scopeTarget?

/-- Scopes name later tables only, below a bound. -/
def Forward (bound : Nat) (tables : List (List Node)) : Prop :=
  ∀ (i : Nat) (nodes : List Node) (j : Nat), tables[i]? = some nodes →
    .scope (some j) ∈ nodes → i < j ∧ j < bound

/-- A scope in a table names a later one, below the bound. -/
theorem Forward.of_mem_table {bound i j : Nat} {tables : List (List Node)}
    (h : Forward bound tables) (mem : .scope (some j) ∈ tables[i]?.getD []) :
    i < j ∧ j < bound := by
  obtain ⟨nodes, found, inside⟩ := exists_of_mem_getD mem
  exact h i nodes j found inside

/-- The table that is written when these scopes are open. -/
def writtenTable (opened : List OpenScope) : Nat := (opened.head?.map (·.table)).getD 0

/-- The table of each open scope is named at the end of the table around it, behind a block if the
scope belongs to a chain. -/
inductive OpenedIn (tables : List (List Node)) : List OpenScope → Prop
  | nil : OpenedIn tables []
  | cons {s : OpenScope} {outer : List OpenScope} {front : List Node} {node : Node}
      (bound : s.table < tables.length) (later : writtenTable outer < s.table)
      (around : tables[writtenTable outer]? = some (front ++ [node, .scope (some s.table)]))
      (kind : ∀ names, s.kind = .chain names → node.isBlock = true)
      (rest : OpenedIn tables outer) : OpenedIn tables (s :: outer)

theorem OpenedIn.written_lt {tables : List (List Node)} {opened : List OpenScope}
    (h : OpenedIn tables opened) (nonempty : 0 < tables.length) :
    writtenTable opened < tables.length := by
  cases h with
  | nil => exact nonempty
  | cons bound => exact bound

/-- Open scopes are not affected by what happens to the table that is written, or to later ones. -/
theorem OpenedIn.congr {tables tables' : List (List Node)} {opened : List OpenScope}
    (h : OpenedIn tables opened) (longer : tables.length ≤ tables'.length) {bound : Nat}
    (le : writtenTable opened ≤ bound) (same : ∀ i, i < bound → tables'[i]? = tables[i]?) :
    OpenedIn tables' opened := by
  induction h with
  | nil => exact .nil
  | @cons s outer front node hb later around kind rest ih =>
    have inside : writtenTable outer < bound := Nat.lt_of_lt_of_le later le
    exact .cons (Nat.lt_of_lt_of_le hb longer) later (by rw [same _ inside, around]) kind
      (ih (Nat.le_of_lt inside))

/-- What the open scopes are of, without their names and declarations. -/
def OpenScope.shape (s : OpenScope) : Nat × ScopeKind := (s.table, s.kind)

theorem writtenTable_of_shape {opened opened' : List OpenScope}
    (same : opened'.map (·.shape) = opened.map (·.shape)) :
    writtenTable opened' = writtenTable opened := by
  have heads := congrArg (fun shapes => (shapes.head?.map Prod.fst).getD 0) same
  simpa [List.head?_map, Option.map_map, Function.comp_def, OpenScope.shape, writtenTable]
    using heads

theorem OpenedIn.of_shape {tables : List (List Node)} {opened opened' : List OpenScope}
    (h : OpenedIn tables opened) (same : opened'.map (·.shape) = opened.map (·.shape)) :
    OpenedIn tables opened' := by
  induction h generalizing opened' with
  | nil =>
    rw [List.map_nil, List.map_eq_nil_iff] at same
    subst same
    exact .nil
  | @cons s outer front node hb later around kind rest ih =>
    obtain ⟨s', outer', rfl, hs, ho⟩ := List.map_eq_cons_iff.mp same
    have table : s'.table = s.table := congrArg Prod.fst hs
    have sameKind : s'.kind = s.kind := congrArg Prod.snd hs
    have written : writtenTable outer' = writtenTable outer := writtenTable_of_shape ho
    exact .cons (by rw [table]; exact hb) (by rw [table, written]; exact later)
      (by rw [table, written]; exact around) (by rw [sameKind]; exact kind) (ih ho)

section

variable {α β : Type} {collect : α → List β} {xs : List α} {i : Nat} {f : α → α}

/-- What is collected stays the same where a change leaves it. -/
theorem flatMap_modify (keep : ∀ x, collect (f x) = collect x) :
    (xs.modify i f).flatMap collect = xs.flatMap collect := by
  induction xs generalizing i with
  | nil => simp
  | cons x xs ih =>
    cases i with
    | zero => simp [keep]
    | succ i =>
      simp only [List.modify_succ_cons, List.flatMap_cons]
      exact congrArg _ ih

/-- A change that adds something to collect adds it to all that is collected. -/
theorem perm_flatMap_modify {new : β} (bound : i < xs.length)
    (more : ∀ x, collect (f x) = collect x ++ [new]) :
    ((xs.modify i f).flatMap collect).Perm (xs.flatMap collect ++ [new]) := by
  induction xs generalizing i with
  | nil => cases bound
  | cons x xs ih =>
    cases i with
    | zero =>
      simp only [List.modify_zero_cons, List.flatMap_cons, more, List.append_assoc]
      exact List.Perm.append_left _ List.perm_append_comm
    | succ i =>
      simp only [List.modify_succ_cons, List.flatMap_cons, List.append_assoc]
      exact List.Perm.append_left _ (ih (Nat.lt_of_succ_lt_succ bound))

end

/-- What holds of every item with its index holds after one of them was changed. -/
theorem forall_getElem?_modify {α : Type} {P : Nat → α → Prop} {xs : List α} {i : Nat} {f : α → α}
    (h : ∀ k x, xs[k]? = some x → P k x) (step : ∀ x, xs[i]? = some x → P i x → P i (f x)) :
    ∀ k y, (xs.modify i f)[k]? = some y → P k y := by
  intro k y found
  rw [List.getElem?_modify] at found
  obtain ⟨x, old, rfl⟩ := Option.map_eq_some_iff.mp found
  by_cases same : i = k
  · subst same
    rw [if_pos rfl]
    exact step x old (h i x old)
  · rw [if_neg same]
    exact h k x old

/-- What holds of every item with its index holds with one more behind them. -/
theorem forall_getElem?_concat {α : Type} {P : Nat → α → Prop} {xs : List α} {last : α}
    (h : ∀ k x, xs[k]? = some x → P k x) (new : P xs.length last) :
    ∀ k y, (xs ++ [last])[k]? = some y → P k y := by
  intro k y found
  rw [List.getElem?_append] at found
  split at found
  · exact h k y found
  · obtain ⟨bound, same⟩ := List.getElem?_eq_some_iff.mp found
    have zero : k = xs.length := by
      rw [List.length_singleton] at bound
      omega
    subst zero
    simp only [Nat.sub_self, List.getElem_cons_zero] at same
    rwa [← same]

theorem forall_mem_modify {α : Type} {P : α → Prop} {xs : List α} {i : Nat} {f : α → α}
    (h : ∀ x ∈ xs, P x) (step : ∀ x, xs[i]? = some x → P x → P (f x)) :
    ∀ x ∈ xs.modify i f, P x := by
  have all := forall_getElem?_modify (P := fun _ => P)
    (fun k x found => h x (List.mem_of_getElem? found)) step
  intro y mem
  obtain ⟨k, found⟩ := List.mem_iff_getElem?.mp mem
  exact all k y found

/-- New scopes in a table keep the array directed if they name later tables. -/
theorem Forward.modify {bound bound' : Nat} {tables : List (List Node)} {i : Nat}
    {f : List Node → List Node} (h : Forward bound tables) (le : bound ≤ bound')
    (new : ∀ nodes j, tables[i]? = some nodes → .scope (some j) ∈ f nodes →
      .scope (some j) ∈ nodes ∨ (i < j ∧ j < bound')) :
    Forward bound' (tables.modify i f) := by
  have all := forall_getElem?_modify
    (P := fun k nodes => ∀ j, .scope (some j) ∈ nodes → k < j ∧ j < bound')
    (fun k nodes found j mem =>
      (h k nodes j found mem).imp_right fun less => Nat.lt_of_lt_of_le less le)
    fun nodes found old j mem => (new nodes j found mem).elim (old j) id
  exact fun k nodes j found => all k nodes found j

theorem Forward.append {bound : Nat} {front more : List (List Node)} (h : Forward bound front)
    (new : ∀ i nodes j, more[i]? = some nodes → .scope (some j) ∈ nodes →
      front.length + i < j ∧ j < bound) : Forward bound (front ++ more) := by
  intro k nodes j hk hj
  rw [List.getElem?_append] at hk
  split at hk
  · exact h k nodes j hk hj
  · rename_i notFront
    have := new _ nodes j hk hj
    omega

namespace Draft

theorem current_eq (d : Draft) : d.current = writtenTable d.opened := rfl

/-! A declaration, or a mark on one, changes what is declared and nothing else. -/

theorem tables_declare (d : Draft) (name : String) (known : Declared) :
    (d.declare name known).tables = d.tables := by
  unfold declare
  split <;> rfl

theorem required_declare (d : Draft) (name : String) (known : Declared) :
    (d.declare name known).required = d.required := by
  unfold declare
  split <;> rfl

theorem tables_markAssigned (d : Draft) (name : String) :
    (d.markAssigned name).tables = d.tables := by
  unfold markAssigned
  split
  · rfl
  · split <;> rfl

theorem required_markAssigned (d : Draft) (name : String) :
    (d.markAssigned name).required = d.required := by
  unfold markAssigned
  split
  · rfl
  · split <;> rfl

section

variable {d : Draft} {α : Type} {f : OpenScope → α}
  (other : ∀ (s : OpenScope) (declared : Entries Declared), f { s with declared } = f s)
include other

theorem opened_declare (name : String) (known : Declared) :
    (d.declare name known).opened.map f = d.opened.map f := by
  unfold declare
  split
  · rename_i opened
    simp [opened, other]
  · rfl

theorem map_markIn (name : String) (opened : List OpenScope) :
    (markIn name opened).1.map f = opened.map f := by
  induction opened with
  | nil => rfl
  | cons scope outer ih =>
    unfold markIn
    split
    · simp [other]
    · simp [ih]

theorem opened_markAssigned (name : String) :
    (d.markAssigned name).opened.map f = d.opened.map f := by
  have marked := map_markIn other name d.opened
  unfold markAssigned
  split
  · rename_i opened eq
    rw [eq] at marked
    exact marked
  · split <;> rfl

end

theorem push_push (d : Draft) (node next : Node) :
    (d.push node).push next =
      { d with tables := d.tables.modify d.current (· ++ [node, next]) } := by
  simp [push, current, List.modify_modify_eq, Function.comp_def]

theorem tables_openScope (d : Draft) (node : Node) (name : String) (kind : ScopeKind)
    (place : Text.Location) (declared : Entries Declared) :
    (d.openScope node name kind place declared).tables =
      d.tables.modify d.current (· ++ [node, .scope (some d.tables.length)]) ++ [[]] := by
  simp only [openScope, push_push]

end Draft

/-- The tables and the open scopes of a draft fit together. -/
structure Draft.Formed (d : Draft) : Prop where
  nonempty : 0 < d.tables.length
  laid : ∀ nodes ∈ d.tables, Laid nodes
  forward : Forward d.tables.length d.tables
  once : (scopeTargets d.tables).Perm (List.range' 1 (d.tables.length - 1))
  opened : OpenedIn d.tables d.opened

namespace Draft.Formed

variable {d d' : Draft}

theorem start : ({} : Draft).Formed where
  nonempty := by decide
  laid := by
    intro nodes mem
    rw [List.mem_singleton.mp mem]
    exact .nil
  forward := by
    intro i nodes j hi hj
    rw [List.mem_singleton.mp (List.mem_of_getElem? hi)] at hj
    cases hj
  once := .nil
  opened := .nil

/-- Tables and shapes of scopes are all that counts. -/
theorem of_shape (h : d.Formed) (tables : d'.tables = d.tables)
    (opened : d'.opened.map (·.shape) = d.opened.map (·.shape)) : d'.Formed where
  nonempty := tables ▸ h.nonempty
  laid := tables ▸ h.laid
  forward := by rw [tables]; exact h.forward
  once := tables ▸ h.once
  opened := (tables ▸ h.opened).of_shape opened

theorem of_sameBut (h : d.Formed) (same : SameBut d d') : d'.Formed := by
  unfold SameBut at same
  rw [same]
  exact h.of_shape rfl rfl

theorem current_lt (h : d.Formed) : d.current < d.tables.length := h.opened.written_lt h.nonempty

/-- The table that is written may be rewritten without new scopes. -/
theorem rewrite (h : d.Formed) {f : List Node → List Node}
    (laid : ∀ nodes, Laid nodes → Laid (f nodes))
    (keep : ∀ nodes, (f nodes).filterMap Node.scopeTarget? = nodes.filterMap Node.scopeTarget?) :
    Draft.Formed { d with tables := d.tables.modify d.current f } where
  nonempty := by simpa using h.nonempty
  laid := forall_mem_modify h.laid fun nodes _ old => laid nodes old
  forward := by
    rw [List.length_modify]
    refine h.forward.modify (Nat.le_refl _) fun nodes j _ mem => .inl ?_
    have named : j ∈ (f nodes).filterMap Node.scopeTarget? :=
      List.mem_filterMap.mpr ⟨_, mem, rfl⟩
    rw [keep] at named
    obtain ⟨node, old, eq⟩ := List.mem_filterMap.mp named
    cases node <;> cases eq
    exact old
  once := by
    rw [scopeTargets, flatMap_modify keep, List.length_modify]
    exact h.once
  opened := h.opened.congr (by simp) (Nat.le_refl _) fun i before => by
    exact List.getElem?_modify_ne f d.tables (Nat.ne_of_gt before)

theorem push_leaf (h : d.Formed) {node : Node} (single : node.isLeaf = true) :
    (d.push node).Formed := by
  refine h.rewrite (fun _ old => .leaf old single) fun nodes => ?_
  rw [List.filterMap_append]
  rw [List.filterMap_cons, Node.scopeTarget?_of_isLeaf single, List.filterMap_nil, List.append_nil]

theorem push_place (h : d.Formed) (file : String) (asRaw : Bool) :
    ((d.push (.inline file asRaw)).push (.scope none)).Formed := by
  rw [push_push]
  refine h.rewrite (fun _ old => .place old) fun nodes => ?_
  simp [List.filterMap_append, List.filterMap_cons, Node.scopeTarget?]

theorem addRaw (h : d.Formed) (text : String) : (d.addRaw text).Formed := by
  unfold Draft.addRaw
  split
  · exact h
  · exact h.rewrite (fun _ old => old.appendRaw text) (filterMap_appendRaw text)

/-- A node with a body may be written, and the scope of its body opened. -/
theorem openScope (h : d.Formed) {node : Node} {name : String} {kind : ScopeKind}
    {place : Text.Location} {declared : Entries Declared} (opens : node.hasBody = true)
    (linked : node.isChained = true → ∀ nodes, d.tables[d.current]? = some nodes →
      EndsInBlock nodes)
    (chain : ∀ names, kind = .chain names → node.isBlock = true) :
    (d.openScope node name kind place declared).Formed := by
  let write : List Node → List Node := (· ++ [node, .scope (some d.tables.length)])
  have tables : (d.openScope node name kind place declared).tables =
      d.tables.modify d.current write ++ [[]] := d.tables_openScope ..
  have length : (d.openScope node name kind place declared).tables.length =
      d.tables.length + 1 := by
    rw [tables]; simp
  have targets (nodes : List Node) : (write nodes).filterMap Node.scopeTarget? =
      nodes.filterMap Node.scopeTarget? ++ [d.tables.length] := by
    simp only [write, List.filterMap_append, List.filterMap_cons,
      Node.scopeTarget?_of_hasBody opens, List.filterMap_nil]
    rfl
  refine ⟨by omega, ?_, ?_, ?_, ?_⟩
  · rw [tables]
    intro nodes mem
    rcases List.mem_append.mp mem with mem | mem
    · exact forall_mem_modify h.laid
        (fun old hold laid => .body laid opens fun c => linked c old hold) nodes mem
    · rw [List.mem_singleton.mp mem]
      exact .nil
  · rw [length, tables]
    refine (h.forward.modify (Nat.le_succ _) fun nodes j _ mem => ?_).append ?_
    · simp only [write, List.mem_append, List.mem_cons, List.not_mem_nil, or_false] at mem
      rcases mem with mem | mem | mem
      · exact .inl mem
      · rw [← mem] at opens
        cases opens
      · cases mem
        exact .inr ⟨h.current_lt, Nat.lt_succ_self _⟩
    · intro i nodes j hi mem
      rw [List.mem_singleton.mp (List.mem_of_getElem? hi)] at mem
      cases mem
  · rw [length, tables, Nat.add_sub_cancel]
    have last : scopeTargets [[]] = [] := rfl
    have sum : 1 + (d.tables.length - 1) = d.tables.length := by have := h.nonempty; omega
    rw [scopeTargets, List.flatMap_append, ← scopeTargets, ← scopeTargets, last, List.append_nil]
    refine (perm_flatMap_modify h.current_lt targets).trans ?_
    have grow := List.range'_1_concat (s := 1) (n := d.tables.length - 1)
    rw [Nat.sub_add_cancel h.nonempty, sum] at grow
    rw [grow]
    exact h.once.append_right _
  · have around : (d.openScope node name kind place declared).tables[d.current]? =
        some (d.tables.get ⟨d.current, h.current_lt⟩ ++ [node, .scope (some d.tables.length)]) := by
      rw [tables, List.getElem?_append_left (by simpa using h.current_lt),
        List.getElem?_modify_eq, List.getElem?_eq_getElem h.current_lt]
      rfl
    refine .cons (by rw [length]; exact Nat.lt_succ_self _) h.current_lt around chain ?_
    refine h.opened.congr (by omega) (Nat.le_refl _) fun i before => ?_
    have inside := Nat.lt_trans before h.current_lt
    rw [tables, List.getElem?_append_left (by simpa using inside)]
    exact List.getElem?_modify_ne write d.tables (Nat.ne_of_gt before)

theorem closeScope (h : d.Formed) : d.closeScope.Formed where
  nonempty := h.nonempty
  laid := h.laid
  forward := h.forward
  once := h.once
  opened := by
    have inside : OpenedIn d.tables d.opened := h.opened
    show OpenedIn d.tables d.opened.tail
    generalize d.opened = opened at inside
    cases inside with
    | nil => exact .nil
    | cons _ _ _ _ rest => exact rest

/-- Behind the last link of a chain that is closed stands the body of a block. -/
theorem endsInBlock_of_close (h : d.Formed) {top : OpenScope} {outer : List OpenScope}
    {names : List String} (opened : d.opened = top :: outer) (kind : top.kind = .chain names) :
    ∀ nodes, d.closeScope.tables[d.closeScope.current]? = some nodes → EndsInBlock nodes := by
  intro nodes hn
  have inside := h.opened
  rw [opened] at inside
  cases inside with
  | @cons _ _ front node _ _ around isBlock _ =>
    simp only [Draft.closeScope, current, opened, List.tail_cons] at hn
    unfold writtenTable at around
    rw [around] at hn
    cases hn
    exact ⟨front, node, _, rfl, isBlock names kind⟩

theorem of_declare (h : d.Formed) (name : String) (declared : Declared) :
    (d.declare name declared).Formed :=
  h.of_shape (tables_declare d name declared) (opened_declare (fun _ _ => rfl) name declared)

theorem of_markAssigned (h : d.Formed) (name : String) : (d.markAssigned name).Formed :=
  h.of_shape (tables_markAssigned d name) (opened_markAssigned (fun _ _ => rfl) name)

variable {source : List Lexeme} {entities : Entities} {indicator : Char}

/-- A tag keeps tables and open scopes fitting together. -/
theorem of_tagStep {site : TagSite} (h : d.Formed) (step : TagSite.Step source site d d') :
    d'.Formed := by
  cases step with
  | text => exact h.addRaw _
  | output _ _ uses => exact (h.of_sameBut (sameBut_of_useAll uses)).push_leaf rfl
  | call _ _ uses => exact (h.of_sameBut (sameBut_of_useAll uses)).push_leaf rfl
  | declareEmpty => exact (h.of_declare _ _).push_leaf rfl
  | declare _ _ uses =>
    exact ((h.of_sameBut (sameBut_of_useAll uses)).of_declare _ _).push_leaf rfl
  | assign _ _ _ _ _ uses =>
    exact ((h.of_sameBut (sameBut_of_useAll uses)).of_markAssigned _).push_leaf rfl
  | defineValue _ _ uses => exact (h.of_sameBut (sameBut_of_useAll uses)).push_leaf rfl
  | defineBody => exact h.openScope rfl (fun c => by cases c) (fun _ c => by cases c)
  | evaluate => exact h.push_leaf rfl
  | evaluateOr _ _ uses => exact (h.of_sameBut (sameBut_of_useAll uses)).push_leaf rfl
  | inlineRaw =>
    refine push_place ?_ _ _
    exact h.of_shape rfl rfl
  | inlineTemplate =>
    refine push_place ?_ _ _
    exact h.of_shape rfl rfl
  | encode => exact h.openScope rfl (fun c => by cases c) (fun _ c => by cases c)
  | block _ _ _ _ uses =>
    exact (h.of_sameBut (sameBut_of_useArgs uses)).openScope rfl (fun c => by cases c)
      (fun _ _ => rfl)
  | link _ opened kind _ _ _ uses =>
    have same := sameBut_of_useArgs uses
    refine (h.closeScope.of_sameBut same).openScope rfl (fun _ nodes hn => ?_) (fun _ _ => rfl)
    unfold SameBut at same
    rw [same] at hn
    exact h.endsInBlock_of_close opened kind nodes hn
  | close => exact h.closeScope

theorem of_step (h : d.Formed) (step : Step source entities indicator d d') : d'.Formed := by
  cases step with
  | raw => exact h.addRaw _
  | mark => exact h.addRaw _
  | tag _ step => exact h.of_tagStep step

end Draft.Formed

/-- The draft of a template that was parsed. -/
theorem Template.formed_of_ofTokens {entities : Entities} {config : Config} {name : String}
    {tokens : List Lexeme} {t : Template}
    (h : Template.ofTokens entities config name tokens = .ok t) :
    ∃ d : Draft, d.Formed ∧ d.tables = t.tables := by
  obtain ⟨d, read, _, rfl⟩ := Template.read_of_ofTokens h
  exact ⟨d, Draft.invariant_of_read .start (fun h step => h.of_step step) read, rfl⟩

end Stencil
