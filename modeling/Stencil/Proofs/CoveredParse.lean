import Stencil.Proofs.Coverage

/-!
# Coverage of parsed templates

A draft is covered as far as it is written, and the declarations in effect are among the names that
are known where each open scope is written. Each step of a parse with the core registry keeps this.
-/

namespace Stencil

/-- The declarations in effect in open scopes, the innermost first. -/
def framesIn (root : Entries Declared) (opened : List OpenScope) : List (Entries Declared) :=
  opened.map (·.declared) ++ [root]

/-- A declaration of a name is in effect. -/
def Visible (frames : List (Entries Declared)) (name : String) : Prop :=
  (frames.findSome? (·.find? name)).isSome = true

theorem visible_cons {declared : Entries Declared} {frames : List (Entries Declared)}
    {name : String} :
    Visible (declared :: frames) name ↔ (declared.find? name).isSome = true ∨
      Visible frames name := by
  unfold Visible
  rw [List.findSome?_cons]
  cases declared.find? name with
  | none => simp
  | some found => simp

/-- The names that are known where a table is written. -/
def reached (tables : List (List Node)) (known : Nat → List String) (table : Nat) : List String :=
  Node.namesAfter (known table) (tables[table]?.getD [])

/-- The declarations in effect are known where the tables of open scopes are written. -/
inductive KnownIn (tables : List (List Node)) (known : Nat → List String)
    (root : Entries Declared) : List OpenScope → Prop
  | root (h : ∀ name, Visible (framesIn root []) name → name ∈ reached tables known 0) :
      KnownIn tables known root []
  | scope {s : OpenScope} {outer : List OpenScope}
      (h : ∀ name, Visible (framesIn root (s :: outer)) name →
        name ∈ reached tables known s.table)
      (rest : KnownIn tables known root outer) : KnownIn tables known root (s :: outer)

namespace KnownIn

variable {tables tables' : List (List Node)} {known known' : Nat → List String}
  {root : Entries Declared} {opened : List OpenScope}

theorem written (h : KnownIn tables known root opened) :
    ∀ name, Visible (framesIn root opened) name →
      name ∈ reached tables known (writtenTable opened) := by
  cases h with
  | root h => exact h
  | scope h => exact h

/-- More may become known in the tables that there are. -/
theorem mono (h : KnownIn tables known root opened) (inside : OpenedIn tables opened)
    (nonempty : 0 < tables.length)
    (grow : ∀ i, i < tables.length → reached tables known i ⊆ reached tables' known' i) :
    KnownIn tables' known' root opened := by
  induction h with
  | root h => exact .root fun name visible => grow 0 nonempty (h name visible)
  | scope h _ ih =>
    cases inside with
    | cons bound _ _ _ rest =>
      exact .scope (fun name visible => grow _ bound (h name visible)) (ih rest)

end KnownIn

/-- Declarations of the same names. -/
def SameNames (a b : Entries Declared) : Prop :=
  ∀ name, (b.find? name).isSome = true ↔ (a.find? name).isSome = true

theorem sameNames_insert {declared : Entries Declared} {name : String} {found again : Declared}
    (h : declared.find? name = some found) : SameNames declared (declared.insert name again) := by
  intro other
  rw [Entries.find?_insert_isSome]
  refine ⟨fun either => either.elim ?_ id, .inr⟩
  rintro rfl
  rw [h]
  rfl

theorem visible_framesIn_cons {root : Entries Declared} {s : OpenScope} {outer : List OpenScope}
    {name : String} : Visible (framesIn root (s :: outer)) name ↔
      (s.declared.find? name).isSome = true ∨ Visible (framesIn root outer) name :=
  visible_cons

theorem visible_framesIn_nil {root : Entries Declared} {name : String} :
    Visible (framesIn root []) name ↔ (root.find? name).isSome = true := by
  unfold framesIn
  rw [List.map_nil, List.nil_append, visible_cons]
  simp [Visible]

/-- A draft whose open scopes declare the same names in the same tables. -/
theorem KnownIn.of_sameNames {tables : List (List Node)} {known : Nat → List String}
    {root root' : Entries Declared} {opened opened' : List OpenScope}
    (h : KnownIn tables known root opened) (same : SameNames root root')
    (scopes : List.Forall₂ (fun a b => b.table = a.table ∧ SameNames a.declared b.declared) opened
      opened') : KnownIn tables known root' opened' := by
  have visible {opened opened' : List OpenScope}
      (scopes : List.Forall₂ (fun a b => b.table = a.table ∧ SameNames a.declared b.declared)
        opened opened') (name : String) (h : Visible (framesIn root' opened') name) :
      Visible (framesIn root opened) name := by
    induction scopes with
    | nil => exact visible_framesIn_nil.mpr ((same name).mp (visible_framesIn_nil.mp h))
    | cons first _ ih =>
      rcases visible_framesIn_cons.mp h with here | outer
      · exact visible_framesIn_cons.mpr (.inl ((first.2 name).mp here))
      · exact visible_framesIn_cons.mpr (.inr (ih outer))
  induction h generalizing opened' with
  | root h =>
    cases scopes
    exact .root fun name seen => h name (visible .nil name seen)
  | scope h _ ih =>
    cases scopes with
    | cons first rest =>
      refine .scope (fun name seen => ?_) (ih rest)
      rw [first.1]
      exact h name (visible (.cons first rest) name seen)

/-- The tables of a draft are covered, and its declarations are known. -/
structure Draft.Covered (known : Nat → List String) (d : Draft) : Prop where
  start : known 0 = []
  tables : ∀ i nodes, d.tables[i]? = some nodes →
    Node.AllCovered d.required known none (known i) nodes
  known : KnownIn d.tables known d.declared d.opened

namespace Draft

theorem frames_eq (d : Draft) : d.frames = framesIn d.declared d.opened := rfl

/-- A used variable is declared, or required from then on. -/
theorem covers_of_use {d d' : Draft} {v : Variable} (h : d.use v = .ok d') :
    d.required ⊆ d'.required ∧
      (v.scope = none ∧ Visible d.frames v.member ∨ v.rootKey ∈ d'.required) := by
  rcases use_cases h with ⟨declared, plain, found, _, rfl⟩ | ⟨_, rfl⟩
  · refine ⟨List.Subset.refl _, .inl ⟨plain, ?_⟩⟩
    unfold lookup? at found
    unfold Visible
    rw [found]
    rfl
  · refine ⟨fun key mem => NameSet.mem_insert.mpr (.inr mem), .inr ?_⟩
    exact NameSet.mem_insert.mpr (.inl rfl)

theorem frames_of_sameBut {d d' : Draft} (same : SameBut d d') : d'.frames = d.frames := by
  unfold SameBut at same
  rw [same]
  rfl

/-- All variables of a list that is used are declared or required. -/
theorem covers_of_foldlM_use {vars : List Variable} {d d' : Draft}
    (h : vars.foldlM use d = .ok d') :
    d.required ⊆ d'.required ∧ ∀ v ∈ vars,
      v.scope = none ∧ Visible d.frames v.member ∨ v.rootKey ∈ d'.required := by
  induction vars generalizing d with
  | nil =>
    cases h
    exact ⟨List.Subset.refl _, by simp⟩
  | cons v vars ih =>
    rw [List.foldlM_cons] at h
    obtain ⟨next, first, h⟩ := ok_of_bind h
    have here := covers_of_use first
    have more := ih h
    refine ⟨List.Subset.trans here.1 more.1, fun w mem => ?_⟩
    rcases List.mem_cons.mp mem with rfl | mem
    · exact here.2.imp_right fun required => more.1 required
    · rw [frames_of_sameBut (sameBut_of_use first)] at more
      exact more.2 w mem

theorem covers_of_useAll {d d' : Draft} {e : Expr} (h : d.useAll e = .ok d') :
    d.required ⊆ d'.required ∧ ∀ v ∈ e.vars,
      v.scope = none ∧ Visible d.frames v.member ∨ v.rootKey ∈ d'.required :=
  covers_of_foldlM_use h

theorem covers_of_useArgs {items : List Expr} {d d' : Draft}
    (h : items.foldlM useAll d = .ok d') :
    d.required ⊆ d'.required ∧ ∀ e ∈ items, ∀ v ∈ e.vars,
      v.scope = none ∧ Visible d.frames v.member ∨ v.rootKey ∈ d'.required := by
  induction items generalizing d with
  | nil =>
    cases h
    exact ⟨List.Subset.refl _, by simp⟩
  | cons e items ih =>
    rw [List.foldlM_cons] at h
    obtain ⟨next, first, h⟩ := ok_of_bind h
    have here := covers_of_useAll first
    have more := ih h
    refine ⟨List.Subset.trans here.1 more.1, fun x mem v inside => ?_⟩
    rcases List.mem_cons.mp mem with rfl | mem
    · exact (here.2 v inside).imp_right fun required => more.1 required
    · rw [frames_of_sameBut (sameBut_of_useAll first)] at more
      exact more.2 x mem v inside

namespace Covered

variable {known : Nat → List String} {d d' : Draft}

/-- The names that are known where a draft is written. -/
abbrev names (known : Nat → List String) (d : Draft) : List String :=
  reached d.tables known d.current

theorem empty : Draft.Covered (fun _ => []) {} where
  start := rfl
  tables := by
    intro i nodes eq
    rw [List.mem_singleton.mp (List.mem_of_getElem? eq)]
    trivial
  known := .root fun name visible => by
    simp [Visible, framesIn, Entries.find?] at visible

theorem of_sameBut (h : d.Covered known) (same : SameBut d d')
    (grow : d.required ⊆ d'.required) : d'.Covered known := by
  unfold SameBut at same
  rw [same]
  exact ⟨h.start, fun i nodes eq => (h.tables i nodes eq).mono grow, h.known⟩

theorem useAll {e : Expr} (h : d.Covered known) (uses : d.useAll e = .ok d') : d'.Covered known :=
  h.of_sameBut (sameBut_of_useAll uses) (covers_of_useAll uses).1

theorem useArgs {items : List Expr} (h : d.Covered known)
    (uses : items.foldlM Draft.useAll d = .ok d') : d'.Covered known :=
  h.of_sameBut (sameBut_of_useArgs uses) (covers_of_useArgs uses).1

theorem names_of_sameBut (same : SameBut d d') : names known d' = names known d := by
  unfold SameBut at same
  rw [same]
  rfl

/-- An expression whose variables were just used is covered where the draft is written. -/
theorem expr {e : Expr} (h : d.Covered known) (settled : e.Settled)
    (uses : d.useAll e = .ok d') : e.Covered d'.required (names known d') := by
  rw [names_of_sameBut (sameBut_of_useAll uses)]
  exact ⟨settled, fun v mem => ((covers_of_useAll uses).2 v mem).imp_left fun declared =>
    ⟨declared.1, h.known.written _ declared.2⟩⟩

theorem args {items : List Expr} (h : d.Covered known) (settled : ∀ e ∈ items, e.Settled)
    (uses : items.foldlM Draft.useAll d = .ok d') :
    ∀ e ∈ items, e.Covered d'.required (names known d') := by
  intro e mem
  rw [names_of_sameBut (sameBut_of_useArgs uses)]
  exact ⟨settled e mem, fun v inside => ((covers_of_useArgs uses).2 e mem v inside).imp_left
    fun declared => ⟨declared.1, h.known.written _ declared.2⟩⟩

theorem reached_modify_subset {tables : List (List Node)} {table : Nat}
    {f : List Node → List Node}
    (keep : ∀ nodes, Node.namesAfter (known table) nodes ⊆ Node.namesAfter (known table) (f nodes))
    (i : Nat) : reached tables known i ⊆ reached (tables.modify table f) known i := by
  unfold reached
  rw [List.getElem?_modify]
  cases tables[i]? with
  | none => exact List.Subset.refl _
  | some nodes =>
    by_cases same : table = i
    · subst same
      simpa using keep nodes
    · simp [same]

/-- The table that is written may be rewritten if it stays covered and nothing is forgotten. -/
theorem rewrite (h : d.Covered known) (formed : d.Formed) {f : List Node → List Node}
    (covered : ∀ nodes, d.tables[d.current]? = some nodes →
      Node.AllCovered d.required known none (known d.current) nodes →
      Node.AllCovered d.required known none (known d.current) (f nodes))
    (keep : ∀ nodes,
      Node.namesAfter (known d.current) nodes ⊆ Node.namesAfter (known d.current) (f nodes)) :
    Draft.Covered known { d with tables := d.tables.modify d.current f } where
  start := h.start
  tables := forall_getElem?_modify h.tables covered
  known := h.known.mono formed.opened formed.nonempty fun i _ => reached_modify_subset keep i

theorem addRaw (h : d.Covered known) (formed : d.Formed) (text : String) :
    (d.addRaw text).Covered known := by
  unfold Draft.addRaw
  split
  · exact h
  · refine h.rewrite formed (fun _ _ old => old.appendRaw text) fun nodes => ?_
    rw [Node.namesAfter_appendRaw]
    exact List.Subset.refl _

theorem namesAfter_concat (names : List String) (nodes : List Node) (node : Node) :
    Node.namesAfter names (nodes ++ [node]) = node.declares ++ Node.namesAfter names nodes := by
  rw [Node.namesAfter_append]
  rfl

/-- A covered node may be written. -/
theorem push (h : d.Covered known) (formed : d.Formed) {node : Node}
    (covered : ∀ nodes, d.tables[d.current]? = some nodes →
      node.Covered d.required known nodes.getLast? (names known d)) :
    (d.push node).Covered known := by
  refine h.rewrite formed (fun nodes found old => ?_) fun nodes => ?_
  · refine Node.allCovered_append.mpr ⟨old, ?_, trivial⟩
    have here := covered nodes found
    unfold names reached at here
    rw [found] at here
    rwa [Option.or_none]
  · rw [namesAfter_concat]
    exact List.subset_append_right _ _

theorem names_push {node : Node} (formed : d.Formed) :
    names known (d.push node) = node.declares ++ names known d := by
  have inside := formed.current_lt
  have current : (d.push node).current = d.current := rfl
  unfold names reached
  rw [current]
  simp only [Draft.push, List.getElem?_modify_eq, List.getElem?_eq_getElem inside]
  exact namesAfter_concat _ _ _

/-- A passive node may be written if its expressions are covered. -/
theorem push_passive (h : d.Covered known) (formed : d.Formed) {node : Node}
    (passive : node.passive = true)
    (exprs : ∀ e ∈ node.exprs, e.Covered d.required (names known d)) :
    (d.push node).Covered known :=
  h.push formed fun _ _ => Node.covered_of_passive passive exprs

theorem visible_declare {name other : String} {declared : Declared}
    (h : Visible (d.declare name declared).frames other) :
    other = name ∨ Visible d.frames other := by
  rw [frames_eq] at h ⊢
  unfold Draft.declare at h
  split at h
  · rename_i scope outer opened
    rw [opened]
    rcases visible_framesIn_cons.mp h with here | more
    · rcases Entries.find?_insert_isSome.mp here with same | old
      · exact .inl same
      · exact .inr (visible_framesIn_cons.mpr (.inl old))
    · exact .inr (visible_framesIn_cons.mpr (.inr more))
  · rename_i opened
    rw [opened] at h ⊢
    rcases Entries.find?_insert_isSome.mp (visible_framesIn_nil.mp h) with same | old
    · exact .inl same
    · exact .inr (visible_framesIn_nil.mpr old)

/-- A declaration in the innermost scope is known if its node is written already. -/
theorem known_declare {tables : List (List Node)} {name : String} {declared : Declared}
    (h : KnownIn tables known d.declared d.opened) (mem : name ∈ reached tables known d.current) :
    KnownIn tables known (d.declare name declared).declared (d.declare name declared).opened := by
  have written : ∀ other, Visible (d.declare name declared).frames other →
      other ∈ reached tables known d.current := by
    intro other visible
    rcases visible_declare visible with rfl | old
    · exact mem
    · exact h.written other old
  rw [frames_eq] at written
  unfold Draft.declare at written ⊢
  cases opened : d.opened with
  | nil =>
    simp only [opened, Draft.current, List.head?_nil, Option.map_none, Option.getD_none]
      at written ⊢
    exact .root written
  | cons scope outer =>
    simp only [opened, Draft.current, List.head?_cons, Option.map_some, Option.getD_some]
      at written h ⊢
    cases h with
    | scope _ rest => exact .scope written rest

/-- A variable may be declared together with its node. -/
theorem declare (h : d.Covered known) (formed : d.Formed) {name : String} {declared : Declared}
    {constant : Bool} {value : Option Expr}
    (exprs : ∀ e ∈ value.toList, e.Covered d.required (names known d)) :
    ((d.declare name declared).push (.declare name constant value)).Covered known := by
  have pushed : (d.push (.declare name constant value)).Covered known :=
    h.push_passive formed rfl exprs
  have tables := tables_declare d name declared
  have required := required_declare d name declared
  have current : (d.declare name declared).current = d.current :=
    writtenTable_of_shape (opened_declare (fun _ _ => rfl) name declared)
  have same : ((d.declare name declared).push (.declare name constant value)).tables =
      (d.push (.declare name constant value)).tables := by
    simp only [Draft.push, tables, current]
  refine ⟨pushed.start, ?_, ?_⟩
  · intro i nodes eq
    rw [same] at eq
    change Node.AllCovered (d.declare name declared).required _ _ _ _
    rw [required]
    exact pushed.tables i nodes eq
  · rw [same]
    refine known_declare pushed.known ?_
    change name ∈ names known (d.push (.declare name constant value))
    rw [names_push formed]
    exact List.mem_cons_self

theorem sameNames_markIn (name : String) (opened : List OpenScope) :
    List.Forall₂ (fun a b => b.table = a.table ∧ SameNames a.declared b.declared) opened
      (markIn name opened).1 := by
  induction opened with
  | nil => exact .nil
  | cons scope outer ih =>
    unfold markIn
    split
    · rename_i found eq
      refine .cons ⟨rfl, sameNames_insert eq⟩ ?_
      exact List.forall₂_same.mpr fun _ _ => ⟨rfl, fun _ => Iff.rfl⟩
    · exact .cons ⟨rfl, fun _ => Iff.rfl⟩ ih

theorem markAssigned (h : d.Covered known) (name : String) :
    (d.markAssigned name).Covered known := by
  have marked := sameNames_markIn name d.opened
  unfold Draft.markAssigned
  split
  · rename_i opened eq
    rw [eq] at marked
    exact ⟨h.start, h.tables, h.known.of_sameNames (fun _ => Iff.rfl) marked⟩
  · split
    · rename_i found eq
      exact ⟨h.start, h.tables, h.known.of_sameNames (sameNames_insert eq)
        (List.forall₂_same.mpr fun _ _ => ⟨rfl, fun _ => Iff.rfl⟩)⟩
    · exact h

theorem names_markAssigned (name : String) :
    names known (d.markAssigned name) = names known d ∧
      (d.markAssigned name).required = d.required := by
  have current : (d.markAssigned name).current = d.current :=
    writtenTable_of_shape (opened_markAssigned (fun _ _ => rfl) name)
  refine ⟨?_, required_markAssigned d name⟩
  unfold names
  rw [current, tables_markAssigned]

theorem closeScope (h : d.Covered known) : d.closeScope.Covered known := by
  refine ⟨h.start, h.tables, ?_⟩
  have inside := h.known
  change KnownIn d.tables known d.declared d.opened.tail
  generalize d.opened = opened at inside
  cases inside with
  | root h => exact .root h
  | scope _ rest => exact rest

/-- What is known in the tables, with the names of one more. -/
def knownWith (known : Nat → List String) (table : Nat) (names : List String) (i : Nat) :
    List String :=
  if i = table then names else known i

theorem knownWith_of_lt {names : List String} {table i : Nat} (h : i < table) :
    knownWith known table names i = known i :=
  if_neg (Nat.ne_of_lt h)

theorem declares_of_hasBody {node : Node} (h : node.hasBody = true) : node.declares = [] := by
  unfold Node.hasBody at h
  split at h <;> first | rfl | cases h

/-- A scope may be opened behind a covered node that binds what the scope declares. -/
theorem openScope (h : d.Covered known) (formed : d.Formed) {node : Node} {name : String}
    {kind : ScopeKind} {place : Text.Location} {declared : Entries Declared}
    (exprs : ∀ e ∈ node.exprs, e.Covered d.required (names known d))
    (hasBody : node.hasBody = true)
    (binds : ∀ other, (declared.find? other).isSome = true ↔ Node.Binds (some node) other)
    (made : ∀ tag chained behaviour args, node = .block tag chained behaviour args →
      ∃ declared, Block.Made tag ⟨behaviour, args, declared⟩) :
    ∃ known', (d.openScope node name kind place declared).Covered known' := by
  let body := d.tables.length
  let known' := knownWith known body (names known d ++ declared.keys)
  let write : List Node → List Node := (· ++ [node, .scope (some body)])
  have tables : (d.openScope node name kind place declared).tables =
      d.tables.modify d.current write ++ [[]] := d.tables_openScope ..
  have atBody : known' body = names known d ++ declared.keys := if_pos rfl
  have below {i : Nat} (less : i < body) : known' i = known i := knownWith_of_lt less
  have old (i : Nat) (nodes : List Node) (eq : d.tables[i]? = some nodes) :
      Node.AllCovered d.required known' none (known' i) nodes := by
    rw [below (lt_of_getElem?_eq_some eq)]
    refine (h.tables i nodes eq).congr fun table mem => below ?_
    exact (formed.forward i nodes table eq mem).2
  have covered {before : Option Node} :
      node.Covered d.required known' before (names known d) := by
    refine ⟨exprs, ?_, ?_, ?_, made⟩
    · rintro v op value rfl
      cases hasBody
    · rintro table rfl
      cases hasBody
    · rintro table rfl
      cases hasBody
  have entered : (Node.scope (some body)).Covered d.required known' (some node)
      (node.declares ++ names known d) := by
    refine ⟨by simp [Node.exprs], by rintro v op value ⟨⟩, ?_, ?_,
      by rintro tag chained behaviour args ⟨⟩⟩
    · rintro table ⟨⟩ other mem
      rw [atBody, List.mem_append] at mem
      rcases mem with mem | mem
      · exact .inl (List.mem_append_right _ mem)
      · exact .inr ((binds other).mp (Entries.find?_isSome_of_mem_keys mem))
    · rintro table ⟨⟩ _ other reached
      rw [atBody, List.mem_append]
      rw [declares_of_hasBody hasBody, List.nil_append] at reached
      exact reached.imp_right fun bound =>
        Entries.mem_keys_of_find?_isSome ((binds other).mpr bound)
  refine ⟨known', ?_, ?_, ?_⟩
  · rw [below formed.nonempty]
    exact h.start
  · rw [tables]
    refine forall_getElem?_concat (forall_getElem?_modify old fun before found inside => ?_) trivial
    refine Node.allCovered_append.mpr ⟨inside, ?_⟩
    have here : Node.namesAfter (known' d.current) before = names known d := by
      unfold names reached
      rw [below formed.current_lt, found]
      rfl
    rw [here]
    exact ⟨covered, entered, trivial⟩
  · rw [tables]
    have grow (i : Nat) (less : i < body) :
        reached d.tables known i ⊆ reached (d.tables.modify d.current write ++ [[]]) known' i := by
      unfold reached
      rw [below less, List.getElem?_append_left (by simpa using less)]
      refine reached_modify_subset (f := write) (fun nodes => ?_) i
      rw [Node.namesAfter_append]
      exact Node.subset_namesAfter _ _
    refine .scope (fun other visible => ?_) (h.known.mono formed.opened formed.nonempty grow)
    have here : reached (d.tables.modify d.current write ++ [[]]) known' body = known' body := by
      unfold reached
      rw [List.getElem?_append_right (by simp [body])]
      simp [body, Node.namesAfter]
    change other ∈ reached (d.tables.modify d.current write ++ [[]]) known' body
    rw [here, atBody, List.mem_append]
    rcases visible_framesIn_cons.mp visible with new | outer
    · exact .inr (Entries.mem_keys_of_find?_isSome new)
    · exact .inl (h.known.written other outer)

variable {source : List Lexeme} {indicator : Char} {site : TagSite}

theorem push_place (h : d.Covered known) (formed : d.Formed) (file : String) (asRaw : Bool) :
    ((d.push (.inline file asRaw)).push (.scope none)).Covered known := by
  rw [push_push]
  refine h.rewrite formed (fun nodes _ old => ?_) fun nodes => ?_
  · refine Node.allCovered_append.mpr ⟨old, ?_, ?_, trivial⟩
    · exact Node.covered_of_passive rfl (by simp [Node.exprs])
    · exact Node.covered_scope_none
  · rw [Node.namesAfter_append]
    exact Node.subset_namesAfter _ _

/-- Definitions and encoders declare nothing. -/
theorem declares_nothing {node : Node} (none : ∀ other, ¬Node.Binds (some node) other)
    (other : String) :
    (Entries.find? other ([] : Entries Declared)).isSome = true ↔ Node.Binds (some node) other :=
  iff_of_false Bool.false_ne_true (none other)

/-- A block of the core registry may be opened when its arguments were used. -/
theorem openBlock {used : Draft} {tag : String} {made : BlockInstance} {chained : Bool}
    {names : List String} {place : Text.Location} (h : d.Covered known) (formed : d.Formed)
    (block : Block.Made tag made) (uses : made.args.values.foldlM Draft.useAll d = .ok used) :
    ∃ known', (used.openScope (.block tag chained made.behaviour made.args) tag (.chain names)
      place (Entries.ofList (made.declares.map fun name => (name, Declared.mk true true)))).Covered
      known' := by
  refine (h.useArgs uses).openScope (formed.of_sameBut (sameBut_of_useArgs uses))
    (h.args block.settled uses) rfl (fun other => ?_) ?_
  · rw [Entries.find?_ofList_isSome, List.map_map]
    simpa [Function.comp_def, Node.Binds] using block.binds other
  · rintro tag chained behaviour args ⟨⟩
    exact ⟨made.declares, block⟩

/-- An assignment refers to a name that is declared. -/
theorem assign (h : d.Covered known) (formed : d.Formed) {name : String} {op : Operator}
    {value : Expr} {declared : Declared} {used : Draft} (word : Text.IsWord name)
    (settled : value.Settled) (found : d.lookup? name = some declared)
    (uses : d.useAll value = .ok used) :
    ((used.markAssigned name).push (.assign (.plain name) op value)).Covered known := by
  have same := sameBut_of_useAll uses
  have covered := h.expr settled uses
  have marked : names known (used.markAssigned name) = names known used ∧
      (used.markAssigned name).required = used.required := names_markAssigned name
  have inNames : name ∈ names known used := by
    rw [names_of_sameBut same]
    refine h.known.written _ ?_
    rw [← frames_eq]
    unfold Visible
    unfold lookup? at found
    rw [found]
    rfl
  have target : (Expr.var (.plain name)).Covered used.required (names known used) := by
    refine ⟨.var (Variable.spelled_plain word), fun w mem => ?_⟩
    rw [Expr.vars, List.mem_singleton] at mem
    subst mem
    exact .inl ⟨rfl, inNames⟩
  refine ((h.useAll uses).markAssigned name).push
    ((formed.of_sameBut same).of_markAssigned _) fun _ _ => ?_
  rw [marked.1, marked.2]
  refine ⟨by simpa [Node.exprs] using ⟨covered, target⟩, ?_, by rintro table ⟨⟩,
    by rintro table ⟨⟩, by rintro tag chained behaviour args ⟨⟩⟩
  rintro w op' value' ⟨⟩
  exact ⟨rfl, inNames⟩

/-- A tag keeps a draft covered, and no tag calls anything. -/
theorem of_coreStep (h : d.Covered known) (formed : d.Formed)
    (step : TagSite.CoreStep site d d') : ∃ known', d'.Covered known' := by
  cases step with
  | text => exact ⟨known, h.addRaw formed _⟩
  | output settled uses =>
    have covered := h.expr settled uses
    exact ⟨known, (h.useAll uses).push_passive (formed.of_sameBut (sameBut_of_useAll uses)) rfl
      (by simpa [Node.exprs] using covered)⟩
  | declareEmpty => exact ⟨known, h.declare formed (by simp)⟩
  | declare _ settled uses =>
    have same := sameBut_of_useAll uses
    have covered := h.expr settled uses
    exact ⟨known, (h.useAll uses).declare (formed.of_sameBut same) (by simpa using covered)⟩
  | assign word _ settled found _ _ uses => exact ⟨known, h.assign formed word settled found uses⟩
  | defineValue _ settled uses | evaluateOr _ settled uses =>
    have covered := h.expr settled uses
    exact ⟨known, (h.useAll uses).push_passive (formed.of_sameBut (sameBut_of_useAll uses)) rfl
      (by simpa [Node.exprs] using covered)⟩
  | defineBody | encode =>
    exact h.openScope formed (by simp [Node.exprs]) rfl (declares_nothing fun _ => id)
      (by rintro tag chained behaviour args ⟨⟩)
  | evaluate => exact ⟨known, h.push_passive formed rfl (by simp [Node.exprs])⟩
  | @inlineRaw file =>
    refine ⟨known, push_place ?_ ?_ file true⟩
    · exact ⟨h.start, h.tables, h.known⟩
    · exact formed.of_shape rfl rfl
  | @inlineTemplate file =>
    refine ⟨known, push_place ?_ ?_ file false⟩
    · exact ⟨h.start, h.tables, h.known⟩
    · exact formed.of_shape rfl rfl
  | block _ _ core uses => exact h.openBlock formed core uses
  | link _ _ _ _ core uses => exact h.closeScope.openBlock formed.closeScope core uses
  | close => exact ⟨known, h.closeScope⟩

theorem of_step (spelled : ∀ l ∈ source, l.token.Spelled) (h : d.Covered known)
    (formed : d.Formed) (step : Step source .core indicator d d') :
    ∃ known', d'.Covered known' := by
  cases step with
  | raw => exact ⟨known, h.addRaw formed _⟩
  | mark => exact ⟨known, h.addRaw formed _⟩
  | tag _ step => exact h.of_coreStep formed (step.core rfl spelled)

end Covered

/-- A draft of spelled tokens is covered. -/
theorem covered_of_read {source : List Lexeme} {indicator : Char}
    (spelled : ∀ l ∈ source, l.token.Spelled) {d : Draft} {tag : String}
    (h : read .core indicator {} tag source = .ok d) :
    d.Formed ∧ ∃ known, d.Covered known := by
  refine invariant_of_read (P := fun d => d.Formed ∧ ∃ known, d.Covered known)
    ⟨.start, _, .empty⟩ ?_ h
  rintro d d' ⟨formed, known, covered⟩ step
  exact ⟨formed.of_step step, covered.of_step spelled formed step⟩

end Draft

end Stencil
