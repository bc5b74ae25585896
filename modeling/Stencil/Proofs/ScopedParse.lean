import Stencil.Proofs.CoveredParse
import Stencil.Proofs.StaticScopes

/-!
# Scopes of parsed templates

The declarations that the parser has in effect are those of the scopes that the text tells. Each
step of a parse with the core registry keeps this, so an assignment that passes the checks of the
parser names a variable, and a constant is never assigned to where it can be seen.
-/

namespace Stencil

/-- Declarations in effect are those of a scope. -/
def DeclaredAs (declared : Entries Declared) (own : Names) : Prop :=
  ∀ name, own.find? name = (declared.find? name).map (·.constant)

theorem DeclaredAs.insert {declared : Entries Declared} {own : Names} (h : DeclaredAs declared own)
    (name : String) (new : Declared) :
    DeclaredAs (declared.insert name new) (own.insert name new.constant) := by
  intro other
  by_cases same : other = name
  · subst same
    simp
  · rw [Entries.find?_insert_of_ne same, Entries.find?_insert_of_ne same]
    exact h other

/-- Marking a declaration does not make it another. -/
theorem DeclaredAs.mark {declared : Entries Declared} {own : Names} (h : DeclaredAs declared own)
    {name : String} {found again : Declared} (here : declared.find? name = some found)
    (same : again.constant = found.constant) : DeclaredAs (declared.insert name again) own := by
  intro other
  by_cases eq : other = name
  · subst eq
    rw [Entries.find?_insert_self, h other, here, Option.map_some, Option.map_some, same]
  · rw [Entries.find?_insert_of_ne eq]
    exact h other

/-- What the parser finds of a name is what the scopes tell. -/
theorem lookup?_of_agrees {frames : List (Entries Declared)} {scopes : Scopes}
    (h : List.Forall₂ DeclaredAs frames scopes) (name : String) :
    scopes.lookup? name = (frames.findSome? (·.find? name)).map (·.constant) := by
  induction h with
  | nil => rfl
  | cons first _ ih =>
    rw [Scopes.lookup?_cons, List.findSome?_cons, first name, ih]
    split
    · rename_i found
      rw [found]
      rfl
    · rename_i none
      rw [none]
      rfl

/-- The scopes where a table is written. -/
def writtenScopes (tables : List (List Node)) (env : Nat → Scopes) (table : Nat) : Scopes :=
  Node.scopesAfter (env table) (tables[table]?.getD [])

/-- The declarations in effect in open scopes agree with the scopes of their tables. -/
inductive AgreeIn (tables : List (List Node)) (env : Nat → Scopes) (root : Entries Declared) :
    List OpenScope → Prop
  | root (h : List.Forall₂ DeclaredAs (framesIn root []) (writtenScopes tables env 0)) :
      AgreeIn tables env root []
  | scope {s : OpenScope} {outer : List OpenScope}
      (h : List.Forall₂ DeclaredAs (framesIn root (s :: outer)) (writtenScopes tables env s.table))
      (rest : AgreeIn tables env root outer) : AgreeIn tables env root (s :: outer)

namespace AgreeIn

variable {tables tables' : List (List Node)} {env env' : Nat → Scopes} {root : Entries Declared}
  {opened : List OpenScope}

theorem written (h : AgreeIn tables env root opened) :
    List.Forall₂ DeclaredAs (framesIn root opened)
      (writtenScopes tables env (writtenTable opened)) := by
  cases h with
  | root h => exact h
  | scope h => exact h

/-- Only the tables up to the one that is written count. -/
theorem congr (h : AgreeIn tables env root opened) (inside : OpenedIn tables opened) {bound : Nat}
    (below : writtenTable opened < bound)
    (same : ∀ i, i < bound → writtenScopes tables' env' i = writtenScopes tables env i) :
    AgreeIn tables' env' root opened := by
  induction h with
  | root h =>
    rw [← same 0 below] at h
    exact .root h
  | @scope s outer h _ ih =>
    cases inside with
    | cons _ later _ _ rest =>
      rw [← same s.table below] at h
      exact .scope h (ih rest (Nat.lt_trans later below))

end AgreeIn

/-- Open scopes whose tables are the same and whose declarations agree with the same scopes. -/
def SameScopes (opened opened' : List OpenScope) : Prop :=
  List.Forall₂ (fun a b => b.table = a.table ∧
    ∀ own, DeclaredAs a.declared own → DeclaredAs b.declared own) opened opened'

theorem SameScopes.refl (opened : List OpenScope) : SameScopes opened opened :=
  List.forall₂_same.mpr fun _ _ => ⟨rfl, fun _ => id⟩

theorem SameScopes.agree {opened opened' : List OpenScope} (h : SameScopes opened opened')
    {root root' : Entries Declared} (roots : ∀ own, DeclaredAs root own → DeclaredAs root' own)
    {scopes : Scopes} (agree : List.Forall₂ DeclaredAs (framesIn root opened) scopes) :
    List.Forall₂ DeclaredAs (framesIn root' opened') scopes := by
  induction h generalizing scopes with
  | nil =>
    cases agree with
    | cons first rest =>
      cases rest
      exact .cons (roots _ first) .nil
  | cons first _ ih =>
    cases agree with
    | cons here rest => exact .cons (first.2 _ here) (ih rest)

theorem AgreeIn.of_sameScopes {tables : List (List Node)} {env : Nat → Scopes}
    {root root' : Entries Declared} {opened opened' : List OpenScope}
    (h : AgreeIn tables env root opened) (same : SameScopes opened opened')
    (roots : ∀ own, DeclaredAs root own → DeclaredAs root' own) :
    AgreeIn tables env root' opened' := by
  induction h generalizing opened' with
  | root h =>
    have all := same.agree roots h
    cases same
    exact .root all
  | scope h _ ih =>
    have all := same.agree roots h
    cases same with
    | cons first rest =>
      rw [← first.1] at all
      exact .scope all (ih rest)

/-- The nodes of a draft are scoped, and its declarations agree with the scopes. At its start a
scope has constants only. -/
structure Draft.Scoped (env : Nat → Scopes) (d : Draft) : Prop where
  start : env 0 = [[]]
  tables : ∀ i nodes, d.tables[i]? = some nodes → Node.AllScoped env none (env i) nodes
  agree : AgreeIn d.tables env d.declared d.opened
  constants : ∀ i name, ((env i).headD []).find? name ≠ some false

namespace Draft.Scoped

variable {env : Nat → Scopes} {d d' : Draft}

/-- The scopes where a draft is written. -/
abbrev scopes (env : Nat → Scopes) (d : Draft) : Scopes := writtenScopes d.tables env d.current

theorem empty : Draft.Scoped (fun _ => [[]]) {} where
  start := rfl
  tables := by
    intro i nodes eq
    rw [List.mem_singleton.mp (List.mem_of_getElem? eq)]
    trivial
  agree := .root (.cons (fun _ => rfl) .nil)
  constants := by
    rintro i name ⟨⟩

theorem of_sameBut (h : d.Scoped env) (same : SameBut d d') : d'.Scoped env := by
  unfold SameBut at same
  rw [same]
  exact ⟨h.start, h.tables, h.agree, h.constants⟩

theorem written (h : d.Scoped env) : List.Forall₂ DeclaredAs d.frames (scopes env d) :=
  h.agree.written

theorem lookup? (h : d.Scoped env) (name : String) :
    (scopes env d).lookup? name = (d.lookup? name).map (·.constant) :=
  lookup?_of_agrees h.written name

/-- A name that the innermost scope has not is new there. -/
theorem fresh (h : d.Scoped env) {name : String} (new : d.innermost.has name = false) :
    ((scopes env d).headD []).find? name = none := by
  have agree := h.written
  unfold Draft.innermost at new
  cases frames : d.frames with
  | nil => simp [Draft.frames] at frames
  | cons first rest =>
    rw [frames] at agree new
    generalize scopes env d = scopes at agree
    cases agree with
    | cons here _ =>
      rw [List.headD_cons, here name]
      unfold Entries.has at new
      rw [List.headD_cons, Option.isSome_eq_false_iff, Option.isNone_iff_eq_none] at new
      rw [new]
      rfl

theorem writtenScopes_modify {tables : List (List Node)} {table : Nat} {f : List Node → List Node}
    (keep : ∀ nodes, Node.scopesAfter (env table) (f nodes) = Node.scopesAfter (env table) nodes)
    (i : Nat) :
    writtenScopes (tables.modify table f) env i = writtenScopes tables env i := by
  unfold writtenScopes
  rw [List.getElem?_modify]
  by_cases same : table = i
  · subst same
    cases found : tables[table]? with
    | none => rfl
    | some nodes => simpa using keep nodes
  · simp [same]

/-- The table that is written may be rewritten if it stays scoped and declares the same. -/
theorem rewrite (h : d.Scoped env) (formed : d.Formed) {f : List Node → List Node}
    (inside : ∀ nodes, d.tables[d.current]? = some nodes →
      Node.AllScoped env none (env d.current) nodes →
      Node.AllScoped env none (env d.current) (f nodes))
    (keep : ∀ nodes, Node.scopesAfter (env d.current) (f nodes) =
      Node.scopesAfter (env d.current) nodes) :
    Draft.Scoped env { d with tables := d.tables.modify d.current f } where
  start := h.start
  tables := forall_getElem?_modify h.tables inside
  agree := by
    exact h.agree.congr formed.opened (Nat.lt_succ_self _) fun i _ => writtenScopes_modify keep i
  constants := h.constants

theorem addRaw (h : d.Scoped env) (formed : d.Formed) (text : String) :
    (d.addRaw text).Scoped env := by
  unfold Draft.addRaw
  split
  · exact h
  · exact h.rewrite formed (fun _ _ old => old.appendRaw text)
      fun nodes => Node.scopesAfter_appendRaw text

/-- A node that declares nothing may be written if it is scoped. -/
theorem push (h : d.Scoped env) (formed : d.Formed) {node : Node} (nothing : node.declares = [])
    (inside : ∀ before, node.Scoped env before (scopes env d)) : (d.push node).Scoped env := by
  refine h.rewrite formed (fun nodes found old => ?_) fun nodes => ?_
  · have here := inside nodes.getLast?
    unfold scopes writtenScopes at here
    rw [found] at here
    refine Node.allScoped_append.mpr ⟨old, ?_, trivial⟩
    rwa [Option.or_none]
  · rw [Node.scopesAfter_concat, Node.declareIn_of_declares nothing]

theorem push_plain (h : d.Scoped env) (formed : d.Formed) {node : Node}
    (plain : node.plain = true) : (d.push node).Scoped env :=
  h.push formed (Node.declares_of_plain plain) fun _ => Node.scoped_of_plain plain

theorem push_place (h : d.Scoped env) (formed : d.Formed) (file : String) (asRaw : Bool) :
    ((d.push (.inline file asRaw)).push (.scope none)).Scoped env := by
  rw [push_push]
  refine h.rewrite formed (fun nodes _ old => ?_) fun nodes => ?_
  · exact Node.allScoped_append.mpr
      ⟨old, Node.scoped_of_plain rfl, Node.scoped_of_plain rfl, trivial⟩
  · rw [Node.scopesAfter_append]
    rfl

/-- Behind the node of a declaration the scopes have its name. -/
theorem writtenScopes_push_declare (formed : d.Formed) (name : String) (constant : Bool)
    (value : Option Expr) :
    writtenScopes (d.push (.declare name constant value)).tables env d.current =
      Node.declareIn (.declare name constant value) (scopes env d) := by
  have inside := formed.current_lt
  unfold scopes writtenScopes
  simp only [Draft.push, List.getElem?_modify_eq, List.getElem?_eq_getElem inside,
    Option.map_eq_map, Option.map_some, Option.getD_some]
  exact Node.scopesAfter_concat _ _ _

/-- Declarations agree with the scopes behind the node. -/
theorem agree_declare (h : d.Scoped env) (formed : d.Formed) (name : String) (declared : Declared)
    (value : Option Expr) :
    AgreeIn (d.push (.declare name declared.constant value)).tables env
      (d.declare name declared).declared (d.declare name declared).opened := by
  let tables := (d.push (.declare name declared.constant value)).tables
  have behind : writtenScopes tables env d.current =
      Node.declareIn (.declare name declared.constant value) (scopes env d) :=
    writtenScopes_push_declare formed name declared.constant value
  have agree := h.agree.written
  have opened := formed.opened
  change writtenScopes tables env (writtenTable d.opened) =
    Node.declareIn _ (writtenScopes d.tables env (writtenTable d.opened)) at behind
  unfold Draft.declare
  cases eq : d.opened with
  | nil =>
    rw [eq] at agree behind
    generalize writtenScopes d.tables env (writtenTable []) = scopes at agree behind
    cases agree with
    | cons here rest =>
      refine .root ?_
      change List.Forall₂ DeclaredAs _ (writtenScopes tables env (writtenTable []))
      rw [behind]
      exact .cons (here.insert name declared) rest
  | cons scope outer =>
    have inside := h.agree
    rw [eq] at agree behind opened inside
    generalize writtenScopes d.tables env (writtenTable (scope :: outer)) = scopes at agree behind
    cases agree with
    | cons here rest =>
      cases inside with
      | scope _ inside =>
        cases opened with
        | cons _ later _ _ openedOuter =>
          refine .scope ?_ ?_
          · change List.Forall₂ DeclaredAs _
              (writtenScopes tables env (writtenTable (scope :: outer)))
            rw [behind]
            exact .cons (here.insert name declared) rest
          · refine inside.congr openedOuter later fun i below => ?_
            have other : d.current ≠ i := by
              rw [current_eq, eq]
              exact Nat.ne_of_gt below
            simp [writtenScopes, Draft.push, other]

/-- A variable or constant that is new may be declared together with its node. -/
theorem declare (h : d.Scoped env) (formed : d.Formed) {name : String} (declared : Declared)
    {value : Option Expr} (new : d.innermost.has name = false) :
    ((d.declare name declared).push (.declare name declared.constant value)).Scoped env := by
  have current : (d.declare name declared).current = d.current :=
    writtenTable_of_shape (opened_declare (fun _ _ => rfl) name declared)
  have same : ((d.declare name declared).push (.declare name declared.constant value)).tables =
      (d.push (.declare name declared.constant value)).tables := by
    simp only [Draft.push, tables_declare d name declared, current]
  refine ⟨h.start, ?_, ?_, h.constants⟩
  · rw [same]
    refine forall_getElem?_modify h.tables fun old found inside => ?_
    have fresh := h.fresh new
    unfold scopes writtenScopes at fresh
    rw [found] at fresh
    refine Node.allScoped_append.mpr ⟨inside, ⟨?_, ?_, ?_, ?_⟩, trivial⟩
    · rintro v op value ⟨⟩
    · rintro _ _ _ ⟨⟩
      exact fresh
    · rintro table ⟨⟩
    · rintro table ⟨⟩
  · rw [same]
    exact h.agree_declare formed name declared value

theorem sameScopes_markIn (name : String) (opened : List OpenScope) :
    SameScopes opened (markIn name opened).1 := by
  induction opened with
  | nil => exact .nil
  | cons scope outer ih =>
    unfold markIn
    split
    · rename_i found eq
      exact .cons ⟨rfl, fun own agrees => agrees.mark eq rfl⟩ (SameScopes.refl outer)
    · exact .cons ⟨rfl, fun _ => id⟩ ih

theorem markAssigned (h : d.Scoped env) (name : String) : (d.markAssigned name).Scoped env := by
  have marked := sameScopes_markIn name d.opened
  unfold Draft.markAssigned
  split
  · rename_i opened eq
    rw [eq] at marked
    exact ⟨h.start, h.tables, h.agree.of_sameScopes marked fun _ => id, h.constants⟩
  · split
    · rename_i found eq
      exact ⟨h.start, h.tables, h.agree.of_sameScopes (SameScopes.refl _)
        fun own agrees => agrees.mark eq rfl, h.constants⟩
    · exact h

theorem scopes_markAssigned (name : String) : scopes env (d.markAssigned name) = scopes env d := by
  have current : (d.markAssigned name).current = d.current :=
    writtenTable_of_shape (opened_markAssigned (fun _ _ => rfl) name)
  unfold scopes
  rw [current, tables_markAssigned]

theorem closeScope (h : d.Scoped env) : d.closeScope.Scoped env := by
  refine ⟨h.start, h.tables, ?_, h.constants⟩
  have inside := h.agree
  change AgreeIn d.tables env d.declared d.opened.tail
  generalize d.opened = opened at inside
  cases inside with
  | root h => exact .root h
  | scope _ rest => exact rest

/-- The scopes of the tables, with those of one more. -/
def envWith (env : Nat → Scopes) (table : Nat) (scopes : Scopes) (i : Nat) : Scopes :=
  if i = table then scopes else env i

theorem envWith_of_lt {scopes : Scopes} {table i : Nat} (h : i < table) :
    envWith env table scopes i = env i :=
  if_neg (Nat.ne_of_lt h)

/-- A scope of constants at the start is put beside others. -/
theorem constants_envWith {own : Names} (h : ∀ i name, ((env i).headD []).find? name ≠ some false)
    (constants : ∀ name, own.find? name ≠ some false) (table : Nat) {around : Scopes} (i : Nat)
    (name : String) : ((envWith env table (own :: around) i).headD []).find? name ≠ some false := by
  unfold envWith
  split
  · exact constants name
  · exact h i name

theorem plain_of_hasBody {node : Node} (h : node.hasBody = true) : node.plain = true := by
  unfold Node.hasBody at h
  split at h <;> first | rfl | cases h

theorem not_fromElsewhere_of_hasBody {node : Node} (h : node.hasBody = true) :
    ¬Node.FromElsewhere (some node) := by
  unfold Node.hasBody at h
  split at h <;> first | rintro ⟨⟩ | cases h

/-- A scope may be opened behind a node that binds what the scope declares, as constants. -/
theorem openScope (h : d.Scoped env) (formed : d.Formed) {node : Node} {name : String}
    {kind : ScopeKind} {place : Text.Location} {declared : Entries Declared}
    (hasBody : node.hasBody = true) {own : Names} (agrees : DeclaredAs declared own)
    (bound : Node.BoundBy (some node) own) :
    ∃ env', (d.openScope node name kind place declared).Scoped env' := by
  let body := d.tables.length
  let env' := envWith env body (own :: scopes env d)
  let write : List Node → List Node := (· ++ [node, .scope (some body)])
  have tables : (d.openScope node name kind place declared).tables =
      d.tables.modify d.current write ++ [[]] := d.tables_openScope ..
  have plain := plain_of_hasBody hasBody
  have atBody : env' body = own :: scopes env d := if_pos rfl
  have below {i : Nat} (less : i < body) : env' i = env i := envWith_of_lt less
  have old (i : Nat) (nodes : List Node) (eq : d.tables[i]? = some nodes) :
      Node.AllScoped env' none (env' i) nodes := by
    rw [below (lt_of_getElem?_eq_some eq)]
    refine (h.tables i nodes eq).congr fun table mem => below ?_
    exact (formed.forward i nodes table eq mem).2
  have entered : (Node.scope (some body)).Scoped env' (some node) (scopes env d) := by
    refine ⟨by rintro v op value ⟨⟩, by rintro _ _ _ ⟨⟩, ?_, ?_⟩
    · rintro table ⟨⟩ elsewhere
      exact absurd elsewhere (not_fromElsewhere_of_hasBody hasBody)
    · rintro table ⟨⟩ _
      exact ⟨own, atBody, bound⟩
  have keep (nodes : List Node) (scopes : Scopes) :
      Node.scopesAfter scopes (write nodes) = Node.scopesAfter scopes nodes := by
    rw [Node.scopesAfter_append]
    change Node.declareIn (.scope (some body)) (node.declareIn _) = _
    rw [Node.declareIn_of_declares (Node.declares_of_plain plain)]
    rfl
  refine ⟨env', ?_, ?_, ?_, constants_envWith h.constants bound.constants _⟩
  · rw [below formed.nonempty]
    exact h.start
  · rw [tables]
    refine forall_getElem?_concat (forall_getElem?_modify old fun before found inside => ?_) trivial
    have here : Node.scopesAfter (env' d.current) before = scopes env d := by
      unfold scopes writtenScopes
      rw [below formed.current_lt, found]
      rfl
    refine Node.allScoped_append.mpr ⟨inside, Node.scoped_of_plain plain, ?_, trivial⟩
    rw [here, Node.declareIn_of_declares (Node.declares_of_plain plain)]
    exact entered
  · rw [tables]
    have same (i : Nat) (less : i < body) :
        writtenScopes (d.tables.modify d.current write ++ [[]]) env' i =
          writtenScopes d.tables env i := by
      unfold writtenScopes
      rw [below less, List.getElem?_append_left (by simpa using less)]
      exact writtenScopes_modify (fun nodes => keep nodes _) i
    have here : writtenScopes (d.tables.modify d.current write ++ [[]]) env' body =
        own :: scopes env d := by
      unfold writtenScopes
      rw [List.getElem?_append_right (by simp [body]), atBody]
      simp [body, Node.scopesAfter]
    refine .scope ?_ (h.agree.congr formed.opened formed.current_lt same)
    change List.Forall₂ DeclaredAs _ (writtenScopes _ env' body)
    rw [here]
    exact .cons agrees h.agree.written

/-- A scope that declares nothing may be opened. -/
theorem openEmpty (h : d.Scoped env) (formed : d.Formed) {node : Node} {name : String}
    {kind : ScopeKind} {place : Text.Location} (hasBody : node.hasBody = true)
    (bindsNothing : ∀ name, ¬Node.Binds (some node) name) :
    ∃ env', (d.openScope node name kind place []).Scoped env' :=
  have agrees : DeclaredAs [] [] := fun _ => rfl
  h.openScope formed hasBody agrees
    ⟨fun name => iff_of_false (by simp [Entries.find?]) (bindsNothing name),
      fun name => by simp [Entries.find?]⟩

/-- Names that are all constants, as the parser declares them and as scopes have them. -/
theorem agrees_constants (names : List String) :
    DeclaredAs (Entries.ofList (names.map fun name => (name, Declared.mk true true)))
      (Entries.ofList (names.map fun name => (name, true))) := by
  have all : ∀ (declared : Entries Declared) (own : Names), DeclaredAs declared own →
      DeclaredAs (declared.insertAll (names.map fun name => (name, Declared.mk true true)))
        (own.insertAll (names.map fun name => (name, true))) := by
    induction names with
    | nil => exact fun _ _ => id
    | cons name names ih => exact fun _ _ agrees => ih _ _ (agrees.insert name ⟨true, true⟩)
  exact all [] [] fun _ => rfl

theorem find?_constants (names : List String) (name : String) :
    (Entries.ofList (names.map fun name => (name, true))).find? name ≠ some false := by
  intro found
  rcases Entries.mem_insertAll (Entries.mem_of_find? found) with mem | mem
  · cases mem
  · obtain ⟨other, _, eq⟩ := List.mem_map.mp mem
    cases eq

variable {source : List Lexeme} {indicator : Char} {site : TagSite}

/-- A block binds for its scope what it declares. -/
theorem openBlock (h : d.Scoped env) (formed : d.Formed) {tag : String} {chained : Bool}
    {made : BlockInstance} (block : Block.Made tag made) {used : Draft} {kind : ScopeKind}
    {place : Text.Location} (uses : made.args.values.foldlM Draft.useAll d = .ok used) :
    ∃ env', (used.openScope (.block tag chained made.behaviour made.args) tag kind place
      (Entries.ofList (made.declares.map fun name => (name, Declared.mk true true)))).Scoped
        env' := by
  have same := sameBut_of_useArgs uses
  refine (h.of_sameBut same).openScope (formed.of_sameBut same) rfl
    (agrees_constants made.declares) ⟨fun name => ?_, find?_constants made.declares⟩
  rw [Entries.find?_ofList_isSome, List.map_map]
  simpa [Function.comp_def, Node.Binds] using block.binds name

/-- An assignment refers to a variable. -/
theorem assign (h : d.Scoped env) (formed : d.Formed) {name : String} {op : Operator}
    {value : Expr} {declared : Declared} {used : Draft} (found : d.lookup? name = some declared)
    (mutable : declared.constant = false) (uses : d.useAll value = .ok used) :
    ((used.markAssigned name).push (.assign (.plain name) op value)).Scoped env := by
  have same := sameBut_of_useAll uses
  have inside := h.of_sameBut same
  have lookup : used.lookup? name = d.lookup? name := by
    unfold Draft.lookup?
    rw [frames_of_sameBut same]
  have isVariable : (scopes env (used.markAssigned name)).lookup? name = some false := by
    rw [scopes_markAssigned, inside.lookup?, lookup, found, Option.map_some, mutable]
  refine (inside.markAssigned name).push ((formed.of_sameBut same).of_markAssigned name) rfl
    fun _ => ⟨?_, by rintro _ _ _ ⟨⟩, by rintro table ⟨⟩, by rintro table ⟨⟩⟩
  rintro _ _ _ ⟨⟩
  exact isVariable

/-- A tag keeps a draft scoped. -/
theorem of_coreStep (h : d.Scoped env) (formed : d.Formed) (step : TagSite.CoreStep site d d') :
    ∃ env', d'.Scoped env' := by
  have used {e : Expr} {next : Draft} (uses : d.useAll e = .ok next) :
      next.Scoped env ∧ next.Formed :=
    ⟨h.of_sameBut (sameBut_of_useAll uses), formed.of_sameBut (sameBut_of_useAll uses)⟩
  cases step with
  | text => exact ⟨env, h.addRaw formed _⟩
  | output _ uses | defineValue _ _ uses | evaluateOr _ _ uses =>
    exact ⟨env, (used uses).1.push_plain (used uses).2 rfl⟩
  | declareEmpty _ new => exact ⟨env, h.declare formed ⟨false, false⟩ new⟩
  | @declare constant _ _ _ _ _ uses new =>
    exact ⟨env, (used uses).1.declare (used uses).2 ⟨constant, true⟩ new⟩
  | assign _ _ _ found mutable _ uses => exact ⟨env, h.assign formed found mutable uses⟩
  | defineBody | encode => exact h.openEmpty formed rfl fun _ => id
  | evaluate => exact ⟨env, h.push_plain formed rfl⟩
  | @inlineRaw file =>
    have raws : Draft.Scoped env { d with raws := NameSet.insert file d.raws } :=
      ⟨h.start, h.tables, h.agree, h.constants⟩
    exact ⟨env, raws.push_place (formed.of_shape rfl rfl) file true⟩
  | @inlineTemplate file =>
    have templates : Draft.Scoped env { d with templates := NameSet.insert file d.templates } :=
      ⟨h.start, h.tables, h.agree, h.constants⟩
    exact ⟨env, templates.push_place (formed.of_shape rfl rfl) file false⟩
  | block _ _ core uses => exact h.openBlock formed core uses
  | link _ _ _ _ core uses => exact h.closeScope.openBlock formed.closeScope core uses
  | close => exact ⟨env, h.closeScope⟩

theorem of_step (spelled : ∀ l ∈ source, l.token.Spelled) (h : d.Scoped env) (formed : d.Formed)
    (step : Step source .core indicator d d') : ∃ env', d'.Scoped env' := by
  cases step with
  | raw => exact ⟨env, h.addRaw formed _⟩
  | mark => exact ⟨env, h.addRaw formed _⟩
  | tag _ step => exact h.of_coreStep formed (step.core rfl spelled)

end Draft.Scoped

/-- A draft of spelled tokens is scoped. -/
theorem Draft.scoped_of_read {source : List Lexeme} {indicator : Char}
    (spelled : ∀ l ∈ source, l.token.Spelled) {d : Draft} {tag : String}
    (h : read .core indicator {} tag source = .ok d) : ∃ env, d.Scoped env := by
  have both : d.Formed ∧ ∃ env, d.Scoped env := by
    refine invariant_of_read (P := fun d => d.Formed ∧ ∃ env, d.Scoped env)
      ⟨.start, _, .empty⟩ ?_ h
    rintro d d' ⟨formed, env, inside⟩ step
    exact ⟨formed.of_step step, inside.of_step spelled formed step⟩
  exact both.2

end Stencil
