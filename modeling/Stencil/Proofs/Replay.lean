import Stencil.Proofs.PrintedTags

/-!
# Printed source read back piece by piece

Printed source is read as the draft that it was printed from, whatever follows, and every further
tag is read as the next change of the draft. If an integer in it has no literal the source is
refused, whatever follows.
-/

namespace Stencil

/-- A character that starts tags and ends the name of the tag before. -/
structure TagStart (indicator : Char) : Prop extends IndicatorAllowed indicator where
  stops : extendsTag indicator = false

theorem Config.tagStart_of_admits {indicator : Char} (h : Config.admitsIndicator indicator = true) :
    TagStart indicator := by
  unfold admitsIndicator at h
  simp only [Bool.not_eq_true', Bool.or_eq_false_iff, List.contains_eq_any_beq, List.any_cons,
    List.any_nil, Bool.or_false, beq_eq_false_iff_ne, ne_eq] at h
  obtain ⟨⟨word, blank⟩, backslash, opens, closes, colon, line⟩ := h
  have other (c : Char) (differs : ¬indicator = c) : (indicator == c) = false := by
    simpa using differs
  refine ⟨⟨backslash, colon, ?_⟩, ?_⟩
  · unfold Text.isNameChar
    rw [word, other _ line]
    rfl
  · unfold extendsTag
    rw [word, other _ line, other _ opens, other _ colon]
    rfl

/-- What can stand behind printed source. -/
def Fits (bare : Bool) (rest : List Char) : Prop :=
  bare = true → ∀ c, rest.head? = some c → extendsTag c = false

theorem fits_plain (rest : List Char) : Fits false rest := by rintro ⟨⟩

theorem fits_cons {c : Char} (stops : extendsTag c = false) (bare : Bool) (rest : List Char) :
    Fits bare (c :: rest) := by
  rintro - _ ⟨⟩
  exact stops

/-- Every integer in the expressions of some tables has a literal. -/
def AllWritable (tables : List (List Node)) : Prop :=
  ∀ nodes ∈ tables, ∀ node ∈ nodes, node.Writable

/-- Printed source is read as a draft, whatever follows. -/
structure Replays (indicator : Char) (d : Draft) (p : Printed) : Prop where
  read : AllWritable d.tables → ∃ (e : Draft) (tag : String) (place : Text.Location),
    d.Reread e ∧ ∀ rest, Fits p.bare rest →
      Draft.readAt .core indicator {} "" ⟨p.text.toList ++ rest, {}⟩ =
        Draft.readAt .core indicator e tag ⟨rest, place⟩
  refused : ¬AllWritable d.tables → ∀ rest, Fits p.bare rest → ∃ failure,
    Draft.readAt .core indicator {} "" ⟨p.text.toList ++ rest, {}⟩ = .error failure

variable {indicator : Char} {d d' : Draft} {p : Printed} {node : Node} {name : String}
  {text : List Char} {tokens : List Token}

theorem Draft.readAt_congr {e : Draft} {tag : String} {place : Text.Location} {s s' : List Char}
    (same : s = s') : readAt .core indicator e tag ⟨s, place⟩ =
      readAt .core indicator e tag ⟨s', place⟩ := by rw [same]

namespace Replays

theorem start : Replays indicator {} ⟨"", false⟩ where
  read _ := ⟨{}, "", {}, .start, fun _ _ => rfl⟩
  refused := fun bad => absurd (by simp [AllWritable]) bad

/-- One more piece of source. -/
theorem extend {more : List Char} {bare : Bool} {new : Prop} (h : Replays indicator d p)
    (fits : ∀ rest, Fits bare rest → Fits p.bare (more ++ rest))
    (writable : AllWritable d'.tables ↔ AllWritable d.tables ∧ new)
    (reads : new → ∀ e, d.Reread e → ∀ (tag : String) (place : Text.Location),
      ∃ (e' : Draft) (tag' : String) (place' : Text.Location), d'.Reread e' ∧
        ∀ rest, Fits bare rest → Draft.readAt .core indicator e tag ⟨more ++ rest, place⟩ =
          Draft.readAt .core indicator e' tag' ⟨rest, place'⟩)
    (refused : ¬new → ∀ (e : Draft) (tag : String) (place : Text.Location) (rest : List Char),
      ∃ failure, Draft.readAt .core indicator e tag ⟨more ++ rest, place⟩ = .error failure) :
    Replays indicator d' ⟨p.text ++ String.ofList more, bare⟩ := by
  have joined (rest : List Char) : (p.text ++ String.ofList more).toList ++ rest =
      p.text.toList ++ (more ++ rest) := by
    rw [String.toList_append, String.toList_ofList, List.append_assoc]
  constructor
  · intro all
    obtain ⟨before, here⟩ := writable.mp all
    obtain ⟨e, tag, place, same, read⟩ := h.read before
    obtain ⟨e', tag', place', same', read'⟩ := reads here e same tag place
    refine ⟨e', tag', place', same', fun rest behind => ?_⟩
    dsimp only
    rw [joined, read _ (fits rest behind), read' rest behind]
  · intro bad rest behind
    dsimp only
    rw [joined]
    by_cases before : AllWritable d.tables
    · obtain ⟨e, tag, place, -, read⟩ := h.read before
      rw [read _ (fits rest behind)]
      exact refused (fun here => bad (writable.mpr ⟨before, here⟩)) e tag place rest
    · exact h.refused before _ (fits rest behind)

/-- One more piece of source, in which nothing is refused. -/
theorem extend_legible {more : List Char} {bare : Bool} (h : Replays indicator d p)
    (fits : ∀ rest, Fits bare rest → Fits p.bare (more ++ rest))
    (writable : AllWritable d'.tables ↔ AllWritable d.tables)
    (reads : ∀ e, d.Reread e → ∀ (tag : String) (place : Text.Location),
      ∃ (e' : Draft) (tag' : String) (place' : Text.Location), d'.Reread e' ∧
        ∀ rest, Fits bare rest → Draft.readAt .core indicator e tag ⟨more ++ rest, place⟩ =
          Draft.readAt .core indicator e' tag' ⟨rest, place'⟩) :
    Replays indicator d' ⟨p.text ++ String.ofList more, bare⟩ := by
  have same : AllWritable d'.tables ↔ AllWritable d.tables ∧ True := by rw [writable, and_true]
  exact h.extend fits same (fun _ => reads) fun bad => absurd trivial bad

theorem tag_inside (named : name = "" ∨ Text.IsName name) :
    ∀ c ∈ name.toList, Text.isNameChar c = true := by
  rcases named with rfl | word
  · simp
  · exact Text.isNameChar_of_isName word

theorem tag_start (named : name = "" ∨ Text.IsName name) :
    ∀ c, name.toList.head? = some c → Text.isNameStart c = true := by
  rcases named with rfl | ⟨c, rest, eq, start, -⟩
  · rintro c ⟨⟩
  · rw [eq]
    rintro _ ⟨⟩
    exact start

/-- A tag with arguments. -/
theorem call (start : TagStart indicator) (h : Replays indicator d p)
    (prints : node.Prints indicator name text tokens [])
    (writable : AllWritable d'.tables ↔ AllWritable d.tables ∧ node.Writable)
    (reads : node.Writable → ∀ e, d.Reread e → ∀ site : TagSite, site.entities = .core →
      site.tag = name → ∃ e', d'.Reread e' ∧ site.Does tokens e e') :
    Replays indicator d' ⟨p.text ++ node.tagText indicator, false⟩ := by
  have shown : node.tagText indicator = String.ofList (Token.callText indicator name.toList text) :=
    String.toList_inj.mp (by simpa using prints.shown)
  have inside := tag_inside prints.named
  have first := tag_start prints.named
  rw [shown]
  refine h.extend (fun rest _ => fits_cons start.stops _ _) writable ?_ ?_
  · intro here e same tag place
    obtain ⟨e', same', does⟩ := reads here e same
      { entities := .core, indicator, tag := String.ofList name.toList, location := place } rfl
      String.ofList_toList
    exact ⟨e', _, _, same', fun rest _ => Draft.readAt_call start.toIndicatorAllowed inside first
      prints.written (prints.legible.mpr here) does⟩
  · intro bad e tag place rest
    exact Draft.readAt_refused start.toIndicatorAllowed inside first prints.written
      (fun legible => bad (prints.legible.mp legible)) place

/-- A tag with arguments and a body. -/
theorem body (start : TagStart indicator) (h : Replays indicator d p)
    (prints : node.Prints indicator name text tokens [':'])
    (writable : AllWritable d'.tables ↔ AllWritable d.tables ∧ node.Writable)
    (reads : node.Writable → ∀ e, d.Reread e → ∀ site : TagSite, site.entities = .core →
      site.tag = name → ∃ e', d'.Reread e' ∧ site.Opens tokens e e') :
    Replays indicator d' ⟨p.text ++ node.tagText indicator, false⟩ := by
  have shown : node.tagText indicator =
      String.ofList (Token.callText indicator name.toList text ++ [':']) :=
    String.toList_inj.mp (by simpa using prints.shown)
  have inside := tag_inside prints.named
  have first := tag_start prints.named
  have split (rest : List Char) : Token.callText indicator name.toList text ++ [':'] ++ rest =
      Token.callText indicator name.toList text ++ ':' :: rest := by simp
  rw [shown]
  refine h.extend (fun rest _ => fits_cons start.stops _ _) writable ?_ ?_
  · intro here e same tag place
    obtain ⟨e', same', opens⟩ := reads here e same
      { entities := .core, indicator, tag := String.ofList name.toList, location := place } rfl
      String.ofList_toList
    exact ⟨e', _, _, same', fun rest _ => (Draft.readAt_congr (split rest)).trans (Draft.readAt_body
      start.toIndicatorAllowed inside first prints.written (prints.legible.mpr here) opens)⟩
  · intro bad e tag place rest
    rw [split]
    exact Draft.readAt_refused start.toIndicatorAllowed inside first prints.written
      (fun legible => bad (prints.legible.mp legible)) place

/-- A tag without arguments and a body. -/
theorem mark (start : TagStart indicator) (h : Replays indicator d p) (word : Text.IsName name)
    (shown : node.tagText indicator = String.ofList (indicator :: (name.toList ++ [':'])))
    (writable : AllWritable d'.tables ↔ AllWritable d.tables)
    (reads : ∀ e, d.Reread e → ∀ site : TagSite, site.entities = .core → site.tag = name →
      ∃ e', d'.Reread e' ∧ ∀ (mark : Text.Location) (more : List Lexeme),
        ∃ left, site.read e (⟨.blockMark, mark⟩ :: more) = .ok (e', left) ∧ left.1 = more) :
    Replays indicator d' ⟨p.text ++ node.tagText indicator, false⟩ := by
  have split (rest : List Char) : indicator :: (name.toList ++ [':']) ++ rest =
      indicator :: (name.toList ++ ':' :: rest) := by simp
  rw [shown]
  refine h.extend_legible (fun rest _ => fits_cons start.stops _ _) writable ?_
  intro e same tag place
  obtain ⟨e', same', opens⟩ := reads e same
    { entities := .core, indicator, tag := name, location := place } rfl rfl
  exact ⟨e', _, _, same', fun rest _ => (Draft.readAt_congr (split rest)).trans
    (Draft.readAt_mark start.toIndicatorAllowed word opens)⟩

/-- The end tag of the innermost scope. -/
theorem close (start : TagStart indicator) (h : Replays indicator d p) (word : Text.IsName name)
    (own : d.opened.head?.any (·.closedBy name) = true) :
    Replays indicator d.closeScope
      ⟨p.text ++ String.ofList [indicator] ++ "end" ++ name, true⟩ := by
  have ends := Text.isName_end word
  have shown : p.text ++ String.ofList [indicator] ++ "end" ++ name =
      p.text ++ String.ofList (indicator :: ("end" ++ name).toList) := by
    rw [← String.toList_inj]
    simp
  rw [shown]
  refine h.extend_legible (fun rest _ => fits_cons start.stops _ _) Iff.rfl ?_
  intro e same tag place
  have own' : e.opened.head?.any (·.closedBy name) = true := by
    have heads := congrArg List.head? (same.map_opened (f := (·.closedBy name)) fun _ => rfl)
    rw [List.head?_map, List.head?_map] at heads
    cases here : d.opened.head? with
    | none =>
      rw [here] at own
      cases own
    | some top =>
      rw [here] at own heads
      obtain ⟨top', here', eq⟩ := Option.map_eq_some_iff.mp heads
      rw [here']
      exact eq.trans own
  exact ⟨_, _, _, same.closeScope, fun rest behind => Draft.readAt_bare start.toIndicatorAllowed
    ends (behind rfl) fun more plain => TagSite.read_end rfl word own' plain⟩

end Replays

theorem not_extendsTag_quote : extendsTag '\x22' = false := by decide

theorem not_extendsTag_newline : extendsTag '\n' = false := by decide

/-- A character that would go on with an end tag can stand between quotes. -/
theorem quotable_of_extendsTag {c : Char} (h : extendsTag c = true) :
    Text.Quotable (String.ofList [c]) := by
  intro d mem
  rw [String.toList_ofList, List.mem_singleton] at mem
  subst mem
  constructor
  · rintro rfl
    rw [not_extendsTag_quote] at h
    cases h
  · rintro rfl
    rw [not_extendsTag_newline] at h
    cases h

/-- The tag of a text between quotes. -/
theorem Draft.readAt_quoted (start : TagStart indicator) {s : String} (quotable : Text.Quotable s)
    (e : Draft) (tag : String) (place : Text.Location) (rest : List Char) :
    readAt .core indicator e tag ⟨Token.callText indicator [] (Node.quotedText s) ++ rest, place⟩ =
      readAt .core indicator (e.push (.output (.value (.string s)))) ""
        ⟨rest, place.after (Token.callText indicator [] (Node.quotedText s))⟩ := by
  have settled : (Expr.value (.string s)).Settled := .value (.string quotable) (.inl rfl)
  have does : TagSite.Does { entities := .core, indicator, tag := "", location := place }
      [.literal (.string s)] e (e.push (.output (.value (.string s)))) :=
    TagSite.does_output rfl settled rfl rfl
  exact readAt_call start.toIndicatorAllowed (by simp) (by simp)
    (Token.written_text quotable).before
    (by simp) does

/-- Printed raw text in front of the rest. -/
theorem Draft.readAt_printRaw (start : TagStart indicator) (e : Draft) (text : String) (bare : Bool)
    (tag : String) (place : Text.Location) : ∃ (tag' : String) (place' : Text.Location), ∀ rest,
      readAt .core indicator e tag
          ⟨(printRaw indicator text bare).text.toList ++ rest, place⟩ =
        readAt .core indicator (e.readRaw bare text) tag' ⟨rest, place'⟩ := by
  unfold printRaw readRaw
  cases eq : text.toList with
  | nil => exact ⟨tag, place, fun rest => rfl⟩
  | cons c more =>
    dsimp only
    split
    · rename_i first
      have quotable := quotable_of_extendsTag (Bool.and_eq_true_iff.mp first).2
      have shown (rest : List Char) : (String.ofList [indicator, '(', '\x22', c, '\x22', ')'] ++
          String.ofList (more.flatMap (escapedChar indicator))).toList ++ rest =
          Token.callText indicator [] (Node.quotedText (String.ofList [c])) ++
            (more.flatMap (escapedChar indicator) ++ rest) := by
        simp [Token.callText, Node.quotedText]
      exact ⟨_, _, fun rest => (readAt_congr (shown rest)).trans
        ((readAt_quoted start quotable e tag place _).trans (readAt_text more rest _))⟩
    · have whole : text = String.ofList (c :: more) := by rw [← eq, String.ofList_toList]
      rw [String.toList_ofList, whole]
      exact ⟨_, _, fun rest => readAt_text (c :: more) rest _⟩

/-- Printed raw text can stand behind what is printed before. -/
theorem fits_printRaw (start : TagStart indicator) {text : String} (nonempty : text ≠ "")
    (bare : Bool) (rest : List Char) :
    Fits bare ((printRaw indicator text bare).text.toList ++ rest) := by
  intro behind d first
  unfold printRaw at first
  cases eq : text.toList with
  | nil => exact absurd (String.toList_eq_nil_iff.mp eq) nonempty
  | cons c more =>
    rw [eq] at first
    dsimp only at first
    split at first
    · rw [String.toList_append, String.toList_ofList] at first
      cases first
      exact start.stops
    · rename_i plain
      rw [String.toList_ofList, List.flatMap_cons, escapedChar] at first
      split at first
      · cases first
        decide
      · cases first
        simpa [behind] using plain

/-- What holds of all items where one was changed. -/
theorem forall_mem_modify_iff {α : Type} {P : α → Prop} {Q : Prop} {xs : List α} {i : Nat}
    {f : α → α} (inside : i < xs.length) (change : ∀ x, P (f x) ↔ P x ∧ Q) :
    (∀ x ∈ xs.modify i f, P x) ↔ (∀ x ∈ xs, P x) ∧ Q := by
  constructor
  · intro all
    have changed : (xs.modify i f)[i]? = some (f xs[i]) := by
      rw [List.getElem?_modify_eq, List.getElem?_eq_getElem inside]
      rfl
    refine ⟨fun x mem => ?_, ((change _).mp (all _ (List.mem_of_getElem? changed))).2⟩
    obtain ⟨k, found⟩ := List.mem_iff_getElem?.mp mem
    have kept : (xs.modify i f)[k]? = some (if i = k then f x else x) := by
      rw [List.getElem?_modify, found]
      split <;> rfl
    have here := all _ (List.mem_of_getElem? kept)
    split at here
    · exact ((change x).mp here).1
    · exact here
  · rintro ⟨old, new⟩
    exact forall_mem_modify old fun x _ before => (change x).mpr ⟨before, new⟩

namespace Draft

variable {change : List Node → List Node} {more : List Node}

theorem allWritable_push (formed : d.Formed) (changes : d.Changes d' (· ++ more)) :
    AllWritable d'.tables ↔ AllWritable d.tables ∧ ∀ node ∈ more, node.Writable := by
  unfold AllWritable
  rw [changes.tables]
  refine forall_mem_modify_iff formed.current_lt fun nodes => ?_
  simp only [List.mem_append, or_imp, forall_and]

theorem writable_raw (text : String) : (Node.raw text).Writable := by
  simp [Node.Writable, Node.exprs]

theorem writable_scope (target : Option Nat) : (Node.scope target).Writable := by
  simp [Node.Writable, Node.exprs]

theorem allWritable_appendRaw (text : String) (nodes : List Node) :
    (∀ node ∈ appendRaw text nodes, node.Writable) ↔ ∀ node ∈ nodes, node.Writable := by
  unfold appendRaw
  split
  · rename_i before last
    obtain ⟨front, rfl⟩ := List.getLast?_eq_some_iff.mp last
    simp [or_imp, forall_and, writable_raw]
  · simp [or_imp, forall_and, writable_raw]

theorem allWritable_addRaw (formed : d.Formed) (text : String) :
    AllWritable (d.addRaw text).tables ↔ AllWritable d.tables := by
  unfold addRaw
  split
  · exact Iff.rfl
  · unfold AllWritable
    dsimp only
    rw [forall_mem_modify_iff (Q := True) formed.current_lt fun nodes => ?_, and_true]
    rw [allWritable_appendRaw, and_true]

theorem allWritable_openScope (formed : d.Formed) (kind : ScopeKind) (place : Text.Location)
    (declared : Entries Declared) :
    AllWritable (d.openScope node name kind place declared).tables ↔
      AllWritable d.tables ∧ node.Writable := by
  have changed := forall_mem_modify_iff (P := fun nodes => ∀ node ∈ nodes, Node.Writable node)
    (f := (· ++ [node, .scope (some d.tables.length)])) (Q := node.Writable) formed.current_lt
    fun nodes => by simp [or_imp, forall_and, writable_scope]
  unfold AllWritable
  rw [tables_openScope, ← changed]
  simp [or_imp, forall_and]

end Draft

namespace Replays

variable {nodes : List Node} {text : String}

/-- Raw text behind a tag. -/
theorem rawFront (start : TagStart indicator) (h : Replays indicator d p) (formed : d.Formed)
    (nonempty : text ≠ "") (here : d.tables[d.current]? = some nodes)
    (last : ∀ before, nodes.getLast? ≠ some (.raw before))
    (bare : p.bare = Node.bareBehind false nodes) :
    Replays indicator (d.addRaw text) (p.andThen (printRaw indicator text)) := by
  have plain : (printRaw indicator text p.bare).bare = false := Printing.printRaw_bare nonempty _
  have shown : p.andThen (printRaw indicator text) = ⟨p.text ++
      String.ofList (printRaw indicator text p.bare).text.toList, false⟩ := by
    simp [Printed.andThen, plain]
  rw [shown]
  refine h.extend_legible (fun rest _ => fits_printRaw start nonempty _ rest)
    (Draft.allWritable_addRaw formed text) fun e same tag place => ?_
  obtain ⟨tag', place', read⟩ := Draft.readAt_printRaw start e text p.bare tag place
  refine ⟨_, tag', place', ?_, fun rest _ => read rest⟩
  rw [bare]
  exact same.addRaw_front nonempty here last

/-- Raw text behind raw text. -/
theorem rawBehind (h : Replays indicator d p) (formed : d.Formed) {before : String}
    (nonempty : before ≠ "") (here : d.tables[d.current]? = some nodes)
    (last : nodes.getLast? = some (.raw before)) (bare : p.bare = false) (text : String) :
    Replays indicator (d.addRaw text)
      ⟨p.text ++ String.ofList (text.toList.flatMap (escapedChar indicator)), false⟩ := by
  refine h.extend_legible (fun rest _ => by rw [bare]; exact fits_plain _)
    (Draft.allWritable_addRaw formed text) fun e same tag place => ?_
  have read (rest : List Char) : Draft.readAt .core indicator e tag
      ⟨text.toList.flatMap (escapedChar indicator) ++ rest, place⟩ = Draft.readAt .core indicator
        (e.addRaw text) tag ⟨rest, place.after (text.toList.flatMap (escapedChar indicator))⟩ := by
    rw [Draft.readAt_text, String.ofList_toList]
  exact ⟨_, _, _, same.addRaw_behind nonempty here last text, fun rest _ => read rest⟩

end Replays

/-- The end tag that is due closes the scope. -/
theorem Printing.Awaits.closes {p : Printing} {s : OpenScope} (h : p.Awaits s.kind) :
    ∃ name, Text.IsName name ∧ p.due = some name ∧ s.closedBy name = true := by
  unfold OpenScope.closedBy
  cases kind : s.kind with
  | chain names =>
    rw [kind] at h
    obtain ⟨name, more, rfl, word, -, due⟩ := h
    exact ⟨name, word, due, by simp⟩
  | define =>
    rw [kind] at h
    exact ⟨_, Node.isName_define, h, rfl⟩
  | encode =>
    rw [kind] at h
    exact ⟨_, Node.isName_raw, h, rfl⟩

/-- What is printed of a draft replays it, once the tables whose scopes are closed are printed. -/
structure Draft.Replayed (indicator : Char) (d : Draft) : Prop where
  formed : d.Formed
  fresh : ∀ nodes ∈ d.tables, Fresh nodes
  replays : ∀ texts nodes, Agrees indicator texts d → d.tables[d.current]? = some nodes →
    ∃ q, Stands indicator texts d.tables d.opened q ∧
      Replays indicator d (q.upTo indicator texts nodes)

theorem Fresh.ne_empty {nodes : List Node} (h : Fresh nodes) {text : String}
    (last : nodes.getLast? = some (.raw text)) : text ≠ "" := by
  cases h with
  | nil => cases last
  | raw _ nonempty =>
    rw [List.getLast?_concat, Option.some.injEq, Node.raw.injEq] at last
    exact last ▸ nonempty
  | leaf _ _ other => exact absurd (by simpa using last) (other text)
  | place => simp at last
  | body => simp at last

namespace Draft

/-- The nodes of the table that is written. -/
theorem Formed.written (h : d.Formed) : ∃ nodes, d.tables[d.current]? = some nodes :=
  ⟨_, List.getElem?_eq_getElem h.current_lt⟩

theorem changes_addRaw {text : String} (nonempty : text ≠ "") :
    d.Changes (d.addRaw text) (appendRaw text) := by
  rw [addRaw_of_nonempty d nonempty]
  exact ⟨rfl, rfl⟩

namespace Replayed

variable {more : List Node}

theorem start : Draft.Replayed indicator {} where
  formed := .start
  fresh := by
    intro nodes mem
    rw [List.mem_singleton.mp mem]
    exact .nil
  replays := by
    intro texts nodes _ found
    cases found
    exact ⟨{}, .nil, .start⟩

theorem addRaw (begins : TagStart indicator) (h : d.Replayed indicator) (text : String) :
    (d.addRaw text).Replayed indicator := by
  by_cases nonempty : text = ""
  · subst nonempty
    exact h
  have changes := changes_addRaw (d := d) nonempty
  have tables := changes.tables
  refine ⟨h.formed.addRaw text, ?_, fun texts nodes' agrees found' => ?_⟩
  · rw [tables]
    exact forall_mem_modify h.fresh fun _ _ old => old.appendRaw nonempty
  obtain ⟨nodes, found⟩ := h.formed.written
  rw [changes.here found] at found'
  cases found'
  have fresh := h.fresh nodes (List.mem_of_getElem? found)
  obtain ⟨q, stands, replays⟩ := h.replays texts nodes (changes.agrees agrees) found
  have bare : (q.upTo indicator texts nodes).bare = Node.bareBehind false nodes :=
    Printing.bare_upTo fresh stands.start.1 stands.start.2
  refine ⟨q, changes.stands h.formed stands, ?_⟩
  by_cases last : ∃ before, nodes.getLast? = some (.raw before)
  · obtain ⟨before, last⟩ := last
    have some := fresh.ne_empty last
    rw [Printing.upTo_appendRaw some last]
    refine replays.rawBehind h.formed some found last ?_ text
    rw [bare, Node.bareBehind, last]
    rfl
  · have other : ∀ before, nodes.getLast? ≠ some (.raw before) := fun before eq => last ⟨before, eq⟩
    rw [Node.appendRaw_of_ne_raw text other, Printing.upTo_raw]
    exact replays.rawFront begins h.formed nonempty found other bare

/-- A tag without body. -/
theorem tag (begins : TagStart indicator) (h : d.Replayed indicator)
    (changes : d.Changes d' (· ++ more)) (formed : d'.Formed)
    (fresh : ∀ nodes, Fresh nodes → Fresh (nodes ++ more))
    (shown : ∀ (q : Printing) (texts : Nat → Printed) (nodes : List Node),
      q.upTo indicator texts (nodes ++ more) =
        ⟨(q.upTo indicator texts nodes).text ++ node.tagText indicator, false⟩)
    (writable : (∀ inner ∈ more, inner.Writable) ↔ node.Writable)
    (prints : node.Prints indicator name text tokens [])
    (reads : node.Writable → ∀ e, d.Reread e → ∀ site : TagSite, site.entities = .core →
      site.tag = name → ∃ e', d'.Reread e' ∧ site.Does tokens e e') : d'.Replayed indicator := by
  have tables := changes.tables
  refine ⟨formed, ?_, fun texts nodes' agrees found' => ?_⟩
  · rw [tables]
    exact forall_mem_modify h.fresh fun nodes _ old => fresh nodes old
  obtain ⟨nodes, found⟩ := h.formed.written
  rw [changes.here found] at found'
  cases found'
  obtain ⟨q, stands, replays⟩ := h.replays texts nodes (changes.agrees agrees) found
  refine ⟨q, changes.stands h.formed stands, ?_⟩
  rw [shown]
  exact replays.call begins prints ((allWritable_push h.formed changes).trans (by rw [writable]))
    reads

/-- A tag of one node. -/
theorem leaf (begins : TagStart indicator) (h : d.Replayed indicator)
    (changes : d.Changes d' (· ++ [node])) (formed : d'.Formed) (single : node.isLeaf = true)
    (other : ∀ text, node ≠ .raw text) (prints : node.Prints indicator name text tokens [])
    (reads : node.Writable → ∀ e, d.Reread e → ∀ site : TagSite, site.entities = .core →
      site.tag = name → ∃ e', d'.Reread e' ∧ site.Does tokens e e') : d'.Replayed indicator :=
  h.tag begins changes formed (fun _ old => .leaf old single other)
    (fun _ _ _ => Printing.upTo_leaf single other) (by simp) prints reads

/-- The tag of a place. -/
theorem place {file : String} {asRaw : Bool} (begins : TagStart indicator)
    (h : d.Replayed indicator)
    (changes : d.Changes d' (· ++ [.inline file asRaw, .scope none])) (formed : d'.Formed)
    (prints : (Node.inline file asRaw).Prints indicator name text tokens [])
    (reads : ∀ e, d.Reread e → ∀ site : TagSite, site.entities = .core → site.tag = name →
      ∃ e', d'.Reread e' ∧ site.Does tokens e e') : d'.Replayed indicator :=
  h.tag begins changes formed (fun _ old => .place old)
    (fun _ _ _ => Printing.upTo_place file asRaw) (by simp [writable_scope]) prints fun _ => reads

variable {used : Draft} {kind : ScopeKind} {location : Text.Location} {declared : Entries Declared}

/-- A scope whose tag was read. -/
theorem opens (formed : used.Formed) (fresh : ∀ nodes ∈ used.tables, Fresh nodes)
    (hasBody : node.hasBody = true)
    (linked : node.isChained = true → ∀ nodes, used.tables[used.current]? = some nodes →
      EndsInBlock nodes)
    (formed' : (used.openScope node name kind location declared).Formed)
    (replays : ∀ texts nodes, Agrees indicator texts used →
      used.tables[used.current]? = some nodes →
        ∃ q, Stands indicator texts used.tables used.opened q ∧
        (q.addAll indicator texts (nodes ++ [node])).Awaits kind ∧
        Replays indicator (used.openScope node name kind location declared)
          ⟨(q.addAll indicator texts (nodes ++ [node])).text, false⟩) :
    (used.openScope node name kind location declared).Replayed indicator := by
  refine ⟨formed', ?_, fun texts nodes' agrees found' => ?_⟩
  · rw [tables_openScope]
    intro inner mem
    rcases List.mem_append.mp mem with mem | mem
    · exact forall_mem_modify fresh (fun nodes found old =>
        .body old hasBody fun chained => linked chained nodes found) inner mem
    · rw [List.mem_singleton.mp mem]
      exact .nil
  · have empty : nodes' = [] := by
      have inside : (used.openScope node name kind location declared).current =
          used.tables.length := rfl
      rw [inside, tables_openScope, List.getElem?_append_right (by simp)] at found'
      simpa using found'.symm
    subst empty
    obtain ⟨nodes, found⟩ := formed.written
    obtain ⟨q, stands, awaits, replays⟩ := replays texts nodes (agrees_of_openScope agrees) found
    exact ⟨_, stands_openScope formed stands found awaits location declared, replays⟩

/-- A body whose tag goes on with no chain. -/
theorem body (h : d.Replayed indicator) (same : SameBut d used) (hasBody : node.hasBody = true)
    (plain : node.isChained = false)
    (awaits : ∀ (q : Printing) (texts : Nat → Printed), (q.add indicator texts node).Awaits kind)
    (formed' : (used.openScope node name kind location declared).Formed)
    (piece : ∀ p, Replays indicator d p →
      Replays indicator (used.openScope node name kind location declared)
        ⟨p.text ++ node.tagText indicator, false⟩) :
    (used.openScope node name kind location declared).Replayed indicator := by
  have tables : used.tables = d.tables := by rw [same]
  have opened : used.opened = d.opened := by rw [same]
  have current : used.current = d.current := by rw [same]; rfl
  refine opens (h.formed.of_sameBut same) (by rw [tables]; exact h.fresh) hasBody
    (fun chained => by rw [plain] at chained; cases chained) formed' ?_
  intro texts nodes agrees found
  unfold Agrees at agrees
  rw [tables, opened] at agrees
  rw [tables, current] at found
  rw [tables, opened]
  obtain ⟨q, stands, replays⟩ := h.replays texts nodes agrees found
  refine ⟨q, stands, by rw [Printing.addAll_snoc]; exact awaits _ _, ?_⟩
  have tag : ∀ target, node ≠ .scope target := by
    rintro target rfl
    cases hasBody
  have other : ∀ text, node ≠ .raw text := by
    rintro text rfl
    cases hasBody
  have front : (q.addAll indicator texts nodes).inFrontOf indicator [node] =
      q.upTo indicator texts nodes :=
    if_neg (by rw [Printing.continuesChain_cons, plain]; decide)
  rw [Printing.addAll_snoc, Printing.add_tag other tag, front]
  exact piece _ replays

/-- A body whose tag closes the scope before it and goes on with its chain. -/
theorem link (h : d.Replayed indicator) {top : OpenScope} {outer : List OpenScope}
    {names : List String} (opened : d.opened = top :: outer) (chain : top.kind = .chain names)
    (same : SameBut d.closeScope used) (hasBody : node.hasBody = true)
    (chained : node.isChained = true)
    (awaits : ∀ (q : Printing) (texts : Nat → Printed), q.Awaits (.chain names) →
      (q.add indicator texts node).Awaits kind)
    (formed' : (used.openScope node name kind location declared).Formed)
    (piece : ∀ p, Replays indicator d p →
      Replays indicator (used.openScope node name kind location declared)
        ⟨p.text ++ node.tagText indicator, false⟩) :
    (used.openScope node name kind location declared).Replayed indicator := by
  have tables : used.tables = d.closeScope.tables := by rw [same]
  have scopes : used.opened = d.closeScope.opened := by rw [same]
  have current : used.current = d.closeScope.current := by rw [same]; rfl
  refine opens (h.formed.closeScope.of_sameBut same) (by rw [tables]; exact h.fresh) hasBody
    (fun _ nodes found => ?_) formed' ?_
  · rw [tables, current] at found
    exact h.formed.endsInBlock_of_close opened chain nodes found
  intro texts around' agrees found'
  unfold Agrees at agrees
  rw [tables, scopes] at agrees
  rw [tables, current] at found'
  rw [tables, scopes]
  obtain ⟨nodes, found⟩ := h.formed.written
  obtain ⟨p, stands, replays⟩ := h.replays texts nodes (agrees_of_closeScope agrees) found
  obtain ⟨q, around, outside, here, printed, due⟩ :=
    stands_closeScope h.formed opened found stands agrees
  rw [found'] at here
  cases here
  rw [chain] at due
  refine ⟨q, outside, by rw [Printing.addAll_snoc]; exact awaits _ _ due, ?_⟩
  have tag : ∀ target, node ≠ .scope target := by
    rintro target rfl
    cases hasBody
  have other : ∀ text, node ≠ .raw text := by
    rintro text rfl
    cases hasBody
  have front : (q.addAll indicator texts around').inFrontOf indicator [node] =
      p.upTo indicator texts nodes :=
    (if_pos (by rw [Printing.continuesChain_cons, chained])).trans printed
  rw [Printing.addAll_snoc, Printing.add_tag other tag, front]
  exact piece _ replays

/-- The end tag of the innermost scope. -/
theorem close (begins : TagStart indicator) (h : d.Replayed indicator) {closed : String}
    (own : d.opened.head?.any (·.closedBy closed) = true) : d.closeScope.Replayed indicator := by
  refine ⟨h.formed.closeScope, h.fresh, fun texts around' agrees found' => ?_⟩
  obtain ⟨nodes, found⟩ := h.formed.written
  obtain ⟨p, stands, replays⟩ := h.replays texts nodes (agrees_of_closeScope agrees) found
  cases opened : d.opened with
  | nil =>
    rw [opened] at own
    cases own
  | cons top outer =>
    obtain ⟨q, around, outside, here, printed, due⟩ :=
      stands_closeScope h.formed opened found stands agrees
    rw [found'] at here
    cases here
    obtain ⟨name, word, due, closes⟩ := due.closes
    have text : (q.addAll indicator texts around').text = (p.upTo indicator texts nodes).text :=
      congrArg Printed.text printed
    refine ⟨q, outside, ?_⟩
    rw [Printing.upTo_of_due due, text]
    exact replays.close begins word (by rw [opened]; exact closes)

end Replayed

end Draft

end Stencil
