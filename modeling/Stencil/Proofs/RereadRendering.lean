import Stencil.Proofs.CoreBlocks
import Stencil.Proofs.DraftNodes
import Stencil.Proofs.ParallelWalks
import Stencil.Proofs.Reparsing
import Stencil.Proofs.RereadOutput

/-!
# Rendering what is read back

A template next to what its printed source is read as. Expressions read back have the same values,
and a character of raw text that comes back as an expression is written all the same. So the two
walks go through states that come to the same, and their outputs coincide.
-/

namespace Stencil

open Output (Coincides)
open RenderState (Alike)

namespace Node

variable {bare : Bool} {node : Node} {nodes : List Node}

/-- Nodes read back start with a scope only where the nodes do. -/
theorem rereadAll_eq_scope {behind : List Node} {target : Option Nat}
    (h : rereadAll bare nodes = .scope target :: behind) :
    ∃ more, nodes = .scope target :: more := by
  cases nodes with
  | nil => cases h
  | cons node more =>
    cases node with
    | scope target' =>
      cases h
      exact ⟨more, rfl⟩
    | raw text =>
      rw [rereadAll] at h
      unfold rereadRaw at h
      split at h
      · cases h
      · split at h <;> cases h
    | _ => cases h

theorem Alone.reread (h : node.Alone nodes) : node.reread.Alone (rereadAll bare nodes) where
  noScope target eq := by
    cases node with
    | scope target' => exact h.noScope target' rfl
    | _ => cases eq
  noBody body behind opens eq := by
    obtain ⟨more, first⟩ := rereadAll_eq_scope eq
    refine h.noBody body more ?_ first
    cases node with
    | define name value => cases value with
      | none => rfl
      | some => cases opens
    | _ => exact opens

theorem place?_reread (node : Node) : node.reread.place? = node.place? := by
  cases node <;> rfl

end Node

namespace Rendering

variable {r r' : Rendering} {s s' : RenderState}
  {scope scope' : Nat → Encoder → Bindings → RenderState → RenderState}

/-- Two renderings that trim lines alike write alike. -/
theorem keeps_coincides (trims : r'.config.trimBlockLines = r.config.trimBlockLines) :
    r.Keeps r' Coincides where
  writeRaw text h := h.writeRaw text
  markValue h := h.markValue
  writeValue text encoder h := h.writeValue text encoder
  trimLine h := by
    unfold Rendering.trimLine
    rw [trims]
    split
    · exact ⟨h.frames, h.errors, h.exhausted, h.output.trimLine⟩
    · exact h

theorem walkNodes_output {encoder : Encoder} {place : Option String} {settled : Bool} (e : Expr)
    {nodes : List Node} : r.walkNodes scope encoder place settled (.output e :: nodes) s =
      r.walkNodes scope encoder place settled nodes (r.walkNode scope encoder (.output e) s) := rfl

variable (keeps : r.Keeps r' Coincides) (same : r.SharesData r')
include keeps same

/-- A node without a table of its own. -/
theorem walkNode_reread (h : Alike Coincides s s') (encoder : Encoder)
    (scopes : ∀ table, Alike Coincides (scope table encoder [] s) (scope' table encoder [] s'))
    (node : Node) : Alike Coincides (r.walkNode scope encoder node s)
      (r'.walkNode scope' encoder node.reread s') := by
  have trimmed := keeps.trimLine h
  have values (e : Option Expr) (env : Env) :
      (e.map Expr.reread).map (·.eval env) = e.map (·.eval env) := by
    rw [Option.map_map]
    exact congrArg (Option.map · e) (funext (Expr.eval_reread env))
  cases node with
  | raw text => exact ⟨h.frames, h.errors, h.exhausted, h.output.writeRaw text⟩
  | output e =>
    simp only [Node.reread, walkNode, same.eval_alike h fun env => Expr.eval_reread env e]
    exact keeps.value same h encoder _
  | declare name constant value => exact same.declare trimmed name (values value)
  | assign v op value => exact same.assign trimmed v op fun env => Expr.eval_reread env value
  | define name value =>
    cases value with
    | none => exact trimmed
    | some e => exact trimmed.define name (.value fun env => Expr.eval_reread env e)
  | evaluate name default =>
    exact keeps.evaluate same h encoder (fun named => named ▸ scopes _) name (values default)
  | block | inline | encode => exact trimmed
  | scope => exact h

variable (texts : ∀ text, r.config.formatters.string text = text)
include texts

omit keeps in
/-- Raw text may be walked with its first character as an expression. -/
theorem walkNodes_rereadRaw {encoder : Encoder} (plain : encoder.Plain) (bare settled : Bool)
    (place : Option String) (text : String) (nodes : List Node) (s : RenderState) :
    ∃ o, Coincides (s.output.writeRaw text) o ∧
      r'.walkNodes scope' encoder place settled (Node.rereadRaw bare text ++ nodes) s =
        r'.walkNodes scope' encoder place settled nodes { s with output := o } := by
  have start : Coincides (s.output.writeRaw text) (s.output.writeRaw text) :=
    ⟨rfl, rfl, rfl, rfl⟩
  have formatted (text : String) : r'.config.formatters.format (.string text) = text := by
    rw [same.formatters, Formatters.format, texts]
  unfold Node.rereadRaw
  split
  · exact ⟨_, start, rfl⟩
  · rename_i c rest eq
    have whole : text = String.ofList (c :: rest) := by rw [← eq, String.ofList_toList]
    split
    · rename_i separate
      have goesOn : extendsTag c = true := (Bool.and_eq_true_iff.mp separate).2
      refine ⟨_, whole ▸ Output.coincides_bare goesOn plain s.output rest, ?_⟩
      have first : r'.walkNode scope' encoder (.output (.value (.string (String.ofList [c])))) s =
          { s with output := s.output.writeValue (String.ofList [c]) encoder } := by
        simp only [walkNode, writeValue, eval, Expr.eval, formatted]
      rw [List.cons_append]
      refine (walkNodes_output _).trans ?_
      rw [first]
      cases rest <;> rfl
    · exact ⟨_, start, rfl⟩

/-- The nodes of a table, by induction on the walk. -/
theorem walkNodes_reread {encoder : Encoder} (plain : encoder.Plain)
    (scopes : ∀ {s s' : RenderState} (table : Nat) (encoder : Encoder) (bindings : Bindings),
      encoder.Plain → Alike Coincides s s' → Alike Coincides
        (scope table encoder bindings s) (scope' table encoder bindings s'))
    (place : Option String) (settled bare : Bool) (nodes : List Node)
    (encoders : ∀ handler inner, .encode handler inner ∈ nodes → inner.Plain)
    (h : Alike Coincides s s') :
    Alike Coincides (r.walkNodes scope encoder place settled nodes s)
      (r'.walkNodes scope' encoder place settled (Node.rereadAll bare nodes) s') := by
  have behind {node : Node} {nodes : List Node}
      (all : ∀ handler inner, .encode handler inner ∈ node :: nodes → inner.Plain)
      (handler : String) (inner : Encoder) (mem : .encode handler inner ∈ nodes) : inner.Plain :=
    all handler inner (.tail _ mem)
  revert s' bare encoders
  fun_induction Rendering.walkNodes r scope encoder place settled nodes s with
  | case1 =>
    intro s' bare _ h
    exact h
  | case2 place settled name chained behaviour args body rest s trimmed skip =>
    rename_i ih
    intro s' bare encoders h
    simp only [Node.rereadAll, Node.reread, Rendering.walkNodes, if_pos skip]
    exact ih _ (behind (behind encoders)) (keeps.trimLine h)
  | case3 place settled name chained behaviour args body rest s trimmed run settled' s₁ ran =>
    rename_i ih
    intro s' bare encoders h
    have ran' := SharesData.runBlock (fun bindings => scopes body encoder bindings plain) same name
      behaviour (fun env => Expr.evalItems_rereadItems env args) (keeps.trimLine h)
    simp only [trimmed] at ran
    rw [ran] at ran'
    simp only [Node.rereadAll, Node.reread, Rendering.walkNodes, if_neg run, ran'.1]
    exact ih _ (behind (behind encoders)) ran'.2
  | case4 place settled name body rest s ih =>
    intro s' bare encoders h
    exact ih _ (behind (behind encoders)) ((keeps.trimLine h).define _ (.body rfl))
  | case5 place settled handler inner body rest s ih =>
    intro s' bare encoders h
    have known : inner.Plain := encoders handler inner List.mem_cons_self
    exact ih _ (behind (behind encoders)) (scopes _ _ _ known (keeps.trimLine h))
  | case6 place settled body rest s ih =>
    intro s' bare encoders h
    exact ih _ (behind encoders) (scopes _ _ _ plain h)
  | case7 place settled rest s ih =>
    intro s' bare encoders h
    exact ih _ (behind encoders) (h.record _)
  | case8 place settled node rest s notBlock notDefine notEncode notScope notEmpty next =>
    rename_i ih
    intro s' bare encoders h
    by_cases isRaw : ∃ text, node = .raw text
    · obtain ⟨text, rfl⟩ := isRaw
      obtain ⟨o, written, walked⟩ :=
        walkNodes_rereadRaw same texts plain bare settled place text (Node.rereadAll false rest) s'
      rw [Node.rereadAll, walked]
      exact ih _ (behind encoders) ⟨h.frames, h.errors, h.exhausted,
        (h.output.writeRaw text).trans written⟩
    · have other : ∀ text, node ≠ .raw text := fun text eq => isRaw ⟨text, eq⟩
      have alone : node.Alone rest :=
        alone_of_not notBlock notDefine notEncode notScope notEmpty
      rw [Node.rereadAll_cons other, walkNodes_alone alone.reread, Node.place?_reread]
      exact ih _ (behind encoders)
        (walkNode_reread keeps same h encoder (fun table => scopes table _ _ plain h) node)

variable (tables : ∀ table, r'.template.table table = Node.rereadAll false (r.template.table table))
  (encoders : ∀ table handler inner, .encode handler inner ∈ r.template.table table → inner.Plain)
include tables encoders

/-- A scope, by induction on the room. -/
theorem walkScope_reread (room table : Nat) (encoder : Encoder) (bindings : Bindings)
    (plain : encoder.Plain) (h : Alike Coincides s s') :
    Alike Coincides (r.walkScope room table encoder bindings s)
      (r'.walkScope room table encoder bindings s') := by
  induction room generalizing table encoder bindings s s' with
  | zero => exact ⟨h.frames, h.errors, rfl, h.output⟩
  | succ room ih =>
    have walked := walkNodes_reread keeps same texts plain
      (fun table encoder bindings plain => ih table encoder bindings plain) none false false
      (r.template.table table) (encoders table) (h.openFrame bindings)
    simp only [walkScope, tables]
    exact keeps.trimLine walked.closeFrame

/-- The whole template. -/
theorem walk_reread {encoder : Encoder} (plain : encoder.Plain)
    (length : r'.template.tables.length = r.template.tables.length) :
    Alike Coincides (r.walk encoder) (r'.walk encoder) := by
  have room : r'.room = r.room := by rw [Rendering.room, Rendering.room, length]
  unfold walk
  rw [room, tables]
  exact walkNodes_reread keeps same texts plain
    (fun table encoder bindings plain =>
      walkScope_reread keeps same texts tables encoders r.room table encoder bindings plain)
    none false false _ (encoders 0) (.start [] ⟨rfl, rfl, rfl, rfl⟩)

end Rendering

namespace Template

variable {config : Config} {name source : String} {t : Template}

/-- The encoders that the language itself knows leave alone what may go on with a tag. -/
theorem plain_of_core {handler : String} {inner : Encoder}
    (known : Entities.core.encoder? handler = some inner) : inner.Plain := by
  have known := Entities.encoder?_core known
  simp only [List.mem_cons, Prod.mk.injEq, List.not_mem_nil, or_false] at known
  rcases known with ⟨-, rfl⟩ | ⟨-, rfl⟩
  · exact Encoder.plain_html
  · exact Encoder.plain_identity

theorem plain_of_mem (parsed : parse .core config name source = .ok t) (table : Nat)
    (handler : String) (inner : Encoder) (mem : .encode handler inner ∈ t.table table) :
    inner.Plain := by
  obtain ⟨nodes, found, inside⟩ := exists_of_mem_getD mem
  exact plain_of_core (encoder?_of_mem parsed (List.mem_of_getElem? found) inside)

theorem table_reread (t : Template) (table : Nat) :
    t.reread.table table = Node.rereadAll false (t.table table) := by
  have tables : t.reread.tables = t.tables.map (Node.rereadAll false) := rfl
  unfold Template.table
  rw [tables, List.getElem?_map]
  cases t.tables[table]? <;> rfl

/-- A parsed template and what its printed source is read as are rendered alike. -/
theorem render_reread (parsed : parse .core config name source = .ok t)
    (texts : ∀ text, config.formatters.string text = text) (context : Context) {encoder : Encoder}
    (plain : encoder.Plain) :
    Rendering.render ⟨t.reread, context, config⟩ encoder =
      Rendering.render ⟨t, context, config⟩ encoder := by
  let r : Rendering := ⟨t, context, config⟩
  let r' : Rendering := ⟨t.reread, context, config⟩
  have same : r.SharesData r' := ⟨rfl, rfl, rfl, rfl, rfl⟩
  have keeps : r.Keeps r' Coincides := Rendering.keeps_coincides rfl
  have length : r'.template.tables.length = r.template.tables.length := List.length_map ..
  have alike : Alike Coincides (r.walk encoder) (r'.walk encoder) :=
    Rendering.walk_reread keeps same texts t.table_reread (plain_of_mem parsed) plain length
  have room : r'.room = r.room := by rw [Rendering.room, Rendering.room, length]
  have text : (r'.walk encoder).output.text = (r.walk encoder).output.text := by
    rw [← String.toList_inj, Output.toList_text, Output.toList_text, alike.output.text]
  change r'.render encoder = r.render encoder
  rw [Rendering.render, Rendering.render, alike.exhausted, same.fatal? alike, room, text]
  rfl

/-- Printed source means the same. If the printed source of a parsed template is parsed again, what
comes of it requires the same variables, templates and texts, and is rendered alike with any data:
to the same text, or with the same error. -/
theorem printed_source_means_same {json : String} (accepted : Config.ofJson json = .ok config)
    (parsed : parse .core config name source = .ok t) {again : Template}
    (reparsed : parse .core config name t.text = .ok again) :
    again.required = t.required ∧ again.templates = t.templates ∧ again.raws = t.raws ∧
      ∀ context encoder, encoder = Encoder.identity ∨ encoder = Encoder.html →
        Rendering.render ⟨again, context, config⟩ encoder =
          Rendering.render ⟨t, context, config⟩ encoder := by
  have admitted := Config.admitsIndicator_of_ofJson accepted
  have texts : ∀ text, config.formatters.string text = text := by
    rw [Config.formatters_of_ofJson accepted]
    exact fun _ => rfl
  by_cases writable : t.Writable
  · obtain rfl : t.reread = again :=
      Except.ok.inj ((parse_text admitted parsed writable).symm.trans reparsed)
    refine ⟨rfl, rfl, rfl, fun context encoder default => ?_⟩
    rcases default with rfl | rfl
    · exact render_reread parsed texts context Encoder.plain_identity
    · exact render_reread parsed texts context Encoder.plain_html
  · obtain ⟨failure, refused⟩ := parse_text_error admitted parsed writable
    rw [refused] at reparsed
    cases reparsed

/-- A page whose printed source has an expression for the colon behind the end tag. -/
theorem printed_source_means_same_page : ∃ config page again, Config.ofJson "[]" = .ok config ∧
    parse .core config "page" "#if(ok):a#endif:b" = .ok page ∧
    parse .core config "page" page.text = .ok again ∧ again.required = page.required ∧
    ∀ context, Rendering.render ⟨again, context, config⟩ Encoder.html =
      Rendering.render ⟨page, context, config⟩ Encoder.html := by
  have accepted : Config.ofJson "[]" = .ok {} := rfl
  have both : ((parse .core {} "page" "#if(ok):a#endif:b").toOption.any fun page =>
      (parse .core {} "page" page.text).toOption.any fun _ => true) = true := by
    decide +kernel
  obtain ⟨page, parsed, both⟩ := ok_of_any both
  obtain ⟨again, reparsed, -⟩ := ok_of_any both
  obtain ⟨required, -, -, renders⟩ := printed_source_means_same accepted parsed reparsed
  exact ⟨{}, page, again, accepted, parsed, reparsed, required,
    fun context => renders context Encoder.html (.inr rfl)⟩

end Template

end Stencil
