import Stencil.Proofs.LineReading

/-!
# Tables without the lines of tags

A table of a source made of lines, and what is left of it when the tags that stand alone lose
their lines: the blanks before each tag, and the rest of its line. Where a table breaks off, it is
at some stage of a line.
-/

namespace Stencil

/-- How far a line is written. -/
inductive LineStage
  | lineStart
  /-- Behind something of a line of text. -/
  | inLine
  /-- Behind the blanks in front of a tag that stands alone. -/
  | indented
  | behindTag

namespace LineStage

/-- A line of text can go on. -/
def IsContent (stage : LineStage) : Prop := stage = lineStart ∨ stage = inLine

/-- A tag that stands alone has come, or comes next. -/
def IsTag (stage : LineStage) : Prop := stage = indented ∨ stage = behindTag

/-- Where a table starts: the template at the start of a line, a body behind the tag that opens it.
-/
def entry (table : Nat) : LineStage := if table = 0 then lineStart else behindTag

end LineStage

open LineStage

/-- Raw text from one stage to another, and what is left of it. -/
inductive StrippedRun (m : LineStage) : List Char → List Char → LineStage → Prop
  | nil : StrippedRun m [] [] m
  | text {n : LineStage} {run run' chars : List Char} (h : StrippedRun m run run' n)
      (content : n.IsContent) (inside : '\n' ∉ chars) :
      StrippedRun m (run ++ chars) (run' ++ chars) .inLine
  | ends {n : LineStage} {run run' : List Char} (h : StrippedRun m run run' n)
      (content : n.IsContent) (ending : LineEnd) :
      StrippedRun m (run ++ ending.text) (run' ++ ending.text) .lineStart
  | indent {run run' chars : List Char} (h : StrippedRun m run run' .lineStart)
      (blank : ∀ c ∈ chars, c = ' ' ∨ c = '\t') : StrippedRun m (run ++ chars) run' .indented
  | tagEnds {run run' chars : List Char} (h : StrippedRun m run run' .behindTag)
      (blank : ∀ c ∈ chars, c = ' ' ∨ c = '\t') (ending : LineEnd) :
      StrippedRun m (run ++ (chars ++ ending.text)) run' .lineStart

/-- The node of raw text, if there is any. -/
def rawNode (run : List Char) : List Node :=
  if run.isEmpty then [] else [.raw (String.ofList run)]

/-- Nodes from one stage to another, and what is left of them. -/
inductive Stripped : LineStage → List Node → List Node → LineStage → Prop
  | nil (m : LineStage) : Stripped m [] [] m
  | raw {m n l : LineStage} {run run' : List Char} {nodes nodes' : List Node}
      (h : StrippedRun m run run' n) (rest : Stripped n nodes nodes' l) :
      Stripped m (rawNode run ++ nodes) (rawNode run' ++ nodes') l
  | output {m l : LineStage} {nodes nodes' : List Node} {e : Expr} (content : m.IsContent)
      (rest : Stripped .inLine nodes nodes' l) :
      Stripped m (.output e :: nodes) (.output e :: nodes') l
  | change {l : LineStage} {nodes nodes' : List Node} {node : Node}
      (changes : TagSite.changes node = true)
      (rest : Stripped .behindTag nodes nodes' l) :
      Stripped .indented (node :: nodes) (node :: nodes') l
  | block {m l : LineStage} {nodes nodes' : List Node} {name : String} {chained : Bool}
      {behaviour : Behaviour} {args : Tuple} {body : Nat} (tag : m.IsTag)
      (inner : body ≠ 0) (rest : Stripped .behindTag nodes nodes' l) :
      Stripped m (.block name chained behaviour args :: .scope (some body) :: nodes)
        (.block name chained behaviour args :: .scope (some body) :: nodes') l

variable {m n l : LineStage} {nodes nodes' more more' : List Node} {run run' chars : List Char}

theorem Stripped.append (h : Stripped m nodes nodes' n) (rest : Stripped n more more' l) :
    Stripped m (nodes ++ more) (nodes' ++ more') l := by
  induction h with
  | nil => exact rest
  | raw run _ ih =>
    rw [List.append_assoc, List.append_assoc]
    exact .raw run (ih rest)
  | output content _ ih => exact .output content (ih rest)
  | change changes _ ih => exact .change changes (ih rest)
  | block tag inner _ ih => exact .block tag inner (ih rest)

/-- The last node is not raw text. -/
def EndsPlain (nodes : List Node) : Prop := ∀ text, nodes.getLast? ≠ some (.raw text)

theorem endsPlain_concat {node : Node} (other : ∀ text, node ≠ .raw text) (nodes : List Node) :
    EndsPlain (nodes ++ [node]) := by
  intro text last
  rw [List.getLast?_append_of_ne_nil _ (List.cons_ne_nil _ _)] at last
  exact other text (Option.some.inj last)

theorem appendRaw_rawNode (last : EndsPlain nodes) (nonempty : chars ≠ []) (run : List Char) :
    Draft.appendRaw (String.ofList chars) (nodes ++ rawNode run) =
      nodes ++ rawNode (run ++ chars) := by
  have some : rawNode (run ++ chars) = [.raw (String.ofList (run ++ chars))] :=
    if_neg (by simp [nonempty])
  rw [some]
  cases run with
  | nil =>
    rw [rawNode, List.isEmpty_nil, if_pos rfl, List.append_nil]
    exact Node.appendRaw_of_ne_raw _ last
  | cons c run =>
    rw [rawNode, List.isEmpty_cons, if_neg Bool.false_ne_true,
      Node.appendRaw_append _ (List.cons_ne_nil _ _), String.ofList_append]
    rfl

/-- A table that is being written: raw text at its end can go on. -/
inductive StrippedOpen (m : LineStage) : List Node → List Node → LineStage → Prop
  | intro {n l : LineStage} {nodes nodes' : List Node} {run run' : List Char}
      (front : Stripped m nodes nodes' n) (text : StrippedRun n run run' l)
      (last : EndsPlain nodes) (last' : EndsPlain nodes') :
      StrippedOpen m (nodes ++ rawNode run) (nodes' ++ rawNode run') l

namespace StrippedOpen

theorem start (m : LineStage) : StrippedOpen m [] [] m := by
  have none : EndsPlain [] := by
    rintro text ⟨⟩
  exact .intro (.nil m) .nil none none

/-- A table that is closed. -/
theorem stripped (h : StrippedOpen m nodes nodes' n) : Stripped m nodes nodes' n := by
  obtain ⟨front, run, -, -⟩ := h
  have last := Stripped.raw run (.nil _)
  rw [List.append_nil, List.append_nil] at last
  exact front.append last

/-- What is added to raw text at the end of a table. -/
def added (chars : List Char) (nodes : List Node) : List Node :=
  if chars.isEmpty then nodes else Draft.appendRaw (String.ofList chars) nodes

theorem added_rawNode (last : EndsPlain nodes) (run chars : List Char) :
    added chars (nodes ++ rawNode run) = nodes ++ rawNode (run ++ chars) := by
  cases chars with
  | nil => rw [List.append_nil]; rfl
  | cons c chars => exact appendRaw_rawNode last (List.cons_ne_nil _ _) run

theorem text (h : StrippedOpen m nodes nodes' n) (content : n.IsContent) (inside : '\n' ∉ chars) :
    StrippedOpen m (added chars nodes) (added chars nodes') .inLine := by
  obtain ⟨front, run, last, last'⟩ := h
  rw [added_rawNode last, added_rawNode last']
  exact .intro front (run.text content inside) last last'

theorem ends (h : StrippedOpen m nodes nodes' n) (content : n.IsContent) (ending : LineEnd) :
    StrippedOpen m (added ending.text nodes) (added ending.text nodes') .lineStart := by
  obtain ⟨front, run, last, last'⟩ := h
  rw [added_rawNode last, added_rawNode last']
  exact .intro front (run.ends content ending) last last'

theorem indent (h : StrippedOpen m nodes nodes' .lineStart)
    (blank : ∀ c ∈ chars, c = ' ' ∨ c = '\t') :
    StrippedOpen m (added chars nodes) nodes' .indented := by
  obtain ⟨front, run, last, last'⟩ := h
  rw [added_rawNode last]
  exact .intro front (run.indent blank) last last'

theorem tagEnds (h : StrippedOpen m nodes nodes' .behindTag)
    (blank : ∀ c ∈ chars, c = ' ' ∨ c = '\t') (ending : LineEnd) :
    StrippedOpen m (added (chars ++ ending.text) nodes) nodes' .lineStart := by
  obtain ⟨front, run, last, last'⟩ := h
  rw [added_rawNode last]
  exact .intro front (run.tagEnds blank ending) last last'

/-- Nodes behind which no raw text goes on. -/
theorem push {front front' : List Node} (h : StrippedOpen m nodes nodes' n)
    (more : Stripped n front front' l)
    (last : EndsPlain (nodes ++ front)) (last' : EndsPlain (nodes' ++ front')) :
    StrippedOpen m (nodes ++ front) (nodes' ++ front') l := by
  have none : rawNode [] = [] := rfl
  have whole := StrippedOpen.intro (h.stripped.append more) .nil last last'
  rwa [none, List.append_nil, List.append_nil] at whole

theorem output (h : StrippedOpen m nodes nodes' n) (content : n.IsContent) (e : Expr) :
    StrippedOpen m (nodes ++ [.output e]) (nodes' ++ [.output e]) .inLine :=
  h.push (.output content (.nil _)) (endsPlain_concat (by simp) _) (endsPlain_concat (by simp) _)

theorem change {node : Node} (h : StrippedOpen m nodes nodes' .indented)
    (changes : TagSite.changes node = true) :
    StrippedOpen m (nodes ++ [node]) (nodes' ++ [node]) .behindTag := by
  have other : ∀ text, node ≠ .raw text := by
    rintro text rfl
    cases changes
  exact h.push (.change changes (.nil _)) (endsPlain_concat other _) (endsPlain_concat other _)

theorem block {name : String} {chained : Bool} {behaviour : Behaviour} {args : Tuple} {body : Nat}
    (h : StrippedOpen m nodes nodes' n) (tag : n.IsTag) (inner : body ≠ 0) :
    StrippedOpen m (nodes ++ [.block name chained behaviour args, .scope (some body)])
      (nodes' ++ [.block name chained behaviour args, .scope (some body)]) .behindTag := by
  refine h.push (.block tag inner (.nil _)) ?_ ?_
  · rw [List.append_cons]
    exact endsPlain_concat (by simp) _
  · rw [List.append_cons]
    exact endsPlain_concat (by simp) _

end StrippedOpen

end Stencil
