import Stencil.Parse.Template
import Stencil.Render.Walk

/-!
# The engine

An engine holds a registry, a configuration, and the templates and raw texts that can be inlined by
name. Resolving a template splices in what is registered, round after round, as long as a round
brings something and something is missing.
-/

namespace Stencil

/-- How many rounds of splicing are made at most. -/
def maxInlineRounds : Nat := 32

/-- All that parsing, resolving and rendering depend on, the template and the context apart. -/
structure Engine where
  entities : Entities := .core
  config : Config := {}
  templates : Entries String := []
  raws : Entries String := []

namespace Engine

/-- Registers the source of a template. -/
def addTemplate (engine : Engine) (name source : String) : Engine :=
  { engine with templates := engine.templates.insert name source }

/-- Registers a raw text. -/
def addRaw (engine : Engine) (name text : String) : Engine :=
  { engine with raws := engine.raws.insert name text }

/-- The number of bytes in all registered templates. -/
def sourceSize (engine : Engine) : Nat :=
  engine.templates.foldl (fun total entry => total + entry.2.utf8ByteSize) 0

/-- Parses a source, with nothing spliced in. -/
def parse (engine : Engine) (name source : String) : Except Failure Template :=
  Template.parse engine.entities engine.config name source

/-- Splices registered templates into their places, in order; gives the number of places filled. The
first that cannot be parsed ends it, and what was spliced before stays. -/
def spliceTemplates (engine : Engine) : List String → Template → Nat → Template × Except Failure Nat
  | [], t, filled => (t, .ok filled)
  | name :: names, t, filled =>
    match engine.templates.find? name with
    | none => spliceTemplates engine names t filled
    | some source =>
      match engine.parse name source with
      | .error e => (t, .error e)
      | .ok other =>
        let (t, count) := t.inlineTemplate name other
        spliceTemplates engine names t (filled + count)

/-- Splices registered raw texts into their places; gives the number of places filled. -/
def spliceRaws (engine : Engine) (names : List String) (t : Template) : Template × Nat :=
  names.foldl
    (fun state name =>
      match engine.raws.find? name with
      | none => state
      | some text =>
        let (t, count) := state.1.inlineRaw name text
        (t, state.2 + count))
    (t, 0)

/-- Rounds of splicing, at most so many; `total` places are filled already. -/
def resolveRounds (engine : Engine) : (rounds : Nat) → Template → (total : Nat) →
    Template × Except Failure Nat
  | 0, t, total => (t, .ok total)
  | rounds + 1, t, total =>
    match engine.spliceTemplates t.templates t 0 with
    | (t, .error e) => (t, .error e)
    | (t, .ok filled) =>
      let (t, more) := engine.spliceRaws t.raws t
      let filled := filled + more
      if filled = 0 ∨ t.resolved then (t, .ok (total + filled))
      else resolveRounds engine rounds t (total + filled)

/-- Splices everything that is registered; gives the number of places filled, or the failure of a
registered template together with what was spliced before. -/
def resolve (engine : Engine) (t : Template) : Template × Except Failure Nat :=
  engine.resolveRounds maxInlineRounds t 0

/-- Parses a source and splices in what is registered. -/
def prepare (engine : Engine) (name source : String) : Except Failure Template :=
  match engine.parse name source with
  | .error e => .error e
  | .ok t =>
    match engine.resolve t with
    | (t, .ok _) => .ok t
    | (_, .error e) => .error e

/-- Prepares a registered template. -/
def compile (engine : Engine) (name : String) : Except Failure Template :=
  match engine.templates.find? name with
  | none => .error (.eval (.unresolvedInline name))
  | some source => engine.prepare name source

/-- Renders a template. -/
def render (engine : Engine) (t : Template) (context : Context) : Except Failure String :=
  (Rendering.render ⟨t, context, engine.config⟩ engine.entities.defaultEncoder).mapError .eval

/-- Parses, resolves and renders a source. -/
def renderSource (engine : Engine) (name source : String) (context : Context) :
    Except Failure String :=
  match engine.prepare name source with
  | .error e => .error e
  | .ok t => engine.render t context

end Engine

end Stencil
