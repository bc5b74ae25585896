/-!
# Arguments of the command line

`check [PATH]` checks templates and `render FILE` renders one. Options may stand anywhere: `-v` and
`--config FILE` also before the command, `-c FILE` or `--context FILE` and `--strict` behind
`render` only. `--version` or `-V` takes the place of the command, and nothing behind it counts. An
option that takes a value takes the rest of its argument or the next argument, which must not start
with a dash. Only `-v` may be repeated on one side of the command.
-/

namespace Stencil

/-- What is to be done. -/
inductive Command
  | check (path : String)
  | render (file : String) (context : Option String) (strict : Bool)
  | version

/-- A command with the configuration file. -/
structure Invocation where
  command : Command
  config : Option String := none

namespace CommandLine

/-- The options. -/
inductive Switch
  | verbose | config | context | strict | version
  deriving DecidableEq

/-- The commands by name. -/
inductive Verb
  | check | render
  deriving DecidableEq

def Verb.ofName? (name : String) : Option Verb :=
  if name = "check" then some .check else if name = "render" then some .render else none

/-- Whether an option can stand behind a command, or before it. -/
def Switch.allowed (switch : Switch) (verb : Option Verb) : Bool :=
  match switch with
  | verbose | config => true
  | context | strict => verb = some .render
  | version => verb = none

/-- Whether an option takes a value. -/
def Switch.takesValue : Switch → Bool
  | config | context => true
  | verbose | strict | version => false

def Switch.ofLong? (name : String) : Option Switch :=
  if name = "verbose" then some .verbose
  else if name = "config" then some .config
  else if name = "context" then some .context
  else if name = "strict" then some .strict
  else if name = "version" then some .version
  else none

def Switch.ofShort? (c : Char) : Option Switch :=
  if c = 'v' then some .verbose
  else if c = 'c' then some .context
  else if c = 'V' then some .version
  else none

/-- What was given on one side of the command. -/
structure Given where
  config : Option String := none
  context : Option String := none
  strict : Bool := false
  version : Bool := false
  positional : Option String := none

/-- Notes an option with its value; none if it was given before, or with an empty value. -/
def Given.add? (g : Given) (switch : Switch) (value : String) : Option Given :=
  match switch with
  | .verbose => some g
  | .version => some { g with version := true }
  | .strict => if g.strict then none else some { g with strict := true }
  | .config =>
    if g.config.isSome || value.isEmpty then none else some { g with config := some value }
  | .context =>
    if g.context.isSome || value.isEmpty then none else some { g with context := some value }

/-- Notes an argument that is no option. -/
def Given.addPositional? (g : Given) (value : String) : Option Given :=
  if g.positional.isSome || value.isEmpty then none else some { g with positional := some value }

/-- Options read from one argument, and an option whose value is the next one. -/
structure Scanned where
  given : Given
  awaits : Option Switch := none

/-- Reads a group of short options. -/
def readShort (verb : Option Verb) (g : Given) : List Char → Option Scanned
  | [] => some { given := g }
  | c :: rest => do
    let switch ← Switch.ofShort? c
    if !switch.allowed verb then none
    else if !switch.takesValue then
      let g ← g.add? switch ""
      if g.version then some { given := g } else readShort verb g rest
    else
      match rest with
      | [] => some { given := g, awaits := some switch }
      | '=' :: value => (g.add? switch (String.ofList value)).map fun given => { given }
      | value => (g.add? switch (String.ofList value)).map fun given => { given }

/-- Reads a long option, given without its dashes. -/
def readLong (verb : Option Verb) (g : Given) (text : List Char) : Option Scanned := do
  let switch ← Switch.ofLong? (String.ofList (text.takeWhile (· != '=')))
  if !switch.allowed verb then none
  else
    match text.dropWhile (· != '=') with
    | '=' :: value =>
      if switch.takesValue then
        (g.add? switch (String.ofList value)).map fun given => { given }
      else none
    | _ =>
      if switch.takesValue then some { given := g, awaits := some switch }
      else (g.add? switch "").map fun given => { given }

/-- Whether an argument looks like an option. -/
def isOption (argument : String) : Bool :=
  match argument.toList with
  | '-' :: _ :: _ => true
  | _ => false

/-- Reads one argument before or behind the command that looks like an option. -/
def readOption (verb : Option Verb) (g : Given) (argument : String) : Option Scanned :=
  match argument.toList with
  | '-' :: '-' :: text => readLong verb g text
  | '-' :: text => readShort verb g text
  | _ => none

/-- Reads the arguments behind the command; `options` tells whether options are still looked for. -/
def readBehind (verb : Verb) (awaits : Option Switch) (options : Bool) (g : Given) :
    List String → Option Given
  | [] => if awaits.isSome then none else some g
  | argument :: rest =>
    match awaits with
    | some switch => do
      if isOption argument then none
      else
        let g ← g.add? switch argument
        readBehind verb none options g rest
    | none =>
      if options && argument == "--" then readBehind verb none false g rest
      else if options && isOption argument then do
        let scanned ← readOption (some verb) g argument
        readBehind verb scanned.awaits options scanned.given rest
      else do
        let g ← g.addPositional? argument
        readBehind verb none options g rest

/-- Reads the arguments up to the command; there is none where the version is asked for. -/
def readBefore (awaits : Option Switch) (g : Given) :
    List String → Option (Given × Option (Verb × List String))
  | [] => none
  | argument :: rest =>
    match awaits with
    | some switch => do
      if isOption argument then none
      else
        let g ← g.add? switch argument
        readBefore none g rest
    | none =>
      if isOption argument then do
        let scanned ← readOption none g argument
        if scanned.given.version then some (scanned.given, none)
        else readBefore scanned.awaits scanned.given rest
      else (Verb.ofName? argument).map fun verb => (g, some (verb, rest))

/-- The path that is checked if none is given. -/
def defaultPath : String := "templates"

/-- Reads the arguments of an invocation; none if they are refused. A configuration file named
behind the command goes before one named in front of it. -/
def parse? (arguments : List String) : Option Invocation := do
  let (before, found) ← readBefore none {} arguments
  match found with
  | none => return { command := .version }
  | some (verb, rest) =>
    let behind ← readBehind verb none true {} rest
    let config := behind.config.orElse fun _ => before.config
    match verb with
    | .check => return { command := .check (behind.positional.getD defaultPath), config }
    | .render =>
      let file ← behind.positional
      return { command := .render file behind.context behind.strict, config }

end CommandLine

end Stencil
