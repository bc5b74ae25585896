import Stencil.Formatters
import Stencil.Json.Value
import Stencil.Text.CharClass

/-!
# Configuration

What the lexer, the parser and the renderer can be told, and the JSON form of it: an object with any
of the five fields, or an array of their values in order. A field that is not given keeps its
default, an object may have other members, and no field may come twice.
-/

namespace Stencil

/-- The settings of an engine. -/
structure Config where
  /-- The character that starts a tag. -/
  indicator : Char := '#'
  /-- A variable without value is an error instead of nil. -/
  strict : Bool := false
  /-- An error in the output makes the rendering fail. -/
  errorsAreFatal : Bool := true
  /-- Lines with nothing but tags of their own leave no blank line. -/
  trimBlockLines : Bool := true
  /-- How many passes a loop without a count may make. -/
  maxLoopPasses : Nat := 10000
  formatters : Formatters := .standard

/-- Why a configuration is refused. -/
inductive ConfigError
  | json (failure : Json.Failure)
  | indicator (c : Char)

def ConfigError.message : ConfigError → String
  | json .unfinished => "配置格式无效: 内容不完整"
  | json .malformed => "配置格式无效: 语法错误"
  | json .wrongShape => "配置格式无效: 类型不符"
  | indicator c => "标签标记字符 '" ++ String.ofList [c] ++ "' 不可用"

namespace Config

/-- The default but for variables without value. -/
def strictDefault : Config := { strict := true }

/-- Whether a character can start tags: it must not be part of a name, a blank, or mean something
around tags. -/
def admitsIndicator (c : Char) : Bool :=
  !(Text.isLetterOrNumber c || Text.isBlank c || ['\\', '(', ')', ':', '_'].contains c)

/-- The fields in the order of the JSON form. -/
inductive Field
  | indicator | strict | errorsAreFatal | trimBlockLines | maxLoopPasses
  deriving DecidableEq

namespace Field

def all : List Field := [indicator, strict, errorsAreFatal, trimBlockLines, maxLoopPasses]

/-- The key of a field. -/
def key : Field → String
  | indicator => "tag_indicator"
  | strict => "missing_variable_throws"
  | errorsAreFatal => "errors_are_fatal"
  | trimBlockLines => "trim_block_lines"
  | maxLoopPasses => "max_loop_passes"

def ofKey? (name : String) : Option Field := all.find? (·.key == name)

/-- Sets a field, if the value has its type. -/
def set? (config : Config) : Field → Json.Tree → Option Config
  | indicator, .string s =>
    match s.toList with
    | [c] => some { config with indicator := c }
    | _ => none
  | strict, .bool b => some { config with strict := b }
  | errorsAreFatal, .bool b => some { config with errorsAreFatal := b }
  | trimBlockLines, .bool b => some { config with trimBlockLines := b }
  | maxLoopPasses, .number (.integer n) =>
    if 0 ≤ n then some { config with maxLoopPasses := n.toNat } else none
  | _, _ => none

end Field

open Json

/-- Reads the value of a field. An array or an object is refused where it opens. -/
def readField (config : Config) (field : Field) (s : List Char) :
    Except Failure (Config × Shorter s) :=
  match skipBlanks s with
  | ⟨[], _⟩ => .error .unfinished
  | ⟨c :: r, h⟩ =>
    if c = '[' ∨ c = '\x7b' then .error .wrongShape
    else
      match readScalar (.strict 0) c r with
      | .error e => .error e
      | .ok (tree, left) =>
        match field.set? config tree with
        | none => .error .wrongShape
        | some config => .ok (config, left.shorter h)

/-- Reads the array form after its bracket: the values of the fields that are left, as far as they
are given, and the closing bracket. -/
def readArray (config : Config) (first : Bool) : List Field → (s : List Char) →
    Except Failure (Config × List Char)
  | [], s =>
    match skipBlanks s with
    | ⟨[], _⟩ => .error .unfinished
    | ⟨c :: r, _⟩ => if c = ']' then .ok (config, r) else .error .malformed
  | field :: fields, s =>
    match skipBlanks s with
    | ⟨[], _⟩ => .error .unfinished
    | ⟨c :: r, _⟩ =>
      if c = ']' then .ok (config, r)
      else if first then
        match readField config field (c :: r) with
        | .error e => .error e
        | .ok (config, ⟨r', _⟩) => readArray config false fields r'
      else if c = ',' then
        let behind := (skipBlanks r).1
        if behind.head? = some ']' then .error .malformed
        else
          match readField config field behind with
          | .error e => .error e
          | .ok (config, ⟨r', _⟩) => readArray config false fields r'
      else .error .malformed

/-- Reads a member after its opening quote: a field that was not given before, or any other member,
which is skipped. -/
def readMember (config : Config) (given : List Field) (s : List Char) :
    Except Failure ((Config × List Field) × Shorter s) :=
  match readString (.strict 0) s with
  | .error e => .error e
  | .ok (key, left) =>
    let field? := Field.ofKey? (String.ofList key)
    if field?.any given.contains then .error .wrongShape
    else
      match skipBlanks left.1 with
      | ⟨[], _⟩ => .error .unfinished
      | ⟨c :: r, colon⟩ =>
        if c = ':' then
          match field? with
          | some field =>
            match readField config field r with
            | .error e => .error e
            | .ok (config, more) => .ok ((config, field :: given), left.join (more.trans colon))
          | none =>
            match readValue .skip r with
            | .error e => .error e
            | .ok (_, more) => .ok ((config, given), left.join (more.trans colon))
        else .error .malformed

/-- Reads the object form after its brace, up to the closing brace. -/
def readObject (config : Config) (given : List Field) (first : Bool) (s : List Char) :
    Except Failure (Config × List Char) :=
  match skipBlanks s with
  | ⟨[], _⟩ => .error .unfinished
  | ⟨c :: r, h⟩ =>
    have : r.length < s.length := h
    if c = '\x7d' then .ok (config, r)
    else if first then
      if c = '\x22' then
        match readMember config given r with
        | .error e => .error e
        | .ok ((config, given), ⟨r', _⟩) => readObject config given false r'
      else .error .malformed
    else if c = ',' then
      match skipBlanks r with
      | ⟨[], _⟩ => .error .unfinished
      | ⟨d :: r', h'⟩ =>
        have : r'.length < r.length := h'
        if d = '\x22' then
          match readMember config given r' with
          | .error e => .error e
          | .ok ((config, given), ⟨r'', _⟩) => readObject config given false r''
        else .error .malformed
    else .error .malformed
termination_by s.length

/-- Reads either form. -/
def readForm (s : List Char) : Except Failure (Config × List Char) :=
  match skipBlanks s with
  | ⟨[], _⟩ => .error .unfinished
  | ⟨'[' :: r, _⟩ => readArray {} true Field.all r
  | ⟨'\x7b' :: r, _⟩ => readObject {} [] true r
  | ⟨c :: r, _⟩ =>
    match readScalar (.strict 0) c r with
    | .error e => .error e
    | .ok _ => .error .wrongShape

/-- Reads a configuration from JSON text. -/
def ofJson (text : String) : Except ConfigError Config :=
  match readForm text.toList with
  | .error e => .error (.json e)
  | .ok (config, r) =>
    if !atEnd r then .error (.json .malformed)
    else if admitsIndicator config.indicator then .ok config
    else .error (.indicator config.indicator)

/-- A configuration as JSON text, in the order of the fields. -/
def jsonText (config : Config) : String :=
  let flag (b : Bool) : String := if b then "true" else "false"
  "\x7b\"tag_indicator\":" ++ stringText (String.ofList [config.indicator]) ++
    ",\"missing_variable_throws\":" ++ flag config.strict ++
    ",\"errors_are_fatal\":" ++ flag config.errorsAreFatal ++
    ",\"trim_block_lines\":" ++ flag config.trimBlockLines ++
    ",\"max_loop_passes\":" ++ toString config.maxLoopPasses ++ "\x7d"

end Config

end Stencil
