import Stencil.CommandLine.Disk
import Stencil.CommandLine.Options
import Stencil.Diagnostic
import Stencil.Engine

/-!
# Runs of the command line

An invocation reads files and leaves an exit code, an output and lines of messages. Inlined
templates and raw texts are looked for beside the template: a template by its name with the template
extension, a raw text by its name alone. Files are read round after round, as long as a round finds
one that is not registered; so templates that inline each other end as open references.
-/

namespace Stencil

/-- What an invocation leaves. -/
structure Outcome where
  code : Nat := 0
  output : String := ""
  errors : String := ""

namespace CommandLine

/-- Why an invocation fails: the failure, what caused it, and so on. -/
abbrev Causes := List String

def Causes.text (causes : Causes) : String := ": ".intercalate causes

/-- A failure of the engine as causes. -/
def causesOf (f : Failure) : Causes := [f.message, f.detail]

/-- A file that cannot be read. -/
def unreadable (what path : String) (e : DiskError) : Causes :=
  ["无法读取" ++ what ++ ": " ++ path, e.message]

/-- The extension of templates. -/
def templateExtension : String := "leaf"

/-! ## Reading what is inlined -/

/-- Registers the templates of a folder that are named and not registered; gives their number. -/
def loadTemplates (disk : Disk) (folder : String) :
    List String → Engine → Nat → Except Causes (Engine × Nat)
  | [], engine, loaded => .ok (engine, loaded)
  | name :: names, engine, loaded =>
    let path := Path.join folder (name ++ "." ++ templateExtension)
    if engine.templates.has name || !disk.isFile path then
      loadTemplates disk folder names engine loaded
    else
      match disk.readText path with
      | .error e => .error (unreadable "模板" path e)
      | .ok source => loadTemplates disk folder names (engine.addTemplate name source) (loaded + 1)

/-- Registers the raw texts of a folder that are named and not registered; gives their number. -/
def loadRaws (disk : Disk) (folder : String) :
    List String → Engine → Nat → Except Causes (Engine × Nat)
  | [], engine, loaded => .ok (engine, loaded)
  | name :: names, engine, loaded =>
    let path := Path.join folder name
    if engine.raws.has name || !disk.isFile path then loadRaws disk folder names engine loaded
    else
      match disk.readText path with
      | .error e => .error (unreadable "文件" path e)
      | .ok text => loadRaws disk folder names (engine.addRaw name text) (loaded + 1)

/-- Registers what a template waits for and a folder holds; gives the number of files. -/
def loadMissing (disk : Disk) (folder : String) (engine : Engine) (t : Template) :
    Except Causes (Engine × Nat) :=
  match loadTemplates disk folder t.templates engine 0 with
  | .error causes => .error causes
  | .ok (engine, loaded) => loadRaws disk folder t.raws engine loaded

/-- At most so many rounds of reading and splicing. -/
def spliceRounds (disk : Disk) (folder : String) : (rounds : Nat) → Engine → Template →
    Except Causes (Engine × Template)
  | 0, engine, t => .ok (engine, t)
  | rounds + 1, engine, t =>
    match loadMissing disk folder engine t with
    | .error causes => .error causes
    | .ok (engine, loaded) =>
      if loaded = 0 then .ok (engine, t)
      else
        match engine.resolve t with
        | (_, .error failure) => .error (causesOf failure)
        | (t, .ok _) => spliceRounds disk folder rounds engine t

/-- Splices in what a folder holds. Every round but the last registers a name that was not
registered before, and each name is one that the template waits for or is written in a registered
template or a file, so there are fewer rounds than such names and bytes together. -/
def spliceFrom (disk : Disk) (folder : String) (engine : Engine) (t : Template) :
    Except Causes (Engine × Template) :=
  let rounds := t.templates.length + t.raws.length + engine.sourceSize + disk.size + 1
  spliceRounds disk folder rounds engine t

/-! ## The commands -/

/-- Reads the context that templates are rendered with. -/
def readContext (disk : Disk) : Option String → Except Causes Context
  | none => .ok {}
  | some path =>
    match disk.readText path with
    | .error e => .error (unreadable "上下文" path e)
    | .ok text =>
      (Context.ofJson text).mapError fun failure =>
        ["上下文格式无效: " ++ path, match failure with
          | .wrongShape => "上下文必须是 JSON 对象"
          | .malformed => "语法错误"
          | .unfinished => "内容不完整"]

/-- Reads the configuration. -/
def readConfig (disk : Disk) : Option String → Except Causes Config
  | none => .ok {}
  | some path =>
    match disk.readText path with
    | .error e => .error ["无法加载配置: " ++ path, "读取配置文件失败: " ++ e.message, e.message]
    | .ok text => (Config.ofJson text).mapError fun e => ["无法加载配置: " ++ path, e.message]

/-- Renders a file. -/
def renderFile (disk : Disk) (config : Config) (file : String) (context : Option String) :
    Except Causes String := do
  let source ← (disk.readText file).mapError (unreadable "模板" file)
  let context ← readContext disk context
  let engine : Engine := { config }
  let t ← (engine.parse (Path.stem file) source).mapError fun failure => [failure.diagnostic source]
  let (engine, t) ← spliceFrom disk (Path.parent file) engine t
  (engine.render t context).mapError causesOf

/-- Checks a file. -/
def checkFile (disk : Disk) (config : Config) (file : String) : Report :=
  match disk.readText file with
  | .error e => [.loadFailure file ("无法读取文件 - " ++ e.message)]
  | .ok source =>
    let engine : Engine := { config }
    match engine.parse (Path.stem file) source with
    | .error failure => [.ofFailure file failure source]
    | .ok t =>
      match spliceFrom disk (Path.parent file) engine t with
      | .error causes => [.loadFailure file ("内联模板无效: " ++ causes.text)]
      | .ok (_, t) => Report.analyze file t

/-- The templates that a path stands for, if there is anything. -/
def templatesAt? (disk : Disk) (path : String) : Option (List String) :=
  if disk.isFile path then some [path]
  else if disk.isFolder path then
    some ((disk.filesBelow path).filter fun file =>
      Path.extension? file == some templateExtension)
  else none

/-- The last line of a check. -/
def verdict (errors warnings : Nat) : String :=
  if 0 < errors then s!"❌ {errors} 个错误, {warnings} 个警告"
  else if 0 < warnings then s!"⚠️  0 个错误, {warnings} 个警告"
  else "✅ 检查通过，无错误"

/-- The lines of a check of so many files. -/
def checkLines (files : Nat) (report : Report) : List String :=
  [s!"==> 检查 {files} 个模板文件...", "", String.ofList (List.replicate 53 '─'),
    s!"检查完成: {files} 个模板", ""] ++
  report.map Diagnostic.text ++
  ["", verdict (report.count .error) (report.count .warning)]

/-- A failed invocation. -/
def failed (causes : Causes) : Outcome :=
  { code := 1, errors := "leaf-check error: " ++ causes.text ++ "\n" }

/-- Checks what a path stands for. -/
def checkPath (disk : Disk) (config : Config) (path : String) : Outcome :=
  match templatesAt? disk path with
  | none => failed ["路径不存在: " ++ path]
  | some [] => { errors := "未找到模板文件（." ++ templateExtension ++ "）\n" }
  | some files =>
    let report : Report := files.flatMap (checkFile disk config)
    let lines := String.join ((checkLines files.length report).map (· ++ "\n"))
    if report.hasErrors then
      let failure := failed ["模板检查发现错误"]
      { failure with errors := lines ++ failure.errors }
    else { errors := lines }

/-- The name and version of the program. -/
def versionLine : String := "leaf-check 0.1.0\n"

/-- Runs an invocation. -/
def execute (disk : Disk) (invocation : Invocation) : Outcome :=
  match readConfig disk invocation.config with
  | .error causes => failed causes
  | .ok config =>
    match invocation.command with
    | .version => { output := versionLine }
    | .check path => checkPath disk config path
    | .render file context strict =>
      let config := if strict then { config with strict := true } else config
      match renderFile disk config file context with
      | .ok output => { output }
      | .error causes => failed causes

/-- The paths that an invocation starts from. -/
def pathsOf (invocation : Invocation) : List String :=
  let named := match invocation.command with
    | .version => []
    | .check path => [path]
    | .render file context _ => [Path.parent file] ++ context.toList
  named ++ invocation.config.toList

/-- Runs the program; none if the arguments are refused. -/
def run (disk : Disk) (arguments : List String) : Option Outcome :=
  (parse? arguments).map (execute disk)

end CommandLine

end Stencil
