import Stencil.Text.Quoted

/-!
# What can go wrong with a value

Evaluation never stops at an error: an error is a value that travels on. This module names the
causes and gives each its wording.
-/

namespace Stencil

/-- The types that a call parameter can ask for. -/
inductive ValueType
  | void | bool | int | double | string | array | dictionary
  deriving DecidableEq

/-- The name of a type in messages. -/
def ValueType.name : ValueType → String
  | .void => "Void"
  | .bool => "Bool"
  | .int => "Int"
  | .double => "Double"
  | .string => "String"
  | .array => "Array"
  | .dictionary => "Dictionary"

def ValueType.all : List ValueType := [.void, .bool, .int, .double, .string, .array, .dictionary]

/-- The type with a name. -/
def ValueType.ofName? (name : String) : Option ValueType := ValueType.all.find? (·.name == name)

/-- The name of the type of a value in messages; an error value has no type. -/
def typeName : Option ValueType → String
  | some type => type.name
  | none => "Error"

/-- Why arguments do not fit the shape of a signature. -/
inductive BindError
  | labelBeforePositional
  | missingLabel (label : String)
  | missingPosition (number : Nat)
  | tooManyPositions (accepted given : Nat)
  | unknownLabels (labels : List String)
  deriving DecidableEq

def BindError.message : BindError → String
  | labelBeforePositional => "位置参数必须位于标签参数之前"
  | missingLabel label => s!"缺少参数 '{label}'"
  | missingPosition number => s!"缺少第 {number} 个参数"
  | tooManyPositions accepted given => s!"最多接受 {accepted} 个位置参数，实际 {given} 个"
  | unknownLabels labels => "未知的参数标签: " ++ ", ".intercalate labels

/-- Why a call cannot run on given values. -/
inductive CallError
  | bind (error : BindError)
  | type (expected : List ValueType) (actual : Option ValueType)
  deriving DecidableEq

def CallError.message : CallError → String
  | bind error => error.message
  | type expected actual =>
    "期望 " ++ " | ".intercalate (expected.map ValueType.name) ++ "，实际 " ++ typeName actual

/-- Why an operation does not apply. -/
inductive Mismatch
  | wordAsValue
  | missingOperand
  | sequenceAsValue
  | overflow
  | divisionByZero
  | notBinary
  | operand (kind : Option ValueType)
  | operands (left right : Option ValueType)
  | index (place : Int64) (length : Nat)
  | overloads (types : List (Option ValueType)) (matching : Nat)
  | call (error : CallError)
  deriving DecidableEq

def Mismatch.message : Mismatch → String
  | wordAsValue => "关键字不能作为值使用"
  | missingOperand => "运算符缺少操作数"
  | sequenceAsValue => "自定义语法序列不能直接求值"
  | overflow => "整数溢出"
  | divisionByZero => "除数为零"
  | notBinary => "不是中缀运算符"
  | operand kind => "不能用于 " ++ typeName kind
  | operands left right => "不能用于 " ++ typeName left ++ " 与 " ++ typeName right
  | index place length => s!"下标 {place.toInt} 超出范围（长度 {length}）"
  | overloads types matching =>
    "实参类型 (" ++ ", ".intercalate (types.map typeName) ++ s!") 匹配到 {matching} 个重载"
  | call error => error.message

/-- An error met while a template is evaluated. -/
inductive EvalError
  | missingVariable (name : String)
  | typeMismatch (name : String) (reason : Mismatch)
  | raised (message : String)
  | unresolvedInline (name : String)
  | passLimit (name : String) (limit : Nat)
  deriving DecidableEq

namespace EvalError

def message : EvalError → String
  | missingVariable name => s!"变量 '{name}' 未定义"
  | typeMismatch name reason => s!"'{name}' 类型不匹配: " ++ reason.message
  | raised message => message
  | unresolvedInline name => s!"内联模板 '{name}' 尚未解析"
  | passLimit name limit => s!"'{name}' 超过了最大执行次数 {limit}"

/-- An error spelled out with its fields. -/
def inspect : EvalError → String
  | missingVariable name => "MissingVariable \x7b name: " ++ Text.quoted name ++ " \x7d"
  | typeMismatch name reason =>
    "TypeMismatch \x7b name: " ++ Text.quoted name ++ ", message: " ++
      Text.quoted reason.message ++ " \x7d"
  | raised message => "UserRaised \x7b message: " ++ Text.quoted message ++ " \x7d"
  | unresolvedInline name => "UnresolvedInline \x7b name: " ++ Text.quoted name ++ " \x7d"
  | passLimit name limit =>
    "PassLimitExceeded \x7b name: " ++ Text.quoted name ++ ", limit: " ++ toString limit ++ " \x7d"

end EvalError

end Stencil
