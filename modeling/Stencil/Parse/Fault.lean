import Stencil.Block.Basic
import Stencil.Expr.Fold
import Stencil.Token.Basic

/-!
# What the parser refuses

The causes for which a token sequence is no template, with their wordings. A fault becomes an error
by the position of the tag it was met in.
-/

namespace Stencil

/-- What is wrong with the form of a tag or of its arguments. -/
inductive Malformed
  | unexpected (token : Token)
  | unexpectedArgument (token : Token)
  | missingArguments
  | unclosedArguments
  | scopeNeedsMember
  | memberNeedsOperand
  | memberNeedsName
  | bracketClosedByParen
  | parenClosedByBracket
  | commaNotAllowed
  | emptyArgument
  | trailingComma
  | labelNeedsValue (label : String)
  | repeatedLabel (label : String)
  | afterEmptyDictionary
  | mixedCollection
  | notOneExpression
  | fold (error : FoldError)
  | notOneAnonymous
  | declarationNeedsName
  | declarationNotOneValue
  | declarationForm
  | notOneArgument
  | defineNeedsBody
  | defineForm
  | evaluateNeedsName
  | evaluateForm
  | rawNeedsBody
  | blockNeedsBody (name : String)

def Malformed.message : Malformed → String
  | unexpected token => "意外的 " ++ token.text
  | unexpectedArgument token => "参数列表中出现意外的 " ++ token.text
  | missingArguments => "缺少参数列表"
  | unclosedArguments => "参数列表没有闭合"
  | scopeNeedsMember => "作用域之后需要 `.成员`"
  | memberNeedsOperand => "`.` 之前缺少操作数"
  | memberNeedsName => "`.` 之后需要成员名"
  | bracketClosedByParen => "`[` 与 `)` 不匹配"
  | parenClosedByBracket => "`(` 与 `]` 不匹配"
  | commaNotAllowed => "此处不能使用 ','"
  | emptyArgument => "参数为空"
  | trailingComma => "多余的 ','"
  | labelNeedsValue label => s!"标签 '{label}' 缺少值"
  | repeatedLabel label => s!"标签 '{label}' 重复"
  | afterEmptyDictionary => "`[:]` 之后不能再有元素"
  | mixedCollection => "集合字面量不能混用有标签与无标签的元素"
  | notOneExpression => "括号内只能有一个表达式"
  | fold error => error.message
  | notOneAnonymous => "匿名标签只能包含一个表达式"
  | declarationNeedsName => "声明需要变量名"
  | declarationNotOneValue => "声明只能赋一个值"
  | declarationForm => "声明的格式为 `var 名称 = 值`"
  | notOneArgument => "只接受一个参数"
  | defineNeedsBody => "define 的主体需要以 ':' 开始"
  | defineForm => "define 需要 `名称 = 值` 或 `名称):` 形式"
  | evaluateNeedsName => "evaluate 需要一个定义名"
  | evaluateForm => "evaluate 需要 `名称` 或 `名称 ?? 默认值`"
  | rawNeedsBody => "raw 的主体需要以 ':' 开始"
  | blockNeedsBody name => s!"块 '{name}' 需要以 ':' 开始主体"

/-- Why a tag does not fit the blocks that are open. -/
inductive Unmatched
  | otherOpen (name : String)
  | noneOpen
  | mustFollow (names : List String)

def Unmatched.message : Unmatched → String
  | otherOpen name => s!"当前打开的块是 '{name}'"
  | noneOpen => "没有打开的块"
  | mustFollow names => "必须紧跟在 " ++ "/".intercalate names ++ " 之后"

/-- Why a variable cannot be used in this way. -/
inductive VariableFault
  | letNeedsValue
  | redeclared
  | notLocal
  | undeclared
  | isConstant
  | compoundUnassigned
  | unassigned

def VariableFault.message : VariableFault → String
  | letNeedsValue => "let 声明必须赋值"
  | redeclared => "在同一作用域内重复声明"
  | notLocal => "只能给局部变量赋值"
  | undeclared => "赋值之前必须先声明"
  | isConstant => "常量不能重新赋值"
  | compoundUnassigned => "复合赋值之前必须先赋值"
  | unassigned => "声明后尚未赋值"

/-- Why arguments do not fit what they are passed to. -/
inductive SignatureFault
  | unregistered (method : Bool)
  | bind (error : BindError)
  | noOverload
  | block (error : BlockError)
  | inlineNeedsName
  | inlineUnknownLabel (label : String)
  | inlineMode
  | inlineNotOneName
  | rawNeedsEncoder
  | unknownEncoder (name : String)

def SignatureFault.message : SignatureFault → String
  | unregistered method => if method then "方法未注册" else "函数未注册"
  | bind error => error.message
  | noOverload => "实参类型与所有重载都不匹配"
  | block error => error.message
  | inlineNeedsName => "第一个参数必须是模板名字符串"
  | inlineUnknownLabel label => s!"未知的参数标签 '{label}'"
  | inlineMode => "`as:` 只能是 raw 或 leaf"
  | inlineNotOneName => "只接受一个模板名"
  | rawNeedsEncoder => "需要编码器名称"
  | unknownEncoder name => s!"编码器 '{name}' 未注册"

/-- Why a token sequence is no template. -/
inductive Fault
  | malformed (tag : String) (reason : Malformed)
  | unmatched (tag : String) (reason : Unmatched)
  | unclosed (names : List String)
  | variable (name : String) (reason : VariableFault)
  | signature (name : String) (reason : SignatureFault)
  | ambiguous (name : String) (candidates : Nat)

/-- The tag, function or variable that a fault is about. -/
def Fault.subject : Fault → String
  | malformed tag _ => tag
  | unmatched tag _ => tag
  | unclosed names => names.headD ""
  | .variable name _ => name
  | signature name _ => name
  | ambiguous name _ => name

def Fault.message : Fault → String
  | malformed tag reason => s!"标签 '{tag}' 中的表达式无效 - " ++ reason.message
  | unmatched tag reason => s!"块 '{tag}' 不匹配 - " ++ reason.message
  | unclosed names => "模板结束时仍有未闭合的块: " ++ ", ".intercalate names
  | .variable name reason => s!"变量 '{name}' 使用无效 - " ++ reason.message
  | signature name reason => s!"'{name}' 的签名无效 - " ++ reason.message
  | ambiguous name candidates => s!"'{name}' 的调用存在歧义，{candidates} 个重载同时匹配"

/-- A fault and the position of the tag it was met in. -/
structure ParseError where
  location : Text.Location
  fault : Fault

def ParseError.message (e : ParseError) : String := e.location.describe ++ "：" ++ e.fault.message

end Stencil
