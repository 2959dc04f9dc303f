import WatCompiler.SyntaxTree

/-!
# Faults of form

Why a syntax tree is not the tree of a program. The grammar of trees covers more than the compiled
language, so this is where the rest is refused.
-/

namespace WatCompiler.Program

/-- Why a syntax tree is not the tree of a program. -/
inductive Fault
  | notAScript (found : SyntaxTree.Kind)
  | definitionAfterStatement
  | invalidAssignment
  | notADefinable (target : Text)
  | uninitialized (name : Text)
  | unexpected (text : Text)
  | invalidVariableType (type name : Text)
  | malformedType (text : Text)
  | numberTooLarge (text : Text)
  | invalidLiteral (text : Text)
  | invalidFunctionDefinition
  | missingParameterList (function : Text)
  | invalidReturnType (type function : Text)
  | missingFunctionBody (function : Text)
  | invalidParameterList
  | invalidParameter (text : Text)
  | untypedParameter (name : Text)
  | invalidParameterType (type name : Text)
  | unexpectedInParameters (text : Text)
  | trailingCommaInParameters
  | invalidFunctionBody
  | definitionInsideBody
  | invalidBlock
  | emptyBlock
  | misplacedDefinition (target : Text)
  | misplacedFunction
  | unsupportedStatement (text : Text)
  | notAssignable (target : Text)
  | missingValue
  | whileWithoutCondition
  | whileWithoutBody
  | elseWithoutBody
  | armAfterElse
  | armWithoutCondition (keyword : Text)
  | armWithoutBody
  | missingExpression
  | unsupportedBinary (op : Text)
  | unsupportedUnary (op : Text)
  | invalidParenthesis
  | calleeNotAName
  | invalidCall
  | invalidArgumentList
  | unexpectedInArguments (text : Text)
  | trailingCommaInArguments
  | stringExpression
  | attributeAccess
  | notAnExpression (text : Text) (kind : SyntaxTree.Kind)
  /-- A node lacks a child that the grammar gives to every node of its kind. -/
  | missingChild
deriving DecidableEq, Repr

/-- The wording of a fault. -/
def Fault.message : Fault → Text
  | notAScript found =>
    "could not parse program: expected " ++ SyntaxTree.Kind.script.name ++ ", got " ++ found.name
  | definitionAfterStatement => "definitions must come before all statements"
  | invalidAssignment => "invalid assignment statement"
  | notADefinable target => "cannot define " ++ Text.quote target ++ ": expected a variable name"
  | uninitialized name => "variable " ++ name ++ " must be initialized"
  | unexpected text => "unexpected " ++ Text.quote text
  | invalidVariableType type name =>
    "invalid type " ++ Text.quote type ++ " for variable " ++ name
  | malformedType text => "invalid type annotation " ++ Text.quote text
  | numberTooLarge text => "integer literal " ++ text ++ " does not fit in 32 bits"
  | invalidLiteral text => "invalid literal " ++ Text.quote text
  | invalidFunctionDefinition => "invalid function definition"
  | missingParameterList function => "function " ++ function ++ " is missing a parameter list"
  | invalidReturnType type function =>
    "invalid return type " ++ Text.quote type ++ " for function " ++ function
  | missingFunctionBody function => "function " ++ function ++ " is missing a body"
  | invalidParameterList => "invalid parameter list"
  | invalidParameter text => "invalid parameter " ++ Text.quote text
  | untypedParameter name => "parameter " ++ name ++ " needs a type annotation"
  | invalidParameterType type name =>
    "invalid type " ++ Text.quote type ++ " for parameter " ++ name
  | unexpectedInParameters text => "unexpected " ++ Text.quote text ++ " in parameter list"
  | trailingCommaInParameters => "trailing comma in parameter list"
  | invalidFunctionBody => "invalid function body"
  | definitionInsideBody => "cannot define any further variables inside the function body"
  | invalidBlock => "invalid block"
  | emptyBlock => "empty block"
  | misplacedDefinition target => "cannot define variable " ++ target ++ " at this point"
  | misplacedFunction =>
    "function definitions are only allowed at the top level, before all statements"
  | unsupportedStatement text => "unsupported statement " ++ Text.quote text
  | notAssignable target => "cannot assign to " ++ Text.quote target
  | missingValue => "missing value in assignment"
  | whileWithoutCondition => "while statement is missing a condition"
  | whileWithoutBody => "while statement is missing a body"
  | elseWithoutBody => "else is missing a body"
  | armAfterElse => "no conditions allowed after else"
  | armWithoutCondition keyword => keyword ++ " is missing a condition"
  | armWithoutBody => "if condition missing body"
  | missingExpression => "missing expression"
  | unsupportedBinary op => "unsupported binary operator " ++ Text.quote op
  | unsupportedUnary op => "unsupported unary operator " ++ Text.quote op
  | invalidParenthesis => "invalid parenthesis"
  | calleeNotAName => "only named functions can be called"
  | invalidCall => "invalid call"
  | invalidArgumentList => "invalid argument list"
  | unexpectedInArguments text => "unexpected " ++ Text.quote text ++ " in argument list"
  | trailingCommaInArguments => "trailing comma in argument list"
  | stringExpression => "strings are not supported"
  | attributeAccess => "attribute access is not supported"
  | notAnExpression text kind =>
    "could not parse expression " ++ Text.quote text ++ " (" ++ kind.name ++ ")"
  | missingChild => "missing child"

end WatCompiler.Program
