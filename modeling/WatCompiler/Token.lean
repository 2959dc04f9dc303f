import WatCompiler.Text

/-!
# Tokens

The vocabulary of the source language: keywords, operators and delimiters, and tokens with their
place in the source. Line structure shows up as `newline`, `indent` and `dedent` tokens.
-/

namespace WatCompiler

/-- Words that cannot be names. The grammar has no use for those from `class_` on. -/
inductive Keyword
  | def_ | if_ | elif | else_ | while_ | for_ | in_ | return_ | pass | break_ | continue_
  | not | is | and | or | true | false | none
  | class_ | import_ | from_ | global | nonlocal | lambda | del | yield | with_ | try_ | except
  | finally_ | raise | assert | async | await | as_
deriving DecidableEq, Repr

namespace Keyword

/-- The spelling of a keyword. -/
def text : Keyword → Text
  | def_ => "def" | if_ => "if" | elif => "elif" | else_ => "else" | while_ => "while"
  | for_ => "for" | in_ => "in" | return_ => "return" | pass => "pass" | break_ => "break"
  | continue_ => "continue" | not => "not" | is => "is" | and => "and" | or => "or"
  | true => "True" | false => "False" | none => "None"
  | class_ => "class" | import_ => "import" | from_ => "from" | global => "global"
  | nonlocal => "nonlocal" | lambda => "lambda" | del => "del" | yield => "yield"
  | with_ => "with" | try_ => "try" | except => "except" | finally_ => "finally"
  | raise => "raise" | assert => "assert" | async => "async" | await => "await" | as_ => "as"

/-- Every keyword. -/
def all : List Keyword :=
  [def_, if_, elif, else_, while_, for_, in_, return_, pass, break_, continue_,
    not, is, and, or, true, false, none,
    class_, import_, from_, global, nonlocal, lambda, del, yield, with_, try_, except,
    finally_, raise, assert, async, await, as_]

/-- The keyword with a given spelling. -/
def ofText? (t : Text) : Option Keyword := all.find? fun k => k.text == t

end Keyword

/-- Operators and delimiters. -/
inductive Operator
  | power | floorDivide | equal | notEqual | lessEqual | greaterEqual | arrow | shiftLeft
  | shiftRight | plus | minus | times | divide | modulo | less | greater | assign
  | leftParen | rightParen | leftBracket | rightBracket | comma | colon | dot | tilde
  | ampersand | bar | caret
deriving DecidableEq, Repr

namespace Operator

/-- The spelling of an operator. -/
def text : Operator → Text
  | power => "**" | floorDivide => "//" | equal => "==" | notEqual => "!=" | lessEqual => "<="
  | greaterEqual => ">=" | arrow => "->" | shiftLeft => "<<" | shiftRight => ">>"
  | plus => "+" | minus => "-" | times => "*" | divide => "/" | modulo => "%" | less => "<"
  | greater => ">" | assign => "=" | leftParen => "(" | rightParen => ")" | leftBracket => "["
  | rightBracket => "]" | comma => "," | colon => ":" | dot => "." | tilde => "~"
  | ampersand => "&" | bar => "|" | caret => "^"

theorem text_length_pos (o : Operator) : 0 < o.text.length := by
  cases o <;> decide

/-- Every operator, the longer spellings first. -/
def all : List Operator :=
  [power, floorDivide, equal, notEqual, lessEqual, greaterEqual, arrow, shiftLeft, shiftRight,
    plus, minus, times, divide, modulo, less, greater, assign, leftParen, rightParen, leftBracket,
    rightBracket, comma, colon, dot, tilde, ampersand, bar, caret]

/-- The longest operator that a text starts with. -/
def first? (t : Text) : Option Operator := all.find? fun o => o.text.isPrefixOf t

end Operator

namespace Token

/-- The sorts of tokens. -/
inductive Kind
  | endOfInput | newline | indent | dedent
  | ident | int | string
  | keyword (k : Keyword)
  | op (o : Operator)
deriving DecidableEq, Repr

end Token

/-- A token: its sort, its spelling, and the bytes from `start` up to `stop` that it takes. -/
structure Token where
  kind : Token.Kind
  text : Text
  start : Nat
  stop : Nat
deriving DecidableEq, Repr

end WatCompiler
