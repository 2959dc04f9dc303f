import WatCompiler.Text.Decimal

/-!
# Host functions

The functions that a module can import: writing a value, and arithmetic that is not an instruction.
Every one of them gives one word.
-/

namespace WatCompiler

/-- The functions of the host. -/
inductive Host
  | print | min | abs | max | pow
deriving DecidableEq, Repr

namespace Host

/-- The name under which a function can be imported. -/
def name : Host → Text
  | print => "print"
  | min => "min"
  | abs => "abs"
  | max => "max"
  | pow => "pow"

/-- Every function of the host. -/
def all : List Host := [print, min, abs, max, pow]

/-- The function with a given name. -/
def ofName? (t : Text) : Option Host := all.find? fun h => h.name == t

/-- How many words a function takes. -/
def arity : Host → Nat
  | print | min | max | pow => 2
  | abs => 1

end Host

/-! ## Powers -/

/-- Powers by repeated squaring, modulo two to the 32nd. -/
def wrappingPow (base : Int32) (exponent : Nat) : Int32 :=
  if exponent = 0 then 1
  else
    let rest := wrappingPow (base * base) (exponent / 2)
    if exponent % 2 = 1 then base * rest else rest
termination_by exponent
decreasing_by omega

/-- Powers of words. A negative power is cut toward zero; of zero it is zero. -/
def intPow (base exponent : Int32) : Int32 :=
  if exponent < 0 then
    if base = 1 then 1
    else if base = -1 then if exponent % 2 = 0 then 1 else -1
    else 0
  else wrappingPow base exponent.toInt.toNat

/-! ## Printing -/

/-- How a printed word is to be read. -/
inductive PrintMode
  | none
  | bool
  | int
deriving DecidableEq, Repr

namespace PrintMode

/-- The word that stands for a mode. -/
def code : PrintMode → Int32
  | none => 0
  | bool => 1
  | int => 2

/-- The mode that a word stands for. -/
def ofCode (n : Int32) : PrintMode :=
  if n = 0 then none else if n = 1 then bool else int

/-- A word as it is printed. -/
def render (mode : PrintMode) (value : Int32) : Text :=
  match mode with
  | none => "None"
  | bool => if value = 0 then "False" else "True"
  | int => Text.ofInt value.toInt

end PrintMode

end WatCompiler
