import WatCompiler.Text

/-!
# Operand stacks

The operands of a running function. A value that is taken from the stack stays above its top until
another one is put in its place, so that a stack can be set back to a height that it had before.
-/

namespace WatCompiler

/-- The operands, the topmost first, and the values that still stand above the top, the lowest
first. -/
structure OperandStack where
  live : List Int32
  spent : List Int32
deriving DecidableEq, Repr

namespace OperandStack

/-- A stack without operands. -/
def empty : OperandStack := ⟨[], []⟩

/-- How many operands there are. -/
def height (s : OperandStack) : Nat := s.live.length

/-- Puts an operand on the stack. -/
def push (s : OperandStack) (value : Int32) : OperandStack := ⟨value :: s.live, s.spent.tail⟩

/-- Takes the topmost operand from the stack. -/
def pop? (s : OperandStack) : Option (Int32 × OperandStack) :=
  match s.live with
  | [] => none
  | value :: rest => some (value, ⟨rest, value :: s.spent⟩)

/-- Takes operands from the stack, which come out in the order in which they were put there. Those
in `above` were taken before. -/
def popMany? (s : OperandStack) (above : List Int32) : Nat → Option (List Int32 × OperandStack)
  | 0 => some (above, s)
  | n + 1 =>
    match s.pop? with
    | none => none
    | some (value, s) => s.popMany? (value :: above) n

/-- Sets the stack to a height that it had before. -/
def resize (s : OperandStack) (height : Nat) : OperandStack :=
  let surplus := s.live.length - height
  let lack := height - s.live.length
  ⟨(s.spent.take lack).reverse ++ s.live.drop surplus,
    (s.live.take surplus).reverse ++ s.spent.drop lack⟩

@[simp] theorem height_push (s : OperandStack) (value : Int32) :
    (s.push value).height = s.height + 1 := rfl

end OperandStack

end WatCompiler
