import WatCompiler.Datum.Printer
import WatCompiler.Text.Quoted
import WatCompiler.Wat.Arith

/-!
# Instructions

Code is data: an instruction is a list that starts with its name. `Datum.instr` says what a datum
means as an instruction, `Instr.form` writes an instruction down. The parts of a structured
instruction stay data until they are reached.
-/

namespace WatCompiler

/-- Why a datum is not a constant. -/
inductive ConstFault
  | notAConstant (form : Datum)
  | badNumeral (form : Datum) (numeral : Text) (fault : Text.NumeralFault)
deriving Repr

/-- The wording of a fault. -/
def ConstFault.message : ConstFault → Text
  | notAConstant form => "expected (i32.const N), got " ++ form.render
  | badNumeral form numeral fault =>
    "bad constant " ++ form.render ++ ": strconv.ParseInt: parsing " ++ Text.quote numeral ++
      ": " ++ fault.message

/-- The text of the item after the head; empty if there is none. -/
def Datum.argument (d : Datum) : Text := ((d.items.drop 1).head?.map Datum.text).getD []

/-- The value of a constant. -/
def Datum.constant (d : Datum) : Except ConstFault Int32 :=
  if d.head = "i32.const" ∧ d.items.length = 2 then
    match Text.readInt32 d.argument with
    | .ok value => .ok value
    | .error fault => .error (.badNumeral d d.argument fault)
  else .error (.notAConstant d)

/-- Instructions. A `block` or `loop` has its label, and what follows it as body; without a label
there is no body. The arms of a `cond` are the items after its head. -/
inductive Instr
  | const (value : Int32)
  | badConst (fault : ConstFault)
  | localGet (name : Text)
  | localSet (name : Text)
  | globalGet (name : Text)
  | globalSet (name : Text)
  | call (function : Text)
  | ret
  | br (label : Text)
  | brIf (label : Text)
  | block (label : Option Datum) (body : List Datum)
  | loop (label : Option Datum) (body : List Datum)
  | cond (arms : List Datum)
  | arith (op : ArithOp)
  /-- Something that is no instruction, known by its head. -/
  | unknown (head : Text)
deriving Repr

/-- What an instruction does, without its parts. -/
inductive Opcode
  | const | localGet | localSet | globalGet | globalSet | call | ret | br | brIf | block | loop
  | cond
  | arith (op : ArithOp)
deriving DecidableEq, Repr

namespace Opcode

/-- The head of an instruction. -/
def name : Opcode → Text
  | const => "i32.const"
  | localGet => "local.get"
  | localSet => "local.set"
  | globalGet => "global.get"
  | globalSet => "global.set"
  | call => "call"
  | ret => "return"
  | br => "br"
  | brIf => "br_if"
  | block => "block"
  | loop => "loop"
  | cond => "if"
  | arith op => op.name

/-- Every opcode. -/
def all : List Opcode :=
  [const, localGet, localSet, globalGet, globalSet, call, ret, br, brIf, block, loop, cond] ++
    ArithOp.all.map arith

/-- The opcode with a given name. -/
def ofName? (t : Text) : Option Opcode := all.find? fun op => op.name == t

end Opcode

/-- What a datum means as an instruction. -/
def Datum.instr (d : Datum) : Instr :=
  match Opcode.ofName? d.head with
  | some .const =>
    match d.constant with
    | .ok value => .const value
    | .error fault => .badConst fault
  | some .localGet => .localGet d.argument
  | some .localSet => .localSet d.argument
  | some .globalGet => .globalGet d.argument
  | some .globalSet => .globalSet d.argument
  | some .call => .call d.argument
  | some .ret => .ret
  | some .br => .br d.argument
  | some .brIf => .brIf d.argument
  | some .block => .block d.items[1]? (d.items.drop 2)
  | some .loop => .loop d.items[1]? (d.items.drop 2)
  | some .cond => .cond (d.items.drop 1)
  | some (.arith op) => .arith op
  | none => .unknown d.head

/-- An instruction written down. -/
def Instr.form : Instr → Datum
  | const value => .form [.symbol Opcode.const.name, .integer (Text.ofInt value.toInt)]
  | badConst (.notAConstant form) | badConst (.badNumeral form _ _) => form
  | localGet name => .form [.symbol Opcode.localGet.name, .symbol name]
  | localSet name => .form [.symbol Opcode.localSet.name, .symbol name]
  | globalGet name => .form [.symbol Opcode.globalGet.name, .symbol name]
  | globalSet name => .form [.symbol Opcode.globalSet.name, .symbol name]
  | call function => .form [.symbol Opcode.call.name, .symbol function]
  | ret => .form [.symbol Opcode.ret.name]
  | br label => .form [.symbol Opcode.br.name, .symbol label]
  | brIf label => .form [.symbol Opcode.brIf.name, .symbol label]
  | block label body => .form (.symbol Opcode.block.name :: label.toList ++ body)
  | loop label body => .form (.symbol Opcode.loop.name :: label.toList ++ body)
  | cond arms => .form (.symbol Opcode.cond.name :: arms)
  | arith op => .form [.symbol op.name]
  | unknown head => .form [.symbol head]

/-! ## Structured instructions and their parts -/

/-- A datum that means an instruction other than `unknown` has a head. -/
theorem Datum.head_ne_nil {d : Datum} (h : ∀ t, d.instr ≠ .unknown t) : d.head ≠ [] := by
  intro hd
  refine h d.head ?_
  have : Opcode.ofName? d.head = none := by rw [hd]; decide
  simp [Datum.instr, this]

/-- A block is read off its items: first the label, then the body. -/
theorem Datum.body_of_instr_block {d : Datum} {label : Option Datum} {body : List Datum}
    (h : d.instr = .block label body) : label = d.items[1]? ∧ body = d.items.drop 2 := by
  unfold Datum.instr at h
  split at h
  case h_10 => cases h; exact ⟨rfl, rfl⟩
  case h_1 => split at h <;> cases h
  all_goals cases h

theorem Datum.body_of_instr_loop {d : Datum} {label : Option Datum} {body : List Datum}
    (h : d.instr = .loop label body) : label = d.items[1]? ∧ body = d.items.drop 2 := by
  unfold Datum.instr at h
  split at h
  case h_11 => cases h; exact ⟨rfl, rfl⟩
  case h_1 => split at h <;> cases h
  all_goals cases h

theorem Datum.arms_of_instr_cond {d : Datum} {arms : List Datum} (h : d.instr = .cond arms) :
    arms = d.items.drop 1 := by
  unfold Datum.instr at h
  split at h
  case h_12 => cases h; rfl
  case h_1 => split at h <;> cases h
  all_goals cases h

end WatCompiler
