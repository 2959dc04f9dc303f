import WatCompiler.Proofs.Datum.WellFormed
import WatCompiler.Proofs.Text.Decimal
import WatCompiler.Proofs.Token.Spelling
import WatCompiler.Wat.OfProgram

/-!
# Instructions as data

An instruction that is written down means the same instruction (`instr_form`), and its text can be
read back if its names are symbols (`form_wellFormed`), which those of generated code are.
-/

namespace WatCompiler

open Datum (isSymbol isSymbolByte isInteger)

theorem Opcode.mem_all (op : Opcode) : op ∈ Opcode.all := by
  cases op with
  | arith op => cases op <;> decide
  | _ => decide

/-- An operation is recognized by its name. -/
theorem Opcode.ofName?_name (op : Opcode) : Opcode.ofName? op.name = some op := by
  have hall : ∀ op ∈ Opcode.all, Opcode.ofName? op.name = some op := by decide +kernel
  exact hall op op.mem_all

/-- No two operations have the same name. -/
theorem Opcode.name_inj {op other : Opcode} : op.name = other.name ↔ op = other := by
  constructor
  · intro h
    exact Option.some.inj (by rw [← Opcode.ofName?_name op, h, Opcode.ofName?_name])
  · rintro rfl
    rfl

namespace Instr

/-- Instructions that code is made of: not the ones that only stand for something unreadable. -/
def IsCode : Instr → Prop
  | badConst _ | unknown _ | block none _ | loop none _ => False
  | _ => True

theorem ofName?_head (op : Opcode) (items : List Datum) :
    Opcode.ofName? (Datum.form (.symbol op.name :: items)).head = some op :=
  Opcode.ofName?_name op

/-- A constant is read back as its value. -/
theorem constant_form (v : Int32) : (const v).form.constant = .ok v := by
  have hread : Text.readInt32 (const v).form.argument = .ok v := Text.readInt32_ofInt v
  rw [Datum.constant, if_pos ⟨rfl, rfl⟩, hread]

/-- Writing an instruction down keeps what it means. -/
theorem instr_form {i : Instr} (h : i.IsCode) : i.form.instr = i := by
  cases i with
  | const v =>
    have hconst := constant_form v
    unfold form at hconst ⊢
    rw [Datum.instr, ofName?_head]
    dsimp only
    rw [hconst]
  | arith op =>
    show (Datum.form [.symbol (Opcode.arith op).name]).instr = _
    rw [Datum.instr, ofName?_head]
  | block label body =>
    cases label with
    | none => exact h.elim
    | some label =>
      rw [form, List.cons_append, Datum.instr, ofName?_head]
      rfl
  | loop label body =>
    cases label with
    | none => exact h.elim
    | some label =>
      rw [form, List.cons_append, Datum.instr, ofName?_head]
      rfl
  | badConst fault => exact h.elim
  | unknown head => exact h.elim
  | ret => rw [form, Datum.instr, ofName?_head]
  | _ =>
    rw [form, Datum.instr, ofName?_head]
    rfl

/-! ## Names and numerals -/

/-- What starts with a dollar sign is a symbol, whatever symbol bytes follow. -/
theorem isSymbol_dollar {t : Text} (h : t.all isSymbolByte = true) :
    isSymbol (Text.byte '$' :: t) = true := by
  have hinteger : Datum.startsInteger (Text.byte '$') t = false := rfl
  have hdots : (Text.ofString "...").isPrefixOf (Text.byte '$' :: t) = false := rfl
  rw [isSymbol, h, hinteger, hdots]
  rfl

theorem isSymbolByte_of_isNameByte (c : UInt8) (h : Lexer.isNameByte c = true) :
    isSymbolByte c = true := by
  revert c
  decide +kernel

/-- Names of the source are symbols once they are marked. -/
theorem isSymbol_identifier {name : Text} (h : Token.isIdentifier name = true) :
    isSymbol (Code.identifier name) = true := by
  refine isSymbol_dollar ?_
  cases name with
  | nil => rfl
  | cons c rest =>
    simp only [Token.isIdentifier, Bool.and_eq_true] at h
    have hc : Lexer.isNameByte c = true := by rw [Lexer.isNameByte, h.1.1, Bool.true_or]
    rw [List.all_eq_true]
    intro d hd
    rcases List.mem_cons.mp hd with rfl | hd
    · exact isSymbolByte_of_isNameByte d hc
    · exact isSymbolByte_of_isNameByte d (List.all_eq_true.mp h.1.2 d hd)

theorem all_isSymbolByte_ofNat (n : Nat) : (Text.ofNat n).all isSymbolByte = true := by
  rw [List.all_eq_true]
  intro c hc
  exact Datum.isSymbolByte_of_isDigit c (List.all_eq_true.mp (Text.all_isDigit_ofNat n) c hc)

/-- Labels are symbols. -/
theorem isSymbol_blockLabel (n : Nat) : isSymbol (Code.blockLabel n) = true := by
  have hall : (Text.ofString "$block_label_" ++ Text.ofNat n).all isSymbolByte = true := by
    rw [List.all_append, all_isSymbolByte_ofNat]
    decide
  exact isSymbol_dollar hall

theorem isSymbol_loopLabel (n : Nat) : isSymbol (Code.loopLabel n) = true := by
  have hall : (Text.ofString "$loop_label_" ++ Text.ofNat n).all isSymbolByte = true := by
    rw [List.all_append, all_isSymbolByte_ofNat]
    decide
  exact isSymbol_dollar hall

theorem isInteger_ofInt (i : Int) : isInteger (Text.ofInt i) = true := by
  obtain ⟨c, rest, heq, hc, hrest⟩ := Text.exists_ofNat_eq_cons i.natAbs
  rw [Text.ofInt, heq]
  split
  · show (Datum.startsInteger (Text.byte '-') (c :: rest) && (c :: rest).all Text.isDigit) = true
    rw [List.all_cons, hc, hrest]
    exact (Bool.and_true _).trans
      (by rw [Datum.startsInteger]; exact Bool.or_eq_true_iff.mpr (Or.inr hc))
  · rw [isInteger, hrest, Datum.startsInteger, hc]
    rfl

/-! ## Texts of instructions -/

/-- The names in an instruction are symbols. Parts of structured instructions have been written down
already. -/
def IsNamed : Instr → Prop
  | localGet name | localSet name | globalGet name | globalSet name | call name | br name
  | brIf name => isSymbol name = true
  | const _ | ret | arith _ => True
  | _ => False

theorem isSymbol_name (op : Opcode) : isSymbol op.name = true := by
  have hall : ∀ op ∈ Opcode.all, isSymbol op.name = true := by decide +kernel
  exact hall op op.mem_all

/-- An instruction with names is a datum that can be written. -/
theorem form_wellFormed {i : Instr} (h : i.IsNamed) : i.form.WellFormed := by
  have hform : ∀ (op : Opcode) (items : List Datum), Datum.AllWellFormed items →
      (Datum.form (.symbol op.name :: items)).WellFormed :=
    fun op items hitems => ⟨⟨isSymbol_name op, hitems⟩, trivial, List.nodup_nil⟩
  cases i with
  | const v => exact hform .const _ ⟨isInteger_ofInt v.toInt, trivial⟩
  | localGet name => exact hform .localGet _ ⟨h, trivial⟩
  | localSet name => exact hform .localSet _ ⟨h, trivial⟩
  | globalGet name => exact hform .globalGet _ ⟨h, trivial⟩
  | globalSet name => exact hform .globalSet _ ⟨h, trivial⟩
  | call name => exact hform .call _ ⟨h, trivial⟩
  | br label => exact hform .br _ ⟨h, trivial⟩
  | brIf label => exact hform .brIf _ ⟨h, trivial⟩
  | ret => exact hform .ret _ trivial
  | arith op => exact hform (.arith op) _ trivial
  | _ => exact h.elim

end Instr

end WatCompiler
