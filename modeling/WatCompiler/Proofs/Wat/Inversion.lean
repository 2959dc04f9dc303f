import WatCompiler.Proofs.Basic
import WatCompiler.Wat.OfProgram

/-!
# What code is put together from

Code for an expression or a statement with parts is there exactly if there is code for the parts,
and is put together from it. Every proof about generated code goes by these equivalences, one for
each sort of expression and statement, and not by the generator.
-/

namespace WatCompiler.Code

variable {locals : List Text} {info : Info Ty}

/-! ## Expressions -/

section Expressions

variable {code : List Instr}

/-- A literal is a constant. -/
theorem expr_literal_eq_ok {value : Literal} :
    expr locals (.literal info value) = .ok code ↔
      ∃ word, literal value = .ok word ∧ [.const word] = code := by
  rw [expr]
  simp only [bind_eq_ok, pure_eq_ok]

theorem expr_unary_eq_ok {op : UnaryOp} {arg : Expr Ty} :
    expr locals (.unary info op arg) = .ok code ↔
      ∃ first, expr locals arg = .ok first ∧ ∃ more, unary op = .ok more ∧
        first ++ more = code := by
  rw [expr]
  simp only [bind_eq_ok, pure_eq_ok]

/-- The operands come first, the left one before the right one. -/
theorem expr_binary_eq_ok {op : BinaryOp} {lhs rhs : Expr Ty} :
    expr locals (.binary info op lhs rhs) = .ok code ↔
      ∃ left, expr locals lhs = .ok left ∧ ∃ right, expr locals rhs = .ok right ∧
        ∃ word, binary op = .ok word ∧ left ++ right ++ [.arith word] = code := by
  rw [expr]
  simp only [bind_eq_ok, pure_eq_ok]

/-- The arguments come first, then what is passed besides them. -/
theorem expr_call_eq_ok {function : Text} {args : List (Expr Ty)} :
    expr locals (.call info function args) = .ok code ↔
      ∃ values, exprs locals args = .ok values ∧ ∃ more, hidden function args = .ok more ∧
        values ++ more ++ [.call (identifier function)] = code := by
  rw [expr]
  simp only [bind_eq_ok, pure_eq_ok]

theorem exprs_cons_eq_ok {e : Expr Ty} {rest : List (Expr Ty)} :
    exprs locals (e :: rest) = .ok code ↔
      ∃ first, expr locals e = .ok first ∧ ∃ others, exprs locals rest = .ok others ∧
        first ++ others = code := by
  rw [exprs]
  simp only [bind_eq_ok, pure_eq_ok]

end Expressions

/-! ## Statements -/

section Statements

variable {label next : Nat} {code : List Layout}

/-- A value and then an instruction that stores it. -/
theorem stmt_assign_eq_ok {target : Text} {value : Expr Ty} :
    stmt locals label (.assign info target value) = .ok (code, next) ↔
      ∃ word, expr locals value = .ok word ∧ lines (word ++ [set locals target]) = code ∧
        label = next := by
  rw [stmt]
  simp only [bind_eq_ok, pure_eq_ok, Prod.mk.injEq]

/-- The value of an expression statement is stored where nothing reads it. -/
theorem stmt_expr_eq_ok {value : Expr Ty} :
    stmt locals label (.expr info value) = .ok (code, next) ↔
      ∃ word, expr locals value = .ok word ∧ lines (word ++ [.localSet scratch]) = code ∧
        label = next := by
  rw [stmt]
  simp only [bind_eq_ok, pure_eq_ok, Prod.mk.injEq]

theorem stmt_ret_eq_ok {value : Expr Ty} :
    stmt locals label (.ret info (some value)) = .ok (code, next) ↔
      ∃ word, expr locals value = .ok word ∧ lines (word ++ [.ret]) = code ∧ label = next := by
  rw [stmt]
  simp only [bind_eq_ok, pure_eq_ok, Prod.mk.injEq]

/-- A loop inside a block: the block is left when the test fails. -/
theorem stmt_while_eq_ok {test : Expr Ty} {body : List (Stmt Ty)} :
    stmt locals label (.while_ info test body) = .ok (code, next) ↔
      ∃ test', expr locals test = .ok test' ∧
        ∃ body' last, stmts locals (label + 1) body = .ok (body', last) ∧
          [nested ["block", blockLabel label] [nested ["loop", loopLabel label]
            (lines (test' ++ [Instr.const 1, Instr.arith .xor, Instr.brIf (blockLabel label)]) ++
              body' ++ lines [.br (loopLabel label)])]] = code ∧ last = next := by
  rw [stmt]
  simp only [bind_eq_ok, pure_eq_ok, Prod.exists, Prod.mk.injEq]

/-- A test, and a form for each arm. -/
theorem stmt_cond_eq_ok {test : Expr Ty} {body : List (Stmt Ty)} {orElse : Option (Stmt Ty)} :
    stmt locals label (.cond info (some test) body orElse) = .ok (code, next) ↔
      ∃ test', expr locals test = .ok test' ∧
        ∃ body' middle, stmts locals label body = .ok (body', middle) ∧
          ∃ orElse' last, arm locals middle orElse = .ok (orElse', last) ∧
            lines test' ++ [nested ["if"] (nested ["then"] body' :: orElse')] = code ∧
              last = next := by
  rw [stmt]
  simp only [bind_eq_ok, pure_eq_ok, Prod.exists, Prod.mk.injEq]

/-- The labels of a statement go on where those before it end. -/
theorem stmts_cons_eq_ok {s : Stmt Ty} {rest : List (Stmt Ty)} :
    stmts locals label (s :: rest) = .ok (code, next) ↔
      ∃ first middle, stmt locals label s = .ok (first, middle) ∧
        ∃ others last, stmts locals middle rest = .ok (others, last) ∧
          first ++ others = code ∧ last = next := by
  rw [stmts]
  simp only [bind_eq_ok, pure_eq_ok, Prod.exists, Prod.mk.injEq]

theorem arm_some_eq_ok {s : Stmt Ty} :
    arm locals label (some s) = .ok (code, next) ↔
      ∃ body last, stmt locals label s = .ok (body, last) ∧ [nested ["else"] body] = code ∧
        last = next := by
  rw [arm]
  simp only [bind_eq_ok, pure_eq_ok, Prod.exists, Prod.mk.injEq]

end Statements

/-! ## Fields of the module -/

section Fields

variable {v : VarDef Ty} {vs : List (VarDef Ty)} {f : FuncDef Ty} {fs : List (FuncDef Ty)}

/-- Initial values are stored in order. -/
theorem initialValues_cons_eq_ok {init : List Instr} :
    initialValues (v :: vs) = .ok init ↔
      ∃ word, literal v.literal = .ok word ∧ ∃ others, initialValues vs = .ok others ∧
        .const word :: .localSet (identifier v.name) :: others = init := by
  rw [initialValues]
  simp only [bind_eq_ok, pure_eq_ok]

/-- Local variables get their values by instructions that push words and set the variables. -/
theorem forall_mem_initialValues {P : Instr → Prop} {init : List Instr}
    (h : initialValues vs = .ok init) (hconst : ∀ word, P (.const word))
    (hset : ∀ v ∈ vs, P (.localSet (identifier v.name))) : ∀ i ∈ init, P i := by
  induction vs generalizing init with
  | nil =>
    cases h
    exact List.forall_mem_nil _
  | cons v rest ih =>
    obtain ⟨word, -, others, hothers, rfl⟩ := initialValues_cons_eq_ok.mp h
    obtain ⟨hv, hrest⟩ := List.forall_mem_cons.mp hset
    exact List.forall_mem_cons.mpr ⟨hconst word, List.forall_mem_cons.mpr ⟨hv, ih hothers hrest⟩⟩

theorem globalField_eq_ok {field : Layout} :
    globalField v = .ok field ↔
      ∃ word, literal v.literal = .ok word ∧ .line (.form [.symbol "global",
        .symbol (identifier v.name), .form [.symbol "mut", .symbol "i32"],
          (Instr.const word).form]) =
          field := by
  rw [globalField]
  simp only [bind_eq_ok, pure_eq_ok]

theorem globalFields_cons_eq_ok {fields : List Layout} :
    globalFields (v :: vs) = .ok fields ↔
      ∃ first, globalField v = .ok first ∧ ∃ others, globalFields vs = .ok others ∧
        first :: others = fields := by
  rw [globalFields]
  simp only [bind_eq_ok, pure_eq_ok]

/-- A function initializes its variables, runs its statements and gives back zero. -/
theorem functionField_eq_ok {field : Layout} :
    functionField f = .ok field ↔
      ∃ init, initialValues f.locals = .ok init ∧
        ∃ code next, stmts (f.params.map Param.name ++ f.locals.map VarDef.name) 1 f.stmts =
            .ok (code, next) ∧
          .block ([.symbol "func", .symbol (identifier f.name)] ++
              (f.params.map Param.name).map (fun name => declaration "param" (identifier name)) ++
              [result])
            (localFields (f.locals.map VarDef.name) ++ lines init ++ code ++ lines [.const 0,
              .ret]) =
            field := by
  rw [functionField]
  simp only [bind_eq_ok, pure_eq_ok, Prod.exists]

theorem functionFields_cons_eq_ok {fields : List Layout} :
    functionFields (f :: fs) = .ok fields ↔
      ∃ first, functionField f = .ok first ∧ ∃ others, functionFields fs = .ok others ∧
        first :: others = fields := by
  rw [functionFields]
  simp only [bind_eq_ok, pure_eq_ok]

/-- The top-level statements are the code that is exported. -/
theorem entryField_eq_ok {body : List (Stmt Ty)} {field : Layout} :
    entryField body = .ok field ↔
      ∃ code next, stmts [] 1 body = .ok (code, next) ∧
        .block [.symbol "func", .form [.symbol "export", .string "exported_func"]]
          (localFields [] ++ code) = field := by
  rw [entryField]
  simp only [bind_eq_ok, pure_eq_ok, Prod.exists]

/-- A module has imports, global variables, functions and its entry. -/
theorem toLayout_eq_ok {p : Program Ty} {layout : Layout} :
    p.toLayout = .ok layout ↔
      ∃ globals, globalFields p.globals = .ok globals ∧
        ∃ functions, functionFields p.functions = .ok functions ∧
          ∃ entry, entryField p.stmts = .ok entry ∧ .block [.symbol "module"]
            (Host.all.map importField ++ globals ++ functions ++ [entry]) = layout := by
  rw [Program.toLayout]
  simp only [bind_eq_ok, pure_eq_ok]

end Fields

end WatCompiler.Code
