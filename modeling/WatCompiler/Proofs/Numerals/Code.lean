import WatCompiler.Proofs.Machine.Limit
import WatCompiler.Proofs.Machine.Turns
import WatCompiler.Proofs.Numerals.Operands
import WatCompiler.Proofs.Program.Parts
import WatCompiler.Proofs.Wat.Instr

/-!
# The code of numbers

The code of a numeral that fits pushes exactly its value, whatever the machine is doing: there is no
wraparound (`Numeral.pushes_code`). Each number of a program is the value of an expression in it, at
the number's place and with its code (`Code.exists_mem_exprsIn`).
-/

namespace WatCompiler

/-- A place that is reached under a limit is reached without one. -/
theorem State.GetsTo.unlimited {m : Module} {limit : Nat} {callers : List Activation}
    {after : List Control} {s t : State} (h : s.GetsTo m limit callers after t) :
    s.GetsTo m 0 callers after t := by
  induction h with
  | last step same todo => exact .last (step_of_running step).2.1 same todo
  | more step alive before _ ih => exact .more (step_of_running step).2.1 alive before ih

/-! ## What code pushes -/

/-- The machine has gone on to `todo` with the operands `live`. Nothing else has changed. -/
structure State.GoesOn (s : State) (todo : List Control) (live : List Int32) (t : State) :
    Prop where
  globals : t.globals = s.globals
  out : t.out = s.out
  callers : t.callers = s.callers
  func : t.current.func = s.current.func
  locals : t.current.locals = s.current.locals
  todo : t.current.todo = todo
  live : t.current.stack.live = live

theorem State.GoesOn.trans {s t u : State} {todo todo' : List Control} {live live' : List Int32}
    (h : s.GoesOn todo live t) (h' : t.GoesOn todo' live' u) : s.GoesOn todo' live' u :=
  ⟨h'.globals.trans h.globals, h'.out.trans h.out, h'.callers.trans h.callers, h'.func.trans h.func,
    h'.locals.trans h.locals, h'.todo, h'.live⟩

/-- Wherever the code stands, the machine gets to what comes after it with the number as one more
operand. -/
def Pushes (code : List Instr) (v : Int) : Prop :=
  ∀ (m : Module) (s : State) (rest : List Datum) (more : List Control),
    s.current.todo = .seq (code.map Instr.form ++ rest) :: more →
    ∃ t w, s.GetsTo m 0 s.callers (.seq rest :: more) t ∧
      s.GoesOn (.seq rest :: more) (w :: s.current.stack.live) t ∧ w.toInt = v

section Machine

variable {m : Module} {s : State} {rest : List Datum} {more : List Control}

/-- A constant is pushed. -/
theorem step_const {w : Int32} (h : s.current.todo = .seq ((Instr.const w).form :: rest) :: more) :
    ∃ t, s.step m 0 = .running t ∧ s.GoesOn (.seq rest :: more) (w :: s.current.stack.live) t := by
  refine ⟨State.push { s.goOn (.seq rest :: more) s.current.stack with steps := s.steps + 1 } w, ?_,
    rfl, rfl, rfl, rfl, rfl, rfl, rfl⟩
  rw [State.step, h]
  dsimp only
  rw [if_neg fun hlimit => absurd hlimit.1 (Nat.lt_irrefl 0), State.execute,
    Instr.instr_form (show (Instr.const w).IsCode from trivial)]

/-- A product takes the place of its factors. -/
theorem step_mul {a b : Int32} {live : List Int32} (hlive : s.current.stack.live = b :: a :: live)
    (h : s.current.todo = .seq ((Instr.arith .mul).form :: rest) :: more) :
    ∃ t, s.step m 0 = .running t ∧ s.GoesOn (.seq rest :: more) (a * b :: live) t := by
  -- The operands have to be known one by one for the machine to take them.
  obtain ⟨globals, steps, out, ⟨func, locals, ⟨values, spent⟩, todo⟩, callers⟩ := s
  cases hlive
  cases h
  refine ⟨⟨globals, steps + 1, out, ⟨func, locals, ⟨a * b :: live, (a :: b :: spent).tail⟩,
    .seq rest :: more⟩, callers⟩, ?_, rfl, rfl, rfl, rfl, rfl, rfl, rfl⟩
  rw [State.step]
  dsimp only
  rw [if_neg fun hlimit => absurd hlimit.1 (Nat.lt_irrefl 0), State.execute,
    Instr.instr_form (show (Instr.arith .mul).IsCode from trivial)]
  rfl

end Machine

theorem pushes_const {w : Int32} {v : Int} (h : w.toInt = v) : Pushes [.const w] v := by
  intro m s rest more htodo
  obtain ⟨t, hstep, ht⟩ := step_const (m := m) htodo
  exact ⟨t, w, .last hstep ht.callers ht.todo, ht, h⟩

/-- Multiplying with minus one changes the sign of every number but the least one. -/
theorem toInt_mul_neg_one {w : Int32} (h : 0 ≤ w.toInt) : (w * -1).toInt = -w.toInt := by
  have hhigh := w.toInt_lt
  have hmul : w * -1 = Int32.ofInt (-w.toInt) := by
    rw [← Int.mul_neg_one, Int32.ofInt_mul, Int32.ofInt_toInt]
    rfl
  rw [hmul, Int32.toInt_ofInt_of_le (by omega) (by omega)]

/-- The code of a negation pushes the negative number. -/
theorem pushes_negationCode {w : Int32} (h : 0 ≤ w.toInt) : Pushes (negationCode w) (-w.toInt) := by
  intro m s rest more htodo
  obtain ⟨t, hst, ht⟩ := step_const (m := m) htodo
  obtain ⟨u, htu, hu⟩ := step_const (m := m) ht.todo
  have hlive : u.current.stack.live = -1 :: w :: s.current.stack.live := by
    rw [hu.live, ht.live]
  obtain ⟨v, huv, hv⟩ := step_mul (m := m) hlive hu.todo
  have hall := (ht.trans hu).trans hv
  have hcallers : u.callers = s.callers := hu.callers.trans ht.callers
  -- The last product still is to be made, so the machine is not yet where the code ends.
  have hlast : u.GetsTo m 0 s.callers (.seq rest :: more) v := .last huv hall.callers hall.todo
  have hafter (code : List Datum) : Control.seq (code ++ (Instr.arith .mul).form :: rest) :: more ≠
      .seq rest :: more := fun h => by
    have hlength := congrArg List.length (Control.seq.inj (List.cons.inj h).1)
    rw [List.length_append, List.length_cons] at hlength
    omega
  refine ⟨v, w * -1, .more hst (ht.callers ▸ Nat.le_refl _) (fun _ => ?_)
    (.more htu (hcallers ▸ Nat.le_refl _) (fun _ => ?_) hlast), hall, toInt_mul_neg_one h⟩
  · rw [ht.todo]
    exact hafter [(Instr.const (-1)).form]
  · rw [hu.todo]
    exact hafter []

/-- The code of a numeral that fits pushes its value. -/
theorem Numeral.pushes_code {x : Numeral} (h : x.Fits) : Pushes x.code x.value := by
  obtain ⟨digits, negated, initial, start⟩ := x
  cases negated with
  | false =>
    have hle : magnitude ⟨digits, false, initial, start⟩ ≤ 2147483647 := h
    rw [code, if_neg fun hneg => Bool.false_ne_true hneg.1]
    refine pushes_const ?_
    rw [value, if_neg Bool.false_ne_true, Int32.toInt_ofInt_of_le (by omega) (by omega)]
  | true =>
    have hle : magnitude ⟨digits, true, initial, start⟩ ≤ 2147483648 := h
    have hvalue : value ⟨digits, true, initial, start⟩ =
        -magnitude ⟨digits, true, initial, start⟩ := rfl
    rw [code]
    by_cases hsmall : magnitude ⟨digits, true, initial, start⟩ ≤ 2147483647
    · have htoInt : (Int32.ofInt (magnitude ⟨digits, true, initial, start⟩)).toInt =
          magnitude ⟨digits, true, initial, start⟩ := Int32.toInt_ofInt_of_le (by omega) (by omega)
      have hpushes := pushes_negationCode (htoInt ▸ Int.natCast_nonneg _)
      rw [if_pos ⟨rfl, hsmall⟩, hvalue]
      rwa [htoInt] at hpushes
    · rw [if_neg fun hneg => hsmall hneg.2]
      refine pushes_const ?_
      rw [hvalue, Int32.toInt_ofInt_of_le (by omega) (by omega)]

/-- Under any limit, code that comes to its end has pushed the same number. -/
theorem Pushes.live_of_getsTo {code : List Instr} {v : Int} (h : Pushes code v) {m : Module}
    {limit : Nat} {s t : State} {rest : List Datum} {more : List Control}
    (htodo : s.current.todo = .seq (code.map Instr.form ++ rest) :: more)
    (hgets : s.GetsTo m limit s.callers (.seq rest :: more) t) :
    ∃ w, t.current.stack.live = w :: s.current.stack.live ∧ w.toInt = v := by
  obtain ⟨u, w, hgets', hu, hw⟩ := h m s rest more htodo
  cases hgets.unlimited.unique hgets'
  exact ⟨w, hu.live, hw⟩

/-! ## Which expressions have this code -/

namespace Code

mutual

/-- Each number of an expression is the value of a part at its place, whose code is the number's. -/
theorem exists_part_of_mem_operands {o : Located (List Instr)} :
    ∀ (e : Expr Ty), o ∈ e.operands →
      ∃ part ∈ e.parts, part.info.pos = o.pos ∧ ∀ locals, expr locals part = .ok o.what
  | .literal info value, h => by
    cases value with
    | number v =>
      cases List.mem_singleton.mp h
      exact ⟨_, List.mem_cons_self, rfl, fun _ => rfl⟩
    | none | true | false | other => exact absurd h List.not_mem_nil
  | .ident info name, h => absurd h List.not_mem_nil
  | .unary info op arg, h => by
    rw [Expr.operands] at h
    cases hnegation : Expr.negation? op arg with
    | none =>
      rw [hnegation] at h
      obtain ⟨part, hpart, hcode⟩ := exists_part_of_mem_operands arg h
      exact ⟨part, List.mem_cons_of_mem _ hpart, hcode⟩
    | some piece =>
      rw [hnegation] at h
      cases List.mem_singleton.mp h
      refine ⟨_, List.mem_cons_self, rfl, fun locals => ?_⟩
      unfold Expr.negation? at hnegation
      split at hnegation
      · split at hnegation
        · cases hnegation
        · cases hnegation
          rfl
      · cases hnegation
  | .binary info op lhs rhs, h => by
    rw [Expr.operands, List.mem_append] at h
    rcases h with h | h
    · obtain ⟨part, hpart, hcode⟩ := exists_part_of_mem_operands lhs h
      exact ⟨part, List.mem_cons_of_mem _ (List.mem_append_left _ hpart), hcode⟩
    · obtain ⟨part, hpart, hcode⟩ := exists_part_of_mem_operands rhs h
      exact ⟨part, List.mem_cons_of_mem _ (List.mem_append_right _ hpart), hcode⟩
  | .paren info arg, h => by
    obtain ⟨part, hpart, hcode⟩ := exists_part_of_mem_operands arg h
    exact ⟨part, List.mem_cons_of_mem _ hpart, hcode⟩
  | .call info function args, h => by
    obtain ⟨part, hpart, hcode⟩ := exists_part_of_mem_allOperands args h
    exact ⟨part, List.mem_cons_of_mem _ hpart, hcode⟩

theorem exists_part_of_mem_allOperands {o : Located (List Instr)} :
    ∀ (es : List (Expr Ty)), o ∈ Expr.allOperands es →
      ∃ part ∈ partsAll es, part.info.pos = o.pos ∧ ∀ locals, expr locals part = .ok o.what
  | [], h => absurd h List.not_mem_nil
  | e :: rest, h => by
    rw [Expr.allOperands, List.mem_append] at h
    rcases h with h | h
    · obtain ⟨part, hpart, hcode⟩ := exists_part_of_mem_operands e h
      exact ⟨part, List.mem_append_left _ hpart, hcode⟩
    · obtain ⟨part, hpart, hcode⟩ := exists_part_of_mem_allOperands rest h
      exact ⟨part, List.mem_append_right _ hpart, hcode⟩

end

mutual

/-- Each number of a statement is in an expression of it or of a statement inside it. -/
theorem exists_expr_of_mem_operands {o : Located (List Instr)} :
    ∀ (s : Stmt Ty), o ∈ s.operands → ∃ inner ∈ s :: s.inner, ∃ e ∈ inner.exprs, o ∈ e.operands
  | .assign info target value, h => ⟨_, List.mem_cons_self, value, List.mem_cons_self, h⟩
  | .expr info value, h => ⟨_, List.mem_cons_self, value, List.mem_cons_self, h⟩
  | .ret info none, h => absurd h List.not_mem_nil
  | .ret info (some value), h => ⟨_, List.mem_cons_self, value, List.mem_cons_self, h⟩
  | .while_ info test body, h => by
    rw [Stmt.operands, List.mem_append] at h
    rcases h with h | h
    · exact ⟨_, List.mem_cons_self, test, List.mem_cons_self, h⟩
    · obtain ⟨inner, hinner, he⟩ := exists_expr_of_mem_allStmtOperands body h
      exact ⟨inner, List.mem_cons_of_mem _ hinner, he⟩
  | .cond info none body orElse, h => by
    obtain ⟨inner, hinner, he⟩ := exists_expr_of_mem_allStmtOperands body h
    exact ⟨inner, List.mem_cons_of_mem _ (List.mem_append_left _ hinner), he⟩
  | .cond info (some test) body orElse, h => by
    rw [Stmt.operands, List.mem_append, List.mem_append] at h
    rcases h with h | h | h
    · exact ⟨_, List.mem_cons_self, test, List.mem_cons_self, h⟩
    · obtain ⟨inner, hinner, he⟩ := exists_expr_of_mem_allStmtOperands body h
      exact ⟨inner, List.mem_cons_of_mem _ (List.mem_append_left _ hinner), he⟩
    · obtain ⟨inner, hinner, he⟩ := exists_expr_of_mem_armOperands orElse h
      exact ⟨inner, List.mem_cons_of_mem _ (List.mem_append_right _ hinner), he⟩
  | .pass info, h => absurd h List.not_mem_nil

theorem exists_expr_of_mem_allStmtOperands {o : Located (List Instr)} :
    ∀ (body : List (Stmt Ty)), o ∈ Stmt.allOperands body →
      ∃ inner ∈ innerAll body, ∃ e ∈ inner.exprs, o ∈ e.operands
  | [], h => absurd h List.not_mem_nil
  | s :: rest, h => by
    rw [Stmt.allOperands, List.mem_append] at h
    rcases h with h | h
    · obtain ⟨inner, hinner, he⟩ := exists_expr_of_mem_operands s h
      exact ⟨inner, List.mem_append_left (innerAll rest) hinner, he⟩
    · obtain ⟨inner, hinner, he⟩ := exists_expr_of_mem_allStmtOperands rest h
      exact ⟨inner, List.mem_append_right (s :: s.inner) hinner, he⟩

theorem exists_expr_of_mem_armOperands {o : Located (List Instr)} :
    ∀ (orElse : Option (Stmt Ty)), o ∈ Stmt.armOperands orElse →
      ∃ inner ∈ innerElse orElse, ∃ e ∈ inner.exprs, o ∈ e.operands
  | none, h => absurd h List.not_mem_nil
  | some s, h => exists_expr_of_mem_operands s h

end

/-- Each number of statements is the value of an expression in them, at its place and with its
code. -/
theorem exists_mem_exprsIn {o : Located (List Instr)} {body : List (Stmt Ty)}
    (h : o ∈ Stmt.allOperands body) :
    ∃ e ∈ exprsIn body, e.info.pos = o.pos ∧ ∀ locals, expr locals e = .ok o.what := by
  obtain ⟨inner, hinner, e, he, ho⟩ := exists_expr_of_mem_allStmtOperands body h
  obtain ⟨part, hpart, hcode⟩ := exists_part_of_mem_operands e ho
  exact ⟨part, List.mem_flatMap.mpr ⟨inner, hinner, List.mem_flatMap.mpr ⟨e, he, hpart⟩⟩, hcode⟩

end Code

end WatCompiler
