import WatCompiler.Proofs.Simulation.Expressions

/-!
# Code for statements

The machine does what statements do (`follows_stmts`): it either comes to the code after them or has
returned from the function. A loop is followed for any number of rounds, by induction on it: each
round ends with a move back to the start of the loop, so that a loop that goes on for `n` rounds
keeps the machine busy for at least `n` moves.
-/

namespace WatCompiler.Code

open Layout (data)

variable {fr : Frame} {own : Table Int32} {w : World} {rest : List Datum} {more : List Control}
  {live : List Int32} {s : State} {n : Nat} {calls : Text → List Int32 → Eval Int32}

/-- Where the machine is when statements end: before the code after them, or back in the caller. -/
def Ends (fr : Frame) (rest : List Datum) (more : List Control) (live : List Int32) :
    Flow → World → State → Prop
  | .next own, w, s => Stands fr own w (.seq rest :: more) live s
  | .returned v, w, s => GaveBack fr w v s ∧ fr.scope.returns.CanHold v

theorem labelled_cons_seq {body : List Datum} (h : Labelled more) : Labelled (.seq body :: more) :=
  List.forall_mem_cons.mpr ⟨trivial, h⟩

/-- The code that starts a round leaves the loop unless the test says otherwise. -/
theorem reaches_round {label : Nat} {v : Int32} (hv : Ty.bool.CanHold v) {body : List Datum}
    {code : List Datum}
    (h : Stands fr own w
      (.seq ([Instr.const 1, .arith .xor, .brIf (blockLabel label)].map Instr.form ++
      code) :: .loop (loopLabel label) live.length body :: .seq [] ::
      .block (blockLabel label) live.length :: .seq rest :: more) (v :: live) s) :
    ∃ t, State.Reaches fr.code 0 s t ∧
      Stands fr own w (if v = 0 then .seq rest :: more else .seq code ::
        .loop (loopLabel label) live.length body :: .seq [] ::
        .block (blockLabel label) live.length :: .seq rest :: more) live t := by
  obtain ⟨t, hst, ht⟩ := h.const
  rcases hv rfl with rfl | rfl
  · obtain ⟨u, htu, hu⟩ := ht.arith_ok (show ArithOp.xor.apply 0 1 = .ok 1 by decide)
    obtain ⟨v, huv, hv⟩ := hu.exit (blockLabel_ne_nil label)
      (blockLabel_ne_loopLabel label label).symm (by decide)
    exact ⟨v, ⟨3, t, hst, u, htu, .single huv⟩, hv⟩
  · obtain ⟨u, htu, hu⟩ := ht.arith_ok (show ArithOp.xor.apply 1 1 = .ok 0 by decide)
    obtain ⟨v, huv, hv⟩ := hu.stay
    exact ⟨v, ⟨3, t, hst, u, htu, .single huv⟩, hv⟩

/-- What the machine does in the rounds of a loop. The test and the body are given by what they do
wherever their code stands. -/
theorem follows_repeatWhile {test : Table Int32 → Eval Int32} {body : Table Int32 → Eval Flow}
    {testCode bodyCode : List Datum} {label : Nat}
    (htest : ∀ {own w rest more live s},
      Stands fr own w (.seq (testCode ++ rest) :: more) live s →
      Follows fr.code n (test own) w s fun v w' t =>
        Stands fr own w' (.seq rest :: more) (v :: live) t ∧ Ty.bool.CanHold v)
    (hbody : ∀ {own w rest more live s}, Labelled more →
      Stands fr own w (.seq (bodyCode ++ rest) :: more) live s →
      Follows fr.code n (body own) w s (Ends fr rest more live))
    (hmore : Labelled more) {round : List Datum}
    (hround : round = testCode ++
      ([Instr.const 1, .arith .xor, .brIf (blockLabel label)].map Instr.form
      ++ (bodyCode ++ [(Instr.br (loopLabel label)).form])))
    {k : Nat} (hk : k ≤ n) {own : Table Int32} {w : World} {s : State}
    (h : Stands fr own w (.seq round :: .loop (loopLabel label) live.length round :: .seq [] ::
      .block (blockLabel label) live.length :: .seq rest :: more) live s) :
    Follows fr.code k (repeatWhile test body k own) w s (Ends fr rest more live) := by
  induction k generalizing own w s with
  | zero => exact Follows.unfinished
  | succ k ih =>
    have hinside : Labelled (.loop (loopLabel label) live.length round :: .seq [] ::
        .block (blockLabel label) live.length :: .seq rest :: more) :=
      List.forall_mem_cons.mpr ⟨loopLabel_ne_nil label, labelled_cons_seq
        (List.forall_mem_cons.mpr ⟨blockLabel_ne_nil label, labelled_cons_seq hmore⟩)⟩
    have hstart := h
    rw [congrArg Control.seq hround] at hstart
    refine Follows.bind ((htest hstart).of_le hk) ?_
    rintro v w' t ⟨ht, hv⟩
    obtain ⟨u, hreach, hu⟩ := reaches_round hv ht
    refine Follows.of_reaches hreach ?_
    by_cases hzero : v = 0
    · rw [if_pos hzero] at hu ⊢
      exact Follows.pure hu
    · rw [if_neg hzero] at hu ⊢
      refine Follows.bind ((hbody hinside hu).of_le hk) ?_
      intro flow w'' t' hflow
      cases flow with
      | returned v => exact Follows.pure hflow
      | next own' =>
        obtain ⟨t'', hstep, hagain⟩ := Stands.again (loopLabel_ne_nil label) hflow
        exact Follows.of_step_succ hstep (ih (Nat.le_of_succ_le hk) hagain)

/-- Statements in an arm of a conditional: what is after them is after the conditional. -/
theorem Follows.leaveArm {x : Eval Flow}
    (h : Follows fr.code n x w s (Ends fr [] (.seq rest :: more) live)) :
    Follows fr.code n x w s (Ends fr rest more live) := by
  refine h.advance ?_
  intro flow w' t hflow
  cases flow with
  | returned v => exact ⟨t, ⟨0, rfl⟩, hflow⟩
  | next own' =>
    obtain ⟨u, hstep, hu⟩ := Stands.next hflow
    exact ⟨u, ⟨1, .single hstep⟩, hu⟩

/-- The arms of a conditional: the first one is for values other than zero. -/
theorem chosenArm_then (v : Int32) (body : List Layout) (arms : List Datum) :
    State.chosenArm v ((nested ["then"] body).datum :: arms) =
      if v = 0 then State.chosenArm 0 arms else some (nested ["then"] body).datum := by
  have hhead : (nested ["then"] body).datum.head = "then" := rfl
  rw [State.chosenArm, List.find?_cons, hhead]
  by_cases h : v = 0
  · rw [if_pos h, h]
    rfl
  · rw [if_neg h, decide_eq_true rfl, decide_eq_true h]
    rfl

mutual

/-- The code of a statement does what the statement does. -/
theorem follows_stmt (hfr : fr.Fits) (hcalls : CallsFollow fr n calls) (stmt : Stmt Ty)
    (ht : stmt.WellTyped fr.scope) {label next : Nat} {code : List Layout}
    (hcode : Code.stmt fr.locals label stmt = .ok (code, next)) {own : Table Int32} {w : World}
    {rest : List Datum} {more : List Control} {live : List Int32} {s : State}
    (hmore : Labelled more) (h : Stands fr own w (.seq (data code ++ rest) :: more) live s) :
    Follows fr.code n (stmt.exec calls n own) w s (Ends fr rest more live) := by
  match stmt, ht with
  | .assign info target value, ht =>
    obtain ⟨first, hfirst, rfl, rfl⟩ := stmt_assign_eq_ok.mp hcode
    rw [data_lines, List.map_append, List.append_assoc] at h
    refine Follows.bind (follows_expr hfr hcalls value ht.1 hfirst h) ?_
    rintro v w' t ⟨hstand, hv⟩
    refine Follows.bind (follows_set hfr ht.2 hv hstand) ?_
    intro own' w'' u hu
    exact Follows.pure hu
  | .expr info value, ht =>
    obtain ⟨first, hfirst, rfl, rfl⟩ := stmt_expr_eq_ok.mp hcode
    rw [data_lines, List.map_append, List.append_assoc] at h
    refine Follows.bind (follows_expr hfr hcalls value ht hfirst h) ?_
    rintro v w' t ⟨hstand, -⟩
    obtain ⟨u, hstep, hu⟩ := hstand.discard
    exact Follows.of_step hstep (Follows.pure hu)
  | .ret info none, ht =>
    cases hcode
    obtain ⟨t, hstep, hstand⟩ := Stands.const h
    obtain ⟨u, hstep', hu⟩ := hstand.ret hfr ht hmore
    exact Follows.of_step hstep (Follows.of_step hstep' (Follows.pure ⟨hu, Ty.canHold_zero _⟩))
  | .ret info (some value), ht =>
    obtain ⟨first, hfirst, rfl, rfl⟩ := stmt_ret_eq_ok.mp hcode
    rw [data_lines, List.map_append, List.append_assoc] at h
    refine Follows.bind (follows_expr hfr hcalls value ht.2.1 hfirst h) ?_
    rintro v w' t ⟨hstand, hv⟩
    obtain ⟨u, hstep, hu⟩ := hstand.ret hfr ht.1 hmore
    exact Follows.of_step hstep (Follows.pure ⟨hu, ht.2.2 ▸ hv⟩)
  | .while_ info test body, ht =>
    obtain ⟨test', htest, body', last, hbody, rfl, rfl⟩ := stmt_while_eq_ok.mp hcode
    obtain ⟨t, hstep, hblock⟩ := Stands.block h
    obtain ⟨u, hstep', hloop⟩ := Stands.loop hblock
    refine Follows.of_step hstep (Follows.of_step hstep' ?_)
    have hround : data (lines (test' ++ [Instr.const 1, .arith .xor, .brIf (blockLabel label)]) ++
        body' ++ lines [.br (loopLabel label)]) = test'.map Instr.form ++
        ([Instr.const 1, .arith .xor, .brIf (blockLabel label)].map Instr.form ++
          (data body' ++ [(Instr.br (loopLabel label)).form])) := by
      rw [data_append, data_append, data_lines, data_lines, List.map_append, List.append_assoc,
        List.append_assoc]
      rfl
    refine follows_repeatWhile ?_ ?_ hmore hround (Nat.le_refl n) hloop
    · intro own w rest more live s hs
      have hvalue := follows_expr hfr hcalls test ht.1 htest hs
      rw [ht.2.1] at hvalue
      exact hvalue
    · intro own w rest more live s hinside hs
      exact follows_stmts hfr hcalls body ht.2.2 hbody hinside hs
  | .cond info none body orElse, ht => exact follows_stmts hfr hcalls body ht.2.1 hcode hmore h
  | .cond info (some test) body orElse, ht =>
    obtain ⟨test', htest, body', middle, hbody, orElse', last, horElse, rfl, rfl⟩ :=
      stmt_cond_eq_ok.mp hcode
    rw [data_append, data_lines, List.append_assoc] at h
    refine Follows.bind (follows_expr hfr hcalls test (ht.1 test rfl).1 htest h) ?_
    rintro v w' t ⟨hstand, -⟩
    have hcond : Stands fr own w' (.seq ((Instr.cond ((nested ["then"] body').datum ::
        data orElse')).form :: rest) :: more) (v :: live) t := hstand
    by_cases hzero : v = 0
    · rw [if_pos hzero]
      rw [hzero] at hcond
      exact follows_else hfr hcalls orElse ht.2.2 horElse hmore hcond
    · rw [if_neg hzero]
      obtain ⟨u, hstep, hu⟩ := hcond.choose
        ((chosenArm_then v body' (data orElse')).trans (if_neg hzero)) rfl
      rw [← List.append_nil (data body')] at hu
      exact Follows.of_step hstep (Follows.leaveArm
        (follows_stmts hfr hcalls body ht.2.1 hbody (labelled_cons_seq hmore) hu))
  | .pass info, _ =>
    cases hcode
    exact Follows.pure h

/-- The code of statements does what the statements do. -/
theorem follows_stmts (hfr : fr.Fits) (hcalls : CallsFollow fr n calls) (body : List (Stmt Ty))
    (ht : StmtsTyped fr.scope body) {label next : Nat} {code : List Layout}
    (hcode : stmts fr.locals label body = .ok (code, next)) {own : Table Int32} {w : World}
    {rest : List Datum} {more : List Control} {live : List Int32} {s : State}
    (hmore : Labelled more) (h : Stands fr own w (.seq (data code ++ rest) :: more) live s) :
    Follows fr.code n (execAll calls n body own) w s (Ends fr rest more live) := by
  match body, ht with
  | [], _ =>
    cases hcode
    exact Follows.pure h
  | stmt :: others, ht =>
    obtain ⟨first, middle, hfirst, second, last, hsecond, rfl, rfl⟩ := stmts_cons_eq_ok.mp hcode
    rw [data_append, List.append_assoc] at h
    refine Follows.bind (follows_stmt hfr hcalls stmt ht.1 hfirst hmore h) ?_
    intro flow w' t hflow
    cases flow with
    | next own' => exact follows_stmts hfr hcalls others ht.2 hsecond hmore hflow
    | returned v => exact Follows.pure hflow

/-- The code of the next arm of a conditional. -/
theorem follows_else (hfr : fr.Fits) (hcalls : CallsFollow fr n calls) (orElse : Option (Stmt Ty))
    (ht : ArmTyped fr.scope orElse) {label next : Nat} {code : List Layout}
    (hcode : arm fr.locals label orElse = .ok (code, next)) {own : Table Int32} {w : World}
    {body : List Layout} {rest : List Datum} {more : List Control} {live : List Int32} {s : State}
    (hmore : Labelled more)
    (h : Stands fr own w (.seq ((Instr.cond ((nested ["then"] body).datum :: data code)).form ::
      rest) :: more) (0 :: live) s) :
    Follows fr.code n (execElse calls n orElse own) w s (Ends fr rest more live) := by
  match orElse, ht with
  | none, _ =>
    cases hcode
    obtain ⟨t, hstep, hstand⟩ := h.skip (chosenArm_then 0 body [])
    exact Follows.of_step hstep (Follows.pure hstand)
  | some stmt, ht =>
    obtain ⟨code', last, hstmt, rfl, rfl⟩ := arm_some_eq_ok.mp hcode
    obtain ⟨t, hstep, hstand⟩ := h.choose
      (chosenArm_then 0 body [(nested ["else"] code').datum]) rfl
    rw [← List.append_nil (data code')] at hstand
    exact Follows.of_step hstep (Follows.leaveArm
      (follows_stmt hfr hcalls stmt ht hstmt (labelled_cons_seq hmore) hstand))

end

end WatCompiler.Code
