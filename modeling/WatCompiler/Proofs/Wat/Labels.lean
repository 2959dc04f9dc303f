import Mathlib.Data.List.Range
import WatCompiler.Proofs.Globals.Writes

/-!
# Labels of loops

Each loop of a function has a number, and its block and its loop are labelled with it. Main
statement: in the form of a function the numbers are 1, 2, 3 and so on, in the order in which the
loops open; so all labels differ; and every branch targets the block or the loop of the loop that it
directly stands in (`labels_of_toWat`).

The proof goes through the code once: `Numbered` says which numbers a piece of code takes, and two
pieces after each other take numbers after each other (`Numbered.append`).
-/

namespace WatCompiler

/-! ## Forms with what is around them -/

namespace Datum

/-- A form somewhere in a datum: its head, the word behind the head, and the heads and words of the
forms that it stands in, the innermost first. -/
structure Occurrence where
  head : Text
  word : Text
  around : List (Text × Text)
deriving DecidableEq, Repr

namespace Occurrence

/-- The heads of the forms that have labels. -/
def labelHeads : List Text :=
  [Opcode.block.name, Opcode.loop.name, Opcode.br.name, Opcode.brIf.name]

/-- A block or a loop. -/
def opens (o : Occurrence) : Bool := o.head ∈ [Opcode.block.name, Opcode.loop.name]

/-- A branch to a block or a loop. -/
def jumps (o : Occurrence) : Bool := o.head ∈ [Opcode.br.name, Opcode.brIf.name]

/-- The form by itself. -/
def key (o : Occurrence) : Text × Text := (o.head, o.word)

end Occurrence

mutual

/-- The forms in a datum, in the order in which they open. -/
def occurrences (around : List (Text × Text)) : Datum → List Occurrence
  | list items tags =>
    let d : Datum := list items tags
    ⟨d.head, d.argument, around⟩ :: occurrencesAll ((d.head, d.argument) :: around) items
  | _ => []

/-- The forms in some data. -/
def occurrencesAll (around : List (Text × Text)) : List Datum → List Occurrence
  | [] => []
  | d :: rest => occurrences around d ++ occurrencesAll around rest

end

theorem occurrencesAll_append (around : List (Text × Text)) (ds es : List Datum) :
    occurrencesAll around (ds ++ es) = occurrencesAll around ds ++ occurrencesAll around es := by
  induction ds with
  | nil => rfl
  | cons d ds ih => rw [List.cons_append, occurrencesAll, occurrencesAll, ih, List.append_assoc]

end Datum

namespace Code

open Datum (Occurrence occurrences occurrencesAll)
open Datum.Occurrence (labelHeads)
open Layout (data)

/-! ## Numbers of loops -/

/-- Different numbers make different labels of blocks. -/
theorem blockLabel_inj {m n : Nat} : blockLabel m = blockLabel n ↔ m = n :=
  (List.append_right_inj _).trans Text.ofNat_inj

/-- And different labels of loops. -/
theorem loopLabel_inj {m n : Nat} : loopLabel m = loopLabel n ↔ m = n :=
  (List.append_right_inj _).trans Text.ofNat_inj

/-- The forms that a loop with a number opens. -/
def openings (number : Nat) : List (Text × Text) :=
  [(Opcode.block.name, blockLabel number), (Opcode.loop.name, loopLabel number)]

/-- The branches of a loop with a number: out of its block and back to its loop. -/
def branches (number : Nat) : List (Text × Text) :=
  [(Opcode.brIf.name, blockLabel number), (Opcode.br.name, loopLabel number)]

/-- The forms are those of code with `count` loops, which are numbered from `first` on in the order
in which they open. Each of them has its two branches, and a branch directly stands in its own
loop. -/
structure Numbered (first count : Nat) (os : List Occurrence) : Prop where
  opened : (os.filter Occurrence.opens).map Occurrence.key =
    (List.range' first count).flatMap openings
  jumped : ((os.filter Occurrence.jumps).map Occurrence.key).Perm
    ((List.range' first count).flatMap branches)
  inside : ∀ o ∈ os, o.jumps = true → ∃ number outer, o.key ∈ branches number ∧
    o.around = (Opcode.loop.name, loopLabel number) ::
      (Opcode.block.name, blockLabel number) :: outer

namespace Numbered

variable {first count more : Nat} {os os' : List Occurrence}

/-- Heads that have no label open nothing. -/
theorem filter_opens (h : ∀ o ∈ os, o.head ∉ labelHeads) : os.filter Occurrence.opens = [] :=
  List.filter_eq_nil_iff.mpr fun o ho hopens =>
    h o ho (List.mem_append_left [Opcode.br.name, Opcode.brIf.name] (of_decide_eq_true hopens))

/-- Heads that have no label jump nowhere. -/
theorem filter_jumps (h : ∀ o ∈ os, o.head ∉ labelHeads) : os.filter Occurrence.jumps = [] :=
  List.filter_eq_nil_iff.mpr fun o ho hjumps =>
    h o ho (List.mem_append_right [Opcode.block.name, Opcode.loop.name] (of_decide_eq_true hjumps))

/-- Forms that are neither blocks nor loops nor branches take no number. -/
theorem plain (first : Nat) (h : ∀ o ∈ os, o.head ∉ labelHeads) : Numbered first 0 os where
  opened := by
    rw [filter_opens h]
    rfl
  jumped := by
    rw [filter_jumps h]
    exact .nil
  inside o ho hjumps := by
    have hmem : o ∈ os.filter Occurrence.jumps := List.mem_filter.mpr ⟨ho, hjumps⟩
    rw [filter_jumps h] at hmem
    exact absurd hmem List.not_mem_nil

/-- Numbers go on where those of the first code end. -/
theorem append (h : Numbered first count os) (h' : Numbered (first + count) more os') :
    Numbered first (count + more) (os ++ os') where
  opened := by
    rw [List.filter_append, List.map_append, h.opened, h'.opened, ← List.flatMap_append,
      List.range'_append_1]
  jumped := by
    rw [List.filter_append, List.map_append, ← List.range'_append_1, List.flatMap_append]
    exact h.jumped.append h'.jumped
  inside := List.forall_mem_append.mpr ⟨h.inside, h'.inside⟩

/-- A head without a label does not count. -/
theorem cons_plain {o : Occurrence} (ho : o.head ∉ labelHeads) (h : Numbered first count os) :
    Numbered first count (o :: os) := by
  have hcons := (plain first (List.forall_mem_singleton.mpr ho)).append h
  rwa [Nat.zero_add] at hcons

/-- A loop takes the next number, and its body the numbers after it. -/
theorem loop {outer around : List (Text × Text)} {test body : List Occurrence}
    (haround : around = (Opcode.loop.name, loopLabel first) ::
      (Opcode.block.name, blockLabel first) ::
      outer)
    (htest : ∀ o ∈ test, o.head ∉ labelHeads) (hbody : Numbered (first + 1) count body) :
    Numbered first (count + 1)
      (⟨Opcode.block.name, blockLabel first, outer⟩ ::
        ⟨Opcode.loop.name, loopLabel first, around.tail⟩ ::
        (test ++ ⟨Opcode.brIf.name, blockLabel first, around⟩ ::
          (body ++ [⟨Opcode.br.name, loopLabel first, around⟩]))) where
  opened := by
    rw [List.range'_succ, List.flatMap_cons, ← hbody.opened]
    simp [filter_opens htest, Occurrence.opens, Occurrence.key, openings, Opcode.name_inj]
  jumped := by
    -- The branch back stands behind the body, but is counted with the one that leaves.
    have hback : ((body.filter Occurrence.jumps).map Occurrence.key ++
        [(Opcode.br.name, loopLabel first)]).Perm ((Opcode.br.name, loopLabel first) ::
          (List.range' (first + 1) count).flatMap branches) :=
      (List.perm_append_singleton _ _).trans (hbody.jumped.cons _)
    rw [List.range'_succ, List.flatMap_cons]
    simpa [filter_jumps htest, Occurrence.jumps, Occurrence.key, branches, Opcode.name_inj]
      using hback
  inside := by
    refine List.forall_mem_cons.mpr ⟨?_, List.forall_mem_cons.mpr ⟨?_, List.forall_mem_append.mpr
      ⟨?_, List.forall_mem_cons.mpr ⟨?_, List.forall_mem_append.mpr
        ⟨hbody.inside, List.forall_mem_singleton.mpr ?_⟩⟩⟩⟩⟩
    · intro hjumps
      simp [Occurrence.jumps, Opcode.name_inj] at hjumps
    · intro hjumps
      simp [Occurrence.jumps, Opcode.name_inj] at hjumps
    · exact (plain first htest).inside
    · exact fun _ => ⟨first, outer, List.mem_cons_self, haround⟩
    · exact fun _ => ⟨first, outer, List.mem_cons_of_mem _ List.mem_cons_self, haround⟩

/-- Blocks and loops that are numbered have labels that all differ. -/
theorem nodup_words (h : Numbered first count os) :
    ((os.filter Occurrence.opens).map Occurrence.word).Nodup := by
  have hwords : (os.filter Occurrence.opens).map Occurrence.word =
      (List.range' first count).flatMap fun number => [blockLabel number, loopLabel number] :=
    calc (os.filter Occurrence.opens).map Occurrence.word
      _ = ((os.filter Occurrence.opens).map Occurrence.key).map Prod.snd := by
        rw [List.map_map]; rfl
      _ = ((List.range' first count).flatMap openings).map Prod.snd := by rw [h.opened]
      _ = _ := by rw [List.map_flatMap]; rfl
  rw [hwords, List.nodup_flatMap]
  constructor
  · intro number _
    simp [blockLabel_ne_loopLabel]
  · refine (List.nodup_range' 1).imp fun {number other} hne => ?_
    simp [Function.onFun, blockLabel_inj, loopLabel_inj, blockLabel_ne_loopLabel,
      (blockLabel_ne_loopLabel _ _).symm, hne.symm]

end Numbered

/-! ## Forms that take no number -/

/-- No block, no loop and no branch is in the data. -/
def Plain (ds : List Datum) : Prop :=
  ∀ around, ∀ o ∈ occurrencesAll around ds, o.head ∉ labelHeads

theorem Plain.append {ds es : List Datum} (h : Plain ds) (h' : Plain es) : Plain (ds ++ es) := by
  intro around
  rw [Datum.occurrencesAll_append]
  exact List.forall_mem_append.mpr ⟨h around, h' around⟩

/-- Data are plain if each of them is. -/
theorem plain_of_forall {ds : List Datum} (h : ∀ d ∈ ds, Plain [d]) : Plain ds := by
  induction ds with
  | nil => exact fun _ => List.forall_mem_nil _
  | cons d ds ih =>
    obtain ⟨hd, hds⟩ := List.forall_mem_cons.mp h
    exact hd.append (ih hds)

/-- A form is plain if its head and its items are. -/
theorem Plain.form {head : Text} {items : List Datum} (h : Plain items)
    (hhead : head ∉ labelHeads) :
    Plain [.form (.symbol head :: items)] := by
  intro around o ho
  rw [Datum.form, occurrencesAll, occurrencesAll, List.append_nil, occurrences,
    occurrencesAll] at ho
  rcases List.mem_cons.mp ho with rfl | ho
  · exact hhead
  · exact h _ o ho

/-- Flat instructions have no labels. -/
theorem plain_form_of_isFlat {i : Instr} (h : i.IsFlat) : Plain [i.form] := by
  cases i with
  | arith op => exact Plain.form (fun _ => List.forall_mem_nil _) (by cases op <;> decide)
  | const value => exact Plain.form (fun _ => List.forall_mem_nil _) (by decide)
  | localGet | localSet | globalGet | globalSet | call | ret =>
    exact Plain.form (fun _ => List.forall_mem_nil _) (by decide)
  | _ => exact h.elim

theorem plain_lines {code : List Instr} (h : ∀ i ∈ code, i.IsFlat) : Plain (data (lines code)) := by
  rw [data_lines]
  refine plain_of_forall fun d hd => ?_
  obtain ⟨i, hi, rfl⟩ := List.mem_map.mp hd
  exact plain_form_of_isFlat (h i hi)

/-- The code of expressions has no labels. -/
theorem plain_expr {locals : List Text} {e : Expr Ty} {code more : List Instr}
    (h : expr locals e = .ok code) (hmore : ∀ i ∈ more, i.IsFlat) :
    Plain (data (lines (code ++ more))) :=
  plain_lines (List.forall_mem_append.mpr ⟨expr_isFlat h, hmore⟩)

end Code

namespace Stmt

variable {α : Type}

mutual

/-- The number of loops that a statement is written with. What follows an arm without a test is not
written. -/
def loops : Stmt α → Nat
  | .while_ _ _ body => loopsAll body + 1
  | .cond _ none body _ => loopsAll body
  | .cond _ (some _) body orElse => loopsAll body + armLoops orElse
  | .assign .. | .expr .. | .ret .. | .pass _ => 0

/-- The number of loops in statements. -/
def loopsAll : List (Stmt α) → Nat
  | [] => 0
  | s :: rest => s.loops + loopsAll rest

/-- The number of loops in the next arm. -/
def armLoops : Option (Stmt α) → Nat
  | none => 0
  | some next => next.loops

end

end Stmt

namespace Code

open Datum (Occurrence occurrences occurrencesAll)
open Layout (data)

/-! ## Generated code -/

/-- Code with `count` loops, the first of which has the number `first`. -/
def Numbers (first count : Nat) (code : List Layout) : Prop :=
  ∀ around, Numbered first count (occurrencesAll around (data code))

variable {first count : Nat} {code : List Layout}

/-- Plain code uses no number. -/
theorem numbers_of_plain (first : Nat) (h : Plain (data code)) : Numbers first 0 code :=
  fun around => .plain first (h around)

/-- Code one behind the other uses the numbers in order. -/
theorem Numbers.append {more : Nat} {code' : List Layout} (h : Numbers first count code)
    (h' : Numbers (first + count) more code') : Numbers first (count + more) (code ++ code') := by
  intro around
  rw [data_append, Datum.occurrencesAll_append]
  exact (h around).append (h' around)

/-- Code in a form that is neither a block nor a loop, behind other items. -/
theorem Numbers.block {head : Text} {items : List Datum} (h : Numbers first count code)
    (hhead : head ∉ Occurrence.labelHeads) (hitems : Plain items) :
    Numbers first count [.block (.symbol head :: items) code] := by
  have hinside : ∀ around, Numbered first count (occurrencesAll around (items ++ data code)) := by
    intro around
    rw [Datum.occurrencesAll_append]
    have hboth := (Numbered.plain first (hitems around)).append (h around)
    rwa [Nat.zero_add] at hboth
  intro around
  show Numbered first count (_ :: occurrencesAll _ (items ++ data code) ++ [])
  rw [List.append_nil]
  exact .cons_plain hhead (hinside _)

/-- A form around the code does not use a number. -/
theorem Numbers.nested {head : Text} (h : Numbers first count code)
    (hhead : head ∉ Occurrence.labelHeads) : Numbers first count [nested [head] code] :=
  h.block hhead fun _ => List.forall_mem_nil _

/-- The forms in a block that holds a loop. -/
theorem occurrencesAll_loop (around : List (Text × Text)) (number : Nat) (round : List Layout) :
    occurrencesAll around
        (data [nested ["block", blockLabel number] [nested ["loop", loopLabel number] round]]) =
      ⟨Opcode.block.name, blockLabel number, around⟩ ::
        ⟨Opcode.loop.name, loopLabel number, (Opcode.block.name, blockLabel number) :: around⟩ ::
        occurrencesAll ((Opcode.loop.name, loopLabel number) ::
          (Opcode.block.name, blockLabel number) :: around) (data round) := by
  show _ :: (_ :: occurrencesAll _ (data round) ++ []) ++ [] = _
  rw [List.append_nil, List.append_nil]
  rfl

/-- The code of a loop: its rounds start with the branch that leaves it and end with the one that
goes back. -/
theorem numbers_loop {test body : List Layout} (htest : Plain (data test))
    (hbody : Numbers (first + 1) count body) :
    Numbers first (count + 1) [nested ["block", blockLabel first] [nested ["loop", loopLabel first]
      (test ++ lines [.brIf (blockLabel first)] ++ body ++ lines [.br (loopLabel first)])]] := by
  intro around
  rw [occurrencesAll_loop, data_append, data_append, data_append, Datum.occurrencesAll_append,
    Datum.occurrencesAll_append, Datum.occurrencesAll_append, List.append_assoc, List.append_assoc]
  exact .loop rfl (htest _) (hbody _)

mutual

/-- The code of a statement has its loops in it, numbered from `first` on; `next` is the number
after them. -/
theorem numbers_stmt {locals : List Text} (s : Stmt Ty) {first next : Nat} {code : List Layout}
    (h : stmt locals first s = .ok (code, next)) :
    next = first + s.loops ∧ Numbers first s.loops code := by
  match s with
  | .assign info target value =>
    obtain ⟨value', hvalue, rfl, rfl⟩ := stmt_assign_eq_ok.mp h
    exact ⟨rfl, numbers_of_plain first
      (plain_expr hvalue (List.forall_mem_singleton.mpr (set_isFlat target)))⟩
  | .expr info value =>
    obtain ⟨value', hvalue, rfl, rfl⟩ := stmt_expr_eq_ok.mp h
    exact ⟨rfl, numbers_of_plain first (plain_expr hvalue (List.forall_mem_singleton.mpr trivial))⟩
  | .ret info none =>
    cases h
    exact ⟨rfl, numbers_of_plain first (plain_lines (by simp [Instr.IsFlat]))⟩
  | .ret info (some value) =>
    obtain ⟨value', hvalue, rfl, rfl⟩ := stmt_ret_eq_ok.mp h
    exact ⟨rfl, numbers_of_plain first (plain_expr hvalue (List.forall_mem_singleton.mpr trivial))⟩
  | .while_ info test body =>
    obtain ⟨test', htest, body', next', hbody, rfl, rfl⟩ := stmt_while_eq_ok.mp h
    obtain ⟨hnext, hnumbers⟩ := numbers_stmts body hbody
    refine ⟨by rw [hnext, Stmt.loops]; omega, ?_⟩
    -- Of what precedes the body only the last instruction is a branch.
    have htest' : Plain (data (lines (test' ++ [Instr.const 1, Instr.arith .xor]))) :=
      plain_expr htest (by simp [Instr.IsFlat])
    have hround : lines
        (test' ++ [Instr.const 1, Instr.arith .xor, Instr.brIf (blockLabel first)]) =
        lines (test' ++ [Instr.const 1, Instr.arith .xor]) ++ lines [.brIf (blockLabel first)] := by
      simp [lines]
    rw [hround]
    exact numbers_loop htest' hnumbers
  | .cond info none body orElse => exact numbers_stmts body h
  | .cond info (some test) body orElse =>
    obtain ⟨test', htest, body', middle, hbody, orElse', last, horElse, rfl, rfl⟩ :=
      stmt_cond_eq_ok.mp h
    obtain ⟨rfl, hnumbers⟩ := numbers_stmts body hbody
    obtain ⟨rfl, hmore⟩ := numbers_arm orElse horElse
    have htest' : Plain (data (lines (test' ++ []))) := plain_expr htest (List.forall_mem_nil _)
    rw [List.append_nil] at htest'
    have hthen : Numbers first (Stmt.loopsAll body) [nested ["then"] body'] :=
      hnumbers.nested (by decide)
    refine ⟨by rw [Stmt.loops]; omega, ?_⟩
    have hcond : Numbers first (Stmt.loopsAll body + Stmt.armLoops orElse)
        [nested ["if"] ([nested ["then"] body'] ++ orElse')] :=
      (hthen.append hmore).nested (by decide)
    have hboth := (numbers_of_plain first htest').append hcond
    rwa [Nat.zero_add] at hboth
  | .pass info =>
    cases h
    exact ⟨rfl, numbers_of_plain first fun _ => List.forall_mem_nil _⟩

/-- Statements use as many numbers as they have loops. -/
theorem numbers_stmts {locals : List Text} (body : List (Stmt Ty)) {first next : Nat}
    {code : List Layout} (h : stmts locals first body = .ok (code, next)) :
    next = first + Stmt.loopsAll body ∧ Numbers first (Stmt.loopsAll body) code := by
  match body with
  | [] =>
    cases h
    exact ⟨rfl, numbers_of_plain first fun _ => List.forall_mem_nil _⟩
  | s :: rest =>
    obtain ⟨code', middle, hs, others, last, hrest, rfl, rfl⟩ := stmts_cons_eq_ok.mp h
    obtain ⟨rfl, hfirst⟩ := numbers_stmt s hs
    obtain ⟨rfl, hothers⟩ := numbers_stmts rest hrest
    exact ⟨by rw [Stmt.loopsAll]; omega, hfirst.append hothers⟩

theorem numbers_arm {locals : List Text} (orElse : Option (Stmt Ty)) {first next : Nat}
    {code : List Layout} (h : arm locals first orElse = .ok (code, next)) :
    next = first + Stmt.armLoops orElse ∧ Numbers first (Stmt.armLoops orElse) code := by
  match orElse with
  | none =>
    cases h
    exact ⟨rfl, numbers_of_plain first fun _ => List.forall_mem_nil _⟩
  | some s =>
    obtain ⟨code', last, hs, rfl, rfl⟩ := arm_some_eq_ok.mp h
    obtain ⟨hnext, hnumbers⟩ := numbers_stmt s hs
    exact ⟨hnext, hnumbers.nested (by decide)⟩

end

/-! ## Fields of the module -/

/-- Declarations have no labels. -/
theorem plain_declaration {kind : String} (hkind : Text.ofString kind ∉ Occurrence.labelHeads)
    (name : Text) : Plain [declaration kind name] :=
  Plain.form (fun _ => List.forall_mem_nil _) hkind

theorem plain_result : Plain [result] := Plain.form (fun _ => List.forall_mem_nil _) (by decide)

theorem plain_localFields (names : List Text) : Plain (data (localFields names)) := by
  rw [Module.Draft.data_localFields]
  refine plain_of_forall fun d hd => ?_
  obtain ⟨name, -, rfl⟩ := List.mem_map.mp hd
  exact plain_declaration (by decide) name

theorem plain_importField (host : Host) : Plain [(importField host).datum] := by
  refine Plain.form (Plain.append (Plain.append ?_ ?_) plain_result) (by decide)
  · exact Plain.form (fun _ => List.forall_mem_nil _) (by decide)
  · refine plain_of_forall fun d hd => ?_
    rw [List.eq_of_mem_replicate hd]
    exact Plain.form (fun _ => List.forall_mem_nil _) (by decide)

theorem plain_globalField {v : VarDef Ty} {field : Layout} (h : globalField v = .ok field) :
    Plain [field.datum] := by
  obtain ⟨value, -, rfl⟩ := globalField_eq_ok.mp h
  have hmut : Plain [.form [.symbol "mut", .symbol "i32"]] :=
    Plain.form (fun _ => List.forall_mem_nil _) (by decide)
  exact Plain.form (hmut.append (plain_form_of_isFlat (i := .const value) trivial)) (by decide)

/-- The loops of a function are numbered from one. -/
theorem numbers_functionField {f : FuncDef Ty} {field : Layout} (h : functionField f = .ok field) :
    Numbers 1 (Stmt.loopsAll f.stmts) [field] := by
  obtain ⟨init, hinit, body, next, hbody, rfl⟩ := functionField_eq_ok.mp h
  obtain ⟨-, hnumbers⟩ := numbers_stmts f.stmts hbody
  have hstart : Plain (data (localFields (f.locals.map VarDef.name) ++ lines init)) := by
    rw [data_append]
    exact (plain_localFields _).append (plain_lines (initialValues_isFlat hinit))
  have hend : Plain (data (lines [.const 0, .ret])) := plain_lines (by simp [Instr.IsFlat])
  have hparams : Plain ((f.params.map Param.name).map fun name =>
      declaration "param" (identifier name)) := by
    refine plain_of_forall fun d hd => ?_
    obtain ⟨name, -, rfl⟩ := List.mem_map.mp hd
    exact plain_declaration (by decide) _
  have hall := ((numbers_of_plain 1 hstart).append hnumbers).append (numbers_of_plain _ hend)
  rw [Nat.zero_add, Nat.add_zero] at hall
  exact hall.block (by decide) (hparams.append plain_result)

/-- So are those at the top level. -/
theorem numbers_entryField {body : List (Stmt Ty)} {field : Layout}
    (h : entryField body = .ok field) :
    Numbers 1 (Stmt.loopsAll body) [field] := by
  obtain ⟨code, next, hcode, rfl⟩ := entryField_eq_ok.mp h
  obtain ⟨-, hnumbers⟩ := numbers_stmts body hcode
  have hall := (numbers_of_plain 1 (plain_localFields [])).append hnumbers
  rw [Nat.zero_add] at hall
  exact hall.block (by decide) (Plain.form (fun _ => List.forall_mem_nil _) (by decide))

/-- The labels in the form of a function with `count` loops. -/
structure LoopsLabelled (form : Datum) (count : Nat) : Prop where
  numbered : Numbered 1 count (form.occurrences [])
  distinct : (((form.occurrences []).filter Occurrence.opens).map Occurrence.word).Nodup

/-- Code whose numbers start with one has labelled loops. -/
theorem Numbers.loopsLabelled {field : Layout} (h : Numbers 1 count [field]) :
    LoopsLabelled field.datum count := by
  have hfield : Numbered 1 count (field.datum.occurrences []) := by
    have hall := h []
    rwa [data, data, occurrencesAll, occurrencesAll, List.append_nil] at hall
  exact ⟨hfield, hfield.nodup_words⟩

/-- A field without labels has no loops. -/
theorem loopsLabelled_of_plain {field : Layout} (h : Plain [field.datum]) :
    LoopsLabelled field.datum 0 := by
  have hnumbers : Numbers 1 0 [field] := numbers_of_plain 1 h
  exact hnumbers.loopsLabelled

theorem globalFields_plain {vs : List (VarDef Ty)} {fields : List Layout}
    (h : globalFields vs = .ok fields) : ∀ field ∈ fields, Plain [field.datum] := by
  induction vs generalizing fields with
  | nil =>
    cases h
    exact List.forall_mem_nil _
  | cons v vs ih =>
    obtain ⟨first, hfirst, others, hothers, rfl⟩ := globalFields_cons_eq_ok.mp h
    exact List.forall_mem_cons.mpr ⟨plain_globalField hfirst, ih hothers⟩

/-- Every function is numbered on its own. -/
theorem functionFields_labelled {fs : List (FuncDef Ty)} {fields : List Layout}
    (h : functionFields fs = .ok fields) :
    List.Forall₂ (fun f field => functionField f = .ok field ∧
      LoopsLabelled field.datum (Stmt.loopsAll f.stmts)) fs fields := by
  induction fs generalizing fields with
  | nil =>
    cases h
    exact .nil
  | cons f fs ih =>
    obtain ⟨first, hfirst, others, hothers, rfl⟩ := functionFields_cons_eq_ok.mp h
    exact .cons ⟨hfirst, (numbers_functionField hfirst).loopsLabelled⟩ (ih hothers)

/-- In the text of a module the loops of each function are numbered 1, 2, 3 and so on in the order
in which they open, no two blocks or loops of a function have the same label, and each branch
directly stands in the loop that it leaves or repeats. The other fields have no labels. -/
theorem labels_of_toWat {p : Program Ty} {wat : Text} (h : p.toWat = .ok wat) :
    ∃ others functions entry,
      p.toLayout = .ok (.block [.symbol "module"] (others ++ functions ++ [entry])) ∧
      wat = (Layout.block [.symbol "module"] (others ++ functions ++ [entry])).text ∧
      (∀ field ∈ others, LoopsLabelled field.datum 0) ∧
      List.Forall₂ (fun f field => functionField f = .ok field ∧
        LoopsLabelled field.datum (Stmt.loopsAll f.stmts)) p.functions functions ∧
      entryField p.stmts = .ok entry ∧ LoopsLabelled entry.datum (Stmt.loopsAll p.stmts) := by
  obtain ⟨layout, hlayout, h⟩ := bind_eq_ok.mp h
  cases h
  obtain ⟨globals, hglobals, h⟩ := bind_eq_ok.mp hlayout
  obtain ⟨functions, hfunctions, h⟩ := bind_eq_ok.mp h
  obtain ⟨entry, hentry, h⟩ := bind_eq_ok.mp h
  cases h
  have hothers : ∀ field ∈ Host.all.map importField ++ globals, Plain [field.datum] :=
    List.forall_mem_append.mpr ⟨List.forall_mem_map.mpr fun host _ => plain_importField host,
      globalFields_plain hglobals⟩
  exact ⟨Host.all.map importField ++ globals, functions, entry, hlayout, rfl,
    fun field hfield => loopsLabelled_of_plain (hothers field hfield),
    functionFields_labelled hfunctions, hentry, (numbers_entryField hentry).loopsLabelled⟩

/-- Loops in both arms of a conditional, one in another, and one after them. -/
theorem labels_of_toWat_arms :
    let info : Info Ty := ⟨.none, .unknown⟩
    let test : Expr Ty := .literal info .true
    let loop body : Stmt Ty := .while_ info test body
    let last : Stmt Ty := .cond info none [loop []] none
    let body := [.cond info (some test) [loop [loop []]] (some last), loop []]
    let p : Program Ty := ⟨[⟨.unknown, "f", [], .none, info, [], body⟩], [], [loop []]⟩
    Stmt.loopsAll body = 4 ∧ ∃ wat others functions entry,
      p.toLayout = .ok (.block [.symbol "module"] (others ++ functions ++ [entry])) ∧
      wat = (Layout.block [.symbol "module"] (others ++ functions ++ [entry])).text ∧
      (∀ field ∈ others, LoopsLabelled field.datum 0) ∧
      List.Forall₂ (fun f field => functionField f = .ok field ∧
        LoopsLabelled field.datum (Stmt.loopsAll f.stmts)) p.functions functions ∧
      entryField p.stmts = .ok entry ∧ LoopsLabelled entry.datum (Stmt.loopsAll p.stmts) :=
  ⟨rfl, _, labels_of_toWat rfl⟩

end Code

end WatCompiler
