import WatCompiler.Compile
import WatCompiler.Proofs.Source.Definitions
import WatCompiler.Proofs.Source.Outlines
import WatCompiler.Proofs.Token.Located

/-!
# Written programs are read back

A program in source form that is written as text is read as the same program, with the positions
that its parts have in the text (`parseProgram_text`). The text is cut into the tokens of the
program's outline; the grammar reads these as one node for every definition and every top-level
statement; and the nodes are read in their order: variables, functions, statements.
-/

namespace WatCompiler

open SyntaxTree

namespace Source

variable {source : Text} {t : Token} {ts : List Token} {bound : Nat} {n : Node} {ns : List Node}

/-- Tokens that say some lexemes, and stand in the source with the spelling that they have. -/
theorem written_of_saidBy {xs : List Lexeme} (h : List.Forall₂ Lexeme.SaidBy xs ts)
    (hts : ∀ t ∈ ts, Token.StandsIn source t) : Written source xs ts := by
  induction h with
  | nil => exact .nil
  | cons hfirst _ ih =>
    obtain ⟨ht, hrest⟩ := List.forall_mem_cons.mp hts
    refine .cons ⟨hfirst.kind, fun hlayout => ?_⟩ (ih hrest)
    rw [← ht.text]
    exact hfirst.text hlayout

/-! ## The tokens of a program -/

/-- The grammar reads all tokens up to the end of the source as these nodes. -/
def ReadsWhole (ts : List Token) (ns : List Node) : Prop :=
  ∀ {bound : Nat}, ts.length ≤ bound → statements bound ts = .ok ns

/-- The first node of a source, and those after it. -/
theorem readsWhole_cons {us vs : List Token} (ht : t.kind ≠ .endOfInput)
    (h : ∀ {bound : Nat}, 6 * (t :: us).length ≤ bound →
      statement bound (t :: us ++ vs) = .ok (n, vs))
    (hvs : ReadsWhole vs ns) : ReadsWhole (t :: us ++ vs) (n :: ns) := by
  intro bound hbound
  simp only [List.length_append, List.length_cons] at hbound
  obtain ⟨c, rfl⟩ : ∃ c, bound = c + 1 := ⟨bound - 1, by omega⟩
  have hat : isAt (t :: us ++ vs) .endOfInput = false := decide_eq_false ht
  have hdepth : 6 * (t :: us).length ≤ depthBound (t :: us ++ vs) := by
    rw [depthBound, List.length_append]
    omega
  rw [statements, hat, if_neg (by decide), h hdepth]
  dsimp only [bind, Except.bind]
  rw [hvs (by omega)]
  rfl

/-- The tokens of definitions, each read as one node, with other tokens after them. -/
theorem readsWhole_definitions {β : Type} {lines : β → Outline} (TellsLexemes : β → Node → Prop)
    (After : List Node → Prop) {defs : List β} {xs : List Lexeme}
    (hdefs : ∀ d ∈ defs, ∀ {us : List Token}, Written source (lines d).lexemes us →
      ∃ n u us', TellsLexemes d n ∧ us = u :: us' ∧ u.kind ≠ .endOfInput ∧
        ∀ {bound : Nat} {rest : List Token}, 6 * us.length ≤ bound →
          statement bound (us ++ rest) = .ok (n, rest))
    (hafter : ∀ {us : List Token}, Written source xs us → ∃ ns, After ns ∧ ReadsWhole us ns)
    (hts : Written source (Outline.lexemesAll (defs.map lines) ++ xs) ts) :
    ∃ ms ns, List.Forall₂ TellsLexemes defs ms ∧ After ns ∧ ReadsWhole ts (ms ++ ns) := by
  induction defs generalizing ts with
  | nil =>
    obtain ⟨ns, hns, hwhole⟩ := hafter hts
    exact ⟨[], ns, .nil, hns, hwhole⟩
  | cons d defs ih =>
    obtain ⟨hd, hrest⟩ := List.forall_mem_cons.mp hdefs
    rw [List.map_cons, Outline.lexemesAll, List.append_assoc] at hts
    obtain ⟨us, vs, rfl, hus, hvs⟩ := Written.append hts
    obtain ⟨n, u, us, hn, rfl, hu, hstatement⟩ := hd hus
    obtain ⟨ms, ns, hms, hns, hwhole⟩ := ih hrest hvs
    exact ⟨n :: ms, ns, .cons hn hms, hns, readsWhole_cons hu hstatement hwhole⟩

/-- The tokens of top-level statements. -/
theorem readsWhole_stmts (stmts : List (Stmt Unit)) (hstmts : Stmt.allInSourceForm stmts = true)
    (hts : Written source
      (Outline.lexemesAll (Stmt.outlineAll stmts) ++ [Lexeme.layout .endOfInput]) ts) :
    ∃ ns, List.Forall₂ (StmtRead source) stmts ns ∧ ReadsWhole ts ns := by
  induction stmts generalizing ts with
  | nil =>
    obtain ⟨t, rfl, ht⟩ := Written.singleton hts
    refine ⟨[], .nil, fun {bound} hbound => ?_⟩
    obtain ⟨c, rfl⟩ : ∃ c, bound = c + 1 := ⟨bound - 1, by simp at hbound; omega⟩
    have hat : isAt [t] .endOfInput = true := decide_eq_true ht.kind
    rw [statements, hat, if_pos rfl]
  | cons s stmts ih =>
    simp only [Stmt.allInSourceForm, Bool.and_eq_true] at hstmts
    rw [Stmt.outlineAll, lexemesAll_append, List.append_assoc] at hts
    obtain ⟨us, vs, rfl, hus, hvs⟩ := Written.append hts
    obtain ⟨n, hn, hstatement⟩ := statement_written s hstmts.1 hus
    obtain ⟨ns, hns, hwhole⟩ := ih hstmts.2 hvs
    obtain ⟨t, us, rfl, ht⟩ := statement_starts hstmts.1 hus
    have harm : NoArm vs := by
      have hvs' : NoArm (vs ++ []) := noArm_block rfl hstmts.2 hvs
      rwa [List.append_nil] at hvs'
    exact ⟨n :: ns, .cons hn hns, readsWhole_cons (kind_ne_of_startsStatement ht rfl)
      (fun {_} hbound => hstatement hbound harm) hwhole⟩

/-- The tokens of a program in source form are read as the nodes of its variables, its functions
and its statements. -/
theorem readsWhole_program {p : Program Unit} (hp : p.inSourceForm = true)
    (hts : Written source (Outline.lexemesAll p.outline ++ [Lexeme.layout .endOfInput]) ts) :
    ∃ vs fs ss, List.Forall₂ (VarDefRead source) p.globals vs ∧
      List.Forall₂ (FuncDefRead source) p.functions fs ∧
      List.Forall₂ (StmtRead source) p.stmts ss ∧ ReadsWhole ts (vs ++ (fs ++ ss)) := by
  simp only [Program.inSourceForm, Bool.and_eq_true] at hp
  obtain ⟨⟨hglobals, hfunctions⟩, hstmts⟩ := hp
  rw [Program.outline, lexemesAll_append, lexemesAll_append, List.append_assoc,
    List.append_assoc] at hts
  -- What follows the variables are the functions, and what follows those are the statements.
  have hrest : ∀ {us : List Token},
      Written source (Outline.lexemesAll (p.functions.map FuncDef.outline) ++
        (Outline.lexemesAll (Stmt.outlineAll p.stmts) ++ [Lexeme.layout .endOfInput])) us →
      ∃ ns, (∃ fs ss, ns = fs ++ ss ∧ List.Forall₂ (FuncDefRead source) p.functions fs ∧
        List.Forall₂ (StmtRead source) p.stmts ss) ∧ ReadsWhole us ns := by
    intro us hus
    have hread : ∀ f ∈ p.functions, ∀ {us : List Token}, Written source f.outline.lexemes us →
        ∃ n u us', FuncDefRead source f n ∧ us = u :: us' ∧ u.kind ≠ .endOfInput ∧
          ∀ {bound : Nat} {rest : List Token}, 6 * us.length ≤ bound →
            statement bound (us ++ rest) = .ok (n, rest) := by
      intro f hf us hus
      obtain ⟨n, u, us, hn, rfl, hu, hstatement⟩ :=
        funcDef_written (List.all_eq_true.mp hfunctions f hf) hus
      exact ⟨n, u, us, hn, rfl, by rw [hu]; decide, hstatement⟩
    obtain ⟨fs, ss, hfs, hss, hwhole⟩ :=
      readsWhole_definitions _ _ hread (readsWhole_stmts p.stmts hstmts) hus
    exact ⟨fs ++ ss, ⟨fs, ss, rfl, hfs, hss⟩, hwhole⟩
  have hread : ∀ v ∈ p.globals, ∀ {us : List Token}, Written source v.outline.lexemes us →
      ∃ n u us', VarDefRead source v n ∧ us = u :: us' ∧ u.kind ≠ .endOfInput ∧
        ∀ {bound : Nat} {rest : List Token}, 6 * us.length ≤ bound →
          statement bound (us ++ rest) = .ok (n, rest) := by
    intro v hv us hus
    obtain ⟨n, u, us, hn, rfl, hu, hstatement⟩ :=
      varDef_written (List.all_eq_true.mp hglobals v hv) hus
    refine ⟨n, u, us, hn, rfl, by rw [hu]; decide, fun {bound rest} hbound => hstatement ?_⟩
    rw [List.length_cons] at hbound
    omega
  obtain ⟨vs, ns, hvs, ⟨fs, ss, rfl, hfs, hss⟩, hwhole⟩ :=
    readsWhole_definitions _ _ hread hrest hts
  exact ⟨vs, fs, ss, hvs, hfs, hss, hwhole⟩

/-! ## The nodes of a program -/

theorem items_stmts {stmts : List (Stmt Unit)} (h : List.Forall₂ (StmtRead source) stmts ns)
    (defining : Bool) :
    ∃ stmts', Program.Reading.items (.ofText source) defining ns = .ok ⟨[], [], stmts'⟩ ∧
      Stmt.allUnplaced stmts' = Stmt.allUnplaced stmts := by
  induction h generalizing defining with
  | nil => exact ⟨[], rfl, rfl⟩
  | @cons s n stmts ns hs _ ih =>
    obtain ⟨s', hs', hunplaced⟩ := hs.stmt
    obtain ⟨stmts', hstmts', hunplaced'⟩ := ih false
    refine ⟨s' :: stmts', ?_, congrArg₂ List.cons hunplaced hunplaced'⟩
    rw [Program.Reading.items]
    by_cases hkind : n.kind = .assignStatement
    · rw [if_pos hkind, hs.notDefinition hkind, hs', hstmts']
      rfl
    · rw [if_neg hkind, decide_eq_false hs.notFunction, hs', hstmts']
      rfl

theorem items_functions {fs : List (FuncDef Unit)} {ms : List Node}
    (h : List.Forall₂ (FuncDefRead source) fs ms) {p : Program Unit}
    (hns : Program.Reading.items (.ofText source) true ns = .ok p) :
    ∃ fs', Program.Reading.items (.ofText source) true (ms ++ ns) =
        .ok { p with functions := fs' ++ p.functions } ∧
      fs'.map FuncDef.unplaced = fs.map FuncDef.unplaced := by
  induction h with
  | nil => exact ⟨[], hns, rfl⟩
  | @cons f n fs ms hf _ ih =>
    obtain ⟨f', hf', hunplaced⟩ := hf.funcDef
    obtain ⟨fs', hitems, hunplaced'⟩ := ih
    refine ⟨f' :: fs', ?_, congrArg₂ List.cons hunplaced hunplaced'⟩
    rw [List.cons_append, Program.Reading.items, if_neg (by rw [hf.kind]; decide), hf.kind]
    dsimp only [bind, Except.bind, pure, Except.pure]
    rw [if_pos (decide_eq_true rfl), if_pos rfl, if_pos rfl, hf', hitems]
    rfl

theorem items_globals {vs : List (VarDef Unit)} {ms : List Node}
    (h : List.Forall₂ (VarDefRead source) vs ms) {p : Program Unit}
    (hns : Program.Reading.items (.ofText source) true ns = .ok p) :
    ∃ vs', Program.Reading.items (.ofText source) true (ms ++ ns) =
        .ok { p with globals := vs' ++ p.globals } ∧
      vs'.map VarDef.unplaced = vs.map VarDef.unplaced := by
  induction h with
  | nil => exact ⟨[], hns, rfl⟩
  | @cons v n vs ms hv _ ih =>
    obtain ⟨v', hv', hunplaced⟩ := hv.varDef
    obtain ⟨vs', hitems, hunplaced'⟩ := ih
    refine ⟨v' :: vs', ?_, congrArg₂ List.cons hunplaced hunplaced'⟩
    rw [List.cons_append, Program.Reading.items, if_pos hv.kind, hv.isDefinition]
    dsimp only [bind, Except.bind]
    rw [if_pos rfl, if_pos rfl, if_neg (by rw [hv.kind]; decide), hv', hitems]
    rfl

end Source

open Source

/-- **Reading undoes writing.** A program in source form, written with blocks that are indented by
any number of blanks, is read as the same program up to positions. -/
theorem parseProgram_text {p : Program Unit} (hp : p.inSourceForm = true) {step : Nat}
    (hstep : 0 < step) :
    ∃ p', parseProgram (p.text step) = .ok p' ∧ p'.unplaced = p.unplaced := by
  obtain ⟨ts, htokens, hsaid⟩ := tokenize_textAll hstep (allWellFormed_outline hp)
  have hwritten := written_of_saidBy hsaid (standsIn_of_tokenize htokens)
  obtain ⟨vs, fs, ss, hvs, hfs, hss, hwhole⟩ := readsWhole_program hp hwritten
  obtain ⟨stmts', hstmts', hstmts⟩ := items_stmts hss true
  obtain ⟨functions', hfunctions', hfunctions⟩ := items_functions hfs hstmts'
  obtain ⟨globals', hglobals', hglobals⟩ := items_globals hvs hfunctions'
  have htree : SyntaxTree.parse (p.text step) =
      .ok ⟨.script, 0, (p.text step).length, vs ++ (fs ++ ss)⟩ := by
    rw [SyntaxTree.parse, Program.text, htokens]
    dsimp only
    rw [ofTokens, hwhole (Nat.le_succ _)]
    rfl
  refine ⟨⟨functions' ++ [], globals' ++ [], stmts'⟩, ?_, ?_⟩
  · rw [parseProgram, htree]
    show (Program.ofTree _ _).mapError _ = _
    rw [Program.ofTree]
    dsimp only
    rw [if_neg (fun h => h rfl)]
    exact mapError_eq_ok.mpr hglobals'
  · simp only [Program.unplaced, List.append_nil, hstmts, hfunctions, hglobals]

/-- A variable, a function with all arms of a conditional, and a loop; the parentheses in it cannot
be left out. -/
def signProgram : Program Unit where
  functions := [{
    pos := .unknown, name := "sign",
    params := [⟨nowhere, "x", .int⟩, ⟨nowhere, "strict", .bool⟩],
    returns := .int, bodyInfo := nowhere,
    locals := [⟨nowhere, "low", .int, nowhere, .number 0⟩],
    stmts := [
      .cond nowhere
        (some (.binary nowhere .equal (.ident nowhere "x")
          (.literal nowhere (.number Int32.minValue))))
        [.pass nowhere]
        (some (.cond nowhere
          (some (.binary nowhere .is
            (.paren nowhere (.unary nowhere .not (.ident nowhere "strict")))
            (.literal nowhere .true)))
          [.ret nowhere none]
          (some (.cond nowhere none
            [.assign nowhere "low" (.unary nowhere .negate (.ident nowhere "x"))] none)))),
      .ret nowhere (some (.ident nowhere "low"))] }]
  globals := [⟨nowhere, "n", .int, nowhere, .number 3⟩]
  stmts := [
    .while_ nowhere (.binary nowhere .less (.literal nowhere (.number 0)) (.ident nowhere "n")) [
      .expr nowhere (.call nowhere "sign" [.ident nowhere "n", .literal nowhere .false]),
      .assign nowhere "n"
        (.binary nowhere .subtract (.ident nowhere "n") (.literal nowhere (.number 1)))]]
where
  nowhere : Info Unit := ⟨(), .unknown⟩

/-- It is written so, with blocks indented by two. -/
example : signProgram.text 2 =
    Text.ofString ("n: int = 3\ndef sign(x: int, strict: bool) -> int:\n  low: int = 0\n" ++
      "  if x == -2147483648:\n    pass\n  elif (not strict) is True:\n    return\n" ++
      "  else:\n    low = -x\n  return low\nwhile 0 < n:\n  sign(n, False)\n  n = n - 1\n") := by
  decide +kernel

theorem parseProgram_text_signProgram :
    signProgram.inSourceForm = true ∧ 0 < 4 ∧
      ∃ p', parseProgram (signProgram.text 4) = .ok p' ∧ p'.unplaced = signProgram.unplaced :=
  have hform : signProgram.inSourceForm = true := by decide +kernel
  ⟨hform, by decide, parseProgram_text hform (by decide)⟩

end WatCompiler
