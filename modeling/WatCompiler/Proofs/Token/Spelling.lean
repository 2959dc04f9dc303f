import WatCompiler.Proofs.Basic
import WatCompiler.Token.Lexer

/-!
# Tokens in a source

What it is for a token to stand in a source (`Token.StandsIn`): its spelling is the stretch of the
source that it takes, and it is one that tokens of its sort have. A name is a letter or underscore,
then letters, underscores and digits, and no keyword. Tokens are in order if their stretches follow
each other (`Token.InOrder`).
-/

namespace WatCompiler

namespace Token

open Lexer (isNameStart isNameByte)

/-- A text that can be a name. -/
def isIdentifier : Text → Bool
  | [] => false
  | c :: rest => isNameStart c && rest.all isNameByte && (Keyword.ofText? (c :: rest)).isNone

/-- Digits, of which the first is no zero unless all are zeros. -/
def isNumeral (t : Text) : Bool :=
  !t.isEmpty && t.all Text.isDigit &&
    !(t.head? = some (Text.byte '0') && t.any (· ≠ Text.byte '0'))

/-- The spellings that tokens of a sort have. Those that show the line structure have any. -/
def Kind.Spells : Kind → Text → Prop
  | .ident, t => isIdentifier t = true
  | .int, t => isNumeral t = true
  | .string, t => t.head? = some (Text.byte '"') ∨ t.head? = some (Text.byte '\'')
  | .keyword k, t => t = k.text
  | .op o, t => t = o.text
  | .endOfInput, _ | .newline, _ | .indent, _ | .dedent, _ => True

/-- The token has the spelling that the source has there, and it is one of its sort. -/
structure StandsIn (source : Text) (t : Token) : Prop where
  text : t.text = source.slice t.start t.stop
  spells : t.kind.Spells t.text
  start_le : t.start ≤ source.length

/-- A token for a name is spelled as an identifier. -/
theorem StandsIn.name {source : Text} {t : Token} (h : StandsIn source t)
    (hkind : t.kind = .ident) :
    isIdentifier t.text = true := by
  have hspells := h.spells
  rwa [hkind] at hspells

/-- The tokens follow each other between two offsets. -/
def InOrder : Nat → List Token → Nat → Prop
  | start, [], stop => start ≤ stop
  | start, t :: ts, stop => start ≤ t.start ∧ t.start ≤ t.stop ∧ InOrder t.stop ts stop

/-- Tokens in order go forward. -/
theorem InOrder.le {start stop : Nat} {ts : List Token} (h : InOrder start ts stop) :
    start ≤ stop := by
  induction ts generalizing start with
  | nil => exact h
  | cons t ts ih => exact Nat.le_trans h.1 (Nat.le_trans h.2.1 (ih h.2.2))

/-- They may start sooner. -/
theorem InOrder.of_le {start start' stop : Nat} {ts : List Token} (hle : start' ≤ start)
    (h : InOrder start ts stop) : InOrder start' ts stop := by
  cases ts with
  | nil => exact Nat.le_trans hle h
  | cons t ts => exact ⟨Nat.le_trans hle h.1, h.2⟩

/-- Tokens in order may be cut anywhere. -/
theorem inOrder_append {start stop : Nat} {ts us : List Token} :
    InOrder start (ts ++ us) stop ↔ ∃ mid, InOrder start ts mid ∧ InOrder mid us stop := by
  induction ts generalizing start with
  | nil => exact ⟨fun h => ⟨start, Nat.le_refl start, h⟩, fun ⟨_, hmid, h⟩ => h.of_le hmid⟩
  | cons t ts ih =>
    constructor
    · rintro ⟨hstart, hstop, h⟩
      obtain ⟨mid, hts, hus⟩ := ih.mp h
      exact ⟨mid, ⟨hstart, hstop, hts⟩, hus⟩
    · rintro ⟨mid, ⟨hstart, hstop, hts⟩, hus⟩
      exact ⟨hstart, hstop, ih.mpr ⟨mid, hts, hus⟩⟩

/-- Tokens without a length in one place. -/
theorem inOrder_of_forall {place : Nat} {ts : List Token}
    (h : ∀ t ∈ ts, t.start = place ∧ t.stop = place) : InOrder place ts place := by
  induction ts with
  | nil => exact Nat.le_refl place
  | cons t ts ih =>
    obtain ⟨⟨hstart, hstop⟩, hrest⟩ := List.forall_mem_cons.mp h
    refine ⟨Nat.le_of_eq hstart.symm, by omega, ?_⟩
    rw [hstop]
    exact ih hrest

end Token

namespace Lexer

open Token (isIdentifier)

variable {l : Lexer}

/-- A word that is no keyword is a name. -/
theorem isIdentifier_takeWhile {c : UInt8} {after : Text} (hc : isNameStart c = true)
    (hword : Keyword.ofText? ((c :: after).takeWhile isNameByte) = none) :
    isIdentifier ((c :: after).takeWhile isNameByte) = true := by
  have hbyte : isNameByte c = true := by rw [isNameByte, hc, Bool.true_or]
  rw [List.takeWhile_cons_of_pos hbyte] at hword ⊢
  rw [isIdentifier, hc, hword, List.all_takeWhile]
  rfl

theorem text_of_ofText? {t : Text} {k : Keyword} (h : Keyword.ofText? t = some k) :
    t = k.text := by
  unfold Keyword.ofText? at h
  have hbeq := List.find?_some h
  exact (eq_of_beq hbeq).symm

/-- A text starts with the spelling of its first operator. -/
theorem prefix_of_first? {t : Text} {o : Operator} (h : Operator.first? t = some o) :
    o.text <+: t := by
  unfold Operator.first? at h
  have hprefix := List.find?_some h
  exact List.isPrefixOf_iff_prefix.mp hprefix

theorem run_nil (hr : l.rest = []) : l.run = l.finish := by
  rw [run.eq_def]
  split
  · rfl
  · next hr' =>
    rw [hr] at hr'
    cases hr'

/-- The lexer takes one step and goes on. -/
theorem run_cons {c : UInt8} {after : Text} (hr : l.rest = c :: after) :
    l.run = l.step c >>= fun (found, next) => next.run.map (found ++ ·) := by
  rw [run.eq_def]
  split
  · next hr' =>
    rw [hr] at hr'
    cases hr'
  · next hr' =>
    rw [hr] at hr'
    cases hr'
    split
    · next hstep => rw [hstep]; rfl
    · next hstep => simp only [hstep]; rfl

end Lexer

end WatCompiler
