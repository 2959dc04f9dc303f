import WatCompiler.Proofs.Datum.Spelling
import WatCompiler.Proofs.Program.Proper
import WatCompiler.Proofs.Wat.Instr

/-!
# Dumps are read back

A dump quotes names and operators the way messages do, which differs from the way data are written
that are to be read back: code points that are not printable are escaped. The names and operators of
a program are printable, without quotation marks and backslashes, and the two ways write them alike
(`quote_plain`). So the dump of a proper program is read as the datum that it was written from
(`Program.parse_dump`).
-/

namespace WatCompiler

open Token (isIdentifier)

/-! ## Names and operators between quotation marks -/

namespace Text

/-- A byte that stands for itself between quotation marks. -/
def isPlain (c : UInt8) : Bool :=
  byte ' ' ≤ c && c ≤ byte '~' && c ≠ byte '"' && c ≠ byte '\\'

/-- Quoting for a reader leaves a plain byte as it is. -/
theorem quoteFragment_plain (c : UInt8) (rest : Text) (h : isPlain c = true) :
    decodeFirst c rest = .scalar c.toNat 1 ∧ quoteScalar (byte '"') c.toNat = [c] := by
  have hall : ∀ c, isPlain c = true → c.toNat < 0x80 ∧ quoteScalar (byte '"') c.toNat = [c] := by
    decide +kernel
  obtain ⟨hascii, hquote⟩ := hall c h
  exact ⟨if_pos hascii, hquote⟩

/-- Escaping for data leaves it, too. -/
theorem escapeByte_plain {c : UInt8} (h : isPlain c = true) : Datum.escapeByte c = [c] := by
  revert c
  decide +kernel

/-- Plain text is quoted alike in both ways. -/
theorem quote_plain {t : Text} (h : t.all isPlain = true) : quote t = Datum.quoteString t := by
  have hbodies : (decode t).flatMap quoteFragment = t.flatMap Datum.escapeByte := by
    unfold decode
    induction t with
    | nil => rfl
    | cons c rest ih =>
      rw [List.all_cons, Bool.and_eq_true] at h
      -- A plain byte is one code point, and neither way escapes it.
      obtain ⟨hdecode, hquote⟩ := quoteFragment_plain c rest h.1
      rw [decodeFrom, hdecode]
      show quoteScalar (byte '"') c.toNat ++ (decodeFrom 0 rest).flatMap quoteFragment = _
      rw [hquote, ih h.2, List.flatMap_cons, escapeByte_plain h.1]
  rw [quote, hbodies]
  rfl

end Text

/-- The bytes of names are plain. -/
theorem isPlain_of_isNameByte (c : UInt8) (h : Lexer.isNameByte c = true) :
    Text.isPlain c = true := by
  revert c
  decide +kernel

theorem all_isPlain_identifier {name : Text} (h : isIdentifier name = true) :
    name.all Text.isPlain = true := by
  cases name with
  | nil => rfl
  | cons c rest =>
    simp only [isIdentifier, Bool.and_eq_true] at h
    have hc : Lexer.isNameByte c = true := by rw [Lexer.isNameByte, h.1.1, Bool.true_or]
    rw [List.all_eq_true]
    intro d hd
    rcases List.mem_cons.mp hd with rfl | hd
    · exact isPlain_of_isNameByte d hc
    · exact isPlain_of_isNameByte d (List.all_eq_true.mp h.1.2 d hd)

theorem UnaryOp.all_isPlain_symbol : ∀ op ∈ UnaryOp.all, op.symbol.all Text.isPlain = true := by
  decide

theorem BinaryOp.all_isPlain_symbol : ∀ op ∈ BinaryOp.all, op.symbol.all Text.isPlain = true := by
  decide

/-! ## Data that are read back -/

namespace Datum

/-- The datum has a written form, and is written alike with both ways to quote strings. -/
structure Readable (d : Datum) : Prop where
  wellFormed : d.WellFormed
  renderWith_quote : d.renderWith Text.quote = d.render

/-- A readable datum is read back from its text. -/
theorem Readable.parse {d : Datum} (h : d.Readable) : parse (d.renderWith Text.quote) = .ok d := by
  rw [h.renderWith_quote]
  exact parse_render h.wellFormed

theorem renderItems_eq (quote : Text → Text) (ds : List Datum) :
    renderItems quote ds = ds.map (renderWith quote) := by
  induction ds with
  | nil => rw [renderItems, List.map_nil]
  | cons d rest ih => rw [renderItems, ih, List.map_cons]

/-- The tags have a written form, and are written alike with both ways to quote strings. -/
structure TagsReadable (tags : List (Text × Datum)) : Prop where
  wellFormed : EntriesWellFormed tags
  distinct : (Table.names tags).Nodup
  renderEntries_quote : renderEntries Text.quote tags = renderEntries quoteString tags

theorem tagsReadable_nil : TagsReadable [] := ⟨trivial, List.nodup_nil, rfl⟩

section Readable

variable {items : List Datum} {t : Text}

theorem readable_symbol (h : isSymbol t = true) : (symbol t).Readable := ⟨h, rfl⟩

theorem readable_integer (h : isInteger t = true) : (integer t).Readable := ⟨h, rfl⟩

/-- A plain string is readable: both ways of quoting agree on it. -/
theorem readable_string (h : t.all Text.isPlain = true) : (string t).Readable :=
  ⟨trivial, Text.quote_plain h⟩

/-- Readable items are written alike with both ways of quoting. -/
theorem renderItems_quote (h : ∀ i ∈ items, i.Readable) :
    renderItems Text.quote items = renderItems quoteString items := by
  rw [renderItems_eq, renderItems_eq]
  exact List.map_congr_left fun i hi => (h i hi).renderWith_quote

/-- A list with a symbol as its head, readable items and readable tags. -/
theorem readable_headed {head : String} (hhead : isSymbol head = true)
    (hitems : ∀ i ∈ items, i.Readable) {tags : List (Text × Datum)} (htags : TagsReadable tags) :
    (headed head items tags).Readable := by
  have hall : ∀ i ∈ symbol head :: items, i.Readable :=
    List.forall_mem_cons.mpr ⟨readable_symbol hhead, hitems⟩
  refine ⟨⟨allWellFormed_iff.mpr fun i hi => (hall i hi).wellFormed, htags.wellFormed,
    htags.distinct⟩, ?_⟩
  rw [headed, render, renderWith, renderWith, renderItems_quote hall, htags.renderEntries_quote]

theorem readable_array (h : ∀ i ∈ items, i.Readable) : (array items []).Readable := by
  refine ⟨⟨allWellFormed_iff.mpr fun i hi => (h i hi).wellFormed, rfl⟩, ?_⟩
  rw [render, renderWith, renderWith, renderItems_quote h]

end Readable

end Datum

open Datum (Readable readable_symbol readable_string readable_headed tagsReadable_nil)

/-! ## Programs as readable data -/

/-- The name of a type of the language is a symbol. -/
theorem Ty.isSymbol_name {type : Ty} (h : type.isKnown = true) :
    Datum.isSymbol type.name = true := by
  cases type with
  | other => cases h
  | int | bool | none | any => decide

theorem Ty.readable_name {type : Ty} (h : type.isKnown = true) :
    (Datum.symbol type.name).Readable := readable_symbol (Ty.isSymbol_name h)

theorem readable_identifier {name : Text} (h : isIdentifier name = true) :
    (Datum.string name).Readable := readable_string (all_isPlain_identifier h)

/-- Literals of the language are written as integers and symbols. -/
theorem Literal.readable_toDatum {value : Literal} (h : value.isKnown = .true) :
    value.toDatum.Readable := by
  cases value with
  | other => cases h
  | number value => exact Datum.readable_integer (Instr.isInteger_ofInt value.toInt)
  | none | true | false => exact readable_symbol (by decide)

section Dump

variable {α : Type} [WatCompiler.Annotated α] {P : Position → Prop}

theorem Param.readable_toDatum {p : Param α} (hp : p.Proper P) : p.toDatum.Readable := by
  have hname := readable_identifier hp.name
  have htype := Ty.readable_name hp.type
  exact readable_headed (by decide) (by simp [hname, htype]) tagsReadable_nil

/-- A tag shows a type of the language. -/
theorem Info.Proper.tagsReadable {info : Info α} (h : info.Proper P) {key : String}
    (hkey : Datum.isSymbol key = true) : Datum.TagsReadable (info.tag key) := by
  unfold Info.tag
  split
  · exact tagsReadable_nil
  · next type htype =>
    have hname := Ty.isSymbol_name (h.known type htype)
    exact ⟨⟨hkey, hname, trivial⟩, List.nodup_singleton _, rfl⟩

theorem Info.Proper.typeTag {info : Info α} (h : info.Proper P) :
    Datum.TagsReadable (info.tag "type") := h.tagsReadable (by decide)

theorem Info.Proper.returnsTag {info : Info α} (h : info.Proper P) :
    Datum.TagsReadable (info.tag "returns") := h.tagsReadable (by decide)

mutual

/-- The datum of a proper expression is readable. -/
theorem Expr.readable_toDatum (e : Expr α) (hp : e.Proper P) : e.toDatum.Readable := by
  match e, hp with
  | .literal info value, ⟨hinfo, hvalue⟩ =>
    refine readable_headed (by decide) ?_ hinfo.typeTag
    exact List.forall_mem_singleton.mpr (Literal.readable_toDatum hvalue)
  | .ident info name, ⟨hinfo, hname⟩ =>
    refine readable_headed (by decide) ?_ hinfo.typeTag
    exact List.forall_mem_singleton.mpr (readable_identifier hname)
  | .unary info op arg, ⟨hinfo, hop, harg⟩ =>
    have hsymbol := readable_string (UnaryOp.all_isPlain_symbol op hop)
    have harg' := Expr.readable_toDatum arg harg
    exact readable_headed (by decide) (by simp [hsymbol, harg']) hinfo.typeTag
  | .binary info op lhs rhs, ⟨hinfo, hop, hlhs, hrhs⟩ =>
    have hsymbol := readable_string (BinaryOp.all_isPlain_symbol op hop)
    have hlhs' := Expr.readable_toDatum lhs hlhs
    have hrhs' := Expr.readable_toDatum rhs hrhs
    exact readable_headed (by decide) (by simp [hsymbol, hlhs', hrhs']) hinfo.typeTag
  | .paren info arg, ⟨hinfo, harg⟩ =>
    refine readable_headed (by decide) ?_ hinfo.typeTag
    exact List.forall_mem_singleton.mpr (Expr.readable_toDatum arg harg)
  | .call info function args, ⟨hinfo, hname, hargs⟩ =>
    refine readable_headed (by decide) ?_ hinfo.typeTag
    exact List.forall_mem_cons.mpr
      ⟨readable_identifier hname, Expr.readable_toData args hargs⟩

theorem Expr.readable_toData (args : List (Expr α)) (hp : Expr.AllProper P args) :
    ∀ d ∈ Expr.toData args, d.Readable := by
  match args, hp with
  | [], _ => exact List.forall_mem_nil _
  | e :: rest, ⟨he, hrest⟩ =>
    exact List.forall_mem_cons.mpr
      ⟨Expr.readable_toDatum e he, Expr.readable_toData rest hrest⟩

end

mutual

/-- The datum of a proper statement is readable. -/
theorem Stmt.readable_toDatum (s : Stmt α) (hp : s.Proper P) : s.toDatum.Readable := by
  match s, hp with
  | .assign info target value, ⟨hinfo, htarget, hvalue⟩ =>
    have hname := readable_identifier htarget
    have hvalue' := Expr.readable_toDatum value hvalue
    exact readable_headed (by decide) (by simp [hname, hvalue']) hinfo.returnsTag
  | .expr info value, ⟨hinfo, hvalue⟩ =>
    refine readable_headed (by decide) ?_ hinfo.returnsTag
    exact List.forall_mem_singleton.mpr (Expr.readable_toDatum value hvalue)
  | .ret info none, ⟨hinfo, _⟩ =>
    exact readable_headed (by decide) (List.forall_mem_nil _) hinfo.returnsTag
  | .ret info (some value), ⟨hinfo, hvalue⟩ =>
    refine readable_headed (by decide) ?_ hinfo.returnsTag
    exact List.forall_mem_singleton.mpr (Expr.readable_toDatum value (hvalue value rfl))
  | .while_ info test body, ⟨hinfo, htest, hbody⟩ =>
    refine readable_headed (by decide) ?_ hinfo.returnsTag
    exact List.forall_mem_cons.mpr ⟨Expr.readable_toDatum test htest,
      Stmt.readable_toData body hbody⟩
  | .cond info none body orElse, ⟨hinfo, _, hbody, _⟩ =>
    exact readable_headed (by decide) (Stmt.readable_toData body hbody) hinfo.returnsTag
  | .cond info (some test) body orElse, ⟨hinfo, htest, hbody, harm, _⟩ =>
    refine readable_headed (by decide) ?_ hinfo.returnsTag
    have hthen : (Datum.headed "then" (Stmt.toData body) []).Readable :=
      readable_headed (by decide) (Stmt.readable_toData body hbody) tagsReadable_nil
    exact List.forall_mem_cons.mpr ⟨Expr.readable_toDatum test (htest test rfl),
      List.forall_mem_cons.mpr ⟨hthen, Stmt.readable_armToData orElse harm⟩⟩
  | .pass info, hp =>
    exact readable_headed (by decide) (List.forall_mem_nil _) (Info.Proper.returnsTag hp)

theorem Stmt.readable_toData (body : List (Stmt α)) (hp : Stmt.AllProper P body) :
    ∀ d ∈ Stmt.toData body, d.Readable := by
  match body, hp with
  | [], _ => exact List.forall_mem_nil _
  | s :: rest, ⟨hs, hrest⟩ =>
    exact List.forall_mem_cons.mpr
      ⟨Stmt.readable_toDatum s hs, Stmt.readable_toData rest hrest⟩

theorem Stmt.readable_armToData (orElse : Option (Stmt α)) (hp : Stmt.ArmProper P orElse) :
    ∀ d ∈ Stmt.armToData orElse, d.Readable := by
  match orElse, hp with
  | none, _ => exact List.forall_mem_nil _
  | some arm, hp => exact List.forall_mem_singleton.mpr (Stmt.readable_toDatum arm hp)

end

theorem VarDef.readable_toDatum {v : VarDef α} (hp : v.Proper P) : v.toDatum.Readable := by
  have hname := readable_identifier hp.name
  have htype := Ty.readable_name hp.type
  have hliteral : (Datum.headed "lit" [v.literal.toDatum] (v.literalInfo.tag "type")).Readable :=
    readable_headed (by decide)
      (List.forall_mem_singleton.mpr (Literal.readable_toDatum hp.literal)) hp.literalInfo.typeTag
  exact readable_headed (by decide) (by simp [hname, htype, hliteral]) tagsReadable_nil

/-- The datum of a proper function is readable. -/
theorem FuncDef.readable_toDatum {f : FuncDef α} (hp : f.Proper P) : f.toDatum.Readable := by
  have hname := readable_identifier hp.name
  have hreturns := Ty.readable_name hp.returns
  have hparams : (Datum.array (f.params.map Param.toDatum) []).Readable := by
    refine Datum.readable_array (List.forall_mem_map.mpr fun p hmem => ?_)
    exact Param.readable_toDatum (hp.params p hmem)
  have hbody : (Datum.headed "body" (f.locals.map VarDef.toDatum ++ Stmt.toData f.stmts)
      (f.bodyInfo.tag "returns")).Readable := by
    refine readable_headed (by decide) (List.forall_mem_append.mpr ⟨?_, ?_⟩) hp.body.returnsTag
    · refine List.forall_mem_map.mpr fun v hv => ?_
      exact VarDef.readable_toDatum (hp.locals v hv)
    · exact Stmt.readable_toData f.stmts hp.stmts
  exact readable_headed (by decide) (by simp [hname, hparams, hreturns, hbody]) tagsReadable_nil

/-- The datum of a proper program is readable. -/
theorem Program.readable_toDatum {p : Program α} (hp : p.Proper P) : p.toDatum.Readable := by
  refine readable_headed (by decide) (List.forall_mem_append.mpr ⟨List.forall_mem_append.mpr
    ⟨?_, ?_⟩, Stmt.readable_toData p.stmts hp.stmts⟩) tagsReadable_nil
  · refine List.forall_mem_map.mpr fun f hf => ?_
    exact FuncDef.readable_toDatum (hp.functions f hf)
  · refine List.forall_mem_map.mpr fun v hv => ?_
    exact VarDef.readable_toDatum (hp.globals v hv)

/-- The dump of a proper program is read as the datum that it was written from. -/
theorem Program.parse_dump {p : Program α} (hp : p.Proper P) :
    Datum.parse p.dump = .ok p.toDatum := (Program.readable_toDatum hp).parse

end Dump

end WatCompiler
