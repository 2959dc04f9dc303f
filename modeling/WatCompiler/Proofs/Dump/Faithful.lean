import WatCompiler.Proofs.Dump.Readable
import WatCompiler.Proofs.Program.ReadProgram
import WatCompiler.Proofs.Source.Writing
import WatCompiler.Proofs.Text.Decimal
import WatCompiler.Proofs.Typing.Places

/-!
# Dumps are faithful

Programs with the same dump are the same program up to positions, before type checking and after it
(`dump_faithful`). A dump that is read back gives the datum of the program, so what remains is that
the datum determines the program. This goes by the first symbol of each list: it tells the kinds of
expressions and statements apart, and it tells where in a flat list the functions, the variables and
the statements end.
-/

namespace WatCompiler

/-! ## Words -/

/-- Types of the language have different names. -/
theorem Ty.eq_of_name {a b : Ty} (ha : a.isKnown = true) (hb : b.isKnown = true)
    (h : a.name = b.name) : a = b := by
  have hofName : ∀ {type : Ty}, type.isKnown = true → Ty.ofName type.name = type := by
    intro type htype
    cases type with
    | other => cases htype
    | int | bool | none | any => decide
  rw [← hofName ha, h, hofName hb]

theorem UnaryOp.eq_of_symbol :
    ∀ op ∈ UnaryOp.all, ∀ op' ∈ UnaryOp.all, op.symbol = op'.symbol → op = op' := by
  decide

theorem BinaryOp.eq_of_symbol :
    ∀ op ∈ BinaryOp.all, ∀ op' ∈ BinaryOp.all, op.symbol = op'.symbol → op = op' := by
  decide +kernel

/-- A known literal is read off its datum: a number as such, the others as words. -/
def Literal.ofDatum? : Datum → Option Literal
  | .integer t => (Text.readInt32 t).toOption.map .number
  | .symbol t => [Literal.none, .true, .false].find? fun value => value.text == t
  | _ => Option.none

/-- A literal is read back from its datum. -/
theorem Literal.ofDatum?_toDatum {value : Literal} (h : value.isKnown = .true) :
    Literal.ofDatum? value.toDatum = some value := by
  cases value with
  | other => cases h
  | number value =>
    show (Text.readInt32 (Text.ofInt value.toInt)).toOption.map Literal.number = _
    rw [Text.readInt32_ofInt]
    rfl
  | none | true | false => decide

theorem Literal.eq_of_toDatum {a b : Literal} (ha : a.isKnown = .true) (hb : b.isKnown = .true)
    (h : a.toDatum = b.toDatum) : a = b := by
  have hread := Literal.ofDatum?_toDatum ha
  rw [h, Literal.ofDatum?_toDatum hb] at hread
  exact (Option.some.inj hread).symm

/-! ## Lists -/

/-- A list determines its head, items and tags. -/
theorem Datum.headed_inj {head head' : String} {items items' : List Datum}
    {tags tags' : List (Text × Datum)}
    (h : Datum.headed head items tags = .headed head' items' tags') :
    Text.ofString head = Text.ofString head' ∧ items = items' ∧ tags = tags' := by
  obtain ⟨hitems, htags⟩ := Datum.list.inj h
  obtain ⟨hhead, hrest⟩ := List.cons.inj hitems
  exact ⟨Datum.symbol.inj hhead, hrest, htags⟩

/-- The symbol at the start of a list. -/
def Datum.head? : Datum → Option Text
  | .list (.symbol t :: _) _ => some t
  | _ => none

/-- The list starts with a given symbol. -/
def Datum.isHeaded (head : String) (d : Datum) : Bool := d.head? = some (Text.ofString head)

/-- Two lists whose first parts are told from the second ones. -/
theorem append_inj_of_forall {β : Type} {p : β → Bool} {xs xs' ys ys' : List β}
    (hxs : ∀ x ∈ xs, p x = true) (hxs' : ∀ x ∈ xs', p x = true) (hys : ∀ y ∈ ys, p y = false)
    (hys' : ∀ y ∈ ys', p y = false) (h : xs ++ ys = xs' ++ ys') : xs = xs' ∧ ys = ys' := by
  have hfirst : ∀ {xs ys : List β}, (∀ x ∈ xs, p x = true) → (∀ y ∈ ys, p y = false) →
      (xs ++ ys).takeWhile p = xs := fun hxs hys =>
    takeWhile_append_of_all (List.all_eq_true.mpr hxs) fun y hy => hys y (List.mem_of_mem_head? hy)
  have hsame : xs = xs' := by rw [← hfirst hxs hys, h, hfirst hxs' hys']
  rw [hsame] at h
  exact ⟨hsame, List.append_cancel_left h⟩

/-- Elements with the same image under `f` have the same image under `g`, and so have lists of
them. -/
theorem map_eq_of_map_eq {β γ δ : Type} {f : β → γ} {g : β → δ} {xs ys : List β}
    (hfg : ∀ x ∈ xs, ∀ y ∈ ys, f x = f y → g x = g y) (h : xs.map f = ys.map f) :
    xs.map g = ys.map g := by
  induction xs generalizing ys with
  | nil => rw [List.map_eq_nil_iff.mp h.symm]
  | cons x xs ih =>
    cases ys with
    | nil => cases h
    | cons y ys =>
      obtain ⟨hfirst, hrest⟩ := List.cons.inj h
      rw [List.map_cons, List.map_cons, hfg x List.mem_cons_self y List.mem_cons_self hfirst,
        ih (fun x hx y hy => hfg x (List.mem_cons_of_mem _ hx) y (List.mem_cons_of_mem _ hy)) hrest]

/-! ## Code -/

/-- The kinds of statements. -/
inductive Stmt.Kind
  | assign | expr | ret | while_ | cond | pass

/-- The kind of a statement. -/
def Stmt.kind {α : Type} : Stmt α → Stmt.Kind
  | .assign .. => .assign
  | .expr .. => .expr
  | .ret .. => .ret
  | .while_ .. => .while_
  | .cond .. => .cond
  | .pass .. => .pass

/-- The symbols at the start of a statement's datum. -/
def Stmt.Kind.words : Table Stmt.Kind :=
  [("assign", .assign), ("expr", .expr), ("return", .ret), ("while", .while_), ("if", .cond),
    ("else", .cond), ("pass", .pass)]

section Dump

variable {α : Type} [WatCompiler.Annotated α] {P P' : Position → Prop}

/-- Annotations that show no two different types are the same. -/
def Distinguished (α : Type) [WatCompiler.Annotated α] : Prop :=
  ∀ a b : α, (∀ type ∈ Annotated.shown a, ∀ type' ∈ Annotated.shown b, type = type') → a = b

/-- A tag determines the annotation that it shows. -/
theorem Info.unplaced_of_tag (hα : Distinguished α) {info info' : Info α} (h : info.Proper P)
    (h' : info'.Proper P') {key : String} (htag : info.tag key = info'.tag key) :
    info.unplaced = info'.unplaced := by
  have hann : info.ann = info'.ann := by
    refine hα _ _ fun type htype type' htype' => ?_
    rw [Info.tag, Info.tag, htype, htype'] at htag
    have hname := Datum.symbol.inj (Prod.mk.inj (List.cons.inj htag).1).2
    exact Ty.eq_of_name (h.known type htype) (h'.known type' htype') hname
  rw [Info.unplaced, Info.unplaced, hann]

/-- A definition that declares its type is annotated with it or not at all. -/
theorem Info.unplaced_of_declared (hα : Distinguished α) {info info' : Info α} {type type' : Ty}
    (h : ∀ shown ∈ Annotated.shown info.ann, shown = type)
    (h' : ∀ shown ∈ Annotated.shown info'.ann, shown = type') (htype : type = type') :
    info.unplaced = info'.unplaced := by
  have hann : info.ann = info'.ann :=
    hα _ _ fun shown hshown shown' hshown' =>
      (h shown hshown).trans (htype.trans (h' shown' hshown').symm)
  rw [Info.unplaced, Info.unplaced, hann]

mutual

/-- The datum of a proper expression determines it, but for its places. -/
theorem Expr.unplaced_of_toDatum (hα : Distinguished α) (e e' : Expr α) (hp : e.Proper P)
    (hp' : e'.Proper P') (h : e.toDatum = e'.toDatum) : e.unplaced = e'.unplaced := by
  match e, hp with
  | .literal info value, hp =>
    cases e' with
    | literal info' value' =>
      obtain ⟨-, hitems, htags⟩ := Datum.headed_inj h
      have hinfo := Info.unplaced_of_tag hα hp.1 hp'.1 htags
      have hvalue := Literal.eq_of_toDatum hp.2 hp'.2 (List.cons.inj hitems).1
      rw [Expr.unplaced, Expr.unplaced, hinfo, hvalue]
    -- Each kind of expression starts with a symbol of its own.
    | _ => exact absurd (Datum.headed_inj h).1 (by decide)
  | .ident info name, hp =>
    cases e' with
    | ident info' name' =>
      obtain ⟨-, hitems, htags⟩ := Datum.headed_inj h
      have hinfo := Info.unplaced_of_tag hα hp.1 hp'.1 htags
      have hname := Datum.string.inj (List.cons.inj hitems).1
      rw [Expr.unplaced, Expr.unplaced, hinfo, hname]
    | _ => exact absurd (Datum.headed_inj h).1 (by decide)
  | .unary info op arg, hp =>
    cases e' with
    | unary info' op' arg' =>
      obtain ⟨-, hitems, htags⟩ := Datum.headed_inj h
      obtain ⟨hsymbol, hargs⟩ := List.cons.inj hitems
      have hinfo := Info.unplaced_of_tag hα hp.1 hp'.1 htags
      have hop := UnaryOp.eq_of_symbol op hp.2.1 op' hp'.2.1 (Datum.string.inj hsymbol)
      have harg := Expr.unplaced_of_toDatum hα arg arg' hp.2.2 hp'.2.2 (List.cons.inj hargs).1
      rw [Expr.unplaced, Expr.unplaced, hinfo, hop, harg]
    | _ => exact absurd (Datum.headed_inj h).1 (by decide)
  | .binary info op lhs rhs, hp =>
    cases e' with
    | binary info' op' lhs' rhs' =>
      obtain ⟨-, hitems, htags⟩ := Datum.headed_inj h
      obtain ⟨hsymbol, hoperands⟩ := List.cons.inj hitems
      obtain ⟨hleft, hright⟩ := List.cons.inj hoperands
      have hinfo := Info.unplaced_of_tag hα hp.1 hp'.1 htags
      have hop := BinaryOp.eq_of_symbol op hp.2.1 op' hp'.2.1 (Datum.string.inj hsymbol)
      have hlhs := Expr.unplaced_of_toDatum hα lhs lhs' hp.2.2.1 hp'.2.2.1 hleft
      have hrhs := Expr.unplaced_of_toDatum hα rhs rhs' hp.2.2.2 hp'.2.2.2 (List.cons.inj hright).1
      rw [Expr.unplaced, Expr.unplaced, hinfo, hop, hlhs, hrhs]
    | _ => exact absurd (Datum.headed_inj h).1 (by decide)
  | .paren info arg, hp =>
    cases e' with
    | paren info' arg' =>
      obtain ⟨-, hitems, htags⟩ := Datum.headed_inj h
      have hinfo := Info.unplaced_of_tag hα hp.1 hp'.1 htags
      have harg := Expr.unplaced_of_toDatum hα arg arg' hp.2 hp'.2 (List.cons.inj hitems).1
      rw [Expr.unplaced, Expr.unplaced, hinfo, harg]
    | _ => exact absurd (Datum.headed_inj h).1 (by decide)
  | .call info function args, hp =>
    cases e' with
    | call info' function' args' =>
      obtain ⟨-, hitems, htags⟩ := Datum.headed_inj h
      obtain ⟨hname, hargs⟩ := List.cons.inj hitems
      have hinfo := Info.unplaced_of_tag hα hp.1 hp'.1 htags
      have hall := Expr.allUnplaced_of_toData hα args args' hp.2.2 hp'.2.2 hargs
      rw [Expr.unplaced, Expr.unplaced, hinfo, Datum.string.inj hname, hall]
    | _ => exact absurd (Datum.headed_inj h).1 (by decide)

theorem Expr.allUnplaced_of_toData (hα : Distinguished α) (args args' : List (Expr α))
    (hp : Expr.AllProper P args) (hp' : Expr.AllProper P' args')
    (h : Expr.toData args = Expr.toData args') :
    Expr.allUnplaced args = Expr.allUnplaced args' := by
  match args, args', hp, hp' with
  | [], [], _, _ => rfl
  | [], _ :: _, _, _ => cases h
  | _ :: _, [], _, _ => cases h
  | e :: rest, e' :: rest', hp, hp' =>
    obtain ⟨hfirst, hrest⟩ := List.cons.inj h
    rw [Expr.allUnplaced, Expr.allUnplaced,
      Expr.unplaced_of_toDatum hα e e' hp.1 hp'.1 hfirst,
      Expr.allUnplaced_of_toData hα rest rest' hp.2 hp'.2 hrest]

end

/-- The head of its datum tells the kind of a statement. -/
theorem Stmt.head?_toDatum (s : Stmt α) :
    s.toDatum.head?.bind Stmt.Kind.words.find? = some s.kind := by
  match s with
  | .assign .. | .expr .. | .ret _ none | .ret _ (some _) | .while_ .. | .cond _ none .. | .pass ..
  | .cond _ (some _) .. => rfl

theorem Stmt.kind_of_toDatum {s s' : Stmt α} (h : s.toDatum = s'.toDatum) : s.kind = s'.kind := by
  have hkind := s.head?_toDatum
  rw [h, s'.head?_toDatum] at hkind
  exact (Option.some.inj hkind).symm

mutual

/-- The datum of a proper statement determines it, but for its places. -/
theorem Stmt.unplaced_of_toDatum (hα : Distinguished α) (s s' : Stmt α) (hp : s.Proper P)
    (hp' : s'.Proper P') (h : s.toDatum = s'.toDatum) : s.unplaced = s'.unplaced := by
  match s, hp with
  | .assign info target value, hp =>
    cases s' with
    | assign info' target' value' =>
      obtain ⟨-, hitems, htags⟩ := Datum.headed_inj h
      obtain ⟨hname, hvalues⟩ := List.cons.inj hitems
      have hinfo := Info.unplaced_of_tag hα hp.1 hp'.1 htags
      have hvalue := Expr.unplaced_of_toDatum hα value value' hp.2.2 hp'.2.2
        (List.cons.inj hvalues).1
      rw [Stmt.unplaced, Stmt.unplaced, hinfo, Datum.string.inj hname, hvalue]
    | _ => exact nomatch Stmt.kind_of_toDatum h
  | .expr info value, hp =>
    cases s' with
    | expr info' value' =>
      obtain ⟨-, hitems, htags⟩ := Datum.headed_inj h
      have hinfo := Info.unplaced_of_tag hα hp.1 hp'.1 htags
      have hvalue := Expr.unplaced_of_toDatum hα value value' hp.2 hp'.2 (List.cons.inj hitems).1
      rw [Stmt.unplaced, Stmt.unplaced, hinfo, hvalue]
    | _ => exact nomatch Stmt.kind_of_toDatum h
  | .ret info none, hp =>
    cases s' with
    | ret info' value' =>
      cases value' with
      | none =>
        obtain ⟨-, -, htags⟩ := Datum.headed_inj h
        rw [Stmt.unplaced, Stmt.unplaced, Info.unplaced_of_tag hα hp.1 hp'.1 htags]
      | some value' => cases (Datum.headed_inj h).2.1
    | _ => exact nomatch Stmt.kind_of_toDatum h
  | .ret info (some value), hp =>
    cases s' with
    | ret info' value' =>
      cases value' with
      | none => cases (Datum.headed_inj h).2.1
      | some value' =>
        obtain ⟨-, hitems, htags⟩ := Datum.headed_inj h
        have hinfo := Info.unplaced_of_tag hα hp.1 hp'.1 htags
        have hvalue := Expr.unplaced_of_toDatum hα value value' (hp.2 value rfl)
          (hp'.2 value' rfl) (List.cons.inj hitems).1
        rw [Stmt.unplaced, Stmt.unplaced, hinfo, Option.map_some, Option.map_some, hvalue]
    | _ => exact nomatch Stmt.kind_of_toDatum h
  | .while_ info test body, hp =>
    cases s' with
    | while_ info' test' body' =>
      obtain ⟨-, hitems, htags⟩ := Datum.headed_inj h
      obtain ⟨hfirst, hrest⟩ := List.cons.inj hitems
      have hinfo := Info.unplaced_of_tag hα hp.1 hp'.1 htags
      have htest := Expr.unplaced_of_toDatum hα test test' hp.2.1 hp'.2.1 hfirst
      have hbody := Stmt.allUnplaced_of_toData hα body body' hp.2.2 hp'.2.2 hrest
      rw [Stmt.unplaced, Stmt.unplaced, hinfo, htest, hbody]
    | _ => exact nomatch Stmt.kind_of_toDatum h
  | .cond info none body orElse, hp =>
    cases s' with
    | cond info' test' body' orElse' =>
      cases test' with
      | none =>
        -- What would follow an arm without a test is not shown, but nothing does.
        obtain ⟨-, hitems, htags⟩ := Datum.headed_inj h
        have hinfo := Info.unplaced_of_tag hα hp.1 hp'.1 htags
        have hbody := Stmt.allUnplaced_of_toData hα body body' hp.2.2.1 hp'.2.2.1 hitems
        rw [hp.2.2.2.2 rfl, hp'.2.2.2.2 rfl, Stmt.unplaced, Stmt.unplaced, hinfo, hbody]
      | some test' => exact absurd (Datum.headed_inj h).1 (by decide)
    | _ => exact nomatch Stmt.kind_of_toDatum h
  | .cond info (some test) body orElse, hp =>
    cases s' with
    | cond info' test' body' orElse' =>
      cases test' with
      | none => exact absurd (Datum.headed_inj h).1 (by decide)
      | some test' =>
        obtain ⟨-, hitems, htags⟩ := Datum.headed_inj h
        obtain ⟨hfirst, hitems⟩ := List.cons.inj hitems
        obtain ⟨hthen, harms⟩ := List.cons.inj hitems
        have hinfo := Info.unplaced_of_tag hα hp.1 hp'.1 htags
        have htest := Expr.unplaced_of_toDatum hα test test' (hp.2.1 test rfl)
          (hp'.2.1 test' rfl) hfirst
        have hbody := Stmt.allUnplaced_of_toData hα body body' hp.2.2.1 hp'.2.2.1
          (Datum.headed_inj hthen).2.1
        have harm := Stmt.elseUnplaced_of_armToData hα orElse orElse' hp.2.2.2.1 hp'.2.2.2.1 harms
        rw [Stmt.unplaced, Stmt.unplaced, hinfo, Option.map_some, Option.map_some, htest, hbody,
          harm]
    | _ => exact nomatch Stmt.kind_of_toDatum h
  | .pass info, hp =>
    cases s' with
    | pass info' =>
      obtain ⟨-, -, htags⟩ := Datum.headed_inj h
      rw [Stmt.unplaced, Stmt.unplaced, Info.unplaced_of_tag hα hp hp' htags]
    | _ => exact nomatch Stmt.kind_of_toDatum h

theorem Stmt.allUnplaced_of_toData (hα : Distinguished α) (body body' : List (Stmt α))
    (hp : Stmt.AllProper P body) (hp' : Stmt.AllProper P' body')
    (h : Stmt.toData body = Stmt.toData body') :
    Stmt.allUnplaced body = Stmt.allUnplaced body' := by
  match body, body', hp, hp' with
  | [], [], _, _ => rfl
  | [], _ :: _, _, _ => cases h
  | _ :: _, [], _, _ => cases h
  | s :: rest, s' :: rest', hp, hp' =>
    obtain ⟨hfirst, hrest⟩ := List.cons.inj h
    rw [Stmt.allUnplaced, Stmt.allUnplaced,
      Stmt.unplaced_of_toDatum hα s s' hp.1 hp'.1 hfirst,
      Stmt.allUnplaced_of_toData hα rest rest' hp.2 hp'.2 hrest]

theorem Stmt.elseUnplaced_of_armToData (hα : Distinguished α) (orElse orElse' : Option (Stmt α))
    (hp : Stmt.ArmProper P orElse) (hp' : Stmt.ArmProper P' orElse')
    (h : Stmt.armToData orElse = Stmt.armToData orElse') :
    Stmt.elseUnplaced orElse = Stmt.elseUnplaced orElse' := by
  match orElse, orElse', hp, hp' with
  | none, none, _, _ => rfl
  | none, some _, _, _ => cases h
  | some _, none, _, _ => cases h
  | some s, some s', hp, hp' =>
    rw [Stmt.elseUnplaced, Stmt.elseUnplaced,
      Stmt.unplaced_of_toDatum hα s s' hp hp' (List.cons.inj h).1]

end

/-! ## Definitions -/

theorem Param.unplaced_of_toDatum (hα : Distinguished α) {p p' : Param α} (hp : p.Proper P)
    (hp' : p'.Proper P') (h : p.toDatum = p'.toDatum) : p.unplaced = p'.unplaced := by
  obtain ⟨-, hitems, -⟩ := Datum.headed_inj h
  obtain ⟨hname, hitems⟩ := List.cons.inj hitems
  have htype := Ty.eq_of_name hp.type hp'.type (Datum.symbol.inj (List.cons.inj hitems).1)
  have hinfo := Info.unplaced_of_declared hα hp.declared hp'.declared htype
  rw [Param.unplaced, Param.unplaced, hinfo, Datum.string.inj hname, htype]

/-- The datum of a proper definition determines it, but for its places. -/
theorem VarDef.unplaced_of_toDatum (hα : Distinguished α) {v v' : VarDef α} (hp : v.Proper P)
    (hp' : v'.Proper P') (h : v.toDatum = v'.toDatum) : v.unplaced = v'.unplaced := by
  obtain ⟨-, hitems, -⟩ := Datum.headed_inj h
  obtain ⟨hname, hitems⟩ := List.cons.inj hitems
  obtain ⟨hword, hitems⟩ := List.cons.inj hitems
  obtain ⟨-, hvalues, htags⟩ := Datum.headed_inj (List.cons.inj hitems).1
  have htype := Ty.eq_of_name hp.type hp'.type (Datum.symbol.inj hword)
  have hvalue := Literal.eq_of_toDatum hp.literal hp'.literal (List.cons.inj hvalues).1
  have hliteral := Info.unplaced_of_tag hα hp.literalInfo hp'.literalInfo htags
  have hinfo := Info.unplaced_of_declared hα hp.declared hp'.declared htype
  rw [VarDef.unplaced, VarDef.unplaced, hinfo, Datum.string.inj hname, htype, hliteral, hvalue]

/-- No statement starts like a definition. -/
theorem Stmt.isHeaded_toData {head : String} (hhead : Stmt.Kind.words.find? head = none)
    (body : List (Stmt α)) : ∀ d ∈ Stmt.toData body, d.isHeaded head = false := by
  induction body with
  | nil => exact List.forall_mem_nil _
  | cons s rest ih =>
    refine List.forall_mem_cons.mpr ⟨decide_eq_false fun h => ?_, ih⟩
    have hkind := s.head?_toDatum
    rw [h, Option.bind_some, hhead] at hkind
    cases hkind

/-- Statements start behind the last variable of a flat list. -/
theorem VarDef.unplaced_of_append (hα : Distinguished α) {vs vs' : List (VarDef α)}
    {stmts stmts' : List (Stmt α)} (hvs : ∀ v ∈ vs, v.Proper P) (hvs' : ∀ v ∈ vs', v.Proper P')
    (hp : Stmt.AllProper P stmts) (hp' : Stmt.AllProper P' stmts')
    (h : vs.map VarDef.toDatum ++ Stmt.toData stmts =
      vs'.map VarDef.toDatum ++ Stmt.toData stmts') :
    vs.map VarDef.unplaced = vs'.map VarDef.unplaced ∧
      Stmt.allUnplaced stmts = Stmt.allUnplaced stmts' := by
  have hvars : ∀ vs : List (VarDef α), ∀ d ∈ vs.map VarDef.toDatum, d.isHeaded "var" = true :=
    fun _ => List.forall_mem_map.mpr fun _ _ => decide_eq_true rfl
  have hothers : ∀ stmts : List (Stmt α), ∀ d ∈ Stmt.toData stmts, d.isHeaded "var" = false :=
    Stmt.isHeaded_toData (by decide)
  obtain ⟨hvarData, hstmtData⟩ := append_inj_of_forall (hvars vs) (hvars vs') (hothers stmts)
    (hothers stmts') h
  refine ⟨map_eq_of_map_eq (fun v hv v' hv' => ?_) hvarData,
    Stmt.allUnplaced_of_toData hα stmts stmts' hp hp' hstmtData⟩
  exact VarDef.unplaced_of_toDatum hα (hvs v hv) (hvs' v' hv')

/-- The datum of a proper function determines it, but for its places. -/
theorem FuncDef.unplaced_of_toDatum (hα : Distinguished α) {f f' : FuncDef α} (hp : f.Proper P)
    (hp' : f'.Proper P') (h : f.toDatum = f'.toDatum) : f.unplaced = f'.unplaced := by
  obtain ⟨-, hitems, -⟩ := Datum.headed_inj h
  obtain ⟨hname, hitems⟩ := List.cons.inj hitems
  obtain ⟨harray, hitems⟩ := List.cons.inj hitems
  obtain ⟨hword, hitems⟩ := List.cons.inj hitems
  obtain ⟨-, hbody, htags⟩ := Datum.headed_inj (List.cons.inj hitems).1
  have hreturns := Ty.eq_of_name hp.returns hp'.returns (Datum.symbol.inj hword)
  have hinfo := Info.unplaced_of_tag hα hp.body hp'.body htags
  have hparams : f.params.map Param.unplaced = f'.params.map Param.unplaced :=
    map_eq_of_map_eq (fun p hmem p' hmem' =>
      Param.unplaced_of_toDatum hα (hp.params p hmem) (hp'.params p' hmem'))
      (Datum.array.inj harray).1
  obtain ⟨hlocals, hstmts⟩ :=
    VarDef.unplaced_of_append hα hp.locals hp'.locals hp.stmts hp'.stmts hbody
  rw [FuncDef.unplaced, FuncDef.unplaced, Datum.string.inj hname, hparams, hreturns, hinfo, hlocals,
    hstmts]

/-- The datum of a proper program determines it, but for its places. -/
theorem Program.unplaced_of_toDatum (hα : Distinguished α) {p p' : Program α} (hp : p.Proper P)
    (hp' : p'.Proper P') (h : p.toDatum = p'.toDatum) : p.unplaced = p'.unplaced := by
  obtain ⟨-, hitems, -⟩ := Datum.headed_inj h
  rw [List.append_assoc, List.append_assoc] at hitems
  -- Variables and statements start behind the last function.
  have hfunctions : ∀ fs : List (FuncDef α), ∀ d ∈ fs.map FuncDef.toDatum,
      d.isHeaded "def" = true := fun _ => List.forall_mem_map.mpr fun _ _ => decide_eq_true rfl
  have hothers : ∀ (vs : List (VarDef α)) (stmts : List (Stmt α)),
      ∀ d ∈ vs.map VarDef.toDatum ++ Stmt.toData stmts, d.isHeaded "def" = false := by
    intro vs stmts
    refine List.forall_mem_append.mpr ⟨List.forall_mem_map.mpr fun _ _ => decide_eq_false ?_,
      Stmt.isHeaded_toData (by decide) stmts⟩
    show some (Text.ofString "var") ≠ some (Text.ofString "def")
    decide
  obtain ⟨hfunctionData, hitems⟩ := append_inj_of_forall (hfunctions _) (hfunctions _)
    (hothers _ _) (hothers _ _) hitems
  obtain ⟨hglobals, hstmts⟩ :=
    VarDef.unplaced_of_append hα hp.globals hp'.globals hp.stmts hp'.stmts hitems
  have hfunctions : p.functions.map FuncDef.unplaced = p'.functions.map FuncDef.unplaced :=
    map_eq_of_map_eq (fun f hf f' hf' => FuncDef.unplaced_of_toDatum hα (hp.functions f hf)
      (hp'.functions f' hf')) hfunctionData
  rw [Program.unplaced, Program.unplaced, hfunctions, hglobals, hstmts]

/-- Proper programs with the same dump are the same up to positions. -/
theorem Program.unplaced_of_dump (hα : Distinguished α) {p p' : Program α} (hp : p.Proper P)
    (hp' : p'.Proper P') (h : p.dump = p'.dump) : p.unplaced = p'.unplaced := by
  have hread := Program.parse_dump hp
  rw [h, Program.parse_dump hp'] at hread
  exact Program.unplaced_of_toDatum hα hp hp' (Except.ok.inj hread).symm

end Dump

theorem distinguished_unit : Distinguished Unit := fun _ _ _ => rfl

theorem distinguished_ty : Distinguished Ty := fun a b h => h a rfl b rfl

/-- **Dumps are readable and faithful.** The dump of a program that is read from a source is read
back as its datum, and so is the dump of the checked program. Two programs with the same dump, both
unchecked or both checked, are the same up to positions. -/
theorem dump_faithful {source source' : Text} {p p' : Program Unit}
    (h : parseProgram source = .ok p)
    (h' : parseProgram source' = .ok p') :
    (Datum.parse p.dump = .ok p.toDatum ∧ (p.dump = p'.dump → p.unplaced = p'.unplaced)) ∧
      ∀ q, p.check = .ok q → Datum.parse q.dump = .ok q.toDatum ∧
        ∀ q', p'.check = .ok q' → q.dump = q'.dump → q.unplaced = q'.unplaced := by
  obtain ⟨_, _, _, _, _, _, hitems⟩ := itemsFrom_of_parseProgram h
  obtain ⟨_, _, _, _, _, _, hitems'⟩ := itemsFrom_of_parseProgram h'
  have hp := hitems.proper
  have hp' := hitems'.proper
  refine ⟨⟨Program.parse_dump hp, Program.unplaced_of_dump distinguished_unit hp hp'⟩, ?_⟩
  intro q hq
  have hqp := (check_answers hp).of_eq_ok hq
  refine ⟨Program.parse_dump hqp, fun q' hq' => ?_⟩
  exact Program.unplaced_of_dump distinguished_ty hqp ((check_answers hp').of_eq_ok hq')

/-- A source with a chain of conditions. -/
def chainSource : Text :=
  "x:int = 2\nif x > 0:\n  pass\nelif True:\n  (-x)\n"

/-- The same source with other blanks, margins and lines. -/
def looseChainSource : Text :=
  "x : int=2 # two\n\nif x>0:\n\tpass\nelif True:\n\t( - x )\n"

/-- A blank line and other spaces, which the dumps do not show. -/
theorem dump_faithful_chainSource : ∃ p p' q q', parseProgram chainSource = .ok p ∧
    parseProgram looseChainSource = .ok p' ∧ p.check = .ok q ∧ p'.check = .ok q' ∧
    q.stmts.map (fun s => s.info.pos.line) = [2] ∧ q'.stmts.map (fun s => s.info.pos.line) = [3] ∧
    Datum.parse q.dump = .ok q.toDatum ∧ p.unplaced = p'.unplaced ∧ q.unplaced = q'.unplaced := by
  -- One evaluation, since it reads each source only once.
  obtain ⟨hread, hloose, hdumps⟩ :
      (parseProgram chainSource).toOption.map (fun p => p.check.toOption.map fun q =>
        q.stmts.map fun s => s.info.pos.line) = some (some [2]) ∧
      (parseProgram looseChainSource).toOption.map (fun p => p.check.toOption.map fun q =>
        q.stmts.map fun s => s.info.pos.line) = some (some [3]) ∧
      (parseProgram chainSource).toOption.map
        (fun p => (p.dump, p.check.toOption.map Program.dump)) =
          (parseProgram looseChainSource).toOption.map
            (fun p => (p.dump, p.check.toOption.map Program.dump)) := by
    decide +kernel
  obtain ⟨p, hp, hchecked⟩ := toOption_map_eq_some.mp hread
  obtain ⟨q, hq, hlines⟩ := toOption_map_eq_some.mp hchecked
  obtain ⟨p', hp', hchecked'⟩ := toOption_map_eq_some.mp hloose
  obtain ⟨q', hq', hlines'⟩ := toOption_map_eq_some.mp hchecked'
  rw [hp, hp'] at hdumps
  obtain ⟨hdump, hdump'⟩ := Prod.mk.inj (Option.some.inj hdumps)
  rw [hq, hq'] at hdump'
  obtain ⟨⟨-, hunplaced⟩, hchecks⟩ := dump_faithful hp hp'
  obtain ⟨hparse, hunplaced'⟩ := hchecks q hq
  exact ⟨p, p', q, q', hp, hp', hq, hq', hlines, hlines', hparse, hunplaced hdump,
    hunplaced' q' hq' (Option.some.inj hdump')⟩

end WatCompiler
