import WatCompiler.Program.Dump
import WatCompiler.Proofs.Datum.Spelling

/-!
# Programs without annotations

Erasing the annotations of a program leaves everything else: names, types, literals, operators, the
positions and the order of all parts. In a dump annotations are tags, and nothing else is. So the
dump of an erased program is the dump of the program with its tags taken out, as data
(`Program.untagged_toDatum`) and as text (`withoutTags_dump`).
-/

namespace WatCompiler

variable {α : Type}

/-! ## Erasing annotations -/

/-- The position without the annotation. -/
def Info.erase (info : Info α) : Info Unit := ⟨(), info.pos⟩

mutual

/-- An expression without annotations. -/
def Expr.erase : Expr α → Expr Unit
  | .literal info value => .literal info.erase value
  | .ident info name => .ident info.erase name
  | .unary info op arg => .unary info.erase op arg.erase
  | .binary info op lhs rhs => .binary info.erase op lhs.erase rhs.erase
  | .paren info arg => .paren info.erase arg.erase
  | .call info function args => .call info.erase function (Expr.eraseAll args)

/-- Expressions without annotations. -/
def Expr.eraseAll : List (Expr α) → List (Expr Unit)
  | [] => []
  | e :: rest => e.erase :: Expr.eraseAll rest

end

mutual

/-- A statement without annotations. -/
def Stmt.erase : Stmt α → Stmt Unit
  | .assign info target value => .assign info.erase target value.erase
  | .expr info value => .expr info.erase value.erase
  | .ret info value => .ret info.erase (value.map Expr.erase)
  | .while_ info test body => .while_ info.erase test.erase (Stmt.eraseAll body)
  | .cond info test body orElse =>
    .cond info.erase (test.map Expr.erase) (Stmt.eraseAll body) (Stmt.eraseArm orElse)
  | .pass info => .pass info.erase

/-- Statements without annotations. -/
def Stmt.eraseAll : List (Stmt α) → List (Stmt Unit)
  | [] => []
  | s :: rest => s.erase :: Stmt.eraseAll rest

/-- The next arm of a conditional without annotations. -/
def Stmt.eraseArm : Option (Stmt α) → Option (Stmt Unit)
  | none => none
  | some arm => some arm.erase

end

/-- A variable definition without annotations. -/
def VarDef.erase (v : VarDef α) : VarDef Unit :=
  ⟨v.info.erase, v.name, v.type, v.literalInfo.erase, v.literal⟩

/-- A parameter without annotations. -/
def Param.erase (p : Param α) : Param Unit := ⟨p.info.erase, p.name, p.type⟩

/-- A function definition without annotations. -/
def FuncDef.erase (f : FuncDef α) : FuncDef Unit :=
  ⟨f.pos, f.name, f.params.map Param.erase, f.returns, f.bodyInfo.erase, f.locals.map VarDef.erase,
    Stmt.eraseAll f.stmts⟩

/-- A program without annotations. -/
def Program.erase (p : Program α) : Program Unit :=
  ⟨p.functions.map FuncDef.erase, p.globals.map VarDef.erase, Stmt.eraseAll p.stmts⟩

@[simp] theorem Info.erase_pos (info : Info α) : info.erase.pos = info.pos := rfl

theorem Expr.length_eraseAll (args : List (Expr α)) :
    (Expr.eraseAll args).length = args.length := by
  induction args with
  | nil => rfl
  | cons e rest ih => rw [Expr.eraseAll, List.length_cons, List.length_cons, ih]

theorem Expr.erase_info (e : Expr α) : e.erase.info = e.info.erase := by
  cases e <;> rfl

/-! ## Data without tags -/

mutual

/-- A datum without the tags in it. -/
def Datum.untagged : Datum → Datum
  | .list items _ => .list (Datum.untaggedAll items) []
  | .map entries => .map (Datum.untaggedEntries entries)
  | .array items _ => .array (Datum.untaggedAll items) []
  | d => d

/-- Data without the tags in them. -/
def Datum.untaggedAll : List Datum → List Datum
  | [] => []
  | d :: rest => d.untagged :: Datum.untaggedAll rest

/-- Entries without the tags in them. -/
def Datum.untaggedEntries : List (Text × Datum) → List (Text × Datum)
  | [] => []
  | (key, d) :: rest => (key, d.untagged) :: Datum.untaggedEntries rest

end

theorem Datum.untaggedAll_append (ds es : List Datum) :
    untaggedAll (ds ++ es) = untaggedAll ds ++ untaggedAll es := by
  induction ds with
  | nil => rfl
  | cons d rest ih => rw [List.cons_append, untaggedAll, ih, untaggedAll, List.cons_append]

/-- What each of the items becomes, all of them become. -/
theorem Datum.untaggedAll_map {β γ : Type} {f : β → Datum} {g : γ → Datum} {erase : β → γ}
    (h : ∀ b, (f b).untagged = g (erase b)) (bs : List β) :
    untaggedAll (bs.map f) = (bs.map erase).map g := by
  induction bs with
  | nil => rfl
  | cons b rest ih => rw [List.map_cons, untaggedAll, h, ih, List.map_cons, List.map_cons]

/-- A list keeps its head and its items. -/
theorem Datum.untagged_headed (head : String) (items : List Datum) (tags : List (Text × Datum)) :
    (headed head items tags).untagged = headed head (untaggedAll items) [] := rfl

/-- An erased annotation is no tag. -/
theorem Info.tag_erase (info : Info α) (key : String) : info.erase.tag key = [] := rfl

theorem Param.untagged_toDatum (p : Param α) : p.toDatum.untagged = p.erase.toDatum := rfl

theorem Literal.untagged_toDatum (value : Literal) : value.toDatum.untagged = value.toDatum := by
  cases value <;> rfl

section Dump

variable [Annotated α]

mutual

/-- Without tags, the datum of an expression is that of the erased one. -/
theorem Expr.untagged_toDatum (e : Expr α) : e.toDatum.untagged = e.erase.toDatum := by
  match e with
  | .literal info value =>
    simp only [Expr.toDatum, Expr.erase, Datum.untagged_headed, Datum.untaggedAll,
      Literal.untagged_toDatum, Info.tag_erase]
  | .ident info name => rfl
  | .unary info op arg =>
    simp only [Expr.toDatum, Expr.erase, Datum.untagged_headed, Datum.untaggedAll, Datum.untagged,
      Expr.untagged_toDatum arg, Info.tag_erase]
  | .binary info op lhs rhs =>
    simp only [Expr.toDatum, Expr.erase, Datum.untagged_headed, Datum.untaggedAll, Datum.untagged,
      Expr.untagged_toDatum lhs, Expr.untagged_toDatum rhs, Info.tag_erase]
  | .paren info arg =>
    simp only [Expr.toDatum, Expr.erase, Datum.untagged_headed, Datum.untaggedAll,
      Expr.untagged_toDatum arg, Info.tag_erase]
  | .call info function args =>
    simp only [Expr.toDatum, Expr.erase, Datum.untagged_headed, Datum.untaggedAll, Datum.untagged,
      Expr.untaggedAll_toData args, Info.tag_erase]

theorem Expr.untaggedAll_toData (args : List (Expr α)) :
    Datum.untaggedAll (Expr.toData args) = Expr.toData (Expr.eraseAll args) := by
  match args with
  | [] => rfl
  | e :: rest =>
    simp only [Expr.toData, Expr.eraseAll, Datum.untaggedAll, Expr.untagged_toDatum e,
      Expr.untaggedAll_toData rest]

end

mutual

/-- Without tags, the datum of a statement is that of the erased one. -/
theorem Stmt.untagged_toDatum (s : Stmt α) : s.toDatum.untagged = s.erase.toDatum := by
  match s with
  | .assign info target value =>
    simp only [Stmt.toDatum, Stmt.erase, Datum.untagged_headed, Datum.untaggedAll, Datum.untagged,
      Expr.untagged_toDatum value, Info.tag_erase]
  | .expr info value =>
    simp only [Stmt.toDatum, Stmt.erase, Datum.untagged_headed, Datum.untaggedAll,
      Expr.untagged_toDatum value, Info.tag_erase]
  | .ret info none => rfl
  | .ret info (some value) =>
    simp only [Stmt.toDatum, Stmt.erase, Option.map_some, Datum.untagged_headed, Datum.untaggedAll,
      Expr.untagged_toDatum value, Info.tag_erase]
  | .while_ info test body =>
    simp only [Stmt.toDatum, Stmt.erase, Datum.untagged_headed, Datum.untaggedAll,
      Expr.untagged_toDatum test, Stmt.untaggedAll_toData body, Info.tag_erase]
  | .cond info none body orElse =>
    simp only [Stmt.toDatum, Stmt.erase, Option.map_none, Datum.untagged_headed,
      Stmt.untaggedAll_toData body, Info.tag_erase]
  | .cond info (some test) body orElse =>
    simp only [Stmt.toDatum, Stmt.erase, Option.map_some, Datum.untagged_headed, Datum.untaggedAll,
      Expr.untagged_toDatum test, Stmt.untaggedAll_toData body, Stmt.untaggedAll_armToData orElse,
      Info.tag_erase]
  | .pass info => rfl

theorem Stmt.untaggedAll_toData (body : List (Stmt α)) :
    Datum.untaggedAll (Stmt.toData body) = Stmt.toData (Stmt.eraseAll body) := by
  match body with
  | [] => rfl
  | s :: rest =>
    simp only [Stmt.toData, Stmt.eraseAll, Datum.untaggedAll, Stmt.untagged_toDatum s,
      Stmt.untaggedAll_toData rest]

theorem Stmt.untaggedAll_armToData (orElse : Option (Stmt α)) :
    Datum.untaggedAll (Stmt.armToData orElse) = Stmt.armToData (Stmt.eraseArm orElse) := by
  match orElse with
  | none => rfl
  | some arm =>
    simp only [Stmt.armToData, Stmt.eraseArm, Datum.untaggedAll, Stmt.untagged_toDatum arm]

end

theorem VarDef.untagged_toDatum (v : VarDef α) : v.toDatum.untagged = v.erase.toDatum := by
  simp only [VarDef.toDatum, VarDef.erase, Datum.untagged_headed, Datum.untaggedAll, Datum.untagged,
    Literal.untagged_toDatum, Info.tag_erase]

/-- Without tags, the datum of a function is that of the erased one. -/
theorem FuncDef.untagged_toDatum (f : FuncDef α) : f.toDatum.untagged = f.erase.toDatum := by
  simp only [FuncDef.toDatum, FuncDef.erase, Datum.untagged_headed, Datum.untaggedAll,
    Datum.untagged,
    Datum.untaggedAll_append, Datum.untaggedAll_map Param.untagged_toDatum,
    Datum.untaggedAll_map VarDef.untagged_toDatum, Stmt.untaggedAll_toData, Info.tag_erase]

/-- The tags of a program's datum are its annotations. -/
theorem Program.untagged_toDatum (p : Program α) : p.toDatum.untagged = p.erase.toDatum := by
  simp only [Program.toDatum, Program.erase, Datum.untagged_headed, Datum.untaggedAll_append,
    Datum.untaggedAll_map FuncDef.untagged_toDatum, Datum.untaggedAll_map VarDef.untagged_toDatum,
    Stmt.untaggedAll_toData]

end Dump

/-! ## Texts without tags -/

/-- The second text is what is left of the first when some pieces of the form `^{...}` are taken
out, each with the space before it if there is one. -/
inductive WithoutTags : Text → Text → Prop
  | nil : WithoutTags [] []
  | keep {s t : Text} (c : UInt8) (rest : WithoutTags s t) : WithoutTags (c :: s) (c :: t)
  | drop {s t : Text} (gap : Text) (space : gap = [] ∨ gap = " ") (entries : List Text)
      (rest : WithoutTags s t) : WithoutTags (gap ++ (("^" ++ Datum.braced entries) ++ s)) t

namespace WithoutTags

theorem refl (t : Text) : WithoutTags t t := by
  induction t with
  | nil => exact .nil
  | cons c rest ih => exact .keep c ih

/-- Tags are taken out of texts one by one. -/
theorem append {s t u v : Text} (h : WithoutTags s t) (hmore : WithoutTags u v) :
    WithoutTags (s ++ u) (t ++ v) := by
  induction h with
  | nil => exact hmore
  | keep c _ ih => exact .keep c ih
  | drop gap space entries _ ih =>
    rw [List.append_assoc, List.append_assoc]
    exact .drop gap space entries ih

/-- A text between two others that stay. -/
theorem between {s t : Text} (left right : Text) (h : WithoutTags s t) :
    WithoutTags (left ++ s ++ right) (left ++ t ++ right) :=
  ((refl left).append h).append (refl right)

theorem join (separator : Text) {ss ts : List Text} (h : List.Forall₂ WithoutTags ss ts) :
    WithoutTags (Text.join separator ss) (Text.join separator ts) := by
  induction h with
  | nil => exact .nil
  | cons first rest ih =>
    cases rest with
    | nil => exact first
    | cons =>
      rw [Datum.join_cons_cons, Datum.join_cons_cons]
      exact first.append ((refl separator).append ih)

/-- The tags of a list are taken out. -/
theorem withTags {items ts : List Text} (h : List.Forall₂ WithoutTags items ts)
    (entries : List Text) :
    WithoutTags (Text.join " " (Datum.withTags items entries)) (Text.join " " ts) := by
  unfold Datum.withTags
  split
  · exact join " " h
  · cases h with
    | nil =>
      have htag := drop [] (.inl rfl) entries .nil
      rw [List.append_nil] at htag
      exact htag
    | @cons item t items ts first rest =>
      -- The tags come after the first item, in front of the space before the second.
      dsimp only
      rw [Datum.join_cons_cons]
      cases rest with
      | nil =>
        have htag := first.append (drop " " (.inr rfl) entries .nil)
        rw [List.append_nil, List.append_nil] at htag
        exact htag
      | cons second others =>
        have hrest := (refl " ").append (join " " (.cons second others))
        rw [Datum.join_cons_cons, Datum.join_cons_cons]
        exact first.append (.drop " " (.inr rfl) entries hrest)

end WithoutTags

section Render

variable (quote : Text → Text)

mutual

/-- The text of a datum without its tags is the text without the tags. -/
theorem withoutTags_renderWith (d : Datum) :
    WithoutTags (d.renderWith quote) (d.untagged.renderWith quote) := by
  match d with
  | .symbol _ | .string _ | .integer _ | .ellipsis | .foreign _ => exact .refl _
  | .list items tags =>
    exact .between "(" ")"
      (.withTags (withoutTags_renderItems items) (Datum.renderEntries quote tags))
  | .map entries =>
    exact .between "\x7b" "\x7d" (.join ", " (withoutTags_renderEntries entries))
  | .array items tags => exact .between "[" "]" (.join " " (withoutTags_renderItems items))

theorem withoutTags_renderItems (ds : List Datum) :
    List.Forall₂ WithoutTags (Datum.renderItems quote ds)
      (Datum.renderItems quote (Datum.untaggedAll ds)) := by
  match ds with
  | [] => exact .nil
  | d :: rest => exact .cons (withoutTags_renderWith d) (withoutTags_renderItems rest)

theorem withoutTags_renderEntries (entries : List (Text × Datum)) :
    List.Forall₂ WithoutTags (Datum.renderEntries quote entries)
      (Datum.renderEntries quote (Datum.untaggedEntries entries)) := by
  match entries with
  | [] => exact .nil
  | (key, d) :: rest =>
    exact .cons ((WithoutTags.refl (key ++ ": ")).append (withoutTags_renderWith d))
      (withoutTags_renderEntries rest)

end

end Render

/-- The dump of an erased program is the program's dump without its tags. -/
theorem withoutTags_dump [Annotated α] (p : Program α) : WithoutTags p.dump p.erase.dump := by
  rw [Program.dump, Program.dump, ← Program.untagged_toDatum]
  exact withoutTags_renderWith Text.quote p.toDatum

end WatCompiler
