-- Which expressions have one text. The text of an expression is read back as
-- its reading, so two expressions have one text just when they have one
-- reading. Expressions whose text says their shape have one text only if they
-- differ in brackets alone.
import ShaderMorph.Proofs.Rendering.Reader

namespace ShaderMorph.Expr

/-! ## The characters of a text -/

section Characters

variable {op : BinaryOp} {e lhs rhs base cond thenExpr elseExpr : Expr}

theorem toList_leading {op : UnaryOp} (hop : op.isPostfix = false) (h : e.needsBrackets = false) :
    (Expr.unary op e).text.toList = op.symbol.toList ++ e.text.toList := by
  rw [text_leading hop, closed_of_not h, String.toList_append]

theorem toList_trailing {op : UnaryOp} (hop : op.isPostfix = true) (h : e.needsBrackets = false) :
    (Expr.unary op e).text.toList = e.text.toList ++ op.symbol.toList := by
  rw [text_trailing hop, closed_of_not h, String.toList_append]

theorem toList_member (name : String) (h : base.needsBrackets = false) :
    (Expr.member base name).text.toList = base.text.toList ++ '.' :: name.toList := by
  rw [text_member, closed_of_not h, String.toList_append, String.toList_append]
  rfl

theorem toList_index (position : Expr) (h : base.needsBrackets = false) :
    (Expr.index base position).text.toList =
      base.text.toList ++ '[' :: (position.text.toList ++ [']']) := by
  rw [text_index, closed_of_not h, String.toList_append, String.toList_append,
    String.toList_append]
  rfl

theorem toList_call (callee : String) (args : List Expr) :
    (Expr.call callee args).text.toList =
      callee.toList ++ '(' :: ((textAll args).toList ++ [')']) := by
  rw [text, String.toList_append, String.toList_append, String.toList_append, List.append_assoc,
    List.append_assoc]
  rfl

theorem toList_paren (inner : Expr) :
    (Expr.paren inner).text.toList = '(' :: (inner.text.toList ++ [')']) := by
  rw [text, String.toList_append, String.toList_append, List.append_assoc]
  rfl

theorem toList_binary (hl : lhs.needsBrackets = false) (hr : rhs.needsBrackets = false) :
    (Expr.binary op lhs rhs).text.toList =
      lhs.text.toList ++ ' ' :: (op.symbol.toList ++ ' ' :: rhs.text.toList) := by
  rw [text_binary, closed_of_not hl, closed_of_not hr]
  simp only [String.toList_append, List.append_assoc]
  rfl

theorem toList_ternary (hc : cond.needsBrackets = false) (ht : thenExpr.needsBrackets = false)
    (he : elseExpr.needsBrackets = false) :
    (Expr.ternary cond thenExpr elseExpr).text.toList =
      cond.text.toList ++ ' ' :: '?' :: ' ' ::
        (thenExpr.text.toList ++ ' ' :: ':' :: ' ' :: elseExpr.text.toList) := by
  rw [text_ternary, closed_of_not hc, closed_of_not ht, closed_of_not he]
  simp only [String.toList_append, List.append_assoc]
  rfl

theorem toList_textAll_cons (e e' : Expr) (es : List Expr) :
    (textAll (e :: e' :: es)).toList =
      e.text.toList ++ ',' :: ' ' :: (textAll (e' :: es)).toList := by
  rw [textAll_cons_cons, String.toList_append, String.toList_append, List.append_assoc]
  rfl

end Characters

/-! ### The front of a text -/

/-- An expression starts with no closing bracket, and an operand that no
operator stands in front of starts like one. -/
theorem IsExplicit.exists_cons {e : Expr} (h : e.IsExplicit) :
    ∃ c tail, e.text.toList = c :: tail ∧ c ≠ ')' ∧
      (e.needsBrackets = false → e.opening? = none → StartsOperand c) := by
  have hatom : ∀ {text : List Char}, Text.IsAtom text →
      ∃ c tail, text = c :: tail ∧ c ≠ ')' ∧ StartsOperand c := by
    intro text h
    obtain ⟨c, tail, htext, hc⟩ := h.exists_cons
    have hstart : StartsOperand c := .inl hc
    exact ⟨c, tail, htext, hstart.ne rfl (by decide), hstart⟩
  induction h with
  | @ident name hname =>
    obtain ⟨c, tail, htext, hc, hstart⟩ := hatom (Text.isAtom_of_isIdentifier hname)
    exact ⟨c, tail, htext, hc, fun _ _ => hstart⟩
  | literal hvalue =>
    obtain ⟨c, tail, htext, hc, hstart⟩ := hatom (Literal.isAtom_text hvalue)
    exact ⟨c, tail, htext, hc, fun _ _ => hstart⟩
  | binary _ _ hl hr hlhs _ =>
    obtain ⟨c, tail, htext, hc, -⟩ := hlhs
    rw [toList_binary hl hr, htext]
    exact ⟨c, _, rfl, hc, fun hb => nomatch hb⟩
  | @leading op operand hop _ hb =>
    rw [toList_leading hop hb, opening?_leading hop]
    obtain ⟨c, tail, hsymbol, hc⟩ : ∃ c tail, op.symbol.toList = c :: tail ∧ c ≠ ')' := by
      cases op <;> exact ⟨_, _, rfl, by decide⟩
    rw [hsymbol]
    exact ⟨c, _, rfl, hc, fun _ hopen => nomatch hopen⟩
  | trailing hop _ hb hopen hoperand =>
    obtain ⟨c, tail, htext, hc, hstart⟩ := hoperand
    rw [toList_trailing hop hb, htext]
    exact ⟨c, _, rfl, hc, fun _ _ => hstart hb hopen⟩
  | member _ hb hopen _ hbase =>
    obtain ⟨c, tail, htext, hc, hstart⟩ := hbase
    rw [toList_member _ hb, htext]
    exact ⟨c, _, rfl, hc, fun _ _ => hstart hb hopen⟩
  | index _ hb hopen _ hbase _ =>
    obtain ⟨c, tail, htext, hc, hstart⟩ := hbase
    rw [toList_index _ hb, htext]
    exact ⟨c, _, rfl, hc, fun _ _ => hstart hb hopen⟩
  | call hcallee =>
    obtain ⟨c, tail, htext, hc, hstart⟩ := hatom (Text.isAtom_of_isIdentifier hcallee)
    rw [toList_call, htext]
    exact ⟨c, _, rfl, hc, fun _ _ => hstart⟩
  | ternary _ _ _ hc ht he hcond =>
    obtain ⟨c, tail, htext, hfirst, -⟩ := hcond
    rw [toList_ternary hc ht he, htext]
    exact ⟨c, _, rfl, hfirst, fun hb => nomatch hb⟩
  | paren =>
    rw [toList_paren]
    exact ⟨'(', _, rfl, by decide, fun _ _ => .inr rfl⟩

/-- The operator in front of an operand is read as it stands where it does not
run into the operand. -/
theorem IsExplicit.read?_symbol {e : Expr} (h : e.IsExplicit) (hb : e.needsBrackets = false)
    {op : UnaryOp} (hop : op.isPostfix = false) (hmeets : runsInto op e = false)
    (rest : List Char) :
    UnaryOp.read? (op.symbol.toList ++ (e.text.toList ++ rest)) =
      some (op, e.text.toList ++ rest) := by
  cases hopen : e.opening? with
  | none =>
    obtain ⟨c, tail, htext, -, hstart⟩ := h.exists_cons
    rw [htext]
    exact UnaryOp.read?_symbol hop (hstart hb hopen)
  | some op' =>
    obtain ⟨hop', operand, rfl⟩ := opening?_eq_some hopen
    obtain ⟨-, hb', -⟩ := h.of_leading hop'
    rw [runsInto_unary] at hmeets
    rw [toList_leading hop' hb', List.append_assoc]
    exact UnaryOp.read?_symbol_symbol hop hop' hmeets

/-! ## The text is read back -/

/-- What the reader does with the text of an expression. It stops behind an
operand with nothing written behind it, and behind a whole expression. Where
something is written behind an operand, it goes on with that. -/
structure ReadsBack (atom : List Char → Expr) (e : Expr) : Prop where
  behind : e.needsBrackets = false → e.opening? = none → ∀ {rest out}, CanFollow rest →
    Enough (fun fuel => readBehind atom fuel e rest = some out) →
      Enough fun fuel => readOperand atom fuel (e.text.toList ++ rest) = some out
  operand : e.needsBrackets = false → ∀ {rest}, Stops rest →
    Enough fun fuel => readOperand atom fuel (e.text.toList ++ rest) = some (e, rest)
  whole : ∀ {rest}, Closes rest →
    Enough fun fuel => readExpr atom fuel (e.text.toList ++ rest) = some (e, rest)

namespace ReadsBack

variable {atom : List Char → Expr} {e : Expr}

/-- An operand with an operator in front has all that is written behind it
below the operator. -/
theorem of_operand (hopen : e.opening? ≠ none)
    (h : ∀ {rest}, Stops rest →
      Enough fun fuel => readOperand atom fuel (e.text.toList ++ rest) = some (e, rest)) :
    ReadsBack atom e where
  behind _ hnone := absurd hnone hopen
  operand _ := h
  whole hrest := (h hrest.stops).step fun _ hfuel => readExpr_operand hfuel hrest

/-- An operand that more can be written behind is read back when what is written
behind it is read behind it. -/
theorem of_behind (h : ∀ {rest out}, CanFollow rest →
    Enough (fun fuel => readBehind atom fuel e rest = some out) →
      Enough fun fuel => readOperand atom fuel (e.text.toList ++ rest) = some out) :
    ReadsBack atom e := by
  have hoperand : ∀ {rest}, Stops rest →
      Enough fun fuel => readOperand atom fuel (e.text.toList ++ rest) = some (e, rest) :=
    fun hrest => h hrest.canFollow (.of_succ fun _ => readBehind_stop hrest)
  exact {
    behind := fun _ _ => h
    operand := fun _ => hoperand
    whole := fun hrest => (hoperand hrest.stops).step fun _ hfuel => readExpr_operand hfuel hrest }

/-- An expression with operators between its operands is read back as a whole
only: its first operand, and then what stands between and behind. -/
theorem of_between {first : Expr} {middle : List Char} (hfirst : ReadsBack atom first)
    (hb : first.needsBrackets = false) (he : e.needsBrackets = true)
    (htext : e.text.toList = first.text.toList ++ ' ' :: middle)
    (h : ∀ {rest}, Closes rest →
      Enough fun fuel => readBetween atom fuel first (middle ++ rest) = some (e, rest)) :
    ReadsBack atom e where
  behind hnot := absurd he (Bool.eq_false_iff.1 hnot)
  operand hnot := absurd he (Bool.eq_false_iff.1 hnot)
  whole {rest} hrest := by
    have hread := hfirst.operand hb (stops_space (middle ++ rest))
    refine (hread.and (h hrest)).step fun fuel ⟨hread, hfuel⟩ => ?_
    rw [htext, List.append_assoc, List.cons_append, readExpr_between hread]
    exact hfuel

section Forms

variable {op : BinaryOp} {lhs rhs base position cond thenExpr elseExpr inner : Expr}

theorem of_atom (h : Text.IsAtom e.text.toList) (hatom : atom e.text.toList = e) :
    ReadsBack atom e := by
  refine of_behind fun hrest hout => hout.step fun fuel hfuel => ?_
  rw [readOperand_atom h hrest, hatom]
  exact hfuel

theorem leading {op : UnaryOp} {operand : Expr} (hop : op.isPostfix = false)
    (hoperand : operand.IsExplicit) (hb : operand.needsBrackets = false)
    (hmeets : runsInto op operand = false) (h : ReadsBack atom operand) :
    ReadsBack atom (.unary op operand) := by
  have hopen : (Expr.unary op operand).opening? ≠ none := by
    rw [opening?_leading hop]
    exact Option.some_ne_none op
  refine of_operand hopen fun {rest} hrest => ?_
  refine (h.operand hb hrest).step fun fuel hfuel => ?_
  rw [toList_leading hop hb, List.append_assoc]
  exact readOperand_leading (hoperand.read?_symbol hb hop hmeets rest) hfuel

theorem trailing {op : UnaryOp} {operand : Expr} (hop : op.isPostfix = true)
    (hb : operand.needsBrackets = false) (hopen : operand.opening? = none)
    (h : ReadsBack atom operand) : ReadsBack atom (.unary op operand) := by
  refine of_behind fun {rest out} hrest hout => ?_
  rw [toList_trailing hop hb, List.append_assoc]
  refine h.behind hb hopen (canFollow_trailing hop rest) (hout.step fun fuel hfuel => ?_)
  rw [readBehind_trailing hop]
  exact hfuel

theorem member {name : String} (hname : Text.isIdentifier name.toList = true)
    (hb : base.needsBrackets = false) (hopen : base.opening? = none) (h : ReadsBack atom base) :
    ReadsBack atom (.member base name) := by
  refine of_behind fun {rest out} hrest hout => ?_
  rw [toList_member name hb, List.append_assoc, List.cons_append]
  refine h.behind hb hopen (canFollow_member hname rest) (hout.step fun fuel hfuel => ?_)
  rw [readBehind_member hname hrest.follows]
  exact hfuel

theorem index (hb : base.needsBrackets = false) (hopen : base.opening? = none)
    (h : ReadsBack atom base) (hposition : ReadsBack atom position) :
    ReadsBack atom (.index base position) := by
  refine of_behind fun {rest out} hrest hout => ?_
  rw [toList_index position hb, List.append_assoc, List.cons_append, List.append_assoc]
  refine h.behind hb hopen (canFollow_cons _ rfl (by decide) (by decide)) ?_
  have hwhole := hposition.whole (closes_cons rest (.inr (.inl rfl)))
  refine (hwhole.and hout).step fun fuel ⟨hread, hfuel⟩ => ?_
  rw [List.singleton_append, readBehind_index hread]
  exact hfuel

theorem paren (h : ReadsBack atom inner) : ReadsBack atom (.paren inner) := by
  refine of_behind fun {rest out} hrest hout => ?_
  rw [toList_paren, List.cons_append, List.append_assoc]
  refine ((h.whole (closes_cons rest (.inl rfl))).and hout).step fun fuel ⟨hread, hfuel⟩ => ?_
  rw [List.singleton_append, readOperand_paren hread]
  exact hfuel

/-- The arguments of a call are read back up to its closing bracket. -/
theorem args {es : List Expr} (hes : ∀ e ∈ es, e.IsExplicit) (h : ∀ e ∈ es, ReadsBack atom e)
    (rest : List Char) :
    Enough fun fuel =>
      readArgs atom fuel ((textAll es).toList ++ ')' :: rest) = some (es, rest) := by
  induction es with
  | nil => exact .of_succ fun _ => readArgs_nil
  | cons e es ih =>
    obtain ⟨he, hes⟩ := List.forall_mem_cons.1 hes
    obtain ⟨hread, hreads⟩ := List.forall_mem_cons.1 h
    obtain ⟨c, tail, htext, hc, -⟩ := he.exists_cons
    cases es with
    | nil =>
      refine (hread.whole (closes_cons rest (.inl rfl))).step fun fuel hfuel => ?_
      rw [htext] at hfuel
      rw [textAll, htext]
      exact readArgs_last hc hfuel
    | cons e' es =>
      have hwhole := hread.whole
        (closes_cons (' ' :: ((textAll (e' :: es)).toList ++ ')' :: rest)) (.inr (.inr rfl)))
      refine (hwhole.and (ih hes hreads)).step fun fuel ⟨hfuel, hrest⟩ => ?_
      rw [htext] at hfuel
      rw [toList_textAll_cons, List.append_assoc, List.cons_append, List.cons_append, htext]
      exact readArgs_cons hc hfuel hrest

theorem call {callee : String} {args : List Expr}
    (hcallee : Text.isIdentifier callee.toList = true) (hargs : ∀ e ∈ args, e.IsExplicit)
    (h : ∀ e ∈ args, ReadsBack atom e) : ReadsBack atom (.call callee args) := by
  refine of_behind fun {rest out} hrest hout => ?_
  rw [toList_call, List.append_assoc, List.cons_append, List.append_assoc]
  refine ((ReadsBack.args hargs h rest).and hout).step fun fuel ⟨hread, hfuel⟩ => ?_
  rw [List.singleton_append, readOperand_call hcallee hread]
  exact hfuel

theorem binary (hl : lhs.needsBrackets = false) (hr : rhs.needsBrackets = false)
    (hlhs : ReadsBack atom lhs) (hrhs : ReadsBack atom rhs) :
    ReadsBack atom (.binary op lhs rhs) := by
  refine of_between hlhs hl rfl (toList_binary hl hr) fun {rest} hrest => ?_
  refine (hrhs.operand hr hrest.stops).step fun fuel hfuel => ?_
  rw [List.append_assoc, List.cons_append]
  exact readBetween_binary op hfuel

theorem ternary (hc : cond.needsBrackets = false) (ht : thenExpr.needsBrackets = false)
    (he : elseExpr.needsBrackets = false) (hcond : ReadsBack atom cond)
    (hthen : ReadsBack atom thenExpr) (helse : ReadsBack atom elseExpr) :
    ReadsBack atom (.ternary cond thenExpr elseExpr) := by
  refine of_between hcond hc rfl (toList_ternary hc ht he) fun {rest} hrest => ?_
  have hread := hthen.operand ht (stops_space (':' :: ' ' :: (elseExpr.text.toList ++ rest)))
  refine (hread.and (helse.operand he hrest.stops)).step fun fuel ⟨hthen, helse⟩ => ?_
  rw [List.cons_append, List.cons_append, List.append_assoc]
  exact readBetween_ternary hthen helse

end Forms

end ReadsBack

/-- The text of an expression that says all that its text says is read back. -/
theorem IsExplicit.readsBack {atom : List Char → Expr} (hatom : TellsAtoms atom) {e : Expr}
    (h : e.IsExplicit) : ReadsBack atom e := by
  induction h with
  | ident hname htrue hfalse =>
    exact .of_atom (Text.isAtom_of_isIdentifier hname) (hatom.ident hname htrue hfalse)
  | literal hvalue => exact .of_atom (Literal.isAtom_text hvalue) (hatom.literal hvalue)
  | binary _ _ hl hr hlhs hrhs => exact .binary hl hr hlhs hrhs
  | leading hop hexplicit hb hmeets hoperand => exact .leading hop hexplicit hb hmeets hoperand
  | trailing hop _ hb hopen hoperand => exact .trailing hop hb hopen hoperand
  | member _ hb hopen hname hbase => exact .member hname hb hopen hbase
  | index _ hb hopen _ hbase hposition => exact .index hb hopen hbase hposition
  | call hcallee hexplicit hargs => exact .call hcallee hexplicit hargs
  | ternary _ _ _ hc ht he hcond hthen helse => exact .ternary hc ht he hcond hthen helse
  | paren _ hinner => exact .paren hinner

/-- Two expressions that say all that their texts say are the same when their
texts are. -/
theorem IsExplicit.text_inj {e e' : Expr} (h : e.IsExplicit) (h' : e'.IsExplicit)
    (htext : e.text = e'.text) : e = e' := by
  obtain ⟨atom, hatom⟩ := exists_tellsAtoms
  have hboth :=
    ((h.readsBack hatom).whole closes_nil).and ((h'.readsBack hatom).whole closes_nil)
  obtain ⟨fuel, hread, hread'⟩ := hboth.exists_fuel
  rw [htext, hread'] at hread
  exact ((Prod.mk.inj (Option.some.inj hread)).1).symm

/-! ## Expressions with one text -/

/-- Two expressions have one text just when they have one reading. Legible
expressions with one text differ in brackets only. -/
theorem text_eq_iff {e e' : Expr} (h : e.IsPlain) (h' : e'.IsPlain) :
    (e.text = e'.text ↔ e.reading = e'.reading) ∧
      (e.Legible → e'.Legible → e.text = e'.text → e.unbracketed = e'.unbracketed) := by
  have hiff : e.text = e'.text ↔ e.reading = e'.reading := by
    rw [← text_reading h, ← text_reading h']
    exact ⟨(isExplicit_reading h).text_inj (isExplicit_reading h'), congrArg text⟩
  refine ⟨hiff, fun hlegible hlegible' htext => ?_⟩
  rw [← hlegible.reading_eq.1, ← hlegible'.reading_eq.1, hiff.1 htext]

theorem text_eq_iff_difference :
    let difference : Expr := .binary .sub (.ident "y") (.ident "z")
    let bare : Expr := .binary .sub (.ident "x") difference
    let bracketed : Expr := .binary .sub (.ident "x") (.paren difference)
    bare.IsPlain ∧ bracketed.IsPlain ∧ bare.Legible ∧ bracketed.Legible ∧
      bare.text = bracketed.text ∧ bare.reading = bracketed.reading ∧
      bare.unbracketed = bracketed.unbracketed := by
  intro difference bare bracketed
  have hplain : difference.IsPlain := .binary (.ident (by decide)) (.ident (by decide))
  have hlegible : difference.Legible :=
    .binary (.ident (by decide) (by decide)) (.ident (by decide) (by decide))
  have hbare : bare.IsPlain := .binary (.ident (by decide)) hplain
  have hbracketed : bracketed.IsPlain := .binary (.ident (by decide)) (.paren hplain)
  have hbare' : bare.Legible := .binary (.ident (by decide) (by decide)) hlegible
  have hbracketed' : bracketed.Legible :=
    .binary (.ident (by decide) (by decide)) (.paren hlegible)
  have htext : bare.text = bracketed.text := by decide
  obtain ⟨hiff, hlegible⟩ := text_eq_iff hbare hbracketed
  exact ⟨hbare, hbracketed, hbare', hbracketed', htext, hiff.1 htext,
    hlegible hbare' hbracketed' htext⟩

/-- Two minus signs in front of a name are written like a decrement of it. -/
theorem text_of_negated_negation :
    ¬∀ e e' : Expr, e.IsPlain → e'.IsPlain → e.text = e'.text → e.unbracketed = e'.unbracketed := by
  intro h
  have hname : (Expr.ident "x").IsPlain := .ident (by decide)
  have hsame := h (.unary .neg (.unary .neg (.ident "x"))) (.unary .preDec (.ident "x"))
    (.unary (.unary hname)) (.unary hname) (by decide)
  cases hsame

end ShaderMorph.Expr
