-- Expressions whose text says their shape. The reading of an expression says
-- all that its text says. Where no sign stands in front of the same sign and
-- nothing is written behind an operand with an operator in front, the reading
-- is the expression itself with brackets put in.
import ShaderMorph.Proofs.Rendering.Reading

namespace ShaderMorph.Expr

/-! ## The reading is explicit -/

/-- An expression that says all that its text says: its operands are in
brackets where they get them, and nothing in it runs together. -/
inductive IsExplicit : Expr → Prop
  | ident {name : String} (hname : Text.isIdentifier name.toList = true) (htrue : name ≠ "true")
      (hfalse : name ≠ "false") : IsExplicit (.ident name)
  | literal {value : Literal} (hvalue : value.IsUnsigned) : IsExplicit (.literal value)
  | binary {op : BinaryOp} {lhs rhs : Expr} (hlhs : IsExplicit lhs) (hrhs : IsExplicit rhs)
      (hl : lhs.needsBrackets = false) (hr : rhs.needsBrackets = false) :
      IsExplicit (.binary op lhs rhs)
  | leading {op : UnaryOp} {operand : Expr} (hop : op.isPostfix = false)
      (hoperand : IsExplicit operand) (hb : operand.needsBrackets = false)
      (hmeets : runsInto op operand = false) : IsExplicit (.unary op operand)
  | trailing {op : UnaryOp} {operand : Expr} (hop : op.isPostfix = true)
      (hoperand : IsExplicit operand) (hb : operand.needsBrackets = false)
      (hopen : operand.opening? = none) : IsExplicit (.unary op operand)
  | member {base : Expr} {name : String} (hbase : IsExplicit base)
      (hb : base.needsBrackets = false) (hopen : base.opening? = none)
      (hname : Text.isIdentifier name.toList = true) : IsExplicit (.member base name)
  | index {base position : Expr} (hbase : IsExplicit base) (hb : base.needsBrackets = false)
      (hopen : base.opening? = none) (hposition : IsExplicit position) :
      IsExplicit (.index base position)
  | call {callee : String} {args : List Expr} (hcallee : Text.isIdentifier callee.toList = true)
      (hargs : ∀ arg ∈ args, IsExplicit arg) : IsExplicit (.call callee args)
  | ternary {cond thenExpr elseExpr : Expr} (hcond : IsExplicit cond)
      (hthen : IsExplicit thenExpr) (helse : IsExplicit elseExpr)
      (hc : cond.needsBrackets = false) (ht : thenExpr.needsBrackets = false)
      (he : elseExpr.needsBrackets = false) : IsExplicit (.ternary cond thenExpr elseExpr)
  | paren {inner : Expr} (hinner : IsExplicit inner) : IsExplicit (.paren inner)

theorem IsExplicit.closed {e : Expr} (h : e.IsExplicit) : e.closed.IsExplicit := by
  unfold Expr.closed
  split
  · exact .paren h
  · exact h

/-- The operand of an operator in front of it. -/
theorem IsExplicit.of_leading {op : UnaryOp} {operand : Expr} (hop : op.isPostfix = false)
    (h : (Expr.unary op operand).IsExplicit) :
    operand.IsExplicit ∧ operand.needsBrackets = false ∧ runsInto op operand = false := by
  cases h with
  | leading _ hoperand hb hmeets => exact ⟨hoperand, hb, hmeets⟩
  | trailing hop' => exact absurd hop' (Bool.eq_false_iff.1 hop)

theorem opening?_leading {op : UnaryOp} (hop : op.isPostfix = false) (e : Expr) :
    (Expr.unary op e).opening? = some op := by
  rw [opening?, hop]
  rfl

theorem opening?_trailing {op : UnaryOp} (hop : op.isPostfix = true) (e : Expr) :
    (Expr.unary op e).opening? = none := by
  rw [opening?, hop]
  rfl

theorem opening?_of_not_unary {e : Expr} (h : ∀ op operand, e = .unary op operand → False) :
    e.opening? = none := by
  cases e with
  | unary op operand => exact absurd rfl (h op operand)
  | _ => rfl

theorem opening?_eq_some {op : UnaryOp} {e : Expr} (h : e.opening? = some op) :
    op.isPostfix = false ∧ ∃ operand, e = .unary op operand := by
  cases e with
  | unary op' operand =>
    rw [opening?] at h
    split at h
    · cases h
    · next hop =>
      obtain rfl := Option.some.inj h
      exact ⟨Bool.eq_false_iff.2 hop, operand, rfl⟩
  | _ => cases h

theorem opening?_closed (e : Expr) : e.closed.opening? = e.opening? := by
  unfold closed
  split
  · next h =>
    cases e with
    | binary => rfl
    | ternary => rfl
    | _ => cases h
  · rfl

theorem runsInto_unary (op op' : UnaryOp) (e : Expr) :
    runsInto op (.unary op' e) = op.meets op' := by
  cases hop : op'.isPostfix with
  | false => rw [runsInto, opening?_leading hop, Option.any_some]
  | true =>
    rw [runsInto, opening?_trailing hop, Option.any_none, eq_comm, Bool.eq_false_iff]
    intro hmeets
    rw [(UnaryOp.isPostfix_of_meets hmeets).1] at hop
    cases hop

/-- An operator that is never the start of a longer one does not run into its
operand. -/
theorem runsInto_of_not_meets {op : UnaryOp} (h : ∀ next, op.meets next = false) (e : Expr) :
    runsInto op e = false := by
  unfold runsInto
  cases e.opening? with
  | none => rfl
  | some next => exact h next

theorem runsInto_of_none (op : UnaryOp) {e : Expr} (h : e.opening? = none) :
    runsInto op e = false := by
  rw [runsInto, h, Option.any_none]

/-- An operator that does not run into its operand is read as it stands. -/
theorem led_of_not {op : UnaryOp} {e : Expr} (h : runsInto op e = false) :
    led op e = .unary op e := by
  fun_cases led op e with
  | case1 e hmeets =>
    rw [runsInto_unary, hmeets] at h
    cases h
  | case2 op' e hmeets _ =>
    rw [runsInto_unary, hmeets] at h
    cases h
  | case3 op' e hmeets => rfl
  | case4 e => rfl

theorem IsExplicit.led {op : UnaryOp} {e : Expr} (hop : op.isPostfix = false)
    (h : e.IsExplicit) (hb : e.needsBrackets = false) : (led op e).IsExplicit := by
  fun_induction Expr.led op e with
  | case1 e hmeets =>
    obtain ⟨he, hb, -⟩ := h.of_leading hop
    exact .leading (UnaryOp.isPostfix_of_meets hmeets).2 he hb
      (runsInto_of_not_meets (UnaryOp.doubled_meets hmeets) e)
  | case2 op' e hmeets hne ih =>
    obtain ⟨hop', -⟩ := UnaryOp.isPostfix_of_meets hmeets
    obtain ⟨he, hb, -⟩ := h.of_leading hop'
    have hends := UnaryOp.doubled_meets hmeets
    rw [← UnaryOp.eq_doubled hmeets hne] at hends
    exact .leading hop' (ih he hb) (needsBrackets_led op e) (runsInto_of_not_meets hends _)
  | case3 op' e hmeets =>
    exact .leading hop h hb ((runsInto_unary op op' e).trans (Bool.eq_false_iff.2 hmeets))
  | case4 e hunary =>
    exact .leading hop h hb (runsInto_of_none op (opening?_of_not_unary hunary))

/-- What is written behind an operand without an operator in front is read
behind it. -/
theorem followed_of_none (behind : Expr → Expr) {e : Expr} (h : e.opening? = none) :
    followed behind e = behind e := by
  fun_cases followed behind e with
  | case1 op e hop => rfl
  | case2 op e hop =>
    rw [opening?_leading (Bool.eq_false_iff.2 hop)] at h
    cases h
  | case3 e => rfl

section Followed

variable {behind : Expr → Expr}

theorem opening?_followed (hopen : ∀ e, (behind e).opening? = none) (e : Expr) :
    (followed behind e).opening? = e.opening? := by
  fun_cases followed behind e with
  | case1 op e hop => rw [hopen, opening?_trailing hop]
  | case2 op e hop =>
    have hop := Bool.eq_false_iff.2 hop
    rw [opening?_leading hop, opening?_leading hop]
  | case3 e hunary => rw [hopen, opening?_of_not_unary hunary]

theorem IsExplicit.followed (hb : ∀ e, (behind e).needsBrackets = false)
    (hopen : ∀ e, (behind e).opening? = none)
    (hbehind : ∀ {e : Expr}, e.IsExplicit → e.needsBrackets = false → e.opening? = none →
      (behind e).IsExplicit)
    {e : Expr} (h : e.IsExplicit) (he : e.needsBrackets = false) :
    (followed behind e).IsExplicit := by
  fun_induction Expr.followed behind e with
  | case1 op e hop => exact hbehind h he (opening?_trailing hop e)
  | case2 op e hop ih =>
    have hop := Bool.eq_false_iff.2 hop
    obtain ⟨hoperand, he, hmeets⟩ := h.of_leading hop
    refine .leading hop (ih hoperand he) (needsBrackets_followed hb e) ?_
    rwa [runsInto, opening?_followed hopen]
  | case3 e hunary => exact hbehind h he (opening?_of_not_unary hunary)

end Followed

theorem isExplicit_readingOfLiteral {value : Literal} (h : value.IsPlain) :
    (readingOfLiteral value).IsExplicit := by
  cases value with
  | float value =>
    obtain ⟨hnumber, hfinite, -⟩ := h
    rw [readingOfLiteral]
    split
    · exact .leading rfl (.literal Binary64.isUnsigned_zero) rfl rfl
    · next hpositive => exact .literal ⟨hnumber, hfinite, Bool.eq_false_iff.2 hpositive⟩
  | int value => exact .literal h
  | _ => exact .literal trivial

theorem isExplicit_readingOfName {name : String} (h : Text.isIdentifier name.toList = true) :
    (readingOfName name).IsExplicit := by
  unfold readingOfName
  split
  · exact .literal trivial
  · next htrue =>
    split
    · exact .literal trivial
    · next hfalse => exact .ident h htrue hfalse

/-- A reading says all that its text says. -/
theorem isExplicit_reading {e : Expr} (h : e.IsPlain) : e.reading.IsExplicit := by
  induction h with
  | ident hname => exact isExplicit_readingOfName hname
  | literal hvalue => exact isExplicit_readingOfLiteral hvalue
  | binary _ _ hlhs hrhs =>
    exact .binary hlhs.closed hrhs.closed (needsBrackets_closed _) (needsBrackets_closed _)
  | @unary op operand _ hoperand =>
    rw [reading]
    split
    · next hop =>
      exact .followed (fun _ => rfl) (opening?_trailing hop) (.trailing hop) hoperand.closed
        (needsBrackets_closed _)
    · next hop =>
      exact .led (Bool.eq_false_iff.2 hop) hoperand.closed (needsBrackets_closed _)
  | member _ hname hbase =>
    exact .followed (fun _ => rfl) (fun _ => rfl) (fun h hb hopen => .member h hb hopen hname)
      hbase.closed (needsBrackets_closed _)
  | index _ _ hbase hposition =>
    exact .followed (fun _ => rfl) (fun _ => rfl) (fun h hb hopen => .index h hb hopen hposition)
      hbase.closed (needsBrackets_closed _)
  | call hcallee _ hargs =>
    rw [reading, readingAll_eq_map]
    refine .call hcallee fun arg harg => ?_
    obtain ⟨e, he, rfl⟩ := List.mem_map.1 harg
    exact hargs e he
  | ternary _ _ _ hcond hthen helse =>
    exact .ternary hcond.closed hthen.closed helse.closed (needsBrackets_closed _)
      (needsBrackets_closed _) (needsBrackets_closed _)
  | paren _ hinner => exact .paren hinner

/-! ## Legible expressions -/

/-- An expression whose text says its shape: no name of it is a constant and no
constant has a sign, no sign stands in front of the same sign, and nothing is
written behind an operand with an operator in front. -/
inductive Legible : Expr → Prop
  | ident {name : String} (htrue : name ≠ "true") (hfalse : name ≠ "false") :
      Legible (.ident name)
  | literal {value : Literal} (hvalue : value.IsUnsigned) : Legible (.literal value)
  | binary {op : BinaryOp} {lhs rhs : Expr} (hlhs : Legible lhs) (hrhs : Legible rhs) :
      Legible (.binary op lhs rhs)
  | leading {op : UnaryOp} {operand : Expr} (hop : op.isPostfix = false)
      (hoperand : Legible operand) (hmeets : runsInto op operand = false) :
      Legible (.unary op operand)
  | trailing {op : UnaryOp} {operand : Expr} (hop : op.isPostfix = true)
      (hoperand : Legible operand) (hopen : operand.opening? = none) :
      Legible (.unary op operand)
  | member {base : Expr} {name : String} (hbase : Legible base) (hopen : base.opening? = none) :
      Legible (.member base name)
  | index {base position : Expr} (hbase : Legible base) (hopen : base.opening? = none)
      (hposition : Legible position) : Legible (.index base position)
  | call {callee : String} {args : List Expr} (hargs : ∀ arg ∈ args, Legible arg) :
      Legible (.call callee args)
  | ternary {cond thenExpr elseExpr : Expr} (hcond : Legible cond) (hthen : Legible thenExpr)
      (helse : Legible elseExpr) : Legible (.ternary cond thenExpr elseExpr)
  | paren {inner : Expr} (hinner : Legible inner) : Legible (.paren inner)

theorem unbracketed_closed (e : Expr) : e.closed.unbracketed = e.unbracketed := by
  unfold closed
  split <;> rfl

theorem unbracketedAll_eq_map (es : List Expr) : unbracketedAll es = es.map unbracketed := by
  induction es with
  | nil => rfl
  | cons e es ih => rw [unbracketedAll, ih, List.map_cons]

theorem reading_of_unsigned {value : Literal} (h : value.IsUnsigned) :
    readingOfLiteral value = .literal value := by
  cases value with
  | float value =>
    rw [readingOfLiteral, h.positive]
    rfl
  | _ => rfl

/-- The reading of a legible expression differs from it in brackets only. -/
theorem Legible.reading_eq {e : Expr} (h : e.Legible) :
    e.reading.unbracketed = e.unbracketed ∧ e.reading.opening? = e.opening? := by
  induction h with
  | ident htrue hfalse =>
    rw [reading, readingOfName, if_neg htrue, if_neg hfalse]
    exact ⟨rfl, rfl⟩
  | literal hvalue =>
    rw [reading, reading_of_unsigned hvalue]
    exact ⟨rfl, rfl⟩
  | binary _ _ hlhs hrhs =>
    refine ⟨?_, rfl⟩
    rw [reading, unbracketed, unbracketed_closed, unbracketed_closed, hlhs.1, hrhs.1, unbracketed]
  | leading hop _ hmeets hoperand =>
    have hclosed := (opening?_closed _).trans hoperand.2
    rw [runsInto, ← hclosed] at hmeets
    rw [reading, hop, if_neg Bool.false_ne_true, led_of_not hmeets, unbracketed,
      unbracketed_closed, hoperand.1, opening?_leading hop, opening?_leading hop]
    exact ⟨rfl, rfl⟩
  | trailing hop _ hopen hoperand =>
    have hclosed := (opening?_closed _).trans (hoperand.2.trans hopen)
    rw [reading, if_pos hop, followed_of_none _ hclosed, unbracketed, unbracketed_closed,
      hoperand.1, opening?_trailing hop, opening?_trailing hop]
    exact ⟨rfl, rfl⟩
  | member _ hopen hbase =>
    have hclosed := (opening?_closed _).trans (hbase.2.trans hopen)
    rw [reading, followed_of_none _ hclosed, unbracketed, unbracketed_closed, hbase.1]
    exact ⟨rfl, rfl⟩
  | index _ hopen _ hbase hposition =>
    have hclosed := (opening?_closed _).trans (hbase.2.trans hopen)
    rw [reading, followed_of_none _ hclosed, unbracketed, unbracketed_closed, hbase.1,
      hposition.1]
    exact ⟨rfl, rfl⟩
  | call _ hargs =>
    refine ⟨?_, rfl⟩
    have hall := List.map_congr_left fun arg harg => (hargs arg harg).1
    rw [reading, unbracketed, unbracketedAll_eq_map, readingAll_eq_map, List.map_map, unbracketed,
      unbracketedAll_eq_map]
    exact congrArg (Expr.call _) hall
  | ternary _ _ _ hcond hthen helse =>
    refine ⟨?_, rfl⟩
    rw [reading, unbracketed, unbracketed_closed, unbracketed_closed, unbracketed_closed,
      hcond.1, hthen.1, helse.1, unbracketed]
  | paren _ hinner => exact ⟨hinner.1, rfl⟩

end ShaderMorph.Expr
