-- What the text of an expression says about its shape. Brackets are written
-- around the operators between operands and around nothing else, so the
-- operators in front of an operand run together: a minus sign before another
-- one is a decrement, and what is written behind an operand belongs to it
-- before any operator in front does. The reading of an expression is the
-- expression that its text stands for when all of this is taken at its word.
import ShaderMorph.Shader.Render
import ShaderMorph.Proofs.Number.Decimals
import ShaderMorph.Text.Identifier

namespace ShaderMorph

/-! ## The expressions of a program -/

/-- A constant that a program can have: no negative integer, and no float
below zero, infinite or without a value. The zero with a minus sign is equal
to zero. -/
def Literal.IsPlain : Literal → Prop
  | .bool _ => True
  | .int value => 0 ≤ value
  | .uint _ => True
  | .float value =>
    value.isNaN = false ∧ value.isInfinite = false ∧
      (value.isNegative = true → value.isZero = true)

/-- A constant that is written without a minus sign. -/
def Literal.IsUnsigned : Literal → Prop
  | .int value => 0 ≤ value
  | .float value => value.IsUnsigned
  | _ => True

namespace UnaryOp

/-- Whether an operator right in front of another one is read together with
its start: the signs, in front of the same sign and of what is two of it. -/
def meets : UnaryOp → UnaryOp → Bool
  | .neg, .neg => true
  | .neg, .preDec => true
  | .plus, .plus => true
  | .plus, .preInc => true
  | _, _ => false

/-- What two of a sign are. -/
def doubled : UnaryOp → UnaryOp
  | .neg => .preDec
  | .plus => .preInc
  | op => op

variable {op op' : UnaryOp}

theorem symbol_doubled (h : op.meets op = true) : op.doubled.symbol = op.symbol ++ op.symbol := by
  cases op with
  | neg => rfl
  | plus => rfl
  | _ => cases h

/-- Operators that are read together are read alike in either order. -/
theorem symbol_comm (h : op.meets op' = true) :
    op.symbol ++ op'.symbol = op'.symbol ++ op.symbol := by
  unfold meets at h
  split at h <;> first | rfl | cases h

theorem eq_doubled (h : op.meets op' = true) (hne : op' ≠ op) : op' = op.doubled := by
  unfold meets at h
  split at h
  · exact absurd rfl hne
  · rfl
  · exact absurd rfl hne
  · rfl
  · cases h

/-- What two of a sign are is never the start of something longer. -/
theorem doubled_meets (h : op.meets op' = true) (next : UnaryOp) :
    op.doubled.meets next = false := by
  cases op with
  | neg => rfl
  | plus => rfl
  | _ => cases h

theorem isPostfix_of_meets (h : op.meets op' = true) :
    op'.isPostfix = false ∧ op.doubled.isPostfix = false := by
  unfold meets at h
  split at h <;> first | exact ⟨rfl, rfl⟩ | cases h

end UnaryOp

namespace Expr

/-- All names in the expression are identifiers, and its constants are
plain. -/
inductive IsPlain : Expr → Prop
  | ident {name : String} (hname : Text.isIdentifier name.toList = true) : IsPlain (.ident name)
  | literal {value : Literal} (hvalue : value.IsPlain) : IsPlain (.literal value)
  | binary {op : BinaryOp} {lhs rhs : Expr} (hlhs : IsPlain lhs) (hrhs : IsPlain rhs) :
      IsPlain (.binary op lhs rhs)
  | unary {op : UnaryOp} {operand : Expr} (hoperand : IsPlain operand) :
      IsPlain (.unary op operand)
  | member {base : Expr} {name : String} (hbase : IsPlain base)
      (hname : Text.isIdentifier name.toList = true) : IsPlain (.member base name)
  | index {base position : Expr} (hbase : IsPlain base) (hposition : IsPlain position) :
      IsPlain (.index base position)
  | call {callee : String} {args : List Expr} (hcallee : Text.isIdentifier callee.toList = true)
      (hargs : ∀ arg ∈ args, IsPlain arg) : IsPlain (.call callee args)
  | ternary {cond thenExpr elseExpr : Expr} (hcond : IsPlain cond) (hthen : IsPlain thenExpr)
      (helse : IsPlain elseExpr) : IsPlain (.ternary cond thenExpr elseExpr)
  | paren {inner : Expr} (hinner : IsPlain inner) : IsPlain (.paren inner)

mutual

/-- The expression without its brackets. -/
def unbracketed : Expr → Expr
  | .ident name => .ident name
  | .literal value => .literal value
  | .binary op lhs rhs => .binary op lhs.unbracketed rhs.unbracketed
  | .unary op operand => .unary op operand.unbracketed
  | .member base name => .member base.unbracketed name
  | .index base position => .index base.unbracketed position.unbracketed
  | .call callee args => .call callee (unbracketedAll args)
  | .ternary cond thenExpr elseExpr =>
    .ternary cond.unbracketed thenExpr.unbracketed elseExpr.unbracketed
  | .paren inner => inner.unbracketed

def unbracketedAll : List Expr → List Expr
  | [] => []
  | e :: es => e.unbracketed :: unbracketedAll es

end

/-! ## Operators in front -/

/-- The operator that stands in front of everything else of an expression. -/
def opening? : Expr → Option UnaryOp
  | .unary op _ => if op.isPostfix then none else some op
  | _ => none

/-- A sign in front of an operand that starts with the same sign. -/
def runsInto (op : UnaryOp) (e : Expr) : Bool := e.opening?.any op.meets

/-- An operator in front of an operand, as it is read: two signs are one
operator, from the left. -/
def led (op : UnaryOp) : Expr → Expr
  | .unary op' e =>
    if op.meets op' then if op' = op then .unary op.doubled e else .unary op' (led op e)
    else .unary op (.unary op' e)
  | e => .unary op e

/-- What is written behind an operand, as it is read: below the operators in
front of the operand. -/
def followed (behind : Expr → Expr) : Expr → Expr
  | .unary op e => if op.isPostfix then behind (.unary op e) else .unary op (followed behind e)
  | e => behind e

/-! ## The reading -/

/-- The expression in brackets where it gets them as an operand. -/
def closed (e : Expr) : Expr := if e.needsBrackets then .paren e else e

/-- A constant as it is read. A minus sign is an operator. -/
def readingOfLiteral : Literal → Expr
  | .float value =>
    if value.isNegative then .unary .neg (.literal (.float ⟨0⟩)) else .literal (.float value)
  | value => .literal value

/-- A name as it is read. Two of them are constants. -/
def readingOfName (name : String) : Expr :=
  if name = "true" then .literal (.bool true)
  else if name = "false" then .literal (.bool false)
  else .ident name

mutual

/-- What the text of an expression stands for. -/
def reading : Expr → Expr
  | .ident name => readingOfName name
  | .literal value => readingOfLiteral value
  | .binary op lhs rhs => .binary op lhs.reading.closed rhs.reading.closed
  | .unary op operand =>
    if op.isPostfix then followed (.unary op) operand.reading.closed
    else led op operand.reading.closed
  | .member base name => followed (.member · name) base.reading.closed
  | .index base position => followed (.index · position.reading) base.reading.closed
  | .call callee args => .call callee (readingAll args)
  | .ternary cond thenExpr elseExpr =>
    .ternary cond.reading.closed thenExpr.reading.closed elseExpr.reading.closed
  | .paren inner => .paren inner.reading

def readingAll : List Expr → List Expr
  | [] => []
  | e :: es => e.reading :: readingAll es

end

/-! ## The texts of the forms -/

theorem closed_of_not {e : Expr} (h : e.needsBrackets = false) : e.closed = e := by
  rw [closed, h]
  rfl

theorem needsBrackets_closed (e : Expr) : e.closed.needsBrackets = false := by
  unfold closed
  split
  · rfl
  · next h => exact Bool.eq_false_iff.2 h

theorem closed_closed (e : Expr) : e.closed.closed = e.closed :=
  closed_of_not (needsBrackets_closed e)

theorem closed_unary (op : UnaryOp) (e : Expr) : (Expr.unary op e).closed = .unary op e := rfl

theorem text_closed (e : Expr) : e.closed.text = e.bracketed e.text := by
  unfold closed bracketed
  split <;> rfl

theorem text_leading {op : UnaryOp} (hop : op.isPostfix = false) (e : Expr) :
    (Expr.unary op e).text = op.symbol ++ e.closed.text := by
  rw [text, hop, text_closed]
  rfl

theorem text_trailing {op : UnaryOp} (hop : op.isPostfix = true) (e : Expr) :
    (Expr.unary op e).text = e.closed.text ++ op.symbol := by
  rw [text, hop, text_closed]
  rfl

theorem text_binary (op : BinaryOp) (lhs rhs : Expr) :
    (Expr.binary op lhs rhs).text =
      lhs.closed.text ++ " " ++ op.symbol ++ " " ++ rhs.closed.text := by
  rw [text, text_closed, text_closed]

theorem text_member (base : Expr) (name : String) :
    (Expr.member base name).text = base.closed.text ++ ("." ++ name) := by
  rw [text, text_closed, String.append_assoc]

theorem text_index (base position : Expr) :
    (Expr.index base position).text = base.closed.text ++ ("[" ++ position.text ++ "]") := by
  rw [text, text_closed, String.append_assoc, String.append_assoc, String.append_assoc]

theorem text_ternary (cond thenExpr elseExpr : Expr) :
    (Expr.ternary cond thenExpr elseExpr).text =
      cond.closed.text ++ " ? " ++ thenExpr.closed.text ++ " : " ++ elseExpr.closed.text := by
  rw [text, text_closed, text_closed, text_closed]

/-! ## The reading has the same text -/

theorem needsBrackets_led (op : UnaryOp) (e : Expr) : (led op e).needsBrackets = false := by
  fun_cases led op e <;> rfl

theorem text_led {op : UnaryOp} (hop : op.isPostfix = false) (e : Expr) :
    (led op e).text = op.symbol ++ e.closed.text := by
  fun_induction led op e with
  | case1 e hmeets =>
    obtain ⟨-, hdoubled⟩ := UnaryOp.isPostfix_of_meets hmeets
    rw [text_leading hdoubled, closed_unary, text_leading hop, UnaryOp.symbol_doubled hmeets,
      String.append_assoc]
  | case2 op' e hmeets _ ih =>
    obtain ⟨hop', -⟩ := UnaryOp.isPostfix_of_meets hmeets
    rw [text_leading hop', closed_of_not (needsBrackets_led _ _), ih, closed_unary,
      text_leading hop', ← String.append_assoc, ← UnaryOp.symbol_comm hmeets,
      String.append_assoc]
  | case3 op' e hmeets => exact text_leading hop _
  | case4 e => exact text_leading hop e

section Followed

variable {behind : Expr → Expr} {suffix : String}

theorem needsBrackets_followed (hbehind : ∀ e, (behind e).needsBrackets = false) (e : Expr) :
    (followed behind e).needsBrackets = false := by
  fun_cases followed behind e with
  | case1 op e hop => exact hbehind _
  | case2 op e hop => rfl
  | case3 e => exact hbehind _

theorem text_followed (hbehind : ∀ e, (behind e).needsBrackets = false)
    (htext : ∀ e, (behind e).text = e.closed.text ++ suffix) (e : Expr) :
    (followed behind e).text = e.closed.text ++ suffix := by
  fun_induction followed behind e with
  | case1 op e hop => exact htext _
  | case2 op e hop ih =>
    rw [text_leading (Bool.eq_false_iff.2 hop), closed_of_not (needsBrackets_followed hbehind e),
      ih, closed_unary, text_leading (Bool.eq_false_iff.2 hop), String.append_assoc]
  | case3 e => exact htext _

end Followed

theorem readingAll_eq_map (es : List Expr) : readingAll es = es.map reading := by
  induction es with
  | nil => rfl
  | cons e es ih => rw [readingAll, ih, List.map_cons]

theorem textAll_cons_cons (e e' : Expr) (es : List Expr) :
    textAll (e :: e' :: es) = e.text ++ ", " ++ textAll (e' :: es) := rfl

theorem textAll_map {es : List Expr} {f : Expr → Expr} (h : ∀ e ∈ es, (f e).text = e.text) :
    textAll (es.map f) = textAll es := by
  induction es with
  | nil => rfl
  | cons e es ih =>
    obtain ⟨he, hes⟩ := List.forall_mem_cons.1 h
    cases es with
    | nil => exact he
    | cons e' es =>
      rw [List.map_cons, List.map_cons, textAll_cons_cons, he, ← List.map_cons, ih hes,
        textAll_cons_cons]

theorem text_readingOfLiteral {value : Literal} (h : value.IsPlain) :
    (readingOfLiteral value).text = value.text := by
  cases value with
  | float value =>
    obtain ⟨hnumber, hfinite, hzero⟩ := h
    rw [readingOfLiteral]
    split
    · next hnegative =>
      rw [text_leading rfl, Literal.text,
        Binary64.text_of_negative hnumber hfinite hnegative,
        Binary64.magnitudeText_of_isZero (hzero hnegative)]
      exact congrArg ("-" ++ ·) Binary64.text_zero
    · rfl
  | _ => rfl

theorem needsBrackets_readingOfLiteral (value : Literal) :
    (readingOfLiteral value).needsBrackets = false := by
  fun_cases readingOfLiteral value <;> rfl

theorem text_readingOfName (name : String) : (readingOfName name).text = name := by
  unfold readingOfName
  split
  · next h => exact h.symm
  · split
    · next h => exact h.symm
    · rfl

theorem needsBrackets_readingOfName (name : String) :
    (readingOfName name).needsBrackets = false := by
  unfold readingOfName
  split
  · rfl
  · split <;> rfl

theorem needsBrackets_reading (e : Expr) : e.reading.needsBrackets = e.needsBrackets := by
  cases e with
  | ident name => exact needsBrackets_readingOfName name
  | literal value => exact needsBrackets_readingOfLiteral value
  | unary op operand =>
    rw [reading]
    split
    · exact needsBrackets_followed (fun _ => rfl) _
    · exact needsBrackets_led _ _
  | member base name => exact needsBrackets_followed (fun _ => rfl) _
  | index base position => exact needsBrackets_followed (fun _ => rfl) _
  | _ => rfl

/-- Where an operand is read as an expression with its text, it is written with
the same text. -/
theorem text_closed_reading {e : Expr} (h : e.reading.text = e.text) :
    e.reading.closed.text = e.closed.text := by
  rw [text_closed, text_closed, h, bracketed, bracketed, needsBrackets_reading]

/-- An expression and its reading have one text. -/
theorem text_reading {e : Expr} (h : e.IsPlain) : e.reading.text = e.text := by
  induction h with
  | ident _ => exact text_readingOfName _
  | literal hvalue => exact text_readingOfLiteral hvalue
  | binary _ _ hlhs hrhs =>
    rw [reading, text_binary, text_binary, closed_closed, closed_closed,
      text_closed_reading hlhs, text_closed_reading hrhs]
  | @unary op operand _ hoperand =>
    rw [reading]
    split
    · next hop =>
      rw [text_followed (fun _ => rfl) (text_trailing hop), closed_closed,
        text_closed_reading hoperand, text_trailing hop]
    · next hop =>
      have hop := Bool.eq_false_iff.2 hop
      rw [text_led hop, closed_closed, text_closed_reading hoperand, text_leading hop]
  | member _ _ hbase =>
    rw [reading, text_followed (fun _ => rfl) (text_member · _), closed_closed,
      text_closed_reading hbase, text_member]
  | index _ _ hbase hposition =>
    rw [reading, text_followed (fun _ => rfl) (text_index · _), closed_closed,
      text_closed_reading hbase, hposition, text_index]
  | call _ _ hargs => rw [reading, text, text, readingAll_eq_map, textAll_map hargs]
  | ternary _ _ _ hcond hthen helse =>
    rw [reading, text_ternary, text_ternary, closed_closed, closed_closed, closed_closed,
      text_closed_reading hcond, text_closed_reading hthen, text_closed_reading helse]
  | paren _ hinner => rw [reading, text, text, hinner]

example : (Expr.member (.unary .neg (.ident "x")) "y").reading =
    .unary .neg (.member (.ident "x") "y") := rfl

end Expr

end ShaderMorph
