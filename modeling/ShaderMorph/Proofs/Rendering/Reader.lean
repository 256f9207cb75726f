-- The text of an expression read back. The reader goes down the text with
-- fuel: an operand is an operator and its operand, or a name, a constant, a
-- call or an expression in brackets with what is written behind it, and an
-- expression is an operand or operands with operators between them. From the
-- text of an expression that says all that its text says, the reader gets that
-- expression.
import ShaderMorph.Proofs.Rendering.Atoms

namespace ShaderMorph

/-! ## Operators in a text -/

/-- The operator in front of a text and the text behind it. Of two operators
that a text starts with, the longer one is meant. -/
def UnaryOp.read? : List Char → Option (UnaryOp × List Char)
  | '-' :: '-' :: rest => some (.preDec, rest)
  | '-' :: rest => some (.neg, rest)
  | '+' :: '+' :: rest => some (.preInc, rest)
  | '+' :: rest => some (.plus, rest)
  | '!' :: rest => some (.not, rest)
  | '~' :: rest => some (.bitNot, rest)
  | _ => none

/-- The operator with this symbol. -/
def BinaryOp.ofSymbol? (symbol : List Char) : Option BinaryOp :=
  BinaryOp.all.find? (·.symbol.toList = symbol)

namespace Expr

/-! ## The reader -/

section Reader

variable (atom : List Char → Expr)

mutual

/-- The operand at the front of a text, and the text behind it. -/
def readOperand : Nat → List Char → Option (Expr × List Char)
  | 0, _ => none
  | fuel + 1, text =>
    match UnaryOp.read? text with
    | some (op, rest) =>
      match readOperand fuel rest with
      | some (e, rest) => some (.unary op e, rest)
      | none => none
    | none =>
      match text with
      | '(' :: rest =>
        match readExpr fuel rest with
        | some (e, ')' :: rest) => readBehind fuel (.paren e) rest
        | _ => none
      | _ =>
        match Text.readAtom text with
        | (name, '(' :: rest) =>
          match readArgs fuel rest with
          | some (args, rest) => readBehind fuel (.call (String.ofList name) args) rest
          | none => none
        | (name, rest) => readBehind fuel (atom name) rest

/-- What is written behind an operand. -/
def readBehind : Nat → Expr → List Char → Option (Expr × List Char)
  | 0, _, _ => none
  | fuel + 1, e, text =>
    match text with
    | '.' :: rest =>
      match Text.readWord rest with
      | (name, rest) => readBehind fuel (.member e (String.ofList name)) rest
    | '[' :: rest =>
      match readExpr fuel rest with
      | some (position, ']' :: rest) => readBehind fuel (.index e position) rest
      | _ => none
    | '+' :: '+' :: rest => readBehind fuel (.unary .postInc e) rest
    | '-' :: '-' :: rest => readBehind fuel (.unary .postDec e) rest
    | _ => some (e, text)

/-- The expression at the front of a text, and the text behind it. -/
def readExpr : Nat → List Char → Option (Expr × List Char)
  | 0, _ => none
  | fuel + 1, text =>
    match readOperand fuel text with
    | some (lhs, ' ' :: rest) => readBetween fuel lhs rest
    | answer => answer

/-- What is written behind an operand and a space. -/
def readBetween : Nat → Expr → List Char → Option (Expr × List Char)
  | 0, _, _ => none
  | fuel + 1, lhs, text =>
    match text with
    | '?' :: ' ' :: rest =>
      match readOperand fuel rest with
      | some (thenExpr, ' ' :: ':' :: ' ' :: rest) =>
        match readOperand fuel rest with
        | some (elseExpr, rest) => some (.ternary lhs thenExpr elseExpr, rest)
        | none => none
      | _ => none
    | _ =>
      match BinaryOp.ofSymbol? (text.takeWhile (· ≠ ' ')) with
      | some op =>
        match readOperand fuel ((text.dropWhile (· ≠ ' ')).drop 1) with
        | some (rhs, rest) => some (.binary op lhs rhs, rest)
        | none => none
      | none => none

/-- The arguments of a call, up to the bracket that closes it. -/
def readArgs : Nat → List Char → Option (List Expr × List Char)
  | 0, _ => none
  | fuel + 1, text =>
    match text with
    | ')' :: rest => some ([], rest)
    | _ =>
      match readExpr fuel text with
      | some (e, ')' :: rest) => some ([e], rest)
      | some (e, ',' :: ' ' :: rest) =>
        match readArgs fuel rest with
        | some (es, rest) => some (e :: es, rest)
        | none => none
      | _ => none

end

end Reader

/-! ## Enough fuel -/

/-- What holds with any amount of fuel that is large enough. -/
def Enough (P : Nat → Prop) : Prop := ∃ n, ∀ fuel, n ≤ fuel → P fuel

namespace Enough

variable {P Q : Nat → Prop}

theorem of_succ (h : ∀ fuel, P (fuel + 1)) : Enough P := by
  refine ⟨1, fun fuel hfuel => ?_⟩
  obtain ⟨fuel, rfl⟩ := Nat.exists_eq_succ_of_ne_zero (Nat.ne_of_gt hfuel)
  exact h fuel

theorem and (hp : Enough P) (hq : Enough Q) : Enough fun fuel => P fuel ∧ Q fuel := by
  obtain ⟨n, hn⟩ := hp
  obtain ⟨m, hm⟩ := hq
  exact ⟨max n m, fun fuel hfuel =>
    ⟨hn fuel (Nat.le_trans (Nat.le_max_left n m) hfuel),
      hm fuel (Nat.le_trans (Nat.le_max_right n m) hfuel)⟩⟩

/-- One more step takes one more unit of fuel. -/
theorem step (hp : Enough P) (h : ∀ fuel, P fuel → Q (fuel + 1)) : Enough Q := by
  obtain ⟨n, hn⟩ := hp
  refine ⟨n + 1, fun fuel hfuel => ?_⟩
  have hpos : fuel ≠ 0 := Nat.ne_of_gt (Nat.lt_of_lt_of_le n.succ_pos hfuel)
  obtain ⟨fuel, rfl⟩ := Nat.exists_eq_succ_of_ne_zero hpos
  exact h fuel (hn fuel (Nat.le_of_succ_le_succ hfuel))

theorem exists_fuel (hp : Enough P) : ∃ fuel, P fuel :=
  hp.imp fun n hn => hn n (Nat.le_refl n)

end Enough

/-! ## What stands behind an expression -/

/-- What stands behind an operand with all that is written behind it. -/
def Stops (rest : List Char) : Prop := ∀ c ∈ rest.head?, c = ' ' ∨ c = ')' ∨ c = ']' ∨ c = ','

/-- What stands behind a whole expression. -/
def Closes (rest : List Char) : Prop := ∀ c ∈ rest.head?, c = ')' ∨ c = ']' ∨ c = ','

theorem closes_nil : Closes [] := fun _ hc => nomatch hc

theorem closes_cons {c : Char} (rest : List Char) (hc : c = ')' ∨ c = ']' ∨ c = ',') :
    Closes (c :: rest) := by
  rintro d ⟨⟩
  exact hc

theorem stops_space (rest : List Char) : Stops (' ' :: rest) := by
  rintro c ⟨⟩
  exact .inl rfl

theorem Closes.stops {rest : List Char} (h : Closes rest) : Stops rest :=
  fun c hc => .inr (h c hc)

theorem Stops.follows {rest : List Char} (h : Stops rest) : Text.Follows rest := by
  cases rest with
  | nil => exact Text.follows_nil
  | cons c rest =>
    rcases h c rfl with rfl | rfl | rfl | rfl <;> exact Text.follows_cons rest rfl (by decide)

/-- What stands behind an operand that more can be written behind. -/
structure CanFollow (rest : List Char) : Prop where
  follows : Text.Follows rest
  noCall : rest.head? ≠ some '('

theorem canFollow_cons {c : Char} (rest : List Char) (hc : Text.continuesIdentifier c = false)
    (hcall : c ≠ '(') (hpoint : c ≠ '.') : CanFollow (c :: rest) where
  follows := Text.follows_cons rest hc hpoint
  noCall h := hcall (Option.some.inj h)

theorem canFollow_member {name : List Char} (h : Text.isIdentifier name = true)
    (rest : List Char) : CanFollow ('.' :: (name ++ rest)) where
  follows := Text.follows_member h rest
  noCall hcall := absurd (Option.some.inj hcall) (by decide)

theorem canFollow_trailing {op : UnaryOp} (hop : op.isPostfix = true) (rest : List Char) :
    CanFollow (op.symbol.toList ++ rest) := by
  cases op with
  | postInc => exact canFollow_cons _ rfl (by decide) (by decide)
  | postDec => exact canFollow_cons _ rfl (by decide) (by decide)
  | _ => cases hop

theorem Stops.canFollow {rest : List Char} (h : Stops rest) : CanFollow rest where
  follows := h.follows
  noCall hcall := by
    rcases h '(' hcall with heq | heq | heq | heq <;> exact absurd heq (by decide)

/-- What can stand at the front of an operand that no operator stands in front
of. -/
def StartsOperand (c : Char) : Prop := Text.continuesIdentifier c = true ∨ c = '('

theorem StartsOperand.ne {c d : Char} (h : StartsOperand c)
    (hd : Text.continuesIdentifier d = false) (hcall : d ≠ '(') : c ≠ d := by
  rintro rfl
  rcases h with h | h
  · exact Bool.eq_false_iff.1 hd h
  · exact hcall h

end Expr

/-! ## Steps of the reader -/

section Operators

variable {op op' : UnaryOp} {c : Char} {rest : List Char}

theorem UnaryOp.read?_start (hc : Expr.StartsOperand c) : UnaryOp.read? (c :: rest) = none := by
  unfold UnaryOp.read?
  split <;> first
    | rfl
    | next heq => exact absurd (List.cons.inj heq).1 (hc.ne rfl (by decide))

/-- An operator is read in front of an operand that starts with none. -/
theorem UnaryOp.read?_symbol (hop : op.isPostfix = false) (hc : Expr.StartsOperand c) :
    UnaryOp.read? (op.symbol.toList ++ c :: rest) = some (op, c :: rest) := by
  have hminus : c ≠ '-' := hc.ne rfl (by decide)
  have hplus : c ≠ '+' := hc.ne rfl (by decide)
  cases op with
  | neg =>
    change UnaryOp.read? ('-' :: c :: rest) = _
    rw [UnaryOp.read?]
    exact fun _ heq => hminus (List.cons.inj heq).1
  | plus =>
    change UnaryOp.read? ('+' :: c :: rest) = _
    rw [UnaryOp.read?]
    exact fun _ heq => hplus (List.cons.inj heq).1
  | postInc => cases hop
  | postDec => cases hop
  | _ => rfl

/-- An operator is read in front of another one that it is not read together
with. -/
theorem UnaryOp.read?_symbol_symbol (hop : op.isPostfix = false) (hop' : op'.isPostfix = false)
    (hmeets : op.meets op' = false) :
    UnaryOp.read? (op.symbol.toList ++ (op'.symbol.toList ++ rest)) =
      some (op, op'.symbol.toList ++ rest) := by
  cases op <;> cases op' <;> first | rfl | contradiction

theorem BinaryOp.ofSymbol?_symbol (op : BinaryOp) :
    BinaryOp.ofSymbol? op.symbol.toList = some op := by
  cases op <;> decide

theorem BinaryOp.noSpace_symbol (op : BinaryOp) :
    ∀ c ∈ op.symbol.toList, decide (c ≠ ' ') = true := by
  have hall : op.symbol.toList.all (fun c => decide (c ≠ ' ')) = true := by cases op <;> rfl
  exact List.all_eq_true.1 hall

theorem BinaryOp.symbol_ne_question (op : BinaryOp) (rest text : List Char) :
    op.symbol.toList ++ rest ≠ '?' :: text := by
  cases op <;> exact fun heq => absurd (List.cons.inj heq).1 (by decide)

end Operators

namespace Expr

section Steps

variable {atom : List Char → Expr} {fuel : Nat} {e : Expr} {text rest : List Char}

theorem readOperand_leading {op : UnaryOp} {behind : List Char}
    (hop : UnaryOp.read? text = some (op, behind))
    (h : readOperand atom fuel behind = some (e, rest)) :
    readOperand atom (fuel + 1) text = some (.unary op e, rest) := by
  rw [readOperand.eq_def]
  dsimp only
  rw [hop]
  dsimp only
  rw [h]

theorem readOperand_paren (h : readExpr atom fuel text = some (e, ')' :: rest)) :
    readOperand atom (fuel + 1) ('(' :: text) = readBehind atom fuel (.paren e) rest := by
  rw [readOperand, UnaryOp.read?_start (.inr rfl)]
  dsimp only
  rw [h]
  rfl

/-- An operand that starts like a name is a name, a constant or a call. -/
theorem readOperand_word {c : Char} (hc : Text.continuesIdentifier c = true) :
    readOperand atom (fuel + 1) (c :: text) =
      match Text.readAtom (c :: text) with
      | (name, '(' :: rest) =>
        match readArgs atom fuel rest with
        | some (args, rest) => readBehind atom fuel (.call (String.ofList name) args) rest
        | none => none
      | (name, rest) => readBehind atom fuel (atom name) rest := by
  rw [readOperand.eq_def]
  dsimp only
  rw [UnaryOp.read?_start (.inl hc)]
  dsimp only
  split
  · next heq =>
    rw [(List.cons.inj heq).1] at hc
    cases hc
  · rfl

theorem readOperand_call {callee : String} {args : List Expr}
    (hcallee : Text.isIdentifier callee.toList = true)
    (h : readArgs atom fuel text = some (args, rest)) :
    readOperand atom (fuel + 1) (callee.toList ++ '(' :: text) =
      readBehind atom fuel (.call callee args) rest := by
  have hatom := Text.readAtom_append (Text.isAtom_of_isIdentifier hcallee)
    (Text.follows_cons text (c := '(') rfl (by decide))
  obtain ⟨c, name, hname⟩ := List.exists_cons_of_ne_nil (Text.ne_nil_of_isIdentifier hcallee)
  have hc := Text.forall_of_isIdentifier hcallee c (hname ▸ List.mem_cons_self)
  rw [hname, List.cons_append] at hatom ⊢
  rw [readOperand_word hc, hatom]
  change (match readArgs atom fuel text with
    | some (args, rest) => readBehind atom fuel (.call (String.ofList (c :: name)) args) rest
    | none => none) = _
  rw [h, ← hname, String.ofList_toList]

theorem readOperand_atom (h : Text.IsAtom text) (hrest : CanFollow rest) :
    readOperand atom (fuel + 1) (text ++ rest) = readBehind atom fuel (atom text) rest := by
  have hatom := Text.readAtom_append h hrest.follows
  obtain ⟨c, tail, rfl, hc⟩ := h.exists_cons
  rw [List.cons_append] at hatom ⊢
  rw [readOperand_word hc, hatom]
  split
  · next heq =>
    obtain ⟨-, rfl⟩ := Prod.mk.inj heq
    exact absurd rfl hrest.noCall
  · next heq =>
    obtain ⟨rfl, rfl⟩ := Prod.mk.inj heq
    rfl

theorem readBehind_stop (h : Stops rest) : readBehind atom (fuel + 1) e rest = some (e, rest) := by
  rw [readBehind.eq_def]
  dsimp only
  split
  · exact absurd (h _ rfl) (by decide)
  · exact absurd (h _ rfl) (by decide)
  · exact absurd (h _ rfl) (by decide)
  · exact absurd (h _ rfl) (by decide)
  · rfl

theorem readBehind_member {name : String} (hname : Text.isIdentifier name.toList = true)
    (hrest : Text.Follows rest) :
    readBehind atom (fuel + 1) e ('.' :: (name.toList ++ rest)) =
      readBehind atom fuel (.member e name) rest := by
  rw [readBehind, Text.readWord_append (Text.forall_of_isIdentifier hname) hrest.ends]
  dsimp only
  rw [String.ofList_toList]

theorem readBehind_index {position : Expr}
    (h : readExpr atom fuel text = some (position, ']' :: rest)) :
    readBehind atom (fuel + 1) e ('[' :: text) = readBehind atom fuel (.index e position) rest := by
  rw [readBehind, h]
  rfl

theorem readBehind_trailing {op : UnaryOp} (hop : op.isPostfix = true) :
    readBehind atom (fuel + 1) e (op.symbol.toList ++ rest) =
      readBehind atom fuel (.unary op e) rest := by
  cases op with
  | postInc => rfl
  | postDec => rfl
  | _ => cases hop

theorem readExpr_operand (h : readOperand atom fuel text = some (e, rest)) (hrest : Closes rest) :
    readExpr atom (fuel + 1) text = some (e, rest) := by
  rw [readExpr, h]
  split
  · next heq =>
    obtain ⟨rfl, rfl⟩ := Prod.mk.inj (Option.some.inj heq)
    exact absurd (hrest _ rfl) (by decide)
  · rfl

theorem readExpr_between (h : readOperand atom fuel text = some (e, ' ' :: rest)) :
    readExpr atom (fuel + 1) text = readBetween atom fuel e rest := by
  rw [readExpr, h]
  rfl

theorem readBetween_binary {lhs rhs : Expr} (op : BinaryOp)
    (h : readOperand atom fuel text = some (rhs, rest)) :
    readBetween atom (fuel + 1) lhs (op.symbol.toList ++ ' ' :: text) =
      some (.binary op lhs rhs, rest) := by
  have hends : ∀ c ∈ (' ' :: text).head?, decide (c ≠ ' ') = false := by
    rintro c ⟨⟩
    rfl
  rw [readBetween.eq_def]
  dsimp only
  split
  · next heq => exact absurd heq (op.symbol_ne_question _ _)
  · rw [Text.takeWhile_run op.noSpace_symbol hends, Text.dropWhile_run op.noSpace_symbol hends,
      BinaryOp.ofSymbol?_symbol]
    dsimp only [List.drop]
    rw [h]

theorem readBetween_ternary {cond thenExpr elseExpr : Expr} {elseText : List Char}
    (hthen : readOperand atom fuel text = some (thenExpr, ' ' :: ':' :: ' ' :: elseText))
    (helse : readOperand atom fuel elseText = some (elseExpr, rest)) :
    readBetween atom (fuel + 1) cond ('?' :: ' ' :: text) =
      some (.ternary cond thenExpr elseExpr, rest) := by
  rw [readBetween, hthen]
  change (match readOperand atom fuel elseText with
    | some (elseExpr, rest) => some (Expr.ternary cond thenExpr elseExpr, rest)
    | none => none) = _
  rw [helse]

theorem readArgs_nil : readArgs atom (fuel + 1) (')' :: rest) = some ([], rest) := rfl

theorem readArgs_last {c : Char} (hc : c ≠ ')')
    (h : readExpr atom fuel (c :: text) = some (e, ')' :: rest)) :
    readArgs atom (fuel + 1) (c :: text) = some ([e], rest) := by
  rw [readArgs.eq_def]
  dsimp only
  split
  · next heq => exact absurd (List.cons.inj heq).1 hc
  · rw [h]
    rfl

theorem readArgs_cons {c : Char} {es : List Expr} {behind : List Char} (hc : c ≠ ')')
    (h : readExpr atom fuel (c :: text) = some (e, ',' :: ' ' :: behind))
    (hes : readArgs atom fuel behind = some (es, rest)) :
    readArgs atom (fuel + 1) (c :: text) = some (e :: es, rest) := by
  rw [readArgs.eq_def]
  dsimp only
  split
  · next heq => exact absurd (List.cons.inj heq).1 hc
  · rw [h]
    change (match readArgs atom fuel behind with
      | some (es, rest) => some (e :: es, rest)
      | none => none) = _
    rw [hes]

end Steps

end Expr

end ShaderMorph
