-- What the declared-type oracle says is true. The rules of typing are stated on
-- their own, as a judgement. They ask for no more than the type hangs on, so
-- what a stricter checker lets pass has its type here too. No operand is ever
-- converted to another kind. The oracle follows the rules for all forms but
-- one: of the functions of one name, it knows the first.
import ShaderMorph.Shader.Build
import ShaderMorph.Typing.Oracle

namespace ShaderMorph

/-! ## The rules -/

namespace DataType

/-- The names of the built-in constructors, and the types that they make. A
matrix can be named by its columns and rows, and a square one by its size. -/
def constructors : List (String × DataType) :=
  (simple.filter (· ≠ .void)).map (fun t => (t.text, t)) ++ [2, 3, 4].flatMap fun columns =>
    ("mat" ++ Decimal.natural columns, .matrix columns columns) :: [2, 3, 4].map fun rows =>
      ("mat" ++ Decimal.natural columns ++ "x" ++ Decimal.natural rows, .matrix columns rows)

end DataType

/-- The operators that make one value of two. -/
def BinaryOp.isArithmetic : BinaryOp → Bool
  | .add | .sub | .mul | .div | .mod | .bitAnd | .bitOr | .bitXor => true
  | _ => false

/-- The type of what an operator makes of values of two types. -/
inductive BinaryOp.Makes : BinaryOp → (lhs rhs result : DataType) → Prop
  | same (op : BinaryOp) (t : DataType) : Makes op t t t
  | scalarVector (op : BinaryOp) (elem : ElementKind) (width : Nat) :
    Makes op (.scalar elem) (.vector elem width) (.vector elem width)
  | vectorScalar (op : BinaryOp) (elem : ElementKind) (width : Nat) :
    Makes op (.vector elem width) (.scalar elem) (.vector elem width)
  | scalarMatrix (op : BinaryOp) (columns rows : Nat) :
    Makes op (.scalar .float) (.matrix columns rows) (.matrix columns rows)
  | matrixScalar (op : BinaryOp) (columns rows : Nat) :
    Makes op (.matrix columns rows) (.scalar .float) (.matrix columns rows)
  | matrixVector (columns rows : Nat) :
    Makes .mul (.matrix columns rows) (.vector .float columns) (.ofComponents .float rows)
  | vectorMatrix (columns rows : Nat) :
    Makes .mul (.vector .float rows) (.matrix columns rows) (.ofComponents .float columns)

namespace Program

variable (p : Program)

/-- A program declares functions of this name with so many parameters, and all
of them return this type. -/
structure Returns (callee : String) (arity : Nat) (t : DataType) : Prop where
  declared : ∃ head ∈ p.prototypes, head.name = callee ∧ head.parameters.length = arity
  agree : ∀ head ∈ p.prototypes, head.name = callee → head.parameters.length = arity →
    head.returnType = t

/-- An expression has a type in a scope. -/
inductive HasType (scope : ScopeTree) : Expr → DataType → Prop
  | ident {name : String} {u : Symbol} :
    scope.lookup name = some u → HasType scope (.ident name) u.type
  | literal (value : Literal) : HasType scope (.literal value) value.type
  | vectorSwizzle {base : Expr} {name : String} {elem : ElementKind} {width : Nat} {s : Swizzle} :
    HasType scope base (.vector elem width) → Swizzle.parse? name width = some s →
      HasType scope (.member base name) (.ofComponents elem s.length)
  | scalarSwizzle {base : Expr} {name : String} {elem : ElementKind} {s : Swizzle} :
    p.version.hasScalarSwizzles = true → HasType scope base (.scalar elem) →
      Swizzle.parse? name 1 = some s →
        HasType scope (.member base name) (.ofComponents elem s.length)
  | element {base : Expr} {inner : DataType} {size : Option Nat} (position : Expr) :
    HasType scope base (.array inner size) → HasType scope (.index base position) inner
  | component {base : Expr} {elem : ElementKind} {width : Nat} (position : Expr) :
    HasType scope base (.vector elem width) →
      HasType scope (.index base position) (.scalar elem)
  | column {base : Expr} {columns rows : Nat} (position : Expr) :
    HasType scope base (.matrix columns rows) →
      HasType scope (.index base position) (.ofComponents .float rows)
  | construct {callee : String} {t : DataType} (args : List Expr) :
    (callee, t) ∈ DataType.constructors → HasType scope (.call callee args) t
  | call {callee : String} {args : List Expr} {t : DataType} :
    callee ∉ DataType.constructors.map (·.1) → p.Returns callee args.length t →
      HasType scope (.call callee args) t
  | assign {op : BinaryOp} {lhs : Expr} {t : DataType} (rhs : Expr) :
    op.isAssignment = true → HasType scope lhs t → HasType scope (.binary op lhs rhs) t
  | compare {op : BinaryOp} (lhs rhs : Expr) :
    op.isComparison = true → HasType scope (.binary op lhs rhs) (.scalar .bool)
  | connect {op : BinaryOp} (lhs rhs : Expr) :
    op.isLogical = true → HasType scope (.binary op lhs rhs) (.scalar .bool)
  | comma {rhs : Expr} {t : DataType} (lhs : Expr) :
    HasType scope rhs t → HasType scope (.binary .comma lhs rhs) t
  | shiftLeft {lhs : Expr} {t : DataType} (rhs : Expr) :
    HasType scope lhs t → HasType scope (.binary .shl lhs rhs) t
  | shiftRight {lhs : Expr} {t : DataType} (rhs : Expr) :
    HasType scope lhs t → HasType scope (.binary .shr lhs rhs) t
  | arithmetic {op : BinaryOp} {lhs rhs : Expr} {t u result : DataType} :
    op.isArithmetic = true → HasType scope lhs t → HasType scope rhs u → op.Makes t u result →
      HasType scope (.binary op lhs rhs) result
  | not (operand : Expr) : HasType scope (.unary .not operand) (.scalar .bool)
  | unary {op : UnaryOp} {operand : Expr} {t : DataType} :
    op ≠ .not → HasType scope operand t → HasType scope (.unary op operand) t
  | ternary {thenExpr elseExpr : Expr} {t : DataType} (cond : Expr) :
    HasType scope thenExpr t → HasType scope elseExpr t →
      HasType scope (.ternary cond thenExpr elseExpr) t
  | paren {inner : Expr} {t : DataType} :
    HasType scope inner t → HasType scope (.paren inner) t

end Program

/-! ## Calls -/

/-- The calls that the type of an expression hangs on: the name that is called,
and the number of arguments. -/
def Expr.decidingCalls : Expr → List (String × Nat)
  | .ident _ => []
  | .literal _ => []
  | .paren inner => inner.decidingCalls
  | .member base _ => base.decidingCalls
  | .index base _ => base.decidingCalls
  | .call callee args => [(callee, args.length)]
  | .binary op lhs rhs =>
    if op.isAssignment then lhs.decidingCalls
    else if op.isComparison || op.isLogical then []
    else
      match op with
      | .comma => rhs.decidingCalls
      | .shl | .shr => lhs.decidingCalls
      | _ => lhs.decidingCalls ++ rhs.decidingCalls
  | .unary op operand => if op = .not then [] else operand.decidingCalls
  | .ternary _ thenExpr _ => thenExpr.decidingCalls

/-- Where a call has a type, the first function of its name returns that type
too, and the name is not read as that of a built-in type. -/
def Program.FirstAgrees (p : Program) (callee : String) (arity : Nat) : Prop :=
  ∀ t, p.Returns callee arity t → DataType.ofName? callee = none ∧
    ∃ head, p.prototypes.find? (·.name == callee) = some head ∧ head.returnType = t

/-! ## The oracle follows the rules -/

theorem DataType.ofName?_of_constructor {name : String} {t : DataType}
    (h : (name, t) ∈ constructors) : ofName? name = some t := by
  have hall : ∀ c ∈ constructors, ofName? c.1 = some c.2 := by decide +kernel
  exact hall _ h

theorem BinaryOp.Makes.arithmetic? {op : BinaryOp} {t u result : DataType}
    (h : op.Makes t u result) : t.arithmetic? u = some result := by
  cases h <;> simp [DataType.arithmetic?]

namespace DeclaredTypes

/-- The oracle answers nothing but this type. -/
def Allows (d : DeclaredTypes) (scope : ScopeTree) (e : Expr) (t : DataType) : Prop :=
  ∀ u, d.typeOf scope e = some u → u = t

variable {d : DeclaredTypes} {scope : ScopeTree}

theorem Allows.of_eq {e : Expr} {t : DataType} (h : d.typeOf scope e = some t) :
    d.Allows scope e t :=
  fun _ hu => Option.some.inj (hu.symm.trans h)

/-- What is found from the type of a part. -/
theorem Allows.bind {e base : Expr} {t result : DataType} {f : DataType → Option DataType}
    (h : d.Allows scope base t) (he : d.typeOf scope e = (d.typeOf scope base).bind f)
    (hf : f t = some result) : d.Allows scope e result := by
  intro u hu
  obtain ⟨w, hw, hu⟩ := Option.bind_eq_some_iff.1 (he.symm.trans hu)
  rw [h w hw, hf] at hu
  exact (Option.some.inj hu).symm

theorem typeOf_comparison {op : BinaryOp} (h : op.isComparison = true) (lhs rhs : Expr) :
    d.typeOf scope (.binary op lhs rhs) = some (.scalar .bool) := by
  cases op <;> first | rfl | cases h

theorem typeOf_logical {op : BinaryOp} (h : op.isLogical = true) (lhs rhs : Expr) :
    d.typeOf scope (.binary op lhs rhs) = some (.scalar .bool) := by
  cases op <;> first | rfl | cases h

theorem typeOf_arithmetic {op : BinaryOp} (h : op.isArithmetic = true) (lhs rhs : Expr) :
    d.typeOf scope (.binary op lhs rhs) = (d.typeOf scope lhs).bind fun t =>
      (d.typeOf scope rhs).bind fun u => t.arithmetic? u := by
  cases op <;> first | rfl | cases h

theorem Allows.arithmetic {op : BinaryOp} {lhs rhs : Expr} {t u result : DataType}
    (hop : op.isArithmetic = true) (hl : d.Allows scope lhs t) (hr : d.Allows scope rhs u)
    (hmakes : op.Makes t u result) : d.Allows scope (.binary op lhs rhs) result := by
  intro w hw
  rw [typeOf_arithmetic hop] at hw
  obtain ⟨t', ht', hw⟩ := Option.bind_eq_some_iff.1 hw
  obtain ⟨u', hu', hw⟩ := Option.bind_eq_some_iff.1 hw
  rw [hl t' ht', hr u' hu', hmakes.arithmetic?] at hw
  exact (Option.some.inj hw).symm

end DeclaredTypes

theorem Expr.decidingCalls_arithmetic {op : BinaryOp} (h : op.isArithmetic = true)
    (lhs rhs : Expr) :
    (Expr.binary op lhs rhs).decidingCalls = lhs.decidingCalls ++ rhs.decidingCalls := by
  cases op <;> first | rfl | cases h

namespace Program

variable {p : Program} {scope : ScopeTree}

/-- A call is answered by the constructor of its name, or else by the first
function of its name. -/
theorem declaredTypes_call (scope : ScopeTree) (callee : String) (args : List Expr) :
    p.declaredTypes (.call callee args) scope = (DataType.ofName? callee).or
      ((p.prototypes.find? (·.name == callee)).map (·.returnType)) := rfl

/-- No form of expression is answered with another type than it has. -/
theorem HasType.allows {e : Expr} {t : DataType} (h : p.HasType scope e t)
    (hcalls : ∀ c ∈ e.decidingCalls, p.FirstAgrees c.1 c.2) :
    (DeclaredTypes.ofProgram p).Allows scope e t := by
  induction h with
  | ident hu => exact .of_eq (by rw [DeclaredTypes.typeOf, hu, Option.map_some])
  | literal value => exact .of_eq rfl
  | vectorSwizzle _ hs ih => exact (ih hcalls).bind rfl (by simp [DataType.memberOf?, hs])
  | scalarSwizzle hversion _ hs ih =>
    refine (ih hcalls).bind rfl ?_
    simp [DataType.memberOf?, DeclaredTypes.ofProgram, hversion, hs]
  | element position _ ih | component position _ ih | column position _ ih =>
    exact (ih hcalls).bind rfl rfl
  | construct args hmem =>
    refine .of_eq ((declaredTypes_call scope _ args).trans ?_)
    rw [DataType.ofName?_of_constructor hmem, Option.some_or]
  | @call callee args t _ hreturns =>
    obtain ⟨hname, head, hhead, rfl⟩ := hcalls _ (List.mem_singleton_self _) _ hreturns
    refine .of_eq ((declaredTypes_call scope callee args).trans ?_)
    rw [hname, hhead, Option.none_or, Option.map_some]
  | assign rhs hop _ ih =>
    simp only [Expr.decidingCalls, hop, if_true] at hcalls
    intro w hw
    simp only [DeclaredTypes.typeOf, hop, if_true] at hw
    exact ih hcalls w hw
  | compare lhs rhs hop => exact .of_eq (DeclaredTypes.typeOf_comparison hop lhs rhs)
  | connect lhs rhs hop => exact .of_eq (DeclaredTypes.typeOf_logical hop lhs rhs)
  | comma lhs _ ih => exact ih hcalls
  | shiftLeft rhs _ ih => exact ih hcalls
  | shiftRight rhs _ ih => exact ih hcalls
  | arithmetic hop _ _ hmakes ihl ihr =>
    rw [Expr.decidingCalls_arithmetic hop, List.forall_mem_append] at hcalls
    exact .arithmetic hop (ihl hcalls.1) (ihr hcalls.2) hmakes
  | not operand => exact .of_eq rfl
  | unary hop _ ih =>
    simp only [Expr.decidingCalls, hop, if_false] at hcalls
    intro w hw
    simp only [DeclaredTypes.typeOf, hop, if_false] at hw
    exact ih hcalls w hw
  | ternary cond _ _ ih _ => exact ih hcalls
  | paren _ ih => exact ih hcalls

/-- The declared-type oracle is sound. What has a type is answered with that
type or not at all, provided that each function of the program whose call decides
the type returns what the first function of its name returns. -/
theorem declaredTypes_sound {e : Expr} {t : DataType} (h : p.HasType scope e t)
    (hcalls : ∀ c ∈ e.decidingCalls, p.FirstAgrees c.1 c.2) :
    p.declaredTypes e scope = none ∨ p.declaredTypes e scope = some t := by
  cases hanswer : p.declaredTypes e scope with
  | none => exact Or.inl rfl
  | some u => exact Or.inr (congrArg some (h.allows hcalls u hanswer))

/-- Two functions of one name. The first one takes a float and returns one, the
second one takes two floats and returns an integer. -/
def overloaded : Program :=
  ⟨.essl300, [
    .define (.scalar .float) "f" [.named (.scalar .float) "x" .input] [.ret (some (.ident "x"))],
    .define (.scalar .int) "f"
      [.named (.scalar .float) "x" .input, .named (.scalar .float) "y" .input]
      [.ret (some (.int 1))]]⟩

theorem declaredTypes_sound_overloaded :
    ∃ scope e t, overloaded.HasType scope e t ∧
      (∀ c ∈ e.decidingCalls, overloaded.FirstAgrees c.1 c.2) ∧
      (overloaded.declaredTypes e scope = none ∨ overloaded.declaredTypes e scope = some t) := by
  let scope := ScopeTree.empty.shadow ⟨"v", 0, .vector .float 2, 0, .global⟩
  let product := Expr.binary .mul (.member (.ident "v") "yx") (.call "f" [.float (.ofNatural 1)])
  have hreturns : overloaded.Returns "f" 1 (.scalar .float) :=
    ⟨by decide +kernel, by decide +kernel⟩
  have hv : scope.lookup "v" = some ⟨"v", 0, .vector .float 2, 0, .global⟩ := rfl
  have htype : overloaded.HasType scope product (.vector .float 2) :=
    .arithmetic rfl (.vectorSwizzle (.ident hv) rfl) (.call (by decide +kernel) hreturns)
      (.vectorScalar .mul .float 2)
  have hcalls : ∀ c ∈ product.decidingCalls, overloaded.FirstAgrees c.1 c.2 := by
    intro c hc
    obtain rfl : c = ("f", 1) := List.mem_singleton.1 hc
    intro t ht
    obtain ⟨head, hhead, hname, hcount⟩ := hreturns.declared
    have hsame := (ht.agree head hhead hname hcount).symm.trans
      (hreturns.agree head hhead hname hcount)
    exact ⟨by decide +kernel, _, rfl, hsame.symm⟩
  exact ⟨scope, product, _, htype, hcalls, declaredTypes_sound htype hcalls⟩

/-- A call of the second one is taken for a float. -/
theorem overloaded_second :
    overloaded.HasType .empty (.call "f" [.float (.ofNatural 1), .float (.ofNatural 2)])
        (.scalar .int) ∧
      overloaded.declaredTypes (.call "f" [.float (.ofNatural 1), .float (.ofNatural 2)]) .empty =
        some (.scalar .float) :=
  ⟨.call (by decide +kernel) ⟨by decide +kernel, by decide +kernel⟩, by decide +kernel⟩

end Program

end ShaderMorph
