-- A fuzzed program is the original up to identities. Erasing takes brackets,
-- neutral operands and double negations out of all expressions, from the
-- inside out. It takes an expression in an identity to what it takes the
-- expression itself to, and so it takes the program to the same program
-- before and after any number of mutation points were applied.
import ShaderMorph.Proofs.Address.Roots
import ShaderMorph.Proofs.Mutation.Wrapping

namespace ShaderMorph

/-! ## Erasing identities -/

namespace Literal

/-- A whole number zero, or the positive float zero. -/
def isZero : Literal → Bool
  | .bool _ => false
  | .int n => n == 0
  | .uint n => n == 0
  | .float x => x.bits == 0

/-- A whole number one, or the float one. -/
def isOne : Literal → Bool
  | .bool _ => false
  | .int n => n == 1
  | .uint n => n == 1
  | .float x => x.bits == 0x3ff0000000000000

end Literal

namespace Expr

/-- An operator between erased operands. -/
def eraseBinary : BinaryOp → (lhs rhs : Expr) → Expr
  | .add, lhs, .literal value =>
    if value.isZero then lhs else .binary .add lhs (.literal value)
  | .mul, lhs, .literal value =>
    if value.isOne then lhs else .binary .mul lhs (.literal value)
  | .logicalAnd, .literal (.bool true), rhs => rhs
  | op, lhs, rhs => .binary op lhs rhs

/-- An operator on an erased operand. -/
def eraseUnary : UnaryOp → (operand : Expr) → Expr
  | .not, .unary .not inner => inner
  | op, operand => .unary op operand

mutual

/-- An expression without the identities in it. -/
def erase : Expr → Expr
  | .ident name => .ident name
  | .literal value => .literal value
  | .binary op lhs rhs => eraseBinary op lhs.erase rhs.erase
  | .unary op operand => eraseUnary op operand.erase
  | .member base name => .member base.erase name
  | .index base position => .index base.erase position.erase
  | .call callee args => .call callee (eraseAll args)
  | .ternary cond thenExpr elseExpr => .ternary cond.erase thenExpr.erase elseExpr.erase
  | .paren inner => inner.erase

def eraseAll : List Expr → List Expr
  | [] => []
  | e :: es => e.erase :: eraseAll es

end

/-! ## No negation is left twice -/

theorem eraseBinary_cases (op : BinaryOp) (lhs rhs : Expr) :
    eraseBinary op lhs rhs = lhs ∨ eraseBinary op lhs rhs = rhs ∨
      eraseBinary op lhs rhs = .binary op lhs rhs := by
  unfold eraseBinary
  split
  · split <;> simp
  · split <;> simp
  · simp
  · simp

theorem erase_ne_not_not : (e y : Expr) → e.erase ≠ .unary .not (.unary .not y)
  | .ident _, _ => by simp [erase]
  | .literal _, _ => by simp [erase]
  | .binary op lhs rhs, y => by
    rw [erase]
    rcases eraseBinary_cases op lhs.erase rhs.erase with h | h | h
    · rw [h]
      exact erase_ne_not_not lhs y
    · rw [h]
      exact erase_ne_not_not rhs y
    · rw [h]
      simp
  | .unary op operand, y => by
    have hinner := erase_ne_not_not operand
    rw [erase]
    unfold eraseUnary
    split
    · next inner hoperand =>
      -- A negation of `inner` was there, so `inner` is no negation.
      intro hnot
      rw [hoperand, hnot] at hinner
      exact hinner _ rfl
    · next hother =>
      intro hnot
      obtain ⟨hop, hoperand⟩ := Expr.unary.inj hnot
      exact hother y hop hoperand
  | .member _ _, _ => by simp [erase]
  | .index _ _, _ => by simp [erase]
  | .call _ _, _ => by simp [erase]
  | .ternary _ _ _, _ => by simp [erase]
  | .paren inner, y => by
    rw [erase]
    exact erase_ne_not_not inner y

/-- Negated twice, an erased expression is what it was. -/
theorem eraseUnary_not_not (e : Expr) : eraseUnary .not (eraseUnary .not e.erase) = e.erase := by
  have hinner := e.erase_ne_not_not
  generalize e.erase = x at hinner
  by_cases hnegation : ∃ y, x = .unary .not y
  · obtain ⟨y, rfl⟩ := hnegation
    have hy : ∀ z, y ≠ .unary .not z := by
      rintro z rfl
      exact hinner z rfl
    have hkept : eraseUnary .not (.unary .not y) = y := rfl
    rw [hkept]
    unfold eraseUnary
    split
    · next z _ => exact absurd rfl (hy z)
    · rfl
  · have honce : eraseUnary .not x = .unary .not x := by
      unfold eraseUnary
      split
      · exact absurd ⟨_, rfl⟩ hnegation
      · rfl
    rw [honce]
    rfl

end Expr

/-! ## One identity -/

theorem Identity.isZero_neutral (elem : Option ElementKind) :
    (neutral elem false).isZero = true := by
  rcases elem with _ | (_ | _ | _ | _) <;> rfl

theorem Identity.isOne_neutral (elem : Option ElementKind) : (neutral elem true).isOne = true := by
  rcases elem with _ | (_ | _ | _ | _) <;> decide

/-- An expression in an identity is erased to what it is erased to itself. -/
theorem Identity.erase_wrap (identity : Identity) (elem : Option ElementKind) (e : Expr) :
    (identity.wrap elem e).erase = e.erase := by
  cases identity with
  | parenthesize => rfl
  | addZero => simp [wrap, Expr.erase, Expr.eraseBinary, isZero_neutral]
  | mulOne => simp [wrap, Expr.erase, Expr.eraseBinary, isOne_neutral]
  | doubleNegation =>
    simp only [wrap, Expr.erase]
    exact e.eraseUnary_not_not
  | andTrue => rfl

/-! ## A rewriting -/

/-- What is put in the place of an expression of a list, the first of which has
number `k`, is erased to the same. -/
def Replacement.KeepsErased (r : Replacement) (k : Nat) (es : List Expr) : Prop :=
  ∀ j e new, es[j]? = some e → r (k + j) = some new → new.erase = e.erase

namespace Replacement.KeepsErased

variable {r : Replacement}

theorem cons {k : Nat} {e : Expr} {es : List Expr} (h : r.KeepsErased k (e :: es)) :
    (∀ new, r k = some new → new.erase = e.erase) ∧ r.KeepsErased (k + 1) es := by
  refine ⟨fun new => h 0 e new rfl, ?_⟩
  intro j e' new he hr
  refine h (j + 1) e' new (by simpa using he) ?_
  have hj : k + (j + 1) = k + 1 + j := by omega
  rw [hj, hr]

theorem append {k : Nat} {es es' : List Expr} (h : r.KeepsErased k (es ++ es')) :
    r.KeepsErased k es ∧ r.KeepsErased (k + es.length) es' := by
  constructor
  · intro j e new he
    have hlt : j < es.length := (List.getElem?_eq_some_iff.1 he).1
    exact h j e new (by rwa [List.getElem?_append_left hlt])
  · intro j e new he hr
    refine h (es.length + j) e new ?_ ?_
    · rw [List.getElem?_append_right (Nat.le_add_right _ _), Nat.add_sub_cancel_left]
      exact he
    · rwa [← Nat.add_assoc]

end Replacement.KeepsErased

namespace Expr

variable {r : Replacement}

/-- An expression is replaced as a whole, or its parts are rewritten. -/
theorem erase_getD {k : Nat} {e e' : Expr} (h : ∀ new, r k = some new → new.erase = e.erase)
    (he : e'.erase = e.erase) : ((r k).getD e').erase = e.erase := by
  cases hk : r k with
  | none => exact he
  | some new => exact h new hk

mutual

theorem erase_rewrite : (e : Expr) → {k : Nat} → r.KeepsErased k e.preorder →
    (e.rewrite r k).erase = e.erase
  | .ident _, _, h => erase_getD h.cons.1 rfl
  | .literal _, _, h => erase_getD h.cons.1 rfl
  | .binary op lhs rhs, k, h => by
    obtain ⟨hroot, hparts⟩ := h.cons
    obtain ⟨hlhs, hrhs⟩ := hparts.append
    rw [length_preorder] at hrhs
    exact erase_getD hroot (by simp only [erase, erase_rewrite lhs hlhs, erase_rewrite rhs hrhs])
  | .unary op operand, k, h => by
    obtain ⟨hroot, hoperand⟩ := h.cons
    exact erase_getD hroot (by simp only [erase, erase_rewrite operand hoperand])
  | .member base name, k, h => by
    obtain ⟨hroot, hbase⟩ := h.cons
    exact erase_getD hroot (by simp only [erase, erase_rewrite base hbase])
  | .index base position, k, h => by
    obtain ⟨hroot, hparts⟩ := h.cons
    obtain ⟨hbase, hposition⟩ := hparts.append
    rw [length_preorder] at hposition
    exact erase_getD hroot (by
      simp only [erase, erase_rewrite base hbase, erase_rewrite position hposition])
  | .call callee args, k, h => by
    obtain ⟨hroot, hargs⟩ := h.cons
    exact erase_getD hroot (by simp only [erase, eraseAll_rewrite args hargs])
  | .ternary cond thenExpr elseExpr, k, h => by
    obtain ⟨hroot, hparts⟩ := h.cons
    obtain ⟨hparts, helse⟩ := hparts.append
    obtain ⟨hcond, hthen⟩ := hparts.append
    rw [List.length_append, length_preorder, length_preorder, ← Nat.add_assoc] at helse
    rw [length_preorder] at hthen
    exact erase_getD hroot (by
      simp only [erase, erase_rewrite cond hcond, erase_rewrite thenExpr hthen,
        erase_rewrite elseExpr helse])
  | .paren inner, k, h => by
    obtain ⟨hroot, hinner⟩ := h.cons
    exact erase_getD hroot (by simp only [erase, erase_rewrite inner hinner])

theorem eraseAll_rewrite : (es : List Expr) → {k : Nat} → r.KeepsErased k (preorderAll es) →
    eraseAll (rewriteAll r es k) = eraseAll es
  | [], _, _ => rfl
  | e :: es, _, h => by
    obtain ⟨he, hes⟩ := Replacement.KeepsErased.append h
    rw [length_preorder] at hes
    simp only [rewriteAll, eraseAll, erase_rewrite e he, eraseAll_rewrite es hes]

end

end Expr

/-! ## Programs -/

/-- A program without the identities in its expressions. -/
def Program.erase (p : Program) : Program := p.mapRoots fun _ => Expr.erase

theorem Replacement.KeepsErased.blurred {r : Replacement} {k : Nat} {l : List (Root × Expr)}
    (h : r.KeepsErased k (Root.exprs l)) : r.Blurred (fun _ => Expr.erase) k l := by
  induction l generalizing k with
  | nil => trivial
  | cons a l ih =>
    obtain ⟨a, e⟩ := a
    obtain ⟨he, hl⟩ := Replacement.KeepsErased.append h
    rw [Expr.length_preorder] at hl
    exact ⟨e.erase_rewrite he, ih hl⟩

/-- Wrapping an expression changes nothing that is left after erasing. -/
theorem Program.Wraps.erase_eq {p q : Program} (h : p.Wraps q) : q.erase = p.erase := by
  cases h with
  | mk v identity elem hv _ =>
    refine Program.mapRoots_rewrite (Replacement.KeepsErased.blurred ?_)
    rw [p.roots_exprs]
    intro j e new he hr
    rw [Nat.zero_add] at hr
    obtain ⟨rfl, rfl⟩ := Replacement.eq_of_nothing_add hr
    rw [exprs_ordinal hv] at he
    cases he
    exact identity.erase_wrap elem v.expr

/-- Whatever mutation points are applied one after the other, a program stays
the same up to identities. -/
theorem Program.erase_eq_of_fuzzes {switches : IdentitySwitches} {p q : Program}
    (h : p.Fuzzes switches q) : q.erase = p.erase :=
  h.keeps (I := fun q => q.erase = p.erase) (fun _ _ hp hw => hw.erase_eq.trans hp) rfl

/-- A program whose one statement is `1 + 2;`. -/
def Program.sum : Program :=
  ⟨.glsl440, [.define .void "main" [] [.expr (.binary .add (.int 1) (.int 2))]]⟩

/-- The point at the left operand of that sum. -/
def MutationPoint.addend : MutationPoint :=
  ⟨1, .int 1, some (.scalar .int), [.parenthesize, .addZero, .mulOne]⟩

theorem Program.erase_eq_of_fuzzes_sum :
    ∃ q, Program.sum.Fuzzes .all q ∧ q.exprCount = 4 ∧ q.erase = Program.sum.erase := by
  have hmem : MutationPoint.addend ∈ Program.sum.mutationPoints .all :=
    List.mem_of_getElem? (i := 0) rfl
  have happly : (MutationPoint.addend.apply .sum ZeroSource.mk).1 = .ok
      ⟨.glsl440, [.define .void "main" [] [.expr (.binary .add (.paren (.int 1)) (.int 2))]]⟩ := rfl
  have hfuzzes := Program.Fuzzes.step .addend ZeroSource.mk hmem happly (.none _)
  exact ⟨_, hfuzzes, rfl, erase_eq_of_fuzzes hfuzzes⟩

end ShaderMorph
