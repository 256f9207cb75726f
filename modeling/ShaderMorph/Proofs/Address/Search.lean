-- What the search for a number finds. In a program that is rewritten only
-- behind the number asked for, the number still names the same expression,
-- with what is inside it rewritten; and to put another one there is to
-- rewrite one more expression of the program that there was at first.
import ShaderMorph.Proofs.Address.Rewriting

namespace ShaderMorph

/-! ## One more replacement -/

section Add

variable {r : Replacement} {j k : Nat}

theorem Replacement.agree_of_outside {new : Expr} {n : Nat} (h : j < k ∨ k + n ≤ j) :
    ∀ i, k ≤ i → i < k + n → r.add j new i = r i :=
  fun _ _ _ => r.add_ne new (by omega)

theorem Expr.rewrite_add (e : Expr) {new : Expr} (h : j < k ∨ k + e.size ≤ j) :
    e.rewrite (r.add j new) k = e.rewrite r k :=
  e.rewrite_congr (Replacement.agree_of_outside h)

theorem Expr.rewriteAll_add (es : List Expr) {new : Expr} (h : j < k ∨ k + Expr.sizeAll es ≤ j) :
    Expr.rewriteAll (r.add j new) es k = Expr.rewriteAll r es k :=
  Expr.rewriteAll_congr es (Replacement.agree_of_outside h)

theorem Expr.rewriteOption_add (e : Option Expr) {new : Expr}
    (h : j < k ∨ k + Expr.sizeOption e ≤ j) :
    Expr.rewriteOption (r.add j new) e k = Expr.rewriteOption r e k :=
  Expr.rewriteOption_congr e (Replacement.agree_of_outside h)

theorem Variable.rewriteAll_add (vs : List Variable) {new : Expr}
    (h : j < k ∨ k + (Variable.exprsAll vs).length ≤ j) :
    Variable.rewriteAll (r.add j new) vs k = Variable.rewriteAll r vs k :=
  Variable.rewriteAll_congr vs (Replacement.agree_of_outside h)

theorem Stmt.rewrite_add (s : Stmt) {new : Expr} (h : j < k ∨ k + s.exprs.length ≤ j) :
    s.rewrite (r.add j new) k = s.rewrite r k :=
  s.rewrite_congr (Replacement.agree_of_outside h)

theorem Stmt.rewriteAll_add (ss : List Stmt) {new : Expr}
    (h : j < k ∨ k + (Stmt.exprsAll ss).length ≤ j) :
    Stmt.rewriteAll (r.add j new) ss k = Stmt.rewriteAll r ss k :=
  Stmt.rewriteAll_congr ss (Replacement.agree_of_outside h)

theorem Declaration.rewrite_add (d : Declaration) {new : Expr}
    (h : j < k ∨ k + d.exprs.length ≤ j) :
    d.rewrite (r.add j new) k = d.rewrite r k :=
  d.rewrite_congr (Replacement.agree_of_outside h)

theorem Declaration.rewriteAll_add (ds : List Declaration) {new : Expr}
    (h : j < k ∨ k + (ds.flatMap Declaration.exprs).length ≤ j) :
    Declaration.rewriteAll (r.add j new) ds k = Declaration.rewriteAll r ds k :=
  Declaration.rewriteAll_congr ds (Replacement.agree_of_outside h)

end Add

/-! ## What a search answers -/

namespace Search

/-- What a search for the number `k` finds in a thing with the expressions
`es`, which are numbered from `b` on, when `remake r` is searched and all
that `r` replaces lies behind `b + k`. -/
def expected (r : Replacement) (es : List Expr) (remake : Replacement → α) (b k : Nat) :
    Search α :=
  match es[k]? with
  | some e => .found ⟨e.rewrite r (b + k), fun new => remake (r.add (b + k) new)⟩
  | none => .passed (k - es.length)

variable {r : Replacement} {b k : Nat}

theorem map_expected {f : α → β} {es : List Expr} {part : Replacement → α}
    {remake : Replacement → β} {s : Search α} (hs : s = expected r es part b k)
    (hf : ∀ j new, b ≤ j → j < b + es.length → f (part (r.add j new)) = remake (r.add j new)) :
    s.map f = expected r es remake b k := by
  subst hs
  unfold expected
  cases h : es[k]? with
  | none => rfl
  | some e =>
    have hk : k < es.length := (List.getElem?_eq_some_iff.1 h).1
    have hput : (fun new => f (part (r.add (b + k) new))) =
        fun new => remake (r.add (b + k) new) :=
      funext fun new => hf _ new (by omega) (by omega)
    simp only [map, Place.map, Function.comp_def, hput]

theorem orElse_expected {es₁ es₂ : List Expr} {remake : Replacement → α} {s : Search α}
    {next : Nat → Search α} (hs : s = expected r es₁ remake b k)
    (hnext : es₁.length ≤ k →
      next (k - es₁.length) = expected r es₂ remake (b + es₁.length) (k - es₁.length)) :
    s.orElse next = expected r (es₁ ++ es₂) remake b k := by
  subst hs
  rcases Nat.lt_or_ge k es₁.length with hk | hk
  · simp only [expected, List.getElem?_append_left hk, List.getElem?_eq_getElem hk, orElse]
  · have hb : b + es₁.length + (k - es₁.length) = b + k := by omega
    have hl : k - es₁.length - es₂.length = k - (es₁ ++ es₂).length := by
      simp only [List.length_append]; omega
    simp only [expected, List.getElem?_append_right hk, List.getElem?_eq_none hk, orElse,
      hnext hk, hb, hl]

end Search

/-- All that is replaced up to `n` is nothing. -/
def Replacement.FreshTo (r : Replacement) (n : Nat) : Prop := ∀ j ≤ n, r j = none

theorem Replacement.FreshTo.mono {r : Replacement} {m n : Nat} (h : r.FreshTo n) (hm : m ≤ n) :
    r.FreshTo m := fun j hj => h j (Nat.le_trans hj hm)

namespace Expr

open Search

theorem search_zero (e : Expr) : e.search 0 = .found (.whole e) := by
  cases e <;> simp [search]

/-- The search for number zero finds the expression itself. -/
theorem search_rewrite_zero (r : Replacement) (e : Expr) (b : Nat) :
    (e.rewrite r b).search 0 = expected r e.preorder (e.rewrite · b) b 0 := by
  have hput : (fun new => e.rewrite (r.add b new) b) = id :=
    funext fun new => by cases e <;> simp [rewrite]
  simp only [search_zero, expected, preorder_head, Place.whole, Nat.add_zero, hput]

/-- The first expression is no part, so a search for a later number goes on
behind it. -/
theorem expected_cons {r : Replacement} {e : Expr} {es : List Expr} {remake : Replacement → α}
    {b k : Nat} {s : Search α} (h : s = expected r es remake (b + 1) k) :
    s = expected r (e :: es) remake b (k + 1) := by
  have hb : b + 1 + k = b + (k + 1) := by omega
  simp only [h, expected, List.getElem?_cons_succ, List.length_cons, hb, Nat.add_sub_add_right]

mutual

theorem search_rewrite {r : Replacement} : (e : Expr) → {b k : Nat} → r.FreshTo (b + k) →
    (e.rewrite r b).search k = expected r e.preorder (e.rewrite · b) b k
  | e, b, 0, _ => search_rewrite_zero r e b
  | .ident _, b, k + 1, hr => by
    have hb : r b = none := hr b (by omega)
    simp [rewrite, hb, search, preorder, expected]
  | .literal _, b, k + 1, hr => by
    have hb : r b = none := hr b (by omega)
    simp [rewrite, hb, search, preorder, expected]
  | .binary op lhs rhs, b, k + 1, hr => by
    have hb : r b = none := hr b (by omega)
    simp only [rewrite, hb, Option.getD_none, search, preorder]
    refine expected_cons (orElse_expected ?_ fun hk => ?_)
    · refine map_expected (search_rewrite lhs (hr.mono (by omega))) fun j new h h' => ?_
      simp only [length_preorder] at h'
      rw [r.add_ne new (by omega), hb, rhs.rewrite_add (by omega)]
      rfl
    · simp only [length_preorder] at hk ⊢
      refine map_expected (search_rewrite rhs (hr.mono (by omega))) fun j new h h' => ?_
      rw [r.add_ne new (by omega), hb, lhs.rewrite_add (by omega)]
      rfl
  | .unary op operand, b, k + 1, hr => by
    have hb : r b = none := hr b (by omega)
    simp only [rewrite, hb, Option.getD_none, search, preorder]
    refine expected_cons (map_expected (search_rewrite operand (hr.mono (by omega)))
      fun j new h _ => ?_)
    rw [r.add_ne new (by omega), hb]
    rfl
  | .member base name, b, k + 1, hr => by
    have hb : r b = none := hr b (by omega)
    simp only [rewrite, hb, Option.getD_none, search, preorder]
    refine expected_cons (map_expected (search_rewrite base (hr.mono (by omega)))
      fun j new h _ => ?_)
    rw [r.add_ne new (by omega), hb]
    rfl
  | .index base position, b, k + 1, hr => by
    have hb : r b = none := hr b (by omega)
    simp only [rewrite, hb, Option.getD_none, search, preorder]
    refine expected_cons (orElse_expected ?_ fun hk => ?_)
    · refine map_expected (search_rewrite base (hr.mono (by omega))) fun j new h h' => ?_
      simp only [length_preorder] at h'
      rw [r.add_ne new (by omega), hb, position.rewrite_add (by omega)]
      rfl
    · simp only [length_preorder] at hk ⊢
      refine map_expected (search_rewrite position (hr.mono (by omega))) fun j new h h' => ?_
      rw [r.add_ne new (by omega), hb, base.rewrite_add (by omega)]
      rfl
  | .call callee args, b, k + 1, hr => by
    have hb : r b = none := hr b (by omega)
    simp only [rewrite, hb, Option.getD_none, search, preorder]
    refine expected_cons (map_expected (searchAll_rewrite args (hr.mono (by omega)))
      fun j new h _ => ?_)
    rw [r.add_ne new (by omega), hb]
    rfl
  | .ternary cond thenExpr elseExpr, b, k + 1, hr => by
    have hb : r b = none := hr b (by omega)
    simp only [rewrite, hb, Option.getD_none, search, preorder, List.append_assoc]
    refine expected_cons (orElse_expected ?_ fun hk => orElse_expected ?_ fun hk' => ?_)
    · refine map_expected (search_rewrite cond (hr.mono (by omega))) fun j new h h' => ?_
      simp only [length_preorder] at h'
      rw [r.add_ne new (by omega), hb, thenExpr.rewrite_add (by omega),
        elseExpr.rewrite_add (by omega)]
      rfl
    · simp only [length_preorder] at hk ⊢
      refine map_expected (search_rewrite thenExpr (hr.mono (by omega))) fun j new h h' => ?_
      simp only [length_preorder] at h'
      rw [r.add_ne new (by omega), hb, cond.rewrite_add (by omega),
        elseExpr.rewrite_add (by omega)]
      rfl
    · simp only [length_preorder] at hk hk' ⊢
      refine map_expected (search_rewrite elseExpr (hr.mono (by omega))) fun j new h h' => ?_
      rw [r.add_ne new (by omega), hb, cond.rewrite_add (by omega),
        thenExpr.rewrite_add (by omega)]
      rfl
  | .paren inner, b, k + 1, hr => by
    have hb : r b = none := hr b (by omega)
    simp only [rewrite, hb, Option.getD_none, search, preorder]
    refine expected_cons (map_expected (search_rewrite inner (hr.mono (by omega)))
      fun j new h _ => ?_)
    rw [r.add_ne new (by omega), hb]
    rfl

theorem searchAll_rewrite {r : Replacement} : (es : List Expr) → {b k : Nat} →
    r.FreshTo (b + k) →
    searchAll (rewriteAll r es b) k = expected r (preorderAll es) (rewriteAll · es b) b k
  | [], b, k, _ => by simp [rewriteAll, searchAll, preorderAll, expected]
  | e :: es, b, k, hr => by
    simp only [rewriteAll, searchAll, preorderAll]
    refine orElse_expected ?_ fun hk => ?_
    · refine map_expected (search_rewrite e hr) fun j new h h' => ?_
      simp only [length_preorder] at h'
      rw [rewriteAll_add es (by omega)]
    · simp only [length_preorder] at hk ⊢
      refine map_expected (searchAll_rewrite es (hr.mono (by omega))) fun j new h h' => ?_
      rw [e.rewrite_add (by omega)]

end

theorem searchOption_rewrite {r : Replacement} (e : Option Expr) {b k : Nat}
    (hr : r.FreshTo (b + k)) :
    searchOption (rewriteOption r e b) k =
      expected r (e.toList.flatMap preorder) (rewriteOption · e b) b k := by
  cases e with
  | none => simp [rewriteOption, searchOption, expected]
  | some e =>
    simp only [rewriteOption, Option.map_some, searchOption, Option.toList_some,
      List.flatMap_cons, List.flatMap_nil, List.append_nil]
    exact map_expected (e.search_rewrite hr) fun _ _ _ _ => rfl

end Expr

open Search

theorem Variable.searchAll_rewrite {r : Replacement} (vs : List Variable) {b k : Nat}
    (hr : r.FreshTo (b + k)) :
    searchAll (rewriteAll r vs b) k = expected r (exprsAll vs) (rewriteAll · vs b) b k := by
  induction vs generalizing b k with
  | nil => simp [rewriteAll, searchAll, exprsAll, expected]
  | cons v vs ih =>
    simp only [rewriteAll, searchAll, exprsAll, List.flatMap_cons]
    refine orElse_expected ?_ fun hk => ?_
    · refine map_expected (Expr.searchOption_rewrite v.initializer hr) fun j new h h' => ?_
      simp only [Expr.length_preorderOption] at h'
      rw [rewriteAll_add vs (by omega)]
    · simp only [Expr.length_preorderOption] at hk ⊢
      refine map_expected (ih (hr.mono (by omega))) fun j new h h' => ?_
      rw [Expr.rewriteOption_add v.initializer (by omega)]

theorem VariableGroup.search_rewrite {r : Replacement} (g : VariableGroup) {b k : Nat}
    (hr : r.FreshTo (b + k)) :
    (g.rewrite r b).search k = expected r g.exprs (g.rewrite · b) b k := by
  rw [g.exprs_eq]
  exact map_expected (Variable.searchAll_rewrite g.members hr) fun _ _ _ _ => rfl

namespace Stmt

mutual

theorem search_rewrite {r : Replacement} : (s : Stmt) → {b k : Nat} → r.FreshTo (b + k) →
    (s.rewrite r b).search k = expected r s.exprs (s.rewrite · b) b k
  | .block stmts _, b, k, hr => by
    simp only [rewrite, search, exprs]
    exact map_expected (searchAll_rewrite stmts hr) fun _ _ _ _ => rfl
  | .decl group, b, k, hr => by
    simp only [rewrite, search, exprs]
    exact map_expected (group.search_rewrite hr) fun _ _ _ _ => rfl
  | .expr value, b, k, hr => by
    simp only [rewrite, search, exprs]
    exact map_expected (value.search_rewrite hr) fun _ _ _ _ => rfl
  | .ifThen cond thenBranch, b, k, hr => by
    simp only [rewrite, search, exprs]
    refine orElse_expected ?_ fun hk => ?_
    · refine map_expected (cond.search_rewrite hr) fun j new h h' => ?_
      simp only [Expr.length_preorder] at h'
      rw [thenBranch.rewrite_add (by omega)]
    · simp only [Expr.length_preorder] at hk ⊢
      refine map_expected (search_rewrite thenBranch (hr.mono (by omega))) fun j new h h' => ?_
      rw [cond.rewrite_add (by omega)]
  | .ifElse cond thenBranch elseBranch, b, k, hr => by
    simp only [rewrite, search, exprs, List.append_assoc]
    refine orElse_expected ?_ fun hk => orElse_expected ?_ fun hk' => ?_
    · refine map_expected (cond.search_rewrite hr) fun j new h h' => ?_
      simp only [Expr.length_preorder] at h'
      rw [thenBranch.rewrite_add (by omega), elseBranch.rewrite_add (by omega)]
    · simp only [Expr.length_preorder] at hk ⊢
      refine map_expected (search_rewrite thenBranch (hr.mono (by omega))) fun j new h h' => ?_
      rw [cond.rewrite_add (by omega), elseBranch.rewrite_add (by omega)]
    · simp only [Expr.length_preorder] at hk hk' ⊢
      refine map_expected (search_rewrite elseBranch (hr.mono (by omega))) fun j new h h' => ?_
      rw [cond.rewrite_add (by omega), thenBranch.rewrite_add (by omega)]
  | .forLoop init guard increment body, b, k, hr => by
    simp only [rewrite, search, exprs, List.append_assoc]
    refine orElse_expected ?_ fun hk => orElse_expected ?_ fun hk' =>
      orElse_expected ?_ fun hk'' => ?_
    · refine map_expected (search_rewrite init hr) fun j new h h' => ?_
      rw [Expr.rewriteOption_add guard (by omega), Expr.rewriteOption_add increment (by omega),
        body.rewrite_add (by omega)]
    · refine map_expected (Expr.searchOption_rewrite guard (hr.mono (by omega)))
        fun j new h h' => ?_
      simp only [Expr.length_preorderOption] at h'
      rw [init.rewrite_add (by omega), Expr.rewriteOption_add increment (by omega),
        body.rewrite_add (by omega)]
    · simp only [Expr.length_preorderOption] at hk' ⊢
      refine map_expected (Expr.searchOption_rewrite increment (hr.mono (by omega)))
        fun j new h h' => ?_
      simp only [Expr.length_preorderOption] at h'
      rw [init.rewrite_add (by omega), Expr.rewriteOption_add guard (by omega),
        body.rewrite_add (by omega)]
    · simp only [Expr.length_preorderOption] at hk' hk'' ⊢
      refine map_expected (search_rewrite body (hr.mono (by omega))) fun j new h h' => ?_
      rw [init.rewrite_add (by omega), Expr.rewriteOption_add guard (by omega),
        Expr.rewriteOption_add increment (by omega)]
  | .whileLoop cond body, b, k, hr => by
    simp only [rewrite, search, exprs]
    refine orElse_expected ?_ fun hk => ?_
    · refine map_expected (cond.search_rewrite hr) fun j new h h' => ?_
      simp only [Expr.length_preorder] at h'
      rw [body.rewrite_add (by omega)]
    · simp only [Expr.length_preorder] at hk ⊢
      refine map_expected (search_rewrite body (hr.mono (by omega))) fun j new h h' => ?_
      rw [cond.rewrite_add (by omega)]
  | .doWhile body cond, b, k, hr => by
    simp only [rewrite, search, exprs]
    refine orElse_expected ?_ fun hk => ?_
    · refine map_expected (search_rewrite body hr) fun j new h h' => ?_
      rw [cond.rewrite_add (by omega)]
    · refine map_expected (cond.search_rewrite (hr.mono (by omega))) fun j new h h' => ?_
      rw [body.rewrite_add (by omega)]
  | .ret value, b, k, hr => by
    simp only [rewrite, search, exprs]
    exact map_expected (Expr.searchOption_rewrite value hr) fun _ _ _ _ => rfl
  | .breakLoop, _, _, _ => by simp [rewrite, search, exprs, expected]
  | .continueLoop, _, _, _ => by simp [rewrite, search, exprs, expected]
  | .discard, _, _, _ => by simp [rewrite, search, exprs, expected]
  | .empty, _, _, _ => by simp [rewrite, search, exprs, expected]

theorem searchAll_rewrite {r : Replacement} : (ss : List Stmt) → {b k : Nat} →
    r.FreshTo (b + k) →
    searchAll (rewriteAll r ss b) k = expected r (exprsAll ss) (rewriteAll · ss b) b k
  | [], _, _, _ => by simp [rewriteAll, searchAll, exprsAll, expected]
  | s :: ss, b, k, hr => by
    simp only [rewriteAll, searchAll, exprsAll]
    refine orElse_expected ?_ fun hk => ?_
    · refine map_expected (search_rewrite s hr) fun j new h h' => ?_
      rw [rewriteAll_add ss (by omega)]
    · refine map_expected (searchAll_rewrite ss (hr.mono (by omega))) fun j new h h' => ?_
      rw [s.rewrite_add (by omega)]

end

end Stmt

namespace Declaration

theorem search_rewrite {r : Replacement} (d : Declaration) {b k : Nat} (hr : r.FreshTo (b + k)) :
    (d.rewrite r b).search k = expected r d.exprs (d.rewrite · b) b k := by
  cases d with
  | «variables» group => exact map_expected (group.search_rewrite hr) fun _ _ _ _ => rfl
  | function f => exact map_expected (Stmt.searchAll_rewrite f.body.stmts hr) fun _ _ _ _ => rfl
  | prototype head => simp [rewrite, search, exprs, expected]

theorem searchAll_rewrite {r : Replacement} (ds : List Declaration) {b k : Nat}
    (hr : r.FreshTo (b + k)) :
    searchAll (rewriteAll r ds b) k =
      expected r (ds.flatMap exprs) (rewriteAll · ds b) b k := by
  induction ds generalizing b k with
  | nil => simp [rewriteAll, searchAll, expected]
  | cons d ds ih =>
    simp only [rewriteAll, searchAll, List.flatMap_cons]
    refine orElse_expected ?_ fun hk => ?_
    · refine map_expected (d.search_rewrite hr) fun j new h h' => ?_
      rw [rewriteAll_add ds (by omega)]
    · refine map_expected (ih (hr.mono (by omega))) fun j new h h' => ?_
      rw [d.rewrite_add (by omega)]

end Declaration

namespace Program

/-- In a program that is rewritten behind `k` only, `k` names the expression
that it names in the program itself, rewritten inside; and putting another
one there is one more replacement. -/
theorem exprPlace?_rewrite {r : Replacement} (p : Program) {k : Nat} (hr : r.FreshTo k) :
    (p.rewrite r).exprPlace? k =
      p.exprs[k]?.map fun e => ⟨e.rewrite r k, fun new => p.rewrite (r.add k new)⟩ := by
  have hr : r.FreshTo (0 + k) := by simpa using hr
  have hs : Search.map (fun declarations => { p.rewrite r with declarations })
      (Declaration.searchAll (Declaration.rewriteAll r p.declarations 0) k) =
        expected r (p.declarations.flatMap Declaration.exprs) (p.rewrite ·) 0 k :=
    map_expected (Declaration.searchAll_rewrite p.declarations hr) fun _ _ _ _ => rfl
  have he : p.declarations.flatMap Declaration.exprs = p.exprs := rfl
  simp only [exprPlace?]
  rw [show (p.rewrite r).declarations = Declaration.rewriteAll r p.declarations 0 from rfl, hs,
    he, expected]
  cases h : p.exprs[k]? with
  | none => rfl
  | some e => simp [place?]

end Program

end ShaderMorph
