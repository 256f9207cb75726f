-- Replacing many expressions of a program at once, by their numbers. The
-- rewriting is told apart from the search for one number, and the two are
-- tied together: what the search finds in a program that is rewritten behind
-- the number asked for, and what it puts there, is again a rewriting.
import ShaderMorph.Address.Ordinal

namespace ShaderMorph

/-- What to put in the place of the expression with a number, if anything. -/
abbrev Replacement := Nat → Option Expr

namespace Replacement

/-- Nothing is replaced. -/
def nothing : Replacement := fun _ => none

/-- Replace one more expression. -/
def add (r : Replacement) (k : Nat) (e : Expr) : Replacement := fun j =>
  if j = k then some e else r j

@[simp] theorem nothing_apply (k : Nat) : nothing k = none := rfl

@[simp] theorem add_self (r : Replacement) (k : Nat) (e : Expr) : r.add k e k = some e := by
  simp [add]

theorem add_ne (r : Replacement) {j k : Nat} (e : Expr) (h : j ≠ k) : r.add k e j = r j := by
  simp [add, h]

/-- A replacement of one expression has nothing at any other number. -/
theorem eq_of_nothing_add {j k : Nat} {e new : Expr} (h : nothing.add k e j = some new) :
    j = k ∧ new = e := by
  by_cases hj : j = k
  · subst hj
    rw [add_self] at h
    exact ⟨rfl, (Option.some.inj h).symm⟩
  · rw [add_ne _ _ hj] at h
    cases h

end Replacement

/-! ## Rewriting

An expression that is replaced goes with everything inside it, so what is
asked for its parts does not matter. -/

namespace Expr

/-- The number of nodes of an expression that may be missing. -/
def sizeOption : Option Expr → Nat
  | none => 0
  | some e => e.size

mutual

/-- Rewrite an expression with number `k`. -/
def rewrite (r : Replacement) : (e : Expr) → (k : Nat) → Expr
  | .ident name, k => (r k).getD (.ident name)
  | .literal value, k => (r k).getD (.literal value)
  | .binary op lhs rhs, k =>
    (r k).getD (.binary op (lhs.rewrite r (k + 1)) (rhs.rewrite r (k + 1 + lhs.size)))
  | .unary op operand, k => (r k).getD (.unary op (operand.rewrite r (k + 1)))
  | .member base name, k => (r k).getD (.member (base.rewrite r (k + 1)) name)
  | .index base position, k =>
    (r k).getD (.index (base.rewrite r (k + 1)) (position.rewrite r (k + 1 + base.size)))
  | .call callee args, k => (r k).getD (.call callee (rewriteAll r args (k + 1)))
  | .ternary cond thenExpr elseExpr, k =>
    (r k).getD
      (.ternary (cond.rewrite r (k + 1)) (thenExpr.rewrite r (k + 1 + cond.size))
        (elseExpr.rewrite r (k + 1 + cond.size + thenExpr.size)))
  | .paren inner, k => (r k).getD (.paren (inner.rewrite r (k + 1)))

def rewriteAll (r : Replacement) : (es : List Expr) → (k : Nat) → List Expr
  | [], _ => []
  | e :: es, k => e.rewrite r k :: rewriteAll r es (k + e.size)

end

/-- Rewrite an expression that may be missing. -/
def rewriteOption (r : Replacement) (e : Option Expr) (k : Nat) : Option Expr :=
  e.map (·.rewrite r k)

end Expr

/-- Rewrite the initializers of variables. -/
def Variable.rewriteAll (r : Replacement) : (vs : List Variable) → (k : Nat) → List Variable
  | [], _ => []
  | v :: vs, k =>
    { v with initializer := Expr.rewriteOption r v.initializer k } ::
      rewriteAll r vs (k + Expr.sizeOption v.initializer)

def VariableGroup.rewrite (r : Replacement) (g : VariableGroup) (k : Nat) : VariableGroup :=
  { g with members := Variable.rewriteAll r g.members k }

namespace Stmt

mutual

/-- Rewrite the expressions of a statement, the first of them with number
`k`. -/
def rewrite (r : Replacement) : (s : Stmt) → (k : Nat) → Stmt
  | .block stmts opensFrame, k => .block (rewriteAll r stmts k) opensFrame
  | .decl group, k => .decl (group.rewrite r k)
  | .expr value, k => .expr (value.rewrite r k)
  | .ifThen cond thenBranch, k =>
    .ifThen (cond.rewrite r k) (thenBranch.rewrite r (k + cond.size))
  | .ifElse cond thenBranch elseBranch, k =>
    .ifElse (cond.rewrite r k) (thenBranch.rewrite r (k + cond.size))
      (elseBranch.rewrite r (k + cond.size + thenBranch.exprs.length))
  | .forLoop init guard increment body, k =>
    .forLoop (init.rewrite r k) (Expr.rewriteOption r guard (k + init.exprs.length))
      (Expr.rewriteOption r increment (k + init.exprs.length + Expr.sizeOption guard))
      (body.rewrite r
        (k + init.exprs.length + Expr.sizeOption guard + Expr.sizeOption increment))
  | .whileLoop cond body, k => .whileLoop (cond.rewrite r k) (body.rewrite r (k + cond.size))
  | .doWhile body cond, k =>
    .doWhile (body.rewrite r k) (cond.rewrite r (k + body.exprs.length))
  | .ret value, k => .ret (Expr.rewriteOption r value k)
  | .breakLoop, _ => .breakLoop
  | .continueLoop, _ => .continueLoop
  | .discard, _ => .discard
  | .empty, _ => .empty

def rewriteAll (r : Replacement) : (ss : List Stmt) → (k : Nat) → List Stmt
  | [], _ => []
  | s :: ss, k => s.rewrite r k :: rewriteAll r ss (k + s.exprs.length)

end

end Stmt

namespace Declaration

def rewrite (r : Replacement) : (d : Declaration) → (k : Nat) → Declaration
  | .variables group, k => .variables (group.rewrite r k)
  | .function f, k =>
      .function { f with body := { f.body with stmts := Stmt.rewriteAll r f.body.stmts k } }
  | .prototype head, _ => .prototype head

def rewriteAll (r : Replacement) : (ds : List Declaration) → (k : Nat) → List Declaration
  | [], _ => []
  | d :: ds, k => d.rewrite r k :: rewriteAll r ds (k + d.exprs.length)

end Declaration

/-- The program with all replacements made at once. -/
def Program.rewrite (r : Replacement) (p : Program) : Program :=
  { p with declarations := Declaration.rewriteAll r p.declarations 0 }

/-! ## Sizes -/

namespace Expr

mutual

@[simp] theorem length_preorder : (e : Expr) → e.preorder.length = e.size
  | .ident _ => rfl
  | .literal _ => rfl
  | .binary _ lhs rhs => by
    simp only [preorder, size, List.length_cons, List.length_append, length_preorder lhs,
      length_preorder rhs]
    omega
  | .unary _ operand => by
    simp only [preorder, size, List.length_cons, length_preorder operand]
    omega
  | .member base _ => by
    simp only [preorder, size, List.length_cons, length_preorder base]
    omega
  | .index base position => by
    simp only [preorder, size, List.length_cons, List.length_append, length_preorder base,
      length_preorder position]
    omega
  | .call _ args => by
    simp only [preorder, size, List.length_cons, length_preorderAll args]
    omega
  | .ternary cond thenExpr elseExpr => by
    simp only [preorder, size, List.length_cons, List.length_append, length_preorder cond,
      length_preorder thenExpr, length_preorder elseExpr]
    omega
  | .paren inner => by
    simp only [preorder, size, List.length_cons, length_preorder inner]
    omega

@[simp] theorem length_preorderAll : (es : List Expr) → (preorderAll es).length = sizeAll es
  | [] => rfl
  | e :: es => by
    simp only [preorderAll, sizeAll, List.length_append, length_preorder e, length_preorderAll es]

end

/-- The first expression inside one is itself. -/
theorem preorder_head (e : Expr) : e.preorder[0]? = some e := by cases e <;> rfl

@[simp] theorem length_preorderOption (e : Option Expr) :
    (e.toList.flatMap preorder).length = sizeOption e := by
  cases e <;> simp [sizeOption]

end Expr

/-- The expressions in the initializers of variables. -/
def Variable.exprsAll (vs : List Variable) : List Expr :=
  vs.flatMap fun v => v.initializer.toList.flatMap Expr.preorder

theorem VariableGroup.exprs_eq (g : VariableGroup) : g.exprs = Variable.exprsAll g.members := by
  unfold exprs initializers Variable.exprsAll
  induction g.members with
  | nil => rfl
  | cons v vs ih =>
    cases h : v.initializer <;> simp [h, ih]

/-! ## What a rewriting depends on

Only the numbers of the expressions that are there matter. -/

namespace Expr

mutual

theorem rewrite_congr {r r' : Replacement} : (e : Expr) → {k : Nat} →
    (∀ j, k ≤ j → j < k + e.size → r j = r' j) → e.rewrite r k = e.rewrite r' k
  | .ident _, k, h => by
    simp only [rewrite, h k (Nat.le_refl k) (by simp [size])]
  | .literal _, k, h => by
    simp only [rewrite, h k (Nat.le_refl k) (by simp [size])]
  | .binary _ lhs rhs, k, h => by
    simp only [size] at h
    simp only [rewrite]
    rw [h k (by omega) (by omega), rewrite_congr lhs fun j _ _ => h j (by omega) (by omega),
      rewrite_congr rhs fun j _ _ => h j (by omega) (by omega)]
  | .unary _ operand, k, h => by
    simp only [size] at h
    simp only [rewrite]
    rw [h k (by omega) (by omega), rewrite_congr operand fun j _ _ => h j (by omega) (by omega)]
  | .member base _, k, h => by
    simp only [size] at h
    simp only [rewrite]
    rw [h k (by omega) (by omega), rewrite_congr base fun j _ _ => h j (by omega) (by omega)]
  | .index base position, k, h => by
    simp only [size] at h
    simp only [rewrite]
    rw [h k (by omega) (by omega), rewrite_congr base fun j _ _ => h j (by omega) (by omega),
      rewrite_congr position fun j _ _ => h j (by omega) (by omega)]
  | .call _ args, k, h => by
    simp only [size] at h
    simp only [rewrite]
    rw [h k (by omega) (by omega), rewriteAll_congr args fun j _ _ => h j (by omega) (by omega)]
  | .ternary cond thenExpr elseExpr, k, h => by
    simp only [size] at h
    simp only [rewrite]
    rw [h k (by omega) (by omega), rewrite_congr cond fun j _ _ => h j (by omega) (by omega),
      rewrite_congr thenExpr fun j _ _ => h j (by omega) (by omega),
      rewrite_congr elseExpr fun j _ _ => h j (by omega) (by omega)]
  | .paren inner, k, h => by
    simp only [size] at h
    simp only [rewrite]
    rw [h k (by omega) (by omega), rewrite_congr inner fun j _ _ => h j (by omega) (by omega)]

theorem rewriteAll_congr {r r' : Replacement} : (es : List Expr) → {k : Nat} →
    (∀ j, k ≤ j → j < k + sizeAll es → r j = r' j) → rewriteAll r es k = rewriteAll r' es k
  | [], _, _ => rfl
  | e :: es, k, h => by
    simp only [sizeAll] at h
    simp only [rewriteAll]
    rw [rewrite_congr e fun j _ _ => h j (by omega) (by omega),
      rewriteAll_congr es fun j _ _ => h j (by omega) (by omega)]

end

theorem rewriteOption_congr {r r' : Replacement} (e : Option Expr) {k : Nat}
    (h : ∀ j, k ≤ j → j < k + sizeOption e → r j = r' j) :
    rewriteOption r e k = rewriteOption r' e k := by
  cases e with
  | none => rfl
  | some e => simp only [rewriteOption, Option.map_some, rewrite_congr e h]

end Expr

theorem Variable.rewriteAll_congr {r r' : Replacement} (vs : List Variable) {k : Nat}
    (h : ∀ j, k ≤ j → j < k + (exprsAll vs).length → r j = r' j) :
    rewriteAll r vs k = rewriteAll r' vs k := by
  induction vs generalizing k with
  | nil => rfl
  | cons v vs ih =>
    simp only [exprsAll, List.flatMap_cons, List.length_append, Expr.length_preorderOption] at h
    simp only [rewriteAll]
    rw [Expr.rewriteOption_congr v.initializer fun j _ _ => h j (by omega) (by omega),
      ih fun j _ h' => h j (by omega) (by simp only [exprsAll] at h'; omega)]

theorem VariableGroup.rewrite_congr {r r' : Replacement} (g : VariableGroup) {k : Nat}
    (h : ∀ j, k ≤ j → j < k + g.exprs.length → r j = r' j) : g.rewrite r k = g.rewrite r' k := by
  rw [g.exprs_eq] at h
  simp only [rewrite, Variable.rewriteAll_congr g.members h]

namespace Stmt

mutual

theorem rewrite_congr {r r' : Replacement} : (s : Stmt) → {k : Nat} →
    (∀ j, k ≤ j → j < k + s.exprs.length → r j = r' j) → s.rewrite r k = s.rewrite r' k
  | .block stmts _, k, h => by
    simp only [exprs] at h
    simp only [rewrite, rewriteAll_congr stmts h]
  | .decl group, k, h => by
    simp only [exprs] at h
    simp only [rewrite, group.rewrite_congr h]
  | .expr value, k, h => by
    simp only [exprs, Expr.length_preorder] at h
    simp only [rewrite, value.rewrite_congr h]
  | .ifThen cond thenBranch, k, h => by
    simp only [exprs, List.length_append, Expr.length_preorder] at h
    simp only [rewrite]
    rw [cond.rewrite_congr fun j _ _ => h j (by omega) (by omega),
      rewrite_congr thenBranch fun j _ _ => h j (by omega) (by omega)]
  | .ifElse cond thenBranch elseBranch, k, h => by
    simp only [exprs, List.length_append, Expr.length_preorder] at h
    simp only [rewrite]
    rw [cond.rewrite_congr fun j _ _ => h j (by omega) (by omega),
      rewrite_congr thenBranch fun j _ _ => h j (by omega) (by omega),
      rewrite_congr elseBranch fun j _ _ => h j (by omega) (by omega)]
  | .forLoop init guard increment body, k, h => by
    simp only [exprs, List.length_append, Expr.length_preorderOption] at h
    simp only [rewrite]
    rw [rewrite_congr init fun j _ _ => h j (by omega) (by omega),
      Expr.rewriteOption_congr guard fun j _ _ => h j (by omega) (by omega),
      Expr.rewriteOption_congr increment fun j _ _ => h j (by omega) (by omega),
      rewrite_congr body fun j _ _ => h j (by omega) (by omega)]
  | .whileLoop cond body, k, h => by
    simp only [exprs, List.length_append, Expr.length_preorder] at h
    simp only [rewrite]
    rw [cond.rewrite_congr fun j _ _ => h j (by omega) (by omega),
      rewrite_congr body fun j _ _ => h j (by omega) (by omega)]
  | .doWhile body cond, k, h => by
    simp only [exprs, List.length_append, Expr.length_preorder] at h
    simp only [rewrite]
    rw [rewrite_congr body fun j _ _ => h j (by omega) (by omega),
      cond.rewrite_congr fun j _ _ => h j (by omega) (by omega)]
  | .ret value, k, h => by
    simp only [exprs, Expr.length_preorderOption] at h
    simp only [rewrite, Expr.rewriteOption_congr value h]
  | .breakLoop, _, _ => rfl
  | .continueLoop, _, _ => rfl
  | .discard, _, _ => rfl
  | .empty, _, _ => rfl

theorem rewriteAll_congr {r r' : Replacement} : (ss : List Stmt) → {k : Nat} →
    (∀ j, k ≤ j → j < k + (exprsAll ss).length → r j = r' j) →
      rewriteAll r ss k = rewriteAll r' ss k
  | [], _, _ => rfl
  | s :: ss, k, h => by
    simp only [exprsAll, List.length_append] at h
    simp only [rewriteAll]
    rw [rewrite_congr s fun j _ _ => h j (by omega) (by omega),
      rewriteAll_congr ss fun j _ _ => h j (by omega) (by omega)]

end

end Stmt

namespace Declaration

theorem rewrite_congr {r r' : Replacement} (d : Declaration) {k : Nat}
    (h : ∀ j, k ≤ j → j < k + d.exprs.length → r j = r' j) : d.rewrite r k = d.rewrite r' k := by
  cases d with
  | «variables» group => simp only [rewrite, group.rewrite_congr h]
  | function f => simp only [rewrite, Stmt.rewriteAll_congr f.body.stmts h]
  | prototype head => rfl

theorem rewriteAll_congr {r r' : Replacement} (ds : List Declaration) {k : Nat}
    (h : ∀ j, k ≤ j → j < k + (ds.flatMap exprs).length → r j = r' j) :
    rewriteAll r ds k = rewriteAll r' ds k := by
  induction ds generalizing k with
  | nil => rfl
  | cons d ds ih =>
    simp only [List.flatMap_cons, List.length_append] at h
    simp only [rewriteAll]
    rw [rewrite_congr d fun j _ _ => h j (by omega) (by omega),
      ih fun j _ _ => h j (by omega) (by omega)]

end Declaration

/-! ## Nothing replaced -/

namespace Expr

mutual

theorem rewrite_nothing : (e : Expr) → (k : Nat) → e.rewrite .nothing k = e
  | .ident _, _ => rfl
  | .literal _, _ => rfl
  | .binary _ lhs rhs, _ => by
    simp only [rewrite, Replacement.nothing_apply, Option.getD_none, rewrite_nothing lhs,
      rewrite_nothing rhs]
  | .unary _ operand, _ => by
    simp only [rewrite, Replacement.nothing_apply, Option.getD_none, rewrite_nothing operand]
  | .member base _, _ => by
    simp only [rewrite, Replacement.nothing_apply, Option.getD_none, rewrite_nothing base]
  | .index base position, _ => by
    simp only [rewrite, Replacement.nothing_apply, Option.getD_none, rewrite_nothing base,
      rewrite_nothing position]
  | .call _ args, _ => by
    simp only [rewrite, Replacement.nothing_apply, Option.getD_none, rewriteAll_nothing args]
  | .ternary cond thenExpr elseExpr, _ => by
    simp only [rewrite, Replacement.nothing_apply, Option.getD_none, rewrite_nothing cond,
      rewrite_nothing thenExpr, rewrite_nothing elseExpr]
  | .paren inner, _ => by
    simp only [rewrite, Replacement.nothing_apply, Option.getD_none, rewrite_nothing inner]

theorem rewriteAll_nothing : (es : List Expr) → (k : Nat) → rewriteAll .nothing es k = es
  | [], _ => rfl
  | e :: es, _ => by simp only [rewriteAll, rewrite_nothing e, rewriteAll_nothing es]

end

theorem rewriteOption_nothing (e : Option Expr) (k : Nat) : rewriteOption .nothing e k = e := by
  cases e <;> simp [rewriteOption, rewrite_nothing]

end Expr

theorem Variable.rewriteAll_nothing (vs : List Variable) (k : Nat) :
    rewriteAll .nothing vs k = vs := by
  induction vs generalizing k with
  | nil => rfl
  | cons v vs ih => simp only [rewriteAll, Expr.rewriteOption_nothing, ih]

theorem VariableGroup.rewrite_nothing (g : VariableGroup) (k : Nat) : g.rewrite .nothing k = g := by
  simp only [rewrite, Variable.rewriteAll_nothing]

namespace Stmt

mutual

theorem rewrite_nothing : (s : Stmt) → (k : Nat) → s.rewrite .nothing k = s
  | .block stmts _, _ => by simp only [rewrite, rewriteAll_nothing stmts]
  | .decl group, _ => by simp only [rewrite, group.rewrite_nothing]
  | .expr value, _ => by simp only [rewrite, value.rewrite_nothing]
  | .ifThen cond thenBranch, _ => by
    simp only [rewrite, cond.rewrite_nothing, rewrite_nothing thenBranch]
  | .ifElse cond thenBranch elseBranch, _ => by
    simp only [rewrite, cond.rewrite_nothing, rewrite_nothing thenBranch,
      rewrite_nothing elseBranch]
  | .forLoop init _ _ body, _ => by
    simp only [rewrite, rewrite_nothing init, Expr.rewriteOption_nothing, rewrite_nothing body]
  | .whileLoop cond body, _ => by
    simp only [rewrite, cond.rewrite_nothing, rewrite_nothing body]
  | .doWhile body cond, _ => by
    simp only [rewrite, cond.rewrite_nothing, rewrite_nothing body]
  | .ret value, _ => by simp only [rewrite, Expr.rewriteOption_nothing]
  | .breakLoop, _ => rfl
  | .continueLoop, _ => rfl
  | .discard, _ => rfl
  | .empty, _ => rfl

theorem rewriteAll_nothing : (ss : List Stmt) → (k : Nat) → rewriteAll .nothing ss k = ss
  | [], _ => rfl
  | s :: ss, _ => by simp only [rewriteAll, rewrite_nothing s, rewriteAll_nothing ss]

end

end Stmt

theorem Declaration.rewriteAll_nothing (ds : List Declaration) (k : Nat) :
    rewriteAll .nothing ds k = ds := by
  induction ds generalizing k with
  | nil => rfl
  | cons d ds ih =>
    have hd : d.rewrite .nothing k = d := by
      cases d with
      | «variables» group => simp only [rewrite, group.rewrite_nothing]
      | function f => simp only [rewrite, Stmt.rewriteAll_nothing]
      | prototype head => rfl
    simp only [rewriteAll, hd, ih]

/-- Replacing nothing leaves a program as it is. -/
theorem Program.rewrite_nothing (p : Program) : p.rewrite .nothing = p := by
  simp only [rewrite, Declaration.rewriteAll_nothing]

/-! ## Expressions and their first parts -/

/-- A list of expressions in which each one that has parts comes right before
the first of them. -/
def PartsFollow (es : List Expr) : Prop :=
  ∀ k e first, es[k]? = some e → e.children.head? = some first → es[k + 1]? = some first

namespace PartsFollow

theorem nil : PartsFollow [] := by
  intro k e first h
  cases h

theorem append {es es' : List Expr} (h : PartsFollow es) (h' : PartsFollow es') :
    PartsFollow (es ++ es') := by
  intro k e first hk hf
  rcases Nat.lt_or_ge k es.length with hlt | hge
  · rw [List.getElem?_append_left hlt] at hk
    have hnext := h k e first hk hf
    have hlt' : k + 1 < es.length := (List.getElem?_eq_some_iff.1 hnext).1
    rwa [List.getElem?_append_left hlt']
  · rw [List.getElem?_append_right hge] at hk
    have hnext := h' _ e first hk hf
    have hsub : k + 1 - es.length = k - es.length + 1 := by omega
    rw [List.getElem?_append_right (Nat.le_succ_of_le hge), hsub]
    exact hnext

theorem flatMap {l : List α} {f : α → List Expr} (h : ∀ a ∈ l, PartsFollow (f a)) :
    PartsFollow (l.flatMap f) := by
  induction l with
  | nil => exact nil
  | cons a l ih =>
    obtain ⟨ha, hl⟩ := List.forall_mem_cons.1 h
    exact ha.append (ih hl)

/-- An expression in front of its parts. -/
theorem cons {e : Expr} {es : List Expr} (h : PartsFollow es)
    (he : ∀ first, e.children.head? = some first → es[0]? = some first) :
    PartsFollow (e :: es) := by
  intro k e' first hk hf
  cases k with
  | zero =>
    obtain rfl : e = e' := by simpa using hk
    simpa using he first hf
  | succ k => exact h k e' first hk hf

end PartsFollow

namespace Expr

theorem preorder_append_head (e : Expr) (es : List Expr) : (e.preorder ++ es)[0]? = some e := by
  have hlt : 0 < e.preorder.length := by
    rw [length_preorder]
    exact e.size_pos
  rw [List.getElem?_append_left hlt, preorder_head]

theorem preorderAll_head (es : List Expr) : (preorderAll es)[0]? = es.head? := by
  cases es with
  | nil => rfl
  | cons e es => exact preorder_append_head e _

mutual

theorem partsFollow : (e : Expr) → PartsFollow e.preorder
  | .ident _ => PartsFollow.nil.cons (by simp [children])
  | .literal _ => PartsFollow.nil.cons (by simp [children])
  | .binary _ lhs rhs => ((partsFollow lhs).append (partsFollow rhs)).cons (by
    simp [children, preorder_append_head])
  | .unary _ operand => (partsFollow operand).cons (by simp [children, preorder_head])
  | .member base _ => (partsFollow base).cons (by simp [children, preorder_head])
  | .index base position => ((partsFollow base).append (partsFollow position)).cons (by
    simp [children, preorder_append_head])
  | .call _ args => (partsFollowAll args).cons (by simp [children, preorderAll_head])
  | .ternary cond thenExpr elseExpr =>
    (((partsFollow cond).append (partsFollow thenExpr)).append (partsFollow elseExpr)).cons (by
      simp [children, preorder_append_head])
  | .paren inner => (partsFollow inner).cons (by simp [children, preorder_head])

theorem partsFollowAll : (es : List Expr) → PartsFollow (preorderAll es)
  | [] => .nil
  | e :: es => (partsFollow e).append (partsFollowAll es)

end

end Expr

end ShaderMorph
