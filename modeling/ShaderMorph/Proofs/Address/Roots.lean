-- The expressions of a program that are no part of another one. A function
-- can be applied to all of them and leaves the rest of the program as it is.
-- Two programs that differ by a rewriting are the same under such a function
-- as soon as it cannot tell each of these expressions from the rewritten one.
import ShaderMorph.Proofs.Address.Rewriting

namespace ShaderMorph

/-- What an expression that is no part of another one is there for. -/
inductive Root
  | initializer (isConst isGlobal : Bool)
  /-- The guard or the increment of a `for`. -/
  | forHeader
  | plain
deriving DecidableEq, Repr

/-! ## A function on all of them -/

section

variable (f : Root → Expr → Expr)

def VariableGroup.mapRoots (isGlobal : Bool) (g : VariableGroup) : VariableGroup :=
  { g with
    members := g.members.map fun v =>
      { v with initializer := v.initializer.map (f (.initializer g.isConst isGlobal)) } }

namespace Stmt

mutual

/-- Apply a function to the expressions of a statement that are no parts of
others. -/
def mapRoots : Stmt → Stmt
  | .block stmts opensFrame => .block (mapRootsAll stmts) opensFrame
  | .decl group => .decl (group.mapRoots f false)
  | .expr value => .expr (f .plain value)
  | .ifThen cond thenBranch => .ifThen (f .plain cond) thenBranch.mapRoots
  | .ifElse cond thenBranch elseBranch =>
    .ifElse (f .plain cond) thenBranch.mapRoots elseBranch.mapRoots
  | .forLoop init guard increment body =>
    .forLoop init.mapRoots (guard.map (f .forHeader)) (increment.map (f .forHeader)) body.mapRoots
  | .whileLoop cond body => .whileLoop (f .plain cond) body.mapRoots
  | .doWhile body cond => .doWhile body.mapRoots (f .plain cond)
  | .ret value => .ret (value.map (f .plain))
  | .breakLoop => .breakLoop
  | .continueLoop => .continueLoop
  | .discard => .discard
  | .empty => .empty

def mapRootsAll : List Stmt → List Stmt
  | [] => []
  | s :: ss => s.mapRoots :: mapRootsAll ss

end

end Stmt

def Declaration.mapRoots : Declaration → Declaration
  | .variables group => .variables (group.mapRoots f true)
  | .function d =>
    .function { d with body := { d.body with stmts := Stmt.mapRootsAll f d.body.stmts } }
  | .prototype head => .prototype head

/-- Apply a function to all expressions that are no parts of others. -/
def Program.mapRoots (p : Program) : Program :=
  { p with declarations := p.declarations.map (Declaration.mapRoots f) }

end

/-! ## Listing them -/

/-- The initializers of variables, for whatever they are there. -/
def Variable.roots (root : Root) (vs : List Variable) : List (Root × Expr) :=
  vs.flatMap fun v => v.initializer.toList.map (root, ·)

def VariableGroup.roots (isGlobal : Bool) (g : VariableGroup) : List (Root × Expr) :=
  Variable.roots (.initializer g.isConst isGlobal) g.members

namespace Stmt

mutual

/-- The expressions of a statement that are no parts of others, in order. -/
def roots : Stmt → List (Root × Expr)
  | .block stmts _ => rootsAll stmts
  | .decl group => group.roots false
  | .expr value => [(.plain, value)]
  | .ifThen cond thenBranch => (.plain, cond) :: thenBranch.roots
  | .ifElse cond thenBranch elseBranch => (.plain, cond) :: (thenBranch.roots ++ elseBranch.roots)
  | .forLoop init guard increment body =>
    init.roots ++ (guard.toList.map (.forHeader, ·) ++
      (increment.toList.map (.forHeader, ·) ++ body.roots))
  | .whileLoop cond body => (.plain, cond) :: body.roots
  | .doWhile body cond => body.roots ++ [(.plain, cond)]
  | .ret value => value.toList.map (.plain, ·)
  | .breakLoop => []
  | .continueLoop => []
  | .discard => []
  | .empty => []

def rootsAll : List Stmt → List (Root × Expr)
  | [] => []
  | s :: ss => s.roots ++ rootsAll ss

end

end Stmt

def Declaration.roots : Declaration → List (Root × Expr)
  | .variables group => group.roots true
  | .function d => Stmt.rootsAll d.body.stmts
  | .prototype _ => []

def Program.roots (p : Program) : List (Root × Expr) := p.declarations.flatMap Declaration.roots

/-! ## They hold all expressions -/

/-- Everything inside the expressions of a list. -/
def Root.exprs (l : List (α × Expr)) : List Expr := l.flatMap fun a => a.2.preorder

@[simp] theorem Root.exprs_nil : exprs ([] : List (α × Expr)) = [] := rfl

@[simp] theorem Root.exprs_cons (a : α) (e : Expr) (l : List (α × Expr)) :
    exprs ((a, e) :: l) = e.preorder ++ exprs l := rfl

@[simp] theorem Root.exprs_append (l l' : List (α × Expr)) :
    exprs (l ++ l') = exprs l ++ exprs l' := List.flatMap_append

@[simp] theorem Root.exprs_option (a : α) (e : Option Expr) :
    exprs (e.toList.map (a, ·)) = e.toList.flatMap Expr.preorder := by
  cases e <;> rfl

theorem Variable.roots_exprs (root : Root) (vs : List Variable) :
    Root.exprs (roots root vs) = exprsAll vs := by
  induction vs with
  | nil => rfl
  | cons v vs ih =>
    simp only [roots, exprsAll, List.flatMap_cons] at ih ⊢
    rw [Root.exprs_append, Root.exprs_option, ih]

theorem VariableGroup.roots_exprs (isGlobal : Bool) (g : VariableGroup) :
    Root.exprs (g.roots isGlobal) = g.exprs := by
  rw [roots, Variable.roots_exprs, exprs_eq]

namespace Stmt

mutual

theorem roots_exprs : (s : Stmt) → Root.exprs s.roots = s.exprs
  | .block stmts _ => by simp only [roots, exprs, rootsAll_exprs stmts]
  | .decl group => by simp only [roots, exprs, group.roots_exprs]
  | .expr value => by simp [roots, exprs]
  | .ifThen cond thenBranch => by simp [roots, exprs, roots_exprs thenBranch]
  | .ifElse cond thenBranch elseBranch => by
    simp [roots, exprs, roots_exprs thenBranch, roots_exprs elseBranch]
  | .forLoop init guard increment body => by
    simp [roots, exprs, roots_exprs init, roots_exprs body]
  | .whileLoop cond body => by simp [roots, exprs, roots_exprs body]
  | .doWhile body cond => by simp [roots, exprs, roots_exprs body]
  | .ret value => by simp [roots, exprs]
  | .breakLoop => rfl
  | .continueLoop => rfl
  | .discard => rfl
  | .empty => rfl

theorem rootsAll_exprs : (ss : List Stmt) → Root.exprs (rootsAll ss) = exprsAll ss
  | [] => rfl
  | s :: ss =>
      by simp only [rootsAll, exprsAll, Root.exprs_append, roots_exprs s, rootsAll_exprs ss]

end

end Stmt

theorem Declaration.roots_exprs (d : Declaration) : Root.exprs d.roots = d.exprs := by
  cases d with
  | «variables» group => exact group.roots_exprs true
  | function d => exact Stmt.rootsAll_exprs d.body.stmts
  | prototype head => rfl

theorem Program.roots_exprs (p : Program) : Root.exprs p.roots = p.exprs := by
  unfold roots exprs
  induction p.declarations with
  | nil => rfl
  | cons d ds ih =>
    rw [List.flatMap_cons, List.flatMap_cons, Root.exprs_append, ih, d.roots_exprs]

/-! ## Them and a rewriting -/

/-- Each expression of a list, the first of which has number `k`, is related
to what a rewriting makes of it. -/
def Replacement.Relates (r : Replacement) (P : α → Expr → Expr → Prop) :
    (k : Nat) → List (α × Expr) → Prop
  | _, [] => True
  | k, (a, e) :: l => P a e (e.rewrite r k) ∧ Relates r P (k + e.size) l

namespace Replacement

variable {r : Replacement} {P : α → Expr → Expr → Prop}

theorem relates_append {k : Nat} {l l' : List (α × Expr)} :
    r.Relates P k (l ++ l') ↔
      r.Relates P k l ∧ r.Relates P (k + (Root.exprs l).length) l' := by
  induction l generalizing k with
  | nil => simp [Relates]
  | cons a l ih =>
    obtain ⟨a, e⟩ := a
    simp only [List.cons_append, Relates, ih, Root.exprs_cons, List.length_append,
      Expr.length_preorder, and_assoc, Nat.add_assoc]

theorem relates_option {k : Nat} {a : α} {e : Option Expr} :
    r.Relates P k (e.toList.map (a, ·)) ↔ ∀ e' ∈ e, P a e' (e'.rewrite r k) := by
  cases e <;> simp [Relates]

end Replacement

section

variable {r : Replacement} {f : Root → Expr → Expr}

/-- A function cannot tell expressions from the rewritten ones. -/
def Replacement.Blurred (r : Replacement) (f : Root → Expr → Expr) :
    (k : Nat) → List (Root × Expr) → Prop :=
  r.Relates fun a e e' => f a e' = f a e

theorem Expr.map_rewriteOption {k : Nat} {root : Root} {e : Option Expr}
    (h : r.Blurred f k (e.toList.map (root, ·))) :
    (rewriteOption r e k).map (f root) = e.map (f root) := by
  cases e with
  | none => rfl
  | some e =>
    have he : f root (e.rewrite r k) = f root e := Replacement.relates_option.1 h e rfl
    simp only [rewriteOption, Option.map_some, he]

theorem Variable.mapRoots_rewrite {k : Nat} {root : Root} {vs : List Variable}
    (h : r.Blurred f k (roots root vs)) :
    (rewriteAll r vs k).map (fun v => { v with initializer := v.initializer.map (f root) }) =
      vs.map fun v => { v with initializer := v.initializer.map (f root) } := by
  induction vs generalizing k with
  | nil => rfl
  | cons v vs ih =>
    obtain ⟨hv, hvs⟩ := Replacement.relates_append.1 h
    rw [Root.exprs_option, Expr.length_preorderOption] at hvs
    simp only [rewriteAll, List.map_cons, Expr.map_rewriteOption hv, ih hvs]

theorem VariableGroup.mapRoots_rewrite {k : Nat} {isGlobal : Bool} {g : VariableGroup}
    (h : r.Blurred f k (g.roots isGlobal)) :
    (g.rewrite r k).mapRoots f isGlobal = g.mapRoots f isGlobal := by
  have hconst : (g.rewrite r k).isConst = g.isConst := rfl
  unfold mapRoots
  rw [hconst]
  simp only [rewrite, Variable.mapRoots_rewrite h]

namespace Stmt

mutual

theorem mapRoots_rewrite : (s : Stmt) → {k : Nat} → r.Blurred f k s.roots →
    (s.rewrite r k).mapRoots f = s.mapRoots f
  | .block stmts _, _, h => by
    simp only [roots] at h
    simp only [rewrite, mapRoots, mapRootsAll_rewrite stmts h]
  | .decl group, _, h => by
    simp only [roots] at h
    simp only [rewrite, mapRoots, VariableGroup.mapRoots_rewrite h]
  | .expr value, _, h => by
    simp only [roots] at h
    have hvalue := h.1
    simp only [rewrite, mapRoots, hvalue]
  | .ifThen cond thenBranch, _, h => by
    simp only [roots] at h
    obtain ⟨hcond, hthen⟩ := h
    simp only [rewrite, mapRoots, hcond, mapRoots_rewrite thenBranch hthen]
  | .ifElse cond thenBranch elseBranch, _, h => by
    simp only [roots] at h
    obtain ⟨hcond, hrest⟩ := h
    obtain ⟨hthen, helse⟩ := Replacement.relates_append.1 hrest
    rw [roots_exprs] at helse
    simp only [rewrite, mapRoots, hcond, mapRoots_rewrite thenBranch hthen,
      mapRoots_rewrite elseBranch helse]
  | .forLoop init guard increment body, _, h => by
    simp only [roots] at h
    obtain ⟨hinit, hrest⟩ := Replacement.relates_append.1 h
    obtain ⟨hguard, hrest⟩ := Replacement.relates_append.1 hrest
    obtain ⟨hincrement, hbody⟩ := Replacement.relates_append.1 hrest
    rw [roots_exprs] at hguard
    rw [roots_exprs, Root.exprs_option, Expr.length_preorderOption] at hincrement
    rw [roots_exprs, Root.exprs_option, Root.exprs_option, Expr.length_preorderOption,
      Expr.length_preorderOption] at hbody
    simp only [rewrite, mapRoots, mapRoots_rewrite init hinit, Expr.map_rewriteOption hguard,
      Expr.map_rewriteOption hincrement, mapRoots_rewrite body hbody]
  | .whileLoop cond body, _, h => by
    simp only [roots] at h
    obtain ⟨hcond, hbody⟩ := h
    simp only [rewrite, mapRoots, hcond, mapRoots_rewrite body hbody]
  | .doWhile body cond, _, h => by
    simp only [roots] at h
    obtain ⟨hbody, hcond⟩ := Replacement.relates_append.1 h
    rw [roots_exprs] at hcond
    have hcond := hcond.1
    simp only [rewrite, mapRoots, hcond, mapRoots_rewrite body hbody]
  | .ret value, _, h => by
    simp only [roots] at h
    simp only [rewrite, mapRoots, Expr.map_rewriteOption h]
  | .breakLoop, _, _ => rfl
  | .continueLoop, _, _ => rfl
  | .discard, _, _ => rfl
  | .empty, _, _ => rfl

theorem mapRootsAll_rewrite : (ss : List Stmt) → {k : Nat} → r.Blurred f k (rootsAll ss) →
    mapRootsAll f (rewriteAll r ss k) = mapRootsAll f ss
  | [], _, _ => rfl
  | s :: ss, _, h => by
    simp only [rootsAll] at h
    obtain ⟨hs, hss⟩ := Replacement.relates_append.1 h
    rw [roots_exprs] at hss
    simp only [rewriteAll, mapRootsAll, mapRoots_rewrite s hs, mapRootsAll_rewrite ss hss]

end

end Stmt

theorem Declaration.mapRoots_rewrite {d : Declaration} {k : Nat} (h : r.Blurred f k d.roots) :
    (d.rewrite r k).mapRoots f = d.mapRoots f := by
  cases d with
  | «variables» group => simp only [rewrite, mapRoots, VariableGroup.mapRoots_rewrite h]
  | function d => simp only [rewrite, mapRoots, Stmt.mapRootsAll_rewrite d.body.stmts h]
  | prototype head => rfl

/-- A function that cannot tell the expressions from the rewritten ones cannot
tell the programs apart. -/
theorem Program.mapRoots_rewrite {p : Program} (h : r.Blurred f 0 p.roots) :
    (p.rewrite r).mapRoots f = p.mapRoots f := by
  have hall : ∀ (ds : List Declaration) (k : Nat), r.Blurred f k (ds.flatMap Declaration.roots) →
      (Declaration.rewriteAll r ds k).map (Declaration.mapRoots f) =
        ds.map (Declaration.mapRoots f) := by
    intro ds
    induction ds with
    | nil => exact fun _ _ => rfl
    | cons d ds ih =>
      intro k h
      obtain ⟨hd, hds⟩ := Replacement.relates_append.1 h
      rw [Declaration.roots_exprs] at hds
      simp only [Declaration.rewriteAll, List.map_cons, Declaration.mapRoots_rewrite hd, ih _ hds]
  simp only [mapRoots, rewrite, hall p.declarations 0 h]

end

/-! ## What makes up a program

A program is told by its expressions that are no parts of others, in order,
and by what it is with any expression in the place of each of them. Either
half is compared together with what follows it, so that lists that were put
side by side come apart again. -/

/-- Any expression, in the place of all. -/
def Root.blank : Root → Expr → Expr := fun _ _ => .ident ""

theorem Expr.eq_of_roots {root root' : Root} {e e' : Option Expr} {l l' : List Expr}
    (h : e.map (Root.blank root) = e'.map (Root.blank root'))
    (hr : (e.toList.map (root, ·)).map (·.2) ++ l = (e'.toList.map (root', ·)).map (·.2) ++ l') :
    e = e' ∧ l = l' := by
  cases e <;> cases e' <;> simp_all

theorem Variable.eq_of_roots {root root' : Root} {vs vs' : List Variable} {l l' : List Expr}
    (h : vs.map (fun v => { v with initializer := v.initializer.map (Root.blank root) }) =
      vs'.map (fun v => { v with initializer := v.initializer.map (Root.blank root') }))
    (hr : (roots root vs).map (·.2) ++ l = (roots root' vs').map (·.2) ++ l') :
    vs = vs' ∧ l = l' := by
  induction vs generalizing vs' with
  | nil =>
    cases vs' with
    | nil => exact ⟨rfl, hr⟩
    | cons v' vs' => simp at h
  | cons v vs ih =>
    cases vs' with
    | nil => simp at h
    | cons v' vs' =>
      simp only [List.map_cons, List.cons.injEq] at h
      obtain ⟨hv, h⟩ := h
      obtain ⟨name, size, initializer⟩ := v
      obtain ⟨name', size', initializer'⟩ := v'
      simp only [Variable.mk.injEq] at hv
      obtain ⟨rfl, rfl, hi⟩ := hv
      rw [roots, roots, List.flatMap_cons, List.flatMap_cons, List.map_append, List.map_append,
        List.append_assoc, List.append_assoc] at hr
      obtain ⟨rfl, hvs⟩ := Expr.eq_of_roots hi hr
      obtain ⟨rfl, hl⟩ := ih h hvs
      exact ⟨rfl, hl⟩

theorem VariableGroup.eq_of_roots {isGlobal : Bool} {g g' : VariableGroup} {l l' : List Expr}
    (h : g.mapRoots Root.blank isGlobal = g'.mapRoots Root.blank isGlobal)
    (hr : (g.roots isGlobal).map (·.2) ++ l = (g'.roots isGlobal).map (·.2) ++ l') :
    g = g' ∧ l = l' := by
  obtain ⟨qualifiers, type, members⟩ := g
  obtain ⟨qualifiers', type', members'⟩ := g'
  simp only [mapRoots, VariableGroup.mk.injEq] at h
  obtain ⟨rfl, rfl, h⟩ := h
  obtain ⟨rfl, hl⟩ := Variable.eq_of_roots h hr
  exact ⟨rfl, hl⟩

namespace Stmt

mutual

theorem eq_of_roots : (s s' : Stmt) → {l l' : List Expr} →
    s.mapRoots Root.blank = s'.mapRoots Root.blank →
    s.roots.map (·.2) ++ l = s'.roots.map (·.2) ++ l' → s = s' ∧ l = l'
  | .block stmts _, s', _, _, h, hr => by
    cases s' <;> simp only [mapRoots, reduceCtorEq, block.injEq] at h
    obtain ⟨h, rfl⟩ := h
    simp only [roots] at hr
    obtain ⟨rfl, hl⟩ := eqAll_of_roots stmts _ h hr
    exact ⟨rfl, hl⟩
  | .decl group, s', _, _, h, hr => by
    cases s' <;> simp only [mapRoots, reduceCtorEq, decl.injEq] at h
    simp only [roots] at hr
    obtain ⟨rfl, hl⟩ := VariableGroup.eq_of_roots h hr
    exact ⟨rfl, hl⟩
  | .expr value, s', _, _, h, hr => by
    cases s' <;> simp only [mapRoots, reduceCtorEq] at h
    simp only [roots, List.map_cons, List.map_nil, List.cons_append, List.nil_append,
      List.cons.injEq] at hr
    obtain ⟨rfl, hl⟩ := hr
    exact ⟨rfl, hl⟩
  | .ifThen cond thenBranch, s', _, _, h, hr => by
    cases s' <;> simp only [mapRoots, reduceCtorEq, ifThen.injEq] at h
    simp only [roots, List.map_cons, List.cons_append, List.cons.injEq] at hr
    obtain ⟨rfl, hthen⟩ := hr
    obtain ⟨rfl, hl⟩ := eq_of_roots thenBranch _ h.2 hthen
    exact ⟨rfl, hl⟩
  | .ifElse cond thenBranch elseBranch, s', _, _, h, hr => by
    cases s' <;> simp only [mapRoots, reduceCtorEq, ifElse.injEq] at h
    simp only [roots, List.map_cons, List.map_append, List.cons_append, List.append_assoc,
      List.cons.injEq] at hr
    obtain ⟨rfl, hthen⟩ := hr
    obtain ⟨rfl, helse⟩ := eq_of_roots thenBranch _ h.2.1 hthen
    obtain ⟨rfl, hl⟩ := eq_of_roots elseBranch _ h.2.2 helse
    exact ⟨rfl, hl⟩
  | .forLoop init guard increment body, s', _, _, h, hr => by
    cases s' <;> simp only [mapRoots, reduceCtorEq, forLoop.injEq] at h
    simp only [roots, List.map_append, List.append_assoc] at hr
    obtain ⟨rfl, hguard⟩ := eq_of_roots init _ h.1 hr
    obtain ⟨rfl, hincrement⟩ := Expr.eq_of_roots h.2.1 hguard
    obtain ⟨rfl, hbody⟩ := Expr.eq_of_roots h.2.2.1 hincrement
    obtain ⟨rfl, hl⟩ := eq_of_roots body _ h.2.2.2 hbody
    exact ⟨rfl, hl⟩
  | .whileLoop cond body, s', _, _, h, hr => by
    cases s' <;> simp only [mapRoots, reduceCtorEq, whileLoop.injEq] at h
    simp only [roots, List.map_cons, List.cons_append, List.cons.injEq] at hr
    obtain ⟨rfl, hbody⟩ := hr
    obtain ⟨rfl, hl⟩ := eq_of_roots body _ h.2 hbody
    exact ⟨rfl, hl⟩
  | .doWhile body cond, s', _, _, h, hr => by
    cases s' <;> simp only [mapRoots, reduceCtorEq, doWhile.injEq] at h
    simp only [roots, List.map_append, List.append_assoc, List.map_cons, List.map_nil,
      List.cons_append, List.nil_append] at hr
    obtain ⟨rfl, hcond⟩ := eq_of_roots body _ h.1 hr
    obtain ⟨rfl, hl⟩ := List.cons.inj hcond
    exact ⟨rfl, hl⟩
  | .ret value, s', _, _, h, hr => by
    cases s' <;> simp only [mapRoots, reduceCtorEq, ret.injEq] at h
    simp only [roots] at hr
    obtain ⟨rfl, hl⟩ := Expr.eq_of_roots h hr
    exact ⟨rfl, hl⟩
  | .breakLoop, s', _, _, h, hr => by
    cases s' <;> simp only [mapRoots, reduceCtorEq] at h
    exact ⟨rfl, hr⟩
  | .continueLoop, s', _, _, h, hr => by
    cases s' <;> simp only [mapRoots, reduceCtorEq] at h
    exact ⟨rfl, hr⟩
  | .discard, s', _, _, h, hr => by
    cases s' <;> simp only [mapRoots, reduceCtorEq] at h
    exact ⟨rfl, hr⟩
  | .empty, s', _, _, h, hr => by
    cases s' <;> simp only [mapRoots, reduceCtorEq] at h
    exact ⟨rfl, hr⟩

theorem eqAll_of_roots : (ss ss' : List Stmt) → {l l' : List Expr} →
    mapRootsAll Root.blank ss = mapRootsAll Root.blank ss' →
    (rootsAll ss).map (·.2) ++ l = (rootsAll ss').map (·.2) ++ l' → ss = ss' ∧ l = l'
  | [], ss', _, _, h, hr => by
    cases ss' with
    | nil => exact ⟨rfl, hr⟩
    | cons s' ss' => simp [mapRootsAll] at h
  | s :: ss, ss', _, _, h, hr => by
    cases ss' with
    | nil => simp [mapRootsAll] at h
    | cons s' ss' =>
      simp only [mapRootsAll, List.cons.injEq] at h
      simp only [rootsAll, List.map_append, List.append_assoc] at hr
      obtain ⟨rfl, hss⟩ := eq_of_roots s s' h.1 hr
      obtain ⟨rfl, hl⟩ := eqAll_of_roots ss ss' h.2 hss
      exact ⟨rfl, hl⟩

end

end Stmt

theorem Declaration.eq_of_roots {d d' : Declaration} {l l' : List Expr}
    (h : d.mapRoots Root.blank = d'.mapRoots Root.blank)
    (hr : d.roots.map (·.2) ++ l = d'.roots.map (·.2) ++ l') : d = d' ∧ l = l' := by
  cases d <;> cases d' <;> simp only [mapRoots, reduceCtorEq, Declaration.variables.injEq,
    Declaration.function.injEq, Declaration.prototype.injEq] at h
  · obtain ⟨rfl, hl⟩ := VariableGroup.eq_of_roots h hr
    exact ⟨rfl, hl⟩
  · next f f' =>
    obtain ⟨head, stmts, opensFrame⟩ := f
    obtain ⟨head', stmts', opensFrame'⟩ := f'
    simp only [Function.mk.injEq, Body.mk.injEq] at h
    obtain ⟨rfl, h, rfl⟩ := h
    obtain ⟨rfl, hl⟩ := Stmt.eqAll_of_roots stmts stmts' h hr
    exact ⟨rfl, hl⟩
  · exact ⟨congrArg _ h, hr⟩

/-- Programs with the same roots that are the same without them are equal. -/
theorem Program.eq_of_roots {p q : Program} (h : p.mapRoots Root.blank = q.mapRoots Root.blank)
    (hr : p.roots.map (·.2) = q.roots.map (·.2)) : p = q := by
  have hall : ∀ ds ds' : List Declaration,
      ds.map (Declaration.mapRoots Root.blank) = ds'.map (Declaration.mapRoots Root.blank) →
        (ds.flatMap Declaration.roots).map (·.2) = (ds'.flatMap Declaration.roots).map (·.2) →
          ds = ds' := by
    intro ds
    induction ds with
    | nil =>
      intro ds' h _
      cases ds' with
      | nil => rfl
      | cons d' ds' => simp at h
    | cons d ds ih =>
      intro ds' h hr
      cases ds' with
      | nil => simp at h
      | cons d' ds' =>
        simp only [List.map_cons, List.cons.injEq] at h
        simp only [List.flatMap_cons, List.map_append] at hr
        obtain ⟨rfl, hds⟩ := Declaration.eq_of_roots h.1 hr
        rw [ih ds' h.2 hds]
  obtain ⟨version, ds⟩ := p
  obtain ⟨version', ds'⟩ := q
  simp only [mapRoots, Program.mk.injEq] at h
  obtain ⟨rfl, h⟩ := h
  rw [hall ds ds' h hr]

end ShaderMorph
