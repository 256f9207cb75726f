-- The numbers of nodes. The walk, the list of all expressions and the search
-- that counts down go through a program each in its own way. They agree: one
-- number stands for the same node on all three ways, the walk knows the node
-- around it, and to put something in the place that the search finds changes
-- that node only.
import ShaderMorph.Proofs.Nodes.Address

namespace ShaderMorph

/-! ## Nodes of a program -/

/-- The address of a node in a program. The first number tells which of the
expressions that are no parts of others the node is in. -/
structure NodePath where
  root : Nat
  steps : List Nat
deriving DecidableEq, Repr

namespace NodePath

/-- The address of the node that this one is a direct part of. -/
def up? (a : NodePath) : Option NodePath :=
  if a.steps.isEmpty then none else some ⟨a.root, a.steps.dropLast⟩

/-- Whether `b` is the address itself or one inside the node there. -/
def Holds (a b : NodePath) : Prop := b.root = a.root ∧ a.steps <+: b.steps

end NodePath

namespace Program

/-- The expressions of a program that are no parts of others, in order. -/
def rootExprs (p : Program) : List Expr := p.roots.map (·.2)

/-- The node at an address. -/
def node? (p : Program) (a : NodePath) : Option Expr :=
  p.rootExprs[a.root]?.bind fun e => e.node? a.steps

/-- The number of nodes before an address. -/
def number (p : Program) (a : NodePath) : Nat :=
  Expr.sizeAll (p.rootExprs.take a.root) + p.rootExprs[a.root]?.elim 0 fun e => e.number a.steps

/-- A program, and what it is when the node at `a` is replaced by `new`: the
same outside of its expressions, with the nodes of `new` at the address and
behind it, and with every other node where it was. -/
structure PutAt (p : Program) (a : NodePath) (new : Expr) (q : Program) : Prop where
  outline : q.outline = p.outline
  inside : ∀ steps, q.node? ⟨a.root, a.steps ++ steps⟩ = new.node? steps
  others : ∀ b, ¬a.Holds b → (q.node? b).map Expr.head = (p.node? b).map Expr.head

/-- What the number `k` stands for: the node at `a`, which the walk meets as
`v` and the search finds at `place`. -/
structure Numbers (p : Program) (k : Nat) (a : NodePath) (v : Visit)
    (place : Place Expr Program) : Prop where
  ordinal : v.ordinal = k
  node : p.node? a = some v.expr
  listed : p.exprAt? k = some v.expr
  /-- No other node has the number. -/
  unique : ∀ b, ((p.node? b).isSome ∧ p.number b = k) ↔ b = a
  /-- The walk tells the number of the node that this one is a direct part of.
  There is none for an expression that is no part of another one. -/
  parent : v.parent = a.up?.map p.number
  part : place.part = v.expr
  put : ∀ new, p.PutAt a new (place.put new)

end Program

/-! ## Expressions that are no parts of others -/

theorem Expr.rewriteAll_append (r : Replacement) (es fs : List Expr) (k : Nat) :
    rewriteAll r (es ++ fs) k = rewriteAll r es k ++ rewriteAll r fs (k + sizeAll es) := by
  induction es generalizing k with
  | nil => rfl
  | cons e es ih =>
    rw [List.cons_append, rewriteAll, rewriteAll, ih, sizeAll, List.cons_append, Nat.add_assoc]

namespace Command

/-- The expressions of a command that are no parts of others. -/
def rootExprs : Command → List Expr
  | .expr _ e => [e]
  | .declare v => v.initializer.toList
  | .enter _ => []
  | .leave => []

theorem guards_snd (version : Version) (c : Command) :
    (c.guards version).map (·.2) = c.rootExprs := by
  cases c with
  | declare v => cases h : v.initializer <;> simp [guards, rootExprs, h]
  | _ => rfl

theorem sizeAll_rootExprs (c : Command) : Expr.sizeAll c.rootExprs = c.exprs.length := by
  cases c with
  | expr around e => simp [rootExprs, exprs, Expr.sizeAll]
  | declare v => cases h : v.initializer <;> simp [rootExprs, exprs, h, Expr.sizeAll]
  | enter o => rfl
  | leave => rfl

theorem rootExprs_rewriteAll (r : Replacement) (cs : List Command) (k : Nat) :
    (rewriteAll r cs k).flatMap rootExprs = Expr.rewriteAll r (cs.flatMap rootExprs) k := by
  induction cs generalizing k with
  | nil => rfl
  | cons c cs ih =>
    have hc : (c.rewrite r k).rootExprs = Expr.rewriteAll r c.rootExprs k := by
      cases c with
      | declare v => cases h : v.initializer <;> simp [rewrite, rootExprs, Expr.rewriteOption, h,
          Expr.rewriteAll]
      | _ => rfl
    rw [rewriteAll, List.flatMap_cons, List.flatMap_cons, ih, hc, Expr.rewriteAll_append,
      sizeAll_rootExprs]

end Command

namespace Program

variable (p : Program)

theorem script_rootExprs : p.script.flatMap Command.rootExprs = p.rootExprs := by
  have h := congrArg (List.map (·.2)) p.script_guards
  rw [List.map_flatMap, List.map_map] at h
  simp only [Command.guards_snd] at h
  exact h

theorem rootExprs_rewrite (r : Replacement) :
    (p.rewrite r).rootExprs = Expr.rewriteAll r p.rootExprs 0 := by
  rw [← script_rootExprs, script_rewrite, Command.rootExprs_rewriteAll, script_rootExprs]

theorem exprs_eq_preorderAll : p.exprs = Expr.preorderAll p.rootExprs := by
  rw [← p.roots_exprs, rootExprs]
  induction p.roots with
  | nil => rfl
  | cons a l ih => rw [Root.exprs_cons, List.map_cons, Expr.preorderAll, ih]

theorem exprCount_eq : p.exprCount = Expr.sizeAll p.rootExprs := by
  rw [exprCount, exprs_eq_preorderAll, Expr.length_preorderAll]

end Program

/-! ## Addresses and numbers -/

namespace Program

variable {p : Program} {a b : NodePath} {node : Expr}

theorem node?_eq_some :
    p.node? a = some node ↔ ∃ e, p.rootExprs[a.root]? = some e ∧ e.node? a.steps = some node :=
  Option.bind_eq_some_iff

theorem number_of_root {e : Expr} (h : p.rootExprs[a.root]? = some e) :
    p.number a = Expr.sizeAll (p.rootExprs.take a.root) + e.number a.steps := by
  simp [number, h]

theorem getElem?_number (h : p.node? a = some node) : p.exprs[p.number a]? = some node := by
  obtain ⟨e, he, hnode⟩ := node?_eq_some.1 h
  rw [number_of_root he, exprs_eq_preorderAll, Expr.getElem?_preorderAll he (Expr.number_lt hnode)]
  exact Expr.getElem?_preorder hnode

/-- Every number below the count is that of an address. -/
theorem exists_address {k : Nat} (h : k < p.exprCount) :
    ∃ a node, p.node? a = some node ∧ p.number a = k := by
  rw [exprCount_eq] at h
  obtain ⟨i, e, m, he, hm, rfl⟩ := Expr.exists_part h
  obtain ⟨steps, node, hnode, rfl⟩ := e.exists_number hm
  exact ⟨⟨i, steps⟩, node, node?_eq_some.2 ⟨e, he, hnode⟩, number_of_root he⟩

/-- No two addresses have the same number. -/
theorem number_inj {node' : Expr} (ha : p.node? a = some node) (hb : p.node? b = some node')
    (h : p.number a = p.number b) : a = b := by
  obtain ⟨i, steps⟩ := a
  obtain ⟨j, steps'⟩ := b
  obtain ⟨e, he, ha⟩ := node?_eq_some.1 ha
  obtain ⟨e', he', hb⟩ := node?_eq_some.1 hb
  dsimp only at he ha he' hb
  rw [number_of_root he, number_of_root he'] at h
  obtain rfl := Expr.index_eq_of_number he he' (Expr.number_lt ha) (Expr.number_lt hb) h
  obtain rfl : e = e' := Option.some.inj (he.symm.trans he')
  rw [Expr.number_inj ha hb (by simpa using h)]

/-- To replace the expression with the number of an address is to put another
one at the address. -/
theorem putAt_rewrite (h : p.node? a = some node) (new : Expr) :
    p.PutAt a new (p.rewrite (Replacement.nothing.add (p.number a) new)) := by
  obtain ⟨i, steps⟩ := a
  obtain ⟨e, he, hnode⟩ := node?_eq_some.1 h
  dsimp only at he hnode
  have hroots := Expr.getElem?_rewriteAll_add he (Expr.number_lt hnode) 0 new
  rw [Nat.zero_add, ← number_of_root (a := ⟨i, steps⟩) he, ← rootExprs_rewrite] at hroots
  have hnumber := number_of_root (p := p) (a := ⟨i, steps⟩) he
  obtain ⟨hinside, hothers⟩ :=
    Expr.node?_rewrite_add hnode (Expr.sizeAll (p.rootExprs.take i)) new
  rw [← hnumber] at hinside hothers
  refine ⟨p.outline_rewrite _, fun inner => ?_, fun b hb => ?_⟩
  · rw [node?, hroots, if_pos rfl, Option.bind_some]
    exact hinside inner
  · rw [node?, node?, hroots]
    split
    · next hroot =>
      rw [hroot, he, Option.bind_some, Option.bind_some]
      exact hothers b.steps fun hprefix => hb ⟨hroot, hprefix⟩
    · rfl

end Program

/-! ## Parents on the walk -/

/-- The visits of expressions one after the other, the first of them with
number `k`. They may stand in different scopes and surroundings. -/
inductive Visit.Row (heads : List Prototype) (parent : Option Nat) :
    (es : List Expr) → (k : Nat) → List Visit → Prop
  | nil (k : Nat) : Row heads parent [] k []
  | cons (e : Expr) (scope : ScopeTree) (around : Surroundings) {es : List Expr} {k : Nat}
    {vs : List Visit} : Row heads parent es (k + e.size) vs →
      Row heads parent (e :: es) k (e.visits heads scope around parent k ++ vs)

namespace Visit.Row

variable {heads : List Prototype} {parent : Option Nat} {es es' : List Expr} {k : Nat}
  {vs vs' : List Visit}

theorem single (e : Expr) (scope : ScopeTree) (around : Surroundings) (k : Nat) :
    Row heads parent [e] k (e.visits heads scope around parent k) := by
  have hrow : Row heads parent [e] k (e.visits heads scope around parent k ++ []) :=
    .cons e scope around (.nil _)
  rwa [List.append_nil] at hrow

theorem append (h : Row heads parent es k vs)
    (h' : Row heads parent es' (k + Expr.sizeAll es) vs') :
    Row heads parent (es ++ es') k (vs ++ vs') := by
  induction h with
  | nil k => simpa [Expr.sizeAll] using h'
  | cons e scope around _ ih =>
    rw [Expr.sizeAll, ← Nat.add_assoc] at h'
    rw [List.cons_append, List.append_assoc]
    exact .cons e scope around (ih h')

/-- The visits of one of the expressions. -/
theorem getElem? (h : Row heads parent es k vs) {i : Nat} {e : Expr} (hi : es[i]? = some e) :
    ∃ scope around, ∀ n < e.size, vs[Expr.sizeAll (es.take i) + n]? =
      (e.visits heads scope around parent (k + Expr.sizeAll (es.take i)))[n]? := by
  induction h generalizing i with
  | nil k => cases hi
  | @cons x scope around es k vs _ ih =>
    have hlength := x.length_visits heads scope around parent k
    cases i with
    | zero =>
      obtain rfl : x = e := by simpa using hi
      refine ⟨scope, around, fun n hn => ?_⟩
      simp only [List.take_zero, Expr.sizeAll, Nat.zero_add, Nat.add_zero]
      exact List.getElem?_append_left (by rwa [hlength])
    | succ i =>
      obtain ⟨scope', around', hvisits⟩ := ih (by simpa using hi)
      refine ⟨scope', around', fun n hn => ?_⟩
      have hsub : x.size + Expr.sizeAll (es.take i) + n - x.size =
          Expr.sizeAll (es.take i) + n := by omega
      simp only [List.take_succ_cons, Expr.sizeAll]
      rw [List.getElem?_append_right (by rw [hlength]; omega), hlength, hsub, hvisits n hn,
        Nat.add_assoc]

end Visit.Row

namespace Expr

variable (heads : List Prototype) (scope : ScopeTree)

theorem visitsArgs_row (callee : String) (arity : Nat) (es : List Expr) (i : Nat)
    (around : Surroundings) (caller k : Nat) :
    Visit.Row heads (some caller) es k
      (visitsArgs heads scope callee arity es i around caller k) := by
  induction es generalizing i k with
  | nil => exact .nil k
  | cons e es ih => exact .cons e scope _ (ih _ _)

/-- Behind an expression, the walk meets its parts, and names it as the one
that they are parts of. -/
theorem visits_row (e : Expr) (around : Surroundings) (parent : Option Nat) (k : Nat) :
    ∃ vs, e.visits heads scope around parent k = ⟨e, k, parent, around, scope⟩ :: vs ∧
      Visit.Row heads (some k) e.children (k + 1) vs := by
  refine ⟨(e.visits heads scope around parent k).tail, ?_, ?_⟩
  · cases e <;> rfl
  · cases e with
    | ident name => exact .nil _
    | literal value => exact .nil _
    | binary op lhs rhs => exact .cons lhs scope _ (.single rhs scope _ _)
    | unary op operand => exact .single operand scope _ _
    | member base name => exact .single base scope _ _
    | index base position => exact .cons base scope _ (.single position scope _ _)
    | call callee args => exact visitsArgs_row heads scope callee _ args 0 around k (k + 1)
    | ternary cond thenExpr elseExpr =>
      simp only [visits, List.tail_cons, List.append_assoc]
      exact .cons cond scope _ (.cons thenExpr scope _ (.single elseExpr scope _ _))
    | paren inner => exact .single inner scope _ _

/-- The walk names the node that the node at an address is a direct part of. -/
theorem visits_parent {e node : Expr} {steps : List Nat} (h : e.node? steps = some node)
    (scope : ScopeTree) (around : Surroundings) (parent : Option Nat) (k : Nat) :
    ∃ v, (e.visits heads scope around parent k)[e.number steps]? = some v ∧
      v.parent =
        if steps.isEmpty then parent else some (k + e.number steps.dropLast) := by
  induction steps generalizing e scope around parent k with
  | nil =>
    obtain ⟨vs, hvs, -⟩ := visits_row heads scope e around parent k
    rw [hvs]
    exact ⟨_, rfl, rfl⟩
  | cons i steps ih =>
    obtain ⟨part, hpart, h⟩ := node?_cons_eq_some.1 h
    obtain ⟨vs, hvs, hrow⟩ := visits_row heads scope e around parent k
    obtain ⟨scope', around', hvisits⟩ := hrow.getElem? hpart
    obtain ⟨v, hv, hparent⟩ :=
      ih h scope' around' (some k) (k + 1 + sizeAll (e.children.take i))
    refine ⟨v, ?_, ?_⟩
    · rw [hvs, number_cons hpart, Nat.add_assoc, Nat.add_comm, List.getElem?_cons_succ,
        hvisits _ (number_lt h)]
      exact hv
    · rw [hparent]
      cases steps with
      | nil => simp
      | cons j steps =>
        rw [List.dropLast_cons_cons, number_cons hpart]
        simp only [List.isEmpty_cons, Bool.false_eq_true, if_false, Option.some.injEq]
        omega

end Expr

/-- A run visits the expressions of its commands one after the other. -/
theorem Command.run_row (heads : List Prototype) (cs : List Command) (s : WalkState) :
    Visit.Row heads none (cs.flatMap rootExprs) s.ordinal (Event.visits (run heads cs s)) := by
  induction cs generalizing s with
  | nil => exact .nil _
  | cons c cs ih =>
    have hc : Visit.Row heads none c.rootExprs s.ordinal (Event.visits (c.events heads s)) := by
      cases c with
      | expr around e =>
        rw [events, Event.visits_map_visit]
        exact .single e s.scope around s.ordinal
      | declare v =>
        simp only [events, Event.visits_append, Event.visits_map_visit,
          Event.visits_cons_declare, Event.visits_nil, List.append_nil, Declarator.visits,
          rootExprs]
        cases v.initializer with
        | none => exact .nil _
        | some e => exact .single e s.scope _ s.ordinal
      | enter o => exact .nil _
      | leave => exact .nil _
    rw [run, Event.visits_append, List.flatMap_cons]
    refine hc.append ?_
    rw [sizeAll_rootExprs, ← ordinal_next]
    exact ih (c.next s)

namespace Program

variable {p : Program} {a : NodePath} {node : Expr}

theorem visits_row (p : Program) : Visit.Row p.prototypes none p.rootExprs 0 p.visits := by
  have h := Command.run_row p.prototypes p.script .start
  rwa [script_rootExprs, ← walk_eq_run, ← visits_eq] at h

/-- The walk names the node around the one at an address. -/
theorem parent_of_node (h : p.node? a = some node) :
    ∃ v, p.visits[p.number a]? = some v ∧ v.parent = a.up?.map p.number := by
  obtain ⟨i, steps⟩ := a
  obtain ⟨e, he, hnode⟩ := node?_eq_some.1 h
  dsimp only at he hnode
  obtain ⟨scope, around, hvisits⟩ := p.visits_row.getElem? he
  obtain ⟨v, hv, hparent⟩ := Expr.visits_parent p.prototypes hnode scope around none
    (0 + Expr.sizeAll (p.rootExprs.take i))
  refine ⟨v, ?_, ?_⟩
  · rw [number_of_root he, hvisits _ (Expr.number_lt hnode)]
    exact hv
  · rw [hparent, Nat.zero_add]
    unfold NodePath.up?
    dsimp only
    split
    · rfl
    · exact congrArg some (number_of_root (a := ⟨i, steps.dropLast⟩) he).symm

/-! ## All ways agree -/

/-- The walk, the list of all expressions and the search number the nodes of a
program alike. The walk meets the numbers from zero on in their order. The
search finds nothing from their count on, and each number below it stands for
one node on all three ways. -/
theorem numberings_agree (p : Program) :
    p.visits.map (·.ordinal) = List.range p.exprCount ∧
      (∀ k, p.exprPlace? k = none ↔ p.exprCount ≤ k) ∧
      ∀ k : Fin p.exprCount, ∃ a v place, p.visits[k.val]? = some v ∧
        p.exprPlace? k.val = some place ∧ p.Numbers k.val a v place := by
  refine ⟨p.visits_ordinal, fun k => ?_, fun ⟨k, hk⟩ => ?_⟩
  · have hplace := p.exprPlace?_rewrite (r := .nothing) (k := k) fun _ _ => rfl
    rw [p.rewrite_nothing] at hplace
    rw [hplace, Option.map_eq_none_iff, List.getElem?_eq_none_iff]
    rfl
  · obtain ⟨a, node, hnode, rfl⟩ := exists_address hk
    obtain ⟨v, hv, hparent⟩ := parent_of_node hnode
    have hmem : v ∈ p.visits := List.mem_of_getElem? hv
    obtain ⟨hlt, hget⟩ := List.getElem?_eq_some_iff.1 hv
    have hordinal : v.ordinal = p.number a := hget ▸ ordinal_getElem hlt
    have hexpr : node = v.expr := by
      have hlisted := exprs_ordinal hmem
      rw [hordinal, getElem?_number hnode] at hlisted
      exact Option.some.inj hlisted
    subst hexpr
    have hplace := MutationPoint.exprPlace?_visit hmem
    rw [hordinal] at hplace
    refine ⟨a, v, _, hv, hplace, hordinal, hnode, getElem?_number hnode, fun b => ?_, hparent, rfl,
      putAt_rewrite hnode⟩
    constructor
    · rintro ⟨hb, hnumber⟩
      obtain ⟨node', hnode'⟩ := Option.isSome_iff_exists.1 hb
      exact number_inj hnode' hnode hnumber
    · rintro rfl
      exact ⟨by rw [hnode]; rfl, rfl⟩

end Program

end ShaderMorph
