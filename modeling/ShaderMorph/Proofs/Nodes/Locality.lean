-- To replace one expression is a local change. The list of all expressions
-- stays as it is in front of the new one, but for those that have it inside,
-- and behind it, where only the numbers shift. The walk meets everything
-- outside of the new expression in the same surroundings and the same scope.
import ShaderMorph.Proofs.Nodes.Exchange

namespace ShaderMorph

/-! ## One node of an expression -/

namespace Expr

/-- An expression, and what it is when the node that steps lead to is replaced
by `new`: the nodes of `new` are found behind these steps, and every other node
where it was. -/
structure PutAt (e : Expr) (steps : List Nat) (new e' : Expr) : Prop where
  inside : ∀ inner, e'.node? (steps ++ inner) = new.node? inner
  others : ∀ other, ¬steps <+: other → (e'.node? other).map head = (e.node? other).map head

/-- What the expression with number `i` is when `old`, which has the number `k`
behind it, is replaced by `new`. It has `new` inside where it had `old` inside,
and is the same when it had not. -/
def Keeps (i k : Nat) (old new e e' : Expr) : Prop :=
  if i + e.size ≤ k then e' = e
  else ∃ steps, i + e.number steps = k ∧ e.node? steps = some old ∧ e.PutAt steps new e'

end Expr

/-! ## Programs -/

namespace Program

theorem node?_append (p : Program) (a : NodePath) (inner : List Nat) :
    p.node? ⟨a.root, a.steps ++ inner⟩ = (p.node? a).bind (·.node? inner) := by
  simp only [node?, Expr.node?_append, Option.bind_assoc]

theorem number_append {p : Program} {a : NodePath} {node : Expr} (h : p.node? a = some node)
    (inner : List Nat) : p.number ⟨a.root, a.steps ++ inner⟩ = p.number a + node.number inner := by
  obtain ⟨e, he, hnode⟩ := node?_eq_some.1 h
  rw [number_of_root he, number_of_root (a := ⟨a.root, a.steps ++ inner⟩) he,
    Expr.number_append hnode, Nat.add_assoc]

/-- The expression with a number inside that of a visit is a node of it. -/
theorem exists_steps {p : Program} {v w : Visit} (hv : v ∈ p.visits) (hw : w ∈ p.visits)
    (hle : w.ordinal ≤ v.ordinal) (hlt : v.ordinal < w.ordinal + w.expr.size) :
    ∃ steps, w.ordinal + w.expr.number steps = v.ordinal ∧ w.expr.node? steps = some v.expr := by
  obtain ⟨steps, node, hnode, hnumber⟩ :=
    w.expr.exists_number (n := v.ordinal - w.ordinal) (by omega)
  have hordinal : w.ordinal + w.expr.number steps = v.ordinal := by omega
  obtain ⟨a, top, htop, ha⟩ := exists_address (ordinal_lt hw)
  obtain rfl : w.expr = top := by
    have hget := getElem?_number htop
    rw [ha, exprs_ordinal hw] at hget
    exact Option.some.inj hget
  have hinner : p.node? ⟨a.root, a.steps ++ steps⟩ = some node := by
    rw [node?_append, htop, Option.bind_some, hnode]
  have hget := getElem?_number hinner
  rw [number_append htop, ha, hordinal, exprs_ordinal hv] at hget
  exact ⟨steps, hordinal, hnode.trans hget.symm⟩

/-- The number that an expression outside of the one with number `k` has once
that one, of size `old`, is replaced by one of size `new`. -/
def shifted (k old new i : Nat) : Nat := if i ≤ k then i else i - old + new

/-- A program, and the same one with `new` in the place of the expression `old`
with number `k`. -/
structure Replaced (p : Program) (k : Nat) (old new : Expr) (q : Program) : Prop where
  exprs : q.exprs = q.exprs.take k ++ (new.preorder ++ p.exprs.drop (k + old.size))
  ahead : ∀ i < k, ∃ e e', p.exprs[i]? = some e ∧ q.exprs[i]? = some e' ∧
    Expr.Keeps i k old new e e'
  /-- What is not inside the new expression is met as before. The new one itself
  is met in the surroundings of the old one. -/
  visits : ∀ v ∈ p.visits, v.ordinal ≤ k ∨ k + old.size ≤ v.ordinal →
    ∃ v' ∈ q.visits, v'.ordinal = shifted k old.size new.size v.ordinal ∧
      v'.around = v.around ∧ v'.scope = v.scope

/-- Behind an expression the list of all expressions stays. In front of it, and
in its own place, there is what is told by `ahead` and the new one. -/
theorem exprs_rewrite {p : Program} {v : Visit} (hv : v ∈ p.visits) (new : Expr) :
    let q := p.rewrite (Replacement.nothing.add v.ordinal new)
    q.exprs =
      q.exprs.take v.ordinal ++ (new.preorder ++ p.exprs.drop (v.ordinal + v.expr.size)) := by
  intro q
  obtain ⟨before, after, after', hvisits, hvisits', hafter⟩ := visits_exchanged hv new
  have hflanked := flanked_of_visits hvisits
  have hsize : (v.parts p.prototypes).length = v.expr.size := Expr.length_visits _ _ _ _ _ _
  have hbehind : after'.map (·.expr) = after.map (·.expr) := by
    rw [← List.forall₂_eq_eq_eq, List.forall₂_map_left_iff, List.forall₂_map_right_iff]
    exact hafter.flip.imp fun _ _ hw => hw.expr
  have hdrop : p.exprs.drop (v.ordinal + v.expr.size) = after.map (·.expr) := by
    rw [← visits_expr, hvisits, ← List.map_drop, ← List.drop_drop, ← hflanked.length,
      List.drop_left, ← hsize, List.drop_left]
  have hq : q.visits.map (·.expr) = q.exprs := visits_expr q
  rw [hvisits', List.map_append, List.map_append, Expr.visits_expr, hbehind, ← hdrop] at hq
  rw [← hq, List.take_left' (by simpa using hflanked.length)]

/-- What becomes of an expression in front. -/
theorem keeps_rewrite {p : Program} {v w : Visit} (hv : v ∈ p.visits) (hw : w ∈ p.visits)
    (hlt : w.ordinal < v.ordinal) (new : Expr) :
    Expr.Keeps w.ordinal v.ordinal v.expr new w.expr
      (w.expr.rewrite (Replacement.nothing.add v.ordinal new) w.ordinal) := by
  unfold Expr.Keeps
  split
  · next hle => rw [w.expr.rewrite_add (Or.inr hle), Expr.rewrite_nothing]
  · next hinside =>
    obtain ⟨steps, hsteps, hnode⟩ := exists_steps hv hw (by omega) (by omega)
    obtain ⟨hinner, hothers⟩ := Expr.node?_rewrite_add hnode w.ordinal new
    rw [hsteps] at hinner hothers
    exact ⟨steps, hsteps, hnode, hinner, hothers⟩

/-- Replacing the expression of a visit is a local change. -/
theorem replaced_rewrite {p : Program} {v : Visit} (hv : v ∈ p.visits) (new : Expr) :
    p.Replaced v.ordinal v.expr new (p.rewrite (Replacement.nothing.add v.ordinal new)) := by
  obtain ⟨before, after, after', hvisits, hvisits', hafter⟩ := visits_exchanged hv new
  have hflanked := flanked_of_visits hvisits
  have hbefore : ∀ w ∈ p.visits, w.ordinal < v.ordinal →
      w.rewrite (Replacement.nothing.add v.ordinal new) ∈
        (p.rewrite (Replacement.nothing.add v.ordinal new)).visits := by
    intro w hw hlt
    rw [hvisits']
    exact List.mem_append_left _ (List.mem_map_of_mem ((hflanked.before w).2 ⟨hw, hlt⟩))
  refine ⟨exprs_rewrite hv new, fun i hi => ?_, fun w hw houtside => ?_⟩
  · obtain ⟨w, hw, rfl⟩ := exists_visit (Nat.lt_trans hi (ordinal_lt hv))
    have hw' := exprs_ordinal (hbefore w hw hi)
    exact ⟨w.expr, _, exprs_ordinal hw, hw', keeps_rewrite hv hw hi new⟩
  · rcases Nat.lt_trichotomy w.ordinal v.ordinal with hlt | heq | hlt
    · exact ⟨_, hbefore w hw hlt, (if_pos (Nat.le_of_lt hlt)).symm, rfl, rfl⟩
    · obtain rfl := visits_ext hw hv heq
      obtain ⟨rest, hrest, -⟩ := new.visits_eq_cons p.prototypes w.scope w.around w.parent w.ordinal
      refine ⟨⟨new, w.ordinal, w.parent, w.around, w.scope⟩, ?_, (if_pos (Nat.le_refl _)).symm,
        rfl, rfl⟩
      rw [hvisits', hrest]
      simp
    · obtain ⟨w', hw', hmoved⟩ := forall₂_left hafter ((hflanked.after w).2 ⟨hw, by omega⟩)
      refine ⟨w', by simp [hvisits', hw'], ?_, hmoved.around, hmoved.scope⟩
      have hordinal := hmoved.ordinal
      rw [shifted, if_neg (Nat.not_le.2 hlt)]
      omega

/-- Replacing one expression is local. For each number there is the program
with another expression in the place of that one. In front of it the list of
all expressions changes only where one has the new one inside, behind it not
at all, and the walk meets everything else as before. -/
theorem replaceExpr_local (p : Program) (k : Fin p.exprCount) (new : Expr) :
    ∃ old q, p.exprAt? k = some old ∧ p.replaceExpr? k new = some q ∧
      p.Replaced k old new q := by
  obtain ⟨k, hk⟩ := k
  obtain ⟨v, hv, rfl⟩ := exists_visit hk
  refine ⟨v.expr, _, exprs_ordinal hv, ?_, replaced_rewrite hv new⟩
  rw [replaceExpr?, MutationPoint.exprPlace?_visit hv]
  rfl

end Program

end ShaderMorph
