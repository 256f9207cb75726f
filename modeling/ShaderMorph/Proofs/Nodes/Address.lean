-- Nodes of expressions by their addresses. An address is the way down to a
-- node: at each step, the place of a direct part among the parts. It tells a
-- node apart from all others, equal ones included, and does not depend on any
-- order of the nodes. In the order of a walk, a node has the number of those
-- before it, and each number below the size is that of one address.
import ShaderMorph.Proofs.Mutation.Protection
import ShaderMorph.Proofs.Walk.Alignment

namespace ShaderMorph

namespace Expr

/-! ## An expression and its parts -/

theorem preorder_eq (e : Expr) : e.preorder = e :: preorderAll e.children := by
  cases e <;> simp [preorder, preorderAll, children]

theorem size_eq (e : Expr) : e.size = 1 + sizeAll e.children := by
  cases e <;> simp [size, sizeAll, children, Nat.add_assoc]

/-- Where an expression is not replaced itself, its parts are rewritten one
after the other. -/
theorem children_rewrite {r : Replacement} {k : Nat} (h : r k = none) (e : Expr) :
    (e.rewrite r k).children = rewriteAll r e.children (k + 1) := by
  cases e <;> simp [rewrite, h, children, rewriteAll]

section

variable {es : List Expr} {i j : Nat} {e : Expr}

theorem sizeAll_take_succ (h : es[i]? = some e) :
    sizeAll (es.take (i + 1)) = sizeAll (es.take i) + e.size := by
  induction es generalizing i with
  | nil => cases h
  | cons x es ih =>
    cases i with
    | zero =>
      obtain rfl : x = e := by simpa using h
      simp [sizeAll]
    | succ i =>
      rw [List.take_succ_cons, List.take_succ_cons, sizeAll, sizeAll, ih (by simpa using h),
        Nat.add_assoc]

theorem sizeAll_take_le (es : List Expr) (h : i ≤ j) :
    sizeAll (es.take i) ≤ sizeAll (es.take j) := by
  induction es generalizing i j with
  | nil => simp
  | cons x es ih =>
    cases i with
    | zero => simp [sizeAll]
    | succ i =>
      obtain ⟨j, rfl⟩ : ∃ j', j = j' + 1 := ⟨j - 1, by omega⟩
      simp only [List.take_succ_cons, sizeAll]
      exact Nat.add_le_add_left (ih (by omega)) _

/-- An expression of a list ends before a later one starts. -/
theorem sizeAll_take_lt (h : es[i]? = some e) (hij : i < j) :
    sizeAll (es.take i) + e.size ≤ sizeAll (es.take j) := by
  rw [← sizeAll_take_succ h]
  exact sizeAll_take_le es hij

theorem sizeAll_take_add_le (h : es[i]? = some e) :
    sizeAll (es.take i) + e.size ≤ sizeAll es := by
  have hlt : i < es.length := (List.getElem?_eq_some_iff.1 h).1
  have hle := sizeAll_take_lt h hlt
  rwa [List.take_length] at hle

theorem size_lt_of_part (h : e.children[i]? = some e') : e'.size < e.size := by
  have hle := sizeAll_take_add_le h
  rw [e.size_eq]
  omega

theorem getElem?_preorderAll (h : es[i]? = some e) {n : Nat} (hn : n < e.size) :
    (preorderAll es)[sizeAll (es.take i) + n]? = e.preorder[n]? := by
  induction es generalizing i with
  | nil => cases h
  | cons x es ih =>
    cases i with
    | zero =>
      obtain rfl : x = e := by simpa using h
      simp only [List.take_zero, sizeAll, Nat.zero_add, preorderAll]
      exact List.getElem?_append_left (by rwa [length_preorder])
    | succ i =>
      have hsub : x.size + sizeAll (es.take i) + n - x.size = sizeAll (es.take i) + n := by omega
      simp only [List.take_succ_cons, sizeAll, preorderAll]
      rw [List.getElem?_append_right (by rw [length_preorder]; omega), length_preorder, hsub]
      exact ih (by simpa using h)

theorem getElem?_rewriteAll (r : Replacement) (es : List Expr) (k i : Nat) :
    (rewriteAll r es k)[i]? = es[i]?.map fun e => e.rewrite r (k + sizeAll (es.take i)) := by
  induction es generalizing k i with
  | nil => rfl
  | cons x es ih =>
    cases i with
    | zero => simp [rewriteAll, sizeAll]
    | succ i =>
      simp only [rewriteAll, List.getElem?_cons_succ, List.take_succ_cons, sizeAll]
      rw [ih, Nat.add_assoc]

/-- A number below the size of a list is inside one of its expressions. -/
theorem exists_part {n : Nat} (h : n < sizeAll es) :
    ∃ i e m, es[i]? = some e ∧ m < e.size ∧ n = sizeAll (es.take i) + m := by
  induction es generalizing n with
  | nil => simp [sizeAll] at h
  | cons x es ih =>
    rcases Nat.lt_or_ge n x.size with hlt | hge
    · exact ⟨0, x, n, rfl, hlt, by simp [sizeAll]⟩
    · rw [sizeAll] at h
      obtain ⟨i, e, m, he, hm, hn⟩ := ih (n := n - x.size) (by omega)
      refine ⟨i + 1, e, m, he, hm, ?_⟩
      rw [List.take_succ_cons, sizeAll]
      omega

end

/-! ## Addresses -/

/-- The node that steps lead to, each of them to a direct part. -/
def node? : Expr → (steps : List Nat) → Option Expr
  | e, [] => some e
  | e, i :: steps => e.children[i]?.bind fun part => part.node? steps

/-- The number of nodes before the one that steps lead to. Those are the nodes
on the way, and all nodes of the parts in front of each part that it enters. -/
def number : Expr → (steps : List Nat) → Nat
  | _, [] => 0
  | e, i :: steps =>
    1 + sizeAll (e.children.take i) + e.children[i]?.elim 0 fun part => part.number steps

@[simp] theorem node?_nil (e : Expr) : e.node? [] = some e := rfl

@[simp] theorem number_nil (e : Expr) : e.number [] = 0 := rfl

theorem node?_cons_eq_some {e node : Expr} {i : Nat} {steps : List Nat} :
    e.node? (i :: steps) = some node ↔
      ∃ part, e.children[i]? = some part ∧ part.node? steps = some node :=
  Option.bind_eq_some_iff

theorem number_cons {e part : Expr} {i : Nat} (h : e.children[i]? = some part)
    (steps : List Nat) :
    e.number (i :: steps) = 1 + sizeAll (e.children.take i) + part.number steps := by
  simp [number, h]

/-- Steps that go on from a node lead to a node of it. -/
theorem node?_append (e : Expr) (steps inner : List Nat) :
    e.node? (steps ++ inner) = (e.node? steps).bind (·.node? inner) := by
  induction steps generalizing e with
  | nil => rfl
  | cons i steps ih =>
    rw [List.cons_append, node?, node?]
    cases e.children[i]? with
    | none => rfl
    | some part => exact ih part

theorem number_append {e node : Expr} {steps : List Nat} (h : e.node? steps = some node)
    (inner : List Nat) : e.number (steps ++ inner) = e.number steps + node.number inner := by
  induction steps generalizing e with
  | nil =>
    obtain rfl := Option.some.inj h
    rw [List.nil_append, number_nil, Nat.zero_add]
  | cons i steps ih =>
    obtain ⟨part, hpart, h⟩ := node?_cons_eq_some.1 h
    rw [List.cons_append, number_cons hpart, number_cons hpart, ih h, ← Nat.add_assoc]

/-- All of a node lies inside the expression. -/
theorem number_add_le {e node : Expr} {steps : List Nat} (h : e.node? steps = some node) :
    e.number steps + node.size ≤ e.size := by
  induction steps generalizing e with
  | nil =>
    obtain rfl := Option.some.inj h
    simp
  | cons i steps ih =>
    obtain ⟨part, hpart, h⟩ := node?_cons_eq_some.1 h
    have hinner := ih h
    have houter := sizeAll_take_add_le hpart
    rw [number_cons hpart, e.size_eq]
    omega

theorem number_lt {e node : Expr} {steps : List Nat} (h : e.node? steps = some node) :
    e.number steps < e.size := by
  have hle := number_add_le h
  have hpos := node.size_pos
  omega

/-- A node stands in the order of the walk where its number says. -/
theorem getElem?_preorder {e node : Expr} {steps : List Nat} (h : e.node? steps = some node) :
    e.preorder[e.number steps]? = some node := by
  induction steps generalizing e with
  | nil =>
    obtain rfl := Option.some.inj h
    exact e.preorder_head
  | cons i steps ih =>
    obtain ⟨part, hpart, h⟩ := node?_cons_eq_some.1 h
    rw [number_cons hpart, Nat.add_assoc, Nat.add_comm, preorder_eq, List.getElem?_cons_succ,
      getElem?_preorderAll hpart (number_lt h)]
    exact ih h

/-- Every number below the size is that of an address. -/
theorem exists_number (e : Expr) {n : Nat} (h : n < e.size) :
    ∃ steps node, e.node? steps = some node ∧ e.number steps = n := by
  cases n with
  | zero => exact ⟨[], e, rfl, rfl⟩
  | succ n =>
    have hn : n < sizeAll e.children := by
      rw [e.size_eq] at h
      omega
    obtain ⟨i, part, m, hpart, hm, rfl⟩ := exists_part hn
    obtain ⟨steps, node, hnode, rfl⟩ := exists_number part hm
    refine ⟨i :: steps, node, node?_cons_eq_some.2 ⟨part, hpart, hnode⟩, ?_⟩
    rw [number_cons hpart]
    omega
termination_by e.size
decreasing_by exact size_lt_of_part hpart

/-- What is inside one expression of a list is not inside another one. -/
theorem index_eq_of_number {es : List Expr} {i j m n : Nat} {e e' : Expr} (hi : es[i]? = some e)
    (hj : es[j]? = some e') (hm : m < e.size) (hn : n < e'.size)
    (h : sizeAll (es.take i) + m = sizeAll (es.take j) + n) : i = j := by
  rcases Nat.lt_trichotomy i j with hlt | heq | hlt
  · have := sizeAll_take_lt hi hlt
    omega
  · exact heq
  · have := sizeAll_take_lt hj hlt
    omega

/-- No two addresses have the same number. -/
theorem number_inj {e node node' : Expr} {steps steps' : List Nat}
    (h : e.node? steps = some node) (h' : e.node? steps' = some node')
    (hn : e.number steps = e.number steps') : steps = steps' := by
  induction steps generalizing e steps' with
  | nil =>
    cases steps' with
    | nil => rfl
    | cons j steps' =>
      obtain ⟨part', hpart', -⟩ := node?_cons_eq_some.1 h'
      rw [number_nil, number_cons hpart'] at hn
      omega
  | cons i steps ih =>
    obtain ⟨part, hpart, h⟩ := node?_cons_eq_some.1 h
    cases steps' with
    | nil =>
      rw [number_nil, number_cons hpart] at hn
      omega
    | cons j steps' =>
      obtain ⟨part', hpart', h'⟩ := node?_cons_eq_some.1 h'
      rw [number_cons hpart, number_cons hpart'] at hn
      obtain rfl := index_eq_of_number hpart hpart' (number_lt h) (number_lt h') (by omega)
      obtain rfl : part = part' := Option.some.inj (hpart.symm.trans hpart')
      rw [ih h h' (by omega)]

/-! ## One node replaced -/

/-- Expressions side by side when one inside the `i`-th of them is replaced:
that one is rewritten, and the others stay. -/
theorem getElem?_rewriteAll_add {es : List Expr} {i : Nat} {e : Expr} (hi : es[i]? = some e)
    {m : Nat} (hm : m < e.size) (k : Nat) (new : Expr) (j : Nat) :
    (rewriteAll (Replacement.nothing.add (k + sizeAll (es.take i) + m) new) es k)[j]? =
      if j = i then
        some (e.rewrite (Replacement.nothing.add (k + sizeAll (es.take i) + m) new)
          (k + sizeAll (es.take i)))
      else es[j]? := by
  rw [getElem?_rewriteAll]
  split
  · next hji =>
    subst hji
    rw [hi, Option.map_some]
  · next hji =>
    cases hj : es[j]? with
    | none => rfl
    | some e' =>
      rw [Option.map_some, rewrite_add e' ?_, rewrite_nothing]
      rcases Nat.lt_or_gt_of_ne hji with hlt | hlt
      · have := sizeAll_take_lt hj hlt
        omega
      · have := sizeAll_take_lt hi hlt
        omega

/-- When a node is replaced, the nodes of the new expression are found behind
its address, and every other node goes on to stand where it stood. -/
theorem node?_rewrite_add {e node : Expr} {steps : List Nat} (h : e.node? steps = some node)
    (k : Nat) (new : Expr) :
    (∀ inner, (e.rewrite (Replacement.nothing.add (k + e.number steps) new) k).node?
        (steps ++ inner) = new.node? inner) ∧
      ∀ other, ¬steps <+: other →
        ((e.rewrite (Replacement.nothing.add (k + e.number steps) new) k).node? other).map head =
          (e.node? other).map head := by
  induction steps generalizing e k with
  | nil =>
    have hnew : e.rewrite (Replacement.nothing.add (k + e.number []) new) k = new :=
      e.rewrite_of_some (Replacement.add_self _ _ _)
    rw [hnew]
    exact ⟨fun _ => rfl, fun other hother => absurd List.nil_prefix hother⟩
  | cons i steps ih =>
    obtain ⟨part, hpart, h⟩ := node?_cons_eq_some.1 h
    have hk : k + e.number (i :: steps) =
        k + 1 + sizeAll (e.children.take i) + part.number steps := by
      rw [number_cons hpart]
      omega
    rw [hk]
    obtain ⟨hinner, hother⟩ := ih h (k + 1 + sizeAll (e.children.take i))
    have hnone : Replacement.nothing.add (k + 1 + sizeAll (e.children.take i) + part.number steps)
        new k = none := Replacement.add_ne _ _ (by omega)
    have hchildren := getElem?_rewriteAll_add hpart (number_lt h) (k + 1) new
    rw [← children_rewrite hnone] at hchildren
    refine ⟨fun inner => ?_, fun other hnot => ?_⟩
    · rw [List.cons_append, node?, hchildren, if_pos rfl, Option.bind_some]
      exact hinner inner
    · cases other with
      | nil => exact congrArg some (head_rewrite hnone e)
      | cons j other =>
        rw [node?, node?, hchildren]
        split
        · next hji =>
          subst hji
          rw [hpart, Option.bind_some, Option.bind_some]
          exact hother other fun hprefix => hnot (List.cons_prefix_cons.2 ⟨rfl, hprefix⟩)
        · rfl

end Expr

end ShaderMorph
