-- The walk over a program in which one expression was put in an identity. All
-- that was visited is visited again, in the same scope and surroundings: in
-- front of the expression with the same number, inside it behind the nodes
-- that the identity puts in front of it, and past it behind all nodes that the
-- identity has. Besides, those nodes are visited and nothing else.
import ShaderMorph.Mutation.Identity
import ShaderMorph.Proofs.Nodes.Exchange

namespace ShaderMorph

/-! ## The nodes of an identity -/

namespace Identity

/-- The number of nodes that an identity puts in front of the expression in it,
in the order of the walk. -/
def lead : Identity → Nat
  | .parenthesize => 1
  | .addZero | .mulOne => 2
  | .doubleNegation => 4
  | .andTrue => 3

/-- The number of nodes that it puts behind the expression. -/
def trail : Identity → Nat
  | .addZero | .mulOne => 1
  | .parenthesize | .doubleNegation | .andTrue => 0

/-- The number of nodes that it adds. -/
def added : Identity → Nat
  | .parenthesize => 1
  | .addZero | .mulOne | .andTrue => 3
  | .doubleNegation => 4

theorem lead_add_trail (identity : Identity) : identity.lead + identity.trail = identity.added := by
  cases identity <;> rfl

theorem lead_pos (identity : Identity) : 0 < identity.lead := by cases identity <;> decide

theorem size_wrap (identity : Identity) (elem : Option ElementKind) (e : Expr) :
    (identity.wrap elem e).size = e.size + identity.added := by
  cases identity <;> simp only [wrap, Expr.bool, Expr.size, added] <;> omega

/-- The nodes that an identity adds to an expression, those in front of it
first. -/
def nodes (identity : Identity) (elem : Option ElementKind) (e : Expr) : List Expr :=
  match identity with
  | .parenthesize => [.paren e]
  | .addZero =>
    [.binary .add (.paren e) (.literal (neutral elem false)), .paren e,
      .literal (neutral elem false)]
  | .mulOne =>
    [.binary .mul (.paren e) (.literal (neutral elem true)), .paren e,
      .literal (neutral elem true)]
  | .doubleNegation =>
    [.unary .not (.paren (.unary .not (.paren e))), .paren (.unary .not (.paren e)),
      .unary .not (.paren e), .paren e]
  | .andTrue => [.binary .logicalAnd (.bool true) (.paren e), .bool true, .paren e]

theorem nodes_head? (identity : Identity) (elem : Option ElementKind) (e : Expr) :
    (identity.nodes elem e).head? = some (identity.wrap elem e) := by
  cases identity <;> rfl

/-- The number that a node has when the expression with the number `start` and
`size` nodes is put in an identity. -/
def shift (identity : Identity) (start size k : Nat) : Nat :=
  if k < start then k
  else if k < start + size then k + identity.lead
  else k + identity.added

end Identity

/-! ## Visits around a wrapped expression -/

namespace Visit

/-- The visit `w'` is what becomes of `w` when the expression `e` with the
number `k` is put in an identity. The expression itself stays, and so do those
that it is no part of. -/
structure CarriedOver (identity : Identity) (elem : Option ElementKind) (k : Nat) (e : Expr)
    (w w' : Visit) : Prop where
  ordinal : w'.ordinal = identity.shift k e.size w.ordinal
  expr : w'.expr = if w.ordinal = k then w.expr else
    w.expr.rewrite (Replacement.nothing.add k (identity.wrap elem e)) w.ordinal
  scope : w'.scope = w.scope
  around : w'.around = w.around
  isOperand : w'.isOperand = w.isOperand

/-- The visits of a program, and what they are when the expression of `v` is
put in an identity. -/
structure Wrapping (identity : Identity) (elem : Option ElementKind) (v : Visit)
    (vs vs' : List Visit) where
  before : List Visit
  inner : List Visit
  after : List Visit
  before' : List Visit
  lead : List Visit
  inner' : List Visit
  trail : List Visit
  after' : List Visit
  visits : vs = before ++ (inner ++ after)
  visits' : vs' = before' ++ ((lead ++ (inner' ++ trail)) ++ after')
  before_carried : List.Forall₂ (CarriedOver identity elem v.ordinal v.expr) before before'
  inner_carried : List.Forall₂ (CarriedOver identity elem v.ordinal v.expr) inner inner'
  after_carried : List.Forall₂ (CarriedOver identity elem v.ordinal v.expr) after after'
  lead_ordinal : lead.map (·.ordinal) = List.range' v.ordinal identity.lead
  trail_ordinal :
    trail.map (·.ordinal) = List.range' (v.ordinal + identity.lead + v.expr.size) identity.trail
  expr : (lead ++ trail).map (·.expr) = identity.nodes elem v.expr
  around : ∀ w ∈ lead ++ trail, w.scope = v.scope ∧ w.around = v.around ∧ w.isOperand = true

namespace Wrapping

variable {identity : Identity} {elem : Option ElementKind} {v : Visit} {vs vs' : List Visit}

/-- Every visit becomes one. -/
theorem exists_carried (G : v.Wrapping identity elem vs vs') {w : Visit} (hw : w ∈ vs) :
    ∃ w' ∈ vs', w.CarriedOver identity elem v.ordinal v.expr w' := by
  rw [G.visits, List.mem_append, List.mem_append] at hw
  rcases hw with hw | hw | hw
  · obtain ⟨w', hw', h⟩ := forall₂_left G.before_carried hw
    exact ⟨w', by simp [G.visits', hw'], h⟩
  · obtain ⟨w', hw', h⟩ := forall₂_left G.inner_carried hw
    exact ⟨w', by simp [G.visits', hw'], h⟩
  · obtain ⟨w', hw', h⟩ := forall₂_left G.after_carried hw
    exact ⟨w', by simp [G.visits', hw'], h⟩

/-- The whole identity has the number that the expression had. -/
theorem exists_wrapped (G : v.Wrapping identity elem vs vs') :
    ∃ w ∈ vs', w.ordinal = v.ordinal ∧ w.expr = identity.wrap elem v.expr ∧ w.scope = v.scope := by
  have hexpr := G.expr
  have hordinal := G.lead_ordinal
  have haround := G.around
  have hvisits := G.visits'
  cases hlead : G.lead with
  | nil =>
    rw [hlead] at hordinal
    have hpos := identity.lead_pos
    have hlength := congrArg List.length hordinal
    simp only [List.map_nil, List.length_nil, List.length_range'] at hlength
    omega
  | cons w lead =>
    rw [hlead] at hexpr hordinal haround hvisits
    refine ⟨w, by simp [hvisits], ?_, ?_, (haround w (by simp)).1⟩
    · have hhead := congrArg List.head? hordinal
      obtain ⟨n, hn⟩ := Nat.exists_eq_add_of_lt identity.lead_pos
      rw [hn, Nat.zero_add, List.range'_succ] at hhead
      simpa using hhead
    · have hhead := congrArg List.head? hexpr
      rw [identity.nodes_head?] at hhead
      simpa using hhead

end Wrapping

/-- What an identity around an operand that is read adds to its visits. -/
theorem visits_wrap (identity : Identity) (elem : Option ElementKind) (heads : List Prototype)
    {v : Visit} (hread : v.around.isWritten = false) (hoperand : v.isOperand = true) :
    ∃ lead inner trail, (identity.wrap elem v.expr).visits heads v.scope v.around v.parent
        v.ordinal = lead ++ (inner ++ trail) ∧
      List.Forall₂ (Renumbered 0 identity.lead) (v.parts heads) inner ∧
      lead.map (·.ordinal) = List.range' v.ordinal identity.lead ∧
      trail.map (·.ordinal) = List.range' (v.ordinal + identity.lead + v.expr.size) identity.trail ∧
      (lead ++ trail).map (·.expr) = identity.nodes elem v.expr ∧
      ∀ w ∈ lead ++ trail, w.scope = v.scope ∧ w.around = v.around ∧ w.isOperand = true := by
  obtain ⟨e, k, parent, around, scope⟩ := v
  have hself := Surroundings.read_eq_self hread
  have hinner : ∀ j, List.Forall₂ (Renumbered 0 (j + 1)) (e.visits heads scope around parent k)
      (e.visits heads scope around (some (k + j)) (k + j + 1)) := by
    intro j
    refine (e.visits_renumbered heads scope around ?_ k (k + j + 1)).imp fun _ _ hw => hw.congr ?_
    · rw [Option.isSome_some]
      exact hoperand.symm
    · omega
  have hroot : (Visit.mk e k parent around scope).isOperand = parent.isSome := rfl
  rw [hroot] at hoperand
  simp only at hself
  cases identity with
  | parenthesize =>
    refine ⟨[⟨.paren e, k, parent, around, scope⟩], _, [], ?_, hinner 0, rfl, rfl, rfl, ?_⟩
    · simp [Identity.wrap, Expr.visits]
    · simp [isOperand, hoperand]
  | addZero =>
    refine ⟨[⟨Identity.wrap .addZero elem e, k, parent, around, scope⟩,
      ⟨.paren e, k + 1, some k, around, scope⟩], _,
      [⟨.literal (Identity.neutral elem false), k + 2 + e.size, some k, around, scope⟩], ?_,
      hinner 1, rfl, rfl, rfl, ?_⟩
    · simp [Identity.wrap, Expr.visits, BinaryOp.isAssignment, hself, Expr.size]
      omega
    · simp [isOperand, hoperand]
  | mulOne =>
    refine ⟨[⟨Identity.wrap .mulOne elem e, k, parent, around, scope⟩,
      ⟨.paren e, k + 1, some k, around, scope⟩], _,
      [⟨.literal (Identity.neutral elem true), k + 2 + e.size, some k, around, scope⟩], ?_,
      hinner 1, rfl, rfl, rfl, ?_⟩
    · simp [Identity.wrap, Expr.visits, BinaryOp.isAssignment, hself, Expr.size]
      omega
    · simp [isOperand, hoperand]
  | doubleNegation =>
    refine ⟨[⟨Identity.wrap .doubleNegation elem e, k, parent, around, scope⟩,
      ⟨.paren (.unary .not (.paren e)), k + 1, some k, around, scope⟩,
      ⟨.unary .not (.paren e), k + 2, some (k + 1), around, scope⟩,
      ⟨.paren e, k + 3, some (k + 2), around, scope⟩], _, [], ?_, hinner 3, rfl, rfl, rfl, ?_⟩
    · simp [Identity.wrap, Expr.visits, UnaryOp.writesOperand, hself]
    · simp [isOperand, hoperand]
  | andTrue =>
    refine ⟨[⟨Identity.wrap .andTrue elem e, k, parent, around, scope⟩,
      ⟨.bool true, k + 1, some k, around, scope⟩,
      ⟨.paren e, k + 2, some k, around, scope⟩], _, [], ?_, hinner 2, rfl, rfl, rfl, ?_⟩
    · simp [Identity.wrap, Expr.visits, BinaryOp.isAssignment, hself, Expr.size, Expr.bool]
    · simp [isOperand, hoperand]

end Visit

/-! ## Programs -/

namespace Program

/-- Where an expression may be wrapped, an identity around it adds its own
nodes to the walk and takes none away. -/
theorem visits_wrapping {p : Program} {v : Visit} (hv : v ∈ p.visits)
    (hopen : MutationPoint.isOpen p.version v = true) (identity : Identity)
    (elem : Option ElementKind) :
    Nonempty (v.Wrapping identity elem p.visits
      (p.rewrite (Replacement.nothing.add v.ordinal (identity.wrap elem v.expr))).visits) := by
  simp only [MutationPoint.isOpen, Bool.and_eq_true, Bool.not_eq_true'] at hopen
  obtain ⟨before, after, after', hvisits, hvisits', hafter⟩ :=
    visits_exchanged hv (identity.wrap elem v.expr)
  obtain ⟨lead, inner, trail, hnew, hinner, hlead, htrail, hexpr, haround⟩ :=
    Visit.visits_wrap identity elem p.prototypes hopen.1.1.2 hopen.1.1.1
  have hflanked := flanked_of_visits hvisits
  have hstays : ∀ w : Visit, v.ordinal < w.ordinal → w.expr.rewrite
      (Replacement.nothing.add v.ordinal (identity.wrap elem v.expr)) w.ordinal = w.expr := by
    intro w hlt
    rw [w.expr.rewrite_add (Or.inl hlt), Expr.rewrite_nothing]
  have hpos := v.expr.size_pos
  rw [hnew] at hvisits'
  refine ⟨⟨before, v.parts p.prototypes, after, _, lead, inner, trail, after', hvisits, hvisits',
    ?_, ?_, ?_, hlead, htrail, hexpr, haround⟩⟩
  · rw [List.forall₂_map_right_iff, List.forall₂_same]
    intro w hw
    have hlt := ((hflanked.before w).1 hw).2
    exact ⟨(if_pos hlt).symm, (if_neg (Nat.ne_of_lt hlt)).symm, rfl, rfl, rfl⟩
  · refine (forall₂_mem hinner).imp ?_
    rintro w w' ⟨hw, -, hmoved⟩
    have hrange := Expr.mem_visits_ordinal p.prototypes hw
    refine ⟨?_, ?_, hmoved.scope, hmoved.around, hmoved.isOperand⟩
    · rw [Identity.shift, if_neg (Nat.not_lt.2 hrange.1), if_pos hrange.2]
      exact hmoved.ordinal
    · rw [hmoved.expr]
      split
      · rfl
      · next hne => exact (hstays w (by omega)).symm
  · refine (forall₂_mem hafter).imp ?_
    rintro w w' ⟨hw, -, hmoved⟩
    have hle := ((hflanked.after w).1 hw).2
    refine ⟨?_, ?_, hmoved.scope, hmoved.around, hmoved.isOperand⟩
    · have hordinal := hmoved.ordinal
      rw [identity.size_wrap] at hordinal
      rw [Identity.shift, if_neg (by omega), if_neg (by omega)]
      omega
    · rw [hmoved.expr, if_neg (by omega)]
      exact (hstays w (by omega)).symm

end Program

end ShaderMorph
