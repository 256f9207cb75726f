-- Which expressions are mutation points. The walk hands down from each
-- expression to its parts whether they are written, and a scan looks at that
-- mark. Seen from a node, what counts is the way up: through member accesses,
-- brackets and the indexed parts of indexes, does it come to a part that an
-- expression writes? The scan finds a point at just those parts of other
-- expressions that are not written in that sense, that need not stay as they
-- are, and that some wanted identity suits.
import Mathlib.Data.List.Induction
import ShaderMorph.Proofs.Nodes.Sites

namespace ShaderMorph

/-! ## Identities that suit -/

namespace Identity

/-- Whether the family of an identity is switched on. -/
def isWanted (switches : IdentitySwitches) : Identity → Bool
  | .parenthesize => switches.parenthesize
  | .addZero | .mulOne => switches.arithmetic
  | .doubleNegation | .andTrue => switches.boolean

/-- Whether an identity keeps the values of a type. Only brackets do for a
type that is not known. -/
def suits (type : Option DataType) : Identity → Bool
  | .parenthesize => true
  | .addZero | .mulOne => type.any DataType.isNumeric
  | .doubleNegation | .andTrue => type == some (.scalar .bool)

/-- The identities to choose from are the wanted ones that suit. -/
theorem legalFor_eq (switches : IdentitySwitches) (type : Option DataType) :
    legalFor switches type = all.filter fun i => i.isWanted switches && i.suits type := by
  obtain ⟨parenthesize, arithmetic, boolean⟩ := switches
  cases type with
  | none => cases parenthesize <;> simp [legalFor, all, isWanted, suits]
  | some t =>
    by_cases hbool : t = .scalar .bool
    · subst hbool
      cases parenthesize <;> cases arithmetic <;> cases boolean <;> rfl
    · cases hnumeric : t.isNumeric <;>
        cases parenthesize <;> cases arithmetic <;>
          simp [legalFor, all, isWanted, suits, hnumeric, hbool]

theorem mem_legalFor {switches : IdentitySwitches} {type : Option DataType} {i : Identity} :
    i ∈ legalFor switches type ↔ i.isWanted switches ∧ i.suits type := by
  have hall : i ∈ all := by cases i <;> simp [all]
  rw [legalFor_eq, List.mem_filter, Bool.and_eq_true]
  exact and_iff_right hall

theorem legalFor_ne_nil {switches : IdentitySwitches} {type : Option DataType} :
    legalFor switches type ≠ [] ↔ ∃ i : Identity, i.isWanted switches ∧ i.suits type := by
  rw [Ne, List.eq_nil_iff_forall_not_mem]
  push Not
  exact exists_congr fun _ => mem_legalFor

end Identity

/-! ## What is written -/

/-- An expression writes its part numbered `i`: the left side of an assignment,
the operand that is stepped up or down, or an argument that the called function
gives back. For a function that the program declares, one of its heads with as
many parameters has to say so. -/
inductive Expr.Writes (heads : List Prototype) : Expr → (i : Nat) → Prop
  | assigned (op : BinaryOp) (lhs rhs : Expr) :
    op.isAssignment = true → Writes heads (.binary op lhs rhs) 0
  | stepped (op : UnaryOp) (operand : Expr) :
    op.writesOperand = true → Writes heads (.unary op operand) 0
  | declared (args : List Expr) (i : Nat) (head : Prototype) (parameter : Parameter) :
    head ∈ heads → head.parameters.length = args.length →
      head.parameters[i]? = some parameter →
        (parameter.mode = .output ∨ parameter.mode = .inout) →
          Writes heads (.call head.name args) i
  | builtin (callee : String) (args : List Expr) (i : Nat) (outputs : List Nat) :
    (∀ head ∈ heads, head.name ≠ callee) → (callee, outputs) ∈ builtinOutputs → i ∈ outputs →
      Writes heads (.call callee args) i

/-- The part numbered `i` is written when the expression is: the base of a
member access, what stands in brackets, and the indexed part of an index. -/
inductive Expr.HandsOn : Expr → (i : Nat) → Prop
  | member (base : Expr) (name : String) : HandsOn (.member base name) 0
  | index (base position : Expr) : HandsOn (.index base position) 0
  | paren (inner : Expr) : HandsOn (.paren inner) 0

/-- The address of the part numbered `i` of a node. -/
def NodePath.part (a : NodePath) (i : Nat) : NodePath := ⟨a.root, a.steps ++ [i]⟩

/-- On the way up from the node at an address, over parts that are written when
the expression around them is, stands a part that an expression writes. -/
inductive Program.Written (p : Program) : NodePath → Prop
  | written {a : NodePath} {i : Nat} {e : Expr} :
    p.node? a = some e → e.Writes p.prototypes i → Written p (a.part i)
  | handed {a : NodePath} {i : Nat} {e : Expr} :
    p.node? a = some e → e.HandsOn i → Written p a → Written p (a.part i)

theorem writesArgument_iff {heads : List Prototype} {callee : String} {args : List Expr} {i : Nat} :
    writesArgument heads callee args.length i = true ↔
      (Expr.call callee args).Writes heads i := by
  unfold writesArgument
  split
  · next hany =>
    obtain ⟨known, hknown, hname⟩ := List.any_eq_true.1 hany
    rw [List.any_eq_true]
    constructor
    · rintro ⟨head, hhead, h⟩
      simp only [Prototype.writes, Bool.and_eq_true, beq_iff_eq, Option.any_eq_true] at h
      obtain ⟨rfl, hlength, parameter, hparameter, hmode⟩ := h
      refine .declared args i head parameter hhead hlength hparameter ?_
      cases hm : parameter.mode <;> simp [hm, ParameterMode.writesArgument] at hmode ⊢
    · intro h
      cases h with
      | declared _ _ head parameter hhead hlength hparameter hmode =>
        refine ⟨head, hhead, ?_⟩
        rcases hmode with hmode | hmode <;>
          simp [Prototype.writes, hlength, hparameter, hmode, ParameterMode.writesArgument]
      | builtin _ _ _ outputs hnone => exact absurd (by simpa using hname) (hnone known hknown)
  · next hany =>
    have hnone : ∀ head ∈ heads, head.name ≠ callee := by simpa using hany
    rw [List.any_eq_true]
    constructor
    · rintro ⟨⟨name, outputs⟩, hrow, h⟩
      simp only [Bool.and_eq_true, beq_iff_eq, List.contains_eq_mem, decide_eq_true_eq] at h
      obtain ⟨rfl, hi⟩ := h
      exact .builtin name args i outputs hnone hrow hi
    · intro h
      cases h with
      | declared _ _ head parameter hhead => exact absurd rfl (hnone head hhead)
      | builtin _ _ _ outputs _ hrow hi => exact ⟨_, hrow, by simpa using hi⟩

namespace Expr

theorem eq_zero_of_only {part only : Expr} {i : Nat} (h : [only][i]? = some part) : i = 0 := by
  have hlt := (List.getElem?_eq_some_iff.1 h).1
  simpa using hlt

/-- A part is written when its expression writes it, or hands on that it is
written itself. -/
theorem inner_isWritten {heads : List Prototype} {around : Surroundings} {e part : Expr} {i : Nat}
    (h : e.children[i]? = some part) :
    (e.inner heads around i).isWritten = true ↔
      e.Writes heads i ∨ e.HandsOn i ∧ around.isWritten = true := by
  cases e with
  | ident name => simp [children] at h
  | literal value => simp [children] at h
  | binary op lhs rhs =>
    have hon : ¬(Expr.binary op lhs rhs).HandsOn i := by rintro ⟨⟩
    have hwrites : (Expr.binary op lhs rhs).Writes heads i ↔ i = 0 ∧ op.isAssignment := by
      constructor
      · rintro ⟨⟩
        exact ⟨rfl, ‹_›⟩
      · rintro ⟨rfl, hop⟩
        exact .assigned op lhs rhs hop
    rw [inner, hwrites]
    split <;> simp_all [Surroundings.written, Surroundings.read]
  | unary op operand =>
    obtain rfl := eq_zero_of_only h
    have hon : ¬(Expr.unary op operand).HandsOn 0 := by rintro ⟨⟩
    have hwrites : (Expr.unary op operand).Writes heads 0 ↔ op.writesOperand := by
      constructor
      · rintro ⟨⟩
        assumption
      · exact .stepped op operand
    rw [inner, hwrites]
    split <;> simp_all [Surroundings.written, Surroundings.read]
  | member base name =>
    obtain rfl := eq_zero_of_only h
    have hwrites : ¬(Expr.member base name).Writes heads 0 := by rintro ⟨⟩
    simp [inner, hwrites, HandsOn.member]
  | index base position =>
    have hwrites : ¬(Expr.index base position).Writes heads i := by rintro ⟨⟩
    have hon : (Expr.index base position).HandsOn i ↔ i = 0 := by
      constructor
      · rintro ⟨⟩
        rfl
      · rintro rfl
        exact .index base position
    rw [inner, hon]
    split <;> simp_all [Surroundings.read]
  | call callee args =>
    have hon : ¬(Expr.call callee args).HandsOn i := by rintro ⟨⟩
    rw [inner, ← writesArgument_iff]
    split <;> simp_all [Surroundings.written, Surroundings.read]
  | ternary cond thenExpr elseExpr =>
    have hwrites : ¬(Expr.ternary cond thenExpr elseExpr).Writes heads i := by rintro ⟨⟩
    have hon : ¬(Expr.ternary cond thenExpr elseExpr).HandsOn i := by rintro ⟨⟩
    simp [inner, hwrites, hon, Surroundings.read]
  | paren only =>
    obtain rfl := eq_zero_of_only h
    have hwrites : ¬(Expr.paren only).Writes heads 0 := by rintro ⟨⟩
    simp [inner, hwrites, HandsOn.paren]

/-- Nothing but what is written changes on the way to a part. -/
theorem inner_read (heads : List Prototype) (around : Surroundings) (e : Expr) (i : Nat) :
    (e.inner heads around i).read = around.read := by
  cases e <;> simp only [inner, Surroundings.read_read] <;> (try split) <;> rfl

theorem aroundAt_read (heads : List Prototype) (around : Surroundings) (e : Expr)
    (steps : List Nat) : (e.aroundAt heads around steps).read = around.read := by
  induction steps generalizing around e with
  | nil => rfl
  | cons i steps ih =>
    rw [aroundAt]
    cases e.children[i]? with
    | none => rfl
    | some part => rw [Option.elim_some, ih, inner_read]

/-- The last step of a way to a node. -/
theorem aroundAt_append {heads : List Prototype} {around : Surroundings} {e node part : Expr}
    {steps : List Nat} {i : Nat} (h : e.node? steps = some node)
    (hpart : node.children[i]? = some part) :
    e.aroundAt heads around (steps ++ [i]) =
      node.inner heads (e.aroundAt heads around steps) i := by
  induction steps generalizing around e with
  | nil =>
    obtain rfl := Option.some.inj h
    simp [aroundAt, hpart]
  | cons j steps ih =>
    obtain ⟨next, hnext, h⟩ := node?_cons_eq_some.1 h
    simp only [List.cons_append, aroundAt, hnext, Option.elim_some]
    exact ih h

theorem node?_concat {e node : Expr} {steps : List Nat} {i : Nat} :
    e.node? (steps ++ [i]) = some node ↔
      ∃ outer, e.node? steps = some outer ∧ outer.children[i]? = some node := by
  rw [node?_append, Option.bind_eq_some_iff]
  simp [node?]

end Expr

namespace Program

variable {p : Program}

theorem node?_part {a : NodePath} {i : Nat} {node : Expr} :
    p.node? (a.part i) = some node ↔
      ∃ outer, p.node? a = some outer ∧ outer.children[i]? = some node := by
  simp only [node?_eq_some, NodePath.part, Expr.node?_concat]
  constructor
  · rintro ⟨e, he, outer, houter, hnode⟩
    exact ⟨outer, ⟨e, he, houter⟩, hnode⟩
  · rintro ⟨outer, ⟨e, he, houter⟩, hnode⟩
    exact ⟨e, he, outer, houter, hnode⟩

/-- The mark that the walk hands down tells what the way up comes to. -/
theorem isWritten_iff {root : Nat} {s : Site} (hs : p.sites[root]? = some s)
    (hread : s.around.isWritten = false) (steps : List Nat) {node : Expr}
    (h : p.node? ⟨root, steps⟩ = some node) :
    (s.expr.aroundAt p.prototypes s.around steps).isWritten = true ↔ p.Written ⟨root, steps⟩ := by
  have hroot : p.rootExprs[root]? = some s.expr := by
    rw [← sites_exprs, List.getElem?_map, hs, Option.map_some]
  induction steps using List.reverseRecOn generalizing node with
  | nil =>
    refine ⟨fun hw => absurd hw (by simp [Expr.aroundAt, hread]), fun hw => ?_⟩
    generalize ha : (⟨root, []⟩ : NodePath) = a at hw
    cases hw <;> simp [NodePath.part] at ha
  | append_singleton steps i ih =>
    obtain ⟨outer, houter, hnode⟩ := (node?_part (a := ⟨root, steps⟩)).1 h
    have hinside : s.expr.node? steps = some outer := by
      obtain ⟨e, he, hinside⟩ := node?_eq_some.1 houter
      obtain rfl := Option.some.inj (hroot.symm.trans he)
      exact hinside
    have houtside : (s.expr.aroundAt p.prototypes s.around steps).isWritten = true ↔
        p.Written ⟨root, steps⟩ := ih houter
    rw [Expr.aroundAt_append hinside hnode, Expr.inner_isWritten hnode, houtside]
    constructor
    · rintro (hw | ⟨hon, hw⟩)
      · exact .written houter hw
      · exact .handed houter hon hw
    · intro hw
      generalize ha : (⟨root, steps ++ [i]⟩ : NodePath) = a at hw
      cases hw with
      | @written b j e he hwrites =>
        obtain ⟨rfl, hsteps⟩ := NodePath.mk.inj ha
        obtain ⟨rfl, rfl⟩ := List.append_singleton_inj.1 hsteps
        obtain rfl := Option.some.inj (houter.symm.trans he)
        exact Or.inl hwrites
      | @handed b j e he hon hw =>
        obtain ⟨rfl, hsteps⟩ := NodePath.mk.inj ha
        obtain ⟨rfl, rfl⟩ := List.append_singleton_inj.1 hsteps
        obtain rfl := Option.some.inj (houter.symm.trans he)
        exact Or.inr ⟨hon, hw⟩

/-! ## Where a point may be -/

/-- A node that may be wrapped: a part of another expression that is not
written, in an expression that need not stay as it is. -/
structure Open (p : Program) (a : NodePath) : Prop where
  part : a.steps ≠ []
  read : ¬p.Written a
  free : ∃ root e, p.roots[a.root]? = some (root, e) ∧ root.isProtected p.version = false

/-- What the walk meets at an address may be wrapped when the node there may. -/
theorem isOpen_iff {a : NodePath} {node : Expr} (h : p.node? a = some node) {v : Visit}
    (hv : p.visits[p.number a]? = some v) :
    MutationPoint.isOpen p.version v = true ↔ p.Open a := by
  obtain ⟨s, hs, hvisit⟩ := visits_node h
  obtain rfl := Option.some.inj (hvisit.symm.trans hv)
  have hroot : ((p.roots.map fun root => (false, root.1.isProtected p.version)))[a.root]? =
      some (s.around.isWritten, s.around.protects p.version) := by
    rw [← sites_around, List.getElem?_map, hs, Option.map_some]
  rw [List.getElem?_map, Option.map_eq_some_iff] at hroot
  obtain ⟨⟨root, e⟩, hroot, hmarks⟩ := hroot
  obtain ⟨hread, hprotected⟩ := Prod.mk.inj hmarks
  have hwritten := isWritten_iff hs hread.symm a.steps h
  have hbeside := s.expr.aroundAt_read p.prototypes s.around a.steps
  generalize s.expr.aroundAt p.prototypes s.around a.steps = around at hwritten hbeside ⊢
  have hprotects : around.protects p.version = s.around.protects p.version := by
    simp only [Surroundings.read, Surroundings.mk.injEq] at hbeside
    simp only [Surroundings.protects, hbeside]
  have hopen : MutationPoint.isOpen p.version ⟨node, p.number a, a.up?.map p.number, around,
      s.scope⟩ = (!a.steps.isEmpty && !around.isWritten && !around.protects p.version) := by
    have hoperand : (a.up?.map p.number).isSome = !a.steps.isEmpty := by
      unfold NodePath.up?
      split <;> simp_all
    simp only [MutationPoint.isOpen, Visit.isOperand, hoperand, Surroundings.protects, Bool.not_or,
      Bool.and_assoc]
  rw [hopen, hprotects, ← hprotected]
  simp only [Bool.and_eq_true, Bool.not_eq_true', List.isEmpty_eq_false_iff]
  constructor
  · rintro ⟨⟨hpart, hnot⟩, hfree⟩
    exact ⟨hpart, fun hw => by simp [hwritten.2 hw] at hnot, root, e, hroot, hfree⟩
  · rintro ⟨hpart, hnot, root', e', hroot', hfree⟩
    obtain ⟨rfl, rfl⟩ := Prod.mk.inj (Option.some.inj (hroot.symm.trans hroot'))
    exact ⟨⟨hpart, Bool.not_eq_true _ ▸ fun hw => hnot (hwritten.1 hw)⟩, hfree⟩

end Program

/-! ## The scan -/

namespace MutationPoint

variable {switches : IdentitySwitches} {oracle : TypeOracle} {version : Version} {v : Visit}
  {m : MutationPoint}

theorem ofVisit?_eq_some :
    ofVisit? switches oracle version v = some m ↔
      isOpen version v = true ∧ Identity.legalFor switches (oracle v.expr v.scope) ≠ [] ∧
        m = ⟨v.ordinal, v.expr, oracle v.expr v.scope,
          Identity.legalFor switches (oracle v.expr v.scope)⟩ := by
  unfold ofVisit?
  split
  · next hopen =>
    dsimp only
    split
    · next hnil => simp [hnil]
    · next hne =>
      rw [Option.some.injEq]
      exact ⟨fun hm => ⟨hopen, hne, hm.symm⟩, fun hm => hm.2.2.symm⟩
  · next hclosed => simp [hclosed]

theorem ordinal_of_ofVisit? (h : ofVisit? switches oracle version v = some m) :
    m.ordinal = v.ordinal := by
  rw [(ofVisit?_eq_some.1 h).2.2]

end MutationPoint

namespace Program

/-- A scan finds its points in the order of their numbers. It finds one at
every node that may be wrapped and that some wanted identity suits, by the type
that the oracle tells for it where it stands, and at no other node. The point
tells the number, the expression, the type, and all such identities. -/
theorem mutationPointsBy_exact (p : Program) (switches : IdentitySwitches) (oracle : TypeOracle) :
    (p.mutationPointsBy switches oracle).Pairwise (·.ordinal < ·.ordinal) ∧
      ∀ m, m ∈ p.mutationPointsBy switches oracle ↔
        ∃ a v, p.visits[p.number a]? = some v ∧ p.node? a = some v.expr ∧ p.Open a ∧
          (∃ i : Identity, i.isWanted switches ∧ i.suits (oracle v.expr v.scope)) ∧
          m = ⟨p.number a, v.expr, oracle v.expr v.scope,
            Identity.all.filter fun i =>
              i.isWanted switches && i.suits (oracle v.expr v.scope)⟩ := by
  constructor
  · have hvisits : p.visits.Pairwise (·.ordinal < ·.ordinal) := by
      rw [← List.pairwise_map (f := Visit.ordinal) (R := (· < ·)), visits_ordinal]
      exact List.pairwise_lt_range
    refine hvisits.filterMap _ fun v w hlt m hm n hn => ?_
    rw [MutationPoint.ordinal_of_ofVisit? hm, MutationPoint.ordinal_of_ofVisit? hn]
    exact hlt
  · intro m
    have hmem : m ∈ p.mutationPointsBy switches oracle ↔
        ∃ v ∈ p.visits, MutationPoint.ofVisit? switches oracle p.version v = some m :=
      List.mem_filterMap
    rw [hmem]
    constructor
    · rintro ⟨v, hv, hm⟩
      obtain ⟨k, hk, rfl⟩ := List.getElem_of_mem hv
      have hcount : k < p.exprCount := by
        rwa [← List.length_range (n := p.exprCount), ← visits_ordinal, List.length_map]
      obtain ⟨a, node, hnode, rfl⟩ := exists_address hcount
      have hvisit := List.getElem?_eq_getElem hk
      obtain ⟨s, -, hat⟩ := visits_node hnode
      have heq := Option.some.inj (hvisit.symm.trans hat)
      obtain ⟨hopen, hlegal, rfl⟩ := MutationPoint.ofVisit?_eq_some.1 hm
      refine ⟨a, _, hvisit, ?_, (isOpen_iff hnode hvisit).1 hopen,
        Identity.legalFor_ne_nil.1 hlegal, ?_⟩
      · rw [heq, hnode]
      · rw [← Identity.legalFor_eq, ordinal_getElem hk]
    · rintro ⟨a, v, hv, hnode, hopen, hsome, rfl⟩
      refine ⟨v, List.mem_of_getElem? hv, MutationPoint.ofVisit?_eq_some.2
        ⟨(isOpen_iff hnode hv).2 hopen, Identity.legalFor_ne_nil.2 hsome, ?_⟩⟩
      obtain ⟨hlt, rfl⟩ := List.getElem?_eq_some_iff.1 hv
      rw [ordinal_getElem hlt, Identity.legalFor_eq]

end Program

end ShaderMorph
