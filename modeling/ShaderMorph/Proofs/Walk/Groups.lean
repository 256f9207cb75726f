-- Which group of variables a command of the script comes from, and where that
-- group is. The walk builds its paths on the way down; the steps of a path are
-- followed from the body of the function again, and lead back to the group.
import ShaderMorph.Proofs.Address.Insertion
import ShaderMorph.Proofs.Walk.Script

namespace ShaderMorph

/-! ## Commands of a group -/

theorem VariableGroup.mem_scriptMembers {g : VariableGroup} {around : Surroundings}
    {kind : SymbolKind} {locate : Nat → DeclLocation} {member : Nat} {vs : List Variable}
    {c : Command} (h : c ∈ g.scriptMembers around kind locate member vs) :
    ∃ j x, vs[j]? = some x ∧ c = .declare (g.declarator around kind locate (member + j) x) := by
  induction vs generalizing member with
  | nil => cases h
  | cons v vs ih =>
    rcases List.mem_cons.1 h with rfl | h
    · exact ⟨0, v, rfl, rfl⟩
    · obtain ⟨j, x, hx, rfl⟩ := ih h
      exact ⟨j + 1, x, hx, by rw [Nat.add_assoc, Nat.add_comm 1 j]⟩

/-- A command of a group declares one of its members. -/
theorem VariableGroup.mem_script {g : VariableGroup} {around : Surroundings} {kind : SymbolKind}
    {locate : Nat → DeclLocation} {c : Command} (h : c ∈ g.script around kind locate) :
    ∃ j x, g.members[j]? = some x ∧ c = .declare (g.declarator around kind locate j x) := by
  obtain ⟨j, x, hx, hc⟩ := mem_scriptMembers h
  exact ⟨j, x, hx, by rwa [Nat.zero_add] at hc⟩

theorem Expr.declare_notMem_scriptOption {around : Surroundings} {e : Option Expr}
    {v : Declarator} : Command.declare v ∉ scriptOption around e := by
  cases e <;> simp [scriptOption]

/-- A place in a list splits it. -/
theorem Place.ofIndex?_map_cases {l : List β} {i : Nat} {f : List β → α} {place : Place β α}
    (h : (Place.ofIndex? l i).map (·.map f) = some place) :
    ∃ before b after, l = before ++ b :: after ∧ i = before.length ∧ place.part = b := by
  simp only [ofIndex?, Option.map_map, Option.map_eq_some_iff] at h
  obtain ⟨b, hb, rfl⟩ := h
  obtain ⟨hlt, rfl⟩ := List.getElem?_eq_some_iff.1 hb
  refine ⟨l.take i, l[i], l.drop (i + 1), ?_, by simp [Nat.le_of_lt hlt], rfl⟩
  rw [← List.drop_eq_getElem_cons hlt, List.take_append_drop]

/-! ## Groups inside a statement -/

namespace Stmt

/-- Whether a statement is a list of statements. -/
def isBlock : Stmt → Bool
  | .block _ _ => true
  | _ => false

/-- The group `g` is declared inside a statement, where the steps lead. It is
`listed` when its statement stands in a list, as `inList` says of the statement
around it. -/
inductive Holds (g : VariableGroup) :
    Stmt → (inList : Bool) → (steps : List Nat) → (listed : Bool) → Prop
  | here (inList : Bool) : Holds g (.decl g) inList [] inList
  | inside {s : Stmt} (inList : Bool) {slot : Nat} {child : Place Stmt Stmt} {steps : List Nat}
    {listed : Bool} :
    s.childPlace? slot = some child → Holds g child.part s.isBlock steps listed →
      Holds g s inList (slot :: steps) listed

namespace Holds

variable {g : VariableGroup} {s : Stmt} {inList listed : Bool} {steps : List Nat}

/-- The steps lead to the declaration of the group. -/
theorem exists_place (h : Holds g s inList steps listed) :
    ∃ place, s.place? steps = some place ∧ place.part = .decl g := by
  induction h with
  | here inList => exact ⟨_, rfl, rfl⟩
  | inside inList hc _ ih =>
    obtain ⟨place, hplace, hpart⟩ := ih
    exact ⟨_, place?_cons hc hplace, hpart⟩

/-- All steps but the last one lead to the statement that the declaration
stands in, which is a block just when it is listed. -/
theorem exists_parent (h : Holds g s inList steps listed) :
    (steps = [] ∧ s = .decl g ∧ listed = inList) ∨
      ∃ dir slot parent child, steps = dir ++ [slot] ∧ s.place? dir = some parent ∧
        parent.part.isBlock = listed ∧ parent.part.childPlace? slot = some child ∧
          child.part = .decl g := by
  induction h with
  | here inList => exact Or.inl ⟨rfl, rfl, rfl⟩
  | @inside s inList slot child steps listed hc _ ih =>
    right
    rcases ih with ⟨rfl, hpart, rfl⟩ | ⟨dir, last, parent, inner, rfl, hp, hblock, hi, hpart⟩
    · exact ⟨[], slot, .whole s, child, rfl, rfl, rfl, hc, hpart⟩
    · exact ⟨slot :: dir, last, _, inner, rfl, place?_cons hc hp, hblock, hi, hpart⟩

end Holds

/-- The variable `v` belongs to a group inside the statement at `q`. -/
def Declares (around : Surroundings) (v : Declarator) (q : StmtPath) (inList : Bool) (s : Stmt) :
    Prop :=
  ∃ g steps listed, Holds g s inList steps listed ∧
    Command.declare v ∈ g.script around .local
      ((if listed then DeclLocation.block else .nested) ⟨q.function, q.steps ++ steps⟩)

variable {around : Surroundings} {v : Declarator}

/-- What is declared in the part of a statement is declared in it. -/
theorem Declares.lift {q : StmtPath} {s t : Stmt} (slot : Nat) {put : Stmt → Stmt}
    (hc : s.childPlace? slot = some ⟨t, put⟩) (inList : Bool)
    (h : t.Declares around v (q.child slot) s.isBlock) : s.Declares around v q inList := by
  obtain ⟨g, steps, listed, hg, hv⟩ := h
  refine ⟨g, slot :: steps, listed, .inside inList hc hg, ?_⟩
  simpa [StmtPath.child] using hv

mutual

/-- What the walk declares in a statement belongs to a group inside it. -/
theorem declares_of_mem : (s : Stmt) → (q : StmtPath) → (inList : Bool) →
    .declare v ∈ s.script around q inList → s.Declares around v q inList
  | .block stmts opensFrame, q, inList, h => by
    have h : Command.declare v ∈ scriptAll around stmts q 0 := by
      cases opensFrame <;> simpa [script] using h
    obtain ⟨before, s, after, rfl, hs⟩ := declares_of_mem_all stmts q 0 h
    rw [Nat.zero_add] at hs
    exact .lift _ (childPlace?_block before after s opensFrame) inList hs
  | .decl group, q, inList, h => by
    refine ⟨group, [], inList, .here inList, ?_⟩
    simp only [script] at h
    cases inList <;> simpa using h
  | .expr value, q, _, h => by simp [script] at h
  | .ifThen cond thenBranch, q, inList, h => by
    have h : Command.declare v ∈ thenBranch.script around (q.child 0) false := by
      simpa [script] using h
    exact .lift 0 rfl inList (declares_of_mem thenBranch _ _ h)
  | .ifElse cond thenBranch elseBranch, q, inList, h => by
    have h : Command.declare v ∈ thenBranch.script around (q.child 0) false ∨
        Command.declare v ∈ elseBranch.script around (q.child 1) false := by
      simpa [script] using h
    rcases h with h | h
    · exact .lift 0 rfl inList (declares_of_mem thenBranch _ _ h)
    · exact .lift 1 rfl inList (declares_of_mem elseBranch _ _ h)
  | .forLoop init guard increment body, q, inList, h => by
    have h : Command.declare v ∈ init.script around (q.child 0) false ∨
        Command.declare v ∈ body.script around (q.child 1) false := by
      simpa [script, Expr.declare_notMem_scriptOption] using h
    rcases h with h | h
    · exact .lift 0 rfl inList (declares_of_mem init _ _ h)
    · exact .lift 1 rfl inList (declares_of_mem body _ _ h)
  | .whileLoop cond body, q, inList, h => by
    have h : Command.declare v ∈ body.script around (q.child 0) false := by
      simpa [script] using h
    exact .lift 0 rfl inList (declares_of_mem body _ _ h)
  | .doWhile body cond, q, inList, h => by
    have h : Command.declare v ∈ body.script around (q.child 0) false := by
      simpa [script] using h
    exact .lift 0 rfl inList (declares_of_mem body _ _ h)
  | .ret value, q, _, h => by
    simp only [script] at h
    exact absurd h Expr.declare_notMem_scriptOption
  | .breakLoop, _, _, h => by simp [script] at h
  | .continueLoop, _, _, h => by simp [script] at h
  | .discard, _, _, h => by simp [script] at h
  | .empty, _, _, h => by simp [script] at h

theorem declares_of_mem_all : (ss : List Stmt) → (q : StmtPath) → (slot : Nat) →
    .declare v ∈ scriptAll around ss q slot →
    ∃ before s after, ss = before ++ s :: after ∧
      s.Declares around v (q.child (slot + before.length)) true
  | [], _, _, h => by simp [scriptAll] at h
  | s :: ss, q, slot, h => by
    simp only [scriptAll, List.mem_append] at h
    rcases h with h | h
    · exact ⟨[], s, ss, rfl, declares_of_mem s _ _ h⟩
    · obtain ⟨before, t, after, rfl, ht⟩ := declares_of_mem_all ss q (slot + 1) h
      have hl : slot + 1 + before.length = slot + (s :: before).length := by
        rw [List.length_cons]; omega
      rw [hl] at ht
      exact ⟨s :: before, t, after, rfl, ht⟩

end

end Stmt

/-! ## Commands of a program -/

/-- A command of the parameters declares one that has a name. -/
theorem Parameter.mem_scriptAll {function index : Nat} {qs : List Parameter} {v : Declarator}
    (h : .declare v ∈ scriptAll function index qs) :
    ∃ j q, qs[j]? = some q ∧ q.name = some v.name ∧ v.type = q.fullType ∧
      v.location = .parameter function (index + j) := by
  induction qs generalizing index with
  | nil => cases h
  | cons q qs ih =>
    have hlater : .declare v ∈ scriptAll function (index + 1) qs →
        ∃ j r, (q :: qs)[j]? = some r ∧ r.name = some v.name ∧ v.type = r.fullType ∧
          v.location = .parameter function (index + j) := by
      intro h
      obtain ⟨j, r, hr, hname, htype, hl⟩ := ih h
      exact ⟨j + 1, r, hr, hname, htype, hl.trans (by rw [Nat.add_assoc, Nat.add_comm 1 j])⟩
    cases hn : q.name with
    | none => exact hlater (by simpa [scriptAll, hn] using h)
    | some name =>
      simp only [scriptAll, hn, List.mem_cons] at h
      rcases h with h | h
      · cases h
        exact ⟨0, q, rfl, hn, rfl, rfl⟩
      · exact hlater h

namespace Program

/-- A command of a program comes from one of its declarations. -/
theorem mem_scriptAll {version : Version} {index : Nat} {ds : List Declaration} {c : Command}
    (h : c ∈ Declaration.scriptAll version index ds) :
    ∃ before d after, ds = before ++ d :: after ∧ c ∈ d.script version (index + before.length) := by
  induction ds generalizing index with
  | nil => cases h
  | cons d ds ih =>
    rcases List.mem_append.1 h with h | h
    · exact ⟨[], d, ds, rfl, h⟩
    · obtain ⟨before, d', after, rfl, hc⟩ := ih h
      have hl : index + 1 + before.length = index + (d :: before).length := by
        rw [List.length_cons]; omega
      exact ⟨d :: before, d', after, rfl, hl ▸ hc⟩

/-- What a function declares is one of its parameters, or belongs to a group
in its body. -/
theorem declares_of_function {index : Nat} {f : Function} {v : Declarator}
    (h : .declare v ∈ f.script index) :
    (∃ j q, f.prototype.parameters[j]? = some q ∧ q.name = some v.name ∧ v.type = q.fullType ∧
        v.location = .parameter index j) ∨
      (Stmt.block f.body.stmts f.body.opensFrame).Declares
        { Surroundings.plain with function := some index } v ⟨index, []⟩ false := by
  have h : Command.declare v ∈ Parameter.scriptAll index 0 f.prototype.parameters ∨
      Command.declare v ∈ Stmt.scriptAll { Surroundings.plain with function := some index }
        f.body.stmts ⟨index, []⟩ 0 := by
    simpa [Function.script] using h
  rcases h with h | h
  · obtain ⟨j, q, hq, hname, htype, hl⟩ := Parameter.mem_scriptAll h
    exact Or.inl ⟨j, q, hq, hname, htype, by rwa [Nat.zero_add] at hl⟩
  · refine Or.inr (Stmt.declares_of_mem _ _ _ ?_)
    cases hframe : f.body.opensFrame <;> simpa [Stmt.script] using h

end Program

end ShaderMorph
