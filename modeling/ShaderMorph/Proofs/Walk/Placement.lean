-- Where on the walk things are met. What belongs to a function is met in one
-- of its frames. Outside of functions there is only the global frame: what is
-- declared there is a global variable, and what is visited there belongs to
-- the initializer of one.
import ShaderMorph.Globals.Strip
import ShaderMorph.Proofs.Walk.Enlargement

namespace ShaderMorph

/-- The slot of a location, when it is a global one. -/
def DeclLocation.slot? : DeclLocation → Option GlobalSlot
  | .global declaration member => some ⟨declaration, member⟩
  | _ => none

/-! ## Inside a function -/

/-- Met inside the function at `index`. -/
def Event.InFunction (index : Nat) : Event → Prop
  | .visit v => v.around.function = some index
  | .declare d => d.symbol.kind ≠ .global ∧ d.location.slot? = none

namespace Command

/-- Commands inside the function at `index`. They never leave the frame that
they start in, but for deeper ones, and they come back to it. -/
structure Inside (index : Nat) (cs : List Command) : Prop where
  depth : ∀ s, (final cs s).scope.depth = s.scope.depth
  kept : ∀ s, (final cs s).kept = s.kept
  met : ∀ heads s, ∀ e ∈ run heads cs s, s.scope.depth ≤ e.scope.depth ∧ e.InFunction index

namespace Inside

variable {index : Nat} {cs ds : List Command} {around : Surroundings}

theorem nil : Inside index [] := ⟨fun _ => rfl, fun _ => rfl, fun _ _ _ he => by cases he⟩

theorem append (h : Inside index cs) (h' : Inside index ds) : Inside index (cs ++ ds) := by
  refine ⟨fun s => ?_, fun s => ?_, fun heads s e he => ?_⟩
  · rw [final_append, h'.depth, h.depth]
  · rw [final_append, h'.kept, h.kept]
  · rw [run_append] at he
    rcases List.mem_append.1 he with he | he
    · exact h.met heads s e he
    · have hmet := h'.met heads (final cs s) e he
      rw [h.depth] at hmet
      exact hmet

theorem expr (hf : around.function = some index) (e : Expr) : Inside index [.expr around e] := by
  refine ⟨fun _ => rfl, fun _ => rfl, fun heads s x hx => ?_⟩
  rw [run, run, List.append_nil] at hx
  refine ⟨Nat.le_of_eq (congrArg (·.depth) (events_scope hx)).symm, ?_⟩
  obtain ⟨v, hv, rfl⟩ := List.mem_map.1 hx
  have hbeside := (e.visits_beside heads s.scope around none s.ordinal v hv).2
  exact (congrArg (·.function) hbeside).trans hf

theorem exprOption (hf : around.function = some index) (e : Option Expr) :
    Inside index (Expr.scriptOption around e) := by
  cases e with
  | none => exact nil
  | some e => exact expr hf e

theorem declare {v : Declarator} (hf : v.initializer = none ∨ v.around.function = some index)
    (hkind : v.kind ≠ .global) (hslot : v.location.slot? = none) :
    Inside index [.declare v] := by
  refine ⟨fun _ => rfl, fun _ => rfl, fun heads s x hx => ?_⟩
  rw [run, run, List.append_nil] at hx
  refine ⟨Nat.le_of_eq (congrArg (·.depth) (events_scope hx)).symm, ?_⟩
  rcases List.mem_append.1 hx with hx | hx
  · obtain ⟨w, hw, rfl⟩ := List.mem_map.1 hx
    rcases hf with hnone | hf
    · simp [Declarator.visits, Expr.visitsOption, hnone] at hw
    · exact (congrArg (·.function) (Declarator.around_of_mem_visits hw)).trans hf
  · rw [List.mem_singleton.1 hx]
    exact ⟨hkind, hslot⟩

/-- The state between `enter` and `leave`, and what it comes back to. -/
theorem next_leave (h : Inside index cs) (s : WalkState) (opensFrame : Bool) :
    Command.leave.next (final cs ((Command.enter opensFrame).next s)) =
      { final cs ((Command.enter opensFrame).next s) with scope := s.scope, kept := s.kept } := by
  have hkept := h.kept ((Command.enter opensFrame).next s)
  generalize final cs ((Command.enter opensFrame).next s) = t at hkept
  obtain ⟨scope, kept, ordinal, id⟩ := t
  obtain rfl : kept = s.scope :: s.kept := hkept
  rfl

/-- What is met between `enter` and `leave`. -/
theorem met_within (h : Inside index cs) (opensFrame : Bool) {heads : List Prototype}
    {s : WalkState} {e : Event} (he : e ∈ run heads (.enter opensFrame :: (cs ++ [.leave])) s) :
    ((Command.enter opensFrame).next s).scope.depth ≤ e.scope.depth ∧ e.InFunction index := by
  rw [run, run_append] at he
  simp only [events, run, List.nil_append, List.append_nil] at he
  exact h.met heads _ e he

theorem within (h : Inside index cs) (opensFrame : Bool) :
    Inside index (.enter opensFrame :: (cs ++ [.leave])) := by
  refine ⟨fun s => ?_, fun s => ?_, fun heads s e he => ?_⟩
  · rw [final_cons, final_append, final_cons, final_nil, h.next_leave]
  · rw [final_cons, final_append, final_cons, final_nil, h.next_leave]
  · obtain ⟨hdepth, hin⟩ := h.met_within opensFrame he
    refine ⟨Nat.le_trans ?_ hdepth, hin⟩
    cases opensFrame
    · exact Nat.le_refl _
    · exact Nat.le_succ _

end Inside

end Command

open Command (Inside)

theorem VariableGroup.inside {index : Nat} {around : Surroundings}
    (hf : around.function = some index) {locate : Nat → DeclLocation}
    (hslot : ∀ m, (locate m).slot? = none) (g : VariableGroup) :
    Inside index (g.script around .local locate) := by
  have hmembers : ∀ (vs : List Variable) (member : Nat),
      Inside index (g.scriptMembers around .local locate member vs) := by
    intro vs
    induction vs with
    | nil => exact fun _ => .nil
    | cons v vs ih =>
      intro member
      have hv : Inside index [.declare (g.declarator around .local locate member v)] :=
        .declare (Or.inr hf) (by simp [declarator]) (hslot member)
      exact hv.append (ih (member + 1))
  exact hmembers g.members 0

namespace Stmt

variable {index : Nat} {around : Surroundings}

mutual

theorem inside (hf : around.function = some index) : (s : Stmt) → (path : StmtPath) →
    (inList : Bool) → Inside index (s.script around path inList)
  | .block stmts true, path, _ => by
    simpa [script] using (insideAll hf stmts path 0).within true
  | .block stmts false, path, _ => by simpa [script] using insideAll hf stmts path 0
  | .decl group, path, inList => by
    simp only [script]
    refine group.inside hf fun m => ?_
    cases inList <;> rfl
  | .expr value, _, _ => by simpa only [script] using .expr hf value
  | .ifThen cond thenBranch, path, _ => by
    simpa [script] using
      (Inside.expr hf cond).append ((inside hf thenBranch (path.child 0) false).within false)
  | .ifElse cond thenBranch elseBranch, path, _ => by
    have h := ((Inside.expr hf cond).append
      ((inside hf thenBranch (path.child 0) false).within false)).append
        ((inside hf elseBranch (path.child 1) false).within false)
    simpa [script] using h
  | .forLoop init guard increment body, path, _ => by
    have hheader : ∀ (part : ForHeaderSlot) (e : Option Expr),
        Inside index (Expr.scriptOption { around with forHeader := some part } e) := by
      intro part e
      have hpart : Surroundings.function { around with forHeader := some part } = some index := hf
      exact .exprOption hpart e
    have h := ((((inside hf init (path.child 0) false).append (hheader .guard guard)).append
      (hheader .increment increment)).append (inside hf body (path.child 1) false)).within true
    simpa [script] using h
  | .whileLoop cond body, path, _ => by
    simpa [script] using
      (Inside.expr hf cond).append ((inside hf body (path.child 0) false).within false)
  | .doWhile body cond, path, _ => by
    have h := ((inside hf body (path.child 0) false).within false).append (.expr hf cond)
    simpa [script] using h
  | .ret value, _, _ => by simpa only [script] using .exprOption hf value
  | .breakLoop, _, _ => .nil
  | .continueLoop, _, _ => .nil
  | .discard, _, _ => .nil
  | .empty, _, _ => .nil

theorem insideAll (hf : around.function = some index) : (ss : List Stmt) → (path : StmtPath) →
    (slot : Nat) → Inside index (scriptAll around ss path slot)
  | [], _, _ => .nil
  | s :: ss, path, slot => by
    simpa only [scriptAll] using
      (inside hf s (path.child slot) true).append (insideAll hf ss path (slot + 1))

end

end Stmt

theorem Parameter.inside (index : Nat) (qs : List Parameter) (k : Nat) :
    Inside index (scriptAll index k qs) := by
  induction qs generalizing k with
  | nil => exact .nil
  | cons q qs ih =>
    cases h : q.name with
    | none => simpa only [scriptAll, h] using ih (k + 1)
    | some name =>
      have hq : Inside index
          [.declare ⟨.plain, .parameter, .parameter index k, false, q.fullType, name, none⟩] :=
        .declare (Or.inl rfl) (by simp) rfl
      simpa [scriptAll, h] using hq.append (ih (k + 1))

/-- What is between the first and the last command of a function. -/
theorem Function.inside (index : Nat) (f : Function) :
    ∃ cs, f.script index = .enter true :: (cs ++ [.leave]) ∧ Inside index cs := by
  have hbody : Inside index
      (Stmt.scriptAll { Surroundings.plain with function := some index }
        f.body.stmts ⟨index, []⟩ 0) :=
    Stmt.insideAll rfl f.body.stmts ⟨index, []⟩ 0
  refine ⟨_, ?_, (Parameter.inside index f.prototype.parameters 0).append
    (hbody.within f.body.opensFrame)⟩
  simp [script]

/-! ## Everywhere -/

/-- Met where it belongs: in a frame of a function, or else in the global
frame, where only initializers are visited. -/
def Event.Placed : Event → Prop
  | .visit v =>
    (v.around.function.isSome ∧ v.scope.isGlobal = false) ∨
      (v.around.function = none ∧ v.scope.isGlobal = true ∧ v.around.initializerOf.isSome)
  | .declare d => d.symbol.kind = .global ↔ d.location.slot?.isSome

theorem Event.InFunction.placed {index : Nat} {e : Event} (h : e.InFunction index)
    (hdepth : 0 < e.scope.depth) : e.Placed := by
  cases e with
  | visit v =>
    have hf : v.around.function = some index := h
    have hne : v.scope.depth ≠ 0 := Nat.ne_of_gt hdepth
    exact Or.inl ⟨by rw [hf]; rfl, by simpa [ScopeTree.isGlobal] using hne⟩
  | declare d => exact ⟨fun hk => absurd hk h.1, fun hs => by rw [h.2] at hs; cases hs⟩

/-- The members of a global group are met in the global frame. -/
theorem VariableGroup.placed_members {heads : List Prototype} {around : Surroundings}
    (hf : around.function = none) (index : Nat) (g : VariableGroup) (vs : List Variable)
    (member : Nat) (s : WalkState) (hs : s.scope.depth = 0) :
    (∀ e ∈ Command.run heads (g.scriptMembers around .global (.global index) member vs) s,
        e.Placed) ∧
      (Command.final (g.scriptMembers around .global (.global index) member vs) s).scope.depth =
        0 := by
  induction vs generalizing member s with
  | nil => exact ⟨fun _ he => (by cases he), hs⟩
  | cons v vs ih =>
    obtain ⟨hrest, hdepth⟩ :=
      ih (member + 1)
        ((Command.declare (g.declarator around .global (.global index) member v)).next s) hs
    refine ⟨fun e he => ?_, hdepth⟩
    rcases List.mem_append.1 he with he | he
    · rcases List.mem_append.1 he with hvisit | hdeclare
      · obtain ⟨w, hw, rfl⟩ := List.mem_map.1 hvisit
        have hscope : w.scope = s.scope := Command.events_scope he
        have haround := Declarator.around_of_mem_visits hw
        refine Or.inr ⟨(congrArg (·.function) haround).trans hf, ?_, ?_⟩
        · rw [hscope]
          simp [ScopeTree.isGlobal, hs]
        · rw [Declarator.initializerOf_of_mem_visits hw]
          rfl
      · rw [List.mem_singleton.1 hdeclare]
        exact ⟨fun _ => rfl, fun _ => rfl⟩
    · exact hrest e he

theorem Declaration.placed (heads : List Prototype) (version : Version) (index : Nat)
    (d : Declaration) (s : WalkState) (hs : s.scope.depth = 0) :
    (∀ e ∈ Command.run heads (d.script version index) s, e.Placed) ∧
      (Command.final (d.script version index) s).scope.depth = 0 := by
  cases d with
  | «variables» group => exact group.placed_members rfl index group.members 0 s hs
  | function f =>
    obtain ⟨cs, hcs, hin⟩ := f.inside index
    rw [script, hcs]
    refine ⟨fun e he => ?_, ?_⟩
    · obtain ⟨hdepth, hfunction⟩ := hin.met_within true he
      exact hfunction.placed (Nat.lt_of_lt_of_le (Nat.succ_pos s.scope.depth) hdepth)
    · rw [(hin.within true).depth, hs]
  | prototype head => exact ⟨fun _ he => (by cases he), hs⟩

/-- Everything on the walk is met where it belongs. -/
theorem Program.placed {p : Program} {e : Event} (he : e ∈ p.walk) : e.Placed := by
  have hall : ∀ (ds : List Declaration) (index : Nat) (s : WalkState), s.scope.depth = 0 →
      ∀ e ∈ Command.run p.prototypes (Declaration.scriptAll p.version index ds) s, e.Placed := by
    intro ds
    induction ds with
    | nil => exact fun _ _ _ e he => by cases he
    | cons d ds ih =>
      intro index s hs e he
      obtain ⟨hfirst, hdepth⟩ := d.placed p.prototypes p.version index s hs
      rw [Declaration.scriptAll, Command.run_append] at he
      rcases List.mem_append.1 he with he | he
      · exact hfirst e he
      · exact ih (index + 1) _ hdepth e he
  rw [walk_eq_run] at he
  exact hall p.declarations 0 .start rfl e he

end ShaderMorph
