-- Expressions that have to stay constant, and declarations of constants, as
-- the script of a program tells them. A command has the same say on this in
-- every state, and wherever it is moved. So a declaration that comes in, which
-- is no constant and has no initializer, changes nothing there; and what an
-- expression is part of has to stay constant just when it has to itself.
import ShaderMorph.Proofs.Walk.Matching
import ShaderMorph.Proofs.Walk.Rewritten
import ShaderMorph.Proofs.Walk.Spliced

namespace ShaderMorph

/-- An expression, and whether it has to stay constant. -/
def Visit.demand (v : Visit) : Expr × Bool := (v.expr, v.around.constContext)

namespace Command

/-! ## One command -/

/-- Whether the expressions of a command have to stay constant. -/
def constContext : Command → Bool
  | .expr around _ => around.constContext
  | .declare v => v.around.constContext || v.isConst
  | .enter _ => false
  | .leave => false

/-- Whether a command declares a constant. -/
def isConst : Command → Bool
  | .declare v => v.isConst
  | _ => false

/-- The expressions of a command, and for each whether it has to stay constant. -/
def demands (c : Command) : List (Expr × Bool) := c.exprs.map (·, c.constContext)

theorem constContext_of_mem_events {heads : List Prototype} {s : WalkState} {c : Command}
    {v : Visit} (h : .visit v ∈ c.events heads s) : v.around.constContext = c.constContext := by
  have hvisits : ∀ (around : Surroundings) (e : Expr),
      v ∈ e.visits heads s.scope around none s.ordinal →
        v.around.constContext = around.constContext := by
    intro around e hv
    have hread := (e.visits_beside heads s.scope around none s.ordinal v hv).2
    exact congrArg (·.constContext) hread
  cases c with
  | expr around e =>
    obtain ⟨w, hw, hv⟩ := List.mem_map.1 h
    cases hv
    exact hvisits around e hw
  | declare d =>
    rcases List.mem_append.1 h with h | h
    · obtain ⟨w, hw, hv⟩ := List.mem_map.1 h
      cases hv
      cases hi : d.initializer with
      | none => simp [Declarator.visits, Expr.visitsOption, hi] at hw
      | some e =>
        simp only [Declarator.visits, Expr.visitsOption, hi] at hw
        exact hvisits (d.inner s.id) e hw
    · simp at h
  | enter o => cases h
  | leave => cases h

theorem demands_events (heads : List Prototype) (s : WalkState) (c : Command) :
    (Event.visits (c.events heads s)).map Visit.demand = c.demands := by
  rw [demands, ← visits_events_expr heads s, List.map_map]
  refine List.map_congr_left fun v hv => ?_
  exact congrArg (v.expr, ·) (constContext_of_mem_events (Event.mem_visits.1 hv))

theorem declared_events_isConst (heads : List Prototype) (s : WalkState) (c : Command) :
    (Event.declared (c.events heads s)).countP (·.isConst) = if c.isConst then 1 else 0 := by
  cases c with
  | expr around e => simp [events, isConst]
  | declare v =>
    rw [events, Event.declared_append, Event.declared_map_visit, List.nil_append,
      Event.declared_cons_declare, Event.declared_nil, List.countP_singleton]
    rfl
  | enter o => rfl
  | leave => rfl

@[simp] theorem demands_relocate (ρ : Relocation) (c : Command) :
    (c.relocate ρ).demands = c.demands := by
  cases c <;> rfl

@[simp] theorem isConst_relocate (ρ : Relocation) (c : Command) :
    (c.relocate ρ).isConst = c.isConst := by
  cases c <;> rfl

/-! ## Commands in a row -/

theorem run_demands (heads : List Prototype) (cs : List Command) (s : WalkState) :
    (Event.visits (run heads cs s)).map Visit.demand = cs.flatMap demands := by
  induction cs generalizing s with
  | nil => rfl
  | cons c cs ih => simp [run, ih, demands_events]

theorem run_isConst (heads : List Prototype) (cs : List Command) (s : WalkState) :
    (Event.declared (run heads cs s)).countP (·.isConst) = cs.countP isConst := by
  induction cs generalizing s with
  | nil => rfl
  | cons c cs ih =>
    rw [run, Event.declared_append, List.countP_append, declared_events_isConst, ih,
      List.countP_cons, Nat.add_comm]

end Command

namespace Program

theorem demands_eq (p : Program) :
    p.visits.map Visit.demand = p.script.flatMap Command.demands := by
  rw [visits_eq, walk_eq_run, Command.run_demands]

theorem countP_isConst (p : Program) :
    p.declared.countP (·.isConst) = p.script.countP Command.isConst := by
  rw [declared_eq, walk_eq_run, Command.run_isConst]

/-- What is part of an expression has to stay constant just when that has to. -/
theorem constContext_of_parent {p : Program} {v w : Visit} (hv : v ∈ p.visits) (hw : w ∈ p.visits)
    (hk : v.parent = some w.ordinal) : v.around.constContext = w.around.constContext := by
  have hwalk := mem_visits.1 hv
  rw [walk_eq_run] at hwalk
  obtain ⟨before, c, after, hcs, he⟩ := Command.mem_run hwalk
  obtain ⟨u, hu, hord, -⟩ := Command.events_stems he hk
  have hmem : u ∈ p.visits := by
    rw [mem_visits, walk_eq_run, hcs, Command.run_append, Command.run]
    exact List.mem_append_right _ (List.mem_append_left _ hu)
  obtain rfl := visits_ext hmem hw hord
  rw [Command.constContext_of_mem_events he, Command.constContext_of_mem_events hu]

end Program

/-! ## One declaration more -/

namespace Spliced

variable {ρ : Relocation} {new old cs cs' : List Command}

theorem demands_eq (h : Spliced ρ new old cs cs') (hnew : new.flatMap Command.demands = []) :
    cs'.flatMap Command.demands = cs.flatMap Command.demands := by
  obtain ⟨before, after, rfl, rfl⟩ := h
  simp [hnew, List.flatMap_map]

theorem countP_isConst (h : Spliced ρ new old cs cs') (hnew : new.countP Command.isConst = 0) :
    cs'.countP Command.isConst = cs.countP Command.isConst := by
  obtain ⟨before, after, rfl, rfl⟩ := h
  simp [hnew, List.countP_map, Function.comp_def]

end Spliced

namespace Program

variable {p p' : Program} {new g : VariableGroup} {location : DeclLocation}

theorem PutBefore.spliced (h : p.PutBefore new g location p') :
    ∃ around kind locate, Spliced (.before location) (new.script around kind locate)
      (g.script around kind locate) p.script p'.script := by
  cases h with
  | global version before after member =>
    exact ⟨_, _, _, spliced_global new g version before after member⟩
  | block version before after f stmts steps member hput =>
    exact ⟨_, _, _, spliced_block version before after member hput⟩

variable {name : String} {type : DataType}

/-- Nothing that has to stay constant comes in. -/
theorem PutBefore.demands_eq (h : p.PutBefore (.bare name type) g location p') :
    p'.visits.map Visit.demand = p.visits.map Visit.demand := by
  obtain ⟨around, kind, locate, hs⟩ := h.spliced
  rw [p.demands_eq, p'.demands_eq, hs.demands_eq rfl]

/-- No constant comes in. -/
theorem PutBefore.countP_isConst (h : p.PutBefore (.bare name type) g location p') :
    p'.declared.countP (·.isConst) = p.declared.countP (·.isConst) := by
  obtain ⟨around, kind, locate, hs⟩ := h.spliced
  rw [p.countP_isConst, p'.countP_isConst, hs.countP_isConst rfl]

end Program

end ShaderMorph
