-- One declaration more, seen from the script. Putting a declaration before a
-- group splices one stretch of commands into the script, right before the
-- commands of that group, and moves the locations behind it. And wherever the
-- walk declares a variable in a list, something can be put before it.
import ShaderMorph.Proofs.Walk.Groups
import ShaderMorph.Proofs.Walk.Relocation

namespace ShaderMorph

/-! ## Making room -/

/-- Steps to a statement once there is one more statement at `target`. -/
def shiftSteps : (target steps : List Nat) → List Nat
  | [slot], step :: steps => (if step < slot then step else step + 1) :: steps
  | slot :: next :: target, step :: steps =>
    if step = slot then step :: shiftSteps (next :: target) steps else step :: steps
  | _, steps => steps

theorem shiftSteps_inside {target : List Nat} (h : target ≠ []) (slot : Nat) (steps : List Nat) :
    shiftSteps (slot :: target) (slot :: steps) = slot :: shiftSteps target steps := by
  cases target with
  | nil => exact absurd rfl h
  | cons next target => simp [shiftSteps]

theorem shiftSteps_beside {target : List Nat} (h : target ≠ []) {slot step : Nat}
    (hs : step ≠ slot) (steps : List Nat) :
    shiftSteps (slot :: target) (step :: steps) = step :: steps := by
  cases target with
  | nil => exact absurd rfl h
  | cons next target => simp [shiftSteps, hs]

/-- Where everything is once one more declaration is at a location. -/
def Relocation.before : DeclLocation → Relocation
  | .global index _ =>
    let function := fun i => if i < index then i else i + 1
    ⟨function, fun p => { p with function := function p.function }⟩
  | .block path _ =>
    ⟨id, fun p =>
      if p.function = path.function then ⟨p.function, shiftSteps path.steps p.steps⟩ else p⟩
  | .nested _ _ => ⟨id, id⟩
  | .parameter _ _ => ⟨id, id⟩

/-! ## Splicing -/

/-- The commands `new` are spliced in right before the commands `old`, and
the others are relocated. -/
def Spliced (ρ : Relocation) (new old cs cs' : List Command) : Prop :=
  ∃ before after, cs = before ++ (old ++ after) ∧
    cs' = before.map (.relocate ρ) ++ (new ++ (old ++ after).map (.relocate ρ))

/-- What stays where it is can be put around. -/
theorem Spliced.within {ρ : Relocation} {new old cs cs' : List Command}
    (h : Spliced ρ new old cs cs') {l r : List Command} (hl : l.map (.relocate ρ) = l)
    (hr : r.map (.relocate ρ) = r) : Spliced ρ new old (l ++ (cs ++ r)) (l ++ (cs' ++ r)) := by
  obtain ⟨before, after, rfl, rfl⟩ := h
  refine ⟨l ++ before, after ++ r, by simp, ?_⟩
  simp only [List.map_append, hl, hr, List.append_assoc]

namespace Stmt

/-- There is at least one step to a statement in a block. -/
theorem PutBefore.steps_ne_nil {new g : VariableGroup} {steps : List Nat} {s s' : Stmt}
    (h : PutBefore new g steps s s') : steps ≠ [] := by
  cases h <;> exact List.cons_ne_nil _ _

/-- What the relocation does with paths through the statement at `q`. -/
def Shifts (ρ : Relocation) (q : StmtPath) (steps : List Nat) : Prop :=
  ∀ rest, ρ.path ⟨q.function, q.steps ++ rest⟩ =
    ⟨q.function, q.steps ++ shiftSteps steps rest⟩

namespace Shifts

variable {ρ : Relocation} {q : StmtPath} {steps : List Nat}

theorem child {slot : Nat} (h : Shifts ρ q (slot :: steps)) (hs : steps ≠ []) :
    Shifts ρ (q.child slot) steps := by
  intro rest
  simpa [StmtPath.child, shiftSteps_inside hs] using h (slot :: rest)

theorem moves_beside {slot : Nat} (h : Shifts ρ q (slot :: steps)) (hs : steps ≠ [])
    (step : Nat) (hne : step ≠ slot) : ρ.Moves (q.child step) (q.child step) := by
  intro rest
  simpa [StmtPath.child, shiftSteps_beside hs hne] using h (step :: rest)

theorem moves_last {slot : Nat} (h : Shifts ρ q [slot]) (step : Nat) :
    ρ.Moves (q.child step) (q.child (if step < slot then step else step + 1)) := by
  intro rest
  simpa [StmtPath.child, shiftSteps] using h (step :: rest)

end Shifts

variable {new g : VariableGroup} {ρ : Relocation} {around : Surroundings}

/-! ## Scripts that stay -/

theorem script_stays (ha : ρ.around around = around) (s : Stmt) {q : StmtPath}
    (hq : ρ.Moves q q) :
    (s.script around q false).map (.relocate ρ) = s.script around q false := by
  have hmoves := s.script_moves around false hq
  rw [ha] at hmoves
  exact hmoves.symm

/-- The parts of a header stay where their loop does. -/
theorem scriptOption_stays (ha : ρ.around around = around) (slot : ForHeaderSlot)
    (e : Option Expr) :
    (Expr.scriptOption { around with forHeader := some slot } e).map (.relocate ρ) =
      Expr.scriptOption { around with forHeader := some slot } e := by
  have hf : around.function.map ρ.function = around.function := congrArg (·.function) ha
  rw [← Expr.scriptOption_moves]
  simp only [Relocation.around, hf]

/-! ## The script of a statement -/

/-- In the list of the group itself, the statements behind the new declaration
move by one. -/
theorem spliced_here (new g : VariableGroup) (ha : ρ.around around = around) {q : StmtPath}
    (before after : List Stmt) (hq : Shifts ρ q [before.length]) :
    Spliced ρ (new.script around .local (.block ⟨q.function, q.steps ++ [before.length]⟩))
      (g.script around .local (.block ⟨q.function, q.steps ++ [before.length]⟩))
      (scriptAll around (before ++ .decl g :: after) q 0)
      (scriptAll around (before ++ .decl new :: .decl g :: after) q 0) := by
  have hb := scriptAll_moves around (ρ := ρ) before (p := q) 0 0
    fun j hj => by simpa [hj] using hq.moves_last (0 + j)
  have hd := scriptAll_moves around (ρ := ρ) (.decl g :: after) (p := q)
    before.length (before.length + 1) fun j hj => by
      have hlt : ¬ before.length + j < before.length := by omega
      have hadd : before.length + j + 1 = before.length + 1 + j := by omega
      simpa [hlt, hadd] using hq.moves_last (before.length + j)
  rw [ha] at hb hd
  refine ⟨scriptAll around before q 0, scriptAll around after q (before.length + 1), ?_, ?_⟩
  · simp [scriptAll_append, scriptAll, Stmt.script, StmtPath.child]
  · rw [← hb, scriptAll_append, Nat.zero_add, scriptAll, hd]
    simp [scriptAll, Stmt.script, StmtPath.child]

/-- The script of a statement with a declaration put before a group in it. -/
theorem PutBefore.script {steps : List Nat} {s s' : Stmt} (h : PutBefore new g steps s s')
    (ha : ρ.around around = around) (q : StmtPath) (inList : Bool) (hq : Shifts ρ q steps) :
    Spliced ρ (new.script around .local (.block ⟨q.function, q.steps ++ steps⟩))
      (g.script around .local (.block ⟨q.function, q.steps ++ steps⟩))
      (s.script around q inList) (s'.script around q inList) := by
  have hexpr : ∀ e : Expr, (Command.expr around e).relocate ρ = .expr around e := fun e => by
    simp only [Command.relocate, ha]
  have henter : ∀ o, (Command.enter o).relocate ρ = .enter o := fun _ => rfl
  have hleave : Command.leave.relocate ρ = .leave := rfl
  have hheader := scriptOption_stays ha
  induction h generalizing q inList with
  | here before after opensFrame =>
    have hs := spliced_here new g ha before after hq
    cases opensFrame with
    | true => simpa [Stmt.script] using hs.within (l := [.enter true]) (r := [.leave]) rfl rfl
    | false => simpa [Stmt.script] using hs
  | @inBlock before after opensFrame steps s s' h ih =>
    have hne := h.steps_ne_nil
    have hb := scriptAll_moves around (ρ := ρ) before (p := q) 0 0
      fun j hj => hq.moves_beside hne _ (by omega)
    have hd := scriptAll_moves around (ρ := ρ) after (p := q) (before.length + 1)
      (before.length + 1)
      fun j hj => hq.moves_beside hne _ (by omega)
    rw [ha] at hb hd
    have hs := (ih (q.child before.length) true (hq.child hne)).within hb.symm hd.symm
    cases opensFrame with
    | true =>
      simpa [Stmt.script, scriptAll_append, scriptAll, StmtPath.child] using
        hs.within (l := [.enter true]) (r := [.leave]) rfl rfl
    | false => simpa [Stmt.script, scriptAll_append, scriptAll, StmtPath.child] using hs
  | @inThen cond steps s s' h ih =>
    have hs := (ih (q.child 0) false (hq.child h.steps_ne_nil)).within
      (l := [.expr around cond, .enter false]) (r := [.leave])
      (by simp [hexpr, henter]) (by simp [hleave])
    simpa [Stmt.script, StmtPath.child] using hs
  | @inFirst cond elseBranch steps s s' h ih =>
    have he := elseBranch.script_stays ha (hq.moves_beside h.steps_ne_nil 1 (by decide))
    have hs := (ih (q.child 0) false (hq.child h.steps_ne_nil)).within
      (l := [.expr around cond, .enter false])
      (r := .leave :: .enter false :: (elseBranch.script around (q.child 1) false ++ [.leave]))
      (by simp [hexpr, henter]) (by simp [henter, hleave, he])
    simpa [Stmt.script, StmtPath.child] using hs
  | @inElse cond thenBranch steps s s' h ih =>
    have ht := thenBranch.script_stays ha (hq.moves_beside h.steps_ne_nil 0 (by decide))
    have hs := (ih (q.child 1) false (hq.child h.steps_ne_nil)).within
      (l := .expr around cond :: .enter false ::
        (thenBranch.script around (q.child 0) false ++ [.leave, .enter false]))
      (r := [.leave]) (by simp [hexpr, henter, hleave, ht]) (by simp [hleave])
    simpa [Stmt.script, StmtPath.child] using hs
  | @inInit guard increment body steps s s' h ih =>
    have hbody := body.script_stays ha (hq.moves_beside h.steps_ne_nil 1 (by decide))
    have hs := (ih (q.child 0) false (hq.child h.steps_ne_nil)).within (l := [.enter true])
      (r := Expr.scriptOption { around with forHeader := some .guard } guard ++
        (Expr.scriptOption { around with forHeader := some .increment } increment ++
          (body.script around (q.child 1) false ++ [.leave])))
      (by simp [henter]) (by simp only [List.map_append, hheader, hbody]; rfl)
    simpa [Stmt.script, StmtPath.child] using hs
  | @inFor init guard increment steps s s' h ih =>
    have hinit := init.script_stays ha (hq.moves_beside h.steps_ne_nil 0 (by decide))
    have hs := (ih (q.child 1) false (hq.child h.steps_ne_nil)).within
      (l := .enter true :: (init.script around (q.child 0) false ++
        (Expr.scriptOption { around with forHeader := some .guard } guard ++
          Expr.scriptOption { around with forHeader := some .increment } increment)))
      (r := [.leave])
      (by simp only [List.map_cons, List.map_append, henter, hinit, hheader]) (by simp [hleave])
    simpa [Stmt.script, StmtPath.child] using hs
  | @inWhile cond steps s s' h ih =>
    have hs := (ih (q.child 0) false (hq.child h.steps_ne_nil)).within
      (l := [.expr around cond, .enter false]) (r := [.leave])
      (by simp [hexpr, henter]) (by simp [hleave])
    simpa [Stmt.script, StmtPath.child] using hs
  | @inDo cond steps s s' h ih =>
    have hs := (ih (q.child 0) false (hq.child h.steps_ne_nil)).within
      (l := [.enter false]) (r := [.leave, .expr around cond])
      (by simp [henter]) (by simp [hexpr, hleave])
    simpa [Stmt.script, StmtPath.child] using hs

end Stmt

/-! ## What can be put before -/

namespace Stmt

variable {new g : VariableGroup}

/-- What can be put into a part of a statement can be put into the statement. -/
theorem PutBefore.lift {s t' : Stmt} {slot : Nat} {child : Place Stmt Stmt} {steps : List Nat}
    (hc : s.childPlace? slot = some child) (h : PutBefore new g steps child.part t') :
    ∃ s', PutBefore new g (slot :: steps) s s' := by
  unfold childPlace? at hc
  split at hc
  · obtain ⟨before, t, after, rfl, rfl, rfl⟩ := Place.ofIndex?_map_cases hc
    exact ⟨_, .inBlock before after _ h⟩
  · cases hc
    exact ⟨_, .inThen _ h⟩
  · cases hc
    exact ⟨_, .inFirst _ _ h⟩
  · cases hc
    exact ⟨_, .inElse _ _ h⟩
  · cases hc
    exact ⟨_, .inInit _ _ _ h⟩
  · cases hc
    exact ⟨_, .inFor _ _ _ h⟩
  · cases hc
    exact ⟨_, .inWhile _ h⟩
  · cases hc
    exact ⟨_, .inDo _ h⟩
  · cases hc

/-- Something can be put before a group that is listed. The statement itself
may be its declaration, in a list that is around it. -/
theorem Holds.putBefore {s : Stmt} {inList listed : Bool} {steps : List Nat}
    (h : Holds g s inList steps listed) (hlisted : listed = true) :
    (inList = true ∧ steps = [] ∧ s = .decl g) ∨ ∃ s', PutBefore new g steps s s' := by
  induction h with
  | here inList => exact Or.inl ⟨hlisted, rfl, rfl⟩
  | @inside s inList slot child steps listed hc _ ih =>
    right
    rcases ih hlisted with ⟨hblock, rfl, hpart⟩ | ⟨t', hput⟩
    · cases s with
      | block stmts opensFrame =>
        obtain ⟨before, t, after, rfl, rfl, rfl⟩ := Place.ofIndex?_map_cases hc
        rw [hpart]
        exact ⟨_, .here before after opensFrame⟩
      | _ => exact absurd hblock Bool.false_ne_true
    · exact hput.lift hc

/-- What is put into a block stays in it, whether it opens a frame or not. -/
theorem PutBefore.block_cases {g : VariableGroup} {steps : List Nat} {ss : List Stmt} {s' : Stmt}
    {opensFrame : Bool} (h : PutBefore new g steps (.block ss opensFrame) s') :
    ∃ ss', s' = .block ss' opensFrame ∧
      ∀ o, PutBefore new g steps (.block ss o) (.block ss' o) := by
  cases h with
  | here before after _ => exact ⟨_, rfl, fun o => .here before after o⟩
  | inBlock before after _ h => exact ⟨_, rfl, fun o => .inBlock before after o h⟩

end Stmt

/-! ## Programs -/

namespace Program

theorem prototypes_putBefore {new g : VariableGroup} {location : DeclLocation} {p p' : Program}
    (h : p.PutBefore new g location p') : p'.prototypes = p.prototypes := by
  cases h <;> simp [prototypes, Declaration.prototype?]

theorem version_putBefore {new g : VariableGroup} {location : DeclLocation} {p p' : Program}
    (h : p.PutBefore new g location p') : p'.version = p.version := by
  cases h <;> rfl

theorem spliced_global (new g : VariableGroup) (version : Version)
    (before after : List Declaration) (member : Nat) :
    Spliced (.before (.global before.length member))
      (new.script { Surroundings.plain with constContext := version.requiresConstGlobals } .global
        (.global before.length))
      (g.script { Surroundings.plain with constContext := version.requiresConstGlobals } .global
        (.global before.length))
      (script ⟨version, before ++ .variables g :: after⟩)
      (script ⟨version, before ++ .variables new :: .variables g :: after⟩) := by
  have hb := Declaration.scriptAll_moves (.before (.global before.length member)) version before
    0 0 fun j hj => by
      have hlt : 0 + j < before.length := by omega
      refine ⟨if_pos hlt, fun rest => ?_⟩
      simp only [Relocation.before, hlt, if_true]
  have hd := Declaration.scriptAll_moves (.before (.global before.length member)) version
    (.variables g :: after) before.length (before.length + 1) fun j _ => by
      have hlt : ¬ before.length + j < before.length := by omega
      have hadd : before.length + j + 1 = before.length + 1 + j := by omega
      refine ⟨(if_neg hlt).trans hadd, fun rest => ?_⟩
      simp only [Relocation.before, hlt, if_false, hadd]
  refine ⟨Declaration.scriptAll version 0 before,
    Declaration.scriptAll version (before.length + 1) after, ?_, ?_⟩
  · simp [script, Declaration.scriptAll_append, Declaration.scriptAll, Declaration.script]
  · rw [← hb, script, Declaration.scriptAll_append, Nat.zero_add, Declaration.scriptAll, hd]
    rfl

theorem spliced_block {new g : VariableGroup} {steps : List Nat} {f : Function}
    {stmts : List Stmt} (version : Version) (before after : List Declaration) (member : Nat)
    (h : Stmt.PutBefore new g steps (.block f.body.stmts f.body.opensFrame)
      (.block stmts f.body.opensFrame)) :
    Spliced (.before (.block ⟨before.length, steps⟩ member))
      (new.script { Surroundings.plain with function := some before.length } .local
        (.block ⟨before.length, steps⟩))
      (g.script { Surroundings.plain with function := some before.length } .local
        (.block ⟨before.length, steps⟩))
      (script ⟨version, before ++ .function f :: after⟩)
      (script
        ⟨version, before ++ .function { f with body := { f.body with stmts } } :: after⟩) := by
  have hother : ∀ j, j ≠ before.length →
      (Relocation.before (.block ⟨before.length, steps⟩ member)).function j = j ∧
        (Relocation.before (.block ⟨before.length, steps⟩ member)).Moves ⟨j, []⟩ ⟨j, []⟩ := by
    intro j hj
    refine ⟨rfl, fun rest => ?_⟩
    simp [Relocation.before, hj]
  have hb := Declaration.scriptAll_moves (.before (.block ⟨before.length, steps⟩ member)) version
    before 0 0 fun j hj => hother _ (by omega)
  have hd := Declaration.scriptAll_moves (.before (.block ⟨before.length, steps⟩ member)) version
    after (before.length + 1) (before.length + 1) fun j hj =>
      hother _ (by omega)
  have hp := Parameter.scriptAll_moves (.before (.block ⟨before.length, steps⟩ member))
    before.length 0 f.prototype.parameters
  obtain ⟨_, he, hframe⟩ := h.block_cases
  cases he
  let around : Surroundings := { Surroundings.plain with function := some before.length }
  have haround : (Relocation.before (.block ⟨before.length, steps⟩ member)).around around =
      around := rfl
  have hs := (hframe false).script haround ⟨before.length, []⟩ false fun rest => by
    simp [Relocation.before]
  simp only [Stmt.script, Bool.false_eq_true, if_false, List.nil_append] at hs
  have hf := hs.within (l := .enter true ::
      (Parameter.scriptAll before.length 0 f.prototype.parameters ++ [.enter f.body.opensFrame]))
    (r := [.leave, .leave]) (by
      rw [List.map_cons, List.map_append, ← hp]
      rfl) rfl
  have hall := hf.within hb.symm hd.symm
  simpa [script, Declaration.scriptAll_append, Declaration.scriptAll, Declaration.script,
    Function.script] using hall

/-- Where the walk declares a variable in a list, another declaration can be
put before it. -/
theorem exists_putBefore {p : Program} {v : Declarator} (hv : .declare v ∈ p.script)
    (hs : v.location.acceptsSibling = true) (new : VariableGroup) :
    ∃ g around kind locate p', p.PutBefore new g v.location p' ∧
      Command.declare v ∈ g.script around kind locate ∧
      (∀ i j, i ≤ j → (locate i).precedesInGroup (locate j) = true) ∧
      ((∃ index, locate = .global index) ∨ ∃ path, locate = .block path) ∧
        Spliced (.before v.location) (new.script around kind locate) (g.script around kind locate)
          p.script p'.script := by
  obtain ⟨version, declarations⟩ := p
  obtain ⟨before, d, after, rfl, hd⟩ := mem_scriptAll hv
  rw [Nat.zero_add] at hd
  cases d with
  | «variables» g =>
    obtain ⟨j, x, -, he⟩ := VariableGroup.mem_script hd
    have hl : v.location = .global before.length j := by cases he; rfl
    rw [hl]
    exact ⟨g, _, _, _, _, .global version before after j, hd,
      by simp [DeclLocation.precedesInGroup], Or.inl ⟨_, rfl⟩,
      spliced_global new g version before after j⟩
  | prototype head => cases hd
  | function f =>
    obtain ⟨i, q, -, -, -, hl⟩ | ⟨g, steps, listed, hg, hmem⟩ := declares_of_function hd
    · simp [hl, DeclLocation.acceptsSibling] at hs
    · obtain ⟨j, x, -, he⟩ := VariableGroup.mem_script hmem
      -- only what is listed accepts a sibling
      cases listed with
      | false =>
        cases he
        simp [VariableGroup.declarator, DeclLocation.acceptsSibling] at hs
      | true =>
        obtain ⟨hf, -⟩ | ⟨s', hput⟩ := hg.putBefore rfl
        · cases hf
        obtain ⟨stmts, rfl, hframe⟩ := hput.block_cases
        have hl : v.location = .block ⟨before.length, steps⟩ j := by cases he; rfl
        rw [hl]
        exact ⟨g, _, _, _, _, .block version before after f stmts steps j (hframe _), hmem,
          by simp [DeclLocation.precedesInGroup], Or.inr ⟨_, rfl⟩,
          spliced_block version before after j (hframe _)⟩

end Program

end ShaderMorph
