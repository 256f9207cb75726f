-- The script of a program that got one more declaration. The new declaration
-- is one command more; everything else is walked as before, but what stands
-- behind it in its list has moved up by one place, and with it the locations
-- inside.
import ShaderMorph.Proofs.Address.Insertion
import ShaderMorph.Proofs.Walk.Scopes

namespace ShaderMorph

/-! ## Relocations -/

/-- Where functions and statements of a program are in another one. -/
structure Relocation where
  function : Nat → Nat
  path : StmtPath → StmtPath

namespace Relocation

def location (ρ : Relocation) : DeclLocation → DeclLocation
  | .global declaration member => .global (ρ.function declaration) member
  | .block path member => .block (ρ.path path) member
  | .nested path member => .nested (ρ.path path) member
  | .parameter function index => .parameter (ρ.function function) index

/-- What is in one group stays in one group, in its order. -/
theorem precedesInGroup (ρ : Relocation) {a b : DeclLocation} (h : a.precedesInGroup b = true) :
    (ρ.location a).precedesInGroup (ρ.location b) = true := by
  cases a <;> cases b <;>
    simp_all [DeclLocation.precedesInGroup, location]

def around (ρ : Relocation) (a : Surroundings) : Surroundings :=
  { a with function := a.function.map ρ.function }

/-- Everything inside the statement at `p` is at the same place inside `p'`. -/
def Moves (ρ : Relocation) (p p' : StmtPath) : Prop :=
  ∀ rest, ρ.path ⟨p.function, p.steps ++ rest⟩ = ⟨p'.function, p'.steps ++ rest⟩

theorem Moves.child {ρ : Relocation} {p p' : StmtPath} (h : ρ.Moves p p') (slot : Nat) :
    ρ.Moves (p.child slot) (p'.child slot) := by
  intro rest
  simpa [StmtPath.child] using h (slot :: rest)

theorem Moves.path {ρ : Relocation} {p p' : StmtPath} (h : ρ.Moves p p') : ρ.path p = p' := by
  simpa using h []

end Relocation

def Declarator.relocate (ρ : Relocation) (v : Declarator) : Declarator :=
  { v with around := ρ.around v.around, location := ρ.location v.location }

def Command.relocate (ρ : Relocation) : Command → Command
  | .expr around e => .expr (ρ.around around) e
  | .declare v => .declare (v.relocate ρ)
  | .enter opensFrame => .enter opensFrame
  | .leave => .leave

/-! ## Scripts of things that moved -/

section

variable (ρ : Relocation)

theorem Expr.scriptOption_moves (around : Surroundings) (e : Option Expr) :
    scriptOption (ρ.around around) e = (scriptOption around e).map (.relocate ρ) := by
  cases e <;> rfl

theorem VariableGroup.scriptMembers_moves (around : Surroundings) (kind : SymbolKind)
    {locate locate' : Nat → DeclLocation} (h : ∀ m, ρ.location (locate m) = locate' m)
    (g : VariableGroup) (member : Nat) (vs : List Variable) :
    g.scriptMembers (ρ.around around) kind locate' member vs =
      (g.scriptMembers around kind locate member vs).map (.relocate ρ) := by
  induction vs generalizing member with
  | nil => rfl
  | cons v vs ih =>
    simp only [scriptMembers, List.map_cons, ih, Command.relocate, Declarator.relocate,
      declarator, h]

theorem VariableGroup.script_moves (around : Surroundings) (kind : SymbolKind)
    {locate locate' : Nat → DeclLocation} (h : ∀ m, ρ.location (locate m) = locate' m)
    (g : VariableGroup) :
    g.script (ρ.around around) kind locate' =
      (g.script around kind locate).map (.relocate ρ) :=
  g.scriptMembers_moves ρ around kind h 0 g.members

namespace Stmt

variable {ρ}

mutual

theorem script_moves (around : Surroundings) : (s : Stmt) → {p p' : StmtPath} →
    (inList : Bool) → ρ.Moves p p' →
    s.script (ρ.around around) p' inList = (s.script around p inList).map (.relocate ρ)
  | .block stmts true, _, _, _, h => by
    simp only [script, if_true, List.map_cons, List.map_append, List.map_nil, Command.relocate,
      scriptAll_moves around stmts 0 0 fun j _ => h.child (0 + j)]
  | .block stmts false, _, _, _, h => by
    simp only [script, Bool.false_eq_true, if_false]
    exact scriptAll_moves around stmts 0 0 fun j _ => h.child (0 + j)
  | .decl group, p, p', inList, h => by
    simp only [script]
    refine group.script_moves ρ around .local fun m => ?_
    cases inList <;> simp [Relocation.location, h.path]
  | .expr value, _, _, _, _ => by simp [script, Command.relocate]
  | .ifThen cond thenBranch, _, _, _, h => by
    simp [script, Command.relocate, script_moves around thenBranch false (h.child 0)]
  | .ifElse cond thenBranch elseBranch, _, _, _, h => by
    simp [script, Command.relocate, script_moves around thenBranch false (h.child 0),
      script_moves around elseBranch false (h.child 1)]
  | .forLoop init guard increment body, _, _, _, h => by
    simp only [script, List.map_cons, List.map_append, List.map_nil, Command.relocate,
      script_moves around init false (h.child 0), script_moves around body false (h.child 1),
      ← Expr.scriptOption_moves]
    rfl
  | .whileLoop cond body, _, _, _, h => by
    simp [script, Command.relocate, script_moves around body false (h.child 0)]
  | .doWhile body cond, _, _, _, h => by
    simp [script, Command.relocate, script_moves around body false (h.child 0)]
  | .ret value, _, _, _, _ => by simpa only [script] using Expr.scriptOption_moves ρ around value
  | .breakLoop, _, _, _, _ => by simp only [script, List.map_nil]
  | .continueLoop, _, _, _, _ => by simp only [script, List.map_nil]
  | .discard, _, _, _, _ => by simp only [script, List.map_nil]
  | .empty, _, _, _, _ => by simp only [script, List.map_nil]

theorem scriptAll_moves (around : Surroundings) : (ss : List Stmt) → {p p' : StmtPath} →
    (slot slot' : Nat) →
    (∀ j < ss.length, ρ.Moves (p.child (slot + j)) (p'.child (slot' + j))) →
    scriptAll (ρ.around around) ss p' slot' = (scriptAll around ss p slot).map (.relocate ρ)
  | [], _, _, _, _, _ => by simp only [scriptAll, List.map_nil]
  | s :: ss, p, p', slot, slot', h => by
    have hs : ρ.Moves (p.child slot) (p'.child slot') := h 0 (Nat.succ_pos _)
    have hss : ∀ j < ss.length, ρ.Moves (p.child (slot + 1 + j)) (p'.child (slot' + 1 + j)) := by
      intro j hj
      have := h (j + 1) (Nat.succ_lt_succ hj)
      rwa [Nat.add_comm j 1, ← Nat.add_assoc, ← Nat.add_assoc] at this
    simp only [scriptAll, List.map_append, script_moves around s true hs,
      scriptAll_moves around ss _ _ hss]

end

theorem scriptAll_append (around : Surroundings) (ss ts : List Stmt) (path : StmtPath)
    (slot : Nat) :
    scriptAll around (ss ++ ts) path slot =
      scriptAll around ss path slot ++ scriptAll around ts path (slot + ss.length) := by
  induction ss generalizing slot with
  | nil => simp [scriptAll]
  | cons s ss ih =>
    have hl : slot + 1 + ss.length = slot + (s :: ss).length := by
      rw [List.length_cons]; omega
    simp only [List.cons_append, scriptAll, ih, List.append_assoc, hl]

end Stmt

theorem Parameter.scriptAll_moves (function index : Nat) (qs : List Parameter) :
    scriptAll (ρ.function function) index qs =
      (scriptAll function index qs).map (.relocate ρ) := by
  induction qs generalizing index with
  | nil => rfl
  | cons q qs ih =>
    cases h : q.name with
    | none => simp only [scriptAll, h, ih]
    | some name =>
      simp only [scriptAll, h, ih, List.map_cons]
      rfl

theorem Function.script_moves (index : Nat) (f : Function)
    (h : ρ.Moves ⟨index, []⟩ ⟨ρ.function index, []⟩) :
    f.script (ρ.function index) = (f.script index).map (.relocate ρ) := by
  have hb := Stmt.scriptAll_moves { Surroundings.plain with function := some index }
    f.body.stmts 0 0 fun j _ => h.child (0 + j)
  have ha : ρ.around { Surroundings.plain with function := some index } =
      { Surroundings.plain with function := some (ρ.function index) } := rfl
  rw [ha] at hb
  simp [script, Parameter.scriptAll_moves, hb, Command.relocate]

theorem Declaration.script_moves (version : Version) (index : Nat) (d : Declaration)
    (h : ρ.Moves ⟨index, []⟩ ⟨ρ.function index, []⟩) :
    d.script version (ρ.function index) = (d.script version index).map (.relocate ρ) := by
  cases d with
  | «variables» group =>
    have hl : ∀ m, ρ.location (.global index m) = .global (ρ.function index) m := fun _ => rfl
    exact group.script_moves ρ
      { Surroundings.plain with constContext := version.requiresConstGlobals }
      .global hl
  | function f => exact f.script_moves ρ index h
  | prototype head => rfl

theorem Declaration.scriptAll_moves (version : Version) (ds : List Declaration)
    (index index' : Nat)
    (h : ∀ j < ds.length, ρ.function (index + j) = index' + j ∧
      ρ.Moves ⟨index + j, []⟩ ⟨index' + j, []⟩) :
    scriptAll version index' ds = (scriptAll version index ds).map (.relocate ρ) := by
  induction ds generalizing index index' with
  | nil => rfl
  | cons d ds ih =>
    obtain ⟨hf, hm⟩ := h 0 (Nat.succ_pos _)
    rw [Nat.add_zero, Nat.add_zero] at hf hm
    have hds : ∀ j < ds.length, ρ.function (index + 1 + j) = index' + 1 + j ∧
        ρ.Moves ⟨index + 1 + j, []⟩ ⟨index' + 1 + j, []⟩ := by
      intro j hj
      have := h (j + 1) (Nat.succ_lt_succ hj)
      rwa [Nat.add_comm j 1, ← Nat.add_assoc, ← Nat.add_assoc] at this
    have hd : d.script version index' = (d.script version index).map (.relocate ρ) := by
      rw [← hf]
      exact d.script_moves ρ version index (hf ▸ hm)
    simp only [scriptAll, List.map_append, hd, ih _ _ hds]

theorem Declaration.scriptAll_append (version : Version) (index : Nat) (ds es : List Declaration) :
    scriptAll version index (ds ++ es) =
      scriptAll version index ds ++ scriptAll version (index + ds.length) es := by
  induction ds generalizing index with
  | nil => rfl
  | cons d ds ih =>
    have hl : index + 1 + ds.length = index + (d :: ds).length := by
      rw [List.length_cons]; omega
    simp only [List.cons_append, scriptAll, ih, List.append_assoc, hl]

end

end ShaderMorph
