-- What fuzzing leaves alone. A mutation point is never found at an expression
-- that is written, nor inside an initializer that has to stay constant or, in
-- the versions that look at it, the header of a `for`. So a fuzzed program
-- differs from the original inside its other expressions only, and the
-- expressions that are written are the same ones.
import ShaderMorph.Proofs.Address.Roots
import ShaderMorph.Proofs.Mutation.Wrapping
import ShaderMorph.Proofs.Walk.Rewritten

namespace ShaderMorph

/-! ## What has to stay -/

/-- Whether an expression has to stay as it is, by what it is there for. -/
def Root.isProtected (version : Version) : Root → Bool
  | .initializer isConst isGlobal => isConst || (isGlobal && version.requiresConstGlobals)
  | .forHeader => version.restrictsLoopBounds
  | .plain => false

/-- What stands for an expression that may be any. -/
def Expr.blank : Expr := .ident ""

namespace Program

/-- A program with all its expressions blanked out. -/
def outline (p : Program) : Program := p.mapRoots fun _ _ => .blank

/-- A program with all expressions blanked out that need not stay. -/
def guarded (p : Program) : Program :=
  p.mapRoots fun root e => if root.isProtected p.version then e else .blank

end Program

/-- An expression without its parts. -/
inductive ExprHead
  | ident (name : String)
  | literal (value : Literal)
  | binary (op : BinaryOp)
  | unary (op : UnaryOp)
  | member (name : String)
  | index
  | call (callee : String)
  | ternary
  | paren
deriving DecidableEq, Repr

def Expr.head : Expr → ExprHead
  | .ident name => .ident name
  | .literal value => .literal value
  | .binary op _ _ => .binary op
  | .unary op _ => .unary op
  | .member _ name => .member name
  | .index _ _ => .index
  | .call callee _ => .call callee
  | .ternary _ _ _ => .ternary
  | .paren _ => .paren

/-- The heads of the expressions that are written, in the order of a walk. -/
def Event.writtenHeads (es : List Event) : List ExprHead :=
  ((visits es).filter (·.around.isWritten)).map (·.expr.head)

/-- The heads of the expressions that a program writes, in order. -/
def Program.writtenHeads (p : Program) : List ExprHead :=
  (p.visits.filter (·.around.isWritten)).map (·.expr.head)

/-- What a program keeps when it is fuzzed: all but what stands inside its
expressions, the expressions that have to stay, and what is written. -/
structure Program.Shields (p p' : Program) : Prop where
  outline : p'.outline = p.outline
  guarded : p'.guarded = p.guarded
  writtenHeads : p'.writtenHeads = p.writtenHeads

/-! ## Expressions that have to stay, on the walk -/

/-- The expressions that a command walks, and whether their surroundings ask
for them to stay. -/
def Command.guards (version : Version) : Command → List (Bool × Expr)
  | .expr around e => [(version.restrictsLoopBounds && around.forHeader.isSome, e)]
  | .declare v => v.initializer.toList.map (v.around.constContext || v.isConst, ·)
  | .enter _ => []
  | .leave => []

theorem Command.guards_exprs (version : Version) (c : Command) :
    Root.exprs (c.guards version) = c.exprs := by
  cases c with
  | expr around e => simp [guards, exprs]
  | declare v => simp [guards, exprs]
  | enter o => rfl
  | leave => rfl

/-- An expression with its mark, when it has to stay. -/
def Root.guard (version : Version) (a : Root × Expr) : Bool × Expr := (a.1.isProtected version, a.2)

section

variable (version : Version) {around : Surroundings}

theorem Expr.scriptOption_guards (around : Surroundings) (root : Root) (e : Option Expr)
    (hroot : root.isProtected version =
      (version.restrictsLoopBounds && around.forHeader.isSome)) :
    (scriptOption around e).flatMap (Command.guards version) =
      (e.toList.map (root, ·)).map (Root.guard version) := by
  cases e <;> simp [scriptOption, Command.guards, Root.guard, hroot]

theorem VariableGroup.script_guards (around : Surroundings) (kind : SymbolKind)
    (locate : Nat → DeclLocation) (isGlobal : Bool) (g : VariableGroup)
    (hconst : around.constContext = (isGlobal && version.requiresConstGlobals)) :
    (g.script around kind locate).flatMap (Command.guards version) =
      (g.roots isGlobal).map (Root.guard version) := by
  have hmembers : ∀ (vs : List Variable) (member : Nat),
      (g.scriptMembers around kind locate member vs).flatMap (Command.guards version) =
        (Variable.roots (.initializer g.isConst isGlobal) vs).map (Root.guard version) := by
    intro vs
    induction vs with
    | nil => exact fun _ => rfl
    | cons v vs ih =>
      intro member
      simp only [scriptMembers, Variable.roots, List.flatMap_cons, List.map_append] at ih ⊢
      rw [ih]
      simp [Command.guards, declarator, Root.guard, Root.isProtected, hconst, Bool.or_comm]
  exact hmembers g.members 0

namespace Stmt

mutual

theorem script_guards (hconst : around.constContext = false) (hheader : around.forHeader = none) :
    (s : Stmt) → (path : StmtPath) → (inList : Bool) →
    (s.script around path inList).flatMap (Command.guards version) =
      s.roots.map (Root.guard version)
  | .block stmts true, _, _ => by
    simp [script, roots, Command.guards, scriptAll_guards hconst hheader stmts]
  | .block stmts false, _, _ => by simp [script, roots, scriptAll_guards hconst hheader stmts]
  | .decl group, _, _ => by
    simp only [script, roots]
    exact group.script_guards version around _ _ false (by simp [hconst])
  | .expr value, _, _ => by
    simp [script, roots, Command.guards, Root.guard, Root.isProtected, hheader]
  | .ifThen cond thenBranch, _, _ => by
    simp [script, roots, Command.guards, Root.guard, Root.isProtected, hheader,
      script_guards hconst hheader thenBranch]
  | .ifElse cond thenBranch elseBranch, _, _ => by
    simp [script, roots, Command.guards, Root.guard, Root.isProtected, hheader,
      script_guards hconst hheader thenBranch, script_guards hconst hheader elseBranch]
  | .forLoop init guard increment body, _, _ => by
    simp only [script, roots, List.flatMap_cons, List.flatMap_append, List.flatMap_nil,
      Command.guards, List.map_append, List.nil_append, List.append_nil,
      script_guards hconst hheader init,
      script_guards hconst hheader body]
    rw [Expr.scriptOption_guards version _ .forHeader guard (by simp [Root.isProtected]),
      Expr.scriptOption_guards version _ .forHeader increment (by simp [Root.isProtected])]
  | .whileLoop cond body, _, _ => by
    simp [script, roots, Command.guards, Root.guard, Root.isProtected, hheader,
      script_guards hconst hheader body]
  | .doWhile body cond, _, _ => by
    simp [script, roots, Command.guards, Root.guard, Root.isProtected, hheader,
      script_guards hconst hheader body]
  | .ret value, _, _ => by
    simp only [script, roots]
    exact Expr.scriptOption_guards version around .plain value
      (by simp [Root.isProtected, hheader])
  | .breakLoop, _, _ => rfl
  | .continueLoop, _, _ => rfl
  | .discard, _, _ => rfl
  | .empty, _, _ => rfl

theorem scriptAll_guards (hconst : around.constContext = false)
    (hheader : around.forHeader = none) : (ss : List Stmt) → (path : StmtPath) → (slot : Nat) →
    (scriptAll around ss path slot).flatMap (Command.guards version) =
      (rootsAll ss).map (Root.guard version)
  | [], _, _ => rfl
  | s :: ss, _, _ => by
    simp [scriptAll, rootsAll, script_guards hconst hheader s, scriptAll_guards hconst hheader ss]

end

end Stmt

end

theorem Parameter.scriptAll_guards (version : Version) (function index : Nat)
    (qs : List Parameter) :
    (scriptAll function index qs).flatMap (Command.guards version) = [] := by
  induction qs generalizing index with
  | nil => rfl
  | cons q qs ih => cases h : q.name <;> simp [scriptAll, h, Command.guards, ih]

theorem Declaration.script_guards (version : Version) (index : Nat) (d : Declaration) :
    (d.script version index).flatMap (Command.guards version) =
      d.roots.map (Root.guard version) := by
  cases d with
  | «variables» group => exact group.script_guards version _ _ _ true rfl
  | function f =>
    have hconst : ({ Surroundings.plain with function := some index } : Surroundings).constContext =
      false := rfl
    simp [script, Function.script, roots, Command.guards, Parameter.scriptAll_guards,
      Stmt.scriptAll_guards version hconst rfl]
  | prototype head => rfl

/-- The surroundings on the walk ask for the same expressions to stay. -/
theorem Program.script_guards (p : Program) :
    p.script.flatMap (Command.guards p.version) = p.roots.map (Root.guard p.version) := by
  have hall : ∀ (ds : List Declaration) (index : Nat),
      (Declaration.scriptAll p.version index ds).flatMap (Command.guards p.version) =
        (ds.flatMap Declaration.roots).map (Root.guard p.version) := by
    intro ds
    induction ds with
    | nil => exact fun _ => rfl
    | cons d ds ih =>
      intro index
      simp [Declaration.scriptAll, Declaration.script_guards, ih]
  exact hall p.declarations 0

/-! ## A rewriting of what may change -/

/-- Where nothing that is visited is replaced, an expression stays. -/
theorem Expr.rewrite_eq_self {r : Replacement} {heads : List Prototype} {scope : ScopeTree}
    {around : Surroundings} {parent : Option Nat} {e : Expr} {k : Nat}
    (h : ∀ v ∈ e.visits heads scope around parent k, r v.ordinal = none) : e.rewrite r k = e := by
  have hnone : ∀ j, k ≤ j → j < k + e.size → r j = Replacement.nothing j := by
    intro j hle hlt
    have hmem : j ∈ (e.visits heads scope around parent k).map (·.ordinal) := by
      rw [visits_ordinal]
      exact List.mem_range'_1.2 ⟨hle, hlt⟩
    obtain ⟨v, hv, rfl⟩ := List.mem_map.1 hmem
    exact h v hv
  rw [e.rewrite_congr hnone, rewrite_nothing]

/-- All that is replaced may be wrapped. -/
def Replacement.Opens (r : Replacement) (version : Version) (es : List Event) : Prop :=
  ∀ v, .visit v ∈ es → (r v.ordinal).isSome → MutationPoint.isOpen version v = true

theorem Replacement.Opens.rewrite_eq_self {r : Replacement} {version : Version}
    {heads : List Prototype} {scope : ScopeTree} {around : Surroundings} {e : Expr} {k : Nat}
    (h : r.Opens version ((e.visits heads scope around none k).map .visit))
    (haround : around.constContext = true ∨
      (version.restrictsLoopBounds && around.forHeader.isSome) = true) : e.rewrite r k = e := by
  suffices hnone : ∀ v ∈ e.visits heads scope around none k, r v.ordinal = none from
    Expr.rewrite_eq_self hnone
  intro v hv
  apply Option.not_isSome_iff_eq_none.1
  intro hsome
  have hopen := h v (List.mem_map_of_mem hv) hsome
  have hbeside := (e.visits_beside heads scope around none k v hv).2
  have hconst : v.around.constContext = around.constContext := congrArg (·.constContext) hbeside
  have hheader : v.around.forHeader = around.forHeader := congrArg (·.forHeader) hbeside
  rcases haround with hc | hf
  · simp [MutationPoint.isOpen, hconst, hc] at hopen
  · simp [MutationPoint.isOpen, hheader, hf] at hopen

/-- Commands keep the expressions that have to stay when all that is replaced
may be wrapped. -/
theorem Command.relates_guards {r : Replacement} {version : Version} {heads : List Prototype}
    {cs : List Command} {s : WalkState} (h : r.Opens version (run heads cs s)) :
    r.Relates (fun stays e e' => stays = true → e' = e) s.ordinal
      (cs.flatMap (guards version)) := by
  induction cs generalizing s with
  | nil => trivial
  | cons c cs ih =>
    rw [List.flatMap_cons, Replacement.relates_append, guards_exprs, ← ordinal_next]
    refine ⟨?_, ih fun v hv => h v (List.mem_append_right _ hv)⟩
    have hc : r.Opens version (c.events heads s) := fun v hv => h v (List.mem_append_left _ hv)
    cases c with
    | expr around e =>
      exact ⟨fun hstays => hc.rewrite_eq_self (Or.inr hstays), trivial⟩
    | declare v =>
      apply Replacement.relates_option.2
      intro e he hstays
      have hvisits : v.visits heads s = e.visits heads s.scope (v.inner s.id) none s.ordinal := by
        rw [Declarator.visits, Option.mem_def.1 he]
        rfl
      have hinner : (v.inner s.id).constContext = true := hstays
      have hopens : r.Opens version
          ((e.visits heads s.scope (v.inner s.id) none s.ordinal).map .visit) := by
        intro u hu
        rw [← hvisits] at hu
        exact hc u (List.mem_append_left _ hu)
      exact hopens.rewrite_eq_self (Or.inl hinner)
    | enter o => trivial
    | leave => trivial

theorem Replacement.relates_map {r : Replacement} {P : β → Expr → Expr → Prop} {g : α → β} {k : Nat}
    {l : List (α × Expr)} :
    r.Relates P k (l.map fun a => (g a.1, a.2)) ↔ r.Relates (fun a => P (g a)) k l := by
  induction l generalizing k with
  | nil => exact Iff.rfl
  | cons a l ih => simp only [List.map_cons, Relates, ih]

theorem Replacement.Relates.imp {r : Replacement} {P Q : α → Expr → Expr → Prop}
    (hPQ : ∀ a e e', P a e e' → Q a e e') {k : Nat} {l : List (α × Expr)}
    (h : r.Relates P k l) : r.Relates Q k l := by
  induction l generalizing k with
  | nil => trivial
  | cons a l ih => exact ⟨hPQ _ _ _ h.1, ih h.2⟩

/-! ## Expressions that are written -/

theorem Surroundings.read_eq_self {s : Surroundings} (h : s.isWritten = false) : s.read = s := by
  obtain ⟨isWritten, constContext, forHeader, initializerOf, function⟩ := s
  obtain rfl : isWritten = false := h
  rfl

theorem Expr.head_rewrite {r : Replacement} {k : Nat} (h : r k = none) (e : Expr) :
    (e.rewrite r k).head = e.head := by
  cases e <;> simp only [rewrite, h, Option.getD_none, head]

namespace Event

theorem writtenHeads_append (a b : List Event) :
    writtenHeads (a ++ b) = writtenHeads a ++ writtenHeads b := by
  simp [writtenHeads]

theorem writtenHeads_cons_visit (v : Visit) (es : List Event) :
    writtenHeads (.visit v :: es) =
      if v.around.isWritten then v.expr.head :: writtenHeads es else writtenHeads es := by
  unfold writtenHeads
  rw [visits_cons_visit, List.filter_cons]
  split <;> rfl

end Event

/-- A rewriting keeps what is written when the replaced expressions do. -/
theorem Rewritten.writtenHeads_eq {heads : List Prototype} {r : Replacement} {es es' : List Event}
    (h : Rewritten heads r es es')
    (hr : ∀ v new, .visit v ∈ es → r v.ordinal = some new → ∀ parent' k',
      Event.writtenHeads ((new.visits heads v.scope v.around parent' k').map .visit) =
        Event.writtenHeads ((v.expr.visits heads v.scope v.around v.parent v.ordinal).map .visit)) :
    Event.writtenHeads es' = Event.writtenHeads es := by
  induction h with
  | nil => rfl
  | declare d _ ih => exact ih fun v new hv => hr v new (List.mem_cons_of_mem _ hv)
  | kept v v' hk _ he _ ha _ ih =>
    rw [Event.writtenHeads_cons_visit, Event.writtenHeads_cons_visit, ha, he,
      v.expr.head_rewrite hk, ih fun u new hu => hr u new (List.mem_cons_of_mem _ hu)]
  | replaced e new scope around parent parent' k k' hk _ ih =>
    have hroot : .visit ⟨e, k, parent, around, scope⟩ ∈
        (e.visits heads scope around parent k).map Event.visit :=
      List.mem_map_of_mem (e.root_mem_visits heads scope around parent k)
    rw [Event.writtenHeads_append, Event.writtenHeads_append,
      hr _ new (List.mem_append_left _ hroot) hk parent' k',
      ih fun u new hu => hr u new (List.mem_append_right _ hu)]

/-- What is written in an expression does not depend on its number. -/
theorem Expr.writtenHeads_visits (heads : List Prototype) (scope : ScopeTree)
    (around : Surroundings) (e : Expr) (parent parent' : Option Nat) (k k' : Nat) :
    Event.writtenHeads ((e.visits heads scope around parent' k').map .visit) =
      Event.writtenHeads ((e.visits heads scope around parent k).map .visit) := by
  have hp : ∀ j, parent = some j → Replacement.nothing j = none := fun _ _ => rfl
  have h := e.visits_rewrite heads .nothing scope around parent' k k' hp
  rw [e.rewrite_nothing] at h
  exact h.writtenHeads_eq fun v new _ hnew => by cases hnew

/-- An identity around an expression that is read writes nothing of its own. -/
theorem Identity.writtenHeads_wrap (identity : Identity) (elem : Option ElementKind) {v : Visit}
    (hread : v.around.isWritten = false) (heads : List Prototype) (parent' : Option Nat)
    (k' : Nat) :
    Event.writtenHeads
        (((identity.wrap elem v.expr).visits heads v.scope v.around parent' k').map .visit) =
      Event.writtenHeads
        ((v.expr.visits heads v.scope v.around v.parent v.ordinal).map .visit) := by
  have hself := Surroundings.read_eq_self hread
  have hinner := fun parent k =>
    v.expr.writtenHeads_visits heads v.scope v.around v.parent parent v.ordinal k
  have hnil : Event.writtenHeads [] = [] := rfl
  cases identity <;>
    simp [wrap, Expr.bool, Expr.visits, BinaryOp.isAssignment, UnaryOp.writesOperand,
      Event.writtenHeads_cons_visit, Event.writtenHeads_append, hread, hself, hinner, hnil]

/-! ## Fuzzing -/

namespace Program

theorem outline_rewrite (p : Program) (r : Replacement) : (p.rewrite r).outline = p.outline := by
  apply mapRoots_rewrite
  generalize 0 = k
  induction p.roots generalizing k with
  | nil => trivial
  | cons a l ih => exact ⟨rfl, ih _⟩

/-- The expressions of a program that have to stay are kept when all that is
replaced may be wrapped. -/
theorem guarded_rewrite {p : Program} {r : Replacement} (h : r.Opens p.version p.walk) :
    (p.rewrite r).guarded = p.guarded := by
  rw [walk_eq_run] at h
  have hstays := Command.relates_guards h
  rw [script_guards] at hstays
  apply mapRoots_rewrite ((Replacement.relates_map.1 hstays).imp ?_)
  intro root e e' he
  by_cases hprotected : root.isProtected p.version = true
  · rw [he hprotected]
  · exact (if_neg hprotected).trans (if_neg hprotected).symm

/-- Wrapping one expression keeps what has to stay. -/
theorem Wraps.shields {p q : Program} (h : p.Wraps q) : p.Shields q := by
  cases h with
  | mk v identity elem hv hopen =>
    have hone : ∀ w, .visit w ∈ p.walk → ∀ {e new : Expr},
        Replacement.nothing.add v.ordinal e w.ordinal = some new → w = v ∧ new = e := by
      intro w hw e new hsome
      obtain ⟨hordinal, hnew⟩ := Replacement.eq_of_nothing_add hsome
      exact ⟨visits_ext (mem_visits.2 hw) hv hordinal, hnew⟩
    refine ⟨p.outline_rewrite _, guarded_rewrite ?_, ?_⟩
    · intro w hw hsome
      obtain ⟨new, hnew⟩ := Option.isSome_iff_exists.1 hsome
      rw [(hone w hw hnew).1]
      exact hopen
    · unfold writtenHeads
      rw [visits_eq, visits_eq]
      apply (p.walk_rewrite _).writtenHeads_eq
      intro w new hw hsome parent' k'
      obtain ⟨rfl, rfl⟩ := hone w hw hsome
      have hread : w.around.isWritten = false := by
        simp only [MutationPoint.isOpen, Bool.and_eq_true, Bool.not_eq_true'] at hopen
        exact hopen.1.1.2
      exact identity.writtenHeads_wrap elem hread _ parent' k'

end Program

/-- A session that only wraps leaves alone, over any number of steps and with
any source, all but what stands inside expressions, the expressions that have
to stay, and what is written. -/
theorem Session.fuzzing_shields {σ : Type} [RandomSource σ] (settings : SessionSettings)
    (source : σ) (steps : Nat) (p : Program) :
    p.Shields ((withFinder ⟨settings, [], source⟩ (.mutation settings.identities)).run steps
      p).program := by
  refine run_keeps_of_wraps rfl (I := p.Shields) ?_ ⟨rfl, rfl, rfl⟩ steps
  intro q q' hq hw
  have hw := hw.shields
  exact ⟨hw.outline.trans hq.outline, hw.guarded.trans hq.guarded,
    hw.writtenHeads.trans hq.writtenHeads⟩

end ShaderMorph
