-- How far declarations reach, told by the program text alone. A spot is where
-- something stands that a walk meets: a variable with its initializer, the
-- expression of a statement, or a part of the header of a `for`. Whether a
-- spot lies in the extent of a declaration, and how many frames are open
-- there, depends on the statements around the two and on nothing else.
import ShaderMorph.Proofs.Walk.Locations

namespace ShaderMorph

/-! ## Spots -/

/-- The statement that a local variable is declared in. -/
def DeclLocation.path? : DeclLocation → Option StmtPath
  | .block path _ => some path
  | .nested path _ => some path
  | .global _ _ => none
  | .parameter _ _ => none

/-- The first is declared before the second in one group, or in one list of
parameters. -/
def DeclLocation.Before : DeclLocation → DeclLocation → Prop
  | .global d m, .global d' m' => d = d' ∧ m < m'
  | .parameter f i, .parameter f' i' => f = f' ∧ i < i'
  | .block q m, .block q' m' => q = q' ∧ m < m'
  | .nested q m, .nested q' m' => q = q' ∧ m < m'
  | _, _ => False

theorem DeclLocation.Before.path?_eq {l l' : DeclLocation} (h : l.Before l') :
    l'.path? = l.path? := by
  cases l <;> cases l' <;> simp_all [Before, path?]

/-- Where something stands. -/
inductive Spot
  /-- A declared variable, with its initializer. -/
  | variable (location : DeclLocation)
  /-- The expression of a statement, be it all of it or its condition. -/
  | value (path : StmtPath)
  /-- A part of the header of a `for`. -/
  | header (path : StmtPath) (part : ForHeaderSlot)
deriving DecidableEq, Repr

namespace Spot

/-- The statement around a spot. -/
def path? : Spot → Option StmtPath
  | .variable location => location.path?
  | .value path => some path
  | .header path _ => some path

/-- Where, among the declarations of a program, a spot is. -/
def declaration : Spot → Nat
  | .variable location => location.root
  | .value path => path.function
  | .header path _ => path.function

/-- In the statement at a path, or in one inside it. -/
def Inside (σ : Spot) (q : StmtPath) : Prop :=
  ∃ rest, σ.path? = some ⟨q.function, q.steps ++ rest⟩

end Spot

/-! ## What stands there -/

namespace Stmt

/-- The expression of a statement: all of it, or its condition. -/
def value? : Stmt → Option Expr
  | .expr value => some value
  | .ifThen cond _ => some cond
  | .ifElse cond _ _ => some cond
  | .whileLoop cond _ => some cond
  | .doWhile _ cond => some cond
  | .ret value => value
  | _ => none

def header? (part : ForHeaderSlot) : Stmt → Option Expr
  | .forLoop _ guard increment _ =>
    match part with
    | .guard => guard
    | .increment => increment
  | _ => none

def group? : Stmt → Option VariableGroup
  | .decl group => some group
  | _ => none

/-- Whether a statement opens a frame for what is inside. -/
def opensFrame : Stmt → Bool
  | .block _ opensFrame => opensFrame
  | .forLoop _ _ _ _ => true
  | _ => false

end Stmt

namespace Program

variable (p : Program)

/-- The statement at a path. -/
def stmtAt? (q : StmtPath) : Option Stmt := (p.stmtPlace? q.function q.steps).map (·.part)

/-- The function at this place among the declarations. -/
def functionAt? (function : Nat) : Option Function :=
  p.declarations[function]?.bind (·.function?)

/-- The variable at a location. -/
def variableAt? : DeclLocation → Option Variable
  | .global declaration member =>
    (p.declarations[declaration]?.bind (·.group?)).bind (·.members[member]?)
  | .block path member => ((p.stmtAt? path).bind (·.group?)).bind (·.members[member]?)
  | .nested path member => ((p.stmtAt? path).bind (·.group?)).bind (·.members[member]?)
  | .parameter _ _ => none

/-- The expression at a spot. -/
def rootAt? : Spot → Option Expr
  | .variable location => (p.variableAt? location).bind (·.initializer)
  | .value path => (p.stmtAt? path).bind (·.value?)
  | .header path part => (p.stmtAt? path).bind (·.header? part)

/-! ## Extents -/

/-- A path that leads to a list of statements: that of a body or of a block. -/
def IsList (q : StmtPath) : Prop := q.steps = [] ∨ ∃ stmts o, p.stmtAt? q = some (.block stmts o)

/-- A path that leads to a block that opens no frame. -/
def IsOpen (q : StmtPath) : Prop := ∃ stmts, p.stmtAt? q = some (.block stmts false)

def IsFor (q : StmtPath) : Prop :=
  ∃ init guard increment body, p.stmtAt? q = some (.forLoop init guard increment body)

/-- A spot belongs to what follows the statement at a path where that stands. -/
inductive Follows : StmtPath → Spot → Prop
  /-- The later statements of the same list. -/
  | later {q : StmtPath} {i j : Nat} {σ : Spot} :
    p.IsList q → i < j → σ.Inside (q.child j) → Follows (q.child i) σ
  /-- The guard and the increment follow the start of a `for`. -/
  | header {q : StmtPath} (part : ForHeaderSlot) :
    p.IsFor q → Follows (q.child 0) (.header q part)
  /-- So does the body. -/
  | body {q : StmtPath} {σ : Spot} :
    p.IsFor q → σ.Inside (q.child 1) → Follows (q.child 0) σ
  /-- What follows a block that opens no frame follows the statements in it. -/
  | leaves {q : StmtPath} {i : Nat} {σ : Spot} :
    p.IsOpen q → Follows q σ → Follows (q.child i) σ

/-- A spot lies in the extent of the declaration at a location. This is the rest
of the group, or of the parameters, and then the rest of the program for a
global, the body for a parameter, and what follows the statement for a local
variable. -/
def Reaches (l : DeclLocation) (σ : Spot) : Prop :=
  (∃ l', σ = .variable l' ∧ l.Before l') ∨
    match l with
    | .global declaration _ => declaration < σ.declaration
    | .parameter function _ => ∃ q, σ.path? = some q ∧ q.function = function
    | .block path _ => p.Follows path σ
    | .nested path _ => p.Follows path σ

/-! ## Frames -/

/-- The number of frames open where the statement at a path starts: that of the
function, that of its body when it has one of its own, and those of the
statements around. -/
def framesAround (q : StmtPath) : Nat :=
  1 + (if (p.functionAt? q.function).any (·.body.opensFrame) then 1 else 0) +
    (List.range q.steps.length).countP fun n =>
      (p.stmtAt? ⟨q.function, q.steps.take n⟩).any (·.opensFrame)

/-- The number of frames open at a spot. The header of a `for` stands in the
frame of that. -/
def openFrames : Spot → Nat
  | .variable (.global _ _) => 0
  | .variable (.parameter _ _) => 1
  | .variable (.block path _) => p.framesAround path
  | .variable (.nested path _) => p.framesAround path
  | .value path => p.framesAround path
  | .header path _ => p.framesAround path + 1

end Program

/-! ## Statements inside statements -/

theorem Stmt.place?_concat (s : Stmt) (steps : List Nat) (i : Nat) :
    (s.place? (steps ++ [i])).map (·.part) =
      ((s.place? steps).bind fun place => place.part.childPlace? i).map (·.part) := by
  induction steps generalizing s with
  | nil =>
    simp only [List.nil_append, place?, Place.whole, Option.bind_some]
    cases s.childPlace? i <;> rfl
  | cons j steps ih =>
    simp only [List.cons_append, place?]
    cases s.childPlace? j with
    | none => rfl
    | some child =>
      have hchild := ih child.part
      simp only [Option.bind_eq_bind, Option.bind_some, Option.pure_def]
      cases hp : child.part.place? steps with
      | none =>
        rw [hp, Option.bind_none, Option.map_none, Option.map_eq_none_iff] at hchild
        rw [hchild]
        rfl
      | some inner =>
        simp only [hp, Option.bind_some] at hchild ⊢
        rw [Place.part_map, ← hchild]
        cases child.part.place? (steps ++ [i]) <;> rfl

namespace Program

variable {p : Program} {q r ρ : StmtPath} {i j : Nat} {σ : Spot} {s : Stmt}

/-- The statements directly inside the one at a path. -/
theorem stmtAt?_child (h : p.stmtAt? q = some s) (i : Nat) :
    p.stmtAt? (q.child i) = (s.childPlace? i).map (·.part) := by
  obtain ⟨function, steps⟩ := q
  cases steps with
  | nil => cases h
  | cons first steps =>
    simp only [stmtAt?, StmtPath.child, List.cons_append, stmtPlace?] at h ⊢
    cases hbody : p.bodyPlace? function with
    | none => simp [hbody] at h
    | some body =>
      cases htop : Place.ofIndex? body.part first with
      | none => simp [hbody, htop] at h
      | some top =>
        simp only [hbody, htop, Option.bind_eq_bind, Option.bind_some, Option.pure_def] at h ⊢
        have hconcat := top.part.place?_concat steps i
        cases hplace : top.part.place? steps with
        | none => simp [hplace] at h
        | some place =>
          have hs : place.part = s := by simpa [hplace] using h
          rw [hplace, Option.bind_some, hs] at hconcat
          rw [← hconcat]
          cases top.part.place? (steps ++ [i]) <;> rfl

theorem functionAt?_eq_some {function : Nat} {f : Function} :
    p.functionAt? function = some f ↔ p.declarations[function]? = some (.function f) := by
  rw [functionAt?, Option.bind_eq_some_iff]
  constructor
  · rintro ⟨d, hd, hf⟩
    cases d with
    | function g => exact Option.some.inj hf ▸ hd
    | «variables» g => cases hf
    | prototype head => cases hf
  · exact fun h => ⟨_, h, rfl⟩

theorem exists_bodyPlace {function : Nat} {f : Function} (h : p.functionAt? function = some f) :
    ∃ body, p.bodyPlace? function = some body ∧ body.part = f.body.stmts := by
  simp [bodyPlace?, functionAt?_eq_some.1 h]

/-- The statements of a body. -/
theorem stmtAt?_body {function : Nat} {f : Function} (h : p.functionAt? function = some f)
    (i : Nat) : p.stmtAt? ((StmtPath.mk function []).child i) = f.body.stmts[i]? := by
  obtain ⟨body, hbody, hpart⟩ := exists_bodyPlace h
  simp only [stmtAt?, StmtPath.child, List.nil_append, stmtPlace?, hbody, hpart,
    Option.bind_eq_bind, Option.bind_some, Place.ofIndex?]
  cases f.body.stmts[i]? <;> rfl

theorem stmtAt?_block {stmts : List Stmt} {o : Bool} (h : p.stmtAt? q = some (.block stmts o))
    (i : Nat) : p.stmtAt? (q.child i) = stmts[i]? := by
  rw [stmtAt?_child h]
  simp only [Stmt.childPlace?, Place.ofIndex?]
  cases stmts[i]? <;> rfl

theorem framesAround_child (p : Program) (q : StmtPath) (i : Nat) :
    p.framesAround (q.child i) =
      p.framesAround q + if (p.stmtAt? q).any (·.opensFrame) then 1 else 0 := by
  obtain ⟨function, steps⟩ := q
  have hcongr : (List.range steps.length).countP (fun n =>
        (p.stmtAt? ⟨function, (steps ++ [i]).take n⟩).any (·.opensFrame)) =
      (List.range steps.length).countP fun n =>
        (p.stmtAt? ⟨function, steps.take n⟩).any (·.opensFrame) := by
    refine List.countP_congr fun n hn => ?_
    rw [List.take_append_of_le_length (Nat.le_of_lt (List.mem_range.1 hn))]
  unfold framesAround StmtPath.child
  dsimp only
  rw [List.length_append, List.length_singleton, List.range_succ, List.countP_append, hcongr,
    List.countP_singleton, List.take_left]
  omega

end Program

/-! ## Paths -/

namespace StmtPath

/-- The statement at `r` is the one at `q`, or inside it. -/
def Inside (r q : StmtPath) : Prop := ∃ rest, r = ⟨q.function, q.steps ++ rest⟩

variable {q r : StmtPath} {i j : Nat}

theorem Inside.refl (q : StmtPath) : q.Inside q := ⟨[], by simp⟩

theorem child_inj (h : q.child i = r.child j) : q = r ∧ i = j := by
  obtain ⟨function, steps⟩ := q
  obtain ⟨function', steps'⟩ := r
  simp only [child, mk.injEq] at h ⊢
  obtain ⟨hfunction, hsteps⟩ := h
  obtain ⟨hinit, hlast⟩ := List.append_inj' hsteps rfl
  exact ⟨⟨hfunction, hinit⟩, by simpa using hlast⟩

/-- What is directly inside a statement is inside another one just when the
statement itself is, or is the other one. -/
theorem inside_child (h : (r.child i).Inside q) : r.child i = q ∨ r.Inside q := by
  obtain ⟨rest, hrest⟩ := h
  rcases List.eq_nil_or_concat rest with rfl | ⟨init, last, rfl⟩
  · exact Or.inl (by simpa using hrest)
  · right
    obtain ⟨function, steps⟩ := r
    simp only [child, mk.injEq, List.concat_eq_append, ← List.append_assoc] at hrest
    obtain ⟨hfunction, hsteps⟩ := hrest
    obtain ⟨hinit, -⟩ := List.append_inj' hsteps rfl
    exact ⟨init, by rw [hfunction, hinit]⟩

end StmtPath

namespace Spot

variable {σ : Spot} {q r : StmtPath} {i j : Nat} {l : DeclLocation}

theorem Inside.of_child (h : σ.Inside (q.child i)) : σ.Inside q := by
  obtain ⟨rest, hrest⟩ := h
  exact ⟨i :: rest, by simpa [StmtPath.child] using hrest⟩

theorem Inside.trans (h : σ.Inside r) (hr : r.Inside q) : σ.Inside q := by
  obtain ⟨rest, hrest⟩ := h
  obtain ⟨more, rfl⟩ := hr
  exact ⟨more ++ rest, by simpa [List.append_assoc] using hrest⟩

/-- Two statements directly inside one have nothing in common. -/
theorem Inside.child_eq (h : σ.Inside (q.child i)) (h' : σ.Inside (q.child j)) : i = j := by
  obtain ⟨rest, hrest⟩ := h
  obtain ⟨rest', hrest'⟩ := h'
  have hsteps : i = j ∧ rest = rest' := by simpa [StmtPath.child] using hrest.symm.trans hrest'
  exact hsteps.1

theorem inside_variable : (Spot.variable l).Inside q ↔ l.Under q := by
  cases l <;> simp [Inside, path?, DeclLocation.path?, DeclLocation.Under]

theorem Inside.declaration (h : σ.Inside q) : σ.declaration = q.function := by
  obtain ⟨rest, hrest⟩ := h
  cases σ with
  | «variable» l =>
    cases l <;> simp_all [path?, DeclLocation.path?, Spot.declaration, DeclLocation.root]
  | value path => simp_all [path?, Spot.declaration]
  | header path part => simp_all [path?, Spot.declaration]

theorem value_inside (q : StmtPath) : (Spot.value q).Inside q := ⟨[], by simp [path?]⟩

theorem header_inside (q : StmtPath) (part : ForHeaderSlot) : (Spot.header q part).Inside q :=
  ⟨[], by simp [path?]⟩

/-- What stands at a path itself is in no statement inside. -/
theorem not_inside_child (h : σ.path? = some q) (i : Nat) : ¬σ.Inside (q.child i) := by
  rintro ⟨rest, hrest⟩
  rw [h] at hrest
  have hlength := congrArg (fun q : StmtPath => q.steps.length) (Option.some.inj hrest)
  simp [StmtPath.child] at hlength

end Spot

/-! ## Leaving statements -/

namespace Program

variable {p : Program} {q r ρ : StmtPath} {i j : Nat} {σ : Spot} {s : Stmt} {l : DeclLocation}

/-- What follows a statement directly inside another one. -/
theorem Follows.child_cases (h : p.Follows (q.child i) σ) :
    (p.IsList q ∧ ∃ j, i < j ∧ σ.Inside (q.child j)) ∨
      (p.IsFor q ∧ i = 0 ∧ ((∃ part, σ = .header q part) ∨ σ.Inside (q.child 1))) ∨
      (p.IsOpen q ∧ p.Follows q σ) := by
  generalize hr : q.child i = r at h
  cases h with
  | @later q' i' j σ hlist hlt hin =>
    obtain ⟨rfl, rfl⟩ := StmtPath.child_inj hr
    exact Or.inl ⟨hlist, j, hlt, hin⟩
  | @header q' part hfor =>
    obtain ⟨rfl, rfl⟩ := StmtPath.child_inj hr
    exact Or.inr (Or.inl ⟨hfor, rfl, Or.inl ⟨part, rfl⟩⟩)
  | @body q' σ hfor hin =>
    obtain ⟨rfl, rfl⟩ := StmtPath.child_inj hr
    exact Or.inr (Or.inl ⟨hfor, rfl, Or.inr hin⟩)
  | @leaves q' i' σ hopen hfollows =>
    obtain ⟨rfl, rfl⟩ := StmtPath.child_inj hr
    exact Or.inr (Or.inr ⟨hopen, hfollows⟩)

/-- All that follows a statement is in its function. -/
theorem Follows.declaration (h : p.Follows q σ) : σ.declaration = q.function := by
  induction h with
  | later _ _ hin => exact hin.declaration
  | header part _ => rfl
  | body _ hin => exact hin.declaration
  | leaves _ _ ih => exact ih

/-- The names of the statement at `r` are still there where the one at `q`
around it ends: there are only blocks without frames between them. -/
inductive Leaks (p : Program) (q : StmtPath) : StmtPath → Prop
  | here : Leaks p q q
  | step {r : StmtPath} {i : Nat} : p.IsOpen r → Leaks p q r → Leaks p q (r.child i)

theorem Leaks.inside (h : p.Leaks q r) : r.Inside q := by
  induction h with
  | here => exact .refl q
  | @step r i _ _ ih =>
    obtain ⟨rest, rfl⟩ := ih
    exact ⟨rest ++ [i], by simp [StmtPath.child]⟩

theorem Leaks.of_child (hopen : p.IsOpen q) (h : p.Leaks (q.child i) r) : p.Leaks q r := by
  induction h with
  | here => exact .step hopen .here
  | step hr _ ih => exact .step hr ih

/-- What leaves a statement leaves the one directly inside it first, and this
is the case for blocks without frames only. -/
theorem Leaks.child (h : p.Leaks q r) (hin : r.Inside (q.child i)) :
    p.IsOpen q ∧ p.Leaks (q.child i) r := by
  induction h with
  | here =>
    obtain ⟨rest, hrest⟩ := hin
    have hlength := congrArg (fun q : StmtPath => q.steps.length) hrest
    simp [StmtPath.child] at hlength
  | @step r j hr h ih =>
    rcases StmtPath.inside_child hin with heq | hin
    · obtain ⟨rfl, rfl⟩ := StmtPath.child_inj heq
      exact ⟨hr, .here⟩
    · obtain ⟨hopen, hleaks⟩ := ih hin
      exact ⟨hopen, .step hr hleaks⟩

/-- Outside of the statement at `q`, something follows a statement inside it
just when that leaks out of it, and what follows comes behind it. -/
theorem follows_iff (hr : r.Inside q) (hσ : ¬σ.Inside q) :
    p.Follows r σ ↔ p.Leaks q r ∧ p.Follows q σ := by
  constructor
  · intro h
    induction h with
    | @later r i j σ hlist hlt hin =>
      rcases StmtPath.inside_child hr with rfl | hr
      · exact ⟨.here, .later hlist hlt hin⟩
      · exact absurd (hin.of_child.trans hr) hσ
    | @header r part hfor =>
      rcases StmtPath.inside_child hr with rfl | hr
      · exact ⟨.here, .header part hfor⟩
      · exact absurd ((Spot.header_inside r part).trans hr) hσ
    | @body r σ hfor hin =>
      rcases StmtPath.inside_child hr with rfl | hr
      · exact ⟨.here, .body hfor hin⟩
      · exact absurd (hin.of_child.trans hr) hσ
    | @leaves r i σ hopen hfollows ih =>
      rcases StmtPath.inside_child hr with rfl | hr
      · exact ⟨.here, .leaves hopen hfollows⟩
      · obtain ⟨hleaks, hq⟩ := ih hr hσ
        exact ⟨.step hopen hleaks, hq⟩
  · rintro ⟨hleaks, hq⟩
    clear hr
    induction hleaks with
    | here => exact hq
    | step hopen _ ih => exact .leaves hopen ih

/-- The name declared at a location is still there where the statement at `q`
around it ends. -/
def Outlives (p : Program) (l : DeclLocation) (q : StmtPath) : Prop :=
  ∃ r, l.path? = some r ∧ p.Leaks q r

theorem Outlives.under (h : p.Outlives l q) : l.Under q := by
  obtain ⟨r, hr, hleaks⟩ := h
  rw [← Spot.inside_variable]
  obtain ⟨rest, rfl⟩ := hleaks.inside
  exact ⟨rest, hr⟩

theorem Outlives.of_child (hopen : p.IsOpen q) (h : p.Outlives l (q.child i)) : p.Outlives l q := by
  obtain ⟨r, hr, hleaks⟩ := h
  exact ⟨r, hr, hleaks.of_child hopen⟩

theorem Outlives.child (h : p.Outlives l q) (hl : l.Under (q.child i)) :
    p.IsOpen q ∧ p.Outlives l (q.child i) := by
  obtain ⟨r, hr, hleaks⟩ := h
  obtain ⟨rest, hrest⟩ := Spot.inside_variable.2 hl
  have hin : r.Inside (q.child i) := ⟨rest, Option.some.inj (hr.symm.trans hrest)⟩
  obtain ⟨hopen, hchild⟩ := hleaks.child hin
  exact ⟨hopen, r, hr, hchild⟩

/-- How far what is declared inside a statement reaches outside of it. -/
theorem reaches_iff (hl : l.Under q) (hσ : ¬σ.Inside q) :
    p.Reaches l σ ↔ p.Outlives l q ∧ p.Follows q σ := by
  obtain ⟨rest, hrest⟩ := Spot.inside_variable.2 hl
  have hgroup : ¬∃ l', σ = .variable l' ∧ l.Before l' := by
    rintro ⟨l', rfl, hbefore⟩
    exact hσ ⟨rest, hbefore.path?_eq.trans hrest⟩
  have hin : StmtPath.Inside ⟨q.function, q.steps ++ rest⟩ q := ⟨rest, rfl⟩
  cases l with
  | block path m | nested path m =>
    obtain rfl := Option.some.inj hrest
    rw [Reaches, or_iff_right hgroup, follows_iff hin hσ]
    simp [Outlives, DeclLocation.path?]
  | global d m => cases hl
  | parameter f i => cases hl

/-- Only globals reach out of the function that they are declared in. -/
theorem Reaches.declaration (h : p.Reaches l σ) (hl : ∀ d m, l ≠ .global d m) :
    σ.declaration = l.root := by
  rcases h with ⟨l', rfl, hbefore⟩ | h
  · cases l <;> cases l' <;>
      simp_all [DeclLocation.Before, Spot.declaration, DeclLocation.root]
  · cases l with
    | global d m => exact absurd rfl (hl d m)
    | block path m => exact Follows.declaration h
    | nested path m => exact Follows.declaration h
    | parameter f i =>
      obtain ⟨q, hq, rfl⟩ := h
      have hin : σ.Inside q := ⟨[], by simpa using hq⟩
      exact hin.declaration

end Program

end ShaderMorph
