-- Two declarations before one group. A declaration without an initializer has
-- no expressions, so it can be put in before or after expressions are
-- replaced. And where one declaration was put before a group, there is room
-- for another one, right behind the first; what is left to tell is the order
-- of the two.
import ShaderMorph.Proofs.Walk.Spliced

namespace ShaderMorph

/-! ## Rewriting lists -/

namespace Stmt

theorem exprsAll_append (ss ts : List Stmt) : exprsAll (ss ++ ts) = exprsAll ss ++ exprsAll ts := by
  induction ss with
  | nil => rfl
  | cons s ss ih => simp [exprsAll, ih]

theorem length_rewriteAll (r : Replacement) (ss : List Stmt) (k : Nat) :
    (rewriteAll r ss k).length = ss.length := by
  induction ss generalizing k with
  | nil => rfl
  | cons s ss ih => simp [rewriteAll, ih]

theorem rewriteAll_append (r : Replacement) (ss ts : List Stmt) (k : Nat) :
    rewriteAll r (ss ++ ts) k =
      rewriteAll r ss k ++ rewriteAll r ts (k + (exprsAll ss).length) := by
  induction ss generalizing k with
  | nil => rfl
  | cons s ss ih => simp [rewriteAll, exprsAll, ih, Nat.add_assoc]

end Stmt

namespace Declaration

theorem length_rewriteAll (r : Replacement) (ds : List Declaration) (k : Nat) :
    (rewriteAll r ds k).length = ds.length := by
  induction ds generalizing k with
  | nil => rfl
  | cons d ds ih => simp [rewriteAll, ih]

theorem rewriteAll_append (r : Replacement) (ds es : List Declaration) (k : Nat) :
    rewriteAll r (ds ++ es) k =
      rewriteAll r ds k ++ rewriteAll r es (k + (ds.flatMap exprs).length) := by
  induction ds generalizing k with
  | nil => rfl
  | cons d ds ih => simp only [List.cons_append, rewriteAll, ih, List.flatMap_cons,
      List.length_append, Nat.add_assoc]

end Declaration

/-! ## A declaration without expressions -/

namespace VariableGroup

variable (name : String) (type : DataType)

theorem exprs_bare : (bare name type).exprs = [] := rfl

theorem rewrite_bare (r : Replacement) (k : Nat) :
    (bare name type).rewrite r k = bare name type := rfl

end VariableGroup

section

variable {name : String} {type : DataType} {g : VariableGroup}

theorem Stmt.PutBefore.exprs_eq {steps : List Nat} {s s' : Stmt}
    (h : PutBefore (.bare name type) g steps s s') : s'.exprs = s.exprs := by
  induction h with
  | here before after opensFrame =>
    simp [exprs, exprsAll_append, exprsAll, VariableGroup.exprs_bare]
  | inBlock before after opensFrame _ ih => simp [exprs, exprsAll_append, exprsAll, ih]
  | inThen cond _ ih => simp [exprs, ih]
  | inFirst cond elseBranch _ ih => simp [exprs, ih]
  | inElse cond thenBranch _ ih => simp [exprs, ih]
  | inInit guard increment body _ ih => simp [exprs, ih]
  | inFor init guard increment _ ih => simp [exprs, ih]
  | inWhile cond _ ih => simp [exprs, ih]
  | inDo cond _ ih => simp [exprs, ih]

/-- Where a declaration was put, it is put when expressions are replaced. -/
theorem Stmt.PutBefore.rewrite {steps : List Nat} {s s' : Stmt}
    (h : PutBefore (.bare name type) g steps s s') (r : Replacement) (k : Nat) :
    ∃ g', PutBefore (.bare name type) g' steps (s.rewrite r k) (s'.rewrite r k) := by
  induction h generalizing k with
  | here before after opensFrame =>
    have hput := @PutBefore.here (.bare name type)
      (g.rewrite r (k + (exprsAll before).length)) (rewriteAll r before k)
      (rewriteAll r after (k + (exprsAll before).length + g.exprs.length)) opensFrame
    rw [length_rewriteAll] at hput
    refine ⟨g.rewrite r (k + (exprsAll before).length), ?_⟩
    simpa [Stmt.rewrite, rewriteAll_append, rewriteAll, exprs, VariableGroup.exprs_bare,
      VariableGroup.rewrite_bare] using hput
  | @inBlock before after opensFrame steps s s' hs ih =>
    obtain ⟨g', hput⟩ := ih (k + (exprsAll before).length)
    have hblock := hput.inBlock (rewriteAll r before k)
      (rewriteAll r after (k + (exprsAll before).length + s.exprs.length)) opensFrame
    rw [length_rewriteAll] at hblock
    refine ⟨g', ?_⟩
    simpa only [Stmt.rewrite, rewriteAll_append, rewriteAll, hs.exprs_eq] using hblock
  | inThen cond _ ih =>
    obtain ⟨g', hput⟩ := ih (k + cond.size)
    exact ⟨g', by simpa only [Stmt.rewrite] using hput.inThen _⟩
  | inFirst cond elseBranch hs ih =>
    obtain ⟨g', hput⟩ := ih (k + cond.size)
    exact ⟨g', by simpa only [Stmt.rewrite, hs.exprs_eq] using hput.inFirst _ _⟩
  | inElse cond thenBranch _ ih =>
    obtain ⟨g', hput⟩ := ih (k + cond.size + thenBranch.exprs.length)
    exact ⟨g', by simpa only [Stmt.rewrite] using hput.inElse _ _⟩
  | inInit guard increment body hs ih =>
    obtain ⟨g', hput⟩ := ih k
    exact ⟨g', by simpa only [Stmt.rewrite, hs.exprs_eq] using hput.inInit _ _ _⟩
  | inFor init guard increment _ ih =>
    obtain ⟨g', hput⟩ := ih (k + init.exprs.length + Expr.sizeOption guard +
      Expr.sizeOption increment)
    exact ⟨g', by simpa only [Stmt.rewrite] using hput.inFor _ _ _⟩
  | inWhile cond _ ih =>
    obtain ⟨g', hput⟩ := ih (k + cond.size)
    exact ⟨g', by simpa only [Stmt.rewrite] using hput.inWhile _⟩
  | inDo cond hs ih =>
    obtain ⟨g', hput⟩ := ih k
    exact ⟨g', by simpa only [Stmt.rewrite, hs.exprs_eq] using hput.inDo _⟩

namespace Program

theorem PutBefore.rewrite {location : DeclLocation} {p p' : Program}
    (h : p.PutBefore (.bare name type) g location p') (r : Replacement) :
    ∃ g', (p.rewrite r).PutBefore (.bare name type) g' location (p'.rewrite r) := by
  cases h with
  | global version before after member =>
    have hput := @PutBefore.global (.bare name type)
      (g.rewrite r (before.flatMap Declaration.exprs).length) version
      (Declaration.rewriteAll r before 0)
      (Declaration.rewriteAll r after
        ((before.flatMap Declaration.exprs).length + g.exprs.length)) member
    rw [Declaration.length_rewriteAll] at hput
    refine ⟨g.rewrite r (before.flatMap Declaration.exprs).length, ?_⟩
    simpa [Program.rewrite, Declaration.rewriteAll_append, Declaration.rewriteAll,
      Declaration.rewrite, Declaration.exprs, VariableGroup.exprs_bare, VariableGroup.rewrite_bare,
      -List.length_flatMap] using hput
  | block version before after f stmts steps member hs =>
    obtain ⟨g', hput⟩ := hs.rewrite r (before.flatMap Declaration.exprs).length
    have hexprs := hs.exprs_eq
    simp only [Stmt.rewrite, Stmt.exprs] at hput hexprs
    have hblock := PutBefore.block version (Declaration.rewriteAll r before 0)
      (Declaration.rewriteAll r after
        ((before.flatMap Declaration.exprs).length + (Stmt.exprsAll f.body.stmts).length))
      { f with body := { f.body with
        stmts := Stmt.rewriteAll r f.body.stmts (before.flatMap Declaration.exprs).length } }
      (Stmt.rewriteAll r stmts (before.flatMap Declaration.exprs).length) steps member hput
    rw [Declaration.length_rewriteAll] at hblock
    refine ⟨g', ?_⟩
    simpa [Program.rewrite, Declaration.rewriteAll_append, Declaration.rewriteAll,
      Declaration.rewrite, Declaration.exprs, hexprs, -List.length_flatMap] using hblock

/-- A declaration is put in one way. -/
theorem PutBefore.unique {g' : VariableGroup} {location : DeclLocation} {p q q' : Program}
    (h : p.PutBefore (.bare name type) g location q)
    (h' : p.PutBefore (.bare name type) g' location q') : q = q' := by
  have heq := h.declareBefore_eq.symm.trans h'.declareBefore_eq
  exact Except.ok.inj heq

end Program

end

/-! ## Room for another one -/

/-- Where the declaration at a location is once one more was put before its
group. -/
def DeclLocation.pushed (location : DeclLocation) : DeclLocation :=
  (Relocation.before location).location location

/-- The same, if one more was put there. -/
def DeclLocation.pushedBy (location : DeclLocation) : Option DeclLocation → DeclLocation
  | none => location
  | some _ => location.pushed

theorem DeclLocation.acceptsSibling_pushed (location : DeclLocation) :
    location.pushed.acceptsSibling = location.acceptsSibling := by
  cases location <;> rfl

/-- Before the group of a declaration, another one can be put in the place of
the first or behind it, and then the first one behind that. -/
theorem Stmt.PutBefore.another {a g : VariableGroup} {steps : List Nat} {s s' : Stmt}
    (h : PutBefore a g steps s s') (b : VariableGroup) :
    ∃ t u u', PutBefore b g steps s t ∧ PutBefore b g (shiftSteps steps steps) s' u ∧
      PutBefore a g (shiftSteps steps steps) t u' := by
  induction h with
  | here before after opensFrame =>
    have hroom : ∀ c d : VariableGroup,
        PutBefore d g (shiftSteps [before.length] [before.length])
          (.block (before ++ .decl c :: .decl g :: after) opensFrame)
          (.block (before ++ .decl c :: .decl d :: .decl g :: after) opensFrame) := by
      intro c d
      have hput := @PutBefore.here d g (before ++ [.decl c]) after opensFrame
      simpa [shiftSteps] using hput
    exact ⟨_, _, _, .here before after opensFrame, hroom a b, hroom b a⟩
  | inBlock before after opensFrame hs ih =>
    rw [shiftSteps_inside hs.steps_ne_nil]
    obtain ⟨t, u, u', ht, hu, hu'⟩ := ih
    exact ⟨_, _, _, ht.inBlock before after opensFrame, hu.inBlock before after opensFrame,
      hu'.inBlock before after opensFrame⟩
  | inThen cond hs ih =>
    rw [shiftSteps_inside hs.steps_ne_nil]
    obtain ⟨t, u, u', ht, hu, hu'⟩ := ih
    exact ⟨_, _, _, ht.inThen cond, hu.inThen cond, hu'.inThen cond⟩
  | inFirst cond elseBranch hs ih =>
    rw [shiftSteps_inside hs.steps_ne_nil]
    obtain ⟨t, u, u', ht, hu, hu'⟩ := ih
    exact ⟨_, _, _, ht.inFirst cond elseBranch, hu.inFirst cond elseBranch,
      hu'.inFirst cond elseBranch⟩
  | inElse cond thenBranch hs ih =>
    rw [shiftSteps_inside hs.steps_ne_nil]
    obtain ⟨t, u, u', ht, hu, hu'⟩ := ih
    exact ⟨_, _, _, ht.inElse cond thenBranch, hu.inElse cond thenBranch,
      hu'.inElse cond thenBranch⟩
  | inInit guard increment body hs ih =>
    rw [shiftSteps_inside hs.steps_ne_nil]
    obtain ⟨t, u, u', ht, hu, hu'⟩ := ih
    exact ⟨_, _, _, ht.inInit guard increment body, hu.inInit guard increment body,
      hu'.inInit guard increment body⟩
  | inFor init guard increment hs ih =>
    rw [shiftSteps_inside hs.steps_ne_nil]
    obtain ⟨t, u, u', ht, hu, hu'⟩ := ih
    exact ⟨_, _, _, ht.inFor init guard increment, hu.inFor init guard increment,
      hu'.inFor init guard increment⟩
  | inWhile cond hs ih =>
    rw [shiftSteps_inside hs.steps_ne_nil]
    obtain ⟨t, u, u', ht, hu, hu'⟩ := ih
    exact ⟨_, _, _, ht.inWhile cond, hu.inWhile cond, hu'.inWhile cond⟩
  | inDo cond hs ih =>
    rw [shiftSteps_inside hs.steps_ne_nil]
    obtain ⟨t, u, u', ht, hu, hu'⟩ := ih
    exact ⟨_, _, _, ht.inDo cond, hu.inDo cond, hu'.inDo cond⟩

namespace Program

theorem PutBefore.another {a g : VariableGroup} {location : DeclLocation} {p p' : Program}
    (h : p.PutBefore a g location p') (b : VariableGroup) :
    ∃ q r r', p.PutBefore b g location q ∧ p'.PutBefore b g location.pushed r ∧
      q.PutBefore a g location.pushed r' := by
  cases h with
  | global version before after member =>
    have hroom : ∀ c d : VariableGroup,
        PutBefore d g (DeclLocation.global before.length member).pushed
          ⟨version, before ++ .variables c :: .variables g :: after⟩
          ⟨version, before ++ .variables c :: .variables d :: .variables g :: after⟩ := by
      intro c d
      have hput := @PutBefore.global d g version (before ++ [.variables c]) after
        member
      simpa [DeclLocation.pushed, Relocation.before, Relocation.location] using hput
    exact ⟨_, _, _, .global version before after member, hroom a b, hroom b a⟩
  | block version before after f stmts steps member hs =>
    obtain ⟨t, u, u', ht, hu, hu'⟩ := hs.another b
    obtain ⟨ts, rfl, -⟩ := ht.block_cases
    obtain ⟨us, rfl, -⟩ := hu.block_cases
    obtain ⟨us', rfl, -⟩ := hu'.block_cases
    have hroom : ∀ {c : VariableGroup} {ss ss' : List Stmt},
        Stmt.PutBefore c g (shiftSteps steps steps) (.block ss f.body.opensFrame)
            (.block ss' f.body.opensFrame) →
          PutBefore c g (DeclLocation.block ⟨before.length, steps⟩ member).pushed
            ⟨version, before ++ .function { f with body := { f.body with stmts := ss } } :: after⟩
            ⟨version,
              before ++ .function { f with body := { f.body with stmts := ss' } } :: after⟩ := by
      intro c ss ss' hc
      have hput := PutBefore.block version before after
        { f with body := { f.body with stmts := ss } } ss' (shiftSteps steps steps) member hc
      simpa [DeclLocation.pushed, Relocation.before, Relocation.location] using hput
    exact ⟨_, _, _, .block version before after f ts steps member ht, hroom hu, hroom hu'⟩

/-- The groups `a` and `b` are declared one after the other, right before one
group: in this order in `p`, and in the opposite order in `p'`. But for that
the two are the same program. -/
def Transposed (a b : VariableGroup) (p p' : Program) : Prop :=
  ∃ (q qa qb : Program) (g : VariableGroup) (location : DeclLocation),
    q.PutBefore a g location qa ∧ qa.PutBefore b g location.pushed p ∧
      q.PutBefore b g location qb ∧ qb.PutBefore a g location.pushed p'

/-- Two variables that are declared before one group in either order. -/
theorem PutBefore.transposed {name name' : String} {type type' : DataType}
    {g₁ g₂ g₃ g₄ : VariableGroup} {location : DeclLocation} {q qa qb p p' : Program}
    (ha : q.PutBefore (.bare name type) g₁ location qa)
    (hab : qa.PutBefore (.bare name' type') g₂ location.pushed p)
    (hb : q.PutBefore (.bare name' type') g₃ location qb)
    (hba : qb.PutBefore (.bare name type) g₄ location.pushed p') :
    Transposed (.bare name type) (.bare name' type') p p' := by
  obtain ⟨q', r, r', hq', hr, hr'⟩ := ha.another (.bare name' type')
  obtain rfl := hb.unique hq'
  obtain rfl := hab.unique hr
  obtain rfl := hba.unique hr'
  exact ⟨q, qa, qb, g₁, location, ha, hr, hq', hr'⟩

/-- One more declaration before the group at a location, if there is one. -/
inductive Placed (new : VariableGroup) (p : Program) : Option DeclLocation → Program → Prop
  | nowhere : Placed new p none p
  | before (location : DeclLocation) (g : VariableGroup) (p' : Program) :
    p.PutBefore new g location p' → Placed new p (some location) p'

theorem Placed.rewrite {name : String} {type : DataType} {o : Option DeclLocation} {p p' : Program}
    (h : p.Placed (.bare name type) o p') (r : Replacement) :
    (p.rewrite r).Placed (.bare name type) o (p'.rewrite r) := by
  cases h with
  | nowhere => exact .nowhere
  | before location g _ hput =>
    obtain ⟨g', hput'⟩ := hput.rewrite r
    exact .before location g' _ hput'

/-- Two variables come in one after the other, each if it has to, at the same
place. The order makes a difference only when both come in. -/
theorem Placed.either_order {name name' : String} {type type' : DataType} {location : DeclLocation}
    {o o' : Option DeclLocation} (ho : o = none ∨ o = some location)
    (ho' : o' = none ∨ o' = some location) {q qa qb p p' : Program}
    (ha : q.Placed (.bare name type) o qa)
    (hab : qa.Placed (.bare name' type') (o'.map fun _ => location.pushedBy o) p)
    (hb : q.Placed (.bare name' type') o' qb)
    (hba : qb.Placed (.bare name type) (o.map fun _ => location.pushedBy o') p') :
    p = p' ∧ (o = none ∨ o' = none) ∨
      Transposed (.bare name type) (.bare name' type') p p' ∧ o ≠ none ∧ o' ≠ none := by
  rcases ho with rfl | rfl <;> rcases ho' with rfl | rfl
  · cases ha
    cases hab
    cases hb
    cases hba
    exact Or.inl ⟨rfl, Or.inl rfl⟩
  · cases ha
    cases hba
    cases hab with | before _ _ _ hput =>
    cases hb with | before _ _ _ hput' =>
    exact Or.inl ⟨hput.unique hput', Or.inl rfl⟩
  · cases hb
    cases hab
    cases ha with | before _ _ _ hput =>
    cases hba with | before _ _ _ hput' =>
    exact Or.inl ⟨hput.unique hput', Or.inr rfl⟩
  · cases ha with | before _ _ _ ha =>
    cases hab with | before _ _ _ hab =>
    cases hb with | before _ _ _ hb =>
    cases hba with | before _ _ _ hba =>
    exact Or.inr ⟨ha.transposed hab hb hba, by simp, by simp⟩

end Program

end ShaderMorph
