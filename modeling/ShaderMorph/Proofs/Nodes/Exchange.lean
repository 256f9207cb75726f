-- The walk over a program in which one node is replaced. The visits in front
-- of the node have the same numbers, and the expressions around the node have
-- the new one in them. Then come the visits of the new expression, where those
-- of the old one were, and all that is behind it with other numbers.
import ShaderMorph.Proofs.Nodes.Sites
import ShaderMorph.Proofs.Walk.Matching

namespace ShaderMorph

namespace Visit

/-- A visit of the same expression in the same place, when the numbers from
`k` on have become those from `k'` on. -/
structure Renumbered (k k' : Nat) (v v' : Visit) : Prop where
  expr : v'.expr = v.expr
  scope : v'.scope = v.scope
  around : v'.around = v.around
  ordinal : v'.ordinal + k = v.ordinal + k'
  isOperand : v'.isOperand = v.isOperand

theorem Renumbered.congr {j j' k k' : Nat} (h : k + j' = j + k') {v v' : Visit}
    (hv : v.Renumbered j j' v') : v.Renumbered k k' v' := by
  refine ⟨hv.expr, hv.scope, hv.around, ?_, hv.isOperand⟩
  have := hv.ordinal
  omega

/-- A visit of an expression with other ones in it. -/
def rewrite (r : Replacement) (v : Visit) : Visit := { v with expr := v.expr.rewrite r v.ordinal }

/-- The visits `vs` with `v` and its parts among them, and what they are when
`new` stands in the place of the expression of `v`. -/
def Exchanged (heads : List Prototype) (new : Expr) (v : Visit) (vs vs' : List Visit) : Prop :=
  ∃ before after after', vs = before ++ (v.parts heads ++ after) ∧
    vs' = before.map (rewrite (Replacement.nothing.add v.ordinal new)) ++
      (new.visits heads v.scope v.around v.parent v.ordinal ++ after') ∧
    List.Forall₂ (Renumbered v.expr.size new.size) after after'

namespace Exchanged

variable {heads : List Prototype} {new : Expr} {v : Visit} {vs vs' us us' : List Visit}

theorem length_eq (h : Exchanged heads new v vs vs') :
    vs'.length + v.expr.size = vs.length + new.size := by
  obtain ⟨before, after, after', rfl, rfl, hafter⟩ := h
  have hlength := hafter.length_eq
  simp only [parts, List.length_append, List.length_map, Expr.length_visits]
  omega

/-- Visits of expressions that do not change go in front. -/
theorem append_left (h : Exchanged heads new v vs vs')
    (hus : ∀ u ∈ us, u.rewrite (Replacement.nothing.add v.ordinal new) = u) :
    Exchanged heads new v (us ++ vs) (us ++ vs') := by
  obtain ⟨before, after, after', rfl, rfl, hafter⟩ := h
  refine ⟨us ++ before, after, after', by simp, ?_, hafter⟩
  rw [List.map_append, List.map_congr_left hus, List.map_id', List.append_assoc]

theorem append_right (h : Exchanged heads new v vs vs')
    (hus : List.Forall₂ (Renumbered v.expr.size new.size) us us') :
    Exchanged heads new v (vs ++ us) (vs' ++ us') := by
  obtain ⟨before, after, after', rfl, rfl, hafter⟩ := h
  exact ⟨before, after ++ us, after' ++ us', by simp, by simp, List.rel_append hafter hus⟩

/-- The visit of an expression around the one that is replaced. -/
theorem cons (h : Exchanged heads new v vs vs') (u : Visit) :
    Exchanged heads new v (u :: vs)
      (u.rewrite (Replacement.nothing.add v.ordinal new) :: vs') := by
  obtain ⟨before, after, after', rfl, rfl, hafter⟩ := h
  exact ⟨u :: before, after, after', rfl, rfl, hafter⟩

end Exchanged

end Visit

/-! ## Other numbers -/

namespace Site

variable (heads : List Prototype)

/-- The visits of a row whose expressions are each visited alike under other
numbers. -/
theorem row_renumbered {ss : List Site} {parent parent' : Option Nat}
    (h : ∀ s ∈ ss, ∀ j j', List.Forall₂ (Visit.Renumbered j j')
      (s.expr.visits heads s.scope s.around parent j)
      (s.expr.visits heads s.scope s.around parent' j')) (k k' : Nat) :
    List.Forall₂ (Visit.Renumbered k k') (row heads parent ss k) (row heads parent' ss k') := by
  induction ss generalizing k k' with
  | nil => exact .nil
  | cons s ss ih =>
    rw [List.forall_mem_cons] at h
    refine List.rel_append (h.1 k k') ((ih h.2 _ _).imp fun _ _ hv => hv.congr ?_)
    omega

end Site

namespace Expr

variable (heads : List Prototype)

theorem size_lt_of_site {scope : ScopeTree} {around : Surroundings} {e : Expr} {s : Site}
    (h : s ∈ e.sites heads scope around) : s.expr.size < e.size := by
  have hpart : s.expr ∈ e.children := by
    rw [← sites_exprs heads scope around]
    exact List.mem_map_of_mem h
  obtain ⟨i, hi⟩ := List.getElem?_of_mem hpart
  exact size_lt_of_part hi

/-- An expression is visited alike under other numbers. -/
theorem visits_renumbered (e : Expr) (scope : ScopeTree) (around : Surroundings)
    {parent parent' : Option Nat} (hparent : parent'.isSome = parent.isSome) (k k' : Nat) :
    List.Forall₂ (Visit.Renumbered k k') (e.visits heads scope around parent k)
      (e.visits heads scope around parent' k') := by
  rw [visits_eq_row, visits_eq_row]
  refine .cons ⟨rfl, rfl, rfl, Nat.add_comm _ _, hparent⟩ ?_
  refine (Site.row_renumbered heads (fun s hs j j' => ?_) (k + 1) (k' + 1)).imp
    fun _ _ hv => hv.congr (by omega)
  have := size_lt_of_site heads hs
  exact visits_renumbered s.expr s.scope s.around (Option.isSome_some.trans Option.isSome_some.symm)
    j j'
termination_by e.size

end Expr

theorem Site.renumbered (heads : List Prototype) (ss : List Site) {parent parent' : Option Nat}
    (hparent : parent'.isSome = parent.isSome) (k k' : Nat) :
    List.Forall₂ (Visit.Renumbered k k') (row heads parent ss k) (row heads parent' ss k') :=
  row_renumbered heads (fun s _ => s.expr.visits_renumbered heads s.scope s.around hparent) k k'

/-! ## Rows rewritten -/

namespace Site

/-- Rewrite the expressions of a row, the first of which has number `k`. -/
def rewriteAll (r : Replacement) : List Site → (k : Nat) → List Site
  | [], _ => []
  | s :: ss, k => ⟨s.expr.rewrite r k, s.scope, s.around⟩ :: rewriteAll r ss (k + s.expr.size)

theorem rewriteAll_append (r : Replacement) (ss ts : List Site) (k : Nat) :
    rewriteAll r (ss ++ ts) k =
      rewriteAll r ss k ++ rewriteAll r ts (k + Expr.sizeAll (ss.map (·.expr))) := by
  induction ss generalizing k with
  | nil => rfl
  | cons s ss ih => simp [rewriteAll, Expr.sizeAll, ih, Nat.add_assoc]

theorem rewriteAll_mapIdx (r : Replacement) (scope : ScopeTree) (es : List Expr)
    (around : Nat → Surroundings) (k : Nat) :
    (Expr.rewriteAll r es k).mapIdx (fun i e => (⟨e, scope, around i⟩ : Site)) =
      rewriteAll r (es.mapIdx fun i e => ⟨e, scope, around i⟩) k := by
  induction es generalizing around k with
  | nil => rfl
  | cons e es ih =>
    rw [Expr.rewriteAll, List.mapIdx_cons, List.mapIdx_cons, rewriteAll]
    exact congrArg _ (ih (fun i => around (i + 1)) (k + e.size))

/-- A row in front of which the one number lies that is replaced stays. -/
theorem rewriteAll_add {ss : List Site} {j k : Nat} (h : j < k) (new : Expr) :
    rewriteAll (Replacement.nothing.add j new) ss k = ss := by
  induction ss generalizing k with
  | nil => rfl
  | cons s ss ih =>
    rw [rewriteAll, s.expr.rewrite_add (Or.inl h), Expr.rewrite_nothing, ih (by omega)]

end Site

namespace Expr

variable (heads : List Prototype) {r : Replacement} {k : Nat}

theorem inner_rewrite (h : r k = none) (around : Surroundings) (e : Expr) (i : Nat) :
    (e.rewrite r k).inner heads around i = e.inner heads around i := by
  cases e <;> simp [rewrite, h, inner, length_rewriteAll]

theorem sites_rewrite (h : r k = none) (scope : ScopeTree) (around : Surroundings) (e : Expr) :
    (e.rewrite r k).sites heads scope around =
      Site.rewriteAll r (e.sites heads scope around) (k + 1) := by
  simp only [sites, children_rewrite h, inner_rewrite heads h]
  exact Site.rewriteAll_mapIdx r scope e.children _ (k + 1)

/-! ## One node replaced -/

/-- What is visited in an expression in which nothing is replaced does not
change. -/
theorem visit_rewrite_eq_self {scope : ScopeTree} {around : Surroundings} {parent : Option Nat}
    {e : Expr} (h : ∀ v ∈ e.visits heads scope around parent k, r v.ordinal = none) :
    ∀ v ∈ e.visits heads scope around parent k, v.rewrite r = v := by
  intro v hv
  have hsub := (e.visits_stretch heads scope around parent k v hv).subset
  have hparts : ∀ w ∈ v.expr.visits heads v.scope v.around v.parent v.ordinal,
      r w.ordinal = none := fun w hw => h w (hsub hw)
  unfold Visit.rewrite
  rw [Expr.rewrite_eq_self hparts]

theorem mem_visits_ordinal {scope : ScopeTree} {around : Surroundings} {parent : Option Nat}
    {e : Expr} {v : Visit} (h : v ∈ e.visits heads scope around parent k) :
    k ≤ v.ordinal ∧ v.ordinal < k + e.size := by
  have hmem := List.mem_map_of_mem (f := Visit.ordinal) h
  rw [visits_ordinal] at hmem
  exact List.mem_range'_1.1 hmem

end Expr

namespace Site

variable (heads : List Prototype) {parent : Option Nat} {ss : List Site} {v : Visit}

theorem le_ordinal_of_mem_row {k : Nat} (h : v ∈ row heads parent ss k) : k ≤ v.ordinal := by
  induction ss generalizing k with
  | nil => cases h
  | cons s ss ih =>
    rcases List.mem_append.1 h with h | h
    · exact (Expr.mem_visits_ordinal heads h).1
    · exact Nat.le_trans (Nat.le_add_right k s.expr.size) (ih h)

/-- One node of a row is replaced. -/
theorem row_exchanged_of (new : Expr)
    (h : ∀ s ∈ ss, ∀ k, v ∈ s.expr.visits heads s.scope s.around parent k →
      Visit.Exchanged heads new v (s.expr.visits heads s.scope s.around parent k)
        ((s.expr.rewrite (Replacement.nothing.add v.ordinal new) k).visits heads s.scope s.around
          parent k)) {k : Nat} (hv : v ∈ row heads parent ss k) :
    Visit.Exchanged heads new v (row heads parent ss k)
      (row heads parent (rewriteAll (Replacement.nothing.add v.ordinal new) ss k) k) := by
  induction ss generalizing k with
  | nil => cases hv
  | cons s ss ih =>
    rw [List.forall_mem_cons] at h
    rw [row, rewriteAll, row]
    dsimp only
    rcases List.mem_append.1 hv with hs | hss
    · have hexchanged := h.1 k hs
      have hsize := hexchanged.length_eq
      rw [Expr.length_visits, Expr.length_visits] at hsize
      rw [rewriteAll_add (Expr.mem_visits_ordinal heads hs).2]
      exact hexchanged.append_right
        ((renumbered heads ss rfl _ _).imp fun _ _ hw => hw.congr (by omega))
    · have hbehind := le_ordinal_of_mem_row heads hss
      rw [s.expr.rewrite_add (Or.inr hbehind), Expr.rewrite_nothing]
      refine (ih h.2 hss).append_left (Expr.visit_rewrite_eq_self heads fun w hw => ?_)
      have hw := Expr.mem_visits_ordinal heads hw
      exact Replacement.add_ne _ _ (by omega)

end Site

/-- One node of an expression is replaced. -/
theorem Expr.visits_exchanged (heads : List Prototype) (new e : Expr) {scope : ScopeTree}
    {around : Surroundings} {parent : Option Nat} {k : Nat} {v : Visit}
    (hv : v ∈ e.visits heads scope around parent k) :
    Visit.Exchanged heads new v (e.visits heads scope around parent k)
      ((e.rewrite (Replacement.nothing.add v.ordinal new) k).visits heads scope around parent
        k) := by
  have hrow := hv
  rw [visits_eq_row] at hrow
  rcases List.mem_cons.1 hrow with rfl | hrow
  · rw [e.rewrite_of_some (Replacement.add_self _ _ _)]
    exact ⟨[], [], [], by simp [Visit.parts], by simp, .nil⟩
  · have hbehind := Site.le_ordinal_of_mem_row heads hrow
    have hnone : Replacement.nothing.add v.ordinal new k = none :=
      Replacement.add_ne _ _ (by omega)
    rw [visits_eq_row, visits_eq_row, sites_rewrite heads hnone]
    refine (Site.row_exchanged_of heads new (fun s hs k hv => ?_) hrow).cons _
    have := size_lt_of_site heads hs
    exact visits_exchanged heads new s.expr hv
termination_by e.size

theorem Site.row_exchanged (heads : List Prototype) (new : Expr) {parent : Option Nat}
    {ss : List Site} {k : Nat} {v : Visit} (hv : v ∈ row heads parent ss k) :
    Visit.Exchanged heads new v (row heads parent ss k)
      (row heads parent (rewriteAll (Replacement.nothing.add v.ordinal new) ss k) k) :=
  row_exchanged_of heads new (fun s _ _ hv => Expr.visits_exchanged heads new s.expr hv) hv

/-! ## Programs -/

namespace Command

theorem sites_rewrite (r : Replacement) {s s' : WalkState} (hscope : s'.scope = s.scope)
    (hid : s'.id = s.id) (c : Command) (k : Nat) :
    (c.rewrite r k).sites s' = Site.rewriteAll r (c.sites s) k := by
  cases c with
  | expr around e => simp [rewrite, sites, Site.rewriteAll, hscope]
  | declare v =>
    cases h : v.initializer <;>
      simp [rewrite, sites, Site.rewriteAll, Expr.rewriteOption, Declarator.inner, h, hscope, hid]
  | enter o => rfl
  | leave => rfl

/-- Rewriting keeps all of a state but the number of the next expression. -/
theorem next_rewrite (r : Replacement) {s s' : WalkState} (hscope : s'.scope = s.scope)
    (hkept : s'.kept = s.kept) (hid : s'.id = s.id) (c : Command) (k : Nat) :
    ((c.rewrite r k).next s').scope = (c.next s).scope ∧
      ((c.rewrite r k).next s').kept = (c.next s).kept ∧
        ((c.rewrite r k).next s').id = (c.next s).id := by
  cases c with
  | expr around e => exact ⟨hscope, hkept, hid⟩
  | declare v => simp [rewrite, next, Declarator.symbol, hscope, hkept, hid]
  | enter o => simp [rewrite, next, hscope, hkept, hid]
  | leave =>
    simp only [rewrite, next, hkept]
    split <;> simp [hscope, hkept, hid]

theorem sitesAll_rewrite (r : Replacement) (cs : List Command) {s s' : WalkState}
    (hscope : s'.scope = s.scope) (hkept : s'.kept = s.kept) (hid : s'.id = s.id) (k : Nat) :
    sitesAll (rewriteAll r cs k) s' = Site.rewriteAll r (sitesAll cs s) k := by
  induction cs generalizing s s' k with
  | nil => rfl
  | cons c cs ih =>
    obtain ⟨hscope', hkept', hid'⟩ := next_rewrite r hscope hkept hid c k
    rw [rewriteAll, sitesAll, sitesAll, sites_rewrite r hscope hid, ih hscope' hkept' hid',
      Site.rewriteAll_append, sites_exprs, sizeAll_rootExprs]

end Command

namespace Program

theorem sites_rewrite (p : Program) (r : Replacement) :
    (p.rewrite r).sites = Site.rewriteAll r p.sites 0 := by
  unfold sites
  rw [script_rewrite]
  exact Command.sitesAll_rewrite r p.script rfl rfl rfl 0

/-- One node of a program is replaced. -/
theorem visits_exchanged {p : Program} {v : Visit} (hv : v ∈ p.visits) (new : Expr) :
    Visit.Exchanged p.prototypes new v p.visits
      (p.rewrite (Replacement.nothing.add v.ordinal new)).visits := by
  rw [visits_eq_row] at hv
  rw [visits_eq_row, visits_eq_row, sites_rewrite, prototypes_rewrite]
  exact Site.row_exchanged p.prototypes new hv

theorem ordinal_getElem? {p : Program} {i : Nat} {v : Visit} (h : p.visits[i]? = some v) :
    v.ordinal = i := by
  obtain ⟨hlt, rfl⟩ := List.getElem?_eq_some_iff.1 h
  exact ordinal_getElem hlt

/-- Every number below the count is that of a visit. -/
theorem exists_visit {p : Program} {k : Nat} (h : k < p.exprCount) :
    ∃ v ∈ p.visits, v.ordinal = k := by
  have hlt : k < p.visits.length := by rwa [← List.length_map (·.expr), visits_expr]
  exact ⟨_, List.getElem_mem hlt, ordinal_getElem hlt⟩

theorem ordinal_lt {p : Program} {v : Visit} (h : v ∈ p.visits) : v.ordinal < p.exprCount :=
  (List.getElem?_eq_some_iff.1 (exprs_ordinal h)).1

/-- The visits `before` are those in front of `v`, and `after` are those behind
all that is met in its expression. -/
structure Flanked (p : Program) (v : Visit) (before after : List Visit) : Prop where
  length : before.length = v.ordinal
  before : ∀ w, w ∈ before ↔ w ∈ p.visits ∧ w.ordinal < v.ordinal
  after : ∀ w, w ∈ after ↔ w ∈ p.visits ∧ v.ordinal + v.expr.size ≤ w.ordinal

theorem flanked_of_visits {p : Program} {v : Visit} {before after : List Visit}
    (h : p.visits = before ++ (v.parts p.prototypes ++ after)) : p.Flanked v before after := by
  have hsize : (v.parts p.prototypes).length = v.expr.size := Expr.length_visits _ _ _ _ _ _
  have hlength : before.length = v.ordinal := by
    obtain ⟨rest, hrest, -⟩ := v.expr.visits_eq_cons p.prototypes v.scope v.around v.parent
      v.ordinal
    refine (ordinal_getElem? (p := p) ?_).symm
    rw [h, Visit.parts, hrest]
    simp
  have hbefore : ∀ w ∈ before, w.ordinal < v.ordinal := by
    intro w hw
    obtain ⟨i, hi, rfl⟩ := List.getElem_of_mem hw
    rw [ordinal_getElem? (p := p) (i := i) (v := before[i]) (by
      rw [h, List.getElem?_append_left hi, List.getElem?_eq_getElem hi])]
    omega
  have hafter : ∀ w ∈ after, v.ordinal + v.expr.size ≤ w.ordinal := by
    intro w hw
    obtain ⟨i, hi, rfl⟩ := List.getElem_of_mem hw
    rw [ordinal_getElem? (p := p) (i := before.length + (v.expr.size + i)) (v := after[i]) (by
      rw [h, List.getElem?_append_right (by omega), Nat.add_sub_cancel_left, ← hsize,
        List.getElem?_append_right (by omega), Nat.add_sub_cancel_left,
        List.getElem?_eq_getElem hi])]
    omega
  have hmem : ∀ w, w ∈ p.visits ↔ w ∈ before ∨ w ∈ v.parts p.prototypes ∨ w ∈ after := by
    intro w
    rw [h, List.mem_append, List.mem_append]
  have hparts : ∀ w ∈ v.parts p.prototypes,
      v.ordinal ≤ w.ordinal ∧ w.ordinal < v.ordinal + v.expr.size :=
    fun w hw => Expr.mem_visits_ordinal p.prototypes hw
  refine ⟨hlength, fun w => ⟨fun hw => ⟨(hmem w).2 (Or.inl hw), hbefore w hw⟩, ?_⟩,
    fun w => ⟨fun hw => ⟨(hmem w).2 (Or.inr (Or.inr hw)), hafter w hw⟩, ?_⟩⟩
  · rintro ⟨hw, hlt⟩
    rcases (hmem w).1 hw with hw | hw | hw
    · exact hw
    · exact absurd (hparts w hw).1 (Nat.not_le.2 hlt)
    · have := hafter w hw
      omega
  · rintro ⟨hw, hle⟩
    rcases (hmem w).1 hw with hw | hw | hw
    · have := hbefore w hw
      omega
    · exact absurd (hparts w hw).2 (Nat.not_lt.2 hle)
    · exact hw

end Program

end ShaderMorph
