-- Walks of programs that lost some variables. Each scope loses the bindings
-- of the variables that went, and the ids are counted anew. What is left is
-- met in the same order, with the same expressions.
import ShaderMorph.Proofs.Walk.Matching
import ShaderMorph.Proofs.Walk.Placement

namespace ShaderMorph

/-! ## Scopes without some bindings -/

/-- The id that a declaration gets when only some stay: the number of those
before it. -/
def thinId (stays : Nat → Bool) (id : Nat) : Nat := (List.range id).countP stays

theorem thinId_succ (stays : Nat → Bool) (id : Nat) :
    thinId stays (id + 1) = thinId stays id + if stays id then 1 else 0 := by
  rw [thinId, thinId, List.range_succ, List.countP_append, List.countP_singleton]

def Symbol.thin (stays : Nat → Bool) (u : Symbol) : Symbol := { u with id := thinId stays u.id }

def ScopeEntry.thin? (stays : Nat → Bool) : ScopeEntry → Option ScopeEntry
  | .frame => some .frame
  | .binding u => if stays u.id then some (.binding (u.thin stays)) else none

namespace ScopeTree

/-- A scope without the bindings that do not stay. -/
def thin (stays : Nat → Bool) (t : ScopeTree) : ScopeTree :=
  ⟨t.entries.filterMap (ScopeEntry.thin? stays), t.depth⟩

variable {stays : Nat → Bool} {t : ScopeTree} {u : Symbol} {name : String}

theorem thin_enter : t.enter.thin stays = (t.thin stays).enter := by
  simp [thin, enter, ScopeEntry.thin?]

theorem thin_shadow (h : stays u.id = true) :
    (t.shadow u).thin stays = (t.thin stays).shadow (u.thin stays) := by
  simp [thin, shadow, ScopeEntry.thin?, Symbol.thin, h]

theorem thin_shadow_of_not (h : stays u.id = false) : (t.shadow u).thin stays = t.thin stays := by
  simp [thin, shadow, ScopeEntry.thin?, h]

/-- A name without a meaning does not get one. -/
theorem lookup_thin_eq_none (h : t.lookup name = none) : (t.thin stays).lookup name = none := by
  unfold lookup thin at *
  generalize t.entries = es at h
  induction es with
  | nil => rfl
  | cons x es ih =>
    cases x with
    | frame => exact ih h
    | binding s =>
      simp only [lookupIn] at h
      split at h
      · cases h
      · next hne =>
        rw [List.filterMap_cons]
        by_cases hs : stays s.id = true
        · simpa [ScopeEntry.thin?, hs, lookupIn, Symbol.thin, hne] using ih h
        · simpa [ScopeEntry.thin?, hs] using ih h

/-- A name goes on to stand for what it did, when that stays. -/
theorem lookup_thin (h : t.lookup name = some u) (hu : stays u.id = true) :
    (t.thin stays).lookup name = some (u.thin stays) := by
  unfold lookup thin at *
  generalize t.entries = es at h
  induction es with
  | nil => cases h
  | cons x es ih =>
    cases x with
    | frame => exact ih h
    | binding s =>
      simp only [lookupIn] at h
      rw [List.filterMap_cons]
      split at h
      · next hname =>
        obtain rfl := Option.some.inj h
        simp [ScopeEntry.thin?, hu, lookupIn, Symbol.thin, hname]
      · next hne =>
        -- A newer binding of another name is passed over, be it there or not.
        by_cases hs : stays s.id = true
        · simpa [ScopeEntry.thin?, hs, lookupIn, Symbol.thin, hne] using ih h
        · simpa [ScopeEntry.thin?, hs] using ih h

end ScopeTree

/-! ## Scripts without some declarators -/

/-- Surroundings that tell the same, but for the place of the function. -/
structure Surroundings.Like (a b : Surroundings) : Prop where
  initializerOf : b.initializerOf = a.initializerOf
  function : b.function.isSome = a.function.isSome

namespace Command

/-- The same command, met in another place of the program. -/
inductive Like : Command → Command → Prop
  | expr {a b : Surroundings} (e : Expr) : a.initializerOf = none → a.Like b →
    Like (.expr a e) (.expr b e)
  | declare (v : Declarator) {around : Surroundings} {location : DeclLocation} :
    v.around.Like around → location.slot?.isSome = v.location.slot?.isSome →
    Like (.declare v) (.declare { v with around, location })
  | enter (opensFrame : Bool) : Like (.enter opensFrame) (.enter opensFrame)
  | leave : Like .leave .leave

/-- Whether a command stays when only the variables at some places do. -/
def stays (here : DeclLocation → Bool) : Command → Bool
  | .declare v => here v.location
  | _ => true

end Command

/-- Whether an event is still met: a declaration that stays, or an expression
that is in no initializer but that of one. -/
def Event.stays (stays : Nat → Bool) : Event → Bool
  | .visit v => v.around.initializerOf.all stays
  | .declare d => stays d.symbol.id

/-- What becomes of an event that is still met. -/
inductive Event.Thinned (stays : Nat → Bool) : Event → Event → Prop
  | visit (v v' : Visit) : v'.expr = v.expr → v'.scope = v.scope.thin stays →
    v'.around.initializerOf = v.around.initializerOf.map (thinId stays) →
    v'.around.function.isSome = v.around.function.isSome → Thinned stays (.visit v) (.visit v')
  | declare (d d' : Declared) : d'.symbol = d.symbol.thin stays → d'.isConst = d.isConst →
    d'.location.slot?.isSome = d.location.slot?.isSome → Thinned stays (.declare d) (.declare d')

/-- The state of a machine that left out what does not stay. -/
structure WalkState.Thins (stays : Nat → Bool) (s s' : WalkState) : Prop where
  scope : s'.scope = s.scope.thin stays
  kept : s'.kept = s.kept.map (.thin stays)
  id : s'.id = thinId stays s.id

/-! ## One command -/

/-- The same expression visited twice. -/
theorem Expr.visits_forall₂ (e : Expr) (heads heads' : List Prototype) (scope scope' : ScopeTree)
    (a b : Surroundings) (k k' : Nat) :
    List.Forall₂ (fun v v' => v'.expr = v.expr ∧ v.Beside scope a ∧ v'.Beside scope' b)
      (e.visits heads scope a none k) (e.visits heads' scope' b none k') := by
  have hexprs : (e.visits heads scope a none k).map (·.expr) =
      (e.visits heads' scope' b none k').map (·.expr) := by
    rw [visits_expr, visits_expr]
  have hall := forall₂_mem
    (List.forall₂_map_left_iff.1 (List.forall₂_map_right_iff.1 (List.forall₂_eq_eq_eq ▸ hexprs)))
  exact hall.imp fun v v' ⟨hv, hv', hexpr⟩ =>
    ⟨hexpr.symm, e.visits_beside heads scope a none k v hv,
      e.visits_beside heads' scope' b none k' v' hv'⟩

namespace Command

variable {stays : Nat → Bool} {s s' : WalkState}

/-- The visits of an expression that stays. -/
theorem visits_thinned (hs : s.Thins stays s') (e : Expr) {a b : Surroundings}
    (hstays : a.initializerOf.all stays = true)
    (hinit : b.initializerOf = a.initializerOf.map (thinId stays))
    (hfunction : b.function.isSome = a.function.isSome) (heads heads' : List Prototype) :
    List.Forall₂ (Event.Thinned stays)
      (((e.visits heads s.scope a none s.ordinal).map Event.visit).filter (·.stays stays))
      ((e.visits heads' s'.scope b none s'.ordinal).map Event.visit) := by
  have hall : ((e.visits heads s.scope a none s.ordinal).map Event.visit).filter
      (·.stays stays) = (e.visits heads s.scope a none s.ordinal).map Event.visit := by
    refine List.filter_eq_self.2 fun x hx => ?_
    obtain ⟨v, hv, rfl⟩ := List.mem_map.1 hx
    have hbeside := (e.visits_beside heads s.scope a none s.ordinal v hv).2
    have hof : v.around.initializerOf = a.initializerOf := congrArg (·.initializerOf) hbeside
    rw [Event.stays, hof, hstays]
  rw [hall, List.forall₂_map_left_iff, List.forall₂_map_right_iff]
  refine (e.visits_forall₂ heads heads' s.scope s'.scope a b s.ordinal s'.ordinal).imp ?_
  rintro v v' ⟨hexpr, ⟨hscope, haround⟩, hscope', haround'⟩
  refine .visit v v' hexpr (by rw [hscope', hscope, hs.scope]) ?_ ?_
  · rw [show v'.around.initializerOf = _ from congrArg (·.initializerOf) haround',
      show v.around.initializerOf = _ from congrArg (·.initializerOf) haround]
    exact hinit
  · rw [show v'.around.function = _ from congrArg (·.function) haround',
      show v.around.function = _ from congrArg (·.function) haround]
    exact hfunction

/-- A declarator that stays. -/
theorem declare_thinned (hs : s.Thins stays s') (v : Declarator) {around : Surroundings}
    {location : DeclLocation} (haround : v.around.Like around)
    (hslot : location.slot?.isSome = v.location.slot?.isSome) (hstays : stays s.id = true)
    (heads heads' : List Prototype) :
    List.Forall₂ (Event.Thinned stays)
        (((Command.declare v).events heads s).filter (·.stays stays))
        ((Command.declare { v with around, location }).events heads' s') ∧
      ((Command.declare v).next s).Thins stays
        ((Command.declare { v with around, location }).next s') := by
  have hsymbol : Declarator.symbol { v with around, location } s' = (v.symbol s).thin stays := by
    simp [Declarator.symbol, Symbol.thin, hs.id, hs.scope, ScopeTree.thin]
  constructor
  · simp only [events, List.filter_append]
    refine List.rel_append ?_ ?_
    · cases hi : v.initializer with
      | none => simp [Declarator.visits, Expr.visitsOption, hi]
      | some e =>
        simp only [Declarator.visits, Expr.visitsOption, hi]
        have hid : (v.inner s.id).initializerOf.all stays = true := hstays
        refine visits_thinned hs e hid ?_ ?_ heads heads'
        · simp [Declarator.inner, hs.id]
        · exact haround.function
    · have hkept : (Event.declare (v.declared s)).stays stays = true := hstays
      rw [List.filter_cons_of_pos hkept, List.filter_nil]
      exact .cons (.declare _ _ hsymbol rfl hslot) .nil
  · refine ⟨?_, hs.kept, ?_⟩
    · have hid : stays (v.symbol s).id = true := hstays
      simp only [next, hsymbol, hs.scope]
      rw [ScopeTree.thin_shadow hid]
    · simp [next, thinId_succ, hstays, hs.id]

/-- A declarator that goes. -/
theorem declare_dropped (hs : s.Thins stays s') (v : Declarator) (hstays : stays s.id = false)
    (heads : List Prototype) :
    ((Command.declare v).events heads s).filter (·.stays stays) = [] ∧
      ((Command.declare v).next s).Thins stays s' := by
  constructor
  · refine List.filter_eq_nil_iff.2 fun x hx => ?_
    rcases List.mem_append.1 hx with hx | hx
    · obtain ⟨w, hw, rfl⟩ := List.mem_map.1 hx
      simp [Event.stays, Declarator.initializerOf_of_mem_visits hw, hstays]
    · rw [List.mem_singleton.1 hx]
      simp [Event.stays, Declarator.declared, Declarator.symbol, hstays]
  · have hid : stays (v.symbol s).id = false := hstays
    refine ⟨?_, hs.kept, ?_⟩
    · simp only [next, ScopeTree.thin_shadow_of_not hid, hs.scope]
    · simp [next, thinId_succ, hstays, hs.id]

/-- Any other command. -/
theorem Like.thinned {c c' : Command} (h : c.Like c') (hs : s.Thins stays s')
    (hstays : ∀ v, c = .declare v → stays s.id = true) (heads heads' : List Prototype) :
    List.Forall₂ (Event.Thinned stays) ((c.events heads s).filter (·.stays stays))
        (c'.events heads' s') ∧
      (c.next s).Thins stays (c'.next s') := by
  cases h with
  | @expr a b e hnone hlike =>
    refine ⟨visits_thinned hs e ?_ ?_ hlike.function heads heads', hs.scope, hs.kept, hs.id⟩
    · rw [hnone]; rfl
    · rw [hlike.initializerOf, hnone]; rfl
  | declare v haround hslot => exact declare_thinned hs v haround hslot (hstays v rfl) heads heads'
  | enter opensFrame =>
    refine ⟨.nil, ?_, ?_, hs.id⟩
    · cases opensFrame <;> simp [next, hs.scope, ScopeTree.thin_enter]
    · simp [next, hs.scope, hs.kept]
  | leave =>
    refine ⟨.nil, ?_⟩
    obtain ⟨scope, kept, ordinal, id⟩ := s
    obtain ⟨scope', kept', ordinal', id'⟩ := s'
    obtain ⟨hscope, rfl, hid⟩ := hs
    cases kept with
    | nil => exact ⟨hscope, rfl, hid⟩
    | cons t kept => exact ⟨rfl, rfl, hid⟩

/-! ## A whole run -/

/-- A script without the declarators that do not stay meets what is left of
what the whole one meets. -/
theorem run_thinned {here : DeclLocation → Bool} {cs cs' : List Command}
    (h : List.Forall₂ Like (cs.filter (·.stays here)) cs') (hs : s.Thins stays s')
    (heads heads' : List Prototype)
    (hstays : ∀ d ∈ Event.declared (run heads cs s), stays d.symbol.id = here d.location) :
    List.Forall₂ (Event.Thinned stays) ((run heads cs s).filter (·.stays stays))
      (run heads' cs' s') := by
  induction cs generalizing cs' s s' with
  | nil =>
    cases h
    exact .nil
  | cons c cs ih =>
    have hrest : ∀ d ∈ Event.declared (run heads cs (c.next s)),
        stays d.symbol.id = here d.location := fun d hd => by
      refine hstays d ?_
      rw [run, Event.declared_append]
      exact List.mem_append_right _ hd
    -- The id that comes next is that of the declarator, if this is one.
    have hfirst : ∀ v, c = .declare v → stays s.id = here v.location := by
      rintro v rfl
      exact hstays (v.declared s) (by simp [run, events])
    rw [run, List.filter_append]
    by_cases hc : c.stays here = true
    · rw [List.filter_cons_of_pos hc] at h
      cases h with
      | @cons _ c' _ cs' hlike h =>
        obtain ⟨hevents, hnext⟩ := hlike.thinned hs
          (by rintro v rfl; exact (hfirst v rfl).trans hc) heads heads'
        exact List.rel_append hevents (ih h hnext hrest)
    · rw [List.filter_cons_of_neg hc] at h
      cases c with
      | declare v =>
        have hgone : stays s.id = false := by
          rw [hfirst v rfl]
          simpa [Command.stays] using hc
        obtain ⟨hevents, hnext⟩ := declare_dropped hs v hgone heads
        rw [hevents]
        exact ih h hnext hrest
      | expr around e => exact absurd rfl hc
      | enter opensFrame => exact absurd rfl hc
      | leave => exact absurd rfl hc

end Command

/-! ## Declarations and expressions -/

namespace Event

variable {stays : Nat → Bool} {es es' : List Event}

theorem thinned_declared (h : List.Forall₂ (Thinned stays) es es') :
    List.Forall₂ (fun d d' : Declared => d'.symbol = d.symbol.thin stays ∧
        d'.isConst = d.isConst ∧ d'.location.slot?.isSome = d.location.slot?.isSome)
      (declared es) (declared es') := by
  induction h with
  | nil => exact .nil
  | cons hab _ ih =>
    cases hab with
    | visit v v' he hs hi hf => exact ih
    | declare d d' hs hc hl => exact .cons ⟨hs, hc, hl⟩ ih

theorem thinned_visits (h : List.Forall₂ (Thinned stays) es es') :
    List.Forall₂ (fun v v' : Visit => v'.expr = v.expr ∧ v'.scope = v.scope.thin stays ∧
        v'.around.initializerOf = v.around.initializerOf.map (thinId stays) ∧
        v'.around.function.isSome = v.around.function.isSome)
      (visits es) (visits es') := by
  induction h with
  | nil => exact .nil
  | cons hab _ ih =>
    cases hab with
    | visit v v' he hs hi hf => exact .cons ⟨he, hs, hi, hf⟩ ih
    | declare d d' hs hc hl => exact ih

theorem declared_filter_stays (stays : Nat → Bool) (es : List Event) :
    declared (es.filter (·.stays stays)) = (declared es).filter fun d => stays d.symbol.id := by
  unfold declared
  rw [List.filterMap_filter, List.filter_filterMap]
  refine List.filterMap_congr fun e _ => ?_
  cases e with
  | visit v => simp [declared?]
  | declare d => rfl

theorem visits_filter_stays (stays : Nat → Bool) (es : List Event) :
    visits (es.filter (·.stays stays)) =
      (visits es).filter fun v => v.around.initializerOf.all stays := by
  unfold visits
  rw [List.filterMap_filter, List.filter_filterMap]
  refine List.filterMap_congr fun e _ => ?_
  cases e with
  | visit v => rfl
  | declare d => simp [visit?]

end Event

end ShaderMorph
