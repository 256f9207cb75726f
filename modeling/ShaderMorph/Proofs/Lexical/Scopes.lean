-- The scopes of a walk are the lexical ones. The script of a program goes along
-- its way command by command, and at each of them the scope binds what the
-- trail sees. So with every event comes a scope that binds the declarations met
-- before whose extent the event lies in, and no others.
import ShaderMorph.Proofs.Lexical.Statements
import ShaderMorph.Proofs.Walk.Matching

namespace ShaderMorph

/-! ## Where events stand -/

/-- The spots of what is met at a waypoint: one for each node of the expression,
and one for the declaration of a variable. -/
def Waypoint.spots : Waypoint → List Spot
  | .stop (.variable l) root => List.replicate (Expr.sizeOption root + 1) (.variable l)
  | .stop σ root => List.replicate (Expr.sizeOption root) σ
  | .enter _ => []
  | .leave => []

/-- The spots of all that a walk meets, in order. -/
def Program.spots (p : Program) : List Spot := p.waypoints.flatMap (·.spots)

/-- A declaration stands at the spot of its variable, and a visited expression is
in the one that stands there. -/
def Event.StandsAt (σ : Spot) (root : Option Expr) : Event → Prop
  | .declare d => σ = .variable d.location
  | .visit v => ∃ e, root = some e ∧ v.expr ∈ e.preorder

/-- An event at a spot, after others: the scope that comes with it binds the
declarations that were met and whose extent it lies in, and it has as many frames
as are open there. -/
structure Program.Lexical (p : Program) (earlier : List Event) (e : Event) (σ : Spot) : Prop where
  stands : e.StandsAt σ (p.rootAt? σ)
  binds : ∀ d ∈ p.declared, e.scope.binds d.symbol.id = true ↔
    .declare d ∈ earlier ∧ p.Reaches d.location σ
  depth : e.scope.depth = p.openFrames σ

/-! ## The script goes along the way -/

/-- What a command does at a waypoint. -/
inductive Command.Fits : Command → Waypoint → Prop
  | value (around : Surroundings) (e : Expr) (q : StmtPath) :
    Fits (.expr around e) (.stop (.value q) (some e))
  | header (around : Surroundings) (e : Expr) (q : StmtPath) (part : ForHeaderSlot) :
    Fits (.expr around e) (.stop (.header q part) (some e))
  | declare (v : Declarator) : Fits (.declare v) (.stop (.variable v.location) v.initializer)
  | enter (opensFrame : Bool) : Fits (.enter opensFrame) (.enter opensFrame)
  | leave : Fits .leave .leave

open Command (Fits)

theorem Command.fits_within {cs : List Command} {ws : List Waypoint} (o : Bool)
    (h : List.Forall₂ Fits cs ws) :
    List.Forall₂ Fits (.enter o :: (cs ++ [.leave])) (.enter o :: (ws ++ [.leave])) :=
  .cons (.enter o) (List.rel_append h (.cons .leave .nil))

theorem VariableGroup.script_fits (around : Surroundings) (kind : SymbolKind)
    (locate : Nat → DeclLocation) (g : VariableGroup) :
    List.Forall₂ Fits (g.script around kind locate) (Waypoint.variables (g.sites locate)) := by
  have hmembers : ∀ (vs : List Variable) (member : Nat),
      List.Forall₂ Fits (g.scriptMembers around kind locate member vs)
        (Waypoint.variables ((vs.zipIdx member).map fun a => (locate a.2, a.1.initializer))) := by
    intro vs
    induction vs with
    | nil => exact fun _ => .nil
    | cons v vs ih =>
      intro member
      exact .cons (.declare (g.declarator around kind locate member v)) (ih (member + 1))
  exact hmembers g.members 0

theorem Parameter.script_fits (function : Nat) (qs : List Parameter) :
    List.Forall₂ Fits (scriptAll function 0 qs) (Waypoint.variables (sites function qs)) := by
  have hall : ∀ (qs : List Parameter) (index : Nat),
      List.Forall₂ Fits (scriptAll function index qs)
        (Waypoint.variables ((qs.zipIdx index).filterMap fun a =>
          a.1.name.map fun _ => (.parameter function a.2, none))) := by
    intro qs
    induction qs with
    | nil => exact fun _ => .nil
    | cons q qs ih =>
      intro index
      cases hname : q.name with
      | none => simpa [scriptAll, hname] using ih (index + 1)
      | some name =>
        have hq := Fits.declare
          ⟨.plain, .parameter, .parameter function index, false, q.fullType, name, none⟩
        simpa [scriptAll, hname, Waypoint.variables] using And.intro hq (ih (index + 1))
  exact hall qs 0

theorem Expr.script_fits_value (around : Surroundings) (q : StmtPath) (e : Option Expr) :
    List.Forall₂ Fits (scriptOption around e) (Waypoint.option (.value q) e) := by
  cases e with
  | none => exact .nil
  | some e => exact .cons (.value around e q) .nil

theorem Expr.script_fits_header (around : Surroundings) (q : StmtPath) (part : ForHeaderSlot)
    (e : Option Expr) :
    List.Forall₂ Fits (scriptOption around e) (Waypoint.option (.header q part) e) := by
  cases e with
  | none => exact .nil
  | some e => exact .cons (.header around e q part) .nil

namespace Stmt

variable (around : Surroundings)

mutual

theorem script_fits : (s : Stmt) → (q : StmtPath) → (inList : Bool) →
    List.Forall₂ Fits (s.script around q inList) (s.waypoints q inList)
  | .block stmts true, q, _ => by
    simpa only [script, waypoints, if_true] using
      Command.fits_within true (scriptAll_fits stmts q 0)
  | .block stmts false, q, _ => by
    simpa [script, waypoints] using scriptAll_fits stmts q 0
  | .decl g, q, inList => by
    simpa only [script, waypoints] using g.script_fits around .local _
  | .expr value, q, _ => .cons (.value around value q) .nil
  | .ifThen cond thenBranch, q, _ =>
    .cons (.value around cond q)
      (Command.fits_within false (script_fits thenBranch (q.child 0) false))
  | .ifElse cond thenBranch elseBranch, q, _ => by
    have hthen := Command.fits_within false (script_fits thenBranch (q.child 0) false)
    have helse := Command.fits_within false (script_fits elseBranch (q.child 1) false)
    have h := List.Forall₂.cons (Fits.value around cond q) (List.rel_append hthen helse)
    simpa [script, waypoints] using h
  | .forLoop init guard increment body, q, _ => by
    have hguard := Expr.script_fits_header { around with forHeader := some .guard } q .guard guard
    have hincrement :=
      Expr.script_fits_header { around with forHeader := some .increment } q .increment increment
    have h := Command.fits_within true (List.rel_append (script_fits init (q.child 0) false)
      (List.rel_append hguard
        (List.rel_append hincrement (script_fits body (q.child 1) false))))
    simpa only [script, waypoints, List.append_assoc] using h
  | .whileLoop cond body, q, _ =>
    .cons (.value around cond q) (Command.fits_within false (script_fits body (q.child 0) false))
  | .doWhile body cond, q, _ => by
    have hbody := Command.fits_within false (script_fits body (q.child 0) false)
    have h := List.rel_append hbody (.cons (Fits.value around cond q) .nil)
    simpa [script, waypoints] using h
  | .ret value, q, _ => Expr.script_fits_value around q value
  | .breakLoop, _, _ => .nil
  | .continueLoop, _, _ => .nil
  | .discard, _, _ => .nil
  | .empty, _, _ => .nil

theorem scriptAll_fits : (ss : List Stmt) → (q : StmtPath) → (slot : Nat) →
    List.Forall₂ Fits (scriptAll around ss q slot) (waypointsAll ss q slot)
  | [], _, _ => .nil
  | s :: ss, q, slot =>
    List.rel_append (script_fits s (q.child slot) true) (scriptAll_fits ss q (slot + 1))

end

end Stmt

theorem Function.script_fits (index : Nat) (f : Function) :
    List.Forall₂ Fits (f.script index) (f.waypoints index) := by
  have hbody := Stmt.scriptAll_fits { Surroundings.plain with function := some index }
    f.body.stmts ⟨index, []⟩ 0
  have h := Command.fits_within true
    (List.rel_append (Parameter.script_fits index f.prototype.parameters)
      (Command.fits_within f.body.opensFrame hbody))
  simpa [script, waypoints] using h

theorem Declaration.scriptAll_fits (version : Version) (index : Nat) (ds : List Declaration) :
    List.Forall₂ Fits (scriptAll version index ds) (waypointsAll index ds) := by
  induction ds generalizing index with
  | nil => exact .nil
  | cons d ds ih =>
    have hd : List.Forall₂ Fits (d.script version index) (d.waypoints index) := by
      cases d with
      | «variables» g => exact g.script_fits _ .global (.global index)
      | function f => exact f.script_fits index
      | prototype head => exact .nil
    exact List.rel_append hd (ih (index + 1))

theorem Program.script_fits (p : Program) : List.Forall₂ Fits p.script p.waypoints :=
  Declaration.scriptAll_fits p.version 0 p.declarations

/-! ## Scopes and trails -/

/-- A scope of as many frames, that binds the declarations at these locations. -/
def ScopeTree.Pictured (ds : List Declared) (scope : ScopeTree) (a : List DeclLocation × Nat) :
    Prop :=
  List.Forall₂ (fun u l => ∃ d ∈ ds, d.symbol = u ∧ d.location = l) scope.symbols a.1 ∧
    scope.depth = a.2

theorem ScopeTree.Pictured.mono {ds : List Declared} {scope : ScopeTree}
    {a : List DeclLocation × Nat} (h : scope.Pictured ds a) (more : List Declared) :
    scope.Pictured (ds ++ more) a := by
  refine ⟨h.1.imp ?_, h.2⟩
  rintro u l ⟨d, hd, hsymbol, hlocation⟩
  exact ⟨d, List.mem_append_left _ hd, hsymbol, hlocation⟩

/-- The machine and the trail have come equally far, once `ds` were declared. -/
structure WalkState.Tracked (ds : List Declared) (s : WalkState) (t : Trail) : Prop where
  met : ∀ l, l ∈ t.met ↔ ∃ d ∈ ds, d.location = l
  scope : s.scope.Pictured ds (t.names, t.depth)
  kept : List.Forall₂ (ScopeTree.Pictured ds) s.kept t.kept

namespace WalkState.Tracked

variable {ds : List Declared} {s : WalkState} {t : Trail}

theorem start : Tracked [] .start .start := ⟨by simp [Trail.start], ⟨.nil, rfl⟩, .nil⟩

/-- One command, and the waypoint that it fits. -/
theorem next (h : Tracked ds s t) {c : Command} {w : Waypoint} (hfits : c.Fits w)
    (heads : List Prototype) :
    Tracked (ds ++ Event.declared (c.events heads s)) (c.next s) (t.next w) := by
  cases hfits with
  | value around e q | header around e q part =>
    rw [Command.events, Event.declared_map_visit, List.append_nil]
    exact ⟨h.met, h.scope, h.kept⟩
  | declare v =>
    rw [Command.events, Event.declared_append, Event.declared_map_visit, List.nil_append]
    refine ⟨fun l => ?_, ⟨.cons ?_ (h.scope.mono _).1, h.scope.2⟩,
      h.kept.imp fun _ _ hpictured => hpictured.mono _⟩
    · simp only [Trail.next, Trail.pass, List.mem_cons, h.met, List.mem_append,
        Event.declared_cons_declare, Event.declared_nil, List.not_mem_nil, or_false]
      constructor
      · rintro (rfl | ⟨d, hd, rfl⟩)
        · exact ⟨v.declared s, Or.inr rfl, rfl⟩
        · exact ⟨d, Or.inl hd, rfl⟩
      · rintro ⟨d, hd | rfl, rfl⟩
        · exact Or.inr ⟨d, hd, rfl⟩
        · exact Or.inl rfl
    · exact ⟨v.declared s, by simp, rfl, rfl⟩
  | enter opensFrame =>
    rw [Command.events, Event.declared_nil, List.append_nil]
    refine ⟨h.met, ?_, .cons h.scope h.kept⟩
    cases opensFrame
    · exact h.scope
    · exact ⟨h.scope.1, congrArg (· + 1) h.scope.2⟩
  | leave =>
    rw [Command.events, Event.declared_nil, List.append_nil]
    obtain ⟨scope, kept, ordinal, id⟩ := s
    obtain ⟨names, met, depth, kept'⟩ := t
    obtain ⟨hmet, hscope, hkept⟩ := h
    cases hkept with
    | nil => exact ⟨hmet, hscope, .nil⟩
    | cons hfirst hkept => exact ⟨hmet, hfirst, hkept⟩

end WalkState.Tracked

/-! ## Events -/

/-- The visits of an expression, after which nothing is declared yet. -/
theorem Expr.visits_stand (e : Expr) (heads : List Prototype) (scope : ScopeTree)
    (around : Surroundings) (k : Nat) (σ : Spot) {i : Nat} {x : Event}
    (h : ((e.visits heads scope around none k).map Event.visit)[i]? = some x) :
    i < e.size ∧ x.StandsAt σ (some e) := by
  rw [List.getElem?_map, Option.map_eq_some_iff] at h
  obtain ⟨v, hv, rfl⟩ := h
  obtain ⟨hlt, -⟩ := List.getElem?_eq_some_iff.1 hv
  rw [length_visits] at hlt
  refine ⟨hlt, e, rfl, ?_⟩
  rw [← e.visits_expr heads scope around none k]
  exact List.mem_map_of_mem (List.mem_of_getElem? hv)

theorem Event.declared_take_visits (vs : List Visit) (i : Nat) :
    declared ((vs.map Event.visit).take i) = [] := by
  rw [← List.map_take, declared_map_visit]

/-- What a declarator meets: the expressions of its initializer, and then the
declaration. -/
theorem Declarator.events_stand (v : Declarator) (heads : List Prototype) (s : WalkState) {i : Nat}
    {x : Event} (h : ((Command.declare v).events heads s)[i]? = some x) :
    i ≤ Expr.sizeOption v.initializer ∧
      x.StandsAt (.variable v.location) v.initializer := by
  rw [Command.events] at h
  cases hi : v.initializer with
  | none =>
    simp only [visits, Expr.visitsOption, hi, List.map_nil, List.nil_append] at h
    obtain ⟨hlt, rfl⟩ := List.getElem?_eq_some_iff.1 h
    simp only [List.length_singleton] at hlt
    obtain rfl : i = 0 := by omega
    exact ⟨Nat.le_refl 0, rfl⟩
  | some e =>
    simp only [visits, Expr.visitsOption, hi, List.getElem?_append, List.length_map,
      Expr.length_visits] at h
    rw [Expr.sizeOption]
    split at h
    · obtain ⟨hlt, hstands⟩ := e.visits_stand heads _ _ _ (.variable v.location) h
      exact ⟨Nat.le_of_lt hlt, hstands⟩
    · next hge =>
      obtain ⟨hlt, rfl⟩ := List.getElem?_eq_some_iff.1 h
      simp only [List.length_singleton] at hlt
      exact ⟨by omega, by simp [Event.StandsAt, declared]⟩

namespace Command

theorem declared_take_events (heads : List Prototype) (s : WalkState) (v : Declarator) {i : Nat}
    (h : i ≤ Expr.sizeOption v.initializer) :
    Event.declared (((Command.declare v).events heads s).take i) = [] := by
  have hlength : ((v.visits heads s).map Event.visit).length = Expr.sizeOption v.initializer := by
    cases hi : v.initializer with
    | none => simp [Declarator.visits, Expr.visitsOption, hi, Expr.sizeOption]
    | some e =>
      simp [Declarator.visits, Expr.visitsOption, hi, Expr.sizeOption, Expr.length_visits]
  rw [events, List.take_append_of_le_length (by rwa [hlength]), Event.declared_take_visits]

/-- What a command meets stands at the spots of its waypoint, and nothing is
declared before the last of it. -/
theorem Fits.events {c : Command} {w : Waypoint} (h : c.Fits w) (heads : List Prototype)
    (s : WalkState) :
    (c.events heads s).length = w.spots.length ∧
      ∀ i e, (c.events heads s)[i]? = some e →
        Event.declared ((c.events heads s).take i) = [] ∧
          ∃ σ root, w = .stop σ root ∧ w.spots[i]? = some σ ∧ e.StandsAt σ root := by
  cases h with
  | value around x q | header around x q part =>
    refine ⟨by simp [Command.events, Waypoint.spots, Expr.sizeOption, Expr.length_visits],
      fun i e he => ⟨Event.declared_take_visits _ i, ?_⟩⟩
    obtain ⟨hlt, hstands⟩ := x.visits_stand heads s.scope around s.ordinal _ he
    exact ⟨_, _, rfl, by simp [Waypoint.spots, Expr.sizeOption, hlt], hstands⟩
  | declare v =>
    refine ⟨?_, fun i e he => ?_⟩
    · cases hi : v.initializer <;>
        simp [Command.events, Declarator.visits, Expr.visitsOption, hi, Waypoint.spots,
          Expr.sizeOption, Expr.length_visits]
    · obtain ⟨hle, hstands⟩ := v.events_stand heads s he
      refine ⟨declared_take_events heads s v hle, _, _, rfl, ?_, hstands⟩
      simp [Waypoint.spots, Nat.lt_succ_of_le hle]
  | enter opensFrame => exact ⟨rfl, fun i e he => by cases he⟩
  | leave => exact ⟨rfl, fun i e he => by cases he⟩

end Command

/-- Once `ds` were declared, the event stands at the spot, and a trail that is
right there has come as far as the scope of the event. -/
def Event.Charted (p : Program) (ds : List Declared) (e : Event) (σ : Spot) : Prop :=
  ∃ t : Trail, t.Charts p σ (p.rootAt? σ) ∧ e.StandsAt σ (p.rootAt? σ) ∧
    e.scope.Pictured ds (t.names, t.depth) ∧ ∀ l, l ∈ t.met ↔ ∃ d ∈ ds, d.location = l

/-- All that a run meets is charted. -/
theorem Command.run_charted {p : Program} {cs : List Command} {ws : List Waypoint}
    (hfits : List.Forall₂ Fits cs ws) {ds : List Declared} {s : WalkState} {t : Trail}
    (ht : s.Tracked ds t) (halong : Trail.Along (Trail.Charts p) ws t) (heads : List Prototype)
    {i : Nat} {e : Event} (he : (run heads cs s)[i]? = some e) :
    ∃ σ, (ws.flatMap (·.spots))[i]? = some σ ∧
      e.Charted p (ds ++ Event.declared ((run heads cs s).take i)) σ := by
  induction hfits generalizing ds s t i with
  | nil => cases he
  | @cons c w cs ws hcw _ ih =>
    obtain ⟨hlength, hevents⟩ := hcw.events heads s
    rw [run, List.getElem?_append] at he
    rw [run, List.flatMap_cons, List.getElem?_append, ← hlength]
    split at he
    · next hlt =>
      rw [if_pos hlt, List.take_append_of_le_length (Nat.le_of_lt hlt)]
      obtain ⟨hnone, σ, root, rfl, hspot, hstands⟩ := hevents i e he
      obtain ⟨hcharts, -⟩ := halong
      obtain rfl : p.rootAt? σ = root := hcharts.root
      rw [hnone, List.append_nil]
      refine ⟨σ, hspot, t, hcharts, hstands, ?_, ht.met⟩
      rw [events_scope (List.mem_of_getElem? he)]
      exact ht.scope
    · next hge =>
      have hrest : Trail.Along (Trail.Charts p) ws (t.next w) := by
        cases w with
        | stop σ root => exact halong.2
        | enter o => exact halong
        | leave => exact halong
      rw [if_neg hge, List.take_append, List.take_of_length_le (Nat.le_of_not_lt hge),
        Event.declared_append, ← List.append_assoc]
      exact ih (ht.next hcw heads) hrest he

/-! ## The scopes of a walk -/

namespace Program

variable {p : Program}

/-- What the trail tells, told by ids. -/
theorem lexical_of_charted {i : Nat} {e : Event} {σ : Spot}
    (h : e.Charted p (Event.declared (p.walk.take i)) σ) : p.Lexical (p.walk.take i) e σ := by
  obtain ⟨t, hcharts, hstands, ⟨hscope, hdepth⟩, hmet⟩ := h
  have hdeclared : ∀ d ∈ Event.declared (p.walk.take i), d ∈ p.declared := fun d hd =>
    mem_declared.2 (List.mem_of_mem_take (Event.mem_declared.1 hd))
  refine ⟨hstands, fun d hd => ?_, hdepth.trans hcharts.depth⟩
  rw [ScopeTree.binds_iff]
  constructor
  · rintro ⟨u, hu, hid⟩
    obtain ⟨l, hl, d', hd', rfl, rfl⟩ := forall₂_left hscope hu
    obtain rfl := declared_ext (hdeclared d' hd') hd hid
    have hreach := (hcharts.sees d'.location (hcharts.known _ hl)).1 hl
    exact ⟨Event.mem_declared.1 hd', hreach⟩
  · rintro ⟨hearlier, hreach⟩
    have hd' : d ∈ Event.declared (p.walk.take i) := Event.mem_declared.2 hearlier
    have hl := (hcharts.sees d.location ((hmet _).2 ⟨d, hd', rfl⟩)).2 hreach
    obtain ⟨u, hu, d', hd', rfl, hlocation⟩ := forall₂_right hscope hl
    obtain rfl := declared_location_ext (hdeclared d' hd') hd hlocation
    exact ⟨_, hu, rfl⟩

/-- The scopes of a walk are the lexical ones: whatever is met stands at a spot,
the scope there binds the declarations met before that reach the spot, and it is
as deep as there are frames open around. -/
theorem scopes_lexical (p : Program) :
    ∀ i : Fin p.walk.length, ∃ σ, p.spots[i.val]? = some σ ∧
      p.Lexical (p.walk.take i.val) p.walk[i.val] σ := by
  rintro ⟨i, hi⟩
  have he : (Command.run p.prototypes p.script .start)[i]? = some p.walk[i] := by
    rw [← walk_eq_run]
    exact List.getElem?_eq_getElem hi
  obtain ⟨σ, hσ, hcharted⟩ :=
    Command.run_charted p.script_fits .start p.along p.prototypes he
  rw [List.nil_append, ← walk_eq_run] at hcharted
  exact ⟨σ, hσ, lexical_of_charted hcharted⟩

end Program

end ShaderMorph
