-- The way of a walk through a program, without scopes: it passes spots, and
-- carries the list of the locations whose names it sees. That list is right at
-- every spot: of the declarations passed so far, it has the ones that reach
-- the spot. This is proved from the whole down to its parts. Where a statement
-- starts, the list is right for all that is inside it, and where it ends, the
-- list has grown by what leaks out.
import ShaderMorph.Proofs.Lexical.Extent

namespace ShaderMorph

/-! ## The way through a program -/

/-- What a walk passes. -/
inductive Waypoint
  /-- A spot, and the expression there. -/
  | stop (spot : Spot) (root : Option Expr)
  /-- What is declared from here on is forgotten at the next `leave`. -/
  | enter (opensFrame : Bool)
  | leave

/-- The variables of a group, with their locations and initializers. -/
def VariableGroup.sites (locate : Nat → DeclLocation) (g : VariableGroup) :
    List (DeclLocation × Option Expr) :=
  g.members.zipIdx.map fun a => (locate a.2, a.1.initializer)

/-- The parameters that have a name. -/
def Parameter.sites (function : Nat) (qs : List Parameter) : List (DeclLocation × Option Expr) :=
  qs.zipIdx.filterMap fun a => a.1.name.map fun _ => (.parameter function a.2, none)

def Waypoint.variables (sites : List (DeclLocation × Option Expr)) : List Waypoint :=
  sites.map fun a => .stop (.variable a.1) a.2

/-- An expression that may be missing. -/
def Waypoint.option (σ : Spot) (e : Option Expr) : List Waypoint :=
  e.toList.map fun e => .stop σ (some e)

namespace Stmt

mutual

def waypoints : (s : Stmt) → (path : StmtPath) → (inList : Bool) → List Waypoint
  | .block stmts opensFrame, path, _ =>
    if opensFrame then .enter true :: (waypointsAll stmts path 0 ++ [.leave])
    else waypointsAll stmts path 0
  | .decl group, path, inList =>
    Waypoint.variables (group.sites (if inList then .block path else .nested path))
  | .expr value, path, _ => [.stop (.value path) (some value)]
  | .ifThen cond thenBranch, path, _ =>
    .stop (.value path) (some cond) ::
      .enter false :: (thenBranch.waypoints (path.child 0) false ++ [.leave])
  | .ifElse cond thenBranch elseBranch, path, _ =>
    .stop (.value path) (some cond) ::
      (.enter false :: (thenBranch.waypoints (path.child 0) false ++ [.leave]) ++
        .enter false :: (elseBranch.waypoints (path.child 1) false ++ [.leave]))
  | .forLoop init guard increment body, path, _ =>
    .enter true ::
      ((init.waypoints (path.child 0) false ++
        (Waypoint.option (.header path .guard) guard ++
          (Waypoint.option (.header path .increment) increment ++
            body.waypoints (path.child 1) false))) ++ [.leave])
  | .whileLoop cond body, path, _ =>
    .stop (.value path) (some cond) ::
      .enter false :: (body.waypoints (path.child 0) false ++ [.leave])
  | .doWhile body cond, path, _ =>
    .enter false :: (body.waypoints (path.child 0) false ++ [.leave]) ++
      [.stop (.value path) (some cond)]
  | .ret value, path, _ => Waypoint.option (.value path) value
  | .breakLoop, _, _ => []
  | .continueLoop, _, _ => []
  | .discard, _, _ => []
  | .empty, _, _ => []

def waypointsAll : (ss : List Stmt) → (path : StmtPath) → (slot : Nat) → List Waypoint
  | [], _, _ => []
  | s :: ss, path, slot => s.waypoints (path.child slot) true ++ waypointsAll ss path (slot + 1)

end

end Stmt

def Function.waypoints (index : Nat) (f : Function) : List Waypoint :=
  .enter true :: ((Waypoint.variables (Parameter.sites index f.prototype.parameters) ++
    .enter f.body.opensFrame ::
      (Stmt.waypointsAll f.body.stmts ⟨index, []⟩ 0 ++ [.leave])) ++ [.leave])

def Declaration.waypoints (index : Nat) : Declaration → List Waypoint
  | .variables group => Waypoint.variables (group.sites (.global index))
  | .function f => f.waypoints index
  | .prototype _ => []

def Declaration.waypointsAll : (index : Nat) → List Declaration → List Waypoint
  | _, [] => []
  | index, d :: ds => d.waypoints index ++ waypointsAll (index + 1) ds

def Program.waypoints (p : Program) : List Waypoint :=
  Declaration.waypointsAll 0 p.declarations

/-! ## Trails -/

/-- What is carried along: the locations whose names are seen, all that were
passed, the number of open frames, and the names and frames to go back to. -/
structure Trail where
  names : List DeclLocation
  met : List DeclLocation
  depth : Nat
  kept : List (List DeclLocation × Nat)

def Trail.start : Trail := ⟨[], [], 0, []⟩

namespace Trail

/-- A variable is seen from its declaration on. -/
def pass (t : Trail) : Spot → Trail
  | .variable l => { t with names := l :: t.names, met := l :: t.met }
  | .value _ => t
  | .header _ _ => t

def enter (t : Trail) (opensFrame : Bool) : Trail :=
  { t with
    depth := if opensFrame then t.depth + 1 else t.depth
    kept := (t.names, t.depth) :: t.kept }

def next (t : Trail) : Waypoint → Trail
  | .stop σ _ => t.pass σ
  | .enter opensFrame => t.enter opensFrame
  | .leave =>
    match t.kept with
    | [] => t
    | (names, depth) :: kept => { t with names, depth, kept }

/-- The trail after some waypoints. -/
def final (t : Trail) (ws : List Waypoint) : Trail := ws.foldl next t

/-- More variables, the last one first. -/
def add (t : Trail) (ls : List DeclLocation) : Trail :=
  { t with names := ls ++ t.names, met := ls ++ t.met }

/-- The trail of `t'`, with the names and the frames of `t`. -/
def back (t t' : Trail) : Trail := { t with met := t'.met }

/-- At each spot that is passed, this holds. -/
def Along (P : Spot → Option Expr → Trail → Prop) : List Waypoint → Trail → Prop
  | [], _ => True
  | .stop σ e :: ws, t => P σ e t ∧ Along P ws (t.pass σ)
  | w :: ws, t => Along P ws (t.next w)

variable {P : Spot → Option Expr → Trail → Prop} {ws vs : List Waypoint} {t t' : Trail}

@[simp] theorem final_nil (t : Trail) : t.final [] = t := rfl

@[simp] theorem final_cons (t : Trail) (w : Waypoint) (ws : List Waypoint) :
    t.final (w :: ws) = (t.next w).final ws := rfl

@[simp] theorem final_append (t : Trail) (ws vs : List Waypoint) :
    t.final (ws ++ vs) = (t.final ws).final vs := List.foldl_append

@[simp] theorem along_nil : Along P [] t := trivial

@[simp] theorem along_stop {σ : Spot} {e : Option Expr} :
    Along P (.stop σ e :: ws) t ↔ P σ e t ∧ Along P ws (t.pass σ) := Iff.rfl

@[simp] theorem along_enter {o : Bool} :
    Along P (.enter o :: ws) t ↔ Along P ws (t.enter o) := Iff.rfl

@[simp] theorem along_leave : Along P (.leave :: ws) t ↔ Along P ws (t.next .leave) := Iff.rfl

@[simp] theorem along_append : Along P (ws ++ vs) t ↔ Along P ws t ∧ Along P vs (t.final ws) := by
  induction ws generalizing t with
  | nil => simp
  | cons w ws ih => cases w <;> simp [ih, and_assoc, next]

/-- The way back to the last `enter`. -/
theorem final_within {o : Bool} (h : ((t.enter o).final ws).kept = (t.enter o).kept) :
    t.final (.enter o :: (ws ++ [.leave])) = t.back ((t.enter o).final ws) := by
  rw [final_cons, final_append, final_cons, final_nil]
  change ((t.enter o).final ws).next .leave = _
  generalize (t.enter o).final ws = u at h
  obtain ⟨names, met, depth, kept⟩ := u
  obtain rfl : kept = (t.names, t.depth) :: t.kept := h
  rfl

theorem along_within {o : Bool} (h : Along P ws (t.enter o)) :
    Along P (.enter o :: (ws ++ [.leave])) t := by
  simpa using h

/-! ## What is right at a spot -/

/-- Of what was passed, the trail sees just what reaches a spot. -/
def Sees (p : Program) (t : Trail) (σ : Spot) : Prop :=
  ∀ l ∈ t.met, l ∈ t.names ↔ p.Reaches l σ

/-- The trail tells what there is to tell about a spot. -/
structure Charts (p : Program) (σ : Spot) (root : Option Expr) (t : Trail) : Prop where
  root : p.rootAt? σ = root
  sees : t.Sees p σ
  known : ∀ l ∈ t.names, l ∈ t.met
  depth : t.depth = p.openFrames σ

/-- At the start of the statement at `q`. -/
structure Ready (p : Program) (q : StmtPath) (t : Trail) : Prop where
  sees : ∀ σ, σ.Inside q → t.Sees p σ
  fresh : ∀ l ∈ t.met, ¬l.Under q
  known : ∀ l ∈ t.names, l ∈ t.met
  depth : t.depth = p.framesAround q

/-- Between `t` and `t'` lies the statement at `q`. -/
structure Done (p : Program) (q : StmtPath) (t t' : Trail) : Prop where
  old : ∀ l ∈ t.met, l ∈ t'.met
  new : ∀ l ∈ t'.met, l ∈ t.met ∨ l.Under q
  names : ∀ l, l ∈ t'.names ↔ l ∈ t.names ∨ (l ∈ t'.met ∧ p.Outlives l q)
  depth : t'.depth = t.depth
  kept : t'.kept = t.kept

/-- Before the parts of the statement at `q`, from the one numbered `slot` on. -/
structure ReadyFrom (p : Program) (q : StmtPath) (slot : Nat) (t : Trail) : Prop where
  sees : ∀ j ≥ slot, ∀ σ, σ.Inside (q.child j) → t.Sees p σ
  fresh : ∀ j ≥ slot, ∀ l ∈ t.met, ¬l.Under (q.child j)
  known : ∀ l ∈ t.names, l ∈ t.met
  depth : ∀ j, t.depth = p.framesAround (q.child j)

/-- Between `t` and `t'` lie the parts of the statement at `q`, from the one
numbered `slot` on. -/
structure DoneFrom (p : Program) (q : StmtPath) (slot : Nat) (t t' : Trail) : Prop where
  old : ∀ l ∈ t.met, l ∈ t'.met
  new : ∀ l ∈ t'.met, l ∈ t.met ∨ ∃ j ≥ slot, l.Under (q.child j)
  names : ∀ l, l ∈ t'.names ↔ l ∈ t.names ∨ (l ∈ t'.met ∧ ∃ j ≥ slot, p.Outlives l (q.child j))
  depth : t'.depth = t.depth
  kept : t'.kept = t.kept

variable {p : Program} {q : StmtPath} {σ : Spot} {s : Stmt} {slot : Nat}

/-! ## From one part to the next -/

/-- What was passed before a statement is not among what it adds. -/
theorem Done.names_old (hd : Done p q t t') (hfresh : ∀ l ∈ t.met, ¬l.Under q) {l : DeclLocation}
    (hl : l ∈ t.met) : l ∈ t'.names ↔ l ∈ t.names := by
  rw [hd.names]
  exact or_iff_left fun h => hfresh l hl h.2.under

/-- At what follows a statement, its names are seen as far as they leak out. -/
theorem Done.sees (hd : Done p q t t') (hfresh : ∀ l ∈ t.met, ¬l.Under q)
    (hknown : ∀ l ∈ t.names, l ∈ t.met) (hσ : ¬σ.Inside q) (hfollows : p.Follows q σ)
    (hs : t.Sees p σ) : t'.Sees p σ := by
  intro l hl
  rcases hd.new l hl with hold | hunder
  · rw [hd.names_old hfresh hold]
    exact hs l hold
  · have hnot : l ∉ t.names := fun h => hfresh l (hknown l h) hunder
    rw [hd.names, Program.reaches_iff hunder hσ]
    simp [hnot, hl, hfollows]

/-- At what does not follow a statement, its names are not to be seen. -/
theorem sees_back (hnew : ∀ l ∈ t'.met, l ∈ t.met ∨ (l ∉ t.names ∧ ¬p.Reaches l σ))
    (hs : t.Sees p σ) : (t.back t').Sees p σ := by
  intro l hl
  rcases hnew l hl with hold | ⟨hnot, hreach⟩
  · exact hs l hold
  · exact ⟨fun h => absurd h hnot, fun h => absurd h hreach⟩

theorem Done.known (hd : Done p q t t') (hknown : ∀ l ∈ t.names, l ∈ t.met) :
    ∀ l ∈ t'.names, l ∈ t'.met := by
  intro l hl
  rcases (hd.names l).1 hl with h | h
  · exact hd.old l (hknown l h)
  · exact h.1

theorem ReadyFrom.ready (h : ReadyFrom p q slot t) : Ready p (q.child slot) t :=
  ⟨h.sees slot (Nat.le_refl _), h.fresh slot (Nat.le_refl _), h.known, h.depth slot⟩

/-- Nothing is behind the last of the parts. -/
theorem DoneFrom.refl (p : Program) (q : StmtPath) (slot : Nat) (t : Trail)
    (h : ReadyFrom p q slot t) : DoneFrom p q slot t t := by
  refine ⟨fun _ hl => hl, fun _ hl => Or.inl hl, fun l => ?_, rfl, rfl⟩
  refine ⟨Or.inl, ?_⟩
  rintro (hl | ⟨hl, j, hj, hout⟩)
  · exact hl
  · exact absurd hout.under (h.fresh j hj l hl)

/-- From a part to a later one that follows it. -/
theorem ReadyFrom.sibling (h : ReadyFrom p q slot t) (hd : Done p (q.child slot) t t') {j : Nat}
    (hj : slot < j) (hfollows : ∀ σ, σ.Inside (q.child j) → p.Follows (q.child slot) σ) :
    Ready p (q.child j) t' := by
  have hready := h.ready
  refine ⟨fun σ hσ => ?_, fun l hl hunder => ?_, hd.known h.known, ?_⟩
  · have hnot : ¬σ.Inside (q.child slot) := fun hin => Nat.ne_of_lt hj (hin.child_eq hσ)
    exact hd.sees hready.fresh hready.known hnot (hfollows σ hσ)
      (h.sees j (Nat.le_of_lt hj) σ hσ)
  · rcases hd.new l hl with hold | hslot
    · exact h.fresh j (Nat.le_of_lt hj) l hold hunder
    · exact Nat.ne_of_lt hj (hslot.slot_eq hunder)
  · rw [hd.depth, h.depth j]

/-- In a list, every later part follows. -/
theorem ReadyFrom.step (h : ReadyFrom p q slot t) (hd : Done p (q.child slot) t t')
    (hlist : p.IsList q) : ReadyFrom p q (slot + 1) t' := by
  have hnext : ∀ j > slot, Ready p (q.child j) t' := fun j hj =>
    h.sibling hd hj fun σ hσ => .later hlist hj hσ
  refine ⟨fun j hj => (hnext j hj).sees, fun j hj => (hnext j hj).fresh, hd.known h.known,
    fun j => ?_⟩
  rw [hd.depth, h.depth j]

/-- One part, and then the rest. -/
theorem DoneFrom.cons {u : Trail} (hd : Done p (q.child slot) t t')
    (hrest : DoneFrom p q (slot + 1) t' u) : DoneFrom p q slot t u := by
  refine ⟨fun l hl => hrest.old l (hd.old l hl), fun l hl => ?_, fun l => ?_,
    hrest.depth.trans hd.depth, hrest.kept.trans hd.kept⟩
  · rcases hrest.new l hl with hl | ⟨j, hj, hunder⟩
    · rcases hd.new l hl with hl | hunder
      · exact Or.inl hl
      · exact Or.inr ⟨slot, Nat.le_refl _, hunder⟩
    · exact Or.inr ⟨j, Nat.le_of_succ_le hj, hunder⟩
  · rw [hrest.names, hd.names]
    constructor
    · rintro ((hl | ⟨hl, hout⟩) | ⟨hl, j, hj, hout⟩)
      · exact Or.inl hl
      · exact Or.inr ⟨hrest.old l hl, slot, Nat.le_refl _, hout⟩
      · exact Or.inr ⟨hl, j, Nat.le_of_succ_le hj, hout⟩
    · rintro (hl | ⟨hl, j, hj, hout⟩)
      · exact Or.inl (Or.inl hl)
      · rcases Nat.eq_or_lt_of_le hj with rfl | hlt
        · -- What is inside this part was not met in the later ones.
          rcases hrest.new l hl with hl | ⟨j, hj, hunder⟩
          · exact Or.inl (Or.inr ⟨hl, hout⟩)
          · exact absurd (hout.under.slot_eq hunder) (Nat.ne_of_lt hj)
        · exact Or.inr ⟨hl, j, hlt, hout⟩

/-! ## Into a statement and out of it -/

/-- Into the parts of a statement. -/
theorem Ready.enter (h : Ready p q t) (hs : p.stmtAt? q = some s) :
    ReadyFrom p q 0 (t.enter s.opensFrame) := by
  refine ⟨fun j _ σ hσ => h.sees σ hσ.of_child, fun j _ l hl hunder => ?_, h.known, fun j => ?_⟩
  · exact h.fresh l hl hunder.of_child
  · rw [Program.framesAround_child, hs, ← h.depth, Option.any_some]
    cases s.opensFrame <;> rfl

/-- Into a block that opens no frame. -/
theorem Ready.open (h : Ready p q t) (hopen : p.IsOpen q) : ReadyFrom p q 0 t := by
  obtain ⟨stmts, hs⟩ := hopen
  have hfrom := h.enter hs
  exact ⟨hfrom.sees, hfrom.fresh, hfrom.known, hfrom.depth⟩

/-- Out of a block that opens no frame: what leaks out of its parts leaks out
of it. -/
theorem DoneFrom.open (hready : Ready p q t) (hopen : p.IsOpen q) (h : DoneFrom p q 0 t t') :
    Done p q t t' := by
  refine ⟨h.old, fun l hl => ?_, fun l => ?_, h.depth, h.kept⟩
  · rcases h.new l hl with hl | ⟨j, -, hunder⟩
    · exact Or.inl hl
    · exact Or.inr hunder.of_child
  · rw [h.names]
    refine or_congr_right (and_congr_right fun hl => ?_)
    constructor
    · rintro ⟨j, -, hout⟩
      exact hout.of_child hopen
    · intro hout
      rcases h.new l hl with hold | ⟨j, hj, hunder⟩
      · exact absurd hout.under (hready.fresh l hold)
      · exact ⟨j, hj, (hout.child hunder).2⟩

/-- Out of any other statement: nothing leaks. -/
theorem Ready.close (h : Ready p q t) (hopen : ¬p.IsOpen q) (hold : ∀ l ∈ t.met, l ∈ t'.met)
    (hnew : ∀ l ∈ t'.met, l ∈ t.met ∨ ∃ j, l.Under (q.child j)) : Done p q t (t.back t') := by
  refine ⟨hold, fun l hl => ?_, fun l => ⟨Or.inl, ?_⟩, rfl, rfl⟩
  · rcases hnew l hl with hl | ⟨j, hunder⟩
    · exact Or.inl hl
    · exact Or.inr hunder.of_child
  · rintro (hl | ⟨hl, hout⟩)
    · exact hl
    · rcases hnew l hl with hl | ⟨j, hunder⟩
      · exact absurd hout.under (h.fresh l hl)
      · exact absurd (hout.child hunder).1 hopen

/-! ## Variables -/

@[simp] theorem mem_names_add {ls : List DeclLocation} {l : DeclLocation} :
    l ∈ (t.add ls).names ↔ l ∈ ls ∨ l ∈ t.names := List.mem_append

@[simp] theorem mem_met_add {ls : List DeclLocation} {l : DeclLocation} :
    l ∈ (t.add ls).met ↔ l ∈ ls ∨ l ∈ t.met := List.mem_append

/-- More variables are seen where they reach. -/
theorem Sees.add (h : t.Sees p σ) {ls : List DeclLocation} (hls : ∀ l ∈ ls, p.Reaches l σ) :
    (t.add ls).Sees p σ := by
  intro l hl
  rw [mem_names_add]
  by_cases hnew : l ∈ ls
  · exact ⟨fun _ => hls l hnew, fun _ => Or.inl hnew⟩
  · rw [or_iff_right hnew]
    exact h l ((mem_met_add.1 hl).resolve_left hnew)

theorem known_add (h : ∀ l ∈ t.names, l ∈ t.met) (ls : List DeclLocation) :
    ∀ l ∈ (t.add ls).names, l ∈ (t.add ls).met := by
  intro l hl
  exact mem_met_add.2 ((mem_names_add.1 hl).imp_right (h l))

/-- A list of variables, each seen by those after it. -/
theorem along_variables {sites : List (DeclLocation × Option Expr)}
    (hbefore : sites.Pairwise fun a b => a.1.Before b.1)
    (hroot : ∀ a ∈ sites, p.rootAt? (.variable a.1) = a.2)
    (hsees : ∀ a ∈ sites, t.Sees p (.variable a.1)) (hknown : ∀ l ∈ t.names, l ∈ t.met)
    (hdepth : ∀ a ∈ sites, t.depth = p.openFrames (.variable a.1)) :
    Along (Charts p) (Waypoint.variables sites) t ∧
      t.final (Waypoint.variables sites) = t.add (sites.map (·.1)).reverse := by
  induction sites generalizing t with
  | nil => exact ⟨trivial, rfl⟩
  | cons a sites ih =>
    obtain ⟨hfirst, hbefore⟩ := List.pairwise_cons.1 hbefore
    obtain ⟨halong, hfinal⟩ := @ih (t.add [a.1]) hbefore
      (fun b hb => hroot b (List.mem_cons_of_mem _ hb))
      (fun b hb => by
        refine (hsees b (List.mem_cons_of_mem _ hb)).add fun l hl => ?_
        rw [List.mem_singleton.1 hl]
        exact Or.inl ⟨b.1, rfl, hfirst b hb⟩)
      (known_add hknown [a.1])
      (fun b hb => hdepth b (List.mem_cons_of_mem _ hb))
    have hhead : Charts p (.variable a.1) a.2 t :=
      ⟨hroot a List.mem_cons_self, hsees a List.mem_cons_self, hknown,
        hdepth a List.mem_cons_self⟩
    refine ⟨⟨hhead, halong⟩, ?_⟩
    change (t.add [a.1]).final (Waypoint.variables sites) = _
    rw [hfinal]
    simp [add]

end Trail

theorem zipIdx_pairwise (l : List α) (k : Nat) :
    (l.zipIdx k).Pairwise fun a b => a.2 < b.2 := by
  rw [← List.pairwise_map, List.zipIdx_map_snd]
  exact List.pairwise_lt_range'

theorem VariableGroup.sites_before {locate : Nat → DeclLocation}
    (h : ∀ m m', m < m' → (locate m).Before (locate m')) (g : VariableGroup) :
    (g.sites locate).Pairwise fun a b => a.1.Before b.1 :=
  List.pairwise_map.2 ((zipIdx_pairwise g.members 0).imp fun hlt => h _ _ hlt)

theorem VariableGroup.mem_sites {locate : Nat → DeclLocation} {g : VariableGroup}
    {a : DeclLocation × Option Expr} (h : a ∈ g.sites locate) :
    ∃ m x, g.members[m]? = some x ∧ a = (locate m, x.initializer) := by
  obtain ⟨⟨x, m⟩, hx, rfl⟩ := List.mem_map.1 h
  exact ⟨m, x, List.mem_zipIdx_iff_getElem?.1 hx, rfl⟩

/-- Where the variables of a group are, the last one first. -/
theorem VariableGroup.mem_locations {locate : Nat → DeclLocation} {g : VariableGroup}
    {l : DeclLocation} (h : l ∈ ((g.sites locate).map (·.1)).reverse) : ∃ m, l = locate m := by
  obtain ⟨a, ha, rfl⟩ := List.mem_map.1 (List.mem_reverse.1 h)
  obtain ⟨m, x, -, rfl⟩ := mem_sites ha
  exact ⟨m, rfl⟩

theorem Parameter.sites_before (function : Nat) (qs : List Parameter) :
    (sites function qs).Pairwise fun a b => a.1.Before b.1 := by
  refine List.pairwise_filterMap.2 ((zipIdx_pairwise qs 0).imp ?_)
  rintro ⟨x, i⟩ ⟨y, j⟩ hlt a ha b hb
  obtain ⟨_, -, rfl⟩ := Option.map_eq_some_iff.1 ha
  obtain ⟨_, -, rfl⟩ := Option.map_eq_some_iff.1 hb
  exact ⟨rfl, hlt⟩

theorem Parameter.mem_sites {function : Nat} {qs : List Parameter} {a : DeclLocation × Option Expr}
    (h : a ∈ sites function qs) : ∃ i, a = (.parameter function i, none) := by
  obtain ⟨⟨x, i⟩, -, hx⟩ := List.mem_filterMap.1 h
  obtain ⟨_, -, rfl⟩ := Option.map_eq_some_iff.1 hx
  exact ⟨i, rfl⟩

theorem Parameter.mem_locations {function : Nat} {qs : List Parameter} {l : DeclLocation}
    (h : l ∈ ((sites function qs).map (·.1)).reverse) : ∃ i, l = .parameter function i := by
  obtain ⟨a, ha, rfl⟩ := List.mem_map.1 (List.mem_reverse.1 h)
  obtain ⟨i, rfl⟩ := mem_sites ha
  exact ⟨i, rfl⟩

end ShaderMorph
