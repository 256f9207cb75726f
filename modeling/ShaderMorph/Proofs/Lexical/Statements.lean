-- The trail is right at every spot of a program. The induction goes down from
-- the program to its functions and their statements, with one case for each
-- form of statement.
import ShaderMorph.Proofs.Lexical.Trail

namespace ShaderMorph

/-- Whether nothing follows the statements directly inside. -/
def Stmt.isolates : Stmt → Bool
  | .block _ _ => false
  | .forLoop _ _ _ _ => false
  | _ => true

namespace Program

variable {p : Program} {q : StmtPath} {s : Stmt} {i : Nat} {σ : Spot}

theorem not_isOpen (hs : p.stmtAt? q = some s) (h : ∀ stmts, s ≠ .block stmts false) :
    ¬p.IsOpen q := by
  rintro ⟨stmts, hopen⟩
  exact h stmts (Option.some.inj (hs.symm.trans hopen))

theorem not_isOpen_of_isolates (hs : p.stmtAt? q = some s) (h : s.isolates = true) :
    ¬p.IsOpen q :=
  not_isOpen hs fun stmts hblock => by simp [hblock, Stmt.isolates] at h

theorem not_follows_of_isolates (hs : p.stmtAt? q = some s) (h : s.isolates = true) :
    ¬p.Follows (q.child i) σ := by
  intro hfollows
  rcases hfollows.child_cases with
    ⟨hnil | ⟨stmts, o, hblock⟩, -⟩ | ⟨⟨_, _, _, _, hfor⟩, -⟩ | ⟨hopen, -⟩
  · obtain ⟨function, steps⟩ := q
    obtain rfl : steps = [] := hnil
    cases hs
  · obtain rfl := Option.some.inj (hs.symm.trans hblock)
    cases h
  · obtain rfl := Option.some.inj (hs.symm.trans hfor)
    cases h
  · exact not_isOpen_of_isolates hs h hopen

end Program

namespace Trail

variable {p : Program} {q : StmtPath} {s : Stmt} {σ : Spot} {slot : Nat} {t t' u : Trail}
  {ws : List Waypoint}

/-! ## Expressions -/

theorem Ready.value (h : Ready p q t) (hs : p.stmtAt? q = some s) :
    Charts p (.value q) s.value? t :=
  ⟨by simp [Program.rootAt?, hs], h.sees _ (Spot.value_inside q), h.known, h.depth⟩

/-- An expression that may be missing. -/
theorem along_option {e : Option Expr} (hpass : t.pass σ = t) (h : Charts p σ e t) :
    Along (Charts p) (Waypoint.option σ e) t ∧ t.final (Waypoint.option σ e) = t := by
  cases e with
  | none => exact ⟨trivial, rfl⟩
  | some e => exact ⟨⟨h, trivial⟩, hpass⟩

/-! ## Branches -/

/-- Between `t` and `t'` lie parts of the statement at `q`, all of them before the
one numbered `slot`, and nothing of them is seen afterwards. -/
structure Passed (q : StmtPath) (slot : Nat) (t t' : Trail) : Prop where
  old : ∀ l ∈ t.met, l ∈ t'.met
  new : ∀ l ∈ t'.met, l ∈ t.met ∨ ∃ j < slot, l.Under (q.child j)
  names : t'.names = t.names
  depth : t'.depth = t.depth
  kept : t'.kept = t.kept

namespace Passed

theorem start (q : StmtPath) (t : Trail) : Passed q 0 t t :=
  ⟨fun _ hl => hl, fun _ hl => Or.inl hl, rfl, rfl, rfl⟩

/-- What comes later does not see them, as it does not follow them. -/
theorem sees (h : Passed q slot t t') (hready : Ready p q t) (hs : p.stmtAt? q = some s)
    (hiso : s.isolates = true) (hσ : σ.Inside q) (hnot : ∀ j < slot, ¬σ.Inside (q.child j)) :
    t'.Sees p σ := by
  have hback : (t.back t').Sees p σ := by
    refine sees_back (fun l hl => ?_) (hready.sees σ hσ)
    rcases h.new l hl with hold | ⟨j, hj, hunder⟩
    · exact Or.inl hold
    · -- To reach the spot, it would have to follow the part that it is in.
      refine Or.inr ⟨fun hl => hready.fresh l (hready.known l hl) hunder.of_child, fun hreach => ?_⟩
      exact Program.not_follows_of_isolates hs hiso
        ((Program.reaches_iff hunder (hnot j hj)).1 hreach).2
  intro l hl
  rw [h.names]
  exact hback l hl

theorem ready (h : Passed q slot t t') (hready : Ready p q t) (hs : p.stmtAt? q = some s)
    (hiso : s.isolates = true) : Ready p (q.child slot) (t'.enter false) := by
  refine ⟨fun σ hσ => ?_, fun l hl hunder => ?_, fun l hl => ?_, ?_⟩
  · exact h.sees hready hs hiso hσ.of_child fun j hj hin => Nat.ne_of_lt hj (hin.child_eq hσ)
  · rcases h.new l hl with hold | ⟨j, hj, hunder'⟩
    · exact hready.fresh l hold hunder.of_child
    · exact Nat.ne_of_lt hj (hunder'.slot_eq hunder)
  · have hl : l ∈ t'.names := hl
    rw [h.names] at hl
    exact h.old l (hready.known l hl)
  · have hframe : s.opensFrame = false := by
      cases s <;> first | rfl | cases hiso
    rw [Program.framesAround_child, hs, Option.any_some, hframe, ← hready.depth]
    exact h.depth

/-- One branch more. -/
theorem branch (h : Passed q slot t t') (hready : Ready p q t) (hs : p.stmtAt? q = some s)
    (hiso : s.isolates = true)
    (hbranch : ∀ u, Ready p (q.child slot) u →
      Along (Charts p) ws u ∧ Done p (q.child slot) u (u.final ws)) :
    Along (Charts p) (.enter false :: (ws ++ [.leave])) t' ∧
      Passed q (slot + 1) t (t'.final (.enter false :: (ws ++ [.leave]))) := by
  obtain ⟨halong, hdone⟩ := hbranch _ (h.ready hready hs hiso)
  refine ⟨along_within halong, ?_⟩
  rw [final_within hdone.kept]
  refine ⟨fun l hl => hdone.old l (h.old l hl), fun l hl => ?_, h.names, h.depth, h.kept⟩
  rcases hdone.new l hl with hl | hunder
  · rcases h.new l hl with hl | ⟨j, hj, hunder⟩
    · exact Or.inl hl
    · exact Or.inr ⟨j, Nat.lt_succ_of_lt hj, hunder⟩
  · exact Or.inr ⟨slot, Nat.lt_succ_self _, hunder⟩

theorem done (h : Passed q slot t t') (hready : Ready p q t) (hs : p.stmtAt? q = some s)
    (hiso : s.isolates = true) : Done p q t t' := by
  have hback : t.back t' = t' := by
    obtain ⟨names, met, depth, kept⟩ := t'
    obtain ⟨-, -, rfl, rfl, rfl⟩ := h
    rfl
  rw [← hback]
  refine hready.close (Program.not_isOpen_of_isolates hs hiso) h.old fun l hl => ?_
  rcases h.new l hl with hold | ⟨j, -, hunder⟩
  · exact Or.inl hold
  · exact Or.inr ⟨j, hunder⟩

/-- The condition that comes behind the body. -/
theorem value (h : Passed q slot t t') (hready : Ready p q t) (hs : p.stmtAt? q = some s)
    (hiso : s.isolates = true) : Charts p (.value q) s.value? t' := by
  refine ⟨by simp [Program.rootAt?, hs], ?_, ?_, h.depth.trans hready.depth⟩
  · exact h.sees hready hs hiso (Spot.value_inside q) fun j _ => Spot.not_inside_child rfl j
  · exact (h.done hready hs hiso).known hready.known

end Passed

/-! ## Groups and loops -/

/-- The variables of a declaration statement. -/
theorem along_group {g : VariableGroup} (hs : p.stmtAt? q = some (.decl g)) (h : Ready p q t)
    {locate : Nat → DeclLocation} (hlocate : locate = .block q ∨ locate = .nested q) :
    Along (Charts p) (Waypoint.variables (g.sites locate)) t ∧
      Done p q t (t.final (Waypoint.variables (g.sites locate))) := by
  have hpath : ∀ m, (locate m).path? = some q := by
    rcases hlocate with rfl | rfl <;> exact fun _ => rfl
  have hunder : ∀ m, (Spot.variable (locate m)).Inside q := fun m =>
    ⟨[], by simp [Spot.path?, hpath]⟩
  have hbefore : ∀ m m', m < m' → (locate m).Before (locate m') := by
    rcases hlocate with rfl | rfl <;> exact fun _ _ hlt => ⟨rfl, hlt⟩
  have hframes : ∀ m, p.openFrames (.variable (locate m)) = p.framesAround q := by
    rcases hlocate with rfl | rfl <;> exact fun _ => rfl
  have hvariable : ∀ m, p.variableAt? (locate m) = g.members[m]? := by
    rcases hlocate with rfl | rfl <;> exact fun m => by simp [Program.variableAt?, hs, Stmt.group?]
  obtain ⟨halong, hfinal⟩ := along_variables (t := t) (p := p) (g.sites_before hbefore)
    (fun a ha => by
      obtain ⟨m, x, hx, rfl⟩ := VariableGroup.mem_sites ha
      simp [Program.rootAt?, hvariable, hx])
    (fun a ha => by
      obtain ⟨m, x, -, rfl⟩ := VariableGroup.mem_sites ha
      exact h.sees _ (hunder m))
    h.known
    (fun a ha => by
      obtain ⟨m, x, -, rfl⟩ := VariableGroup.mem_sites ha
      rw [hframes, h.depth])
  refine ⟨halong, ?_⟩
  rw [hfinal]
  have hsites : ∀ l ∈ ((g.sites locate).map (·.1)).reverse, p.Outlives l q := by
    intro l hl
    obtain ⟨m, rfl⟩ := VariableGroup.mem_locations hl
    exact ⟨q, hpath m, .here⟩
  refine ⟨fun l hl => mem_met_add.2 (Or.inr hl), fun l hl => ?_, fun l => ?_, rfl, rfl⟩
  · exact (mem_met_add.1 hl).symm.imp_right fun hl => (hsites l hl).under
  · rw [mem_names_add, mem_met_add, or_comm]
    refine or_congr_right ⟨fun hl => ⟨Or.inl hl, hsites l hl⟩, ?_⟩
    rintro ⟨hl | hl, hout⟩
    · exact hl
    · exact absurd hout.under (h.fresh l hl)

/-- A part of the header of a `for`, behind its start. -/
theorem Done.header {init body : Stmt} {guard increment : Option Expr}
    (hs : p.stmtAt? q = some (.forLoop init guard increment body)) (h : Ready p q t)
    (hd : Done p (q.child 0) (t.enter true) t') (part : ForHeaderSlot) :
    Charts p (.header q part) (Stmt.header? part (.forLoop init guard increment body)) t' := by
  have hready := (h.enter hs).ready
  have hnot : ¬(Spot.header q part).Inside (q.child 0) := Spot.not_inside_child rfl 0
  have hfollows : p.Follows (q.child 0) (.header q part) := .header part ⟨_, _, _, _, hs⟩
  refine ⟨by simp [Program.rootAt?, hs], ?_, hd.known h.known, ?_⟩
  · exact hd.sees hready.fresh hready.known hnot hfollows (h.sees _ (Spot.header_inside q part))
  · rw [hd.depth, Program.openFrames, ← h.depth]
    rfl

/-- A `for`: its start, then the header and the body, which see the names of
the start. -/
theorem along_for {init body : Stmt} {guard increment : Option Expr} {ws vs : List Waypoint}
    (hs : p.stmtAt? q = some (.forLoop init guard increment body)) (h : Ready p q t)
    (hinit : ∀ u, Ready p (q.child 0) u →
      Along (Charts p) ws u ∧ Done p (q.child 0) u (u.final ws))
    (hbody : ∀ u, Ready p (q.child 1) u →
      Along (Charts p) vs u ∧ Done p (q.child 1) u (u.final vs)) :
    let ways := .enter true :: ((ws ++ (Waypoint.option (.header q .guard) guard ++
      (Waypoint.option (.header q .increment) increment ++ vs))) ++ [.leave])
    Along (Charts p) ways t ∧ Done p q t (t.final ways) := by
  have hfrom : ReadyFrom p q 0 (t.enter true) := h.enter hs
  obtain ⟨halong, hdone⟩ := hinit _ hfrom.ready
  obtain ⟨halongGuard, hguard⟩ := along_option rfl (hdone.header hs h .guard)
  obtain ⟨halongIncrement, hincrement⟩ := along_option rfl (hdone.header hs h .increment)
  obtain ⟨halong', hdone'⟩ := hbody _ (hfrom.sibling hdone Nat.zero_lt_one fun σ hσ =>
    .body ⟨_, _, _, _, hs⟩ hσ)
  dsimp only [Stmt.header?] at halongGuard hguard halongIncrement hincrement
  have hways : Along (Charts p) (ws ++ (Waypoint.option (.header q .guard) guard ++
      (Waypoint.option (.header q .increment) increment ++ vs))) (t.enter true) := by
    rw [along_append, along_append, along_append, hguard, hincrement]
    exact ⟨halong, halongGuard, halongIncrement, halong'⟩
  have hfinal : (t.enter true).final (ws ++ (Waypoint.option (.header q .guard) guard ++
      (Waypoint.option (.header q .increment) increment ++ vs))) =
        ((t.enter true).final ws).final vs := by
    rw [final_append, final_append, final_append, hguard, hincrement]
  refine ⟨along_within hways, ?_⟩
  rw [final_within (by rw [hfinal, hdone'.kept, hdone.kept]), hfinal]
  refine h.close (Program.not_isOpen hs fun _ => nofun)
    (fun l hl => hdone'.old l (hdone.old l hl)) fun l hl => ?_
  rcases hdone'.new l hl with hl | hunder
  · exact (hdone.new l hl).imp_right fun hunder => ⟨0, hunder⟩
  · exact Or.inr ⟨1, hunder⟩

end Trail

/-! ## Statements -/

namespace Stmt

open Trail

variable {p : Program}

mutual

/-- On the way through a statement, the trail is right at every spot. -/
theorem along : (s : Stmt) → (q : StmtPath) → (inList : Bool) → p.stmtAt? q = some s →
    (t : Trail) → Ready p q t →
    Along (Charts p) (s.waypoints q inList) t ∧ Done p q t (t.final (s.waypoints q inList))
  | .block stmts true, q, _, hs, t, h => by
    have hfrom : ReadyFrom p q 0 (t.enter true) := h.enter hs
    obtain ⟨halong, hdone⟩ := alongAll stmts q 0 (Or.inr ⟨_, _, hs⟩)
      (fun j => by rw [Program.stmtAt?_block hs, Nat.zero_add]) _ hfrom
    simp only [waypoints, if_true]
    refine ⟨along_within halong, ?_⟩
    rw [final_within hdone.kept]
    refine h.close (Program.not_isOpen hs fun _ => nofun) hdone.old fun l hl => ?_
    exact (hdone.new l hl).imp_right fun ⟨j, _, hunder⟩ => ⟨j, hunder⟩
  | .block stmts false, q, _, hs, t, h => by
    have hopen : p.IsOpen q := ⟨_, hs⟩
    obtain ⟨halong, hdone⟩ := alongAll stmts q 0 (Or.inr ⟨_, _, hs⟩)
      (fun j => by rw [Program.stmtAt?_block hs, Nat.zero_add]) _ (h.open hopen)
    simp only [waypoints, Bool.false_eq_true, if_false]
    exact ⟨halong, hdone.open h hopen⟩
  | .decl g, q, inList, hs, t, h => by
    rw [waypoints]
    refine along_group hs h ?_
    cases inList
    · exact Or.inr rfl
    · exact Or.inl rfl
  | .expr value, q, _, hs, t, h => by
    simp only [waypoints]
    exact ⟨⟨h.value hs, trivial⟩, (Passed.start q t).done h hs rfl⟩
  | .ifThen cond thenBranch, q, _, hs, t, h => by
    obtain ⟨halong, hpassed⟩ := (Passed.start q t).branch h hs rfl
      (along thenBranch (q.child 0) false (Program.stmtAt?_child hs 0))
    simp only [waypoints]
    exact ⟨⟨h.value hs, halong⟩, hpassed.done h hs rfl⟩
  | .ifElse cond thenBranch elseBranch, q, _, hs, t, h => by
    obtain ⟨halong, hpassed⟩ := (Passed.start q t).branch h hs rfl
      (along thenBranch (q.child 0) false (Program.stmtAt?_child hs 0))
    obtain ⟨halong', hpassed'⟩ := hpassed.branch h hs rfl
      (along elseBranch (q.child 1) false (Program.stmtAt?_child hs 1))
    simp only [waypoints]
    refine ⟨⟨h.value hs, along_append.2 ⟨halong, halong'⟩⟩, ?_⟩
    rw [final_cons, final_append]
    exact hpassed'.done h hs rfl
  | .forLoop init guard increment body, q, _, hs, t, h => by
    simp only [waypoints]
    exact along_for hs h (along init (q.child 0) false (Program.stmtAt?_child hs 0))
      (along body (q.child 1) false (Program.stmtAt?_child hs 1))
  | .whileLoop cond body, q, _, hs, t, h => by
    obtain ⟨halong, hpassed⟩ := (Passed.start q t).branch h hs rfl
      (along body (q.child 0) false (Program.stmtAt?_child hs 0))
    simp only [waypoints]
    exact ⟨⟨h.value hs, halong⟩, hpassed.done h hs rfl⟩
  | .doWhile body cond, q, _, hs, t, h => by
    obtain ⟨halong, hpassed⟩ := (Passed.start q t).branch h hs rfl
      (along body (q.child 0) false (Program.stmtAt?_child hs 0))
    have hvalue := hpassed.value h hs rfl
    simp only [waypoints]
    refine ⟨along_append.2 ⟨halong, hvalue, trivial⟩, ?_⟩
    rw [final_append]
    exact hpassed.done h hs rfl
  | .ret value, q, _, hs, t, h => by
    obtain ⟨halong, hfinal⟩ := along_option rfl (h.value hs)
    simp only [waypoints]
    refine ⟨halong, ?_⟩
    rw [show t.final (Waypoint.option (.value q) value) = t from hfinal]
    exact (Passed.start q t).done h hs rfl
  | .breakLoop, q, _, hs, t, h => ⟨trivial, (Passed.start q t).done h hs rfl⟩
  | .continueLoop, q, _, hs, t, h => ⟨trivial, (Passed.start q t).done h hs rfl⟩
  | .discard, q, _, hs, t, h => ⟨trivial, (Passed.start q t).done h hs rfl⟩
  | .empty, q, _, hs, t, h => ⟨trivial, (Passed.start q t).done h hs rfl⟩

theorem alongAll : (ss : List Stmt) → (q : StmtPath) → (slot : Nat) → p.IsList q →
    (∀ j, p.stmtAt? (q.child (slot + j)) = ss[j]?) → (t : Trail) → ReadyFrom p q slot t →
    Along (Charts p) (waypointsAll ss q slot) t ∧
      DoneFrom p q slot t (t.final (waypointsAll ss q slot))
  | [], q, slot, _, _, t, h => ⟨trivial, .refl p q slot t h⟩
  | s :: ss, q, slot, hlist, hss, t, h => by
    obtain ⟨halong, hdone⟩ := along s (q.child slot) true (hss 0) t h.ready
    obtain ⟨halong', hdone'⟩ := alongAll ss q (slot + 1) hlist
      (fun j => by rw [Nat.add_assoc, Nat.add_comm 1 j]; exact hss (j + 1)) _ (h.step hdone hlist)
    simp only [waypointsAll, along_append, final_append]
    exact ⟨⟨halong, halong'⟩, .cons hdone hdone'⟩

end

end Stmt

/-! ## Declarations -/

namespace Trail

variable {p : Program} {index : Nat} {t : Trail}

/-- Before the declaration numbered `index`. -/
structure AtTop (p : Program) (index : Nat) (t : Trail) : Prop where
  sees : ∀ σ, index ≤ σ.declaration → t.Sees p σ
  fresh : ∀ l ∈ t.met, l.root < index
  known : ∀ l ∈ t.names, l ∈ t.met
  depth : t.depth = 0

theorem AtTop.start (p : Program) : AtTop p 0 .start :=
  ⟨fun _ _ => nofun, nofun, nofun, rfl⟩

/-- A group of globals is seen from there on. -/
theorem AtTop.variables (h : AtTop p index t) {g : VariableGroup}
    (hd : p.declarations[index]? = some (.variables g)) :
    Along (Charts p) (Waypoint.variables (g.sites (.global index))) t ∧
      AtTop p (index + 1) (t.final (Waypoint.variables (g.sites (.global index)))) := by
  have hbefore : ∀ m m', m < m' →
      (DeclLocation.global index m).Before (.global index m') := fun _ _ hlt => ⟨rfl, hlt⟩
  obtain ⟨halong, hfinal⟩ := along_variables (t := t) (p := p) (g.sites_before hbefore)
    (fun a ha => by
      obtain ⟨m, x, hx, rfl⟩ := VariableGroup.mem_sites ha
      simp [Program.rootAt?, Program.variableAt?, hd, Declaration.group?, hx])
    (fun a ha => by
      obtain ⟨m, x, -, rfl⟩ := VariableGroup.mem_sites ha
      exact h.sees _ (Nat.le_refl index))
    h.known
    (fun a ha => by
      obtain ⟨m, x, -, rfl⟩ := VariableGroup.mem_sites ha
      exact h.depth)
  refine ⟨halong, ?_⟩
  rw [hfinal]
  refine ⟨fun σ hσ => ?_, fun l hl => ?_, known_add h.known _, h.depth⟩
  · refine (h.sees σ (Nat.le_of_succ_le hσ)).add fun l hl => ?_
    obtain ⟨m, rfl⟩ := VariableGroup.mem_locations hl
    exact Or.inr hσ
  · rcases mem_met_add.1 hl with hnew | hold
    · obtain ⟨m, rfl⟩ := VariableGroup.mem_locations hnew
      exact Nat.lt_succ_self index
    · exact Nat.lt_succ_of_lt (h.fresh l hold)

/-- What is declared in a function is not seen behind it. -/
theorem AtTop.leave (h : AtTop p index t) {u : Trail} (hold : ∀ l ∈ t.met, l ∈ u.met)
    (hnew : ∀ l ∈ u.met, l ∈ t.met ∨ (l.root = index ∧ ∀ d m, l ≠ .global d m)) :
    AtTop p (index + 1) (t.back u) := by
  refine ⟨fun σ hσ => ?_, fun l hl => ?_, fun l hl => hold l (h.known l hl), h.depth⟩
  · refine sees_back (fun l hl => ?_) (h.sees σ (Nat.le_of_succ_le hσ))
    refine (hnew l hl).imp_right fun ⟨hindex, hlocal⟩ => ⟨fun hl => ?_, fun hreach => ?_⟩
    · exact Nat.ne_of_lt (h.fresh l (h.known l hl)) hindex
    · have hdeclaration := hreach.declaration hlocal
      omega
  · rcases hnew l hl with hold | ⟨hindex, -⟩
    · exact Nat.lt_succ_of_lt (h.fresh l hold)
    · exact Nat.lt_succ_of_le (Nat.le_of_eq hindex)

/-- The parameters of a function are seen in its body. -/
theorem AtTop.body (h : AtTop p index t) {f : Function}
    (hf : p.declarations[index]? = some (.function f)) {ls : List DeclLocation}
    (hls : ∀ l ∈ ls, ∃ i, l = .parameter index i) :
    ReadyFrom p ⟨index, []⟩ 0 (((t.enter true).add ls).enter f.body.opensFrame) := by
  refine ⟨fun j _ σ hσ => ?_, fun j _ l hl hunder => ?_, known_add h.known ls, fun j => ?_⟩
  · have hdeclaration : σ.declaration = index := hσ.declaration
    refine Sees.add (h.sees σ (Nat.le_of_eq hdeclaration.symm)) fun l hl => ?_
    obtain ⟨i, rfl⟩ := hls l hl
    obtain ⟨rest, hrest⟩ := hσ
    exact Or.inr ⟨_, hrest, rfl⟩
  · rcases mem_met_add.1 hl with hnew | hold
    · obtain ⟨i, rfl⟩ := hls l hnew
      exact hunder
    · have hroot : l.root = index := hunder.root_eq
      exact Nat.ne_of_lt (h.fresh l hold) hroot
  · have hfunction : p.functionAt? index = some f := Program.functionAt?_eq_some.2 hf
    rw [Program.framesAround_child]
    simp [Program.framesAround, hfunction, Program.stmtAt?, Program.stmtPlace?, enter, add, h.depth]
    split <;> rfl

/-- The way through the parameters of a function. -/
theorem AtTop.parameters (h : AtTop p index t) (qs : List Parameter) :
    Along (Charts p) (Waypoint.variables (Parameter.sites index qs)) (t.enter true) ∧
      (t.enter true).final (Waypoint.variables (Parameter.sites index qs)) =
        (t.enter true).add ((Parameter.sites index qs).map (·.1)).reverse :=
  along_variables (Parameter.sites_before index qs)
    (fun a ha => by
      obtain ⟨i, rfl⟩ := Parameter.mem_sites ha
      rfl)
    (fun a ha => by
      obtain ⟨i, rfl⟩ := Parameter.mem_sites ha
      exact h.sees _ (Nat.le_refl index))
    h.known
    (fun a ha => by
      obtain ⟨i, rfl⟩ := Parameter.mem_sites ha
      change t.depth + 1 = 1
      rw [h.depth])

/-- The way through a function. -/
theorem AtTop.function (h : AtTop p index t) {f : Function}
    (hf : p.declarations[index]? = some (.function f)) :
    Along (Charts p) (f.waypoints index) t ∧ AtTop p (index + 1) (t.final (f.waypoints index)) := by
  obtain ⟨halong, hfinal⟩ := h.parameters f.prototype.parameters
  have hsites : ∀ l ∈ ((Parameter.sites index f.prototype.parameters).map (·.1)).reverse,
      ∃ i, l = .parameter index i := fun _ => Parameter.mem_locations
  have hfrom := h.body hf hsites
  -- From here on, it only matters that these are parameters.
  generalize ((Parameter.sites index f.prototype.parameters).map (·.1)).reverse = ls
    at hfinal hfrom hsites
  obtain ⟨halong', hdone⟩ := Stmt.alongAll f.body.stmts ⟨index, []⟩ 0 (Or.inl rfl)
    (fun j => by
      rw [Nat.zero_add, Program.stmtAt?_body (Program.functionAt?_eq_some.2 hf)]) _ hfrom
  have hbody := final_within hdone.kept
  have hwhole := congrArg (Trail.final · (.enter f.body.opensFrame ::
    (Stmt.waypointsAll f.body.stmts ⟨index, []⟩ 0 ++ [.leave]))) hfinal
  rw [hbody, ← final_append] at hwhole
  -- The names of the body are forgotten with its frame, those of the parameters
  -- with that of the function.
  unfold Function.waypoints
  refine ⟨along_within (along_append.2 ⟨halong, hfinal ▸ along_within halong'⟩), ?_⟩
  rw [final_within (by rw [hwhole]; rfl), hwhole]
  refine h.leave (fun l hl => hdone.old l (mem_met_add.2 (Or.inr hl))) fun l hl => ?_
  rcases hdone.new l hl with hl | ⟨j, -, hunder⟩
  · rcases mem_met_add.1 hl with hnew | hold
    · obtain ⟨i, rfl⟩ := hsites l hnew
      exact Or.inr ⟨rfl, fun _ _ => nofun⟩
    · exact Or.inl hold
  · refine Or.inr ⟨hunder.root_eq, ?_⟩
    rintro d m rfl
    exact hunder

/-- The way through declarations. -/
theorem AtTop.along {ds : List Declaration} (h : AtTop p index t)
    (hds : ∀ j, p.declarations[index + j]? = ds[j]?) :
    Along (Charts p) (Declaration.waypointsAll index ds) t := by
  induction ds generalizing index t with
  | nil => trivial
  | cons d ds ih =>
    have hrest : ∀ j, p.declarations[index + 1 + j]? = ds[j]? := fun j => by
      rw [Nat.add_assoc, Nat.add_comm 1 j]
      exact hds (j + 1)
    have hd : Along (Charts p) (d.waypoints index) t ∧
        AtTop p (index + 1) (t.final (d.waypoints index)) := by
      cases d with
      | «variables» g => exact h.variables (hds 0)
      | function f => exact h.function (hds 0)
      | prototype head =>
        exact ⟨trivial, fun σ hσ => h.sees σ (Nat.le_of_succ_le hσ),
          fun l hl => Nat.lt_succ_of_lt (h.fresh l hl), h.known, h.depth⟩
    rw [Declaration.waypointsAll, along_append]
    exact ⟨hd.1, ih hd.2 hrest⟩

end Trail

/-- The trail is right at every spot of a program. -/
theorem Program.along (p : Program) : Trail.Along (Trail.Charts p) p.waypoints .start :=
  (Trail.AtTop.start p).along fun j => by rw [Nat.zero_add]

end ShaderMorph
