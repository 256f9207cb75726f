-- Taking out the unused globals twice. After the first time every global is
-- used: what keeps it in is still there, and it means the same. So the second
-- time finds nothing to take out.
import ShaderMorph.Proofs.Globals.Remains

namespace ShaderMorph

/-! ## A sweep that finds nothing -/

theorem Strip.sweepMembers_nil (index member : Nat) (vs : List Variable) :
    sweepMembers [] index member vs = (vs, []) := by
  induction vs generalizing member with
  | nil => rfl
  | cons v vs ih => simp [sweepMembers, ih]

/-- Without slots to sweep, only groups without members would go. -/
theorem Strip.sweep_nil {ds : List Declaration}
    (h : ∀ g, .variables g ∈ ds → g.members.isEmpty = false) (index : Nat) :
    sweep [] index ds = (ds, ⟨[], 0⟩) := by
  induction ds generalizing index with
  | nil => rfl
  | cons d ds ih =>
    have hrest := ih (fun g hg => h g (List.mem_cons_of_mem _ hg)) (index + 1)
    cases d with
    | «variables» g =>
      have hg : g.members.isEmpty = false := h g List.mem_cons_self
      simp only [sweep, sweepMembers_nil, hrest, hg, Bool.false_eq_true, if_false]
      rfl
    | function f => simp [sweep, hrest]
    | prototype head => simp [sweep, hrest]

namespace Program

variable {p : Program} {switch : String} {slot slot' : GlobalSlot} {v : Visit}

/-- No group without members is left. -/
theorem strip_group_members {g : VariableGroup}
    (h : .variables g ∈ (p.strip switch).1.declarations) : g.members.isEmpty = false := by
  rw [strip_declarations] at h
  obtain ⟨⟨d, index⟩, -, hkeep⟩ := List.mem_filterMap.1 h
  cases d with
  | «variables» g' =>
    dsimp only [Declaration.keep?] at hkeep
    split at hkeep
    · cases hkeep
    · next hsome =>
      cases hkeep
      simpa using hsome
  | function f => cases hkeep
  | prototype head => cases hkeep

/-! ## What is used stays in use -/

theorem staysId_of_live (h : p.Live switch slot) {d : Declared} (hd : d ∈ p.declared)
    (hslot : d.location.slot? = some slot) : p.staysId switch d.symbol.id = true := by
  rw [staysId_of_declared hd, stays, hslot]
  exact decide_eq_true h

/-- What is in a function stays. -/
theorem stays_of_function (hv : v ∈ p.visits) (hfunction : v.around.function.isSome) :
    v.around.initializerOf.all (p.staysId switch) = true := by
  cases hid : v.around.initializerOf with
  | none => rfl
  | some id =>
    obtain ⟨d, hd, rfl, hiff⟩ := initializer_declared hv hid
    have hslot : d.location.slot? = none := by
      rw [← Option.not_isSome_iff_eq_none, ← hiff]
      exact fun hnone => by rw [hnone] at hfunction; cases hfunction
    rw [Option.all_some, staysId_of_declared hd, stays, hslot]
    rfl

/-- A use of a global that stays is there afterwards, and means the same. -/
theorem exists_means_strip (hv : v ∈ p.visits)
    (hstays : v.around.initializerOf.all (p.staysId switch) = true) (hmeans : p.Means v slot)
    (hlive : p.Live switch slot) {d d' : Declared} (hd : d ∈ p.declared)
    (hslot : d.location.slot? = some slot) (hd' : d' ∈ (p.strip switch).1.declared)
    (hsymbol : d'.symbol = d.symbol.thin (p.staysId switch))
    (hslot' : d'.location.slot? = some slot') :
    ∃ v' ∈ (p.strip switch).1.visits, (p.strip switch).1.Means v' slot' ∧
      v'.around.initializerOf = v.around.initializerOf.map (thinId (p.staysId switch)) ∧
      v'.around.function.isSome = v.around.function.isSome := by
  obtain ⟨v', hv', hexpr, hscope, hinit, hfunction⟩ :=
    forall₂_left (p.strip_visits switch) (List.mem_filter.2 ⟨hv, hstays⟩)
  refine ⟨v', hv', ?_, hinit, hfunction⟩
  obtain ⟨name, hident, e, he, heslot, hlookup⟩ := hmeans
  obtain rfl := declared_slot_ext hd he hslot heslot
  refine ⟨name, hexpr.trans hident, d', hd', hslot', ?_⟩
  rw [hscope, hsymbol]
  exact ScopeTree.lookup_thin hlookup (staysId_of_live hlive hd hslot)

/-- A global that has to stay has to do so afterwards, too. -/
theorem live_strip (h : p.Live switch slot) {d d' : Declared} (hd : d ∈ p.declared)
    (hslot : d.location.slot? = some slot) (hd' : d' ∈ (p.strip switch).1.declared)
    (hsymbol : d'.symbol = d.symbol.thin (p.staysId switch))
    (hslot' : d'.location.slot? = some slot') : (p.strip switch).1.Live switch slot' := by
  induction h generalizing d d' slot' with
  | @named slot x hx hname =>
    obtain ⟨y, hy, hyname⟩ := globalAt?_of_declared hd hslot
    obtain rfl : y = x := Option.some.inj (hy.symm.trans hx)
    obtain ⟨x', hx', hxname'⟩ := globalAt?_of_declared hd' hslot'
    refine .named hx' ?_
    rw [hxname', hsymbol]
    exact hyname.symm.trans hname
  | @used slot v hv hfunction hmeans =>
    obtain ⟨v', hv', hmeans', -, hfunction'⟩ :=
      exists_means_strip hv (stays_of_function hv hfunction) hmeans (.used hv hfunction hmeans) hd
        hslot hd' hsymbol hslot'
    exact .used hv' (hfunction'.trans hfunction) hmeans'
  | @read reader slot v hreader hv hinit hmeans ih =>
    have hlive := hreader.read hv hinit hmeans
    obtain ⟨r, hr, hrslot, hid⟩ := hinit
    have hstays := staysId_of_live hreader hr hrslot
    have hsurvives : r ∈ p.survivors switch :=
      List.mem_filter.2 ⟨hr, staysId_of_declared hr ▸ hstays⟩
    -- The reader has a copy, and that has to stay.
    obtain ⟨r', hr', hrsymbol, -, hrslot'⟩ := forall₂_left (p.strip_declared switch) hsurvives
    rw [hrslot] at hrslot'
    obtain ⟨reader', hrslot'⟩ := Option.isSome_iff_exists.1 hrslot'
    have hreader' := ih hr hrslot hr' hrsymbol hrslot'
    obtain ⟨v', hv', hmeans', hinit', -⟩ :=
      exists_means_strip hv (by rw [hid]; exact hstays) hmeans hlive hd hslot hd' hsymbol hslot'
    refine hreader'.read hv' ⟨r', hr', hrslot', ?_⟩ hmeans'
    rw [hinit', hid, hrsymbol]
    rfl

/-- Every global that is left has to stay. -/
theorem live_of_strip {d' : Declared} (hd' : d' ∈ (p.strip switch).1.declared)
    (hslot' : d'.location.slot? = some slot') : (p.strip switch).1.Live switch slot' := by
  obtain ⟨d, hd, hsymbol, -, hslot⟩ := forall₂_right (p.strip_declared switch) hd'
  obtain ⟨hd, hstays⟩ := List.mem_filter.1 hd
  rw [hslot'] at hslot
  obtain ⟨slot, hslot⟩ := Option.isSome_iff_exists.1 hslot.symm
  rw [stays, hslot] at hstays
  exact live_strip (of_decide_eq_true hstays) hd hslot hd' hsymbol hslot'

/-- Taking out the unused globals once is enough: the second time changes
nothing, and has nothing to tell. -/
theorem strip_idempotent (p : Program) (switch : String) :
    (p.strip switch).1.strip switch = ((p.strip switch).1, ⟨[], 0⟩) := by
  have hdead : (GlobalUsage.ofEvents (p.strip switch).1.walk).dead switch = [] := by
    refine List.eq_nil_iff_forall_not_mem.2 fun slot hslot => ?_
    obtain ⟨⟨d, hd, hd'⟩, hnot⟩ := mem_dead.1 hslot
    exact hnot (live_of_strip hd hd')
  rw [strip, hdead, Strip.sweep_nil fun g hg => strip_group_members hg]

end Program

end ShaderMorph
