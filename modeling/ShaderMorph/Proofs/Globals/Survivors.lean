-- What is left when the unused globals are taken out. Every group keeps the
-- members that have to stay, in their order; a group with none of them goes,
-- and nothing else does.
import ShaderMorph.Proofs.Globals.Liveness

namespace ShaderMorph

/-! ## Taking out by place -/

/-- The members at the places that are asked for. -/
def VariableGroup.sift (stays : Nat → Bool) (g : VariableGroup) : List Variable :=
  (g.members.zipIdx.filter fun a => stays a.2).map (·.1)

/-- What is left of a declaration: of a group, the members that stay, when
there are any; all of anything else. -/
def Declaration.keep? (stays : Nat → Bool) : Declaration → Option Declaration
  | .variables g =>
    let members := g.sift stays
    if members.isEmpty then none else some (.variables { g with members })
  | d => some d

/-- The names of the variables that a declaration loses. -/
def Declaration.lost (stays : Nat → Bool) (d : Declaration) : List String :=
  d.group?.toList.flatMap fun g => (g.sift fun member => !stays member).map (·.name)

/-- Declarations, the first of them numbered `index`, what is left of them, and
a report, when of the globals only those at some slots stay. -/
structure Strip.Leaves (stays : GlobalSlot → Bool) (index : Nat) (ds left : List Declaration)
    (report : StripReport) : Prop where
  /-- Each declaration keeps its place, and each member its place in its group. -/
  declarations : left = (ds.zipIdx index).filterMap fun a =>
    a.1.keep? fun member => stays ⟨a.2, member⟩
  /-- Functions and prototypes are the same ones. -/
  others : left.filter (·.group?.isNone) = ds.filter (·.group?.isNone)
  removed : report.removed = (ds.zipIdx index).flatMap fun a =>
    a.1.lost fun member => stays ⟨a.2, member⟩
  removedGroups :
    report.removedGroups + left.countP (·.group?.isSome) = ds.countP (·.group?.isSome)

/-! ## The sweep -/

namespace Strip

variable {slots : List GlobalSlot} {index : Nat} {stays : Nat → Bool}

theorem sweepMembers_eq {member : Nat} {vs : List Variable}
    (hstays : ∀ j < vs.length, slots.contains ⟨index, member + j⟩ = !stays (member + j)) :
    sweepMembers slots index member vs =
      (((vs.zipIdx member).filter fun a => stays a.2).map (·.1),
        (((vs.zipIdx member).filter fun a => !stays a.2).map (·.1)).map (·.name)) := by
  induction vs generalizing member with
  | nil => rfl
  | cons v vs ih =>
    have hhead : slots.contains ⟨index, member⟩ = !stays member := hstays 0 (Nat.succ_pos _)
    have htail : ∀ j < vs.length,
        slots.contains ⟨index, member + 1 + j⟩ = !stays (member + 1 + j) := by
      intro j hj
      rw [Nat.add_assoc, Nat.add_comm 1 j]
      exact hstays (j + 1) (Nat.succ_lt_succ hj)
    unfold sweepMembers
    rw [ih htail, List.zipIdx_cons, hhead, List.filter_cons, List.filter_cons]
    cases stays member <;> rfl

/-- What the sweep does to one declaration. -/
theorem sweep_cons {d : Declaration} (hstays : ∀ g, d.group? = some g →
      ∀ member < g.members.length, slots.contains ⟨index, member⟩ = !stays member)
    (ds : List Declaration) :
    sweep slots index (d :: ds) =
      ((d.keep? stays).toList ++ (sweep slots (index + 1) ds).1,
        ⟨d.lost stays ++ (sweep slots (index + 1) ds).2.removed,
          (sweep slots (index + 1) ds).2.removedGroups +
            if (d.keep? stays).isNone then 1 else 0⟩) := by
  cases d with
  | «variables» g =>
    have hmembers : sweepMembers slots index 0 g.members =
        (g.sift stays, (g.sift fun member => !stays member).map (·.name)) := by
      apply sweepMembers_eq
      intro j hj
      rw [Nat.zero_add]
      exact hstays g rfl j hj
    have hlost : (Declaration.variables g).lost stays =
        (g.sift fun member => !stays member).map (·.name) := by
      simp [Declaration.lost, Declaration.group?]
    simp only [sweep, hmembers, hlost, Declaration.keep?]
    by_cases hnone : (g.sift stays).isEmpty = true
    · simp only [hnone, if_true, Option.toList_none, List.nil_append, Option.isNone_none]
    · simp only [hnone, if_false, Option.toList_some, List.singleton_append, Option.isNone_some,
        Nat.add_zero, Bool.false_eq_true]
  | function f => simp [sweep, Declaration.keep?, Declaration.lost, Declaration.group?]
  | prototype head => simp [sweep, Declaration.keep?, Declaration.lost, Declaration.group?]

end Strip

/-- What is left of a group is a group, and anything else is left as it is. -/
theorem Declaration.keep?_cases (stays : Nat → Bool) (d : Declaration) :
    (∃ g, d.group? = some g ∧ (d.keep? stays = none ∨ ∃ g', d.keep? stays = some (.variables g'))) ∨
      (d.group? = none ∧ d.keep? stays = some d) := by
  cases d with
  | «variables» g =>
    refine Or.inl ⟨g, rfl, ?_⟩
    unfold keep?
    dsimp only
    split
    · exact Or.inl rfl
    · exact Or.inr ⟨_, rfl⟩
  | function f => exact Or.inr ⟨rfl, rfl⟩
  | prototype head => exact Or.inr ⟨rfl, rfl⟩

/-- The sweep leaves what is not in one of its slots. -/
theorem Strip.leaves_sweep {slots : List GlobalSlot} {stays : GlobalSlot → Bool} {index : Nat}
    {ds : List Declaration} (hstays : ∀ i d, ds[i]? = some d → ∀ g, d.group? = some g →
      ∀ member < g.members.length,
        slots.contains ⟨index + i, member⟩ = !stays ⟨index + i, member⟩) :
    Leaves stays index ds (sweep slots index ds).1 (sweep slots index ds).2 := by
  induction ds generalizing index with
  | nil => exact ⟨rfl, rfl, rfl, rfl⟩
  | cons d ds ih =>
    have hrest : ∀ i d', ds[i]? = some d' → ∀ g, d'.group? = some g → ∀ member < g.members.length,
        slots.contains ⟨index + 1 + i, member⟩ = !stays ⟨index + 1 + i, member⟩ := by
      intro i d' hd'
      rw [Nat.add_assoc, Nat.add_comm 1 i]
      exact hstays (i + 1) d' hd'
    obtain ⟨hleft, hothers, hremoved, hgroups⟩ := ih hrest
    have hfirst : ∀ g, d.group? = some g → ∀ member < g.members.length,
        slots.contains ⟨index, member⟩ = !stays ⟨index, member⟩ := hstays 0 d rfl
    rw [sweep_cons hfirst]
    generalize sweep slots (index + 1) ds = rest at hleft hothers hremoved hgroups
    obtain ⟨left, removed, removedGroups⟩ := rest
    dsimp only at hleft hothers hremoved hgroups ⊢
    have hd := d.keep?_cases fun member => stays ⟨index, member⟩
    refine ⟨?_, ?_, ?_, ?_⟩
    · rw [List.zipIdx_cons, List.filterMap_cons, ← hleft]
      cases d.keep? fun member => stays ⟨index, member⟩ <;> rfl
    · rcases hd with ⟨g, hgroup, hnone | ⟨g', hsome⟩⟩ | ⟨hgroup, hsome⟩
      · simp [hnone, hothers, hgroup]
      · have hg' : (Declaration.variables g').group? = some g' := rfl
        simp [hsome, hothers, hgroup, hg']
      · simp [hsome, hothers, hgroup]
    · rw [List.zipIdx_cons, List.flatMap_cons, hremoved]
    · rcases hd with ⟨g, hgroup, hnone | ⟨g', hsome⟩⟩ | ⟨hgroup, hsome⟩
      · simp [hnone, hgroup, ← hgroups, Nat.add_right_comm]
      · have hg' : (Declaration.variables g').group? = some g' := rfl
        simp [hsome, hgroup, ← hgroups, hg', Nat.add_assoc]
      · simp [hsome, hgroup, ← hgroups]

/-! ## The globals that have to stay -/

namespace Program

variable {p : Program} {switch : String} {slot : GlobalSlot}

theorem mem_dead :
    slot ∈ (GlobalUsage.ofEvents p.walk).dead switch ↔
      (∃ d ∈ p.declared, d.location.slot? = some slot) ∧ ¬p.Live switch slot := by
  have hu := GlobalUsage.covers_ofEvents p.walk
  have hdead : slot ∈ (GlobalUsage.ofEvents p.walk).dead switch ↔
      ∃ id name, (id, slot, name) ∈ (GlobalUsage.ofEvents p.walk).slots ∧
        id ∉ (GlobalUsage.ofEvents p.walk).live switch := by
    simp [GlobalUsage.dead]
  rw [hdead]
  constructor
  · rintro ⟨id, name, hmem, hnot⟩
    obtain ⟨d, hd, rfl, hslot, rfl⟩ := (hu.slots _ _ _).1 hmem
    have hd : d ∈ p.declared := mem_declared.2 hd
    exact ⟨⟨d, hd, hslot⟩, fun hlive => hnot ((mem_live hd hslot).2 hlive)⟩
  · rintro ⟨⟨d, hd, hslot⟩, hnot⟩
    have hwalk : .declare d ∈ p.walk := mem_declared.1 hd
    exact ⟨_, _, (hu.slots _ _ _).2 ⟨d, hwalk, rfl, hslot, rfl⟩,
      fun hid => hnot ((mem_live hd hslot).1 hid)⟩

/-- Whether a global has to stay can be told: the work list does. -/
instance (p : Program) (switch : String) : DecidablePred (p.Live switch) := fun slot =>
  decidable_of_iff (slot ∈ p.declared.filterMap (·.location.slot?) ∧
    slot ∉ (GlobalUsage.ofEvents p.walk).dead switch) <| by
      have hslots : slot ∈ p.declared.filterMap (·.location.slot?) ↔
          ∃ d ∈ p.declared, d.location.slot? = some slot := List.mem_filterMap
      rw [hslots, mem_dead]
      refine ⟨fun h => ?_, fun h => ⟨h.exists_declared, fun hdead => hdead.2 h⟩⟩
      by_contra hnot
      exact h.2 ⟨h.1, hnot⟩

/-- A member of a group is dead just when it is not live. -/
theorem contains_dead {i : Nat} {d : Declaration} (hd : p.declarations[i]? = some d)
    {g : VariableGroup} (hg : d.group? = some g) {member : Nat}
    (hmember : member < g.members.length) :
    ((GlobalUsage.ofEvents p.walk).dead switch).contains ⟨i, member⟩ =
      !decide (p.Live switch ⟨i, member⟩) := by
  have hvariable : p.globalAt? ⟨i, member⟩ = some g.members[member] := by
    simp [globalAt?, hd, hg, hmember]
  obtain ⟨d', hd', hslot, -⟩ := exists_declared hvariable
  have hdead : ⟨i, member⟩ ∈ (GlobalUsage.ofEvents p.walk).dead switch ↔
      ¬p.Live switch ⟨i, member⟩ := by
    rw [mem_dead]
    exact ⟨And.right, fun hnot => ⟨⟨d', hd', hslot⟩, hnot⟩⟩
  rw [List.contains_eq_mem, decide_eq_decide.2 hdead, decide_not]

/-- Taking out the unused globals leaves those that have to stay: it keeps the
version, and of the declarations it leaves just the live members of each group
and everything that is no group. -/
theorem strip_leaves_live (p : Program) (switch : String) :
    (p.strip switch).1.version = p.version ∧
      Strip.Leaves (fun slot => p.Live switch slot) 0 p.declarations (p.strip switch).1.declarations
        (p.strip switch).2 := by
  refine ⟨rfl, Strip.leaves_sweep ?_⟩
  intro i d hd g hg member hmember
  rw [Nat.zero_add]
  exact contains_dead hd hg hmember

end Program

end ShaderMorph
