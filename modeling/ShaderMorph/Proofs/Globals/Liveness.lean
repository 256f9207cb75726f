-- Which globals are used, told twice. `Program.Live` is the least set that has
-- the switch and what functions mean, and with each global what its
-- initializer reads. The work list over ids that the walk hands out finds the
-- same ones.
import Mathlib.Logic.Relation
import ShaderMorph.Proofs.Walk.Locations
import ShaderMorph.Proofs.Walk.Placement

namespace ShaderMorph

/-! ## The least set -/

/-- The global variable at a slot. -/
def Program.globalAt? (p : Program) (slot : GlobalSlot) : Option Variable :=
  (p.declarations[slot.declaration]?.bind (·.group?)).bind (·.members[slot.member]?)

/-- An identifier that means the global at a slot, by the scope it stands in. -/
def Program.Means (p : Program) (v : Visit) (slot : GlobalSlot) : Prop :=
  ∃ name, v.expr = .ident name ∧
    ∃ d ∈ p.declared, d.location.slot? = some slot ∧ v.scope.lookup name = some d.symbol

/-- An expression in the initializer of the global at a slot. -/
def Program.Initializes (p : Program) (v : Visit) (slot : GlobalSlot) : Prop :=
  ∃ d ∈ p.declared, d.location.slot? = some slot ∧ v.around.initializerOf = some d.symbol.id

/-- The globals that have to stay, by their slots. -/
inductive Program.Live (p : Program) (switch : String) : GlobalSlot → Prop
  | named {slot : GlobalSlot} {x : Variable} : p.globalAt? slot = some x → x.name = switch →
    Live p switch slot
  | used {slot : GlobalSlot} {v : Visit} : v ∈ p.visits → v.around.function.isSome →
    p.Means v slot → Live p switch slot
  | read {reader slot : GlobalSlot} {v : Visit} : Live p switch reader → v ∈ p.visits →
    p.Initializes v reader → p.Means v slot → Live p switch slot

/-! ## The work list -/

/-- Along one of these edges. -/
def LeadsTo (edges : List (Nat × Nat)) (a b : Nat) : Prop := (a, b) ∈ edges

theorem mem_edgesFrom {id b : Nat} {edges : List (Nat × Nat)} :
    b ∈ edgesFrom id edges ↔ LeadsTo edges id b := by
  simp [edgesFrom, LeadsTo]

theorem leadsTo_edgesElsewhere {id a b : Nat} {edges : List (Nat × Nat)} :
    LeadsTo (edgesElsewhere id edges) a b ↔ LeadsTo edges a b ∧ a ≠ id := by
  simp [edgesElsewhere, LeadsTo]

open Relation (ReflTransGen)

/-- A path either never leaves `id`, or what follows the last time that it
does so is one. -/
theorem path_elsewhere {edges : List (Nat × Nat)} (id : Nat) {y x : Nat}
    (h : ReflTransGen (LeadsTo edges) y x) :
    ReflTransGen (LeadsTo (edgesElsewhere id edges)) y x ∨ x = id ∨
      ∃ z ∈ edgesFrom id edges, ReflTransGen (LeadsTo (edgesElsewhere id edges)) z x := by
  induction h using ReflTransGen.head_induction_on with
  | refl => exact Or.inl .refl
  | @head a c hstep _ ih =>
    rcases ih with hpath | hrest
    · by_cases ha : a = id
      · subst ha
        exact Or.inr (Or.inr ⟨c, mem_edgesFrom.2 hstep, hpath⟩)
      · exact Or.inl (.head (leadsTo_edgesElsewhere.2 ⟨hstep, ha⟩) hpath)
    · exact Or.inr hrest

/-- The work list finds what can be reached, and nothing else. -/
theorem mem_reachable {edges : List (Nat × Nat)} {pending reached : List Nat} {x : Nat} :
    x ∈ reachable edges pending reached ↔
      x ∈ reached ∨ ∃ y ∈ pending, ReflTransGen (LeadsTo edges) y x := by
  induction edges, pending, reached using reachable.induct with
  | case1 edges reached => simp [reachable]
  | case2 edges reached id pending ih =>
    rw [reachable, ih]
    have hmono : ∀ {y : Nat}, ReflTransGen (LeadsTo (edgesElsewhere id edges)) y x →
        ReflTransGen (LeadsTo edges) y x :=
      fun h => ReflTransGen.mono (fun _ _ hstep => (leadsTo_edgesElsewhere.1 hstep).1) _ _ h
    constructor
    · rintro (hx | ⟨y, hy, hpath⟩)
      · rcases List.mem_cons.1 hx with rfl | hx
        · exact Or.inr ⟨x, List.mem_cons_self, .refl⟩
        · exact Or.inl hx
      · rcases List.mem_append.1 hy with hy | hy
        · exact Or.inr ⟨id, List.mem_cons_self, .head (mem_edgesFrom.1 hy) (hmono hpath)⟩
        · exact Or.inr ⟨y, List.mem_cons_of_mem _ hy, hmono hpath⟩
    · rintro (hx | ⟨y, hy, hpath⟩)
      · exact Or.inl (List.mem_cons_of_mem _ hx)
      · rcases path_elsewhere id hpath with hpath | rfl | ⟨z, hz, hpath⟩
        · rcases List.mem_cons.1 hy with rfl | hy
          · -- A path that starts at `id` and never leaves it is empty.
            rcases hpath.cases_head with rfl | ⟨z, hstep, -⟩
            · exact Or.inl List.mem_cons_self
            · exact absurd rfl (leadsTo_edgesElsewhere.1 hstep).2
          · exact Or.inr ⟨y, List.mem_append_right _ hy, hpath⟩
        · exact Or.inl List.mem_cons_self
        · exact Or.inr ⟨z, List.mem_append_left _ hz, hpath⟩

/-! ## What the walk tells -/

/-- The global that an expression means, when it is an identifier. -/
def Visit.global? (v : Visit) : Option Symbol :=
  (v.expr.name?.bind v.scope.lookup).filter (·.kind = .global)

/-- The global whose initializer an expression belongs to. -/
def Visit.reader? (v : Visit) : Option Nat :=
  if v.scope.isGlobal then v.around.initializerOf else none

namespace GlobalUsage

theorem note_visit (u : GlobalUsage) (v : Visit) :
    u.note (.visit v) =
      match v.global?, v.reader? with
      | none, _ => u
      | some s, some reader => { u with reads := (reader, s.id) :: u.reads }
      | some s, none => { u with roots := s.id :: u.roots } := by
  simp only [note, Visit.global?, Visit.reader?]
  cases v.expr.name?.bind v.scope.lookup with
  | none => rfl
  | some s =>
    by_cases hk : s.kind = .global <;> cases v.around.initializerOf <;>
      cases v.scope.isGlobal <;> simp [Option.filter_some, hk]

theorem note_declare (u : GlobalUsage) (d : Declared) :
    u.note (.declare d) =
      { u with slots := u.slots ++ (d.location.slot?.map fun slot =>
          (d.symbol.id, slot, d.symbol.name)).toList } := by
  cases hl : d.location <;> simp [note, hl, DeclLocation.slot?]

/-- What is known once these events were met. -/
structure Covers (u : GlobalUsage) (es : List Event) : Prop where
  slots : ∀ id slot name, (id, slot, name) ∈ u.slots ↔
    ∃ d, .declare d ∈ es ∧ d.symbol.id = id ∧ d.location.slot? = some slot ∧ d.symbol.name = name
  roots : ∀ id, id ∈ u.roots ↔
    ∃ v s, .visit v ∈ es ∧ v.global? = some s ∧ v.reader? = none ∧ s.id = id
  reads : ∀ reader id, (reader, id) ∈ u.reads ↔
    ∃ v s, .visit v ∈ es ∧ v.global? = some s ∧ v.reader? = some reader ∧ s.id = id

theorem Covers.note {u : GlobalUsage} {es : List Event} (h : u.Covers es) (e : Event) :
    (u.note e).Covers (es ++ [e]) := by
  cases e with
  | declare d =>
    rw [note_declare]
    constructor
    · intro id slot name
      rw [List.mem_append, h.slots]
      cases hs : d.location.slot? <;> simp [hs, or_and_right, exists_or, eq_comm]
    · simp [h.roots]
    · simp [h.reads]
  | visit v =>
    rw [note_visit]
    cases hg : v.global? with
    | none =>
      constructor
      · simp [h.slots]
      · simp [h.roots, or_and_right, exists_or, hg]
      · simp [h.reads, or_and_right, exists_or, hg]
    | some s =>
      cases hr : v.reader? with
      | none =>
        constructor
        · simp [h.slots]
        · simp [h.roots, or_and_right, exists_or, hg, hr, or_comm, eq_comm]
        · simp [h.reads, or_and_right, exists_or, hg, hr]
      | some r =>
        constructor
        · simp [h.slots]
        · simp [h.roots, or_and_right, exists_or, hg, hr]
        · simp [h.reads, or_and_right, exists_or, hg, hr, or_comm, eq_comm]

theorem covers_ofEvents (es : List Event) : (ofEvents es).Covers es := by
  suffices hall : ∀ (u : GlobalUsage) (before : List Event), u.Covers before →
      (es.foldl GlobalUsage.note u).Covers (before ++ es) by
    have hstart : (⟨[], [], []⟩ : GlobalUsage).Covers [] := by
      constructor <;> simp
    exact hall _ _ hstart
  induction es with
  | nil => exact fun u before h => by simpa using h
  | cons e es ih =>
    intro u before h
    have hrest := ih _ _ (h.note e)
    rwa [List.append_assoc, List.singleton_append] at hrest

end GlobalUsage

/-! ## Variables and their declarations -/

theorem DeclLocation.slot?_eq_some {l : DeclLocation} {slot : GlobalSlot} :
    l.slot? = some slot ↔ l = .global slot.declaration slot.member := by
  obtain ⟨declaration, member⟩ := slot
  cases l <;> simp [slot?]

/-- What is declared is met. -/
theorem Command.exists_declare {cs : List Command} {v : Declarator} (h : .declare v ∈ cs)
    (heads : List Prototype) (s : WalkState) : ∃ t, .declare (v.declared t) ∈ run heads cs s := by
  obtain ⟨before, after, rfl⟩ := List.append_of_mem h
  refine ⟨final before s, ?_⟩
  rw [run_append, run]
  simp [events]

theorem VariableGroup.declare_mem_scriptMembers {around : Surroundings} {kind : SymbolKind}
    {locate : Nat → DeclLocation} {g : VariableGroup} {vs : List Variable} {j : Nat} {x : Variable}
    (h : vs[j]? = some x) (member : Nat) :
    .declare (g.declarator around kind locate (member + j) x) ∈
      g.scriptMembers around kind locate member vs := by
  induction vs generalizing member j with
  | nil => cases h
  | cons v vs ih =>
    cases j with
    | zero =>
      obtain rfl : v = x := by simpa using h
      exact List.mem_cons_self
    | succ j =>
      have hrest := ih (by simpa using h) (member + 1)
      rw [Nat.add_right_comm] at hrest
      exact List.mem_cons_of_mem _ hrest

theorem Declaration.mem_scriptAll_of_getElem? {version : Version} {ds : List Declaration} {i : Nat}
    {d : Declaration} {c : Command} (h : ds[i]? = some d) (index : Nat)
    (hc : c ∈ d.script version (index + i)) : c ∈ scriptAll version index ds := by
  induction ds generalizing index i with
  | nil => cases h
  | cons d' ds ih =>
    cases i with
    | zero =>
      obtain rfl : d' = d := by simpa using h
      exact List.mem_append_left _ hc
    | succ i =>
      rw [← Nat.succ_add_eq_add_succ] at hc
      exact List.mem_append_right _ (ih (by simpa using h) (index + 1) hc)

/-- No variable of a function is a global one. -/
theorem Function.slot?_eq_none {index : Nat} {f : Function} {v : Declarator}
    (h : .declare v ∈ f.script index) : v.location.slot? = none := by
  obtain ⟨cs, hcs, hin⟩ := f.inside index
  rw [hcs] at h
  have hv : .declare v ∈ cs := by simpa using h
  obtain ⟨t, ht⟩ := Command.exists_declare hv [] .start
  exact (hin.met [] .start _ ht).2.2

namespace Program

variable {p : Program} {switch : String} {slot : GlobalSlot}

/-- Every global variable is declared on the walk. -/
theorem exists_declared {x : Variable} (h : p.globalAt? slot = some x) :
    ∃ d ∈ p.declared, d.location.slot? = some slot ∧ d.symbol.name = x.name := by
  obtain ⟨g, hg, hx⟩ := Option.bind_eq_some_iff.1 h
  obtain ⟨decl, hdecl, hgroup⟩ := Option.bind_eq_some_iff.1 hg
  obtain rfl : decl = .variables g := by
    cases decl <;> simp_all [Declaration.group?]
  let v := g.declarator { Surroundings.plain with constContext := p.version.requiresConstGlobals }
    .global (.global (0 + slot.declaration)) (0 + slot.member) x
  have hmember : .declare v ∈ (Declaration.variables g).script p.version (0 + slot.declaration) :=
    VariableGroup.declare_mem_scriptMembers hx 0
  have hscript : .declare v ∈ p.script :=
    Declaration.mem_scriptAll_of_getElem? hdecl 0 hmember
  obtain ⟨t, ht⟩ := Command.exists_declare hscript p.prototypes .start
  refine ⟨v.declared t, ?_, ?_, rfl⟩
  · rw [mem_declared, walk_eq_run]
    exact ht
  · rw [DeclLocation.slot?_eq_some]
    simp [v, Declarator.declared, VariableGroup.declarator]

/-- What the walk declares at a slot is the variable there. -/
theorem globalAt?_of_declared {d : Declared} (hd : d ∈ p.declared)
    (hslot : d.location.slot? = some slot) :
    ∃ x, p.globalAt? slot = some x ∧ x.name = d.symbol.name := by
  rw [mem_declared, walk_eq_run] at hd
  obtain ⟨before, v, after, hscript, rfl⟩ := Command.mem_run_declare hd
  have hv : .declare v ∈ p.script := by rw [hscript]; simp
  obtain ⟨ds, decl, ds', hds, hv⟩ := mem_scriptAll hv
  rw [Nat.zero_add] at hv
  cases decl with
  | «variables» g =>
    obtain ⟨j, x, hx, hc⟩ := VariableGroup.mem_script hv
    obtain rfl := Command.declare.inj hc
    obtain rfl : (⟨ds.length, j⟩ : GlobalSlot) = slot := Option.some.inj hslot
    refine ⟨x, ?_, rfl⟩
    simp [globalAt?, hds, Declaration.group?, hx]
  | function f =>
    have hnone : v.location.slot? = none := Function.slot?_eq_none hv
    rw [show (v.declared _).location = v.location from rfl, hnone] at hslot
    cases hslot
  | prototype head => cases hv

/-- A slot has one declaration only. -/
theorem declared_slot_ext {d d' : Declared} (hd : d ∈ p.declared) (hd' : d' ∈ p.declared)
    (hslot : d.location.slot? = some slot) (hslot' : d'.location.slot? = some slot) : d = d' := by
  refine declared_location_ext hd hd' ?_
  rw [DeclLocation.slot?_eq_some.1 hslot, DeclLocation.slot?_eq_some.1 hslot']

/-- What stands for a global by its kind stands for the one at some slot. -/
theorem means_of_global? {v : Visit} (hv : v ∈ p.visits) {s : Symbol} (hs : v.global? = some s) :
    ∃ d ∈ p.declared, d.symbol = s ∧ ∃ slot, d.location.slot? = some slot ∧ p.Means v slot := by
  rw [mem_visits] at hv
  obtain ⟨hlookup, hkind⟩ := Option.filter_eq_some_iff.1 hs
  obtain ⟨name, hname, hlookup⟩ := Option.bind_eq_some_iff.1 hlookup
  obtain ⟨d, hd, rfl, -⟩ := declared_of_bound hv (ScopeTree.lookup_mem hlookup).1
  have hplaced := placed (mem_declared.1 hd)
  obtain ⟨slot, hslot⟩ := Option.isSome_iff_exists.1 (hplaced.1 (of_decide_eq_true hkind))
  have hexpr : v.expr = .ident name := by
    cases he : v.expr <;> simp_all [Expr.name?]
  exact ⟨d, hd, rfl, slot, hslot, name, hexpr, d, hd, hslot, hlookup⟩

/-- What means the global at a slot stands for a global by its kind. -/
theorem Means.global? {v : Visit} (h : p.Means v slot) {d : Declared} (hd : d ∈ p.declared)
    (hslot : d.location.slot? = some slot) : v.global? = some d.symbol := by
  obtain ⟨name, hexpr, d', hd', hslot', hlookup⟩ := h
  obtain rfl := declared_slot_ext hd hd' hslot hslot'
  have hplaced := placed (mem_declared.1 hd)
  have hkind : d.symbol.kind = .global := hplaced.2 (by rw [hslot]; rfl)
  simp [Visit.global?, hexpr, Expr.name?, hlookup, Option.filter_some, hkind]

/-- A global that has to stay is declared. -/
theorem Live.exists_declared (h : p.Live switch slot) :
    ∃ d ∈ p.declared, d.location.slot? = some slot := by
  cases h with
  | named hx _ =>
    obtain ⟨d, hd, hslot, -⟩ := Program.exists_declared hx
    exact ⟨d, hd, hslot⟩
  | used _ _ hmeans | read _ _ _ hmeans =>
    obtain ⟨-, -, d, hd, hslot, -⟩ := hmeans
    exact ⟨d, hd, hslot⟩

end Program

/-! ## The two agree -/

namespace GlobalUsage

/-- Whether the work list starts from an id. -/
def Starts (u : GlobalUsage) (switch : String) (id : Nat) : Prop :=
  id ∈ u.roots ∨ ∃ slot, (id, slot, switch) ∈ u.slots

theorem mem_live {u : GlobalUsage} {switch : String} {id : Nat} :
    id ∈ u.live switch ↔
      ∃ start, u.Starts switch start ∧ ReflTransGen (LeadsTo u.reads) start id := by
  unfold live
  rw [mem_reachable]
  simp [Starts]

end GlobalUsage

namespace Program

variable {p : Program} {switch : String} {slot : GlobalSlot}

/-- The declaration with an id is that of a global that has to stay. -/
def LiveId (p : Program) (switch : String) (id : Nat) : Prop :=
  ∃ d ∈ p.declared, d.symbol.id = id ∧ ∃ slot, d.location.slot? = some slot ∧ p.Live switch slot

/-- The work list starts from globals that have to stay. -/
theorem liveId_of_starts {u : GlobalUsage} (hu : u.Covers p.walk) {id : Nat}
    (h : u.Starts switch id) : p.LiveId switch id := by
  rcases h with hroot | ⟨slot, hnamed⟩
  · obtain ⟨v, s, hv, hs, hr, rfl⟩ := (hu.roots _).1 hroot
    have hplaced := placed hv
    have hv : v ∈ p.visits := mem_visits.2 hv
    obtain ⟨d, hd, rfl, slot, hslot, hmeans⟩ := means_of_global? hv hs
    refine ⟨d, hd, rfl, slot, hslot, .used hv ?_ hmeans⟩
    rcases hplaced with ⟨hfunction, -⟩ | ⟨-, hglobal, hinit⟩
    · exact hfunction
    · rw [Visit.reader?, if_pos hglobal] at hr
      rw [hr] at hinit
      cases hinit
  · obtain ⟨d, hd, rfl, hslot, hname⟩ := (hu.slots _ _ _).1 hnamed
    have hd : d ∈ p.declared := mem_declared.2 hd
    obtain ⟨x, hx, hxname⟩ := globalAt?_of_declared hd hslot
    exact ⟨d, hd, rfl, slot, hslot, .named hx (hxname.trans hname)⟩

/-- From a global that has to stay, the work list goes on to such. -/
theorem LiveId.leadsTo {u : GlobalUsage} (hu : u.Covers p.walk) {a b : Nat}
    (h : p.LiveId switch a) (hstep : LeadsTo u.reads a b) : p.LiveId switch b := by
  obtain ⟨reader, hreader, rfl, slot, hslot, hlive⟩ := h
  obtain ⟨v, s, hv, hs, hr, rfl⟩ := (hu.reads _ _).1 hstep
  have hv : v ∈ p.visits := mem_visits.2 hv
  obtain ⟨d, hd, rfl, slot', hslot', hmeans⟩ := means_of_global? hv hs
  refine ⟨d, hd, rfl, slot', hslot', hlive.read hv ⟨reader, hreader, hslot, ?_⟩ hmeans⟩
  unfold Visit.reader? at hr
  split at hr
  · exact hr
  · cases hr

/-- Each global that has to stay is on the work list at some time. -/
theorem mem_live_of_live {u : GlobalUsage} (hu : u.Covers p.walk) (h : p.Live switch slot)
    {d : Declared} (hd : d ∈ p.declared) (hslot : d.location.slot? = some slot) :
    d.symbol.id ∈ u.live switch := by
  rw [GlobalUsage.mem_live]
  induction h generalizing d with
  | @named slot x hx hname =>
    obtain ⟨x', hx', hname'⟩ := globalAt?_of_declared hd hslot
    obtain rfl : x' = x := Option.some.inj (hx'.symm.trans hx)
    rw [mem_declared] at hd
    have hnamed := (hu.slots _ _ _).2 ⟨d, hd, rfl, hslot, hname'.symm.trans hname⟩
    exact ⟨_, Or.inr ⟨slot, hnamed⟩, .refl⟩
  | @used slot v hv hfunction hmeans =>
    rw [mem_visits] at hv
    have hr : v.reader? = none := by
      rcases placed hv with ⟨-, hlocal⟩ | ⟨hnone, -⟩
      · simp [Visit.reader?, hlocal]
      · rw [hnone] at hfunction
        cases hfunction
    have hroot := (hu.roots _).2 ⟨v, _, hv, hmeans.global? hd hslot, hr, rfl⟩
    exact ⟨_, Or.inl hroot, .refl⟩
  | @read reader slot v _ hv hinit hmeans ih =>
    obtain ⟨dr, hdr, hslotr, hof⟩ := hinit
    rw [mem_visits] at hv
    have hglobal := hmeans.global? hd hslot
    cases hr : v.reader? with
    | none => exact ⟨_, Or.inl ((hu.roots _).2 ⟨v, _, hv, hglobal, hr, rfl⟩), .refl⟩
    | some r =>
      have hreader : r = dr.symbol.id := by
        unfold Visit.reader? at hr
        split at hr
        · exact Option.some.inj (hr.symm.trans hof)
        · cases hr
      have hstep : LeadsTo u.reads dr.symbol.id d.symbol.id :=
        (hu.reads _ _).2 ⟨v, _, hv, hglobal, hreader ▸ hr, rfl⟩
      obtain ⟨start, hstart, hpath⟩ := ih hdr hslotr
      exact ⟨start, hstart, hpath.tail hstep⟩

/-- The work list finds the globals that have to stay, and nothing else. -/
theorem mem_live {d : Declared} (hd : d ∈ p.declared) (hslot : d.location.slot? = some slot) :
    d.symbol.id ∈ (GlobalUsage.ofEvents p.walk).live switch ↔ p.Live switch slot := by
  have hu := GlobalUsage.covers_ofEvents p.walk
  refine ⟨?_, fun h => mem_live_of_live hu h hd hslot⟩
  intro h
  obtain ⟨start, hstart, hpath⟩ := GlobalUsage.mem_live.1 h
  have hall : ∀ id, ReflTransGen (LeadsTo (GlobalUsage.ofEvents p.walk).reads) start id →
      p.LiveId switch id := by
    intro id hid
    induction hid with
    | refl => exact liveId_of_starts hu hstart
    | tail _ hstep ih => exact ih.leadsTo hu hstep
  obtain ⟨d', hd', hsame, slot', hslot', hlive⟩ := hall _ hpath
  obtain rfl := declared_ext hd' hd hsame
  obtain rfl : slot' = slot := Option.some.inj (hslot'.symm.trans hslot)
  exact hlive

end Program

end ShaderMorph
