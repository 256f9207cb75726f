-- What names stand for when the unused globals are taken out. Nothing that is
-- still there ever stood for one of them: what a function means has to stay,
-- and so does what the initializer of such a global reads. So each name goes
-- on to stand for the declaration that it stood for.
import ShaderMorph.Proofs.Globals.Survivors
import ShaderMorph.Proofs.Walk.Thinned

namespace ShaderMorph

/-! ## Where commands belong -/

/-- An expression of its own is in no initializer, and an initializer stands
outside of the functions just when it is that of a global. -/
def Command.Sited : Command → Prop
  | .expr around _ => around.initializerOf = none
  | .declare v => v.initializer.isSome → (v.around.function = none ↔ v.location.slot?.isSome)
  | .enter _ => True
  | .leave => True

@[simp] theorem Command.sited_expr {around : Surroundings} {e : Expr} :
    (Command.expr around e).Sited ↔ around.initializerOf = none := Iff.rfl

@[simp] theorem Command.sited_declare {v : Declarator} :
    (Command.declare v).Sited ↔
      (v.initializer.isSome → (v.around.function = none ↔ v.location.slot?.isSome)) := Iff.rfl

@[simp] theorem Command.sited_enter (o : Bool) : (Command.enter o).Sited := trivial

@[simp] theorem Command.sited_leave : Command.leave.Sited := trivial

theorem VariableGroup.sited {around : Surroundings} {kind : SymbolKind}
    {locate : Nat → DeclLocation} (g : VariableGroup)
    (h : ∀ m, around.function = none ↔ (locate m).slot?.isSome) :
    ∀ c ∈ g.script around kind locate, c.Sited := by
  intro c hc
  obtain ⟨j, x, -, rfl⟩ := mem_script hc
  exact fun _ => h j

theorem Expr.scriptOption_sited {around : Surroundings} (h : around.initializerOf = none)
    (e : Option Expr) : ∀ c ∈ scriptOption around e, c.Sited := by
  cases e with
  | none => exact fun c hc => by cases hc
  | some e => exact fun c hc => List.mem_singleton.1 hc ▸ h

namespace Stmt

variable {around : Surroundings}

mutual

theorem script_sited (hf : around.function.isSome) (hi : around.initializerOf = none) :
    (s : Stmt) → (path : StmtPath) → (inList : Bool) → ∀ c ∈ s.script around path inList, c.Sited
  | .block stmts true, path, _ => by
    simpa [script, or_imp, forall_and] using scriptAll_sited hf hi stmts path 0
  | .block stmts false, path, _ => by simpa [script] using scriptAll_sited hf hi stmts path 0
  | .decl group, path, inList => by
    simp only [script]
    refine group.sited fun m => ?_
    obtain ⟨index, hindex⟩ := Option.isSome_iff_exists.1 hf
    cases inList <;> simp [hindex, DeclLocation.slot?]
  | .expr value, _, _ => by simpa [script] using hi
  | .ifThen cond thenBranch, path, _ => by
    have hthen := script_sited hf hi thenBranch (path.child 0) false
    simpa [script, hi, or_imp, forall_and] using hthen
  | .ifElse cond thenBranch elseBranch, path, _ => by
    have hthen := script_sited hf hi thenBranch (path.child 0) false
    have helse := script_sited hf hi elseBranch (path.child 1) false
    simpa [script, hi, or_imp, forall_and] using ⟨hthen, helse⟩
  | .forLoop init guard increment body, path, _ => by
    have hinit := script_sited hf hi init (path.child 0) false
    have hbody := script_sited hf hi body (path.child 1) false
    have hheader : ∀ (part : ForHeaderSlot) (e : Option Expr),
        ∀ c ∈ Expr.scriptOption { around with forHeader := some part } e, c.Sited := by
      intro part e
      have hpart : Surroundings.initializerOf { around with forHeader := some part } = none := hi
      exact Expr.scriptOption_sited hpart e
    have hguard := hheader .guard guard
    have hincrement := hheader .increment increment
    simpa [script, or_imp, forall_and] using ⟨hinit, hguard, hincrement, hbody⟩
  | .whileLoop cond body, path, _ => by
    have hbody := script_sited hf hi body (path.child 0) false
    simpa [script, hi, or_imp, forall_and] using hbody
  | .doWhile body cond, path, _ => by
    have hbody := script_sited hf hi body (path.child 0) false
    simpa [script, hi, or_imp, forall_and] using hbody
  | .ret value, _, _ => by simpa only [script] using Expr.scriptOption_sited hi value
  | .breakLoop, _, _ => by simp [script]
  | .continueLoop, _, _ => by simp [script]
  | .discard, _, _ => by simp [script]
  | .empty, _, _ => by simp [script]

theorem scriptAll_sited (hf : around.function.isSome) (hi : around.initializerOf = none) :
    (ss : List Stmt) → (path : StmtPath) → (slot : Nat) →
    ∀ c ∈ scriptAll around ss path slot, c.Sited
  | [], _, _ => by simp [scriptAll]
  | s :: ss, path, slot => by
    simp only [scriptAll, List.forall_mem_append]
    exact ⟨script_sited hf hi s (path.child slot) true, scriptAll_sited hf hi ss path (slot + 1)⟩

end

end Stmt

theorem Parameter.script_sited (function index : Nat) (qs : List Parameter) :
    ∀ c ∈ scriptAll function index qs, c.Sited := by
  induction qs generalizing index with
  | nil => exact fun c hc => by cases hc
  | cons q qs ih =>
    cases h : q.name with
    | none => simpa only [scriptAll, h] using ih (index + 1)
    | some name => simpa [scriptAll, h] using ih (index + 1)

theorem Function.script_sited (index : Nat) (f : Function) : ∀ c ∈ f.script index, c.Sited := by
  have hparameters := Parameter.script_sited index 0 f.prototype.parameters
  have hbody : ∀ c ∈ Stmt.scriptAll { Surroundings.plain with function := some index } f.body.stmts
      ⟨index, []⟩ 0, c.Sited :=
    Stmt.scriptAll_sited rfl rfl f.body.stmts ⟨index, []⟩ 0
  simpa [script, or_imp, forall_and] using ⟨hparameters, hbody⟩

theorem Declaration.script_sited (version : Version) (index : Nat) (d : Declaration) :
    ∀ c ∈ d.script version index, c.Sited := by
  cases d with
  | «variables» g => exact g.sited fun m => ⟨fun _ => rfl, fun _ => rfl⟩
  | function f => exact f.script_sited index
  | prototype head => exact fun c hc => by cases hc

namespace Program

variable {p : Program} {switch : String} {slot : GlobalSlot} {v : Visit}

theorem script_sited (p : Program) : ∀ c ∈ p.script, c.Sited := by
  intro c hc
  obtain ⟨ds, d, ds', -, hc⟩ := mem_scriptAll hc
  exact d.script_sited p.version _ c hc

/-- What stands in an initializer is visited at the command that declares the
variable, and so is what was met up to some command. -/
theorem initializer_command_of_front {a rest : List Command} (ha : p.script = a ++ rest)
    (hv : .visit v ∈ Command.run p.prototypes a .start) {id : Nat}
    (hid : v.around.initializerOf = some id) :
    ∃ before w after, a = before ++ .declare w :: after ∧ (Command.declare w).Sited ∧
      v ∈ w.visits p.prototypes (Command.final before .start) ∧
        (Command.final before .start).id = id := by
  obtain ⟨before, c, after, rfl, he⟩ := Command.mem_run hv
  have hsited : c.Sited := p.script_sited c (by rw [ha]; simp)
  cases c with
  | expr around e =>
    obtain ⟨w, hw, hwv⟩ := List.mem_map.1 he
    obtain rfl := Event.visit.inj hwv
    have hbeside := (e.visits_beside _ _ around none _ w hw).2
    have hnone : w.around.initializerOf = around.initializerOf :=
      congrArg (·.initializerOf) hbeside
    rw [hnone, show around.initializerOf = none from hsited] at hid
    cases hid
  | declare w =>
    have hmem := Command.mem_visits_of_mem_events he
    have hof := Declarator.initializerOf_of_mem_visits hmem
    exact ⟨before, w, after, rfl, hsited, hmem, Option.some.inj (hof.symm.trans hid)⟩
  | enter o => cases he
  | leave => cases he

theorem initializer_command (hv : v ∈ p.visits) {id : Nat}
    (hid : v.around.initializerOf = some id) :
    ∃ before w after, p.script = before ++ .declare w :: after ∧ (Command.declare w).Sited ∧
      v ∈ w.visits p.prototypes (Command.final before .start) ∧
        (Command.final before .start).id = id := by
  rw [mem_visits, walk_eq_run] at hv
  exact initializer_command_of_front (List.append_nil _).symm hv hid

/-- An initializer is that of a variable that is declared. -/
theorem initializer_declared (hv : v ∈ p.visits) {id : Nat}
    (hid : v.around.initializerOf = some id) :
    ∃ d ∈ p.declared, d.symbol.id = id ∧
      (v.around.function = none ↔ d.location.slot?.isSome) := by
  obtain ⟨before, w, after, hscript, hsited, hmem, hstate⟩ := initializer_command hv hid
  have hfunction : v.around.function = w.around.function :=
    congrArg (·.function) (Declarator.around_of_mem_visits hmem)
  have hsome : w.initializer.isSome := by
    cases hi : w.initializer with
    | none => simp [Declarator.visits, Expr.visitsOption, hi] at hmem
    | some e => rfl
  refine ⟨w.declared (Command.final before .start), ?_, hstate, ?_⟩
  · rw [mem_declared, walk_eq_run, hscript, Command.run_append]
    simp [Command.run, Command.events]
  · rw [hfunction]
    exact hsited hsome

/-- Outside of functions, an expression is in the initializer of a global. -/
theorem exists_initializes (hv : v ∈ p.visits) (hfunction : v.around.function = none) :
    ∃ slot, p.Initializes v slot := by
  obtain ⟨hf, -⟩ | ⟨-, -, hinit⟩ := placed (mem_visits.1 hv)
  · rw [hfunction] at hf
    cases hf
  · obtain ⟨id, hid⟩ := Option.isSome_iff_exists.1 hinit
    obtain ⟨d, hd, rfl, hiff⟩ := initializer_declared hv hid
    obtain ⟨slot, hslot⟩ := Option.isSome_iff_exists.1 (hiff.1 hfunction)
    exact ⟨slot, d, hd, hslot, hid⟩

/-! ## What stays -/

/-- Whether the declaration at a place stays. Those in functions do. -/
def stays (p : Program) (switch : String) (l : DeclLocation) : Bool :=
  l.slot?.all fun slot => decide (p.Live switch slot)

/-- The declarations that stay. -/
def survivors (p : Program) (switch : String) : List Declared :=
  p.declared.filter fun d => p.stays switch d.location

/-- Whether the declaration with an id stays. -/
def staysId (p : Program) (switch : String) (id : Nat) : Bool :=
  (p.survivors switch).any (·.symbol.id == id)

/-- The identifiers that stay: those in no initializer but that of a
declaration that stays. -/
def remaining (p : Program) (switch : String) : List Visit :=
  p.identifiers.filter fun v => v.around.initializerOf.all (p.staysId switch)

theorem staysId_of_declared {d : Declared} (hd : d ∈ p.declared) :
    p.staysId switch d.symbol.id = p.stays switch d.location := by
  rw [Bool.eq_iff_iff, staysId, List.any_eq_true]
  constructor
  · rintro ⟨d', hd', hid⟩
    obtain ⟨hd', hstays⟩ := List.mem_filter.1 hd'
    obtain rfl := declared_ext hd' hd (by simpa using hid)
    exact hstays
  · exact fun hstays => ⟨d, List.mem_filter.2 ⟨hd, hstays⟩, by simp⟩

/-- What an expression that stays means stays, too. -/
theorem staysId_of_lookup (hv : v ∈ p.visits) {name : String} (hexpr : v.expr = .ident name)
    (hstays : v.around.initializerOf.all (p.staysId switch) = true) {u : Symbol}
    (hu : v.scope.lookup name = some u) : p.staysId switch u.id = true := by
  obtain ⟨d, hd, rfl, -⟩ := declared_of_bound (mem_visits.1 hv) (ScopeTree.lookup_mem hu).1
  rw [staysId_of_declared hd, stays]
  cases hslot : d.location.slot? with
  | none => rfl
  | some slot =>
    rw [Option.all_some, decide_eq_true_iff]
    have hmeans : p.Means v slot := ⟨name, hexpr, d, hd, hslot, hu⟩
    cases hfunction : v.around.function with
    | some index => exact .used hv (by rw [hfunction]; rfl) hmeans
    | none =>
      obtain ⟨reader, r, hr, hreader, hid⟩ := exists_initializes hv hfunction
      rw [hid, Option.all_some, staysId_of_declared hr, stays, hreader, Option.all_some,
        decide_eq_true_iff] at hstays
      exact hstays.read hv ⟨r, hr, hreader, hid⟩ hmeans

end Program

/-! ## The script afterwards -/

/-- The members that stay of those from the one numbered `member` on. -/
theorem VariableGroup.scriptMembers_like {around : Surroundings} {kind : SymbolKind}
    {locate locate' : Nat → DeclLocation} {g g' : VariableGroup}
    (hslot : ∀ m m', (locate' m').slot?.isSome = (locate m).slot?.isSome)
    (hconst : g'.isConst = g.isConst) (htype : g'.memberType = g.memberType)
    (here : DeclLocation → Bool) (vs : List Variable) (member member' : Nat) :
    List.Forall₂ Command.Like ((g.scriptMembers around kind locate member vs).filter (·.stays here))
      (g'.scriptMembers around kind locate' member'
        (((vs.zipIdx member).filter fun a => here (locate a.2)).map (·.1))) := by
  induction vs generalizing member member' with
  | nil => exact .nil
  | cons v vs ih =>
    have hv : (Command.declare (g.declarator around kind locate member v)).stays here =
        here (locate member) := rfl
    rw [scriptMembers, List.zipIdx_cons, List.filter_cons, List.filter_cons, hv]
    by_cases hm : here (locate member) = true
    · rw [if_pos hm, if_pos hm, List.map_cons, scriptMembers]
      refine .cons ?_ (ih (member + 1) (member' + 1))
      have hlike : Command.Like (.declare (g.declarator around kind locate member v))
          (.declare
            { g.declarator around kind locate member v with location := locate' member' }) :=
        .declare _ ⟨rfl, rfl⟩ (hslot member member')
      simpa [declarator, hconst, htype] using hlike
    · rw [if_neg hm, if_neg hm]
      exact ih (member + 1) member'

/-- A function that moved. -/
theorem Function.script_like (f : Function) (index index' : Nat) :
    List.Forall₂ Command.Like (f.script index) (f.script index') := by
  have hmoved := f.script_moves ⟨fun _ => index', fun q => ⟨index', q.steps⟩⟩ index fun _ => rfl
  rw [hmoved, List.forall₂_map_right_iff, List.forall₂_same]
  intro c hc
  have hsited := f.script_sited index c hc
  cases c with
  | expr around e => exact .expr e hsited ⟨rfl, by simp [Relocation.around]⟩
  | declare v =>
    refine .declare v ⟨rfl, by simp [Relocation.around]⟩ ?_
    cases v.location <;> rfl
  | enter opensFrame => exact .enter opensFrame
  | leave => exact .leave

/-- What is left of a declaration, wherever it is then. -/
theorem Declaration.script_like {here : DeclLocation → Bool} (version : Version) (d : Declaration)
    (index index' : Nat) (hhere : ∀ l, l.slot? = none → here l = true) :
    List.Forall₂ Command.Like ((d.script version index).filter (·.stays here))
      ((d.keep? fun member => here (.global index member)).toList.flatMap
        (·.script version index')) := by
  cases d with
  | «variables» g =>
    let around : Surroundings :=
      { Surroundings.plain with constContext := version.requiresConstGlobals }
    let left : VariableGroup :=
      { g with members := g.sift fun member => here (.global index member) }
    have hslot : ∀ m m' : Nat, (DeclLocation.global index' m').slot?.isSome =
        (DeclLocation.global index m).slot?.isSome := fun _ _ => rfl
    have hconst : left.isConst = g.isConst := rfl
    have htype : left.memberType = g.memberType := rfl
    have hmembers : List.Forall₂ Command.Like
        ((g.script around .global (.global index)).filter (·.stays here))
        (left.script around .global (.global index')) :=
      VariableGroup.scriptMembers_like hslot hconst htype here g.members 0 0
    unfold keep?
    dsimp only
    split
    · next hnone =>
      have hempty : left.script around .global (.global index') = [] := by
        rw [VariableGroup.script, show left.members = [] from List.isEmpty_iff.1 hnone]
        rfl
      rwa [hempty] at hmembers
    · rw [Option.toList_some, List.flatMap_singleton]
      exact hmembers
  | function f =>
    have hall : (f.script index).filter (·.stays here) = f.script index := by
      refine List.filter_eq_self.2 fun c hc => ?_
      cases c with
      | declare v => exact hhere v.location (Function.slot?_eq_none hc)
      | _ => rfl
    simpa [keep?, script, hall] using f.script_like index index'
  | prototype head => exact .nil

theorem Declaration.scriptAll_like (version : Version) {here : DeclLocation → Bool}
    (hhere : ∀ l, l.slot? = none → here l = true) (ds : List Declaration) (index index' : Nat) :
    List.Forall₂ Command.Like ((scriptAll version index ds).filter (·.stays here))
      (scriptAll version index' ((ds.zipIdx index).filterMap fun a =>
        a.1.keep? fun member => here (.global a.2 member))) := by
  induction ds generalizing index index' with
  | nil => exact .nil
  | cons d ds ih =>
    have hd := d.script_like version index index' hhere
    rw [scriptAll, List.filter_append, List.zipIdx_cons, List.filterMap_cons]
    cases hk : d.keep? fun member => here (.global index member) with
    | none =>
      rw [hk] at hd
      simpa using List.rel_append hd (ih (index + 1) index')
    | some d' =>
      rw [hk] at hd
      simpa [scriptAll] using List.rel_append hd (ih (index + 1) (index' + 1))

namespace Program

variable {p : Program} {switch : String} {slot : GlobalSlot} {v : Visit}

/-- The sweep goes by what stays. -/
theorem strip_declarations (p : Program) (switch : String) :
    (p.strip switch).1.declarations = p.declarations.zipIdx.filterMap fun a =>
      a.1.keep? fun member => p.stays switch (.global a.2 member) := by
  have hleaves : Strip.Leaves (fun slot => decide (p.Live switch slot)) 0 p.declarations
      (p.strip switch).1.declarations (p.strip switch).2 := Strip.leaves_sweep ?_
  · exact hleaves.declarations
  intro i d hd g hg member hmember
  rw [Nat.zero_add]
  exact contains_dead hd hg hmember

/-- The walk afterwards meets what is left of the walk before. -/
theorem strip_walk (p : Program) (switch : String) :
    List.Forall₂ (Event.Thinned (p.staysId switch))
      (p.walk.filter (·.stays (p.staysId switch))) (p.strip switch).1.walk := by
  have hscript : List.Forall₂ Command.Like (p.script.filter (·.stays (p.stays switch)))
      (p.strip switch).1.script := by
    have hhere : ∀ l, l.slot? = none → p.stays switch l = true := fun l hl => by
      rw [stays, hl]
      rfl
    have hlike := Declaration.scriptAll_like p.version hhere p.declarations 0 0
    rw [← p.strip_declarations switch] at hlike
    exact hlike
  have hstart : WalkState.start.Thins (p.staysId switch) WalkState.start := ⟨rfl, rfl, rfl⟩
  rw [walk_eq_run, walk_eq_run]
  refine Command.run_thinned hscript hstart _ _ fun d hd => ?_
  rw [← walk_eq_run, ← declared_eq] at hd
  exact staysId_of_declared hd

end Program

/-! ## Names afterwards -/

/-- The same variable, but for its id and its place. -/
structure Declared.Copied (d d' : Declared) : Prop where
  symbol : d'.symbol = { d.symbol with id := d'.symbol.id }
  isConst : d'.isConst = d.isConst
  isGlobal : d'.location.slot?.isSome = d.location.slot?.isSome

/-- What an expression stands for, when it is an identifier. -/
def Visit.meaning? (v : Visit) : Option Symbol := v.expr.name?.bind v.scope.lookup

/-- The same expression, which stands for the same declaration: the one at the
same place of `ds'` as its own in `ds`, or for none when it did so before. -/
structure Visit.KeepsMeaning (ds ds' : List Declared) (v v' : Visit) : Prop where
  expr : v'.expr = v.expr
  bound : ∀ u, v.meaning? = some u → ∃ u', u.Matched ds ds' u' ∧ v'.meaning? = some u'
  free : v.meaning? = none → v'.meaning? = none

namespace Program

variable {p : Program} {switch : String}

theorem survivors_eq (p : Program) (switch : String) :
    p.survivors switch =
      Event.declared (p.walk.filter (·.stays (p.staysId switch))) := by
  rw [Event.declared_filter_stays, ← declared_eq, survivors]
  exact List.filter_congr fun d hd => (staysId_of_declared hd).symm

/-- The declarations afterwards. -/
theorem strip_declared (p : Program) (switch : String) :
    List.Forall₂ (fun d d' : Declared => d'.symbol = d.symbol.thin (p.staysId switch) ∧
        d'.isConst = d.isConst ∧ d'.location.slot?.isSome = d.location.slot?.isSome)
      (p.survivors switch) (p.strip switch).1.declared := by
  rw [survivors_eq, declared_eq]
  exact Event.thinned_declared (p.strip_walk switch)

/-- The expressions afterwards. -/
theorem strip_visits (p : Program) (switch : String) :
    List.Forall₂ (fun v v' : Visit => v'.expr = v.expr ∧
        v'.scope = v.scope.thin (p.staysId switch) ∧
        v'.around.initializerOf = v.around.initializerOf.map (thinId (p.staysId switch)) ∧
        v'.around.function.isSome = v.around.function.isSome)
      (p.visits.filter fun v => v.around.initializerOf.all (p.staysId switch))
      (p.strip switch).1.visits := by
  rw [visits_eq, visits_eq, ← Event.visits_filter_stays]
  exact Event.thinned_visits (p.strip_walk switch)

/-- Taking out the unused globals rebinds no name. The declarations afterwards
are copies of those that stay, in their order, and the identifiers those that
are still there. Each of them stands for the copy of what it stood for, and
for nothing only when it did so before. -/
theorem strip_keeps_meaning (p : Program) (switch : String) :
    List.Forall₂ Declared.Copied (p.survivors switch) (p.strip switch).1.declared ∧
      List.Forall₂ (Visit.KeepsMeaning (p.survivors switch) (p.strip switch).1.declared)
        (p.remaining switch) (p.strip switch).1.identifiers := by
  have hdeclared := p.strip_declared switch
  refine ⟨hdeclared.imp ?_, ?_⟩
  · rintro d d' ⟨hsymbol, hconst, hslot⟩
    exact ⟨by rw [hsymbol, Symbol.thin], hconst, hslot⟩
  have hremaining : p.remaining switch =
      (p.visits.filter fun v => v.around.initializerOf.all (p.staysId switch)).filter
        (·.expr.name?.isSome) := by
    rw [remaining, identifiers, List.filter_filter, List.filter_filter]
    exact List.filter_congr fun v _ => Bool.and_comm _ _
  rw [hremaining, identifiers]
  have hvisits := forall₂_mem (p.strip_visits switch)
  refine (List.rel_filter (fun v v' h => by simp only [h.2.2.1]) hvisits).imp ?_
  rintro v v' ⟨hv, -, hexpr, hscope, -, -⟩
  obtain ⟨hv, hstays⟩ := List.mem_filter.1 hv
  refine ⟨hexpr, fun u hu => ?_, fun hnone => ?_⟩
  · obtain ⟨name, hname, hlookup⟩ := Option.bind_eq_some_iff.1 hu
    have hident := Expr.eq_ident_of_name? hname
    have hlives := staysId_of_lookup hv hident hstays hlookup
    obtain ⟨d, hd, rfl, -⟩ := declared_of_bound (mem_visits.1 hv) (ScopeTree.lookup_mem hlookup).1
    refine ⟨d.symbol.thin (p.staysId switch), ?_, ?_⟩
    · refine Symbol.matched_of_forall₂ (hdeclared.imp fun _ _ h => h.1) ?_
      exact List.mem_filter.2 ⟨hd, staysId_of_declared hd ▸ hlives⟩
    · rw [Visit.meaning?, hexpr, hname, hscope, Option.bind_some]
      exact ScopeTree.lookup_thin hlookup hlives
  · rw [Visit.meaning?, hexpr, hscope]
    rw [Visit.meaning?] at hnone
    cases hname : v.expr.name? with
    | none => rfl
    | some name =>
      rw [hname, Option.bind_some] at hnone
      exact ScopeTree.lookup_thin_eq_none hnone

end Program

end ShaderMorph
