-- Taking out the global variables that nothing reads. A global is used when
-- an expression in a function means it, when it has the name of the switch,
-- or when the initializer of a used global reads it. The others are taken
-- out of their groups, and groups without members go with them; all else
-- keeps its order.
import ShaderMorph.Walk.Walk

namespace ShaderMorph

/-! ## Which globals are used -/

/-- Where a global variable stands: its group among the declarations, and
its place in the group. -/
structure GlobalSlot where
  declaration : Nat
  member : Nat
deriving DecidableEq, Repr

/-- What the walk tells about globals: their slots and names by id, the
globals that functions use, and who reads whom in an initializer. -/
structure GlobalUsage where
  slots : List (Nat × GlobalSlot × String)
  roots : List Nat
  reads : List (Nat × Nat)
deriving Repr

namespace GlobalUsage

/-- Take note of what the walk meets. Only initializers of globals stand in
the global scope. -/
def note (u : GlobalUsage) : Event → GlobalUsage
  | .declare d =>
    match d.location with
    | .global declaration member =>
      { u with slots := u.slots ++ [(d.symbol.id, ⟨declaration, member⟩, d.symbol.name)] }
    | _ => u
  | .visit v =>
    match v.expr.name?.bind v.scope.lookup with
    | none => u
    | some s =>
      if s.kind = .global then
        match v.around.initializerOf, v.scope.isGlobal with
        | some reader, true => { u with reads := (reader, s.id) :: u.reads }
        | _, _ => { u with roots := s.id :: u.roots }
      else u

def ofEvents (events : List Event) : GlobalUsage := events.foldl note ⟨[], [], []⟩

end GlobalUsage

/-- The ends of the edges that start at `id`. -/
def edgesFrom (id : Nat) (edges : List (Nat × Nat)) : List Nat :=
  (edges.filter (·.1 == id)).map (·.2)

/-- The edges that start elsewhere. -/
def edgesElsewhere (id : Nat) (edges : List (Nat × Nat)) : List (Nat × Nat) :=
  edges.filter (·.1 != id)

theorem length_edges (id : Nat) (edges : List (Nat × Nat)) :
    (edgesElsewhere id edges).length + (edgesFrom id edges).length = edges.length := by
  induction edges with
  | nil => rfl
  | cons e edges ih =>
    by_cases h : e.1 = id <;> simp_all [edgesElsewhere, edgesFrom] <;> omega

/-- Everything that can be reached from `pending` along `edges`, besides what
is reached already. Each edge is followed once, when its start is taken up,
and so the work comes to an end. -/
def reachable (edges : List (Nat × Nat)) (pending reached : List Nat) : List Nat :=
  match pending with
  | [] => reached
  | id :: pending =>
    reachable (edgesElsewhere id edges) (edgesFrom id edges ++ pending) (id :: reached)
termination_by edges.length + pending.length
decreasing_by
  have h := length_edges id edges
  simp only [List.length_append, List.length_cons]
  omega

namespace GlobalUsage

/-- The ids of the globals that must stay. -/
def live (u : GlobalUsage) (switch : String) : List Nat :=
  let kept := (u.slots.filter (·.2.2 == switch)).map (·.1)
  reachable u.reads (u.roots ++ kept) []

/-- The slots of the globals that nothing uses. -/
def dead (u : GlobalUsage) (switch : String) : List GlobalSlot :=
  let live := u.live switch
  (u.slots.filter fun s => !live.contains s.1).map (·.2.1)

end GlobalUsage

/-! ## Taking them out -/

/-- What was taken out: the names of variables in their order, and how many
groups went. -/
structure StripReport where
  removed : List String
  removedGroups : Nat
deriving DecidableEq, Repr

/-- Whether no variable was taken out. -/
def StripReport.isEmpty (r : StripReport) : Bool := r.removed.isEmpty

namespace Strip

/-- Part the members of a group, from the one numbered `member` on, into
those that stay and the names of those in the given slots. -/
def sweepMembers (slots : List GlobalSlot) (declaration : Nat) :
    (member : Nat) → List Variable → List Variable × List String
  | _, [] => ([], [])
  | member, v :: vs =>
    let (kept, removed) := sweepMembers slots declaration (member + 1) vs
    if slots.contains ⟨declaration, member⟩ then (kept, v.name :: removed)
    else (v :: kept, removed)

/-- Sweep the declarations from the one numbered `index` on. A group that has
no members afterwards goes. -/
def sweep (slots : List GlobalSlot) :
    (index : Nat) → List Declaration → List Declaration × StripReport
  | _, [] => ([], ⟨[], 0⟩)
  | index, .variables group :: ds =>
    let (members, removed) := sweepMembers slots index 0 group.members
    let (rest, report) := sweep slots (index + 1) ds
    let report := { report with removed := removed ++ report.removed }
    if members.isEmpty then (rest, { report with removedGroups := report.removedGroups + 1 })
    else (.variables { group with members } :: rest, report)
  | index, d :: ds =>
    let (rest, report) := sweep slots (index + 1) ds
    (d :: rest, report)

end Strip

/-- The name that the switch of injected code has, unless it is set. -/
def defaultSwitch : String := "injectionSwitch"

/-- The program without the globals that nothing uses, and what was taken
out. The global named `switch` always stays. -/
def Program.strip (p : Program) (switch : String) : Program × StripReport :=
  let slots := (GlobalUsage.ofEvents p.walk).dead switch
  let (declarations, report) := Strip.sweep slots 0 p.declarations
  ({ p with declarations }, report)

end ShaderMorph
