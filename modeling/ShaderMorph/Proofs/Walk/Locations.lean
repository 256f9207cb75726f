-- No two declarations of a walk have the same location, so a location tells
-- at which command of the script a variable is declared. Within a group they
-- are met in the order of their places.
import ShaderMorph.Proofs.Walk.Spliced

namespace ShaderMorph

namespace Command

/-- Where a command declares a variable. -/
def location? : Command → Option DeclLocation
  | .declare v => some v.location
  | _ => none

/-- The locations that commands declare variables at, in order. -/
def locations (cs : List Command) : List DeclLocation := cs.filterMap location?

@[simp] theorem locations_nil : locations [] = [] := rfl

@[simp] theorem locations_expr (around : Surroundings) (e : Expr) (cs : List Command) :
    locations (.expr around e :: cs) = locations cs := rfl

@[simp] theorem locations_declare (v : Declarator) (cs : List Command) :
    locations (.declare v :: cs) = v.location :: locations cs := rfl

@[simp] theorem locations_enter (opensFrame : Bool) (cs : List Command) :
    locations (.enter opensFrame :: cs) = locations cs := rfl

@[simp] theorem locations_leave (cs : List Command) : locations (.leave :: cs) = locations cs := rfl

@[simp] theorem locations_append (cs ds : List Command) :
    locations (cs ++ ds) = locations cs ++ locations ds := List.filterMap_append

@[simp] theorem locations_scriptOption (around : Surroundings) (e : Option Expr) :
    locations (Expr.scriptOption around e) = [] := by
  cases e <;> rfl

theorem run_locations (heads : List Prototype) (cs : List Command) (s : WalkState) :
    (Event.declared (run heads cs s)).map (·.location) = locations cs := by
  induction cs generalizing s with
  | nil => rfl
  | cons c cs ih =>
    rw [run, Event.declared_append, List.map_append, ih]
    cases c <;> simp [events, Declarator.declared]

theorem locations_relocate (ρ : Relocation) (cs : List Command) :
    locations (cs.map (.relocate ρ)) = (locations cs).map ρ.location := by
  induction cs with
  | nil => rfl
  | cons c cs ih => cases c <;> simp [relocate, Declarator.relocate, ih]

end Command

open Command

theorem VariableGroup.locations_scriptMembers (around : Surroundings) (kind : SymbolKind)
    (locate : Nat → DeclLocation) (g : VariableGroup) (member : Nat) (vs : List Variable) :
    locations (g.scriptMembers around kind locate member vs) =
      (List.range' member vs.length).map locate := by
  induction vs generalizing member with
  | nil => rfl
  | cons v vs ih =>
    rw [scriptMembers, locations_declare, ih, List.length_cons, List.range'_succ, List.map_cons]
    rfl

/-! ## The order in a group -/

namespace DeclLocation

/-- A variable at `b` can be declared after one at `a`: it is in another place,
and in no earlier one of the group. -/
def Later (a b : DeclLocation) : Prop := a ≠ b ∧ b.precedesInGroup a = false

/-- What holds of a location, for the whole group that it is in, and does not
hold of another one tells them apart. -/
theorem Later.of_apart {P : DeclLocation → Prop} {a b : DeclLocation}
    (hP : ∀ l l' : DeclLocation, l.precedesInGroup l' = true → P l → P l') (ha : ¬ P a)
    (hb : P b) : a.Later b := by
  constructor
  · rintro rfl
    exact ha hb
  · exact Bool.eq_false_iff.2 fun h => ha (hP b a h hb)

theorem Later.nodup {ls : List DeclLocation} (h : ls.Pairwise Later) : ls.Nodup :=
  h.imp fun hlater => hlater.1

/-- The members of a group come one after the other. -/
theorem Later.members {locate : Nat → DeclLocation}
    (h : ∀ i j, i < j → (locate i).Later (locate j)) (member count : Nat) :
    ((List.range' member count).map locate).Pairwise Later :=
  List.pairwise_map.2 (List.Pairwise.imp (h _ _) List.pairwise_lt_range')

end DeclLocation

/-! ## Statements -/

/-- A location inside the statement at `q`. -/
def DeclLocation.Under (q : StmtPath) : DeclLocation → Prop
  | .block p _ => ∃ rest, p = ⟨q.function, q.steps ++ rest⟩
  | .nested p _ => ∃ rest, p = ⟨q.function, q.steps ++ rest⟩
  | .global _ _ => False
  | .parameter _ _ => False

theorem DeclLocation.Under.of_child {q : StmtPath} {slot : Nat} {l : DeclLocation}
    (h : l.Under (q.child slot)) : l.Under q := by
  cases l with
  | block p m => obtain ⟨rest, rfl⟩ := h; exact ⟨slot :: rest, by simp [StmtPath.child]⟩
  | nested p m => obtain ⟨rest, rfl⟩ := h; exact ⟨slot :: rest, by simp [StmtPath.child]⟩
  | global d m => cases h
  | parameter f i => cases h

theorem DeclLocation.Under.slot_eq {q : StmtPath} {i j : Nat} {l : DeclLocation}
    (h : l.Under (q.child i)) (h' : l.Under (q.child j)) : i = j := by
  cases l with
  | block p m =>
    obtain ⟨rest, rfl⟩ := h
    obtain ⟨rest', he⟩ := h'
    simp only [StmtPath.child, StmtPath.mk.injEq, List.append_assoc, List.append_cancel_left_eq,
      List.singleton_append, List.cons.injEq, true_and] at he
    exact he.1
  | nested p m =>
    obtain ⟨rest, rfl⟩ := h
    obtain ⟨rest', he⟩ := h'
    simp only [StmtPath.child, StmtPath.mk.injEq, List.append_assoc, List.append_cancel_left_eq,
      List.singleton_append, List.cons.injEq, true_and] at he
    exact he.1
  | global d m => cases h
  | parameter f i => cases h

/-- A group is inside a statement as a whole. -/
theorem DeclLocation.Under.group {q : StmtPath} (l l' : DeclLocation)
    (h : l.precedesInGroup l' = true) (hu : l.Under q) : l'.Under q := by
  unfold precedesInGroup at h
  split at h
  · cases hu
  · rw [Bool.and_eq_true, beq_iff_eq] at h
    exact h.1 ▸ hu
  · rw [Bool.and_eq_true, beq_iff_eq] at h
    exact h.1 ▸ hu
  · cases h

/-- Locations inside the statement at `q`, in the order of their groups. -/
structure DeclLocation.Within (q : StmtPath) (ls : List DeclLocation) : Prop where
  under : ∀ l ∈ ls, l.Under q
  ordered : ls.Pairwise Later

namespace DeclLocation.Within

variable {q : StmtPath} {ls ls' : List DeclLocation}

theorem nil (q : StmtPath) : Within q [] := ⟨by simp, .nil⟩

theorem of_child {slot : Nat} (h : Within (q.child slot) ls) : Within q ls :=
  ⟨fun l hl => (h.under l hl).of_child, h.ordered⟩

/-- What is inside two different statements of one. -/
theorem children {i j : Nat} (hij : i ≠ j) (h : Within (q.child i) ls)
    (h' : Within (q.child j) ls') : Within q (ls ++ ls') := by
  constructor
  · intro l hl
    rcases List.mem_append.1 hl with hl | hl
    · exact (h.under l hl).of_child
    · exact (h'.under l hl).of_child
  · refine List.pairwise_append.2 ⟨h.ordered, h'.ordered, fun l hl l' hl' => ?_⟩
    exact .of_apart Under.group (fun hu => hij ((h.under l hl).slot_eq hu)) (h'.under l' hl')

end DeclLocation.Within

namespace Stmt

variable (around : Surroundings)

mutual

theorem locations_within : (s : Stmt) → (q : StmtPath) → (inList : Bool) →
    DeclLocation.Within q (locations (s.script around q inList))
  | .block stmts true, q, _ => by
    have h := locationsAll_within stmts q 0
    simpa [script] using DeclLocation.Within.mk (q := q)
      (fun l hl => let ⟨_, _, hu⟩ := h.1 l hl; hu.of_child) h.2
  | .block stmts false, q, _ => by
    have h := locationsAll_within stmts q 0
    simpa [script] using DeclLocation.Within.mk (q := q)
      (fun l hl => let ⟨_, _, hu⟩ := h.1 l hl; hu.of_child) h.2
  | .decl group, q, inList => by
    simp only [script, VariableGroup.script, VariableGroup.locations_scriptMembers]
    constructor
    · intro l hl
      obtain ⟨m, -, rfl⟩ := List.mem_map.1 hl
      cases inList <;> exact ⟨[], by simp⟩
    · refine DeclLocation.Later.members (fun i j hij => ?_) _ _
      cases inList <;> simp [DeclLocation.Later, DeclLocation.precedesInGroup] <;> omega
  | .expr value, q, _ => .nil q
  | .ifThen cond thenBranch, q, _ => by
    simpa [script] using (locations_within thenBranch (q.child 0) false).of_child
  | .ifElse cond thenBranch elseBranch, q, _ => by
    simpa [script] using DeclLocation.Within.children Nat.zero_ne_one
      (locations_within thenBranch (q.child 0) false)
      (locations_within elseBranch (q.child 1) false)
  | .forLoop init guard increment body, q, _ => by
    simpa [script] using DeclLocation.Within.children Nat.zero_ne_one
      (locations_within init (q.child 0) false) (locations_within body (q.child 1) false)
  | .whileLoop cond body, q, _ => by
    simpa [script] using (locations_within body (q.child 0) false).of_child
  | .doWhile body cond, q, _ => by
    simpa [script] using (locations_within body (q.child 0) false).of_child
  | .ret value, q, _ => by simpa [script] using DeclLocation.Within.nil q
  | .breakLoop, q, _ => .nil q
  | .continueLoop, q, _ => .nil q
  | .discard, q, _ => .nil q
  | .empty, q, _ => .nil q

theorem locationsAll_within : (ss : List Stmt) → (q : StmtPath) → (slot : Nat) →
    (∀ l ∈ locations (scriptAll around ss q slot), ∃ j, slot ≤ j ∧ l.Under (q.child j)) ∧
      (locations (scriptAll around ss q slot)).Pairwise DeclLocation.Later
  | [], q, slot => by simp [scriptAll]
  | s :: ss, q, slot => by
    have hs := locations_within s (q.child slot) true
    obtain ⟨hu, hn⟩ := locationsAll_within ss q (slot + 1)
    simp only [scriptAll, locations_append]
    constructor
    · intro l hl
      rcases List.mem_append.1 hl with hl | hl
      · exact ⟨slot, Nat.le_refl _, hs.under l hl⟩
      · obtain ⟨j, hj, hl⟩ := hu l hl
        exact ⟨j, Nat.le_of_succ_le hj, hl⟩
    · refine List.pairwise_append.2 ⟨hs.ordered, hn, fun l hl l' hl' => ?_⟩
      obtain ⟨j, hj, hl'⟩ := hu l' hl'
      refine .of_apart DeclLocation.Under.group (fun hu => ?_) hl'
      have := (hs.under l hl).slot_eq hu
      omega

end

end Stmt

/-! ## Programs -/

/-- The place, among the declarations, of what a location is inside. -/
def DeclLocation.root : DeclLocation → Nat
  | .global declaration _ => declaration
  | .block path _ => path.function
  | .nested path _ => path.function
  | .parameter function _ => function

theorem DeclLocation.Under.root_eq {q : StmtPath} {l : DeclLocation} (h : l.Under q) :
    l.root = q.function := by
  cases l with
  | block p m => obtain ⟨rest, rfl⟩ := h; rfl
  | nested p m => obtain ⟨rest, rfl⟩ := h; rfl
  | global d m => cases h
  | parameter f i => cases h

theorem DeclLocation.root_group (l l' : DeclLocation) (h : l.precedesInGroup l' = true) :
    l.root = l'.root := by
  unfold precedesInGroup at h
  split at h
  · rw [Bool.and_eq_true, beq_iff_eq] at h
    exact h.1
  · rw [Bool.and_eq_true, beq_iff_eq] at h
    exact congrArg StmtPath.function h.1
  · rw [Bool.and_eq_true, beq_iff_eq] at h
    exact congrArg StmtPath.function h.1
  · cases h

theorem Parameter.locations_scriptAll (function index : Nat) (qs : List Parameter) :
    (∀ l ∈ locations (scriptAll function index qs), ∃ i, index ≤ i ∧ l = .parameter function i) ∧
      (locations (scriptAll function index qs)).Pairwise DeclLocation.Later := by
  induction qs generalizing index with
  | nil => simp [scriptAll]
  | cons q qs ih =>
    obtain ⟨hl, hn⟩ := ih (index + 1)
    have hlater : ∀ l ∈ locations (scriptAll function (index + 1) qs),
        ∃ i, index ≤ i ∧ l = .parameter function i := by
      intro l hm
      obtain ⟨i, hi, rfl⟩ := hl l hm
      exact ⟨i, Nat.le_of_succ_le hi, rfl⟩
    cases hq : q.name with
    | none => simpa [scriptAll, hq] using And.intro hlater hn
    | some name =>
      simp only [scriptAll, hq, locations_declare, List.forall_mem_cons, List.pairwise_cons]
      refine ⟨⟨⟨index, Nat.le_refl _, rfl⟩, hlater⟩, fun l hm => ?_, hn⟩
      obtain ⟨i, hi, rfl⟩ := hl l hm
      exact ⟨fun he => by cases he; omega, rfl⟩

theorem Declaration.locations_script (version : Version) (index : Nat) (d : Declaration) :
    (∀ l ∈ locations (d.script version index), l.root = index) ∧
      (locations (d.script version index)).Pairwise DeclLocation.Later := by
  cases d with
  | «variables» group =>
    simp only [script, VariableGroup.script, VariableGroup.locations_scriptMembers]
    constructor
    · intro l hl
      obtain ⟨m, -, rfl⟩ := List.mem_map.1 hl
      rfl
    · refine DeclLocation.Later.members (fun i j hij => ?_) _ _
      simp [DeclLocation.Later, DeclLocation.precedesInGroup]
      omega
  | prototype head => simp [script]
  | function f =>
    obtain ⟨hp, hpn⟩ := Parameter.locations_scriptAll index 0 f.prototype.parameters
    obtain ⟨hb, hbn⟩ := Stmt.locationsAll_within { Surroundings.plain with function := some index }
      f.body.stmts ⟨index, []⟩ 0
    simp only [script, Function.script, locations_enter, locations_append, locations_leave,
      locations_nil, List.append_nil]
    constructor
    · intro l hl
      rcases List.mem_append.1 hl with hl | hl
      · obtain ⟨i, -, rfl⟩ := hp l hl
        rfl
      · obtain ⟨j, -, hu⟩ := hb l hl
        exact hu.root_eq
    · refine List.pairwise_append.2 ⟨hpn, hbn, fun l hl l' hl' => ?_⟩
      obtain ⟨i, -, rfl⟩ := hp l hl
      obtain ⟨j, -, hu⟩ := hb l' hl'
      exact .of_apart DeclLocation.Under.group (fun hparameter => hparameter) hu

theorem Declaration.locations_scriptAll (version : Version) (index : Nat) (ds : List Declaration) :
    (∀ l ∈ locations (scriptAll version index ds), index ≤ l.root) ∧
      (locations (scriptAll version index ds)).Pairwise DeclLocation.Later := by
  induction ds generalizing index with
  | nil => simp [scriptAll]
  | cons d ds ih =>
    obtain ⟨hd, hdn⟩ := d.locations_script version index
    obtain ⟨hl, hn⟩ := ih (index + 1)
    simp only [scriptAll, locations_append]
    constructor
    · intro l hm
      rcases List.mem_append.1 hm with hm | hm
      · exact Nat.le_of_eq (hd l hm).symm
      · exact Nat.le_of_succ_le (hl l hm)
    · refine List.pairwise_append.2 ⟨hdn, hn, fun l hm l' hm' => ?_⟩
      have hroot := hl l' hm'
      refine .of_apart (P := fun l => index + 1 ≤ l.root)
        (fun a b h ha => DeclLocation.root_group a b h ▸ ha) (fun h => ?_) hroot
      rw [hd l hm] at h
      omega

namespace Program

/-- The declarations of a program are met in the order of their groups. -/
theorem locations_ordered (p : Program) :
    (p.declared.map (·.location)).Pairwise DeclLocation.Later := by
  rw [declared_eq, walk_eq_run, run_locations]
  exact (Declaration.locations_scriptAll p.version 0 p.declarations).2

/-- No two declarations of a program have the same location. -/
theorem locations_nodup (p : Program) : (locations p.script).Nodup :=
  DeclLocation.Later.nodup (Declaration.locations_scriptAll p.version 0 p.declarations).2

/-- A declaration is told by its location. -/
theorem declared_location_ext {p : Program} {d d' : Declared} (hd : d ∈ p.declared)
    (hd' : d' ∈ p.declared) (h : d.location = d'.location) : d = d' := by
  exact List.inj_on_of_nodup_map (DeclLocation.Later.nodup p.locations_ordered) hd hd' h

/-- A variable is declared at one command of the script only. -/
theorem script_split_unique {p : Program} {v : Declarator} {a b a' b' : List Command}
    (h : p.script = a ++ .declare v :: b) (h' : p.script = a' ++ .declare v :: b') :
    a = a' ∧ b = b' := by
  have hn := p.locations_nodup
  rw [h, locations_append, locations_declare, List.nodup_append, List.nodup_cons] at hn
  have hloc : ∀ {cs : List Command}, .declare v ∈ cs → v.location ∈ locations cs :=
    fun hm => List.mem_filterMap.2 ⟨_, hm, rfl⟩
  have ha : .declare v ∉ a := fun hm => hn.2.2 _ (hloc hm) _ List.mem_cons_self rfl
  have hb : .declare v ∉ b := fun hm => hn.2.1.1 (hloc hm)
  obtain ⟨hl, -, hr⟩ := (List.append_cons_inj_of_notMem ha hb).1 (h.symm.trans h')
  exact ⟨hl, hr⟩

end Program

end ShaderMorph
