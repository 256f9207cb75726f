-- The location of a declaration leads back to it. The walk numbers slots on
-- its way down, and a path is followed by another recursion, with a numbering
-- of its own for each form of statement. Both agree: where the walk says that
-- a variable is declared, one of its name and type is found. It is found in a
-- list of statements just when the walk says that too, and so a sibling can be
-- put before it just where the walk allows one.
import ShaderMorph.Proofs.Lexical.Extent

namespace ShaderMorph

/-! ## What is at a location -/

/-- A member of a group has this name, and with its array shape this type. -/
def VariableGroup.HasMember (g : VariableGroup) (member : Nat) (name : String) (type : DataType) :
    Prop :=
  ∃ x, g.members[member]? = some x ∧ x.name = name ∧ g.memberType x = type

/-- The statements of a block. -/
def Stmt.stmts? : Stmt → Option (List Stmt)
  | .block stmts _ => some stmts
  | _ => none

namespace Program

section

variable (p : Program)

/-- A variable of this name and type is at a location. -/
def HasVariable (name : String) (type : DataType) : DeclLocation → Prop
  | .global declaration member =>
    ∃ g, p.declarations[declaration]? = some (.variables g) ∧ g.HasMember member name type
  | .block path member => ∃ g, p.stmtAt? path = some (.decl g) ∧ g.HasMember member name type
  | .nested path member => ∃ g, p.stmtAt? path = some (.decl g) ∧ g.HasMember member name type
  | .parameter function index =>
    ∃ f q, p.functionAt? function = some f ∧ f.prototype.parameters[index]? = some q ∧
      q.name = some name ∧ q.fullType = type

/-- A location is right for a variable of this name and type: the variable is
there, in a list of statements just when the location says so. -/
structure Addresses (l : DeclLocation) (name : String) (type : DataType) : Prop where
  found : p.HasVariable name type l
  listed : ∀ path member, l = .block path member →
    ∃ place slot g, p.stmtsPlace? path = some (place, slot) ∧
      place.part[slot]? = some (.decl g) ∧ p.stmtAt? path = some (.decl g)
  bare : ∀ path member, l = .nested path member → p.stmtsPlace? path = none

/-- The location of a declaration is right for its variable, and another one can
be put before its group just when the location accepts a sibling. -/
structure Located (d : Declared) : Prop where
  addresses : p.Addresses d.location d.symbol.name d.symbol.type
  sibling : ∀ name type, d.location.acceptsSibling = true ↔
    ∃ g p', p.PutBefore (.bare name type) g d.location p' ∧
      p.declareBefore d.location name type = .ok p'

end

/-! ## Following a path into a body -/

variable {p : Program} {function : Nat} {f : Function}

/-- A path leads where its steps lead from the body. -/
theorem stmtPlace?_part (hf : p.functionAt? function = some f) {steps : List Nat}
    (hsteps : steps ≠ []) :
    (p.stmtPlace? function steps).map (·.part) =
      ((Stmt.block f.body.stmts f.body.opensFrame).place? steps).map (·.part) := by
  obtain ⟨body, hbody, hpart⟩ := exists_bodyPlace hf
  cases steps with
  | nil => exact absurd rfl hsteps
  | cons first steps =>
    simp only [stmtPlace?, hbody, hpart, Stmt.place?, Stmt.childPlace?, Option.bind_eq_bind,
      Option.bind_some, Option.pure_def]
    cases Place.ofIndex? f.body.stmts first with
    | none => rfl
    | some top =>
      simp only [Option.bind_some, Option.map_some, Place.part_map]
      cases top.part.place? steps <;> rfl

/-- The list around a path is that of the statement that all steps but the last
one lead to, if this is a block. -/
theorem stmtsPlace?_part (hf : p.functionAt? function = some f) {dir : List Nat} (slot : Nat)
    {parent : Place Stmt Stmt}
    (hparent : (Stmt.block f.body.stmts f.body.opensFrame).place? dir = some parent) :
    (p.stmtsPlace? ⟨function, dir ++ [slot]⟩).map (fun a => (a.1.part, a.2)) =
      parent.part.stmts?.map (·, slot) := by
  obtain ⟨body, hbody, hpart⟩ := exists_bodyPlace hf
  have hlast : (dir ++ [slot]).getLast? = some slot := List.getLast?_concat
  have hinit : (dir ++ [slot]).dropLast = dir := List.dropLast_concat
  simp only [stmtsPlace?, hlast, hinit, Option.bind_eq_bind, Option.bind_some, Option.pure_def]
  cases dir with
  | nil =>
    cases hparent
    simp [hbody, hpart, Place.whole, Stmt.stmts?]
  | cons first steps =>
    have hplace := stmtPlace?_part hf (List.cons_ne_nil first steps)
    rw [hparent, Option.map_some, Option.map_eq_some_iff] at hplace
    obtain ⟨place, hplace, hsame⟩ := hplace
    simp only [hplace, Option.bind_some, ← hsame]
    cases place.part <;> rfl

/-- A variable that is in no statement is where its location says. -/
theorem HasVariable.addresses {l : DeclLocation} {name : String} {type : DataType}
    (h : p.HasVariable name type l) (hblock : ∀ path member, l ≠ .block path member)
    (hnested : ∀ path member, l ≠ .nested path member) : p.Addresses l name type where
  found := h
  listed path member hl := absurd hl (hblock path member)
  bare path member hl := absurd hl (hnested path member)

section

variable {g : VariableGroup} {dir : List Nat} {slot member : Nat} {parent : Place Stmt Stmt}
  {name : String} {type : DataType}

/-- A group that stands in a list is found there. -/
theorem addresses_block (hf : p.functionAt? function = some f)
    (hat : p.stmtAt? ⟨function, dir ++ [slot]⟩ = some (.decl g))
    (hmember : g.HasMember member name type)
    (hparent : (Stmt.block f.body.stmts f.body.opensFrame).place? dir = some parent)
    (hblock : parent.part.isBlock = true) {child : Place Stmt Stmt}
    (hchild : parent.part.childPlace? slot = some child) (hpart : child.part = .decl g) :
    p.Addresses (.block ⟨function, dir ++ [slot]⟩ member) name type := by
  refine ⟨⟨g, hat, hmember⟩, fun path m h => ?_, fun path m h => by cases h⟩
  obtain ⟨rfl, rfl⟩ := DeclLocation.block.inj h
  have hlist := stmtsPlace?_part hf slot hparent
  cases hparentPart : parent.part with
  | block stmts opensFrame =>
    rw [hparentPart, Stmt.stmts?, Option.map_some, Option.map_eq_some_iff] at hlist
    obtain ⟨⟨place, i⟩, hplace, hsame⟩ := hlist
    obtain ⟨hstmts, rfl⟩ := Prod.mk.inj hsame
    refine ⟨place, i, g, hplace, ?_, hat⟩
    rw [hparentPart] at hchild
    obtain ⟨before, t, after, rfl, rfl, rfl⟩ := Place.ofIndex?_map_cases hchild
    change place.part = _ at hstmts
    rw [hstmts]
    simp [hpart]
  | _ =>
    rw [hparentPart] at hblock
    cases hblock

/-- A group that is itself a part of a statement has no list around it. -/
theorem addresses_nested (hf : p.functionAt? function = some f)
    (hat : p.stmtAt? ⟨function, dir ++ [slot]⟩ = some (.decl g))
    (hmember : g.HasMember member name type)
    (hparent : (Stmt.block f.body.stmts f.body.opensFrame).place? dir = some parent)
    (hblock : parent.part.isBlock = false) :
    p.Addresses (.nested ⟨function, dir ++ [slot]⟩ member) name type := by
  refine ⟨⟨g, hat, hmember⟩, fun path m h => (by cases h), fun path m h => ?_⟩
  obtain ⟨rfl, rfl⟩ := DeclLocation.nested.inj h
  have hlist := stmtsPlace?_part hf slot hparent
  have hnone : parent.part.stmts? = none := by
    cases hparentPart : parent.part with
    | block stmts opensFrame =>
      rw [hparentPart] at hblock
      cases hblock
    | _ => rfl
  rwa [hnone, Option.map_none, Option.map_eq_none_iff] at hlist

end

/-- What a function declares is where its location says. -/
theorem addresses_of_function (hf : p.functionAt? function = some f) {v : Declarator}
    (hv : .declare v ∈ f.script function) : p.Addresses v.location v.name v.type := by
  obtain ⟨i, q, hq, hname, htype, hl⟩ | ⟨g, steps, listed, hg, hmem⟩ := declares_of_function hv
  · rw [hl]
    have hfound : p.HasVariable v.name v.type (.parameter function i) :=
      ⟨f, q, hf, hq, hname, htype.symm⟩
    exact hfound.addresses (fun _ _ h => by cases h) fun _ _ h => by cases h
  · obtain ⟨member, x, hx, he⟩ := VariableGroup.mem_script hmem
    obtain ⟨-, hdecl, -⟩ | ⟨dir, slot, parent, child, rfl, hparent, hblock, hchild, hpart⟩ :=
      hg.exists_parent
    · cases hdecl
    have hat : p.stmtAt? ⟨function, dir ++ [slot]⟩ = some (.decl g) := by
      obtain ⟨place, hplace, hdecl⟩ := hg.exists_place
      rw [stmtAt?, stmtPlace?_part hf (by simp), hplace, Option.map_some, hdecl]
    have hmember : g.HasMember member v.name v.type := by
      cases he
      exact ⟨x, hx, rfl, rfl⟩
    cases listed with
    | true =>
      have hl : v.location = .block ⟨function, dir ++ [slot]⟩ member := by cases he; rfl
      rw [hl]
      exact addresses_block hf hat hmember hparent hblock hchild hpart
    | false =>
      have hl : v.location = .nested ⟨function, dir ++ [slot]⟩ member := by cases he; rfl
      rw [hl]
      exact addresses_nested hf hat hmember hparent hblock

/-! ## Programs -/

theorem addresses_of_mem_script {v : Declarator} (hv : .declare v ∈ p.script) :
    p.Addresses v.location v.name v.type := by
  obtain ⟨before, d, after, hds, hd⟩ := mem_scriptAll hv
  have hat : p.declarations[before.length]? = some d := by simp [hds]
  rw [Nat.zero_add] at hd
  cases d with
  | «variables» g =>
    obtain ⟨member, x, hx, he⟩ := VariableGroup.mem_script hd
    cases he
    have hfound : p.HasVariable x.name (g.memberType x) (.global before.length member) :=
      ⟨g, hat, x, hx, rfl, rfl⟩
    exact hfound.addresses (fun _ _ h => by cases h) fun _ _ h => by cases h
  | prototype head => cases hd
  | function f => exact addresses_of_function (functionAt?_eq_some.2 hat) hd

/-- The locations that a walk reports are exact: ids are given in order, no two
declarations have the same location, and each location leads to its variable,
in a list of statements where it says so, with room for a sibling just where it
accepts one. -/
theorem declared_located (p : Program) :
    p.declared.map (·.symbol.id) = List.range p.declared.length ∧
      (p.declared.map (·.location)).Nodup ∧ ∀ d ∈ p.declared, p.Located d := by
  refine ⟨p.declared_id, DeclLocation.Later.nodup p.locations_ordered, fun d hd => ?_⟩
  have hwalk := mem_declared.1 hd
  rw [walk_eq_run] at hwalk
  obtain ⟨before, v, after, hscript, rfl⟩ := Command.mem_run_declare hwalk
  have hv : .declare v ∈ p.script := by simp [hscript]
  refine ⟨addresses_of_mem_script hv, fun name type => ⟨fun haccepts => ?_, ?_⟩⟩
  · obtain ⟨g, around, kind, locate, p', hput, -⟩ :=
      exists_putBefore hv haccepts (.bare name type)
    exact ⟨g, p', hput, hput.declareBefore_eq⟩
  · rintro ⟨g, p', hput, -⟩
    revert hput
    generalize (v.declared (Command.final before .start)).location = l
    intro hput
    cases hput <;> rfl

end Program

end ShaderMorph
