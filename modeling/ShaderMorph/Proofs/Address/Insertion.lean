-- Putting one declaration before another. The relations below say what that
-- is without paths: one list, of statements or of top-level declarations,
-- gets one more element, right before a given one, and nothing else changes.
-- The insertion by location does just that.
import ShaderMorph.Extraction.Apply

namespace ShaderMorph

/-- One variable without qualifiers, array shape or initializer. -/
def VariableGroup.bare (name : String) (type : DataType) : VariableGroup :=
  ⟨[], type, [⟨name, none, none⟩]⟩

/-- A statement, and the same one with the group `new` declared right before
the group `g` inside it. The steps lead to the statement of `g`. -/
inductive Stmt.PutBefore (new g : VariableGroup) : (steps : List Nat) → Stmt → Stmt → Prop
  | here (before after : List Stmt) (opensFrame : Bool) :
    PutBefore new g [before.length] (.block (before ++ .decl g :: after) opensFrame)
      (.block (before ++ .decl new :: .decl g :: after) opensFrame)
  | inBlock (before after : List Stmt) (opensFrame : Bool) {steps : List Nat} {s s' : Stmt} :
    PutBefore new g steps s s' →
      PutBefore new g (before.length :: steps) (.block (before ++ s :: after) opensFrame)
        (.block (before ++ s' :: after) opensFrame)
  | inThen (cond : Expr) {steps : List Nat} {s s' : Stmt} :
    PutBefore new g steps s s' →
      PutBefore new g (0 :: steps) (.ifThen cond s) (.ifThen cond s')
  | inFirst (cond : Expr) (elseBranch : Stmt) {steps : List Nat} {s s' : Stmt} :
    PutBefore new g steps s s' →
      PutBefore new g (0 :: steps) (.ifElse cond s elseBranch) (.ifElse cond s' elseBranch)
  | inElse (cond : Expr) (thenBranch : Stmt) {steps : List Nat} {s s' : Stmt} :
    PutBefore new g steps s s' →
      PutBefore new g (1 :: steps) (.ifElse cond thenBranch s) (.ifElse cond thenBranch s')
  | inInit (guard increment : Option Expr) (body : Stmt) {steps : List Nat} {s s' : Stmt} :
    PutBefore new g steps s s' →
      PutBefore new g (0 :: steps) (.forLoop s guard increment body)
        (.forLoop s' guard increment body)
  | inFor (init : Stmt) (guard increment : Option Expr) {steps : List Nat} {s s' : Stmt} :
    PutBefore new g steps s s' →
      PutBefore new g (1 :: steps) (.forLoop init guard increment s)
        (.forLoop init guard increment s')
  | inWhile (cond : Expr) {steps : List Nat} {s s' : Stmt} :
    PutBefore new g steps s s' →
      PutBefore new g (0 :: steps) (.whileLoop cond s) (.whileLoop cond s')
  | inDo (cond : Expr) {steps : List Nat} {s s' : Stmt} :
    PutBefore new g steps s s' →
      PutBefore new g (0 :: steps) (.doWhile s cond) (.doWhile s' cond)

/-- A program, and the same one with the group `new` declared right before
the group `g`, which is at this location. -/
inductive Program.PutBefore (new g : VariableGroup) : DeclLocation → Program → Program → Prop
  | global (version : Version) (before after : List Declaration) (member : Nat) :
    PutBefore new g (.global before.length member) ⟨version, before ++ .variables g :: after⟩
      ⟨version, before ++ .variables new :: .variables g :: after⟩
  | block (version : Version) (before after : List Declaration) (f : Function)
    (stmts : List Stmt) (steps : List Nat) (member : Nat) :
    Stmt.PutBefore new g steps (.block f.body.stmts f.body.opensFrame)
        (.block stmts f.body.opensFrame) →
      PutBefore new g (.block ⟨before.length, steps⟩ member)
        ⟨version, before ++ .function f :: after⟩
        ⟨version, before ++ .function { f with body := { f.body with stmts } } :: after⟩

/-! ## Insertion by location -/

theorem insertIdx_length_append (before after : List α) (a : α) :
    (before ++ after).insertIdx before.length a = before ++ a :: after := by
  induction before with
  | nil => rfl
  | cons b before ih => simp [List.insertIdx_succ_cons, ih]

theorem Place.ofIndex?_length_append (before after : List β) (b : β) :
    Place.ofIndex? (before ++ b :: after) before.length =
      some ⟨b, (before ++ b :: after).set before.length⟩ := by
  simp [ofIndex?]

namespace Stmt

theorem place?_cons {s : Stmt} {slot : Nat} {steps : List Nat} {child inner : Place Stmt Stmt}
    (hc : s.childPlace? slot = some child) (hi : child.part.place? steps = some inner) :
    s.place? (slot :: steps) = some (inner.map child.put) := by
  simp [place?, hc, hi]

theorem childPlace?_block (before after : List Stmt) (s : Stmt) (opensFrame : Bool) :
    (Stmt.block (before ++ s :: after) opensFrame).childPlace? before.length =
      some ⟨s, fun t => .block ((before ++ s :: after).set before.length t) opensFrame⟩ := by
  simp [childPlace?, Place.ofIndex?_length_append, Place.map, Function.comp_def]

/-- The steps lead into a block, and the block gets the new statement. -/
theorem PutBefore.place {new g : VariableGroup} {steps : List Nat} {s s' : Stmt}
    (h : PutBefore new g steps s s') :
    ∃ dir slot place stmts opensFrame, steps = dir ++ [slot] ∧ s.place? dir = some place ∧
      place.part = .block stmts opensFrame ∧ slot ≤ stmts.length ∧
        place.put (.block (stmts.insertIdx slot (.decl new)) opensFrame) = s' := by
  induction h with
  | here before after opensFrame =>
    refine ⟨[], before.length, .whole _, _, opensFrame, rfl, rfl, rfl, by simp, ?_⟩
    simp [Place.whole, insertIdx_length_append]
  | inBlock before after opensFrame _ ih =>
    obtain ⟨dir, slot, place, stmts, o, rfl, hp, hpart, hslot, rfl⟩ := ih
    exact ⟨before.length :: dir, slot, _, stmts, o, rfl,
      place?_cons (childPlace?_block before after _ opensFrame) hp, hpart, hslot, by simp⟩
  | inThen cond _ ih =>
    obtain ⟨dir, slot, place, stmts, o, rfl, hp, hpart, hslot, rfl⟩ := ih
    exact ⟨0 :: dir, slot, _, stmts, o, rfl, place?_cons rfl hp, hpart, hslot, rfl⟩
  | inFirst cond elseBranch _ ih =>
    obtain ⟨dir, slot, place, stmts, o, rfl, hp, hpart, hslot, rfl⟩ := ih
    exact ⟨0 :: dir, slot, _, stmts, o, rfl, place?_cons rfl hp, hpart, hslot, rfl⟩
  | inElse cond thenBranch _ ih =>
    obtain ⟨dir, slot, place, stmts, o, rfl, hp, hpart, hslot, rfl⟩ := ih
    exact ⟨1 :: dir, slot, _, stmts, o, rfl, place?_cons rfl hp, hpart, hslot, rfl⟩
  | inInit guard increment body _ ih =>
    obtain ⟨dir, slot, place, stmts, o, rfl, hp, hpart, hslot, rfl⟩ := ih
    exact ⟨0 :: dir, slot, _, stmts, o, rfl, place?_cons rfl hp, hpart, hslot, rfl⟩
  | inFor init guard increment _ ih =>
    obtain ⟨dir, slot, place, stmts, o, rfl, hp, hpart, hslot, rfl⟩ := ih
    exact ⟨1 :: dir, slot, _, stmts, o, rfl, place?_cons rfl hp, hpart, hslot, rfl⟩
  | inWhile cond _ ih =>
    obtain ⟨dir, slot, place, stmts, o, rfl, hp, hpart, hslot, rfl⟩ := ih
    exact ⟨0 :: dir, slot, _, stmts, o, rfl, place?_cons rfl hp, hpart, hslot, rfl⟩
  | inDo cond _ ih =>
    obtain ⟨dir, slot, place, stmts, o, rfl, hp, hpart, hslot, rfl⟩ := ih
    exact ⟨0 :: dir, slot, _, stmts, o, rfl, place?_cons rfl hp, hpart, hslot, rfl⟩

theorem place?_block {stmts : List Stmt} {opensFrame : Bool} {slot : Nat} {steps : List Nat}
    {place : Place Stmt Stmt}
    (h : (Stmt.block stmts opensFrame).place? (slot :: steps) = some place) :
    ∃ top inner, Place.ofIndex? stmts slot = some top ∧ top.part.place? steps = some inner ∧
      place = (inner.map top.put).map (.block · opensFrame) := by
  simp only [place?, childPlace?, Option.bind_eq_bind, Option.bind_eq_some_iff,
    Option.map_eq_some_iff] at h
  obtain ⟨child, ⟨top, ht, rfl⟩, inner, hi, he⟩ := h
  exact ⟨top, inner, ht, hi, (Option.some.inj he).symm⟩

end Stmt

namespace Program

theorem bodyPlace?_length_append (version : Version) (before after : List Declaration)
    (f : Function) :
    bodyPlace? ⟨version, before ++ .function f :: after⟩ before.length =
      some ⟨f.body.stmts, fun stmts =>
        ⟨version, before ++ .function { f with body := { f.body with stmts } } :: after⟩⟩ := by
  simp [bodyPlace?]

/-- A statement put before one that it can be put before. -/
theorem insertStmt?_eq {new g : VariableGroup} (version : Version)
    (before after : List Declaration) {f : Function} {stmts : List Stmt} {steps : List Nat}
    (h : Stmt.PutBefore new g steps (.block f.body.stmts f.body.opensFrame)
      (.block stmts f.body.opensFrame)) :
    insertStmt? ⟨version, before ++ .function f :: after⟩ ⟨before.length, steps⟩ (.decl new) =
      some ⟨version, before ++ .function { f with body := { f.body with stmts } } :: after⟩ := by
  obtain ⟨dir, slot, place, list, o, rfl, hp, hpart, hslot, hput⟩ := h.place
  cases dir with
  | nil =>
    cases hp
    cases hpart
    cases hput
    simp [insertStmt?, stmtsPlace?, bodyPlace?_length_append, hslot]
  | cons first rest =>
    obtain ⟨top, inner, ht, hi, rfl⟩ := Stmt.place?_block hp
    cases hput
    have hd : (first :: (rest ++ [slot])).dropLast = first :: rest := by
      rw [← List.cons_append, List.dropLast_concat]
    have hl : (first :: (rest ++ [slot])).getLast? = some slot := by
      rw [← List.cons_append, List.getLast?_concat]
    have hs : stmtPlace? ⟨version, before ++ .function f :: after⟩ before.length (first :: rest) =
        some ((inner.map top.put).map fun stmts =>
          ⟨version, before ++ .function { f with body := { f.body with stmts } } :: after⟩) := by
      simp [stmtPlace?, bodyPlace?_length_append, ht, hi]
    simp only [Place.part_map] at hpart
    simp [insertStmt?, stmtsPlace?, hd, hl, hs, hpart, hslot]

/-- The declaration of a variable by location is put where it should. -/
theorem PutBefore.declareBefore_eq {name : String} {type : DataType} {g : VariableGroup}
    {location : DeclLocation} {p p' : Program}
    (h : p.PutBefore (.bare name type) g location p') :
    p.declareBefore location name type = .ok p' := by
  cases h with
  | global version before after member =>
    simp [declareBefore, insertIdx_length_append, VariableGroup.bare]
  | block version before after f stmts steps member h =>
    have hi := insertStmt?_eq version before after h
    simp only [VariableGroup.bare] at hi
    simp [declareBefore, hi]

end Program

end ShaderMorph
