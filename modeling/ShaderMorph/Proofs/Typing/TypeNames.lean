-- Which names are read as types. The single words of the language are read as
-- they are written. The sizes of a matrix may have zeros in front, so that
-- some names are read as a type that is not written like that. No other
-- identifier is.
import ShaderMorph.Proofs.Text.Spelling
import ShaderMorph.Shader.DataType

namespace ShaderMorph

namespace DataType

/-! ## Types and their names -/

/-- A type that has a name in the language itself. -/
def IsBuiltIn : DataType → Prop
  | .void => True
  | .scalar _ => True
  | .vector _ width => 2 ≤ width ∧ width ≤ 4
  | .matrix columns rows => (2 ≤ columns ∧ columns ≤ 4) ∧ 2 ≤ rows ∧ rows ≤ 4
  | _ => False

/-- A name of a type: the type as it is written, or a square matrix with its
size written twice. -/
def IsName (t : DataType) (name : String) : Prop :=
  name = t.text ∨ ∃ size, t = .matrix size size ∧
    name = "mat" ++ Decimal.natural size ++ "x" ++ Decimal.natural size

/-- A name of a type in which the sizes of a matrix may have zeros in front. -/
def IsPaddedName (t : DataType) (name : String) : Prop :=
  match t with
  | .matrix columns rows => ∃ i j,
    (columns = rows ∧ name.toList = "mat".toList ++ Decimal.padded i columns) ∨
      name.toList = "mat".toList ++ (Decimal.padded i columns ++ 'x' :: Decimal.padded j rows)
  | t => name = t.text

/-! ## Single words -/

theorem mem_simple {t : DataType} :
    t ∈ simple ↔ t.IsBuiltIn ∧ ∀ columns rows, t ≠ .matrix columns rows := by
  constructor
  · intro h
    have hall : ∀ u ∈ simple, u.IsBuiltIn ∧ ∀ columns rows, u ≠ .matrix columns rows := by
      simp [simple, IsBuiltIn]
    exact hall t h
  · rintro ⟨hbuiltin, hmatrix⟩
    cases t with
    | void => simp [simple]
    | scalar kind => cases kind <;> simp [simple]
    | vector elem width =>
      have hwidth : width = 2 ∨ width = 3 ∨ width = 4 := by
        have hle : 2 ≤ width ∧ width ≤ 4 := hbuiltin
        omega
      rcases hwidth with rfl | rfl | rfl <;> cases elem <;> decide
    | matrix columns rows => exact absurd rfl (hmatrix columns rows)
    | _ => exact hbuiltin.elim

/-- A single word is the name of one type only. -/
theorem simple_find? {name : String} {t : DataType} :
    simple.find? (·.text == name) = some t ↔ t ∈ simple ∧ t.text = name := by
  constructor
  · intro h
    have htext := List.find?_some h
    exact ⟨List.mem_of_find?_eq_some h, by simpa using htext⟩
  · rintro ⟨ht, rfl⟩
    revert t
    decide

/-! ## Matrices -/

theorem readMatrixSize?_eq_some {text : List Char} (h : '+' ∉ text) {size : Nat} :
    readMatrixSize? text = some size ↔
      (2 ≤ size ∧ size ≤ 4) ∧ ∃ zeros, text = Decimal.padded zeros size := by
  have hplus : (Text.dropStart? ['+'] text).getD text = text := by
    cases hdrop : Text.dropStart? ['+'] text with
    | none => rfl
    | some rest =>
      rw [Text.dropStart?_eq_some_iff] at hdrop
      simp [hdrop] at h
  rw [readMatrixSize?, hplus, ← Decimal.readDigits?_eq_some]
  cases hread : Decimal.readDigits? text with
  | none => simp
  | some n =>
    simp only [Option.bind_eq_bind, Option.bind_some, Option.ite_none_right_eq_some,
      Option.some.injEq]
    constructor
    · rintro ⟨hsize, rfl⟩
      exact ⟨hsize, rfl⟩
    · rintro ⟨hsize, rfl⟩
      exact ⟨hsize, rfl⟩

theorem notMem_padded {c : Char} (h : c.isDigit = false) (zeros n : Nat) :
    c ∉ Decimal.padded zeros n := fun hc => by
  rw [Decimal.isDigit_of_mem_padded hc] at h
  cases h

/-- A size ends where the text does, or at the `x` behind it. -/
theorem takeWhile_padded (zeros n : Nat) {rest : List Char} (h : ∀ c ∈ rest.head?, c = 'x') :
    (Decimal.padded zeros n ++ rest).takeWhile (· != 'x') = Decimal.padded zeros n ∧
      (Decimal.padded zeros n ++ rest).dropWhile (· != 'x') = rest := by
  have hne : ∀ c ∈ Decimal.padded zeros n, (c != 'x') = true := fun c hc =>
    bne_iff_ne.2 fun heq => notMem_padded rfl zeros n (heq ▸ hc)
  have hends : ∀ c ∈ rest.head?, (c != 'x') = false := by
    intro c hc
    rw [h c hc]
    rfl
  exact ⟨Text.takeWhile_run hne hends, Text.dropWhile_run hne hends⟩

/-- The sizes of a matrix are written one after the other, or once for both. -/
theorem readMatrixSizes?_eq_some {text : List Char} (h : '+' ∉ text) {columns rows : Nat} :
    readMatrixSizes? text = some (columns, rows) ↔
      ((2 ≤ columns ∧ columns ≤ 4) ∧ 2 ≤ rows ∧ rows ≤ 4) ∧ ∃ i j,
        (columns = rows ∧ text = Decimal.padded i columns) ∨
          text = Decimal.padded i columns ++ 'x' :: Decimal.padded j rows := by
  have hsplit : text.takeWhile (· != 'x') ++ text.dropWhile (· != 'x') = text :=
    List.takeWhile_append_dropWhile
  have hfront : '+' ∉ text.takeWhile (· != 'x') := fun hc =>
    h (hsplit ▸ List.mem_append_left _ hc)
  unfold readMatrixSizes?
  dsimp only
  constructor
  · intro hread
    split at hread
    · next columns' rows' hcolumns hrows =>
      obtain ⟨rfl, rfl⟩ := Prod.mk.inj (Option.some.inj hread)
      obtain ⟨hc, i, hi⟩ := (readMatrixSize?_eq_some hfront).1 hcolumns
      cases hrest : text.dropWhile (· != 'x') with
      | nil =>
        rw [hrest] at hrows hsplit
        obtain rfl : columns' = rows' := Option.some.inj (hcolumns.symm.trans hrows)
        rw [List.append_nil, hi] at hsplit
        exact ⟨⟨hc, hc⟩, i, 0, Or.inl ⟨rfl, hsplit.symm⟩⟩
      | cons c rest =>
        obtain rfl : c = 'x' := by
          have hstop := List.head?_dropWhile_not (· != 'x') text
          rw [hrest] at hstop
          simpa using hstop
        rw [hrest] at hrows hsplit
        have hback : '+' ∉ rest := fun hc =>
          h (hsplit ▸ List.mem_append_right _ (List.mem_cons_of_mem _ hc))
        obtain ⟨hr, j, hj⟩ := (readMatrixSize?_eq_some hback).1 hrows
        rw [hi, hj] at hsplit
        exact ⟨⟨hc, hr⟩, i, j, Or.inr hsplit.symm⟩
    · cases hread
  · rintro ⟨⟨hc, hr⟩, i, j, ⟨rfl, rfl⟩ | rfl⟩
    · have hend : ∀ c ∈ ([] : List Char).head?, c = 'x' := by simp
      obtain ⟨htake, hdrop⟩ := takeWhile_padded i columns hend
      rw [List.append_nil] at htake hdrop
      have hsize := (readMatrixSize?_eq_some (notMem_padded rfl i columns)).2 ⟨hc, i, rfl⟩
      simp only [htake, hdrop, hsize]
    · have hnext : ∀ c ∈ ('x' :: Decimal.padded j rows).head?, c = 'x' := by simp
      obtain ⟨htake, hdrop⟩ := takeWhile_padded i columns hnext
      have hcolumns := (readMatrixSize?_eq_some (notMem_padded rfl i columns)).2 ⟨hc, i, rfl⟩
      have hrows := (readMatrixSize?_eq_some (notMem_padded rfl j rows)).2 ⟨hr, j, rfl⟩
      simp only [htake, hdrop, hcolumns, hrows]

/-! ## All names -/

theorem notMem_plus {name : List Char} (h : Text.isIdentifier name = true) : '+' ∉ name :=
  fun hmem => absurd (Text.forall_of_isIdentifier h '+' hmem) (by decide)

/-- No single word begins like a matrix. -/
theorem head_simple : ∀ t ∈ simple, t.text.toList.head? ≠ some 'm' := by decide

/-- A name is that of a single word, or it begins like a matrix and its sizes
follow. -/
theorem ofName?_cases {name : String} {t : DataType} :
    ofName? name = some t ↔ (t ∈ simple ∧ t.text = name) ∨
      ∃ sizes columns rows, name.toList = "mat".toList ++ sizes ∧
        readMatrixSizes? sizes = some (columns, rows) ∧ t = .matrix columns rows := by
  unfold ofName?
  cases hfind : simple.find? (·.text == name) with
  | some u =>
    obtain ⟨hu, htext⟩ := simple_find?.1 hfind
    constructor
    · intro h
      obtain rfl := Option.some.inj h
      exact Or.inl ⟨hu, htext⟩
    · rintro (⟨ht, hname⟩ | ⟨sizes, columns, rows, hname, -, -⟩)
      · exact hfind.symm.trans (simple_find?.2 ⟨ht, hname⟩)
      · refine absurd ?_ (head_simple u hu)
        rw [htext, hname]
        rfl
  | none =>
    constructor
    · intro h
      simp only [Option.bind_eq_bind, Option.bind_eq_some_iff] at h
      obtain ⟨sizes, hsizes, ⟨columns, rows⟩, hread, ht⟩ := h
      exact Or.inr ⟨sizes, columns, rows, Text.dropStart?_eq_some_iff.1 hsizes, hread,
        (Option.some.inj ht).symm⟩
    · rintro (hsimple | ⟨sizes, columns, rows, hname, hread, rfl⟩)
      · rw [simple_find?.2 hsimple] at hfind
        cases hfind
      · rw [Text.dropStart?_eq_some_iff.2 hname, Option.bind_eq_bind, Option.bind_some, hread]
        rfl

/-- Exactly the padded names of the types of the language are read as types. -/
theorem ofName?_eq_some {name : String} (h : Text.isIdentifier name.toList = true)
    {t : DataType} : ofName? name = some t ↔ t.IsBuiltIn ∧ t.IsPaddedName name := by
  have hplus := notMem_plus h
  rw [ofName?_cases]
  constructor
  · rintro (⟨ht, rfl⟩ | ⟨sizes, columns, rows, hname, hread, rfl⟩)
    · obtain ⟨hbuiltin, hmatrix⟩ := mem_simple.1 ht
      refine ⟨hbuiltin, ?_⟩
      unfold IsPaddedName
      split
      · next columns rows => exact absurd rfl (hmatrix columns rows)
      · rfl
    · rw [hname] at hplus
      have hsizes : '+' ∉ sizes := fun hc => hplus (List.mem_append_right _ hc)
      obtain ⟨hbuiltin, i, j, hspelled⟩ := (readMatrixSizes?_eq_some hsizes).1 hread
      simp only [IsPaddedName, hname, List.append_cancel_left_eq]
      exact ⟨hbuiltin, i, j, hspelled⟩
  · rintro ⟨hbuiltin, hname⟩
    unfold IsPaddedName at hname
    split at hname
    · next columns rows =>
      obtain ⟨i, j, hspelled⟩ := hname
      obtain ⟨sizes, hsizes⟩ : ∃ sizes, name.toList = "mat".toList ++ sizes := by
        rcases hspelled with ⟨-, hname⟩ | hname <;> exact ⟨_, hname⟩
      rw [hsizes] at hplus hspelled
      simp only [List.append_cancel_left_eq] at hspelled
      have hread := (readMatrixSizes?_eq_some fun hc => hplus (List.mem_append_right _ hc)).2
        ⟨hbuiltin, i, j, hspelled⟩
      exact Or.inr ⟨sizes, columns, rows, hsizes, hread, rfl⟩
    · next hmatrix =>
      exact Or.inl ⟨mem_simple.2 ⟨hbuiltin, hmatrix⟩, hname.symm⟩

/-! ## Names without zeros -/

theorem padded_eq_digits {zeros n : Nat} {text : List Char} (h : '0' ∉ text)
    (hsub : ∀ c ∈ Decimal.padded zeros n, c ∈ text) :
    Decimal.padded zeros n = Decimal.digits n := by
  cases zeros with
  | zero => rfl
  | succ zeros => exact absurd (hsub '0' List.mem_cons_self) h

/-- A name without a zero has none in front of a size. -/
theorem isName_of_padded {t : DataType} {name : String} (h : '0' ∉ name.toList)
    (hname : t.IsPaddedName name) : t.IsName name := by
  unfold IsPaddedName at hname
  split at hname
  · next columns rows =>
    obtain ⟨i, j, ⟨rfl, hname⟩ | hname⟩ := hname
    · have hsize : Decimal.padded i columns = Decimal.digits columns :=
        padded_eq_digits h fun c hc => hname ▸ List.mem_append_right _ hc
      refine Or.inl (String.toList_inj.1 ?_)
      simp [hname, hsize, text, Decimal.natural]
    · have hcolumns : Decimal.padded i columns = Decimal.digits columns :=
        padded_eq_digits h fun c hc => hname ▸ by simp [hc]
      have hrows : Decimal.padded j rows = Decimal.digits rows :=
        padded_eq_digits h fun c hc => hname ▸ by simp [hc]
      by_cases heq : columns = rows
      · subst heq
        refine Or.inr ⟨columns, rfl, String.toList_inj.1 ?_⟩
        simp [hname, hcolumns, hrows, Decimal.natural]
      · refine Or.inl (String.toList_inj.1 ?_)
        simp [hname, hcolumns, hrows, heq, text, Decimal.natural]
  · exact Or.inl hname

/-- A size needs no zeros in front. -/
theorem isPaddedName {t : DataType} {name : String} (h : t.IsName name) : t.IsPaddedName name := by
  unfold IsPaddedName
  split
  · next columns rows =>
    refine ⟨0, 0, ?_⟩
    rcases h with rfl | ⟨size, heq, rfl⟩
    · by_cases heq : columns = rows <;>
        simp [text, heq, Decimal.padded_zero, Decimal.natural]
    · cases heq
      simp [Decimal.padded_zero, Decimal.natural]
  · next hmatrix =>
    rcases h with hname | ⟨size, heq, -⟩
    · exact hname
    · exact absurd heq (hmatrix size size)

/-- Type names are recognised up to zeros in front of the sizes of matrices.
An identifier is read as a type just when it is one of its padded names. Among
the identifiers without a zero, those are just its names. -/
theorem ofName?_exact {name : String} (h : Text.isIdentifier name.toList = true) (t : DataType) :
    (ofName? name = some t ↔ t.IsBuiltIn ∧ t.IsPaddedName name) ∧
      ('0' ∉ name.toList → (ofName? name = some t ↔ t.IsBuiltIn ∧ t.IsName name)) := by
  refine ⟨ofName?_eq_some h, fun hzero => (ofName?_eq_some h).trans ?_⟩
  exact and_congr_right fun _ => ⟨isName_of_padded hzero, isPaddedName⟩

theorem ofName?_exact_square :
    Text.isIdentifier "mat2x2".toList = true ∧ '0' ∉ "mat2x2".toList ∧
      (ofName? "mat2x2" = some (.matrix 2 2) ↔
        (matrix 2 2).IsBuiltIn ∧ (matrix 2 2).IsName "mat2x2") :=
  ⟨by decide, by decide, (ofName?_exact (by decide) (.matrix 2 2)).2 (by decide)⟩

/-- An identifier that is no name of a type is read as one. -/
theorem ofName?_zero_in_front :
    Text.isIdentifier "mat02".toList = true ∧ ofName? "mat02" = some (.matrix 2 2) ∧
      ¬∃ t : DataType, t.IsBuiltIn ∧ t.IsName "mat02" := by
  refine ⟨by decide, by decide, ?_⟩
  rintro ⟨t, hbuiltin, hname⟩
  have hidentifier : Text.isIdentifier "mat02".toList = true := by decide
  have hread := (ofName?_eq_some hidentifier).2 ⟨hbuiltin, isPaddedName hname⟩
  obtain rfl : t = .matrix 2 2 := by
    have hsquare : ofName? "mat02" = some (.matrix 2 2) := by decide
    exact Option.some.inj (hread.symm.trans hsquare)
  rcases hname with hname | ⟨size, hsize, hname⟩
  · exact absurd hname (by decide)
  · cases hsize
    exact absurd hname (by decide)

end DataType

end ShaderMorph
