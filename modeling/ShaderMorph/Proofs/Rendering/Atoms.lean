-- Names and constants in a text. Each is a run of letters and digits, or a
-- number with a point in it, and ends where no more of it can follow. The text
-- of a constant without a sign says which constant it is, and no name is
-- written like one except for the two that are constants.
import ShaderMorph.Proofs.Rendering.Legible

namespace ShaderMorph

/-! ## The front of a text -/

namespace Text

/-- The letters and digits at the front of a text, and the text behind them. -/
def readWord (text : List Char) : List Char × List Char :=
  (text.takeWhile continuesIdentifier, text.dropWhile continuesIdentifier)

/-- The name or the number at the front of a text, and the text behind it. A
point with a digit behind it belongs to a number. -/
def readAtom (text : List Char) : List Char × List Char :=
  match readWord text with
  | (word, '.' :: d :: rest) =>
    if d.isDigit then
      (word ++ '.' :: (d :: rest).takeWhile Char.isDigit, (d :: rest).dropWhile Char.isDigit)
    else (word, '.' :: d :: rest)
  | answer => answer

/-- What is written like a name or a number. -/
inductive IsAtom : List Char → Prop
  | word {word : List Char} (hne : word ≠ []) (hword : ∀ c ∈ word, continuesIdentifier c = true) :
      IsAtom word
  | number {word places : List Char} (hne : word ≠ [])
      (hword : ∀ c ∈ word, continuesIdentifier c = true) (hplaces : places ≠ [])
      (hdigits : ∀ c ∈ places, c.isDigit = true) : IsAtom (word ++ '.' :: places)

theorem IsAtom.exists_cons {text : List Char} (h : IsAtom text) :
    ∃ c tail, text = c :: tail ∧ continuesIdentifier c = true := by
  cases h with
  | word hne hword =>
    obtain ⟨c, tail, rfl⟩ := List.exists_cons_of_ne_nil hne
    exact ⟨c, tail, rfl, hword c List.mem_cons_self⟩
  | number hne hword =>
    obtain ⟨c, tail, rfl⟩ := List.exists_cons_of_ne_nil hne
    exact ⟨c, tail ++ _, rfl, hword c List.mem_cons_self⟩

/-- A text that continues no name and no number. -/
structure Follows (rest : List Char) : Prop where
  ends : ∀ c ∈ rest.head?, continuesIdentifier c = false
  point : ∀ d tail, rest = '.' :: d :: tail → d.isDigit = false

theorem isAtom_of_isIdentifier {name : List Char} (h : isIdentifier name = true) : IsAtom name :=
  .word (ne_nil_of_isIdentifier h) (forall_of_isIdentifier h)

theorem follows_nil : Follows [] where
  ends _ h := nomatch h
  point _ _ h := nomatch h

theorem follows_cons {c : Char} (rest : List Char) (hc : continuesIdentifier c = false)
    (hpoint : c ≠ '.') : Follows (c :: rest) where
  ends := by
    rintro d ⟨⟩
    exact hc
  point d tail h := absurd (List.cons.inj h).1 hpoint

/-- The point in front of the name of a member does not continue a number. -/
theorem follows_member {name : List Char} (h : isIdentifier name = true) (rest : List Char) :
    Follows ('.' :: (name ++ rest)) where
  ends := by
    rintro d ⟨⟩
    rfl
  point d tail heq := by
    obtain ⟨-, heq⟩ := List.cons.inj heq
    have hends := ends_of_isIdentifier h rest
    rw [heq, Decimal.ends_cons] at hends
    exact hends

theorem readWord_append {word rest : List Char} (hword : ∀ c ∈ word, continuesIdentifier c = true)
    (hrest : ∀ c ∈ rest.head?, continuesIdentifier c = false) :
    readWord (word ++ rest) = (word, rest) := by
  rw [readWord, takeWhile_run hword hrest, dropWhile_run hword hrest]

/-- A name or a number is read up to a text that does not continue it. -/
theorem readAtom_append {text rest : List Char} (h : IsAtom text) (hrest : Follows rest) :
    readAtom (text ++ rest) = (text, rest) := by
  cases h with
  | word hne hword =>
    rw [readAtom, readWord_append hword hrest.ends]
    split
    · next word d tail heq =>
      obtain ⟨rfl, rfl⟩ := Prod.mk.inj heq
      rw [hrest.point d tail rfl]
      rfl
    · rfl
  | @number word places hne hword hplaces hdigits =>
    have hpoint : ∀ c ∈ ('.' :: (places ++ rest)).head?, continuesIdentifier c = false := by
      rintro c ⟨⟩
      rfl
    have hends : ∀ c ∈ rest.head?, c.isDigit = false := fun c hc =>
      Bool.eq_false_iff.2 fun hdigit =>
        Bool.eq_false_iff.1 (hrest.ends c hc) (continuesIdentifier_of_isDigit hdigit)
    obtain ⟨d, tail, rfl⟩ := List.exists_cons_of_ne_nil hplaces
    rw [readAtom, List.append_assoc, List.cons_append, readWord_append hword hpoint]
    change (if d.isDigit then (word ++ '.' :: (d :: tail ++ rest).takeWhile Char.isDigit,
      (d :: tail ++ rest).dropWhile Char.isDigit) else _) = _
    rw [if_pos (hdigits d List.mem_cons_self), takeWhile_run hdigits hends,
      dropWhile_run hdigits hends]

end Text

/-! ## The text of a constant -/

namespace Literal

theorem toList_natural (n : Nat) : (Literal.int n).text.toList = Decimal.digits n :=
  String.toList_ofList

theorem toList_uint (n : Nat) : (Literal.uint n).text.toList = Decimal.digits n ++ ['u'] := by
  rw [text, String.toList_append, Decimal.natural, String.toList_ofList]
  rfl

/-- A float has digits before and behind its point. -/
theorem toList_float {value : Binary64} (h : value.IsUnsigned) :
    ∃ whole zeros places, (Literal.float value).text.toList =
      Decimal.digits whole ++ '.' :: Decimal.padded zeros places := by
  obtain ⟨places, decimal, -, htext, -⟩ := Binary64.magnitudeText_eq_pointed value
  rw [text, h.text_eq, htext, Binary64.toList_pointed]
  exact ⟨_, _, _, rfl⟩

theorem isIdentifier_bool (value : Bool) :
    Text.isIdentifier (Literal.bool value).text.toList = true := by
  cases value <;> decide

theorem isAtom_text {value : Literal} (h : value.IsUnsigned) : Text.IsAtom value.text.toList := by
  have hdigits : ∀ n, ∀ c ∈ Decimal.digits n, Text.continuesIdentifier c = true :=
    fun n c hc => Text.continuesIdentifier_of_isDigit (Decimal.isDigit_of_mem_digits hc)
  cases value with
  | bool value => exact Text.isAtom_of_isIdentifier (isIdentifier_bool value)
  | int value =>
    obtain ⟨n, rfl⟩ := Int.eq_ofNat_of_zero_le h
    rw [toList_natural]
    exact .word (Decimal.digits_ne_nil n) (hdigits n)
  | uint value =>
    rw [toList_uint]
    refine .word (List.append_ne_nil_of_left_ne_nil (Decimal.digits_ne_nil value) _) ?_
    exact List.forall_mem_append.2 ⟨hdigits value, List.forall_mem_singleton.2 rfl⟩
  | float value =>
    obtain ⟨whole, zeros, places, htext⟩ := toList_float h
    rw [htext]
    exact .number (Decimal.digits_ne_nil whole) (hdigits whole) (Decimal.padded_ne_nil zeros places)
      fun c hc => Decimal.isDigit_of_mem_padded hc

/-! ### Which constant it is -/

theorem readFront?_of_isIdentifier {name : List Char} (h : Text.isIdentifier name = true) :
    Decimal.readFront? name = none := by
  have hends := Text.ends_of_isIdentifier h []
  rw [List.append_nil] at hends
  cases hread : Decimal.readFront? name with
  | none => rfl
  | some front =>
    obtain ⟨n, rest⟩ := front
    obtain ⟨htext, -⟩ := Decimal.readFront?_eq_some.1 hread
    obtain ⟨d, digits, hdigits⟩ := List.exists_cons_of_ne_nil (Decimal.digits_ne_nil n)
    have hd : d.isDigit = true := Decimal.isDigit_of_mem_digits (hdigits ▸ List.mem_cons_self)
    rw [htext, hdigits, List.cons_append, Decimal.ends_cons, hd] at hends
    cases hends

/-- The constants that have these digits and this rest at the front of their
text. What stands behind the first digits says what kind of number it is. -/
def HasFront (value : Literal) : Option (Nat × List Char) → Prop
  | none => ∃ b, value = .bool b
  | some (n, []) => value = .int n
  | some (n, 'u' :: _) => value = .uint n
  | some (_, '.' :: _) => ∃ x, value = .float x
  | some _ => False

theorem readFront?_natural (n : Nat) :
    Decimal.readFront? (Literal.int n).text.toList = some (n, []) := by
  rw [toList_natural]
  exact Decimal.readFront?_eq_some.2 ⟨(List.append_nil _).symm, fun _ h => nomatch h⟩

theorem readFront?_uint (n : Nat) :
    Decimal.readFront? (Literal.uint n).text.toList = some (n, ['u']) :=
  Decimal.readFront?_eq_some.2 ⟨toList_uint n, Decimal.ends_cons.2 rfl⟩

theorem readFront?_float {value : Binary64} (h : value.IsUnsigned) :
    ∃ whole rest, Decimal.readFront? (Literal.float value).text.toList =
      some (whole, '.' :: rest) := by
  obtain ⟨whole, zeros, places, htext⟩ := toList_float h
  exact ⟨_, _, Decimal.readFront?_eq_some.2 ⟨htext, Decimal.ends_cons.2 rfl⟩⟩

theorem hasFront_text {value : Literal} (h : value.IsUnsigned) :
    value.HasFront (Decimal.readFront? value.text.toList) := by
  cases value with
  | bool b =>
    rw [readFront?_of_isIdentifier (isIdentifier_bool b)]
    exact ⟨b, rfl⟩
  | int value =>
    obtain ⟨n, rfl⟩ := Int.eq_ofNat_of_zero_le h
    rw [readFront?_natural]
    rfl
  | uint n =>
    rw [readFront?_uint]
    rfl
  | float x =>
    obtain ⟨whole, rest, hread⟩ := readFront?_float h
    rw [hread]
    exact ⟨x, rfl⟩

/-- Only the two truth values are written like names. -/
theorem eq_bool_of_isIdentifier {value : Literal} (h : value.IsUnsigned)
    (hname : Text.isIdentifier value.text.toList = true) : ∃ b, value = .bool b := by
  have hfront := hasFront_text h
  rwa [readFront?_of_isIdentifier hname] at hfront

/-- Two constants without a sign that have one text are the same. -/
theorem text_inj {a b : Literal} (ha : a.IsUnsigned) (hb : b.IsUnsigned)
    (h : a.text = b.text) : a = b := by
  have hfront := hasFront_text hb
  rw [← h] at hfront
  cases a with
  | bool p =>
    rw [readFront?_of_isIdentifier (isIdentifier_bool p)] at hfront
    obtain ⟨q, rfl⟩ := hfront
    cases p <;> cases q <;> first | rfl | exact absurd h (by decide)
  | int value =>
    obtain ⟨n, rfl⟩ := Int.eq_ofNat_of_zero_le ha
    rw [readFront?_natural] at hfront
    exact hfront.symm
  | uint n =>
    rw [readFront?_uint] at hfront
    exact hfront.symm
  | float x =>
    obtain ⟨whole, rest, hread⟩ := readFront?_float ha
    rw [hread] at hfront
    obtain ⟨y, rfl⟩ := hfront
    exact congrArg Literal.float (Binary64.IsUnsigned.text_inj ha hb h)

end Literal

/-! ## Names and constants -/

/-- A way to tell which name or constant is written, for all that are written
without a sign. -/
structure Expr.TellsAtoms (atom : List Char → Expr) : Prop where
  literal {value : Literal} (h : value.IsUnsigned) : atom value.text.toList = .literal value
  ident {name : String} (h : Text.isIdentifier name.toList = true) (htrue : name ≠ "true")
    (hfalse : name ≠ "false") : atom name.toList = .ident name

theorem Expr.exists_tellsAtoms : ∃ atom, Expr.TellsAtoms atom := by
  classical
  refine ⟨fun text => if h : ∃ value : Literal, value.IsUnsigned ∧ value.text.toList = text then
    .literal h.choose else .ident (String.ofList text), ?_, ?_⟩
  · intro value h
    have hfound : ∃ v : Literal, v.IsUnsigned ∧ v.text.toList = value.text.toList :=
      ⟨value, h, rfl⟩
    obtain ⟨hunsigned, htext⟩ := hfound.choose_spec
    rw [dif_pos hfound, Literal.text_inj hunsigned h (String.toList_inj.1 htext)]
  · intro name h htrue hfalse
    rw [dif_neg, String.ofList_toList]
    rintro ⟨value, hunsigned, htext⟩
    obtain ⟨b, rfl⟩ := Literal.eq_bool_of_isIdentifier hunsigned (htext ▸ h)
    have hname := String.toList_inj.1 htext
    cases b with
    | true => exact htrue hname.symm
    | false => exact hfalse hname.symm

end ShaderMorph
