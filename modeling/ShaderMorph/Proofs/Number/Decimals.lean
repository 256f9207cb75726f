-- The decimal text of a double says which double it is. A decimal is written
-- for a number only where it lies in the range of that number, and no two
-- numbers have a decimal in both of their ranges: an end that two ranges share
-- belongs to the one with the even significand.
import ShaderMorph.Number.Binary64Text
import ShaderMorph.Proofs.Text.Spelling

namespace ShaderMorph.Binary64

/-! ## The range of a number

All distances are counted in one small unit, so that everything is whole: `u`
is the weight of the last bit of the significand, and `q` is the decimal. -/

/-- The part of its last bit that a number reaches downwards. The number below
a power of two is twice as near. -/
def share (m : Nat) : Nat := if m = Nat.pow 2 52 then 4 else 2

/-- The decimal `q` lies in the range of the number `m * u`. Only an even `m`
owns the ends of its range. -/
structure Reaches (m u q : Nat) : Prop where
  up : 2 * q + m % 2 ≤ (2 * m + 1) * u
  down : share m * (m * u) + m % 2 ≤ share m * q + u

theorem share_eq_two_or_four (m : Nat) : share m = 2 ∨ share m = 4 := by
  unfold share
  split
  · exact .inr rfl
  · exact .inl rfl

theorem reaches_below {m u q far : Nat} (hfar : q + far = m * u)
    (hnear : share m * far + m % 2 ≤ u) : Reaches m u q := by
  constructor
  · rw [Nat.add_mul, Nat.mul_assoc]
    omega
  · rw [← hfar, Nat.mul_add]
    omega

theorem reaches_above {m u q far : Nat} (hfar : q = m * u + far)
    (hnear : 2 * far + m % 2 ≤ u) : Reaches m u q := by
  constructor
  · rw [Nat.add_mul, Nat.mul_assoc]
    omega
  · rw [hfar, Nat.mul_add]
    omega

/-- A number is in its own range. -/
theorem reaches_self {m u : Nat} (hu : 0 < u) : Reaches m u (m * u) := by
  have hnear : 2 * 0 + m % 2 ≤ u := by omega
  exact reaches_above rfl hnear

/-- Half a unit below a number is as far as its range goes at most. -/
theorem Reaches.down_half {m u q : Nat} (h : Reaches m u q) : 2 * (m * u) ≤ 2 * q + u := by
  have hdown := h.down
  rcases share_eq_two_or_four m with heq | heq <;> rw [heq] at hdown <;> omega

/-- With one weight of the last bit, the ranges of two significands have
nothing in common. -/
theorem Reaches.significand_le {m m' u q : Nat} (hu : 0 < u) (h : Reaches m u q)
    (h' : Reaches m' u q) : m' ≤ m := by
  refine Nat.not_lt.1 fun hlt => ?_
  obtain ⟨d, rfl⟩ : ∃ d, m' = m + 1 + d := ⟨m' - (m + 1), by omega⟩
  have hup := h.up
  have hdown := h'.down_half
  rw [Nat.add_mul, Nat.mul_assoc] at hup
  rw [Nat.add_mul, Nat.add_mul] at hdown
  -- the two are next to each other, and one of them is odd
  have hnear : d * u = 0 := by omega
  obtain rfl : d = 0 := (Nat.mul_eq_zero.1 hnear).resolve_right (by omega)
  have hstrict := h'.down
  rw [Nat.add_zero, Nat.add_mul] at hstrict
  rcases share_eq_two_or_four (m + 1) with heq | heq <;> rw [heq] at hstrict <;> omega

/-- The range of a number ends half a unit below the next power of two at
most, and the number below that one does not own its end. -/
theorem Reaches.up_lt {m u q : Nat} (hu : 0 < u) (hm : m < Nat.pow 2 53) (h : Reaches m u q) :
    2 * q + u < 4 * (Nat.pow 2 52 * u) := by
  have hup := h.up
  have htop : (2 : Nat).pow 53 = 2 * (2 : Nat).pow 52 := rfl
  generalize (2 : Nat).pow 52 = half at htop ⊢
  have hgap : m = 2 * half - 1 ∨ ∃ d, 2 * half = m + 2 + d := by
    rcases Nat.lt_or_ge (m + 1) (2 * half) with hlt | hge
    · exact .inr ⟨2 * half - (m + 2), by omega⟩
    · exact .inl (by omega)
  rcases hgap with hlast | ⟨d, hd⟩
  · have hodd : m % 2 = 1 := by omega
    have htwice : 2 * m + 1 + 1 = 4 * half := by omega
    have hmul : (2 * m + 1) * u + u = 4 * (half * u) := by
      rw [← Nat.succ_mul, Nat.succ_eq_add_one, htwice, Nat.mul_assoc]
    omega
  · have htwice : 2 * m + 1 + (3 + 2 * d) = 4 * half := by omega
    have hmul : (2 * m + 1) * u + (3 * u + 2 * d * u) = 4 * (half * u) := by
      rw [← Nat.add_mul, ← Nat.add_mul, htwice, Nat.mul_assoc]
    omega

/-- The range of a number of full length starts a quarter of a unit below the
power of two at the lowest. -/
theorem Reaches.le_down {m w q : Nat} (hm : Nat.pow 2 52 ≤ m) (h : Reaches m (2 * w) q) :
    4 * (Nat.pow 2 52 * w) ≤ 2 * q + w := by
  have hdown := h.down
  rw [Nat.mul_left_comm m 2 w] at hdown
  rcases Nat.eq_or_lt_of_le hm with heq | hlt
  · rw [← heq, share, if_pos rfl] at hdown
    omega
  · rw [share, if_neg (Nat.ne_of_gt hlt)] at hdown
    have hmul := Nat.mul_le_mul_right w hlt
    rw [Nat.succ_mul] at hmul
    omega

/-- No number has a decimal in common with a number of full length whose last
bit weighs more. -/
theorem Reaches.not_heavier {m m' u w q : Nat} (hu : 0 < u) (hw : u ≤ w)
    (hm : m < Nat.pow 2 53) (hm' : Nat.pow 2 52 ≤ m') (h : Reaches m u q) :
    ¬ Reaches m' (2 * w) q := by
  intro h'
  have hup := h.up_lt hu hm
  have hdown := h'.le_down hm'
  obtain ⟨d, rfl⟩ := Nat.le.dest hw
  have hpos : d ≤ Nat.pow 2 52 * d := Nat.le_mul_of_pos_left d (Nat.two_pow_pos 52)
  rw [Nat.mul_add] at hdown
  omega

/-! ## The decimals that are written -/

theorem inReach_iff {m share places far : Nat} :
    inReach m share places far = true ↔ share * far + m % 2 ≤ Nat.pow 10 places := by
  unfold inReach
  split <;> rw [decide_eq_true_eq] <;> omega

/-- A decimal that is found is the one just below the number or the one just
above it, and is near enough. -/
theorem decimalAt?_cases {m s places value : Nat} (h : decimalAt? m s places = some value) :
    (value = m * Nat.pow 10 places / Nat.pow 2 s ∧
      share m * (m * Nat.pow 10 places % Nat.pow 2 s) + m % 2 ≤ Nat.pow 10 places) ∨
    (value = m * Nat.pow 10 places / Nat.pow 2 s + 1 ∧
      2 * (Nat.pow 2 s - m * Nat.pow 10 places % Nat.pow 2 s) + m % 2 ≤ Nat.pow 10 places) := by
  unfold decimalAt? at h
  dsimp only at h
  split at h
  · next hbelow habove =>
    have hvalue := Option.some.inj h
    split at hvalue
    · exact .inl ⟨hvalue.symm, inReach_iff.1 hbelow⟩
    · exact .inr ⟨hvalue.symm, inReach_iff.1 habove⟩
  · next hbelow _ => exact .inl ⟨(Option.some.inj h).symm, inReach_iff.1 hbelow⟩
  · next _ habove => exact .inr ⟨(Option.some.inj h).symm, inReach_iff.1 habove⟩
  · cases h

/-- A distance stays near enough in a smaller unit. -/
theorem near_mul {times far odd room scale : Nat} (h : times * far + odd ≤ room)
    (hscale : 0 < scale) : times * (scale * far) + odd ≤ scale * room := by
  have hmul := Nat.mul_le_mul_left scale h
  have hodd : odd ≤ scale * odd := Nat.le_mul_of_pos_left odd hscale
  rw [Nat.mul_add, Nat.mul_left_comm scale] at hmul
  omega

/-- A decimal that is found lies in the range of the number. -/
theorem reaches_of_decimalAt? {m s places value : Nat} (h : decimalAt? m s places = some value)
    (scale : Nat) :
    Reaches m (Nat.pow 2 scale * Nat.pow 10 places)
      (Nat.pow 2 scale * (Nat.pow 2 s * value)) := by
  have hsplit := Nat.div_add_mod (m * Nat.pow 10 places) (Nat.pow 2 s)
  have hunder : m * Nat.pow 10 places % Nat.pow 2 s < Nat.pow 2 s :=
    Nat.mod_lt _ (Nat.two_pow_pos s)
  have hscale : 0 < Nat.pow 2 scale := Nat.two_pow_pos scale
  rcases decimalAt?_cases h with ⟨rfl, hnear⟩ | ⟨rfl, hnear⟩
  · refine reaches_below ?_ (near_mul hnear hscale)
    rw [← Nat.mul_add, hsplit, Nat.mul_left_comm]
  · refine reaches_above ?_ (near_mul hnear hscale)
    rw [Nat.mul_left_comm m, ← Nat.mul_add, Nat.mul_add _ _ 1]
    congr 1
    omega

/-- What `fewestPlaces` gives is found at its number of places, or it is the
exact decimal at the end. -/
theorem fewestPlaces_cases (m s tries places : Nat) :
    places ≤ (fewestPlaces m s tries places).1 ∧
      (decimalAt? m s (fewestPlaces m s tries places).1 =
          some (fewestPlaces m s tries places).2 ∨
        fewestPlaces m s tries places =
          (places + tries, m * Nat.pow 10 (places + tries) / Nat.pow 2 s)) := by
  induction tries generalizing places with
  | zero => exact ⟨Nat.le_refl _, .inr rfl⟩
  | succ tries ih =>
    rw [fewestPlaces]
    split
    · next hvalue => exact ⟨Nat.le_refl _, .inl hvalue⟩
    · obtain ⟨hle, hfound⟩ := ih (places + 1)
      rw [Nat.add_assoc, Nat.add_comm 1] at hfound
      exact ⟨Nat.le_of_succ_le hle, hfound⟩

theorem reaches_fewestPlaces (m s scale : Nat) :
    Reaches m (Nat.pow 2 scale * Nat.pow 10 (fewestPlaces m s s 1).1)
      (Nat.pow 2 scale * (Nat.pow 2 s * (fewestPlaces m s s 1).2)) := by
  rcases (fewestPlaces_cases m s s 1).2 with hfound | hexact
  · exact reaches_of_decimalAt? hfound scale
  · rw [hexact]
    have hten : Nat.pow 2 s ∣ Nat.pow 10 s := ⟨Nat.pow 5 s, Nat.mul_pow 2 5 s⟩
    have hdvd : Nat.pow 2 s ∣ m * Nat.pow 10 (1 + s) :=
      Nat.dvd_mul_left_of_dvd (Nat.dvd_trans hten (Nat.pow_dvd_pow 10 (Nat.le_add_left s 1))) m
    rw [Nat.mul_div_cancel' hdvd, Nat.mul_left_comm]
    exact reaches_self (Nat.mul_pos (Nat.two_pow_pos scale) (Nat.pow_pos (by decide)))

/-! ## The text of a decimal -/

theorem toList_pointed (places value : Nat) :
    (pointed places value).toList =
      Decimal.digits (value / Nat.pow 10 places) ++ '.' ::
        Decimal.padded (places - (Decimal.digits (value % Nat.pow 10 places)).length)
          (value % Nat.pow 10 places) := by
  simp only [pointed, Decimal.natural, Decimal.padded, String.toList_append,
    String.toList_ofList, List.append_assoc]
  rfl

/-- The digits behind the point are as many as there are places. -/
theorem length_places {places value : Nat} (hplaces : 0 < places) :
    (Decimal.padded (places - (Decimal.digits (value % Nat.pow 10 places)).length)
      (value % Nat.pow 10 places)).length = places := by
  have hlt : value % Nat.pow 10 places < 10 ^ places := Nat.mod_lt _ (Nat.pow_pos (by decide))
  have hle : (Decimal.digits (value % Nat.pow 10 places)).length ≤ places :=
    (Nat.length_toDigits_le_iff (by decide) hplaces).2 hlt
  rw [Decimal.padded, List.length_append, List.length_replicate]
  omega

/-- The number in front of the point is read off up to the point. -/
theorem readFront?_pointed (places value : Nat) :
    Decimal.readFront? (pointed places value).toList =
      some (value / Nat.pow 10 places, '.' ::
        Decimal.padded (places - (Decimal.digits (value % Nat.pow 10 places)).length)
          (value % Nat.pow 10 places)) :=
  Decimal.readFront?_eq_some.2 ⟨toList_pointed places value, Decimal.ends_cons.2 rfl⟩

theorem pointed_inj {places places' value value' : Nat} (hplaces : 0 < places)
    (hplaces' : 0 < places') (h : pointed places value = pointed places' value') :
    places = places' ∧ value = value' := by
  have hread := readFront?_pointed places value
  rw [h, readFront?_pointed] at hread
  simp only [Option.some.injEq, Prod.mk.injEq, List.cons.injEq, true_and] at hread
  obtain ⟨hwhole, hbehind⟩ := hread
  have hlength := congrArg List.length hbehind
  rw [length_places hplaces, length_places hplaces'] at hlength
  subst hlength
  have hrest := congrArg (Decimal.valueIn 10) hbehind
  rw [Decimal.valueIn_padded, Decimal.valueIn_padded] at hrest
  refine ⟨rfl, ?_⟩
  rw [← Nat.div_add_mod value, ← Nat.div_add_mod value', hwhole, hrest]

/-- A whole number is written with one place. -/
theorem pointed_whole (n : Nat) : pointed 1 (10 * n) = Decimal.natural n ++ ".0" := by
  have hdiv : 10 * n / Nat.pow 10 1 = n := Nat.mul_div_cancel_left n (by decide)
  have hmod : 10 * n % Nat.pow 10 1 = 0 := Nat.mul_mod_right 10 n
  rw [pointed, hdiv, hmod, String.append_assoc]
  rfl

/-! ## All numbers -/

theorem two_pow_of_eq_add {n a b : Nat} (h : n = a + b) :
    Nat.pow 2 n = Nat.pow 2 a * Nat.pow 2 b := by
  rw [h]
  exact Nat.pow_add 2 a b

/-- The text of a number without its sign is a decimal in its range. -/
theorem magnitudeText_eq_pointed (x : Binary64) :
    ∃ places value, 0 < places ∧ x.magnitudeText = pointed places value ∧
      Reaches x.significand (Nat.pow 2 x.scale * Nat.pow 10 places)
        (Nat.pow 2 1075 * value) := by
  unfold magnitudeText
  generalize x.significand = m
  generalize x.scale = scale
  -- the power of two for the number one is too long to be computed with
  generalize 1075 = one
  have hunit : 0 < Nat.pow 2 scale * 10 := Nat.mul_pos (Nat.two_pow_pos scale) (by decide)
  dsimp only
  split
  · next hscale =>
    refine ⟨1, 10 * (m * Nat.pow 2 (scale - one)), by decide, (pointed_whole _).symm, ?_⟩
    have hpow := two_pow_of_eq_add (Nat.add_sub_cancel' hscale).symm
    have hexact : Nat.pow 2 one * (10 * (m * Nat.pow 2 (scale - one))) =
        m * (Nat.pow 2 scale * 10) := by
      rw [hpow]
      ac_rfl
    rw [hexact]
    exact reaches_self hunit
  · next hscale =>
    have hpow := two_pow_of_eq_add (Nat.add_sub_cancel' (Nat.le_of_not_le hscale)).symm
    rw [hpow]
    generalize one - scale = s
    split
    · next hwhole =>
      refine ⟨1, 10 * (m / Nat.pow 2 s), by decide, (pointed_whole _).symm, ?_⟩
      have hm := Nat.mul_div_cancel' (Nat.dvd_of_mod_eq_zero hwhole)
      have hexact : Nat.pow 2 scale * Nat.pow 2 s * (10 * (m / Nat.pow 2 s)) =
          Nat.pow 2 s * (m / Nat.pow 2 s) * (Nat.pow 2 scale * 10) := by
        ac_rfl
      rw [hexact, hm]
      exact reaches_self hunit
    · obtain ⟨hplaces, -⟩ := fewestPlaces_cases m s s 1
      refine ⟨_, _, hplaces, rfl, ?_⟩
      rw [Nat.mul_assoc]
      exact reaches_fewestPlaces m s scale

/-- The significand of a number fits, and it has full length above the lowest
scale. -/
theorem significand_lt (x : Binary64) : x.significand < Nat.pow 2 53 := by
  have hfraction : x.fraction < Nat.pow 2 52 := Nat.mod_lt _ (Nat.two_pow_pos 52)
  have htop : Nat.pow 2 53 = 2 * Nat.pow 2 52 := rfl
  unfold significand
  split <;> omega

theorem le_significand {x : Binary64} (h : 1 < x.scale) : Nat.pow 2 52 ≤ x.significand := by
  have hexponent : x.exponent ≠ 0 := by
    intro hzero
    rw [scale, hzero] at h
    exact absurd h (by decide)
  rw [significand, if_neg hexponent]
  exact Nat.le_add_left _ _

/-- With one decimal in the ranges of two numbers, none has the heavier last
bit. -/
theorem scale_le_of_reaches {x y : Binary64} {ten q : Nat} (hten : 0 < ten)
    (hx : Reaches x.significand (Nat.pow 2 x.scale * ten) q)
    (hy : Reaches y.significand (Nat.pow 2 y.scale * ten) q) : y.scale ≤ x.scale := by
  refine Nat.not_lt.1 fun hlt => ?_
  have hone : 1 ≤ x.scale := Nat.le_max_right _ _
  have hunit : 0 < Nat.pow 2 x.scale * ten := Nat.mul_pos (Nat.two_pow_pos _) hten
  obtain ⟨d, hd⟩ := Nat.le.dest hlt
  have hpow : Nat.pow 2 y.scale = 2 * (Nat.pow 2 x.scale * Nat.pow 2 d) := by
    have hsum : y.scale = x.scale + (d + 1) := by omega
    have hlast : Nat.pow 2 (d + 1) = Nat.pow 2 d * 2 := rfl
    rw [two_pow_of_eq_add hsum, hlast, ← Nat.mul_assoc, Nat.mul_comm]
  rw [hpow, Nat.mul_assoc] at hy
  refine hx.not_heavier hunit ?_ x.significand_lt (le_significand (by omega)) hy
  exact Nat.mul_le_mul_right ten (Nat.le_mul_of_pos_right _ (Nat.two_pow_pos d))

/-- The decimals of two numbers are equal only if their significands and their
scales are. -/
theorem parts_of_magnitudeText {x y : Binary64} (h : x.magnitudeText = y.magnitudeText) :
    x.scale = y.scale ∧ x.significand = y.significand := by
  obtain ⟨places, value, hplaces, htext, hx⟩ := magnitudeText_eq_pointed x
  obtain ⟨places', value', hplaces', htext', hy⟩ := magnitudeText_eq_pointed y
  rw [htext, htext'] at h
  obtain ⟨rfl, rfl⟩ := pointed_inj hplaces hplaces' h
  have hten : 0 < Nat.pow 10 places := Nat.pow_pos (by decide)
  have hscale : x.scale = y.scale :=
    Nat.le_antisymm (scale_le_of_reaches hten hy hx) (scale_le_of_reaches hten hx hy)
  have hunit : 0 < Nat.pow 2 x.scale * Nat.pow 10 places := Nat.mul_pos (Nat.two_pow_pos _) hten
  rw [← hscale] at hy
  exact ⟨hscale, Nat.le_antisymm (hy.significand_le hunit hx) (hx.significand_le hunit hy)⟩

/-- A finite number without a minus sign. -/
structure IsUnsigned (x : Binary64) : Prop where
  number : x.isNaN = false
  finite : x.isInfinite = false
  positive : x.isNegative = false

theorem IsUnsigned.text_eq {x : Binary64} (h : x.IsUnsigned) : x.text = x.magnitudeText := by
  rw [text, h.number, h.finite, h.positive]
  exact String.empty_append

theorem text_of_negative {x : Binary64} (hnumber : x.isNaN = false)
    (hfinite : x.isInfinite = false) (hnegative : x.isNegative = true) :
    x.text = "-" ++ x.magnitudeText := by
  rw [text, hnumber, hfinite, hnegative]
  rfl

/-- Both zeros are written alike up to the sign. -/
theorem magnitudeText_of_isZero {x : Binary64} (h : x.isZero = true) :
    x.magnitudeText = "0.0" := by
  rw [isZero, Bool.and_eq_true, beq_iff_eq, beq_iff_eq] at h
  have hsignificand : x.significand = 0 := by rw [significand, if_pos h.1, h.2]
  have hscale : x.scale = 1 := by rw [scale, h.1]; rfl
  rw [magnitudeText, hsignificand, hscale, if_neg (by decide)]
  generalize 1075 - 1 = s
  dsimp only
  rw [Nat.zero_mod, if_pos rfl, Nat.zero_div]
  rfl

/-- The zero without a minus sign. -/
theorem isUnsigned_zero : (⟨0⟩ : Binary64).IsUnsigned := ⟨rfl, rfl, rfl⟩

theorem text_zero : (⟨0⟩ : Binary64).text = "0.0" := by
  rw [isUnsigned_zero.text_eq, magnitudeText_of_isZero rfl]

/-- The bits of a number without a minus sign are its exponent and its
fraction. -/
theorem toNat_bits {x : Binary64} (h : x.isNegative = false) :
    x.bits.toNat = Nat.pow 2 52 * x.exponent + x.fraction := by
  have hbits : x.bits.toNat < Nat.pow 2 63 := Nat.not_le.1 (of_decide_eq_false h)
  have hexponent : x.exponent = x.bits.toNat / Nat.pow 2 52 :=
    Nat.mod_eq_of_lt (Nat.div_lt_of_lt_mul hbits)
  rw [hexponent]
  exact (Nat.div_add_mod _ _).symm

/-- A number without a minus sign is told by its significand and its scale. -/
theorem eq_of_parts {x y : Binary64} (hx : x.isNegative = false) (hy : y.isNegative = false)
    (hscale : x.scale = y.scale) (hsignificand : x.significand = y.significand) : x = y := by
  have hparts : x.exponent = y.exponent ∧ x.fraction = y.fraction := by
    have hfraction : x.fraction < Nat.pow 2 52 := Nat.mod_lt _ (Nat.two_pow_pos 52)
    have hfraction' : y.fraction < Nat.pow 2 52 := Nat.mod_lt _ (Nat.two_pow_pos 52)
    unfold scale at hscale
    unfold significand at hsignificand
    split at hsignificand <;> split at hsignificand <;> omega
  have hbits : x.bits.toNat = y.bits.toNat := by
    rw [toNat_bits hx, toNat_bits hy, hparts.1, hparts.2]
  cases x
  cases y
  exact congrArg Binary64.mk (UInt64.toNat_inj.1 hbits)

/-- Two unsigned numbers with one text are the same. -/
theorem IsUnsigned.text_inj {x y : Binary64} (hx : x.IsUnsigned) (hy : y.IsUnsigned)
    (h : x.text = y.text) : x = y := by
  rw [hx.text_eq, hy.text_eq] at h
  obtain ⟨hscale, hsignificand⟩ := parts_of_magnitudeText h
  exact eq_of_parts hx.positive hy.positive hscale hsignificand

end ShaderMorph.Binary64
