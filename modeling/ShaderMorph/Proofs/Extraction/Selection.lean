-- What stands for an access picks what the access picked. The constituent
-- counts its components from its own first one, so a swizzle of it is read
-- back with its offset added. Where scalars cannot be swizzled, the
-- constructor of a vector repeats the one component that there is.
import ShaderMorph.Proofs.Extraction.Accesses

namespace ShaderMorph

/-! ## Letters -/

namespace LetterSet

/-- A letter stands at one place of one set. -/
theorem letter_cases {l : LetterSet} {i : Nat} {c : Char} (h : l.letters[i]? = some c) :
    containing? c = some l ∧ l.letters.idxOf? c = some i ∧ c.utf8Size = 1 := by
  have hi : i < 4 := by
    have := (List.getElem?_eq_some_iff.1 h).1
    rwa [l.length_letters] at this
  match i, hi with
  | 0, _ | 1, _ | 2, _ | 3, _ => cases l <;> cases h <;> decide

end LetterSet

namespace Swizzle

/-- A swizzle that is counted from an offset is one of the components from
there on. -/
theorem parse?_shifted {name field : String} {width' offset width : Nat} {s : Swizzle}
    (h : parse? name width' = some s) (hin : s.isWithin offset width = true)
    (hf : s.shifted? offset = some field) :
    parse? field width = some ⟨s.components.map (· - offset), s.letters⟩ := by
  unfold shifted? at hf
  obtain ⟨cs, hcs, hf⟩ := Option.bind_eq_some_iff.1 hf
  cases hf
  rw [mapM_eq_some] at hcs
  have hletter : ∀ c ∈ cs, LetterSet.containing? c = some s.letters ∧ c.utf8Size = 1 := by
    intro c hc
    obtain ⟨k, -, hk⟩ := forall₂_right hcs hc
    split at hk
    · exact ⟨(LetterSet.letter_cases hk).1, (LetterSet.letter_cases hk).2.2⟩
    · cases hk
  have hlength : cs.length = s.length := hcs.length_eq.symm
  obtain ⟨hpos, hle⟩ := parse?_length h
  refine parse?_eq_some.2 ⟨?_, ?_, ?_⟩
  · rw [Text.utf8ByteSize_ofList, Text.byteLength_eq_length fun c hc => (hletter c hc).2, hlength]
    exact hle
  · cases cs with
    | nil => exact absurd hlength (Nat.ne_of_lt hpos)
    | cons c rest => exact ⟨c, rest, by simp, (hletter c List.mem_cons_self).1⟩
  · have hread : List.Forall₂ (fun k c => componentOf? s.letters width c = some (k - offset))
        s.components cs := by
      refine (forall₂_mem hcs).imp ?_
      rintro k c ⟨hk, -, hc⟩
      obtain ⟨hoffset, hlt⟩ := le_of_isWithin hin k hk
      rw [if_pos hoffset] at hc
      have hwidth : k - offset < width := by omega
      simp [componentOf?, (LetterSet.letter_cases hc).2.1, hwidth]
    rw [String.toList_ofList, mapM_eq_some, List.forall₂_map_right_iff]
    exact hread.flip

/-- What lies within one component picks it again and again. -/
theorem eq_replicate_of_isWithin {s : Swizzle} {offset : Nat}
    (h : s.isWithin offset 1 = true) : s.components = List.replicate s.length offset := by
  rw [List.eq_replicate_iff]
  refine ⟨rfl, ?_⟩
  intro k hk
  have hbounds := le_of_isWithin h k hk
  omega

theorem isExactly_iff {s : Swizzle} {offset width : Nat} :
    s.isExactly offset width = true ↔ s.components = List.range' offset width := by
  rw [isExactly, beq_iff_eq, List.range'_eq_map_range]

end Swizzle

/-! ## Types by their names -/

namespace DataType

/-- The name of a vector is that of its constructor. -/
theorem ofName?_text_vector (elem : ElementKind) {width : Nat} (h : 2 ≤ width ∧ width ≤ 4) :
    ofName? (vector elem width).text = some (vector elem width) := by
  match width, h with
  | 2, _ | 3, _ | 4, _ => cases elem <;> decide +kernel

end DataType

/-! ## Components of the vector -/

namespace Constituent

/-- The components of the vector that an expression picks from a constituent:
all of them by its name, some by a swizzle, the only one several times by the
constructor of a vector. -/
def picked? (c : Constituent) : Expr → Option (List Nat)
  | .ident name => if name = c.name then some (List.range' c.offset c.width) else none
  | .member (.ident name) field =>
    if name = c.name then
      (Swizzle.parse? field c.width).map fun s => s.components.map (c.offset + ·)
    else none
  | .call callee [.ident name] =>
    if name = c.name ∧ c.width = 1 then
      match DataType.ofName? callee with
      | some (.vector _ width) => some (List.replicate width c.offset)
      | _ => none
    else none
  | _ => none

variable {scalarSwizzles : Bool} {c : Constituent} {elem : ElementKind} {name : String}
  {width : Nat} {s : Swizzle} {e : Expr}

/-- The three things that can stand for an access. -/
theorem replacement?_cases (hs : Swizzle.parse? name width = some s)
    (hin : s.isWithin c.offset c.width = true)
    (h : c.replacement? scalarSwizzles (c.type elem) s = some e) :
    (s.components = List.range' c.offset c.width ∧ e = .ident c.name) ∨
      (c.width = 1 ∧ scalarSwizzles = false ∧ (2 ≤ s.length ∧ s.length ≤ 4) ∧
        s.components = List.replicate s.length c.offset ∧
          e = .call (DataType.vector elem s.length).text [.ident c.name]) ∨
        ((c.width = 1 → scalarSwizzles = true) ∧ ∃ field, e = .member (.ident c.name) field ∧
          Swizzle.parse? field c.width = some ⟨s.components.map (· - c.offset), s.letters⟩) := by
  unfold replacement? at h
  split at h
  · next hexact =>
    cases h
    exact Or.inl ⟨Swizzle.isExactly_iff.1 hexact, rfl⟩
  · next hexact =>
    split at h
    · next hscalar =>
      simp only [Bool.and_eq_true, decide_eq_true_eq, Bool.not_eq_true'] at hscalar
      obtain ⟨hone, hscalar⟩ := hscalar
      rw [hone] at hin hexact
      have hrepeat := Swizzle.eq_replicate_of_isWithin hin
      obtain ⟨hpos, hle⟩ := Swizzle.parse?_length hs
      have hne : s.length ≠ 1 := by
        intro hlength
        rw [hlength] at hrepeat
        exact hexact (Swizzle.isExactly_iff.2 hrepeat)
      cases h
      refine Or.inr (Or.inl ⟨hone, hscalar, by omega, hrepeat, ?_⟩)
      simp [type, hone, DataType.ofComponents, DataType.element, hne]
    · next hscalar =>
      obtain ⟨field, hfield, rfl⟩ := Option.map_eq_some_iff.1 h
      refine Or.inr (Or.inr ⟨fun hone => ?_, field, rfl, Swizzle.parse?_shifted hs hin hfield⟩)
      simpa [hone] using hscalar

/-- What stands for an access picks the same components in the same order. -/
theorem picked?_replacement (hs : Swizzle.parse? name width = some s)
    (hin : s.isWithin c.offset c.width = true)
    (h : c.replacement? scalarSwizzles (c.type elem) s = some e) :
    c.picked? e = some s.components := by
  rcases replacement?_cases hs hin h with
    ⟨hall, rfl⟩ | ⟨hone, -, hlength, hrepeat, rfl⟩ | ⟨-, field, rfl, hfield⟩
  · simp [picked?, hall]
  · simp [picked?, hone, DataType.ofName?_text_vector elem hlength, ← hrepeat]
  · have hback : (s.components.map (· - c.offset)).map (c.offset + ·) = s.components := by
      rw [List.map_map]
      refine (List.map_congr_left fun k hk => ?_).trans (List.map_id _)
      have := Swizzle.le_of_isWithin hin k hk
      simp only [Function.comp_apply, id_eq]
      omega
    simp [picked?, hfield, hback]

/-- No constructor is called where no component is picked twice. -/
theorem replacement?_of_nodup (hs : Swizzle.parse? name width = some s)
    (hin : s.isWithin c.offset c.width = true)
    (h : c.replacement? scalarSwizzles (c.type elem) s = some e) (hn : s.components.Nodup) :
    e = .ident c.name ∨ ∃ field, e = .member (.ident c.name) field := by
  rcases replacement?_cases hs hin h with
    ⟨-, he⟩ | ⟨-, -, hlength, hrepeat, -⟩ | ⟨-, field, he, -⟩
  · exact Or.inl he
  · rw [hrepeat, List.nodup_replicate] at hn
    omega
  · exact Or.inr ⟨field, he⟩

end Constituent

end ShaderMorph
