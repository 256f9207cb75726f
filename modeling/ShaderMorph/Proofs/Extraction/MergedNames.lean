-- How merged names are spelled. A number is written in one way only, and so
-- are the numbers of a constituent and the names, each after the other. What
-- is read off the front of a text is then just what was written there, piece
-- by piece, and a name is accepted when it is the one that its own
-- constituents are written as.
import ShaderMorph.Extraction.Provenance
import ShaderMorph.Proofs.Text.Spelling

namespace ShaderMorph

/-! ## Pieces of a name -/

/-- The bytes of a text that was put together from characters. -/
theorem Text.utf8ByteSize_ofList (text : List Char) :
    (String.ofList text).utf8ByteSize = byteLength text := by
  induction text with
  | nil => rfl
  | cons c text ih =>
    rw [String.ofList_cons, String.utf8ByteSize_append, String.utf8ByteSize_singleton, ih]
    rfl

theorem Text.byteLength_toList (s : String) : byteLength s.toList = s.utf8ByteSize := by
  rw [← utf8ByteSize_ofList, String.ofList_toList]

/-- Every character takes a byte at least. -/
theorem Text.length_le_byteLength (text : List Char) : text.length ≤ byteLength text := by
  induction text with
  | nil => exact Nat.le_refl _
  | cons c text ih =>
    have := c.utf8Size_pos
    simp only [List.length_cons, byteLength]
    omega

theorem Text.byteLength_eq_length {text : List Char} (h : ∀ c ∈ text, c.utf8Size = 1) :
    byteLength text = text.length := by
  induction text with
  | nil => rfl
  | cons c text ih =>
    obtain ⟨hc, h⟩ := List.forall_mem_cons.1 h
    rw [byteLength, hc, ih h, List.length_cons, Nat.add_comm]

namespace Provenance

open Decimal (digits Ends ends_cons readFront?_eq_some)

theorem number?_eq_some {text rest : List Char} {n : Nat} :
    number? text = some (n, rest) ↔ n < numberLimit ∧ text = digits n ++ rest ∧ Ends rest := by
  rw [← readFront?_eq_some]
  unfold number?
  constructor
  · intro h
    split at h
    · next hread =>
      split at h
      · next hlt =>
        cases h
        exact ⟨hlt, hread⟩
      · cases h
    · cases h
  · rintro ⟨hlt, hread⟩
    simp [hread, hlt]

theorem separated?_eq_some {text rest : List Char} {n : Nat} :
    separated? text = some (n, rest) ↔
      n < numberLimit ∧ text = '_' :: (digits n ++ rest) ∧ Ends rest := by
  constructor
  · intro h
    unfold separated? at h
    split at h
    · obtain ⟨hlt, rfl, hends⟩ := number?_eq_some.1 h
      exact ⟨hlt, rfl, hends⟩
    · cases h
  · rintro ⟨hlt, rfl, hends⟩
    exact number?_eq_some.2 ⟨hlt, rfl, hends⟩

theorem readField_eq_ok {name : String} {field n : Nat} {text rest : List Char} :
    readField name field text = .ok (n, rest) ↔
      n < numberLimit ∧ text = '_' :: (digits n ++ rest) ∧ Ends rest := by
  rw [← separated?_eq_some]
  unfold readField
  split
  · next hread => simp [hread]
  · next hread => simp [hread]

/-- A sequence of two steps has an answer when both have, and no other. -/
theorem bind_eq_ok {a : Except ε α} {f : α → Except ε β} {b : β} :
    (a >>= f) = .ok b ↔ ∃ x, a = .ok x ∧ f x = .ok b := by
  cases a with
  | error e => simp [bind, Except.bind]
  | ok x => simp [bind, Except.bind]

/-! ## Slots -/

namespace Slot

/-- How a slot is written. -/
def text (s : Slot) : List Char :=
  '_' :: (digits s.offset ++ '_' :: (digits s.width ++ '_' :: digits s.nameBytes))

/-- What a slot is held to when it is read. -/
structure Fits (s : Slot) : Prop where
  width_pos : 0 < s.width
  stop_le : s.offset + s.width ≤ maxWidth
  nameBytes_pos : 0 < s.nameBytes
  nameBytes_lt : s.nameBytes < numberLimit

end Slot

theorem maxWidth_lt_numberLimit : maxWidth < numberLimit := by decide

theorem readSlot_eq_ok {name : String} {index : Nat} {slot : Slot} {text rest : List Char} :
    readSlot name index text = .ok (slot, rest) ↔
      slot.Fits ∧ text = slot.text ++ rest ∧ Ends rest := by
  constructor
  · intro h
    obtain ⟨⟨offset, t₁⟩, h₁, h⟩ := bind_eq_ok.1 h
    obtain ⟨⟨width, t₂⟩, h₂, h⟩ := bind_eq_ok.1 h
    obtain ⟨⟨nameBytes, t₃⟩, h₃, h⟩ := bind_eq_ok.1 h
    simp only at h
    split at h
    · cases h
    · next hzero =>
      split at h
      · cases h
      · next hstop =>
        cases h
        obtain ⟨-, rfl, -⟩ := readField_eq_ok.1 h₁
        obtain ⟨-, rfl, -⟩ := readField_eq_ok.1 h₂
        obtain ⟨hlt, rfl, hends⟩ := readField_eq_ok.1 h₃
        obtain ⟨hwidth, hname⟩ := not_or.1 hzero
        exact ⟨⟨Nat.pos_of_ne_zero hwidth, Nat.le_of_not_lt hstop, Nat.pos_of_ne_zero hname, hlt⟩,
          by simp [Slot.text], hends⟩
  · rintro ⟨⟨hwidth, hstop, hname, hlt⟩, rfl, hends⟩
    have hlimit := maxWidth_lt_numberLimit
    have hoffset : readField name (1 + 3 * index) _ =
        .ok (slot.offset, '_' :: (digits slot.width ++ '_' :: (digits slot.nameBytes ++ rest))) :=
      readField_eq_ok.2 ⟨by omega, rfl, ends_cons.2 rfl⟩
    have hwidth' : readField name (1 + 3 * index + 1) _ =
        .ok (slot.width, '_' :: (digits slot.nameBytes ++ rest)) :=
      readField_eq_ok.2 ⟨by omega, rfl, ends_cons.2 rfl⟩
    have hname' : readField name (1 + 3 * index + 2) _ = .ok (slot.nameBytes, rest) :=
      readField_eq_ok.2 ⟨hlt, rfl, hends⟩
    have htext : slot.text ++ rest = '_' :: (digits slot.offset ++ '_' :: (digits slot.width ++
        '_' :: (digits slot.nameBytes ++ rest))) := by
      simp [Slot.text]
    rw [htext]
    refine bind_eq_ok.2 ⟨_, hoffset, bind_eq_ok.2 ⟨_, hwidth', bind_eq_ok.2 ⟨_, hname', ?_⟩⟩⟩
    have hpos : ¬ (slot.width = 0 ∨ slot.nameBytes = 0) := by omega
    simp only [hpos, Nat.not_lt.2 hstop, if_false]

theorem ends_slots {slots : List Slot} (h : slots ≠ []) (rest : List Char) :
    Ends (slots.flatMap Slot.text ++ rest) := by
  cases slots with
  | nil => exact absurd rfl h
  | cons slot slots => exact ends_cons.2 rfl

theorem readSlots_eq_ok {name : String} {count index : Nat} {slots : List Slot}
    {text rest : List Char} :
    readSlots name count index text = .ok (slots, rest) ↔
      slots.length = count ∧ (∀ s ∈ slots, s.Fits) ∧ text = slots.flatMap Slot.text ++ rest ∧
        (slots ≠ [] → Ends rest) := by
  induction count generalizing index slots text with
  | zero =>
    constructor
    · intro h
      cases h
      simp
    · rintro ⟨hlength, -, rfl, -⟩
      obtain rfl := List.eq_nil_of_length_eq_zero hlength
      rfl
  | succ count ih =>
    constructor
    · intro h
      obtain ⟨⟨slot, t₁⟩, h₁, h⟩ := bind_eq_ok.1 h
      obtain ⟨⟨slots', t₂⟩, h₂, h⟩ := bind_eq_ok.1 h
      cases h
      obtain ⟨hfits, rfl, hends⟩ := readSlot_eq_ok.1 h₁
      obtain ⟨hlength, hall, rfl, hends'⟩ := ih.1 h₂
      refine ⟨by rw [List.length_cons, hlength], List.forall_mem_cons.2 ⟨hfits, hall⟩,
        by simp, fun _ => ?_⟩
      cases slots' with
      | nil => simpa using hends
      | cons s slots' => exact hends' (List.cons_ne_nil s slots')
    · rintro ⟨hlength, hall, rfl, hends⟩
      cases slots with
      | nil => cases hlength
      | cons slot slots =>
        obtain ⟨hfits, hall⟩ := List.forall_mem_cons.1 hall
        have hrest : Ends (slots.flatMap Slot.text ++ rest) := by
          by_cases hne : slots = []
          · rw [hne]
            exact hends (List.cons_ne_nil _ _)
          · exact ends_slots hne rest
        have h₁ : readSlot name index _ = .ok (slot, _) :=
          readSlot_eq_ok.2 ⟨hfits, rfl, hrest⟩
        have h₂ : readSlots name count (index + 1) _ = .ok (slots, rest) :=
          ih.2 ⟨Nat.succ.inj hlength, hall, rfl, fun _ => hends (List.cons_ne_nil _ _)⟩
        rw [List.flatMap_cons, List.append_assoc]
        exact bind_eq_ok.2 ⟨_, h₁, bind_eq_ok.2 ⟨_, h₂, rfl⟩⟩

/-! ## Names -/

/-- The slot that a constituent is read from. -/
def Slot.of (c : Constituent) : Slot := ⟨c.offset, c.width, c.name.utf8ByteSize⟩

/-- One name is read off the start of the text. -/
theorem readNames_cons_eq_ok {name : String} {slot : Slot} {slots : List Slot} {text : List Char}
    {cs : List Constituent} :
    readNames name (slot :: slots) text = .ok cs ↔
      ∃ c rest cs', slot = Slot.of c ∧ text = c.name.toList ++ rest ∧
        Text.isIdentifier c.name.toList = true ∧ readNames name slots rest = .ok cs' ∧
          cs = c :: cs' := by
  constructor
  · intro h
    unfold readNames at h
    split at h
    · cases h
    · next head tail hsplit =>
      obtain ⟨rfl, hbytes⟩ := Text.splitBytes?_eq_some.1 hsplit
      split at h
      · next hident =>
        obtain ⟨rest, hrest, h⟩ := bind_eq_ok.1 h
        cases h
        refine ⟨⟨String.ofList head, slot.offset, slot.width⟩, tail, rest, ?_, by simp,
          by simpa using hident, hrest, rfl⟩
        rw [Slot.of, Text.utf8ByteSize_ofList, hbytes]
      · cases h
  · rintro ⟨c, rest, cs', rfl, rfl, hname, hrest, rfl⟩
    have hsplit : Text.splitBytes? (c.name.toList ++ rest) (Slot.of c).nameBytes =
        some (c.name.toList, rest) :=
      Text.splitBytes?_eq_some.2 ⟨rfl, Text.byteLength_toList c.name⟩
    unfold readNames
    rw [hsplit]
    simp only [hname, if_true]
    refine bind_eq_ok.2 ⟨cs', hrest, ?_⟩
    rw [String.ofList_toList]
    rfl

theorem readNames_eq_ok {name : String} {slots : List Slot} {text : List Char}
    {cs : List Constituent} :
    readNames name slots text = .ok cs ↔
      slots = cs.map Slot.of ∧ text = cs.flatMap (·.name.toList) ∧
        ∀ c ∈ cs, Text.isIdentifier c.name.toList = true := by
  induction slots generalizing text cs with
  | nil =>
    cases text with
    | nil =>
      constructor
      · intro h
        cases h
        simp
      · rintro ⟨hslots, -, -⟩
        rw [List.map_eq_nil_iff.1 hslots.symm]
        rfl
    | cons c text =>
      constructor
      · intro h
        cases h
      · rintro ⟨hslots, htext, -⟩
        rw [List.map_eq_nil_iff.1 hslots.symm] at htext
        cases htext
  | cons slot slots ih =>
    rw [readNames_cons_eq_ok]
    constructor
    · rintro ⟨c, rest, cs, rfl, rfl, hname, hrest, rfl⟩
      obtain ⟨rfl, rfl, hnames⟩ := ih.1 hrest
      exact ⟨rfl, rfl, List.forall_mem_cons.2 ⟨hname, hnames⟩⟩
    · rintro ⟨hslots, rfl, hnames⟩
      cases cs with
      | nil => cases hslots
      | cons c cs =>
        obtain ⟨rfl, rfl⟩ := List.cons.inj hslots
        obtain ⟨hname, hnames⟩ := List.forall_mem_cons.1 hnames
        exact ⟨c, _, cs, rfl, rfl, hname, ih.2 ⟨rfl, rfl, hnames⟩, rfl⟩

end Provenance

/-! ## Components -/

namespace Constituent

/-- Whether a constituent takes the component with this number. -/
def Covers (c : Constituent) (component : Nat) : Prop :=
  c.offset ≤ component ∧ component < c.stop

theorem meets_eq_false {a b : Constituent} (ha : 0 < a.width) (hb : 0 < b.width) :
    a.meets b = false ↔ ∀ i, a.Covers i → ¬ b.Covers i := by
  simp only [meets, Bool.and_eq_false_iff, decide_eq_false_iff_not, Covers]
  simp only [stop]
  constructor
  · rintro h i ⟨_, _⟩ ⟨_, _⟩
    omega
  · -- Where two constituents meet, the first component of one is in both.
    intro h
    have hmax := h (max a.offset b.offset)
    omega

/-- What a constituent is held to: it lies within the widest vector, and its
name is an identifier of a length that can be written. -/
structure Legal (c : Constituent) : Prop where
  named : Text.isIdentifier c.name.toList = true
  name_lt : c.name.utf8ByteSize < Nat.pow 2 64
  width_pos : 0 < c.width
  stop_le : c.stop ≤ 4

end Constituent

namespace Provenance

open Decimal (digits Ends ends_cons)

theorem overlapping_eq_false {cs : List Constituent} :
    overlapping cs = false ↔ cs.Pairwise fun a b => a.meets b = false := by
  constructor
  · intro h
    induction cs with
    | nil => exact .nil
    | cons c cs ih =>
      simp only [overlapping, Bool.or_eq_false_iff, List.any_eq_false, Bool.not_eq_true] at h
      exact .cons h.1 (ih h.2)
  · intro h
    induction h with
    | nil => rfl
    | cons hc _ ih =>
      rw [overlapping, ih, Bool.or_false, List.any_eq_false]
      exact fun c hcs => by simp [hc c hcs]

/-- What can be packed into one vector: up to four constituents, with each
component taken once at most. -/
structure Legal (p : Provenance) : Prop where
  nonempty : p.constituents ≠ []
  length_le : p.constituents.length ≤ 4
  each : ∀ c ∈ p.constituents, c.Legal
  apart : p.constituents.Pairwise fun a b => ∀ i, a.Covers i → ¬ b.Covers i

theorem overlapping_eq_false_iff_apart {cs : List Constituent} (h : ∀ c ∈ cs, 0 < c.width) :
    overlapping cs = false ↔ cs.Pairwise fun a b => ∀ i, a.Covers i → ¬ b.Covers i := by
  rw [overlapping_eq_false]
  exact List.Pairwise.iff_of_mem fun ha hb => Constituent.meets_eq_false (h _ ha) (h _ hb)

theorem Slot.fits_of {c : Constituent} (h : Text.isIdentifier c.name.toList = true) :
    (Slot.of c).Fits ↔ c.Legal := by
  constructor
  · rintro ⟨hwidth, hstop, -, hlt⟩
    exact ⟨h, hlt, hwidth, hstop⟩
  · rintro ⟨-, hlt, hwidth, hstop⟩
    refine ⟨hwidth, hstop, ?_, hlt⟩
    have hpos := List.length_pos_iff.2 (Text.ne_nil_of_isIdentifier h)
    have hbytes := Text.length_le_byteLength c.name.toList
    rw [Text.byteLength_toList] at hbytes
    exact Nat.lt_of_lt_of_le hpos hbytes

theorem toList_layoutText (c : Constituent) : (layoutText c).toList = (Slot.of c).text := by
  simp [layoutText, Slot.text, Slot.of, Decimal.natural]

theorem toList_encode (p : Provenance) (start : String) :
    (p.encode start).toList = start.toList ++ (digits p.constituents.length ++
      ((p.constituents.map Slot.of).flatMap Slot.text ++
        p.constituents.flatMap (·.name.toList))) := by
  simp [encode, Decimal.natural, String.toList_join, toList_layoutText, List.flatMap_map]

/-- The names behind the numbers, the first of which is no digit. -/
theorem ends_names {cs : List Constituent} (hne : cs ≠ []) (h : ∀ c ∈ cs, c.Legal) :
    Ends (cs.flatMap (·.name.toList)) := by
  cases cs with
  | nil => exact absurd rfl hne
  | cons c cs =>
    exact Text.ends_of_isIdentifier (h c List.mem_cons_self).named _

/-- A name that is read is what its constituents are written as. -/
theorem of_decode_eq_ok {name start : String} {p : Provenance} (h : decode name start = .ok p) :
    p.Legal ∧ name = p.encode start := by
  unfold decode at h
  split at h
  · cases h
  · next text hstart =>
    split at h
    · cases h
    · next count rest hnumber =>
      split at h
      · cases h
      · next hcount =>
        obtain ⟨⟨slots, names⟩, hslots, h⟩ := bind_eq_ok.1 h
        obtain ⟨cs, hcs, h⟩ := bind_eq_ok.1 h
        split at h
        · cases h
        · next hover =>
          cases h
          obtain ⟨-, rfl, -⟩ := number?_eq_some.1 hnumber
          obtain ⟨rfl, hfits, rfl, -⟩ := readSlots_eq_ok.1 hslots
          obtain ⟨rfl, rfl, hnamed⟩ := readNames_eq_ok.1 hcs
          rw [List.length_map] at hcount hstart
          obtain ⟨hpos, hle⟩ := not_or.1 hcount
          have hlegal : ∀ c ∈ cs, c.Legal := fun c hc =>
            (Slot.fits_of (hnamed c hc)).1 (hfits _ (List.mem_map_of_mem hc))
          have hapart := (overlapping_eq_false_iff_apart fun c hc => (hlegal c hc).width_pos).1
            (Bool.eq_false_iff.2 hover)
          refine ⟨⟨List.length_pos_iff.1 (Nat.pos_of_ne_zero hpos), Nat.le_of_not_lt hle, hlegal,
            hapart⟩, ?_⟩
          rw [← String.toList_inj, toList_encode]
          exact Text.eq_append_of_dropStart? hstart

/-- What is written for constituents that fit is read as just these. -/
theorem decode_encode {p : Provenance} (hp : p.Legal) (start : String) :
    decode (p.encode start) start = .ok p := by
  obtain ⟨cs⟩ := p
  obtain ⟨hne, hlength, hlegal, hapart⟩ := hp
  simp only at hne hlength hlegal hapart
  have hslotsNe : cs.map Slot.of ≠ [] := by simpa using hne
  have hfits : ∀ s ∈ cs.map Slot.of, s.Fits := by
    intro s hs
    obtain ⟨c, hc, rfl⟩ := List.mem_map.1 hs
    exact (Slot.fits_of (hlegal c hc).named).2 (hlegal c hc)
  have hlt : cs.length < numberLimit := Nat.lt_of_le_of_lt hlength maxWidth_lt_numberLimit
  have hcount : ¬ (cs.length = 0 ∨ maxWidth < cs.length) :=
    not_or.2 ⟨fun h => hne (List.length_eq_zero_iff.1 h), Nat.not_lt.2 hlength⟩
  have hstart := Text.dropStart?_eq_some_iff.2 (toList_encode ⟨cs⟩ start)
  have hnumber := number?_eq_some.2 ⟨hlt, rfl, ends_slots hslotsNe (cs.flatMap (·.name.toList))⟩
  have hslots : readSlots (encode ⟨cs⟩ start) cs.length 0 _ = .ok (cs.map Slot.of, _) :=
    readSlots_eq_ok.2 ⟨List.length_map .., hfits, rfl, fun _ => ends_names hne hlegal⟩
  have hnames : readNames (encode ⟨cs⟩ start) (cs.map Slot.of) _ = .ok cs :=
    readNames_eq_ok.2 ⟨rfl, rfl, fun c hc => (hlegal c hc).named⟩
  have hover := (overlapping_eq_false_iff_apart fun c hc => (hlegal c hc).width_pos).2 hapart
  unfold decode
  simp only [hstart, hnumber, hcount, if_false]
  refine bind_eq_ok.2 ⟨_, hslots, bind_eq_ok.2 ⟨_, hnames, ?_⟩⟩
  rw [hover]
  rfl

/-- Merged names are read exactly as they are written: reading takes back
writing and writing takes back reading, and whatever is written for no legal
constituents is an error. -/
theorem decode_exact (name start : String) :
    (∀ p, decode name start = .ok p ↔ p.Legal ∧ name = p.encode start) ∧
      (∀ p : Provenance, p.Legal → decode (p.encode start) start = .ok p) ∧
      (∀ p, decode name start = .ok p → p.encode start = name) ∧
      ((∀ p : Provenance, p.Legal → name ≠ p.encode start) →
        ∃ e, decode name start = .error e) := by
  refine ⟨fun p => ⟨of_decode_eq_ok, ?_⟩, fun p hp => decode_encode hp start,
    fun p h => (of_decode_eq_ok h).2.symm, fun hnone => ?_⟩
  · rintro ⟨hp, rfl⟩
    exact decode_encode hp start
  · cases h : decode name start with
    | error e => exact ⟨e, rfl⟩
    | ok p =>
      obtain ⟨hp, hname⟩ := of_decode_eq_ok h
      exact absurd hname (hnone p hp)

/-! ## What is read -/

/-- A constituent has a shorter name than the vector that it is packed
into. -/
theorem name_lt_of_decode {name start : String} {m : Provenance} (h : decode name start = .ok m)
    {c : Constituent} (hc : c ∈ m.constituents) : c.name.utf8ByteSize < name.utf8ByteSize := by
  obtain ⟨-, rfl⟩ := of_decode_eq_ok h
  obtain ⟨pre, post, hsplit⟩ := List.append_of_mem hc
  have hdigits : 0 < Text.byteLength (digits m.constituents.length) :=
    Nat.lt_of_lt_of_le (List.length_pos_iff.2 (Decimal.digits_ne_nil _))
      (Text.length_le_byteLength _)
  rw [← Text.byteLength_toList, ← Text.byteLength_toList, toList_encode]
  rw [hsplit] at hdigits ⊢
  simp only [Text.byteLength_append, List.flatMap_append, List.flatMap_cons]
  omega

/-- No two constituents of a merged name share a component, and each has
one. -/
theorem apart_of_decode {name start : String} {m : Provenance} (h : decode name start = .ok m) :
    m.constituents.Pairwise (fun a b => a.meets b = false) ∧ ∀ c ∈ m.constituents, 0 < c.width := by
  have hm := (of_decode_eq_ok h).1
  have hwidth : ∀ c ∈ m.constituents, 0 < c.width := fun c hc => (hm.each c hc).width_pos
  exact ⟨overlapping_eq_false.1 ((overlapping_eq_false_iff_apart hwidth).2 hm.apart), hwidth⟩

end Provenance

end ShaderMorph
