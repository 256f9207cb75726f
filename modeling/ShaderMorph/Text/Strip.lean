-- Reading a text from its front: a known start taken off, a longest run
-- taken off, and a piece of a given number of UTF-8 bytes taken off.

namespace ShaderMorph.Text

/-! ## A known start -/

/-- What follows `start` in `text`, when `text` begins with it. -/
def dropStart? : (start text : List Char) → Option (List Char)
  | [], text => some text
  | _ :: _, [] => none
  | s :: start, c :: text => if s = c then dropStart? start text else none

theorem dropStart?_append (start rest : List Char) :
    dropStart? start (start ++ rest) = some rest := by
  induction start with
  | nil => rfl
  | cons s start ih => simp [dropStart?, ih]

theorem eq_append_of_dropStart? {start text rest : List Char}
    (h : dropStart? start text = some rest) : text = start ++ rest := by
  induction start generalizing text with
  | nil => simpa [dropStart?] using h
  | cons s start ih =>
    cases text with
    | nil => simp [dropStart?] at h
    | cons c text =>
      by_cases hc : s = c
      · simp only [dropStart?, hc, if_true] at h
        simp [hc, ih h]
      · simp [dropStart?, hc] at h

/-- A text begins with `start` exactly when it is `start` and a rest. -/
theorem dropStart?_eq_some_iff {start text rest : List Char} :
    dropStart? start text = some rest ↔ text = start ++ rest :=
  ⟨eq_append_of_dropStart?, fun h => h ▸ dropStart?_append start rest⟩

/-! ## Bytes -/

/-- Length of a text in UTF-8 bytes. -/
def byteLength : List Char → Nat
  | [] => 0
  | c :: text => c.utf8Size + byteLength text

theorem byteLength_append (a b : List Char) :
    byteLength (a ++ b) = byteLength a + byteLength b := by
  induction a with
  | nil => simp [byteLength]
  | cons c a ih => simp [byteLength, ih, Nat.add_assoc]

/-- The first `bytes` bytes of a text and the rest. There is no such split
when the text is shorter, or when the cut would fall inside a character. -/
def splitBytes? : (text : List Char) → (bytes : Nat) → Option (List Char × List Char)
  | text, 0 => some ([], text)
  | [], _ + 1 => none
  | c :: text, bytes + 1 =>
    if c.utf8Size ≤ bytes + 1 then
      (splitBytes? text (bytes + 1 - c.utf8Size)).map fun (head, tail) => (c :: head, tail)
    else none

theorem splitBytes?_zero (text : List Char) : splitBytes? text 0 = some ([], text) := by
  cases text <;> rfl

/-- The two parts make up the text, and the first one has the bytes asked for. -/
theorem eq_append_of_splitBytes? {text head tail : List Char} {bytes : Nat}
    (h : splitBytes? text bytes = some (head, tail)) :
    text = head ++ tail ∧ byteLength head = bytes := by
  fun_induction splitBytes? text bytes generalizing head tail with
  | case1 => simp_all [byteLength]
  | case2 => simp at h
  | case3 c text bytes hc ih =>
    obtain ⟨⟨u, v⟩, hu, huv⟩ := Option.map_eq_some_iff.1 h
    simp only [Prod.mk.injEq] at huv
    obtain ⟨rfl, rfl⟩ := huv
    obtain ⟨rfl, hbytes⟩ := ih hu
    refine ⟨rfl, ?_⟩
    rw [byteLength, hbytes]
    omega
  | case4 => simp at h

/-- A text is split again at the bytes its first part has. -/
theorem splitBytes?_append (head tail : List Char) :
    splitBytes? (head ++ tail) (byteLength head) = some (head, tail) := by
  induction head with
  | nil => exact splitBytes?_zero tail
  | cons c head ih =>
    have hc : 0 < c.utf8Size := c.utf8Size_pos
    obtain ⟨n, hn⟩ : ∃ n, c.utf8Size + byteLength head = n + 1 :=
      ⟨c.utf8Size + byteLength head - 1, by omega⟩
    simp only [List.cons_append, byteLength, hn, splitBytes?]
    rw [if_pos (by omega), ← hn, Nat.add_sub_cancel_left, ih]
    rfl

/-- A piece of so many bytes is what a text is split into, and no other. -/
theorem splitBytes?_eq_some {text head tail : List Char} {bytes : Nat} :
    splitBytes? text bytes = some (head, tail) ↔
      text = head ++ tail ∧ byteLength head = bytes := by
  refine ⟨eq_append_of_splitBytes?, ?_⟩
  rintro ⟨rfl, rfl⟩
  exact splitBytes?_append head tail

end ShaderMorph.Text
