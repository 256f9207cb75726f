-- A place in a larger thing: the part that stands there, and the larger
-- thing with another part put in its stead.

namespace ShaderMorph

/-- A place that holds a `β` inside an `α`. -/
structure Place (β α : Type) where
  part : β
  put : β → α

namespace Place

/-- The whole of a thing, as a place in itself. -/
def whole (a : α) : Place α α := ⟨a, id⟩

/-- The same place, inside something built around the larger thing. -/
def map (f : α → γ) (p : Place β α) : Place β γ := ⟨p.part, f ∘ p.put⟩

@[simp] theorem part_map (f : α → γ) (p : Place β α) : (p.map f).part = p.part := rfl

@[simp] theorem put_map (f : α → γ) (p : Place β α) (b : β) : (p.map f).put b = f (p.put b) := rfl

/-- The place of an element of a list. -/
def ofIndex? (l : List β) (i : Nat) : Option (Place β (List β)) :=
  l[i]?.map fun b => ⟨b, l.set i⟩

end Place

end ShaderMorph
