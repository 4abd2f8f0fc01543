import PenScript.Random.Pick

/-!
# Picks

A pick from a list that holds anything gives one of its items and moves the generator on; any other
pick gives nothing and leaves the generator where it stands.
-/

set_option autoImplicit false

namespace PenScript

namespace Generator

/-! ## Drawing below a bound -/

theorem index_lt {n : Nat} (value : UInt64) (hn : 0 < n) : index n value < n := by
  have hv : value.toNat < UInt64.size := UInt64.toNat_lt_size value
  rw [index, Nat.div_lt_iff_lt_mul (by decide), Nat.mul_comm n]
  exact Nat.mul_lt_mul_of_pos_right hv hn

theorem drawBelow_lt {n : Nat} (hn : 0 < n) (count : Nat) (g : Generator) :
    (drawBelow n count g).1 < n := by
  induction count generalizing g with
  | zero => exact hn
  | succ count ih =>
      rw [drawBelow]
      split
      · exact index_lt _ hn
      · exact ih _

theorem drawn_le_drawBelow (n count : Nat) (g : Generator) :
    g.drawn ≤ (drawBelow n count g).2.drawn := by
  induction count generalizing g with
  | zero => exact Nat.le_refl _
  | succ count ih =>
      rw [drawBelow]
      split
      · exact Nat.le_succ _
      · exact Nat.le_of_succ_le (ih ⟨g.key, g.drawn + 1⟩)

theorem below_lt {n : Nat} (hn : 0 < n) (g : Generator) : (g.below n).1 < n :=
  drawBelow_lt hn period g

/-- A draw takes at least one value from the keystream. -/
theorem drawn_lt_below (n : Nat) (g : Generator) : g.drawn < (g.below n).2.drawn := by
  have hp : period = (period - 1) + 1 := by decide
  rw [below, hp, drawBelow]
  split
  · exact Nat.lt_succ_self _
  · exact drawn_le_drawBelow n (period - 1) ⟨g.key, g.drawn + 1⟩

end Generator

/-! ## Drawing from a list -/

variable {α : Type}

/-- A list, and the place of an item in it. -/
structure Draw (α : Type) where
  items : Array α
  index : Fin items.size

namespace Draw

def size (d : Draw α) : Nat :=
  d.items.size

def item (d : Draw α) : α :=
  d.items[d.index]

theorem item_mem (d : Draw α) : d.item ∈ d.items :=
  Array.getElem_mem d.index.isLt

end Draw

namespace Generator

def draw? (g : Generator) (items : Array α) : Option (Draw α) :=
  if h : 0 < items.size then some ⟨items, (g.below items.size).1, below_lt h g⟩ else none

theorem of_draw? {g : Generator} {items : Array α} {d : Draw α} (h : g.draw? items = some d) :
    d.items = items ∧ d.index.val = (g.below d.size).1 := by
  unfold draw? at h
  split at h
  · cases h
    exact ⟨rfl, rfl⟩
  · cases h

/-! ## Picking from a list -/

theorem pick?_eq_draw? (g : Generator) (items : Array α) :
    g.pick? items = match g.draw? items with
      | some d => (some d.item, (g.below d.size).2)
      | none => (none, g) := by
  unfold draw?
  by_cases hpos : 0 < items.size
  · have hne : items.isEmpty = false := by simpa [Array.isEmpty] using Nat.ne_of_gt hpos
    simp [pick?, hne, hpos, Draw.item, Draw.size, below_lt hpos g]
  · have hempty : items = #[] := Array.eq_empty_of_size_eq_zero (by omega)
    subst hempty
    rfl

theorem pickNamed?_eq_draw? (g : Generator) (store : Store α) (name : String) :
    g.pickNamed? store name = match (store.list? name).bind g.draw? with
      | some d => (some d.item, (g.below d.size).2)
      | none => (none, g) := by
  rw [pickNamed?]
  cases store.list? name with
  | none => rfl
  | some items => exact pick?_eq_draw? g items

/-- A list that holds nothing is not drawn from; of any other list an item is picked by its place. -/
theorem pickNamed?_of_list? {store : Store α} {name : String} {items : Array α}
    (h : store.list? name = some items) (g : Generator) :
    (items = #[] ∧ g.pickNamed? store name = (none, g)) ∨
    ∃ hlt : (g.below items.size).1 < items.size, 0 < items.size ∧
      g.pickNamed? store name = (some items[(g.below items.size).1], (g.below items.size).2) := by
  rw [pickNamed?_eq_draw?, h, Option.bind_some, draw?]
  by_cases hpos : 0 < items.size
  · rw [dif_pos hpos]
    exact Or.inr ⟨below_lt hpos g, hpos, rfl⟩
  · rw [dif_neg hpos]
    exact Or.inl ⟨Array.eq_empty_of_size_eq_zero (by omega), rfl⟩

theorem pickNamed?_cases (g : Generator) (store : Store α) (name : String) :
    g.pickNamed? store name = (none, g) ∨
    ∃ items item, store.list? name = some items ∧ item ∈ items ∧
      g.pickNamed? store name = (some item, (g.below items.size).2) := by
  rw [pickNamed?_eq_draw?]
  cases hdraw : (store.list? name).bind g.draw? with
  | none => exact Or.inl rfl
  | some d =>
      obtain ⟨items, hitems, hd⟩ := Option.bind_eq_some_iff.mp hdraw
      obtain ⟨rfl, -⟩ := of_draw? hd
      exact Or.inr ⟨d.items, d.item, hitems, d.item_mem, rfl⟩

theorem pickNamed?_generator_eq_iff (g : Generator) (store : Store α) (name : String) :
    (g.pickNamed? store name).2 = g ↔ (g.pickNamed? store name).1 = none := by
  rcases pickNamed?_cases g store name with h | ⟨items, item, -, -, h⟩
  · simp [h]
  · have hlt := drawn_lt_below items.size g
    simp only [h, reduceCtorEq, iff_false]
    intro he
    rw [he] at hlt
    exact Nat.lt_irrefl _ hlt

end Generator
end PenScript
