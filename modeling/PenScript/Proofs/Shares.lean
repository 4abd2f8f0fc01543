import PenScript.Proofs.Picks
import PenScript.Proofs.Stores
import Mathlib.Algebra.Order.Floor.Div
import Mathlib.Data.FinEnum
import Mathlib.Data.Fintype.BigOperators
import Mathlib.Order.Interval.Finset.Nat

/-!
# Shares

How many of all 64-bit values pick each item of a list: as many for each of them, a power of two, and
together at least half of all.
-/

set_option autoImplicit false

namespace PenScript.Generator

/-! ## The zone -/

/-- The zeros in front of a number written with 64 bits. -/
def leadingZeros (n : Nat) : Nat :=
  (BitVec.ofNat 64 n).clz.toNat

/-- The values that each item has for itself. -/
def share (n : Nat) : Nat :=
  2 ^ leadingZeros n

section Zone

variable {n : Nat}

theorem leadingZeros_bounds (hpos : 0 < n) (hsize : n < UInt64.size) :
    leadingZeros n ≤ 63 ∧ 2 ^ (63 - leadingZeros n) ≤ n ∧ n < 2 ^ (64 - leadingZeros n) := by
  have hval : (BitVec.ofNat 64 n).toNat = n := Nat.mod_eq_of_lt hsize
  have hne : BitVec.ofNat 64 n ≠ 0#64 := by
    intro h
    rw [h] at hval
    exact Nat.ne_of_lt hpos hval
  have hlow := BitVec.two_pow_sub_clz_le_toNat_of_ne_zero (by decide : 0 < 64) hne
  have hhigh := BitVec.toNat_lt_two_pow_sub_clz (x := BitVec.ofNat 64 n)
  have hlt : (BitVec.ofNat 64 n).clz.toNat < 64 := BitVec.clz_lt_iff_ne_zero.mpr hne
  rw [hval] at hlow hhigh
  exact ⟨Nat.le_of_lt_succ hlt, hlow, hhigh⟩

theorem log2_eq (hpos : 0 < n) (hsize : n < UInt64.size) : n.log2 = 63 - leadingZeros n := by
  obtain ⟨hle, hlow, hhigh⟩ := leadingZeros_bounds hpos hsize
  have hnext : 63 - leadingZeros n + 1 = 64 - leadingZeros n := by omega
  rw [Nat.log2_eq_iff (Nat.ne_of_gt hpos), hnext]
  exact ⟨hlow, hhigh⟩

theorem mul_share_pos (hpos : 0 < n) : 0 < n * share n :=
  Nat.mul_pos hpos (Nat.two_pow_pos _)

/-- With its leading zeros shifted out, a number takes all 64 bits. -/
theorem mul_share_bounds (hpos : 0 < n) (hsize : n < UInt64.size) :
    UInt64.size ≤ 2 * (n * share n) ∧ n * share n < UInt64.size := by
  obtain ⟨hle, hlow, hhigh⟩ := leadingZeros_bounds hpos hsize
  have hshare : 0 < share n := Nat.two_pow_pos _
  constructor
  · have hsplit : 2 ^ (63 - leadingZeros n) * share n = 2 ^ 63 := by
      rw [share, ← Nat.pow_add, Nat.sub_add_cancel hle]
    have hmul := Nat.mul_le_mul_right (share n) hlow
    rw [hsplit] at hmul
    exact Nat.mul_le_mul_left 2 hmul
  · have hsplit : 2 ^ (64 - leadingZeros n) * share n = UInt64.size := by
      rw [share, ← Nat.pow_add, Nat.sub_add_cancel (Nat.le_succ_of_le hle)]
    rw [← hsplit]
    exact Nat.mul_lt_mul_of_pos_right hhigh hshare

theorem zone_add_one (hpos : 0 < n) (hsize : n < UInt64.size) : zone n + 1 = n * share n := by
  obtain ⟨hle, -, -⟩ := leadingZeros_bounds hpos hsize
  have hshift : 63 - n.log2 = leadingZeros n := by
    rw [log2_eq hpos hsize]
    omega
  rw [zone, hshift, Nat.shiftLeft_eq, ← share]
  exact Nat.sub_add_cancel (mul_share_pos hpos)

/-- The zone is the shifted number less one, with 64 bits. -/
theorem zone_eq (hpos : 0 < n) (hsize : n < UInt64.size) :
    zone n = ((BitVec.ofNat 64 n <<< leadingZeros n) - 1#64).toNat := by
  obtain ⟨-, hfull⟩ := mul_share_bounds hpos hsize
  have hshift : (BitVec.ofNat 64 n <<< leadingZeros n).toNat = n * share n := by
    rw [BitVec.toNat_shiftLeft, BitVec.toNat_ofNat, Nat.mod_eq_of_lt hsize, Nat.shiftLeft_eq]
    exact Nat.mod_eq_of_lt hfull
  have hzone := zone_add_one hpos hsize
  rw [BitVec.toNat_sub_of_le (by rw [BitVec.le_def, hshift]; exact mul_share_pos hpos), hshift]
  simp only [BitVec.toNat_ofNat, Nat.reducePow, Nat.one_mod]
  omega

end Zone

/-! ## The values that pick an item -/

/-- The least value that picks an item. -/
def first (n i : Nat) : Nat :=
  i * UInt64.size ⌈/⌉ n

def accepted (n : Nat) : Finset UInt64 :=
  Finset.univ.filter fun value => accepts n value

def picking (n i : Nat) : Finset UInt64 :=
  Finset.univ.filter fun value => accepts n value ∧ index n value = i

section Values

variable {n i : Nat}

/-- The products that pick an item are those in the first part of its own stretch. -/
theorem accepts_and_index_iff (hpos : 0 < n) (hsize : n < UInt64.size) (value : UInt64) :
    (accepts n value = true ∧ index n value = i) ↔
      i * UInt64.size ≤ value.toNat * n ∧ value.toNat * n < i * UInt64.size + n * share n := by
  obtain ⟨-, hfull⟩ := mul_share_bounds hpos hsize
  have hzone := zone_add_one hpos hsize
  have hsplit := Nat.div_add_mod (value.toNat * n) UInt64.size
  have hmod := Nat.mod_lt (value.toNat * n) (by decide : UInt64.size > 0)
  rw [accepts, decide_eq_true_iff, index]
  generalize value.toNat * n = product at *
  generalize n * share n = width at *
  constructor
  · rintro ⟨hle, rfl⟩
    rw [Nat.mul_comm (product / UInt64.size)]
    omega
  · rintro ⟨hlow, hhigh⟩
    have hindex : product / UInt64.size = i := by
      rw [Nat.div_eq_iff (by decide)]
      omega
    rw [hindex, Nat.mul_comm] at hsplit
    exact ⟨by omega, hindex⟩

theorem add_mul_ceilDiv (hpos : 0 < n) (a b : Nat) : (a + n * b) ⌈/⌉ n = a ⌈/⌉ n + b := by
  rw [Nat.ceilDiv_eq_add_pred_div, Nat.ceilDiv_eq_add_pred_div, ← Nat.add_mul_div_left _ b hpos]
  congr 1
  omega

/-- The values that pick an item stand next to each other. -/
theorem mem_picking_iff (hpos : 0 < n) (hsize : n < UInt64.size) (value : UInt64) :
    value ∈ picking n i ↔ value.toNat ∈ Finset.Ico (first n i) (first n i + share n) := by
  have hfrom : first n i ≤ value.toNat ↔ i * UInt64.size ≤ value.toNat * n := by
    rw [first, ceilDiv_le_iff_le_mul hpos, Nat.mul_comm n]
  have hbelow : value.toNat < first n i + share n ↔
      value.toNat * n < i * UInt64.size + n * share n := by
    rw [first, ← add_mul_ceilDiv hpos, ← Nat.not_le, ceilDiv_le_iff_le_mul hpos, Nat.not_le,
      Nat.mul_comm n value.toNat]
  rw [picking, Finset.mem_filter, accepts_and_index_iff hpos hsize, Finset.mem_Ico, hfrom, hbelow]
  exact and_iff_right (Finset.mem_univ value)

theorem first_add_share_le (hpos : 0 < n) (hsize : n < UInt64.size) (hi : i < n) :
    first n i + share n ≤ UInt64.size := by
  obtain ⟨-, hfull⟩ := mul_share_bounds hpos hsize
  have hlast : (i + 1) * UInt64.size ≤ n * UInt64.size := Nat.mul_le_mul_right _ hi
  rw [Nat.add_mul, Nat.one_mul] at hlast
  rw [first, ← add_mul_ceilDiv hpos, ceilDiv_le_iff_le_mul hpos]
  exact Nat.le_trans (Nat.add_le_add_left (Nat.le_of_lt hfull) _) hlast

theorem card_picking (hpos : 0 < n) (hsize : n < UInt64.size) (hi : i < n) :
    (picking n i).card = share n := by
  have hend := first_add_share_le hpos hsize hi
  have hcard : (picking n i).card = (Finset.Ico (first n i) (first n i + share n)).card := by
    refine Finset.card_nbij' UInt64.toNat UInt64.ofNat ?_ ?_ ?_ ?_
    · intro value hvalue
      exact (mem_picking_iff hpos hsize value).mp hvalue
    · intro k hk
      have hlt : k < UInt64.size := Nat.lt_of_lt_of_le (Finset.mem_Ico.mp hk).2 hend
      refine (mem_picking_iff hpos hsize _).mpr ?_
      rw [UInt64.toNat_ofNat', Nat.mod_eq_of_lt hlt]
      exact hk
    · intro value _
      exact UInt64.ofNat_toNat
    · intro k hk
      have hlt : k < UInt64.size := Nat.lt_of_lt_of_le (Finset.mem_Ico.mp hk).2 hend
      exact UInt64.toNat_ofNat_of_lt' hlt
  rw [hcard, Nat.card_Ico, Nat.add_sub_cancel_left]

/-- The accepted values fall into as many parts as there are items. -/
theorem card_accepted (hpos : 0 < n) (hsize : n < UInt64.size) :
    (accepted n).card = n * share n := by
  have hindex : Set.MapsTo (index n) (accepted n) (Finset.range n) :=
    fun value _ => Finset.mem_coe.mpr (Finset.mem_range.mpr (index_lt value hpos))
  have hpart : ∀ i ∈ Finset.range n,
      ((accepted n).filter fun value => index n value = i).card = share n := by
    intro i hi
    rw [accepted, Finset.filter_filter]
    exact card_picking hpos hsize (Finset.mem_range.mp hi)
  rw [Finset.card_eq_sum_card_fiberwise hindex, Finset.sum_congr rfl hpart, Finset.sum_const,
    Finset.card_range, smul_eq_mul]

end Values

/-! ## The value that decides a pick -/

theorem valueAt_add_period (key : ChaCha.Key) (place : Nat) :
    valueAt key (place + period) = valueAt key place := by
  have hblock : (place + 8 * UInt64.size) / 8 = place / 8 + UInt64.size :=
    Nat.add_mul_div_left place UInt64.size (by decide)
  have hcounter : UInt64.ofNat (place / 8 + UInt64.size) = UInt64.ofNat (place / 8) := by
    apply UInt64.toNat_inj.mp
    simp
  have hword : (place + 8 * UInt64.size) % 8 = place % 8 := Nat.add_mul_mod_self_left place 8 _
  rw [period, valueAt, valueAt, hblock, hcounter, hword]

theorem drawBelow_of_accepts {n : Nat} (fuel count : Nat) (g : Generator) (hfuel : count < fuel)
    (hrejected : ∀ j < count, accepts n (valueAt g.key (g.drawn + j)) = false)
    (haccepted : accepts n (valueAt g.key (g.drawn + count)) = true) :
    drawBelow n fuel g =
      (index n (valueAt g.key (g.drawn + count)), ⟨g.key, g.drawn + count + 1⟩) := by
  induction count generalizing g fuel with
  | zero =>
      obtain ⟨fuel, rfl⟩ : ∃ k, fuel = k + 1 := ⟨fuel - 1, by omega⟩
      simp only [Nat.add_zero] at haccepted ⊢
      rw [drawBelow, if_pos haccepted]
  | succ count ih =>
      obtain ⟨fuel, rfl⟩ : ∃ k, fuel = k + 1 := ⟨fuel - 1, by omega⟩
      have hfirst : accepts n (valueAt g.key g.drawn) = false := hrejected 0 (Nat.succ_pos _)
      have hplace (j : Nat) : g.drawn + 1 + j = g.drawn + (j + 1) := by omega
      have hrest := ih fuel ⟨g.key, g.drawn + 1⟩ (by omega)
        (fun j hj => by rw [hplace]; exact hrejected (j + 1) (by omega))
        (by rw [hplace]; exact haccepted)
      rw [drawBelow, hfirst, if_neg Bool.false_ne_true, hrest, hplace]

/-- A keystream repeats, so the first acceptable value stands before its period is over. -/
theorem count_lt_period {n : Nat} {g : Generator} {count : Nat}
    (hrejected : ∀ j < count, accepts n (valueAt g.key (g.drawn + j)) = false)
    (haccepted : accepts n (valueAt g.key (g.drawn + count)) = true) : count < period := by
  by_contra hle
  rw [Nat.not_lt] at hle
  have hperiod : 0 < period := by decide
  have hearlier := hrejected (count - period) (by omega)
  rw [← valueAt_add_period, Nat.add_assoc, Nat.sub_add_cancel hle, haccepted] at hearlier
  cases hearlier

theorem below_of_accepts {n : Nat} {g : Generator} {count : Nat}
    (hrejected : ∀ j < count, accepts n (valueAt g.key (g.drawn + j)) = false)
    (haccepted : accepts n (valueAt g.key (g.drawn + count)) = true) :
    g.below n = (index n (valueAt g.key (g.drawn + count)), ⟨g.key, g.drawn + count + 1⟩) :=
  drawBelow_of_accepts period count g (count_lt_period hrejected haccepted) hrejected haccepted

/-! ## Equal shares -/

variable {α : Type}

/--
A pick from a list goes by the first acceptable value of the keystream, and of all 64-bit values
each item of the list has equally many for itself.
-/
theorem pickNamed?_uniform {store : Store α} {name : String} {items : Array α}
    (hlist : store.list? name = some items) (hpos : 0 < items.size)
    (hsize : items.size < 2 ^ 64) :
    let n := items.size
    (∀ value : UInt64, accepts n value = true ↔
      value.toNat * n % 2 ^ 64 ≤ ((BitVec.ofNat 64 n <<< leadingZeros n) - 1#64).toNat) ∧
    (∀ (g : Generator) (count : Nat),
      (∀ j < count, accepts n (valueAt g.key (g.drawn + j)) = false) →
      accepts n (valueAt g.key (g.drawn + count)) = true →
      ∃ hlt : (valueAt g.key (g.drawn + count)).toNat * n / 2 ^ 64 < items.size,
        g.pickNamed? store name =
          (some items[(valueAt g.key (g.drawn + count)).toNat * n / 2 ^ 64],
            ⟨g.key, g.drawn + count + 1⟩)) ∧
    (∀ i < n, (picking n i).card = 2 ^ leadingZeros n) ∧
    (∀ value ∈ accepted n, index n value < n) ∧
    2 ^ 64 ≤ 2 * (accepted n).card := by
  intro n
  refine ⟨?_, ?_, ?_, ?_, ?_⟩
  · intro value
    rw [← zone_eq hpos hsize]
    exact decide_eq_true_iff
  · intro g count hrejected haccepted
    have hbelow : g.below items.size = _ := below_of_accepts hrejected haccepted
    rcases pickNamed?_of_list? hlist g with ⟨rfl, -⟩ | ⟨hlt, -, hpick⟩
    · exact absurd hpos (Nat.lt_irrefl 0)
    · simp only [hbelow] at hlt hpick
      exact ⟨hlt, hpick⟩
  · intro i hi
    exact card_picking hpos hsize hi
  · intro value _
    exact index_lt value hpos
  · rw [card_accepted hpos hsize]
    exact (mul_share_bounds hpos hsize).1

/-- The first value of this keystream is turned down, and the second picks the last of three. -/
theorem uniform_of_three :
    let items : Array Float := #[5, 10, 15]
    let store := ((Store.initial ⟨0, 0⟩ ⟨255, 255, 255⟩).setScratch items).nameList "sizes"
    let g := ofSeed 11
    store.list? "sizes" = some items ∧ 0 < items.size ∧ items.size < 2 ^ 64 ∧
      accepts items.size (valueAt g.key 0) = false ∧
      g.pickNamed? store "sizes" = (some 15, ⟨g.key, 2⟩) ∧
      (∀ i < items.size, (picking items.size i).card = 2 ^ 62) ∧
      2 ^ 64 ≤ 2 * (accepted items.size).card := by
  intro items store g
  have hlist : store.list? "sizes" = some items := by
    rw [Store.list?_nameList, if_pos rfl]
    rfl
  have hrejected : accepts items.size (valueAt g.key 0) = false := by decide +kernel
  obtain ⟨-, hpick, hshares, -, hhalf⟩ := pickNamed?_uniform hlist (by decide) (by decide)
  obtain ⟨_, hfifteen⟩ := hpick g 1
    (fun j hj => by rw [Nat.lt_one_iff.mp hj]; exact hrejected) (by decide +kernel)
  have hplace : (valueAt g.key (g.drawn + 1)).toNat * items.size / 2 ^ 64 = 2 := by decide +kernel
  have hzeros : leadingZeros items.size = 62 := by decide +kernel
  simp only [hplace] at hfifteen
  simp only [hzeros] at hshares
  exact ⟨hlist, by decide, by decide, hrejected, hfifteen, hshares, hhalf⟩

end PenScript.Generator
