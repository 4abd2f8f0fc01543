import PenScript.Text.Utf8
import Mathlib.Tactic.Ring

/-!
# Decoding

The decoder reads back every text that was written. At a byte that is a character by itself, such as
the one that ends a line, it stands at a boundary whatever came before, so that no bad piece reaches
over it.
-/

set_option autoImplicit false

namespace PenScript.Utf8

/-! ## Reading from a state -/

/-- The characters that bytes add to those read so far. -/
def read : State → List UInt8 → List (Option Char)
  | state, [] => finish state
  | state, b :: rest => (step state b).2 ++ read (step state b).1 rest

theorem foldl_eq_read (bytes : List UInt8) (state : State) (before : Array (Option Char)) :
    let last := bytes.foldl
      (fun (state, read) b => let (next, new) := step state b; (next, read ++ new))
      (state, before)
    (last.2 ++ finish last.1).toList = before.toList ++ read state bytes := by
  induction bytes generalizing state before with
  | nil => simp [read]
  | cons b bytes ih => simp [read, ih]

theorem units_eq_read (bytes : List UInt8) : units bytes = read .boundary bytes :=
  foldl_eq_read bytes .boundary #[]

/--
The next byte must be one that continues a character, and even the smallest bytes to come make none
of the first 128 characters.
-/
def State.Proper : State → Prop
  | .boundary => True
  | .inside low high owed value =>
      0x80 ≤ low.toNat ∧ high.toNat ≤ 0xBF ∧
        0x80 ≤ (64 * value + (low.toNat - 0x80)) * 64 ^ owed

theorem proper_boundary : State.Proper .boundary :=
  trivial

theorem proper_lead (b : UInt8) : (lead b).1.Proper := by
  fun_cases lead b with
  | case1 => trivial
  | case2 => trivial
  | case3 h80 hC2 hE0 =>
      rw [UInt8.not_lt, UInt8.le_iff_toNat_le] at hC2
      refine ⟨by decide, by decide, ?_⟩
      change 0xC2 ≤ b.toNat at hC2
      change 0x80 ≤ (64 * (b.toNat - 0xC0) + 0) * 1
      omega
  | case4 h80 hC2 hE0 hF0 =>
      rw [UInt8.not_lt, UInt8.le_iff_toNat_le] at hE0
      refine ⟨?_, ?_, ?_⟩
      · split <;> decide
      · split <;> decide
      · split
        · change 0x80 ≤ (64 * (b.toNat - 0xE0) + 32) * 64
          omega
        · rename_i hne
          rw [← UInt8.toNat_inj] at hne
          change 0xE0 ≤ b.toNat at hE0
          change b.toNat ≠ 0xE0 at hne
          change 0x80 ≤ (64 * (b.toNat - 0xE0) + 0) * 64
          omega
  | case5 h80 hC2 hE0 hF0 hF5 =>
      rw [UInt8.not_lt, UInt8.le_iff_toNat_le] at hF0
      refine ⟨?_, ?_, ?_⟩
      · split <;> decide
      · split <;> decide
      · split
        · change 0x80 ≤ (64 * (b.toNat - 0xF0) + 16) * 4096
          omega
        · rename_i hne
          rw [← UInt8.toNat_inj] at hne
          change 0xF0 ≤ b.toNat at hF0
          change b.toNat ≠ 0xF0 at hne
          change 0x80 ≤ (64 * (b.toNat - 0xF0) + 0) * 4096
          omega
  | case6 => trivial

theorem proper_step {state : State} (hs : state.Proper) (b : UInt8) : (step state b).1.Proper := by
  cases state with
  | boundary => exact proper_lead b
  | inside low high owed value =>
      rw [step]
      split
      · rename_i hin
        cases owed with
        | zero => trivial
        | succ owed =>
            obtain ⟨hlow, hhigh, hleast⟩ := hs
            obtain ⟨hl, hh⟩ := hin
            rw [UInt8.le_iff_toNat_le] at hl hh
            have hmod : low.toNat - 0x80 ≤ b.toNat % 64 := by omega
            refine ⟨by decide, by decide, ?_⟩
            change 0x80 ≤ (64 * (64 * value + b.toNat % 64) + 0) * 64 ^ owed
            calc 0x80
              _ ≤ (64 * value + (low.toNat - 0x80)) * 64 ^ (owed + 1) := hleast
              _ ≤ (64 * value + b.toNat % 64) * 64 ^ (owed + 1) :=
                  Nat.mul_le_mul_right _ (by omega)
              _ = (64 * (64 * value + b.toNat % 64) + 0) * 64 ^ owed := by ring
      · exact proper_lead b

/-! ## Characters of one byte -/

theorem step_ascii {state : State} (hs : state.Proper) {b : UInt8} (hb : b < 0x80) :
    step state b = (.boundary, finish state ++ [some (Char.ofNat b.toNat)]) := by
  have hlead : lead b = (.boundary, [some (Char.ofNat b.toNat)]) := if_pos hb
  cases state with
  | boundary => exact hlead
  | inside low high owed value =>
      have hout : ¬ (low ≤ b ∧ b ≤ high) := by
        rintro ⟨hlow, -⟩
        rw [UInt8.le_iff_toNat_le] at hlow
        rw [UInt8.lt_iff_toNat_lt] at hb
        exact absurd (hs.1.trans hlow) (Nat.not_le.mpr hb)
      simp [step, hout, hlead, finish]

theorem read_append_ascii {state : State} (hs : state.Proper) (first : List UInt8) {b : UInt8}
    (hb : b < 0x80) (later : List UInt8) :
    read state (first ++ b :: later) =
      read state first ++ some (Char.ofNat b.toNat) :: read .boundary later := by
  induction first generalizing state with
  | nil => simp [read, step_ascii hs hb]
  | cons a first ih =>
      rw [List.cons_append, read, read, ih (proper_step hs a), List.append_assoc]

theorem mem_lead {b : UInt8} {c : Char} (h : some c ∈ (lead b).2) :
    b < 0x80 ∧ c = Char.ofNat b.toNat := by
  unfold lead at h
  split at h
  · rename_i hb
    exact ⟨hb, by simpa using h⟩
  · split_ifs at h <;> simp at h

/-- A character is one byte's own, or it is none of the first 128. -/
theorem mem_step {state : State} (hs : state.Proper) {b : UInt8} {c : Char}
    (h : some c ∈ (step state b).2) :
    b < 0x80 ∧ c = Char.ofNat b.toNat ∨ ∃ n, 0x80 ≤ n ∧ c = Char.ofNat n := by
  cases state with
  | boundary => exact Or.inl (mem_lead h)
  | inside low high owed value =>
      rw [step] at h
      split at h
      · rename_i hin
        cases owed with
        | zero =>
            obtain ⟨hlow, hhigh, hleast⟩ := hs
            obtain ⟨hl, hh⟩ := hin
            rw [UInt8.le_iff_toNat_le] at hl hh
            refine Or.inr ⟨64 * value + b.toNat % 64, by omega, by simpa using h⟩
        | succ owed => cases h
      · exact Or.inl (mem_lead (by simpa using h))

theorem mem_read {state : State} (hs : state.Proper) {bytes : List UInt8} {c : Char}
    (h : some c ∈ read state bytes) :
    (∃ b ∈ bytes, b < 0x80 ∧ c = Char.ofNat b.toNat) ∨ ∃ n, 0x80 ≤ n ∧ c = Char.ofNat n := by
  induction bytes generalizing state with
  | nil => cases state <;> simp [read, finish] at h
  | cons a bytes ih =>
      rw [read, List.mem_append] at h
      rcases h with h | h
      · refine (mem_step hs h).imp (fun ⟨ha, hc⟩ => ⟨a, List.mem_cons_self .., ha, hc⟩) id
      · refine (ih (proper_step hs a) h).imp ?_ id
        rintro ⟨b, hm, hb⟩
        exact ⟨b, List.mem_cons_of_mem a hm, hb⟩

theorem mem_decodeLossy {bytes : List UInt8} {c : Char} (h : c ∈ decodeLossy bytes) :
    (∃ b ∈ bytes, b < 0x80 ∧ c = Char.ofNat b.toNat) ∨ ∃ n, 0x80 ≤ n ∧ c = Char.ofNat n := by
  rw [decodeLossy, units_eq_read, List.mem_map] at h
  obtain ⟨unit, hm, hc⟩ := h
  cases unit with
  | none => exact Or.inr ⟨0xFFFD, by decide, hc.symm⟩
  | some d =>
      cases hc
      exact mem_read proper_boundary hm

/-- A number that is no character's stands for the first one. -/
theorem toNat_ofNat_cases (n : Nat) : (Char.ofNat n).toNat = n ∨ (Char.ofNat n).toNat = 0 := by
  by_cases hvalid : n.isValidChar
  · rw [Char.ofNat, dif_pos hvalid]
    exact Or.inl rfl
  · rw [Char.ofNat, dif_neg hvalid]
    exact Or.inr rfl

theorem toNat_ofNat_of_ascii {b : UInt8} (hb : b < 0x80) :
    (Char.ofNat b.toNat).toNat = b.toNat := by
  rw [UInt8.lt_iff_toNat_lt] at hb
  change b.toNat < 0x80 at hb
  have hvalid : b.toNat.isValidChar := Or.inl (by omega)
  rw [Char.ofNat, dif_pos hvalid]
  rfl

/-- A character of one byte comes from nothing but this byte; zero also from what is no character. -/
theorem not_mem_decodeLossy {bytes : List UInt8} {b : UInt8} (hzero : b ≠ 0) (hb : b < 0x80)
    (h : b ∉ bytes) : Char.ofNat b.toNat ∉ decodeLossy bytes := by
  intro hm
  have hvalue := toNat_ofNat_of_ascii hb
  rcases mem_decodeLossy hm with ⟨a, ha, hlt, hc⟩ | ⟨n, hn, hc⟩
  · rw [hc, toNat_ofNat_of_ascii hlt, UInt8.toNat_inj] at hvalue
    exact h (hvalue ▸ ha)
  · rw [UInt8.lt_iff_toNat_lt] at hb
    rw [ne_eq, ← UInt8.toNat_inj] at hzero
    change b.toNat < 0x80 at hb
    change ¬ b.toNat = 0 at hzero
    rw [hc] at hvalue
    rcases toNat_ofNat_cases n with hn' | hn' <;> omega

theorem decodeLossy_append_ascii (first : List UInt8) {b : UInt8} (hb : b < 0x80)
    (later : List UInt8) :
    decodeLossy (first ++ b :: later) =
      decodeLossy first ++ Char.ofNat b.toNat :: decodeLossy later := by
  simp [decodeLossy, units_eq_read, read_append_ascii proper_boundary first hb]

/-! ## Nothing is lost -/

/-- Every byte finishes a unit or opens a character. -/
theorem step_progress (state : State) (b : UInt8) :
    (step state b).2 ≠ [] ∨ (step state b).1 ≠ .boundary := by
  have hlead : (lead b).2 ≠ [] ∨ (lead b).1 ≠ .boundary := by
    fun_cases lead b <;> simp
  cases state with
  | boundary => exact hlead
  | inside low high owed value =>
      rw [step]
      split
      · cases owed <;> simp
      · exact Or.inl (List.cons_ne_nil _ _)

theorem read_ne_nil {state : State} {bytes : List UInt8} (h : state ≠ .boundary ∨ bytes ≠ []) :
    read state bytes ≠ [] := by
  induction bytes generalizing state with
  | nil => cases state <;> simp [read, finish] at h ⊢
  | cons b bytes ih =>
      rw [read, ne_eq, List.append_eq_nil_iff]
      rintro ⟨hnew, hrest⟩
      rcases step_progress state b with hne | hne
      · exact hne hnew
      · exact ih (Or.inl hne) hrest

theorem decodeLossy_eq_nil_iff {bytes : List UInt8} : decodeLossy bytes = [] ↔ bytes = [] := by
  rw [decodeLossy, units_eq_read, List.map_eq_nil_iff]
  constructor
  · intro h
    by_contra hne
    exact read_ne_nil (Or.inr hne) h
  · rintro rfl
    rfl

/-! ## Reading back -/

section

variable {a b c d : UInt8} (rest : List UInt8)

theorem read_one (ha : a.toNat < 0x80) :
    read .boundary (a :: rest) = some (Char.ofNat a.toNat) :: read .boundary rest := by
  have hascii : a < 0x80 := ha
  simp only [read, step, lead, if_pos hascii]
  rfl

theorem read_inside (low high : UInt8) (hlow : low.toNat ≤ b.toNat) (hhigh : b.toNat ≤ high.toNat)
    (owed value : Nat) :
    read (.inside low high (owed + 1) value) (b :: rest) =
      read (.inside 0x80 0xBF owed (64 * value + b.toNat % 64)) rest := by
  rw [read, step, if_pos ⟨hlow, hhigh⟩]
  rfl

theorem read_inside_last (low high : UInt8) (hlow : low.toNat ≤ b.toNat)
    (hhigh : b.toNat ≤ high.toNat) (value : Nat) :
    read (.inside low high 0 value) (b :: rest) =
      some (Char.ofNat (64 * value + b.toNat % 64)) :: read .boundary rest := by
  rw [read, step, if_pos ⟨hlow, hhigh⟩]
  rfl

/-- A bound below the byte after `a`, where `a = x` calls for a bound of its own. -/
theorem toNat_ite_le {x low' low : UInt8} (h : a.toNat = x.toNat → low'.toNat ≤ b.toNat)
    (hlow : low.toNat ≤ b.toNat) : (if a = x then low' else low).toNat ≤ b.toNat := by
  split
  · rename_i heq
    exact h (congrArg UInt8.toNat heq)
  · exact hlow

theorem le_toNat_ite {x high' high : UInt8} (h : a.toNat = x.toNat → b.toNat ≤ high'.toNat)
    (hhigh : b.toNat ≤ high.toNat) : b.toNat ≤ (if a = x then high' else high).toNat := by
  split
  · rename_i heq
    exact h (congrArg UInt8.toNat heq)
  · exact hhigh

theorem not_lt_of_toNat_le {low : UInt8} (h : low.toNat ≤ a.toNat) : ¬ a < low :=
  UInt8.not_lt.mpr h

theorem read_two (ha : 0xC2 ≤ a.toNat) (ha' : a.toNat < 0xE0) (hb : 0x80 ≤ b.toNat)
    (hb' : b.toNat ≤ 0xBF) :
    read .boundary (a :: b :: rest) =
      some (Char.ofNat (64 * (a.toNat - 0xC0) + b.toNat % 64)) :: read .boundary rest := by
  have h80 : ¬ a < 0x80 := not_lt_of_toNat_le (Nat.le_trans (by decide) ha)
  have hC2 : ¬ a < 0xC2 := not_lt_of_toNat_le ha
  have hE0 : a < 0xE0 := ha'
  simp only [read, step, lead, if_neg h80, if_neg hC2, if_pos hE0]
  exact read_inside_last rest 0x80 0xBF hb hb' _

theorem read_three (ha : 0xE0 ≤ a.toNat) (ha' : a.toNat < 0xF0) (hb : 0x80 ≤ b.toNat)
    (hb' : b.toNat ≤ 0xBF) (hlow : a.toNat = 0xE0 → 0xA0 ≤ b.toNat)
    (hhigh : a.toNat = 0xED → b.toNat ≤ 0x9F) (hc : 0x80 ≤ c.toNat) (hc' : c.toNat ≤ 0xBF) :
    read .boundary (a :: b :: c :: rest) =
      some (Char.ofNat (64 * (64 * (a.toNat - 0xE0) + b.toNat % 64) + c.toNat % 64)) ::
        read .boundary rest := by
  have h80 : ¬ a < 0x80 := not_lt_of_toNat_le (Nat.le_trans (by decide) ha)
  have hC2 : ¬ a < 0xC2 := not_lt_of_toNat_le (Nat.le_trans (by decide) ha)
  have hE0 : ¬ a < 0xE0 := not_lt_of_toNat_le ha
  have hF0 : a < 0xF0 := ha'
  have hl : (if a = 0xE0 then 0xA0 else 0x80 : UInt8).toNat ≤ b.toNat := toNat_ite_le hlow hb
  have hh : b.toNat ≤ (if a = 0xED then 0x9F else 0xBF : UInt8).toNat := le_toNat_ite hhigh hb'
  simp only [read, step, lead, if_neg h80, if_neg hC2, if_neg hE0, if_pos hF0]
  exact (read_inside _ _ _ hl hh _ _).trans (read_inside_last _ 0x80 0xBF hc hc' _)

theorem read_four (ha : 0xF0 ≤ a.toNat) (ha' : a.toNat < 0xF5) (hb : 0x80 ≤ b.toNat)
    (hb' : b.toNat ≤ 0xBF) (hlow : a.toNat = 0xF0 → 0x90 ≤ b.toNat)
    (hhigh : a.toNat = 0xF4 → b.toNat ≤ 0x8F) (hc : 0x80 ≤ c.toNat) (hc' : c.toNat ≤ 0xBF)
    (hd : 0x80 ≤ d.toNat) (hd' : d.toNat ≤ 0xBF) :
    read .boundary (a :: b :: c :: d :: rest) =
      some (Char.ofNat (64 * (64 * (64 * (a.toNat - 0xF0) + b.toNat % 64) + c.toNat % 64) +
        d.toNat % 64)) :: read .boundary rest := by
  have h80 : ¬ a < 0x80 := not_lt_of_toNat_le (Nat.le_trans (by decide) ha)
  have hC2 : ¬ a < 0xC2 := not_lt_of_toNat_le (Nat.le_trans (by decide) ha)
  have hE0 : ¬ a < 0xE0 := not_lt_of_toNat_le (Nat.le_trans (by decide) ha)
  have hF0 : ¬ a < 0xF0 := not_lt_of_toNat_le ha
  have hF5 : a < 0xF5 := ha'
  have hl : (if a = 0xF0 then 0x90 else 0x80 : UInt8).toNat ≤ b.toNat := toNat_ite_le hlow hb
  have hh : b.toNat ≤ (if a = 0xF4 then 0x8F else 0xBF : UInt8).toNat := le_toNat_ite hhigh hb'
  simp only [read, step, lead, if_neg h80, if_neg hC2, if_neg hE0, if_neg hF0, if_pos hF5]
  exact (read_inside _ _ _ hl hh _ _).trans
    ((read_inside _ 0x80 0xBF hc hc' _ _).trans (read_inside_last _ 0x80 0xBF hd hd' _))

end

-- The size of a byte is written out, so that `omega` sees the bound.
theorem toNat_ofNat_of_lt {n : Nat} (h : n < 256) : (UInt8.ofNat n).toNat = n :=
  UInt8.toNat_ofNat_of_lt' h

theorem read_encodeChar (c : Char) (rest : List UInt8) :
    read .boundary (String.utf8EncodeChar c ++ rest) = some c :: read .boundary rest := by
  have hvalid : c.toNat < 0xD800 ∨ 0xDFFF < c.toNat ∧ c.toNat < 0x110000 := c.valid
  have hchar := Char.ofNat_toNat c
  unfold String.utf8EncodeChar
  simp only [Char.toNat_val]
  generalize c.toNat = v at *
  subst hchar
  have hlast : (UInt8.ofNat (v % 64 + 128)).toNat = v % 64 + 128 := toNat_ofNat_of_lt (by omega)
  have hmiddle : (UInt8.ofNat (v / 64 % 64 + 128)).toNat = v / 64 % 64 + 128 :=
    toNat_ofNat_of_lt (by omega)
  split
  · have hone : (UInt8.ofNat v).toNat = v := toNat_ofNat_of_lt (by omega)
    rw [List.cons_append, List.nil_append, read_one rest (by omega), hone]
  split
  · have hfirst : (UInt8.ofNat (v / 64 % 32 + 192)).toNat = v / 64 % 32 + 192 :=
      toNat_ofNat_of_lt (by omega)
    simp only [List.cons_append, List.nil_append]
    rw [read_two rest (by omega) (by omega) (by omega) (by omega), hfirst, hlast]
    congr 3
    omega
  split
  · have hfirst : (UInt8.ofNat (v / 4096 % 16 + 224)).toNat = v / 4096 % 16 + 224 :=
      toNat_ofNat_of_lt (by omega)
    simp only [List.cons_append, List.nil_append]
    rw [read_three rest (by omega) (by omega) (by omega) (by omega) (by omega) (by omega)
      (by omega) (by omega), hfirst, hmiddle, hlast]
    congr 3
    omega
  · have hfirst : (UInt8.ofNat (v / 262144 % 8 + 240)).toNat = v / 262144 % 8 + 240 :=
      toNat_ofNat_of_lt (by omega)
    have hsecond : (UInt8.ofNat (v / 4096 % 64 + 128)).toNat = v / 4096 % 64 + 128 :=
      toNat_ofNat_of_lt (by omega)
    simp only [List.cons_append, List.nil_append]
    rw [read_four rest (by omega) (by omega) (by omega) (by omega) (by omega) (by omega)
      (by omega) (by omega) (by omega) (by omega), hfirst, hsecond, hmiddle, hlast]
    congr 3
    omega

theorem units_encode (text : List Char) : units (encode text) = text.map some := by
  rw [units_eq_read]
  induction text with
  | nil => rfl
  | cons c text ih =>
      rw [encode] at ih ⊢
      rw [List.flatMap_cons, read_encodeChar, ih, List.map_cons]

/-- A text is read back from its bytes. -/
theorem decodeLossy_encode (text : List Char) : decodeLossy (encode text) = text := by
  simp [decodeLossy, units_encode, Function.comp_def]

end PenScript.Utf8
