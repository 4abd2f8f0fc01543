import Mathlib.Data.List.TakeWhile
import PenScript.Proofs.Literals

/-!
# The grammar of numbers

What the text of a number is, told without reading it: a sign or none, digits with a point or none,
an exponent or none. What is taken from the front of some bytes as a number is such a text, and every
such text is taken in full where nothing behind it can carry it on.
-/

set_option autoImplicit false

namespace PenScript.Literal

/-! ## Parts of a number -/

/-- A sign or none. The flag tells whether it is a minus. -/
inductive IsSign : List UInt8 → Bool → Prop where
  | none : IsSign [] false
  | plus : IsSign [0x2B] false
  | minus : IsSign [0x2D] true

def IsDigits (text : List UInt8) : Prop :=
  ∀ b ∈ text, isDigit b

/-- One or more digits, the whole ones and those of a fraction behind a point. -/
inductive IsMantissa : List UInt8 → List UInt8 → List UInt8 → Prop where
  | whole {whole : List UInt8} (hwhole : IsDigits whole) (hne : whole ≠ []) :
      IsMantissa whole whole []
  | point {whole fraction : List UInt8} (hwhole : IsDigits whole) (hfraction : IsDigits fraction)
      (hne : whole ++ fraction ≠ []) : IsMantissa (whole ++ 0x2E :: fraction) whole fraction

/-- An exponent and its value, or none, which is worth zero. -/
inductive IsExponent : List UInt8 → Int → Prop where
  | none : IsExponent [] 0
  | mark {mark : UInt8} {sign digits : List UInt8} {negative : Bool}
      (hmark : mark = 0x65 ∨ mark = 0x45) (hsign : IsSign sign negative)
      (hdigits : IsDigits digits) (hne : digits ≠ []) :
      IsExponent (mark :: (sign ++ digits)) (signed negative (exponentValue digits))

/-- The text of a decimal number, and what it is worth. -/
inductive IsDecimal : List UInt8 → Literal → Prop where
  | parts {sign mantissa whole fraction exponent : List UInt8} {negative : Bool} {value : Int}
      (hsign : IsSign sign negative) (hmantissa : IsMantissa mantissa whole fraction)
      (hexponent : IsExponent exponent value) :
      IsDecimal (sign ++ (mantissa ++ exponent))
        (.decimal negative (digitsValue (whole ++ fraction)) (value - fraction.length))

/-- The text of an integer that 32 bits hold. -/
inductive IsInteger : List UInt8 → Int32 → Prop where
  | parts {sign digits : List UInt8} {negative : Bool} {value : Int32}
      (hsign : IsSign sign negative) (hdigits : IsDigits digits) (hne : digits ≠ [])
      (hvalue : value.toInt = signed negative (digitsValue digits)) :
      IsInteger (sign ++ digits) value

variable {bytes text rest whole fraction : List UInt8}

/-! ## Taking the parts -/

theorem exists_takeSign (bytes : List UInt8) :
    ∃ sign, bytes = sign ++ (takeSign bytes).2 ∧ IsSign sign (takeSign bytes).1 := by
  fun_cases takeSign bytes with
  | case1 => exact ⟨[], rfl, .none⟩
  | case2 rest => exact ⟨[0x2D], rfl, .minus⟩
  | case3 rest => exact ⟨[0x2B], rfl, .plus⟩
  | case4 b rest => exact ⟨[], rfl, .none⟩

theorem IsSign.takeSign_append {sign : List UInt8} {negative : Bool} (h : IsSign sign negative)
    (hrest : ∀ b ∈ rest.head?, b ≠ 0x2D ∧ b ≠ 0x2B) :
    takeSign (sign ++ rest) = (negative, rest) := by
  cases h with
  | none =>
      cases rest with
      | nil => rfl
      | cons b rest =>
          obtain ⟨hminus, hplus⟩ := hrest b rfl
          simp [takeSign, hminus, hplus]
  | plus => rfl
  | minus => rfl

theorem isDigits_takeWhile (bytes : List UInt8) : IsDigits (bytes.takeWhile isDigit) :=
  List.all_eq_true.mp List.all_takeWhile

section

variable (h : IsDigits text) (hrest : ∀ b ∈ rest.head?, isDigit b = false)

include h hrest

theorem IsDigits.takeWhile_append : (text ++ rest).takeWhile isDigit = text := by
  rw [takeWhile_append_of_stop hrest]
  exact List.takeWhile_eq_self_iff.mpr h

theorem IsDigits.dropWhile_append : (text ++ rest).dropWhile isDigit = rest := by
  rw [dropWhile_append_of_stop hrest, List.dropWhile_eq_nil_iff.mpr h, List.nil_append]

end

theorem exists_takeMantissa (h : (takeMantissa bytes).1 ++ (takeMantissa bytes).2.1 ≠ []) :
    ∃ text, bytes = text ++ (takeMantissa bytes).2.2 ∧
      IsMantissa text (takeMantissa bytes).1 (takeMantissa bytes).2.1 := by
  have hbytes := List.takeWhile_append_dropWhile (p := isDigit) (l := bytes)
  have hwhole := isDigits_takeWhile bytes
  unfold takeMantissa at h ⊢
  cases hrest : bytes.dropWhile isDigit with
  | nil =>
      simp only [hrest, List.append_nil] at hbytes h ⊢
      exact ⟨_, hbytes.symm, .whole hwhole h⟩
  | cons b rest =>
      by_cases hpoint : b = 0x2E
      · subst hpoint
        simp only [hrest, if_pos] at hbytes h ⊢
        refine ⟨bytes.takeWhile isDigit ++ 0x2E :: rest.takeWhile isDigit, ?_,
          .point hwhole (isDigits_takeWhile rest) h⟩
        simpa using hbytes.symm
      · simp only [hrest, if_neg hpoint, List.append_nil] at hbytes h ⊢
        exact ⟨_, hbytes.symm, .whole hwhole h⟩

theorem IsMantissa.takeMantissa_append (h : IsMantissa text whole fraction)
    (hrest : ∀ b ∈ rest.head?, isDigit b = false ∧ b ≠ 0x2E) :
    takeMantissa (text ++ rest) = (whole, fraction, rest) := by
  have hdigit : ∀ b ∈ rest.head?, isDigit b = false := fun b hb => (hrest b hb).1
  cases h with
  | whole hwhole hne =>
      unfold takeMantissa
      rw [hwhole.takeWhile_append hdigit, hwhole.dropWhile_append hdigit]
      cases rest with
      | nil => rfl
      | cons b rest => simp [(hrest b rfl).2]
  | point hwhole hfraction hne =>
      have hstop : ∀ b ∈ (0x2E :: (fraction ++ rest)).head?, isDigit b = false := by
        intro b hb
        cases hb
        decide
      unfold takeMantissa
      rw [List.append_assoc, List.cons_append, hwhole.takeWhile_append hstop,
        hwhole.dropWhile_append hstop]
      simp [hfraction.takeWhile_append hdigit, hfraction.dropWhile_append hdigit]

theorem exists_takeExponent (bytes : List UInt8) :
    ∃ text, bytes = text ++ (takeExponent bytes).2 ∧ IsExponent text (takeExponent bytes).1 := by
  fun_cases takeExponent bytes with
  | case1 => exact ⟨[], rfl, .none⟩
  | case2 b rest hmark negative body hsign digits hempty => exact ⟨[], rfl, .none⟩
  | case3 b rest hmark negative body hsign digits hempty =>
      obtain ⟨sign, hrest, hissign⟩ := exists_takeSign rest
      rw [hsign] at hrest hissign
      have hne : digits ≠ [] := by simpa using hempty
      refine ⟨b :: (sign ++ digits), ?_, .mark hmark hissign (isDigits_takeWhile body) hne⟩
      rw [hrest, List.cons_append, List.append_assoc]
      exact congrArg (fun tail => b :: (sign ++ tail)) List.takeWhile_append_dropWhile.symm
  | case4 b rest hmark => exact ⟨[], rfl, .none⟩

/-- Digits begin with no sign. -/
theorem IsDigits.head?_ne (h : IsDigits text) : ∀ b ∈ text.head?, b ≠ 0x2D ∧ b ≠ 0x2B := by
  intro b hb
  have hdigit := h b (List.mem_of_mem_head? hb)
  constructor
  · rintro rfl
    exact absurd hdigit (by decide)
  · rintro rfl
    exact absurd hdigit (by decide)

theorem IsExponent.takeExponent_eq {value : Int} (h : IsExponent text value) :
    takeExponent text = (value, []) := by
  cases h with
  | none => rfl
  | @mark mark sign digits negative hmark hsign hdigits hne =>
      have htake := hsign.takeSign_append hdigits.head?_ne
      have hall := List.takeWhile_eq_self_iff.mpr hdigits
      have hsome : ((takeSign (sign ++ digits)).2.takeWhile isDigit).isEmpty = false := by
        simpa [htake, hall] using hne
      rw [takeExponent_mark hmark hsome, htake]
      simp only [hall, List.dropWhile_eq_nil_iff.mpr hdigits]

/-! ## Taking a number -/

theorem IsMantissa.head?_ne (h : IsMantissa text whole fraction) (rest : List UInt8) :
    ∀ b ∈ (text ++ rest).head?, b ≠ 0x2D ∧ b ≠ 0x2B := by
  cases h with
  | whole hwhole hne =>
      obtain ⟨d, whole, rfl⟩ := List.exists_cons_of_ne_nil hne
      exact hwhole.head?_ne
  | point hwhole hfraction hne =>
      cases whole with
      | nil =>
          intro b hb
          cases hb
          decide
      | cons d whole =>
          intro b hb
          cases hb
          exact hwhole.head?_ne d rfl

theorem IsExponent.head?_ne {value : Int} (h : IsExponent text value) :
    ∀ b ∈ text.head?, isDigit b = false ∧ b ≠ 0x2E := by
  intro b hb
  cases h with
  | none => cases hb
  | mark hmark hsign hdigits hne =>
      cases hb
      rcases hmark with rfl | rfl <;> decide

theorem exists_of_takeNumber? {literal : Literal} (h : takeNumber? bytes = some (literal, rest)) :
    ∃ text, bytes = text ++ rest ∧ IsDecimal text literal := by
  simp only [takeNumber?] at h
  split at h
  · cases h
  · rename_i hdigits
    simp only [Option.some.injEq, Prod.mk.injEq] at h
    obtain ⟨rfl, rfl⟩ := h
    obtain ⟨sign, hbytes, hsign⟩ := exists_takeSign bytes
    have hne : (takeMantissa (takeSign bytes).2).1 ++ (takeMantissa (takeSign bytes).2).2.1 ≠ [] := by
      simpa using hdigits
    obtain ⟨mantissa, hbody, hmantissa⟩ := exists_takeMantissa hne
    obtain ⟨exponent, htail, hexponent⟩ :=
      exists_takeExponent (takeMantissa (takeSign bytes).2).2.2
    refine ⟨sign ++ (mantissa ++ exponent), ?_, .parts hsign hmantissa hexponent⟩
    rw [List.append_assoc, List.append_assoc, ← htail, ← hbody]
    exact hbytes

theorem IsDecimal.takeNumber?_eq {literal : Literal} (h : IsDecimal text literal) :
    takeNumber? text = some (literal, []) := by
  cases h with
  | parts hsign hmantissa hexponent =>
      simp only [takeNumber?, hsign.takeSign_append (hmantissa.head?_ne _),
        hmantissa.takeMantissa_append hexponent.head?_ne, hexponent.takeExponent_eq]
      rw [if_neg]
      cases hmantissa with
      | whole hwhole hne => simpa using hne
      | point hwhole hfraction hne => simpa using hne

/-- The whole text of a number is worth what the number is. -/
theorem IsDecimal.ofBytes?_eq {literal : Literal} (h : IsDecimal text literal) :
    ofBytes? text = some literal := by
  rw [ofBytes?, h.takeNumber?_eq]

theorem IsDecimal.isNumberByte {literal : Literal} (h : IsDecimal text literal) :
    ∀ b ∈ text, isNumberByte b :=
  (past_of_takeNumber? h.takeNumber?_eq).forall_mem

theorem IsDecimal.ne_nil {literal : Literal} (h : IsDecimal text literal) : text ≠ [] := by
  rintro rfl
  cases h.takeNumber?_eq

/-! ## Taking an integer -/

theorem isInt32_toInt (value : Int32) : isInt32 value.toInt := by
  simp only [isInt32, Bool.and_eq_true, decide_eq_true_eq]
  exact ⟨value.minValue_le_toInt, value.toInt_le⟩

theorem toInt_ofInt {n : Int} (h : isInt32 n) : (Int32.ofInt n).toInt = n := by
  simp only [isInt32, Bool.and_eq_true, decide_eq_true_eq] at h
  exact Int32.toInt_ofInt_of_le h.1 (Int.lt_of_le_of_lt h.2 (by decide))

theorem exists_of_takeInteger? {value : Int32} (h : takeInteger? bytes = some (value, rest)) :
    ∃ text, bytes = text ++ rest ∧ IsInteger text value := by
  simp only [takeInteger?] at h
  split at h
  · cases h
  · rename_i hfits
    rw [Bool.or_eq_true, not_or, List.isEmpty_iff, Bool.not_eq_true', Bool.not_eq_false] at hfits
    obtain ⟨hne, hint⟩ := hfits
    simp only [Option.some.injEq, Prod.mk.injEq] at h
    obtain ⟨rfl, rfl⟩ := h
    obtain ⟨sign, hbytes, hsign⟩ := exists_takeSign bytes
    refine ⟨_, ?_, .parts hsign (isDigits_takeWhile (takeSign bytes).2) hne (toInt_ofInt hint)⟩
    rw [List.append_assoc, List.takeWhile_append_dropWhile]
    exact hbytes

theorem IsInteger.takeInteger?_append {value : Int32} (h : IsInteger text value)
    (hrest : ∀ b ∈ rest.head?, isDigit b = false) :
    takeInteger? (text ++ rest) = some (value, rest) := by
  cases h with
  | @parts sign digits negative value hsign hdigits hne hvalue =>
      have hhead : ∀ b ∈ (digits ++ rest).head?, b ≠ 0x2D ∧ b ≠ 0x2B := by
        obtain ⟨d, digits, rfl⟩ := List.exists_cons_of_ne_nil hne
        exact hdigits.head?_ne
      have hfits : (digits.isEmpty || !isInt32 (signed negative (digitsValue digits))) = false := by
        rw [← hvalue, isInt32_toInt]
        simpa using hne
      have hofInt : Int32.ofInt (signed negative (digitsValue digits)) = value := by
        rw [← hvalue, Int32.ofInt_toInt]
      simp only [takeInteger?, List.append_assoc, hsign.takeSign_append hhead,
        hdigits.takeWhile_append hrest, hdigits.dropWhile_append hrest, hfits, hofInt]
      rfl

theorem IsInteger.ne_nil {value : Int32} (h : IsInteger text value) : text ≠ [] := by
  cases h with
  | parts hsign hdigits hne hvalue => exact List.append_ne_nil_of_right_ne_nil _ hne

theorem IsInteger.isNumberByte {value : Int32} (h : IsInteger text value) :
    ∀ b ∈ text, isNumberByte b := by
  have hstop : ∀ b ∈ ([] : List UInt8).head?, isDigit b = false := nofun
  have htake := h.takeInteger?_append hstop
  rw [List.append_nil] at htake
  exact (past_of_takeInteger? htake).forall_mem

end PenScript.Literal
