import PenScript.Number.Literal

/-!
# Numbers at the front

A number is taken from a few bytes only, all of them ASCII. What follows it has no part in it,
unless that could carry the number on.
-/

set_option autoImplicit false

namespace PenScript

/-! ## Past some bytes -/

/-- The rest is what is left behind bytes that all satisfy `p`. -/
def Past (p : UInt8 → Bool) (bytes rest : List UInt8) : Prop :=
  ∃ text, bytes = text ++ rest ∧ ∀ b ∈ text, p b

namespace Past

variable {p q : UInt8 → Bool} {bytes middle rest : List UInt8}

theorem refl (p : UInt8 → Bool) (bytes : List UInt8) : Past p bytes bytes :=
  ⟨[], rfl, by simp⟩

theorem cons {b : UInt8} (hb : p b) (rest : List UInt8) : Past p (b :: rest) rest :=
  ⟨[b], rfl, by simpa using hb⟩

theorem trans (h : Past p bytes middle) (h' : Past p middle rest) : Past p bytes rest := by
  obtain ⟨first, rfl, hfirst⟩ := h
  obtain ⟨later, rfl, hlater⟩ := h'
  refine ⟨first ++ later, (List.append_assoc ..).symm, ?_⟩
  intro b hb
  exact (List.mem_append.mp hb).elim (hfirst b) (hlater b)

theorem mono (hpq : ∀ b, p b → q b) (h : Past p bytes rest) : Past q bytes rest := by
  obtain ⟨text, rfl, htext⟩ := h
  exact ⟨text, rfl, fun b hb => hpq b (htext b hb)⟩

theorem dropWhile (p : UInt8 → Bool) (bytes : List UInt8) :
    Past p bytes (bytes.dropWhile p) :=
  ⟨bytes.takeWhile p, List.takeWhile_append_dropWhile.symm, List.all_eq_true.mp List.all_takeWhile⟩

theorem forall_mem (h : Past p bytes []) : ∀ b ∈ bytes, p b := by
  obtain ⟨text, rfl, htext⟩ := h
  rwa [List.append_nil]

end Past

namespace Literal

/-- A digit, a sign, a point, or the mark of an exponent. -/
def isNumberByte (b : UInt8) : Bool :=
  isDigit b || b == 0x2B || b == 0x2D || b == 0x2E || b == 0x45 || b == 0x65

theorem isNumberByte_of_isDigit {b : UInt8} (h : isDigit b) : isNumberByte b := by
  simp [isNumberByte, h]

theorem ascii_of_isNumberByte {b : UInt8} (h : isNumberByte b) : b < 0x80 := by
  simp only [isNumberByte, isDigit, Bool.or_eq_true, Bool.and_eq_true, decide_eq_true_eq,
    beq_iff_eq] at h
  rcases h with ((((h | rfl) | rfl) | rfl) | rfl) | rfl
  · exact UInt8.lt_of_le_of_lt h.2 (by decide)
  all_goals decide

theorem past_takeSign (bytes : List UInt8) : Past isNumberByte bytes (takeSign bytes).2 := by
  fun_cases takeSign bytes with
  | case1 => exact .refl _ []
  | case2 rest => exact .cons (by decide) rest
  | case3 rest => exact .cons (by decide) rest
  | case4 b rest => exact .refl _ (b :: rest)

theorem past_digits (bytes : List UInt8) : Past isNumberByte bytes (bytes.dropWhile isDigit) :=
  (Past.dropWhile isDigit bytes).mono fun _ => isNumberByte_of_isDigit

theorem past_takeMantissa (bytes : List UInt8) :
    Past isNumberByte bytes (takeMantissa bytes).2.2 := by
  have hwhole := past_digits bytes
  unfold takeMantissa
  cases hrest : bytes.dropWhile isDigit with
  | nil => rwa [hrest] at hwhole
  | cons b rest =>
      rw [hrest] at hwhole
      by_cases hpoint : b = 0x2E
      · subst hpoint
        exact hwhole.trans ((Past.cons (by decide) rest).trans (past_digits rest))
      · simpa [hpoint] using hwhole

theorem past_takeExponent (bytes : List UInt8) :
    Past isNumberByte bytes (takeExponent bytes).2 := by
  fun_cases takeExponent bytes with
  | case1 => exact .refl _ []
  | case2 b rest hmark negative body hsign digits hempty => exact .refl _ (b :: rest)
  | case3 b rest hmark negative body hsign digits hempty =>
      have hmark : isNumberByte b := by rcases hmark with rfl | rfl <;> decide
      have hbody := past_takeSign rest
      rw [hsign] at hbody
      exact (Past.cons hmark rest).trans (hbody.trans (past_digits body))
  | case4 b rest hmark => exact .refl _ (b :: rest)

/-- What a number takes are bytes of numbers. -/
theorem past_of_takeNumber? {bytes rest : List UInt8} {literal : Literal}
    (h : takeNumber? bytes = some (literal, rest)) : Past isNumberByte bytes rest := by
  simp only [takeNumber?] at h
  split at h
  · cases h
  · simp only [Option.some.injEq, Prod.mk.injEq] at h
    obtain ⟨-, rfl⟩ := h
    exact (past_takeSign bytes).trans ((past_takeMantissa _).trans (past_takeExponent _))

/-- So it is for the sign and the digits of an integer, whether or not 32 bits hold it. -/
theorem past_signed_digits (bytes : List UInt8) :
    Past isNumberByte bytes ((takeSign bytes).2.dropWhile isDigit) :=
  (past_takeSign bytes).trans (past_digits _)

theorem past_of_takeInteger? {bytes rest : List UInt8} {value : Int32}
    (h : takeInteger? bytes = some (value, rest)) : Past isNumberByte bytes rest := by
  simp only [takeInteger?] at h
  split at h
  · cases h
  · simp only [Option.some.injEq, Prod.mk.injEq] at h
    obtain ⟨-, rfl⟩ := h
    exact past_signed_digits bytes

/-! ## What cannot carry a number on -/

/-- The bytes begin with no digit, no point and no mark of an exponent. -/
def Stops (bytes : List UInt8) : Prop :=
  ∀ b ∈ bytes.head?, isDigit b = false ∧ b ≠ 0x2E ∧ b ≠ 0x65 ∧ b ≠ 0x45

section

variable {β : Type} {p : β → Bool} {later : List β} (h : ∀ b ∈ later.head?, p b = false)

include h

theorem takeWhile_append_of_stop (first : List β) :
    (first ++ later).takeWhile p = first.takeWhile p := by
  induction first with
  | nil =>
      cases later with
      | nil => rfl
      | cons b later => exact List.takeWhile_cons_of_neg (by simp [h b rfl])
  | cons b first ih => simp only [List.cons_append, List.takeWhile_cons, ih]

theorem dropWhile_append_of_stop (first : List β) :
    (first ++ later).dropWhile p = first.dropWhile p ++ later := by
  induction first with
  | nil =>
      cases later with
      | nil => rfl
      | cons b later => exact List.dropWhile_cons_of_neg (by simp [h b rfl])
  | cons b first ih =>
      simp only [List.cons_append, List.dropWhile_cons, ih]
      split <;> rfl

end

theorem takeSign_append {first : List UInt8} (hne : first ≠ []) (later : List UInt8) :
    takeSign (first ++ later) = ((takeSign first).1, (takeSign first).2 ++ later) := by
  obtain ⟨b, rest, rfl⟩ := List.exists_cons_of_ne_nil hne
  simp only [List.cons_append, takeSign]
  split
  · rfl
  · split <;> rfl

theorem takeMantissa_append {later : List UInt8} (h : Stops later) (first : List UInt8) :
    takeMantissa (first ++ later) =
      ((takeMantissa first).1, (takeMantissa first).2.1, (takeMantissa first).2.2 ++ later) := by
  have hdigit : ∀ b ∈ later.head?, isDigit b = false := fun b hb => (h b hb).1
  simp only [takeMantissa, takeWhile_append_of_stop hdigit, dropWhile_append_of_stop hdigit]
  cases first.dropWhile isDigit with
  | nil =>
      cases later with
      | nil => rfl
      | cons b later => simp [(h b rfl).2.1]
  | cons b rest =>
      simp only [List.cons_append]
      split <;> simp [takeWhile_append_of_stop hdigit, dropWhile_append_of_stop hdigit]

theorem takeExponent_mark {b : UInt8} {rest : List UInt8} (hmark : b = 0x65 ∨ b = 0x45)
    (hdigits : ((takeSign rest).2.takeWhile isDigit).isEmpty = false) :
    takeExponent (b :: rest) =
      (signed (takeSign rest).1 (exponentValue ((takeSign rest).2.takeWhile isDigit)),
        (takeSign rest).2.dropWhile isDigit) := by
  simp [takeExponent, hmark, hdigits]

/-- A mark that is taken has digits behind it, and ends with the last of them. -/
theorem takeExponent_append {later : List UInt8} (h : Stops later) {first : List UInt8}
    (hall : (takeExponent first).2 = []) :
    takeExponent (first ++ later) = ((takeExponent first).1, later) := by
  have hdigit : ∀ b ∈ later.head?, isDigit b = false := fun b hb => (h b hb).1
  cases first with
  | nil =>
      cases later with
      | nil => rfl
      | cons b later => simp [takeExponent, (h b rfl).2.2]
  | cons b rest =>
      by_cases hmark : b = 0x65 ∨ b = 0x45
      · cases hdigits : ((takeSign rest).2.takeWhile isDigit).isEmpty with
        | true => simp [takeExponent, hmark, hdigits] at hall
        | false =>
            have hne : rest ≠ [] := by
              rintro rfl
              cases hdigits
            have htake : (takeSign (rest ++ later)).2.takeWhile isDigit =
                (takeSign rest).2.takeWhile isDigit := by
              rw [takeSign_append hne, takeWhile_append_of_stop hdigit]
            have hrest : (takeSign rest).2.dropWhile isDigit = [] := by
              rwa [takeExponent_mark hmark hdigits] at hall
            rw [List.cons_append, takeExponent_mark hmark (htake ▸ hdigits),
              takeExponent_mark hmark hdigits, htake, takeSign_append hne,
              dropWhile_append_of_stop hdigit, hrest, List.nil_append]
      · simp [takeExponent, hmark] at hall

/-- A number taken in full is taken just so in front of anything that does not carry it on. -/
theorem takeNumber?_append {later : List UInt8} (h : Stops later) {text : List UInt8}
    {literal : Literal} (hall : takeNumber? text = some (literal, [])) :
    takeNumber? (text ++ later) = some (literal, later) := by
  have hne : text ≠ [] := by
    rintro rfl
    cases hall
  unfold takeNumber? at hall ⊢
  simp only [takeSign_append hne, takeMantissa_append h] at hall ⊢
  split at hall
  · cases hall
  · rename_i hdigits
    simp only [Option.some.injEq, Prod.mk.injEq] at hall
    obtain ⟨rfl, hrest⟩ := hall
    rw [if_neg hdigits, takeExponent_append h hrest]

end Literal
end PenScript
