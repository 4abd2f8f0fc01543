import PenScript.Proofs.Boundaries
import PenScript.Proofs.Descriptions

/-!
# Text behind a line

A scan reads the same wherever the line begins in a longer text. What stands behind the line has no
part in it either, as long as the pattern ends with a character: every field is then read before the
line is at its end. There is one exception, since a number is taken together with its exponent. If
nothing of the line is left but a mark of the exponent, with a sign or none, then text behind it may
bring the digits.
-/

set_option autoImplicit false

namespace PenScript

/-! ## Numbers that are not at the end -/

namespace Literal

/-- What can begin an exponent and has no digits yet. -/
def openings : List (List Char) :=
  [['e'], ['E'], ['e', '+'], ['e', '-'], ['E', '+'], ['E', '-']]

/--
The bytes are a number and the opening of an exponent, after any blanks, and those behind them begin
with what makes it all one number.
-/
def CarriesOn (opening : List Char) (bytes later : List UInt8) : Prop :=
  ∃ ws text more rest literal longer, bytes = ws ++ (text ++ Utf8.encode opening) ∧
    later = more ++ rest ∧ (∀ b ∈ ws, Blank.isBlankByte b) ∧ IsDecimal text literal ∧
    IsDecimal (text ++ (Utf8.encode opening ++ more)) longer

theorem CarriesOn.append {opening : List Char} {bytes later ws : List UInt8}
    (h : CarriesOn opening bytes later) (hws : ∀ b ∈ ws, Blank.isBlankByte b) :
    CarriesOn opening (ws ++ bytes) later := by
  obtain ⟨inner, text, more, rest, literal, longer, rfl, hlater, hinner, hnumber⟩ := h
  exact ⟨ws ++ inner, text, more, rest, literal, longer, (List.append_assoc ..).symm, hlater,
    List.forall_mem_append.mpr ⟨hws, hinner⟩, hnumber⟩

variable {first : List UInt8} (later : List UInt8)

section

variable {β : Type} {p : β → Bool} {xs : List β} (h : xs.dropWhile p ≠ [])

include h

theorem takeWhile_append_of_left (ys : List β) : (xs ++ ys).takeWhile p = xs.takeWhile p := by
  have hstop : ¬ (xs.takeWhile p).length = xs.length := by
    intro hlength
    have hsum := congrArg List.length (List.takeWhile_append_dropWhile (p := p) (l := xs))
    rw [List.length_append, hlength] at hsum
    exact h (List.eq_nil_of_length_eq_zero (by omega))
  rw [List.takeWhile_append, if_neg hstop]

theorem dropWhile_append_of_left (ys : List β) :
    (xs ++ ys).dropWhile p = xs.dropWhile p ++ ys := by
  rw [List.dropWhile_append, if_neg (by simpa using h)]

end

theorem takeMantissa_append_of_left (h : (takeMantissa first).2.2 ≠ []) :
    takeMantissa (first ++ later) =
      ((takeMantissa first).1, (takeMantissa first).2.1, (takeMantissa first).2.2 ++ later) := by
  have hwhole : first.dropWhile isDigit ≠ [] := by
    intro hnil
    simp [takeMantissa, hnil] at h
  simp only [takeMantissa, takeWhile_append_of_left hwhole, dropWhile_append_of_left hwhole] at h ⊢
  cases hrest : first.dropWhile isDigit with
  | nil => exact absurd hrest hwhole
  | cons b rest =>
      simp only [hrest, List.cons_append] at h ⊢
      split at h
      · rename_i hpoint
        rw [if_pos hpoint, if_pos hpoint, takeWhile_append_of_left h, dropWhile_append_of_left h]
      · rename_i hpoint
        simp only [if_neg hpoint, List.cons_append]

theorem takeInteger?_append_of_left {value : Int32} {rest : List UInt8}
    (h : takeInteger? first = some (value, rest)) (hne : rest ≠ []) :
    takeInteger? (first ++ later) = some (value, rest ++ later) := by
  have hfirst : first ≠ [] := by
    rintro rfl
    cases h
  have hleft : (takeSign first).2.dropWhile isDigit ≠ [] := by
    simp only [takeInteger?] at h
    split at h <;> cases h
    exact hne
  simp only [takeInteger?, takeSign_append hfirst, takeWhile_append_of_left hleft,
    dropWhile_append_of_left hleft] at h ⊢
  split at h <;> cases h
  rw [if_neg ‹_›]

theorem exists_opening {mark : UInt8} {sign : List UInt8} {negative : Bool}
    (hmark : mark = 0x65 ∨ mark = 0x45) (hsign : IsSign sign negative) :
    ∃ opening ∈ openings, mark :: sign = Utf8.encode opening := by
  rcases hmark with rfl | rfl <;> cases hsign with
  | none => first | exact ⟨['e'], by decide, rfl⟩ | exact ⟨['E'], by decide, rfl⟩
  | plus => first | exact ⟨['e', '+'], by decide, rfl⟩ | exact ⟨['E', '+'], by decide, rfl⟩
  | minus => first | exact ⟨['e', '-'], by decide, rfl⟩ | exact ⟨['E', '-'], by decide, rfl⟩

/-- A sign that is there is taken, and where there is none the bytes to come may bring one. -/
theorem IsSign.exists_more {sign : List UInt8} {negative : Bool} (h : IsSign sign negative) :
    ∃ more, later = more ++ (takeSign (sign ++ later)).2 ∧
      IsSign (sign ++ more) (takeSign (sign ++ later)).1 := by
  cases h with
  | none => exact exists_takeSign later
  | plus => exact ⟨[], rfl, .plus⟩
  | minus => exact ⟨[], rfl, .minus⟩

section Marks

variable {b : UInt8} {rest : List UInt8} (hmark : b = 0x65 ∨ b = 0x45)

include hmark

/-- Where no more than a sign stands behind the mark, the bytes to come decide. -/
theorem takeExponent_append_of_sign (hbody : (takeSign rest).2 = []) :
    takeExponent (b :: rest) = (0, b :: rest) ∧
      (takeExponent (b :: rest ++ later) = (0, b :: rest ++ later) ∨
        ∃ opening ∈ openings, b :: rest = Utf8.encode opening ∧ ∃ more behind value,
          later = more ++ behind ∧ IsExponent (Utf8.encode opening ++ more) value) := by
  obtain ⟨sign, hrest, hsign⟩ := exists_takeSign rest
  rw [hbody, List.append_nil] at hrest
  subst hrest
  refine ⟨by simp [takeExponent, hmark, hbody], ?_⟩
  cases hdigits : ((takeSign (rest ++ later)).2.takeWhile isDigit).isEmpty with
  | true =>
      left
      simp [takeExponent, hmark, hdigits]
  | false =>
      right
      obtain ⟨opening, hmem, hopening⟩ := exists_opening hmark hsign
      obtain ⟨more, hlater, hmore⟩ := hsign.exists_more later
      have hexponent := IsExponent.mark hmark hmore (isDigits_takeWhile _)
        (List.isEmpty_eq_false_iff.mp hdigits)
      rw [List.append_assoc, ← List.cons_append, hopening] at hexponent
      refine ⟨opening, hmem, hopening, _, (takeSign (rest ++ later)).2.dropWhile isDigit, _, ?_,
        hexponent⟩
      rw [List.append_assoc, List.takeWhile_append_dropWhile]
      exact hlater

theorem takeExponent_append_of_body (hbody : (takeSign rest).2 ≠ [])
    (h : (takeExponent (b :: rest)).2 ≠ []) :
    takeExponent (b :: rest ++ later) =
      ((takeExponent (b :: rest)).1, (takeExponent (b :: rest)).2 ++ later) := by
  have hrest : rest ≠ [] := by
    rintro rfl
    exact hbody rfl
  have hleft : (takeSign rest).2.dropWhile isDigit ≠ [] := by
    cases hdigits : ((takeSign rest).2.takeWhile isDigit).isEmpty with
    | true =>
        have hsplit := List.takeWhile_append_dropWhile (p := isDigit) (l := (takeSign rest).2)
        rw [List.isEmpty_iff.mp hdigits, List.nil_append] at hsplit
        rwa [hsplit]
    | false => rwa [takeExponent_mark hmark hdigits] at h
  simp only [List.cons_append, takeExponent, if_pos hmark, takeSign_append hrest,
    takeWhile_append_of_left hleft, dropWhile_append_of_left hleft]
  split <;> rfl

end Marks

theorem takeExponent_append_cases (h : (takeExponent first).2 ≠ []) :
    takeExponent (first ++ later) = ((takeExponent first).1, (takeExponent first).2 ++ later) ∨
      ∃ opening ∈ openings, first = Utf8.encode opening ∧ (takeExponent first).2 = first ∧
        ∃ more rest value, later = more ++ rest ∧
          IsExponent (Utf8.encode opening ++ more) value := by
  cases first with
  | nil => exact absurd rfl h
  | cons b rest =>
      by_cases hmark : b = 0x65 ∨ b = 0x45
      · by_cases hbody : (takeSign rest).2 = []
        · obtain ⟨hfirst, hlater | ⟨opening, hmem, hopening, hmore⟩⟩ :=
            takeExponent_append_of_sign later hmark hbody
          · exact Or.inl (by rw [hlater, hfirst])
          · exact Or.inr ⟨opening, hmem, hopening, by rw [hfirst], hmore⟩
        · exact Or.inl (takeExponent_append_of_body later hmark hbody h)
      · left
        simp [takeExponent, hmark]

/-- A number that is not at the end goes on only where it has the opening of an exponent behind it. -/
theorem takeNumber?_append_cases {literal : Literal} {rest : List UInt8}
    (h : takeNumber? first = some (literal, rest)) (hne : rest ≠ []) :
    takeNumber? (first ++ later) = some (literal, rest ++ later) ∨
      ∃ opening ∈ openings, rest = Utf8.encode opening ∧ CarriesOn opening first later := by
  have hfirst : first ≠ [] := by
    rintro rfl
    cases h
  simp only [takeNumber?] at h ⊢
  split at h
  · cases h
  · rename_i hdigits
    simp only [Option.some.injEq, Prod.mk.injEq] at h
    obtain ⟨hliteral, hrest⟩ := h
    have hleft : (takeMantissa (takeSign first).2).2.2 ≠ [] := by
      intro hnil
      rw [hnil] at hrest
      exact hne hrest.symm
    rw [takeSign_append hfirst, takeMantissa_append_of_left later hleft, if_neg hdigits]
    rcases takeExponent_append_cases later (hrest ▸ hne) with
      htake | ⟨opening, hmem, hopening, hkept, more, behind, value, hlater, hexponent⟩
    · left
      rw [htake, hliteral, hrest]
    · right
      rw [hkept, hopening] at hrest
      obtain ⟨sign, hsplit, hsign⟩ := exists_takeSign first
      obtain ⟨mantissa, hbody, hmantissa⟩ := exists_takeMantissa (by simpa using hdigits)
      have hshort := IsDecimal.parts hsign hmantissa .none
      have hlong := IsDecimal.parts hsign hmantissa hexponent
      rw [List.append_nil] at hshort
      rw [← List.append_assoc] at hlong
      refine ⟨opening, hmem, hrest.symm, [], sign ++ mantissa, more, behind, _, _, ?_, hlater,
        by simp, hshort, hlong⟩
      rw [List.nil_append, List.append_assoc, ← hopening, ← hbody, ← hsplit]

theorem IsInteger.exists_digit {text : List UInt8} {value : Int32} (h : IsInteger text value) :
    ∃ b ∈ text, isDigit b := by
  cases h with
  | @parts sign digits negative value hsign hdigits hne hvalue =>
      obtain ⟨d, hd⟩ := List.exists_mem_of_ne_nil digits hne
      exact ⟨d, List.mem_append_right sign hd, hdigits d hd⟩

theorem IsMantissa.exists_digit {text whole fraction : List UInt8}
    (h : IsMantissa text whole fraction) : ∃ b ∈ text, isDigit b := by
  cases h with
  | whole hwhole hne =>
      obtain ⟨d, hd⟩ := List.exists_mem_of_ne_nil text hne
      exact ⟨d, hd, hwhole d hd⟩
  | point hwhole hfraction hne =>
      obtain ⟨d, hd⟩ := List.exists_mem_of_ne_nil _ hne
      rcases List.mem_append.mp hd with hd | hd
      · exact ⟨d, List.mem_append_left _ hd, hwhole d hd⟩
      · exact ⟨d, List.mem_append_right _ (List.mem_cons_of_mem _ hd), hfraction d hd⟩

theorem IsDecimal.exists_digit {text : List UInt8} {literal : Literal}
    (h : IsDecimal text literal) : ∃ b ∈ text, isDigit b := by
  cases h with
  | parts hsign hmantissa hexponent =>
      obtain ⟨d, hd, hdigit⟩ := hmantissa.exists_digit
      exact ⟨d, List.mem_append_right _ (List.mem_append_left _ hd), hdigit⟩

end Literal

/-! ## Readers -/

namespace Reader

/-- The reader of a longer line, at the same place. -/
def extend (r : Reader) (later : List UInt8) : Reader :=
  { r with rest := r.rest ++ later }

@[simp] theorem rest_extend (r : Reader) (later : List UInt8) :
    (r.extend later).rest = r.rest ++ later := rfl

variable {r next : Reader} (later : List UInt8)

theorem start_append_tail {line : List Char} {offset : Nat} (h : offset ≤ Utf8.size line)
    (tail : List Char) :
    start (line ++ tail) offset = (start line offset).extend (Utf8.encode tail) := by
  rw [← Utf8.length_encode] at h
  have hposition : min offset (Utf8.encode line ++ Utf8.encode tail).length =
      min offset (Utf8.encode line).length := by
    rw [List.length_append]
    omega
  simp only [start, extend, Utf8.encode_append, hposition, List.drop_append_of_le_length h]

theorem leaving_extend (r : Reader) (rest : List UInt8) :
    (r.extend later).leaving (rest ++ later) = (r.leaving rest).extend later := by
  simp only [leaving, extend, List.length_append, Nat.add_sub_add_right]

theorem skipBlanks_extend (h : r.skipBlanks.rest ≠ []) :
    (r.extend later).skipBlanks = r.skipBlanks.extend later := by
  have hdrop : (r.rest ++ later).dropWhile Blank.isBlankByte =
      r.rest.dropWhile Blank.isBlankByte ++ later :=
    Literal.dropWhile_append_of_left h later
  rw [skipBlanks, skipBlanks, ← leaving_extend, ← hdrop]
  rfl

theorem char_extend {c : Char} (h : r.char c = (.ok (), next)) :
    (r.extend later).char c = (.ok (), next.extend later) := by
  have hrest := rest_of_char h
  have hnext : next = r.leaving next.rest := congrArg Prod.snd (h.symm.trans (char_of_rest hrest))
  have hlater : (r.extend later).rest = Utf8.encode [c] ++ (next.rest ++ later) := by
    rw [extend, hrest, List.append_assoc]
  rw [char_of_rest hlater, leaving_extend, ← hnext]

theorem integer_extend {field : Option Nat} {value : Int32}
    (h : r.integer field = (.ok value, next)) (hne : next.rest ≠ []) :
    (r.extend later).integer field = (.ok value, next.extend later) := by
  simp only [integer] at h
  split at h
  · rename_i found rest htake
    cases h
    have hskip : r.skipBlanks.rest ≠ [] := by
      intro hnil
      rw [hnil] at htake
      cases htake
    have hlater := Literal.takeInteger?_append_of_left later htake hne
    simp only [integer, skipBlanks_extend later hskip, rest_extend, hlater, leaving_extend]
  · cases h

theorem number_extend_cases {field : Option Nat} {literal : Literal}
    (h : r.number field = (.ok literal, next)) (hne : next.rest ≠ []) :
    (r.extend later).number field = (.ok literal, next.extend later) ∨
      ∃ opening ∈ Literal.openings, next.rest = Utf8.encode opening ∧
        Literal.CarriesOn opening r.rest later := by
  simp only [number] at h
  split at h
  · rename_i found rest htake
    cases h
    have hskip : r.skipBlanks.rest ≠ [] := by
      intro hnil
      rw [hnil] at htake
      cases htake
    rcases Literal.takeNumber?_append_cases later htake hne with
      hlater | ⟨opening, hmem, hopening, hcarries⟩
    · left
      simp only [number, skipBlanks_extend later hskip, rest_extend, hlater, leaving_extend]
    · right
      obtain ⟨ws, hr, hws⟩ := Past.dropWhile Blank.isBlankByte r.rest
      exact ⟨opening, hmem, hopening, hr ▸ hcarries.append hws⟩
  · cases h

end Reader

/-! ## Patterns -/

namespace Utf8

theorem prefix_of_encode_prefix {first text : List Char} (h : encode first <+: encode text) :
    first <+: text := by
  induction first generalizing text with
  | nil => exact List.nil_prefix
  | cons c first ih =>
      obtain ⟨rest, hrest⟩ := h
      rw [← List.singleton_append, encode_append, List.append_assoc] at hrest
      obtain ⟨later, rfl, hlater⟩ := exists_of_encode_eq_append hrest.symm
      exact List.cons_prefix_cons.mpr ⟨rfl, ih ⟨rest, hlater.symm⟩⟩

end Utf8

namespace Pattern

/-- Blanks aside, the pattern is only what could open an exponent. -/
def IsOpening (pattern : Pattern) (opening : List Char) : Prop :=
  ∃ chars, chars ≠ [] ∧ chars <+: opening ∧
    pattern.filter (· ≠ .blanks) = chars.map .literal

/--
The bytes are what the items before the last number describe, and then a number and no more than the
opening of an exponent, which the bytes behind them carry on.
-/
inductive CarriedOn (α : Type) [Scalar α] (later : List UInt8) :
    Pattern → List UInt8 → Prop where
  | number {opening : List Char} {items : Pattern} {bytes : List UInt8}
      (hmem : opening ∈ Literal.openings) (hitems : IsOpening items opening)
      (hcarries : Literal.CarriesOn opening bytes later) :
      CarriedOn α later (.number :: items) bytes
  | item {item : Item} {items : Pattern} {text bytes : List UInt8} {fields : List (Field α)}
      (htext : Describes [item] text fields) (h : CarriedOn α later items bytes) :
      CarriedOn α later (item :: items) (text ++ bytes)

variable {α : Type} [Scalar α]

/-- Only a character of an exponent's opening at the end lets a pattern be carried on. -/
theorem CarriedOn.mem_of_getLast? {pattern : Pattern} {bytes later : List UInt8} {c : Char}
    (h : CarriedOn α later pattern bytes) (hlast : pattern.getLast? = some (.literal c)) :
    c ∈ ['e', 'E', '+', '-'] := by
  induction h with
  | @number opening items bytes hmem hitems _ =>
      obtain ⟨chars, -, hchars, hfilter⟩ := hitems
      have hin : Item.literal c ∈ items :=
        (List.mem_cons.mp (List.mem_of_getLast? hlast)).resolve_left nofun
      have hkept : Item.literal c ∈ items.filter (· ≠ .blanks) :=
        List.mem_filter.mpr ⟨hin, by simp⟩
      rw [hfilter] at hkept
      obtain ⟨d, hd, hdc⟩ := List.mem_map.mp hkept
      cases hdc
      have hall : Literal.openings.flatten.all fun c => c ∈ ['e', 'E', '+', '-'] := by decide
      have hc : c ∈ Literal.openings.flatten := List.mem_flatten_of_mem hmem (hchars.subset hd)
      exact of_decide_eq_true (List.all_eq_true.mp hall c hc)
  | @item item items text bytes fields _ hrest ih =>
      cases items with
      | nil => cases hrest
      | cons next items => exact ih (by rwa [List.getLast?_cons_cons] at hlast)

/-- Neither a blank nor a digit. -/
def Bare (bytes : List UInt8) : Prop :=
  ∀ b ∈ bytes, Blank.isBlankByte b = false ∧ Literal.isDigit b = false

theorem bare_opening {opening : List Char} (h : opening ∈ Literal.openings) :
    Bare (Utf8.encode opening) := by
  have hall : Literal.openings.all fun opening =>
      (Utf8.encode opening).all fun b => !Blank.isBlankByte b && !Literal.isDigit b := by
    decide
  intro b hb
  simpa using List.all_eq_true.mp (List.all_eq_true.mp hall opening h) b hb

/-- Where a text has neither blanks nor digits, all that describes it are characters. -/
theorem Describes.exists_chars {items : Pattern} {text : List UInt8} {fields : List (Field α)}
    (h : Describes items text fields) (hbare : Bare text) :
    ∃ chars, items.filter (· ≠ .blanks) = chars.map .literal ∧ Utf8.encode chars = text := by
  induction h with
  | nil => exact ⟨[], rfl, rfl⟩
  | integer hws hinteger h ih =>
      obtain ⟨d, hd, hdigit⟩ := hinteger.exists_digit
      have hnodigit := (hbare d (by simp [hd])).2
      rw [hdigit] at hnodigit
      cases hnodigit
  | number hws hdecimal h ih =>
      obtain ⟨d, hd, hdigit⟩ := hdecimal.exists_digit
      have hnodigit := (hbare d (by simp [hd])).2
      rw [hdigit] at hnodigit
      cases hnodigit
  | literal c h ih =>
      obtain ⟨chars, hchars, hencode⟩ := ih fun b hb => hbare b (List.mem_append_right _ hb)
      refine ⟨c :: chars, by simpa using hchars, ?_⟩
      rw [← hencode, ← Utf8.encode_append]
      rfl
  | @blanks items ws later fields hws h ih =>
      obtain ⟨chars, hchars, hencode⟩ := ih fun b hb => hbare b (List.mem_append_right _ hb)
      have hnone : ws = [] := by
        rw [List.eq_nil_iff_forall_not_mem]
        intro b hb
        have hnoblank := (hbare b (List.mem_append_left _ hb)).1
        rw [hws b hb] at hnoblank
        cases hnoblank
      exact ⟨chars, by simpa using hchars, by rw [hnone, hencode, List.nil_append]⟩

variable {index : Nat} {before : Pattern} {c : Char} {r : Reader} {fields : List (Field α)}

theorem exists_chars_of_readFrom (h : readFrom index (before ++ [.literal c]) r = .ok fields)
    (hbare : Bare r.rest) :
    ∃ chars, chars ≠ [] ∧
      (before ++ [Item.literal c]).filter (· ≠ Item.blanks) = chars.map Item.literal ∧
      Utf8.encode chars <+: r.rest := by
  obtain ⟨text, rest, hrest, hdescribes⟩ := begins_of_readFrom h
  obtain ⟨chars, hchars, hencode⟩ := hdescribes.exists_chars fun b hb =>
    hbare b (hrest ▸ List.mem_append_left rest hb)
  refine ⟨chars, ?_, hchars, ⟨rest, by rw [hencode, hrest]⟩⟩
  rintro rfl
  simp at hchars

/-- A scan that ends with a character has something left of the line before that. -/
theorem rest_ne_nil_of_readFrom (h : readFrom index (before ++ [.literal c]) r = .ok fields) :
    r.rest ≠ [] := by
  intro hnil
  obtain ⟨chars, hne, -, hencode⟩ := exists_chars_of_readFrom h (by simp [Bare, hnil])
  rw [hnil] at hencode
  have hchars : chars <+: [] := Utf8.prefix_of_encode_prefix hencode
  exact hne (List.prefix_nil.mp hchars)

theorem isOpening_of_readFrom {opening : List Char} (hmem : opening ∈ Literal.openings)
    (h : readFrom index (before ++ [.literal c]) r = .ok fields)
    (hr : r.rest = Utf8.encode opening) : IsOpening (before ++ [.literal c]) opening := by
  obtain ⟨chars, hne, hchars, hencode⟩ := exists_chars_of_readFrom h (hr ▸ bare_opening hmem)
  rw [hr] at hencode
  exact ⟨chars, hne, Utf8.prefix_of_encode_prefix hencode, hchars⟩

theorem readFrom_extend_cases (later : List UInt8)
    (h : readFrom index (before ++ [.literal c]) r = .ok fields) :
    readFrom index (before ++ [.literal c]) (r.extend later) = .ok fields ∨
      CarriedOn α later (before ++ [.literal c]) r.rest := by
  induction before generalizing index r fields with
  | nil =>
      rw [List.nil_append, readFrom] at h ⊢
      split at h
      · rename_i value next hchar
        left
        rw [Reader.char_extend later hchar]
        exact h
      · cases h
  | cons item before ih =>
      rw [List.cons_append] at h ⊢
      cases item with
      | integer =>
          rw [readFrom] at h ⊢
          split at h
          · rename_i value next hinteger
            obtain ⟨others, hothers, rfl⟩ := exists_of_map_eq_ok h
            obtain ⟨ws, text, hr, hws, htext⟩ := Reader.exists_of_integer hinteger
            rcases ih hothers with hlater | hcarried
            · left
              rw [Reader.integer_extend later hinteger (rest_ne_nil_of_readFrom hothers)]
              simp only [hlater, Except.map]
            · right
              rw [hr]
              simpa using CarriedOn.item (.integer hws htext .nil) hcarried
          · cases h
      | number =>
          rw [readFrom] at h ⊢
          split at h
          · rename_i literal next hnumber
            obtain ⟨others, hothers, rfl⟩ := exists_of_map_eq_ok h
            obtain ⟨ws, text, hr, hws, htext⟩ := Reader.exists_of_number hnumber
            rcases Reader.number_extend_cases later hnumber (rest_ne_nil_of_readFrom hothers) with
              hnext | ⟨opening, hmem, hopening, hcarries⟩
            · rcases ih hothers with hlater | hcarried
              · left
                simp only [hnext, hlater, Except.map]
              · right
                rw [hr]
                simpa using CarriedOn.item (.number hws htext .nil) hcarried
            · exact Or.inr (.number hmem (isOpening_of_readFrom hmem hothers hopening) hcarries)
          · cases h
      | literal d =>
          rw [readFrom] at h ⊢
          split at h
          · rename_i value next hchar
            rcases ih h with hlater | hcarried
            · left
              rw [Reader.char_extend later hchar]
              exact hlater
            · right
              rw [Reader.rest_of_char hchar]
              simpa using CarriedOn.item (.literal d .nil) hcarried
          · cases h
      | blanks =>
          rw [readFrom] at h ⊢
          obtain ⟨ws, hr, hws⟩ := Past.dropWhile Blank.isBlankByte r.rest
          rcases ih h with hlater | hcarried
          · left
            rw [Reader.skipBlanks_extend later (rest_ne_nil_of_readFrom h)]
            exact hlater
          · right
            rw [hr]
            have hitem := CarriedOn.item (.blanks hws .nil) hcarried
            rwa [List.append_nil] at hitem

/--
A scan is local. Text in front of the line changes nothing but the columns, which are greater by its
bytes. A pattern that ends with a character reads the same whatever is written behind the line,
unless its last number is followed by no more than the opening of an exponent, in the pattern and in
the line, and the text behind the line goes on with the digits.
-/
theorem read_local (pattern : Pattern) (line : List Char) (offset : Nat) :
    (∀ before, (pattern.read (before ++ line) (Utf8.size before + offset) :
        Except Mismatch (List (Field α))) =
      (pattern.read line offset).mapError (Mismatch.shift (Utf8.size before))) ∧
    ∀ (c : Char) (fields : List (Field α)), pattern.getLast? = some (.literal c) →
      pattern.read line offset = .ok fields → ∀ tail,
        ¬ CarriedOn α (Utf8.encode tail) pattern ((Utf8.encode line).drop offset) →
        pattern.read (line ++ tail) offset = .ok fields := by
  refine ⟨fun before => read_append pattern before line offset, ?_⟩
  intro c fields hlast hread tail hcarries
  obtain ⟨before, rfl⟩ := List.getLast?_eq_some_iff.mp hlast
  have hoffset : offset ≤ Utf8.size line := by
    by_contra hbeyond
    apply rest_ne_nil_of_readFrom hread
    have hlength := Utf8.length_encode line
    exact List.drop_eq_nil_of_le (by omega)
  rw [read, Reader.start_append_tail hoffset]
  rcases readFrom_extend_cases (Utf8.encode tail) hread with hlater | hcarried
  · exact hlater
  · exact absurd hcarried hcarries

/-- A position is read the same in the middle of any text. -/
theorem read_local_position :
    let pattern := ofText "draw.pos(x:%f y:%f)".toList
    let line := "draw.pos(x:1 y:2)".toList
    pattern.getLast? = some (.literal ')') ∧
      (pattern.read line 0 : Except Mismatch (List (Field Rat))) = .ok [.number 1, .number 2] ∧
      ∀ before tail, (pattern.read (before ++ (line ++ tail)) (Utf8.size before) :
        Except Mismatch (List (Field Rat))) = .ok [.number 1, .number 2] := by
  intro pattern line
  have hlast : pattern.getLast? = some (.literal ')') := by decide +kernel
  have hread : (pattern.read line 0 : Except Mismatch (List (Field Rat))) =
      .ok [.number 1, .number 2] := by
    decide +kernel
  refine ⟨hlast, hread, ?_⟩
  intro before tail
  have hclosed : ¬ CarriedOn Rat (Utf8.encode tail) pattern ((Utf8.encode line).drop 0) :=
    fun hcarried => absurd (hcarried.mem_of_getLast? hlast) (by decide)
  have hshift := (read_local (α := Rat) pattern (line ++ tail) 0).1 before
  have htail := (read_local pattern line 0).2 _ _ hlast hread tail hclosed
  rw [Nat.add_zero, htail] at hshift
  exact hshift

/-- What stands behind the line is taken for the digits of an exponent. -/
theorem read_changed_behind_exponent :
    let pattern := ofText "x:%fe".toList
    let line := "x:1e".toList
    let tail := "5".toList
    pattern.getLast? = some (.literal 'e') ∧
      (pattern.read line 0 : Except Mismatch (List (Field Float))) = .ok [.number 1] ∧
      (pattern.read (line ++ tail) 0 : Except Mismatch (List (Field Float))) =
        .error ⟨6, none, .char 'e'⟩ := by
  decide +kernel

end Pattern
end PenScript
