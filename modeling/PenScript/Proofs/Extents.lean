import PenScript.Proofs.Mismatches

/-!
# How far a field reaches

Behind its blanks a field is the longest text of its kind that the line goes on with: a decimal
number, or a sign or none and a whole run of digits. A number is there whenever any text of one is,
and its text is worth the same where it stands alone. An integer is there only if 32 bits hold the
run. Where a field is not there the reader stays behind the blanks, and that is the place that it
reports.
-/

set_option autoImplicit false

namespace PenScript

/-! ## Longest texts -/

/-- Of the texts of a kind that the bytes begin with, the longest, and what it is worth. -/
structure Longest {β : Type} (kind : List UInt8 → β → Prop) (bytes text : List UInt8) (value : β) :
    Prop where
  front : text <+: bytes
  of_kind : kind text value
  longest : ∀ other worth, other <+: bytes → kind other worth → other <+: text

/-- What is taken from the front of bytes is of a kind, and no text of the kind is cut short. -/
structure Greedy {β : Type} (take? : List UInt8 → Option (β × List UInt8))
    (kind : List UInt8 → β → Prop) : Prop where
  sound : ∀ {bytes value rest}, take? bytes = some (value, rest) →
    ∃ text, bytes = text ++ rest ∧ kind text value
  whole : ∀ {text value}, kind text value → take? text = some (value, [])
  covers : ∀ {text value}, kind text value → ∀ later, ∃ found rest,
    take? (text ++ later) = some (found, rest) ∧ rest <:+ later

namespace Greedy

variable {β : Type} {take? : List UInt8 → Option (β × List UInt8)}
  {kind : List UInt8 → β → Prop} (h : Greedy take? kind) {bytes rest : List UInt8} {value : β}

include h

theorem eq_some_iff :
    take? bytes = some (value, rest) ↔
      ∃ text, bytes = text ++ rest ∧ Longest kind bytes text value := by
  constructor
  · intro htake
    obtain ⟨text, rfl, hkind⟩ := h.sound htake
    refine ⟨text, rfl, List.prefix_append .., hkind, ?_⟩
    rintro other worth ⟨later, hbytes⟩ hother
    obtain ⟨found, left, hfound, hleft⟩ := h.covers hother later
    rw [hbytes, htake] at hfound
    cases hfound
    refine List.prefix_of_prefix_length_le ⟨later, hbytes⟩ (List.prefix_append ..) ?_
    have hlength := congrArg List.length hbytes
    have hshorter := hleft.length_le
    simp only [List.length_append] at hlength
    omega
  · rintro ⟨text, rfl, -, hkind, hlongest⟩
    obtain ⟨found, left, htake, hleft⟩ := h.covers hkind rest
    obtain ⟨other, hbytes, hother⟩ := h.sound htake
    have hprefix := hlongest other found ⟨left, hbytes.symm⟩ hother
    -- Neither text is longer than the other one, and so they are the same.
    have heq : other = text := by
      refine hprefix.eq_of_length_le ?_
      have hlength := congrArg List.length hbytes
      have hshorter := hleft.length_le
      simp only [List.length_append] at hlength
      omega
    subst heq
    obtain rfl : rest = left := List.append_cancel_left hbytes
    obtain rfl : value = found := by
      have hsame := (h.whole hkind).symm.trans (h.whole hother)
      cases hsame
      rfl
    exact htake

/-- Where there is a text of the kind at all, there is a longest one. -/
theorem exists_longest {text : List UInt8} (hfront : text <+: bytes) (hkind : kind text value) :
    ∃ longest worth, Longest kind bytes longest worth := by
  obtain ⟨later, rfl⟩ := hfront
  obtain ⟨found, rest, htake, -⟩ := h.covers hkind later
  obtain ⟨longest, -, hlongest⟩ := h.eq_some_iff.mp htake
  exact ⟨longest, found, hlongest⟩

end Greedy

namespace Literal

variable {bytes text rest : List UInt8}

/-! ## Decimal numbers -/

theorem rest_takeMantissa_suffix (bytes : List UInt8) :
    (takeMantissa bytes).2.2 <:+ bytes.dropWhile isDigit := by
  unfold takeMantissa
  cases bytes.dropWhile isDigit with
  | nil => exact List.suffix_rfl
  | cons b rest =>
      simp only
      split
      · exact (List.dropWhile_suffix isDigit).trans (List.suffix_cons b rest)
      · exact List.suffix_rfl

theorem IsMantissa.rest_suffix {whole fraction : List UInt8} (h : IsMantissa text whole fraction)
    (later : List UInt8) : (takeMantissa (text ++ later)).2.2 <:+ later := by
  cases h with
  | whole hwhole hne =>
      have hsuffix := rest_takeMantissa_suffix (text ++ later)
      rw [List.dropWhile_append_of_pos hwhole] at hsuffix
      exact hsuffix.trans (List.dropWhile_suffix isDigit)
  | @point whole fraction hwhole hfraction hne =>
      have hpoint : isDigit 0x2E = false := by decide
      have hdrop : (whole ++ 0x2E :: fraction ++ later).dropWhile isDigit =
          0x2E :: (fraction ++ later) := by
        rw [List.append_assoc, List.dropWhile_append_of_pos hwhole, List.cons_append,
          List.dropWhile_cons_of_neg (by simp [hpoint])]
      unfold takeMantissa
      simp only [hdrop, if_true, List.dropWhile_append_of_pos hfraction]
      exact List.dropWhile_suffix isDigit

theorem IsExponent.rest_suffix {value : Int} (h : IsExponent text value) (later : List UInt8) :
    (takeExponent (text ++ later)).2 <:+ later := by
  cases h with
  | none =>
      obtain ⟨taken, hlater, -⟩ := exists_takeExponent later
      exact ⟨taken, hlater.symm⟩
  | @mark mark sign digits negative hmark hsign hdigits hne =>
      have hhead : ∀ b ∈ (digits ++ later).head?, b ≠ 0x2D ∧ b ≠ 0x2B := by
        rw [List.head?_append_of_ne_nil _ hne]
        exact hdigits.head?_ne
      have htake := hsign.takeSign_append hhead
      have hsome := hdigits.takeWhile_ne_nil hne later
      rw [List.cons_append, List.append_assoc, takeExponent_mark hmark (by simpa [htake] using hsome),
        htake]
      simp only [List.dropWhile_append_of_pos hdigits]
      exact List.dropWhile_suffix isDigit

/-- An exponent goes on where the mantissa ends, so that neither is read too short. -/
theorem IsDecimal.covers {literal : Literal} (h : IsDecimal text literal) (later : List UInt8) :
    ∃ found rest, takeNumber? (text ++ later) = some (found, rest) ∧ rest <:+ later := by
  cases h with
  | @parts sign mantissa whole fraction exponent negative value hsign hmantissa hexponent =>
      have hhead := hmantissa.head?_ne (exponent ++ later)
      have hsome := hmantissa.takeMantissa_ne_nil (exponent ++ later)
      simp only [takeNumber?, List.append_assoc, hsign.takeSign_append hhead]
      rw [if_neg (by simpa [or_iff_not_imp_left] using hsome)]
      refine ⟨_, _, rfl, ?_⟩
      cases hexponent with
      | none =>
          obtain ⟨taken, hrest, -⟩ :=
            exists_takeExponent (takeMantissa (mantissa ++ ([] ++ later))).2.2
          exact .trans ⟨taken, hrest.symm⟩ (hmantissa.rest_suffix later)
      | @mark mark sign digits negative hmark hsign hdigits hne =>
          have hexponent := IsExponent.mark hmark hsign hdigits hne
          have hstop : ∀ b ∈ (mark :: (sign ++ digits) ++ later).head?,
              isDigit b = false ∧ b ≠ 0x2E :=
            fun b hb => hexponent.head?_ne b hb
          rw [hmantissa.takeMantissa_append hstop]
          exact hexponent.rest_suffix later

theorem greedy_takeNumber? : Greedy takeNumber? IsDecimal where
  sound := exists_of_takeNumber?
  whole := IsDecimal.takeNumber?_eq
  covers := IsDecimal.covers

/-! ## Whole numbers -/

/-- The text of a whole number of any size, and its value. -/
inductive IsWhole : List UInt8 → Int → Prop where
  | parts {sign digits : List UInt8} {negative : Bool} (hsign : IsSign sign negative)
      (hdigits : IsDigits digits) (hne : digits ≠ []) :
      IsWhole (sign ++ digits) (signed negative (digitsValue digits))

/-- The signed run of digits at the front of the bytes, whatever its value. -/
def takeWhole? (bytes : List UInt8) : Option (Int × List UInt8) :=
  let (negative, body) := takeSign bytes
  let digits := body.takeWhile isDigit
  if digits.isEmpty then none
  else some (signed negative (digitsValue digits), body.dropWhile isDigit)

theorem takeInteger?_eq_bind (bytes : List UInt8) :
    takeInteger? bytes = (takeWhole? bytes).bind fun (n, rest) =>
      if isInt32 n then some (Int32.ofInt n, rest) else none := by
  simp only [takeInteger?, takeWhole?]
  cases hdigits : ((takeSign bytes).2.takeWhile isDigit).isEmpty with
  | true => rfl
  | false =>
      rw [if_neg Bool.false_ne_true, Option.bind_some, Bool.false_or]
      cases isInt32 (signed (takeSign bytes).1 (digitsValue ((takeSign bytes).2.takeWhile isDigit)))
      with
      | true => rfl
      | false => rfl

theorem IsWhole.takeWhole?_append {n : Int} (h : IsWhole text n) (later : List UInt8) :
    ∃ more, takeWhole? (text ++ later) = some (more, later.dropWhile isDigit) ∧
      (later = [] → more = n) := by
  cases h with
  | @parts sign digits negative hsign hdigits hne =>
      have hhead : ∀ b ∈ (digits ++ later).head?, b ≠ 0x2D ∧ b ≠ 0x2B := by
        rw [List.head?_append_of_ne_nil _ hne]
        exact hdigits.head?_ne
      have hsome := hdigits.takeWhile_ne_nil hne later
      simp only [takeWhole?, List.append_assoc, hsign.takeSign_append hhead,
        List.dropWhile_append_of_pos hdigits]
      rw [if_neg (by simpa using hsome)]
      refine ⟨_, rfl, ?_⟩
      rintro rfl
      rw [List.append_nil, List.takeWhile_eq_self_iff.mpr hdigits]

theorem greedy_takeWhole? : Greedy takeWhole? IsWhole where
  sound := by
    intro bytes n rest htake
    simp only [takeWhole?] at htake
    split at htake
    · cases htake
    · rename_i hne
      cases htake
      obtain ⟨sign, hbytes, hsign⟩ := exists_takeSign bytes
      refine ⟨_, ?_, .parts hsign (isDigits_takeWhile (takeSign bytes).2) (by simpa using hne)⟩
      rw [List.append_assoc, List.takeWhile_append_dropWhile]
      exact hbytes
  whole := by
    intro text n h
    obtain ⟨more, htake, hmore⟩ := h.takeWhole?_append []
    rw [List.append_nil] at htake
    rw [htake, hmore rfl]
    rfl
  covers := by
    intro text n h later
    obtain ⟨more, htake, -⟩ := h.takeWhole?_append later
    exact ⟨more, _, htake, List.dropWhile_suffix isDigit⟩

theorem takeInteger?_eq_some_iff {value : Int32} :
    takeInteger? bytes = some (value, rest) ↔
      ∃ text, bytes = text ++ rest ∧ Longest IsWhole bytes text value.toInt := by
  rw [← greedy_takeWhole?.eq_some_iff, takeInteger?_eq_bind, Option.bind_eq_some_iff]
  constructor
  · rintro ⟨⟨n, left⟩, htake, hfits⟩
    dsimp only at hfits
    split at hfits
    · rename_i hint
      cases hfits
      rw [htake, toInt_ofInt hint]
    · cases hfits
  · intro htake
    refine ⟨_, htake, ?_⟩
    simp only [isInt32_toInt, if_true, Int32.ofInt_toInt]

/-! ## Texts that stand alone -/

/--
The texts that are numbers where they stand alone: decimal ones, and the names of infinity and of
not-a-number in letters of either case, with a sign or none.
-/
inductive IsNumeral : List UInt8 → Literal → Prop where
  | decimal {text : List UInt8} {literal : Literal} (h : IsDecimal text literal) :
      IsNumeral text literal
  | infinite {sign name : List UInt8} {negative : Bool} {word : String}
      (hsign : IsSign sign negative) (hword : word ∈ ["inf", "infinity"])
      (hname : spells name word) : IsNumeral (sign ++ name) (.infinite negative)
  | nan {sign name : List UInt8} {negative : Bool} (hsign : IsSign sign negative)
      (hname : spells name "nan") : IsNumeral (sign ++ name) .nan

theorem isNumberByte_lower {b : UInt8} (h : isNumberByte b) : isNumberByte (lower b) := by
  unfold lower
  split
  · rename_i hcapital
    simp only [isNumberByte, isDigit, Bool.or_eq_true, Bool.and_eq_true, decide_eq_true_eq,
      beq_iff_eq] at h
    rcases h with ((((h | rfl) | rfl) | rfl) | rfl) | rfl
    · exact absurd (UInt8.le_trans hcapital.1 h.2) (by decide)
    all_goals revert hcapital; decide
  · exact h

/-- A name begins with a letter that is no part of decimal numbers. -/
theorem isNumberByte_of_spells {name : List UInt8} {word : String} (hname : spells name word)
    (hword : word ∈ ["inf", "infinity", "nan"]) :
    ∃ b later, name = b :: later ∧ isNumberByte b = false := by
  have hletter : ∀ word ∈ ["inf", "infinity", "nan"],
      (Utf8.encode word.toList).head?.any (!isNumberByte ·) := by
    decide +kernel
  have hhead := hletter word hword
  rw [← beq_iff_eq.mp hname, List.head?_map] at hhead
  cases name with
  | nil => cases hhead
  | cons b later =>
      refine ⟨b, later, rfl, ?_⟩
      by_contra hb
      rw [Bool.not_eq_false] at hb
      simp [isNumberByte_lower hb] at hhead

section

variable {sign name : List UInt8} {negative : Bool} {word : String} (hname : spells name word)
  (hword : word ∈ ["inf", "infinity", "nan"])

include hname hword

theorem takeSign_append_name (hsign : IsSign sign negative) :
    takeSign (sign ++ name) = (negative, name) := by
  obtain ⟨b, later, rfl, hb⟩ := isNumberByte_of_spells hname hword
  refine hsign.takeSign_append ?_
  rintro d hd
  cases hd
  constructor
  · rintro rfl
    cases hb
  · rintro rfl
    cases hb

theorem ofBytes?_append_name : ofBytes? (sign ++ name) = special? (sign ++ name) := by
  obtain ⟨b, later, rfl, hb⟩ := isNumberByte_of_spells hname hword
  unfold ofBytes?
  split
  · rename_i literal htake
    obtain ⟨text, htext, hdecimal⟩ := exists_of_takeNumber? htake
    rw [List.append_nil] at htext
    have hnumber := hdecimal.isNumberByte b (htext ▸ by simp)
    rw [hb] at hnumber
    cases hnumber
  · rfl

end

theorem IsNumeral.ofBytes?_eq {literal : Literal} (h : IsNumeral text literal) :
    ofBytes? text = some literal := by
  cases h with
  | decimal h => exact h.ofBytes?_eq
  | @infinite sign name negative word hsign hword hname =>
      have hmem : word ∈ ["inf", "infinity", "nan"] :=
        List.mem_append_left ["nan"] hword
      rw [ofBytes?_append_name hname hmem, special?, takeSign_append_name hname hmem hsign]
      simp only [List.mem_cons, List.not_mem_nil, or_false] at hword
      rcases hword with rfl | rfl <;> simp [hname]
  | @nan sign name negative hsign hname =>
      have hmem : "nan" ∈ ["inf", "infinity", "nan"] := by decide
      rw [ofBytes?_append_name hname hmem, special?, takeSign_append_name hname hmem hsign]
      have hother : ∀ word ∈ ["inf", "infinity"], spells name word = false := by
        have hne : ∀ word ∈ ["inf", "infinity"],
            Utf8.encode "nan".toList ≠ Utf8.encode word.toList := by
          decide +kernel
        intro word hword
        rw [spells, beq_iff_eq.mp hname]
        exact beq_eq_false_iff_ne.mpr (hne word hword)
      simp [hother, hname]

theorem ofBytes?_eq_some_iff {literal : Literal} :
    ofBytes? text = some literal ↔ IsNumeral text literal := by
  refine ⟨?_, IsNumeral.ofBytes?_eq⟩
  intro h
  unfold ofBytes? at h
  split at h
  · rename_i found htake
    cases h
    obtain ⟨taken, htext, hdecimal⟩ := exists_of_takeNumber? htake
    rw [List.append_nil] at htext
    exact htext ▸ .decimal hdecimal
  · obtain ⟨sign, htext, hsign⟩ := exists_takeSign text
    simp only [special?] at h
    split at h
    · rename_i hname
      cases h
      rw [Bool.or_eq_true] at hname
      have hnumeral : IsNumeral (sign ++ (takeSign text).2) (.infinite (takeSign text).1) := by
        rcases hname with hname | hname
        · exact .infinite hsign (by decide) hname
        · exact .infinite hsign (by decide) hname
      rwa [← htext] at hnumeral
    · split at h
      · rename_i hname
        cases h
        have hnumeral := IsNumeral.nan hsign hname
        rwa [← htext] at hnumeral
      · cases h

end Literal

/-! ## Fields of a line -/

namespace Reader

open Literal (IsDecimal IsWhole)

/--
A step that looks for a field at a place takes a text that fits there, and goes on behind it. Where
it takes none it stays at the place, and reports what is missing.
-/
structure Takes {β : Type} (step : Result β) (place : Nat) (bytes : List UInt8) (m : Mismatch)
    (fits : List UInt8 → β → Prop) : Prop where
  ok_iff : ∀ value next, step = (.ok value, next) ↔
    ∃ text rest, bytes = text ++ rest ∧ fits text value ∧ next = ⟨place + text.length, rest⟩
  error : ∀ e next, step = (.error e, next) → e = m ∧ next = ⟨place, bytes⟩

theorem takes_of_take? {β : Type} {r : Reader} {take? : List UInt8 → Option (β × List UInt8)}
    {fits : List UInt8 → β → Prop} {step : Result β} {m : Mismatch}
    (htake : ∀ value rest, take? r.rest = some (value, rest) ↔
      ∃ text, r.rest = text ++ rest ∧ fits text value)
    (hstep : step = match take? r.rest with
      | some (value, rest) => (.ok value, r.leaving rest)
      | none => (.error m, r)) :
    Takes step r.position r.rest m fits := by
  constructor
  · intro value next
    constructor
    · intro hok
      rw [hstep] at hok
      split at hok
      · rename_i found rest hfound
        cases hok
        obtain ⟨text, hrest, hfits⟩ := (htake value rest).mp hfound
        exact ⟨text, rest, hrest, hfits, leaving_append hrest⟩
      · cases hok
    · rintro ⟨text, rest, hrest, hfits, rfl⟩
      rw [hstep, (htake value rest).mpr ⟨text, hrest, hfits⟩, ← leaving_append hrest]
  · intro e next herror
    rw [hstep] at herror
    split at herror
    · cases herror
    · cases herror
      exact ⟨rfl, rfl⟩

theorem Takes.exists_ok_iff {β : Type} {step : Result β} {place : Nat} {bytes : List UInt8}
    {m : Mismatch} {fits : List UInt8 → β → Prop} (h : Takes step place bytes m fits) :
    (∃ value next, step = (.ok value, next)) ↔
      ∃ text value, text <+: bytes ∧ fits text value := by
  constructor
  · rintro ⟨value, next, hok⟩
    obtain ⟨text, rest, hbytes, hfits, -⟩ := (h.ok_iff value next).mp hok
    exact ⟨text, value, ⟨rest, hbytes.symm⟩, hfits⟩
  · rintro ⟨text, value, ⟨rest, hbytes⟩, hfits⟩
    exact ⟨value, _, (h.ok_iff value _).mpr ⟨text, rest, hbytes.symm, hfits, rfl⟩⟩

theorem takes_number (r : Reader) (field : Option Nat) :
    Takes (r.number field) r.skipBlanks.position r.skipBlanks.rest
      (r.skipBlanks.mismatch field .number) (Longest IsDecimal r.skipBlanks.rest) :=
  takes_of_take? (fun _ _ => Literal.greedy_takeNumber?.eq_some_iff) (by
    simp only [number]
    cases Literal.takeNumber? r.skipBlanks.rest <;> rfl)

theorem takes_integer (r : Reader) (field : Option Nat) :
    Takes (r.integer field) r.skipBlanks.position r.skipBlanks.rest
      (r.skipBlanks.mismatch field .integer)
      (fun text value => Longest IsWhole r.skipBlanks.rest text value.toInt) :=
  takes_of_take? (fun _ _ => Literal.takeInteger?_eq_some_iff) (by
    simp only [integer]
    cases Literal.takeInteger? r.skipBlanks.rest <;> rfl)

/-- A mark with a sign and no digits behind it is left to the line. -/
example :
    (start "x: 1.e+".toList 2).number none = (.ok (.decimal false 1 0), ⟨5, [0x65, 0x2B]⟩) := by
  decide +kernel

end Reader
end PenScript
