import PenScript.Proofs.Mismatches

/-!
# Where a reader can stand

A reader is asked for one thing after the other, whether or not it was given the last one. It never
goes back and never past the end of the line. Between two characters it always comes to stand between
two characters, so that it finds the text before a quote whenever there is a quote. Inside a character
it does not move at all, and nothing that it is asked for is there.
-/

set_option autoImplicit false

namespace PenScript

/-! ## Bytes inside characters -/

namespace Utf8

/-- A byte that carries a character on and begins none. -/
def Continues (b : UInt8) : Prop :=
  0x80 ≤ b ∧ b < 0xC0

variable {b : UInt8}

theorem lead_of_continues (h : Continues b) : lead b = (.boundary, [none]) := by
  have hC2 : b < 0xC2 := UInt8.lt_trans h.2 (by decide)
  rw [lead, if_neg (UInt8.not_lt.mpr h.1), if_pos hC2]

theorem units_of_continues (h : Continues b) (bytes : List UInt8) :
    units (b :: bytes) = none :: read .boundary bytes := by
  rw [units_eq_read, read, step, lead_of_continues h, List.singleton_append]

theorem decode?_of_continues (h : Continues b) (bytes : List UInt8) :
    decode? (b :: bytes) = none := by
  simp [decode?, isValid, units_of_continues h]

theorem not_continues_of_head? (text : List Char) (h : b ∈ (encode text).head?) :
    ¬ Continues b := by
  intro hb
  obtain ⟨bytes, hbytes⟩ := List.head?_eq_some_iff.mp h
  have hunits := units_encode text
  rw [hbytes, units_of_continues hb] at hunits
  cases text with
  | nil => cases hunits
  | cons c text => cases (List.cons.inj hunits).1

theorem continues_of_mem_tail {c : Char} (h : b ∈ (String.utf8EncodeChar c).tail) :
    Continues b := by
  have hcontinues : ∀ n : Nat, Continues (UInt8.ofNat (n % 64 + 128)) := by
    intro n
    have hn : (UInt8.ofNat (n % 64 + 128)).toNat = n % 64 + 128 := toNat_ofNat_of_lt (by omega)
    refine ⟨UInt8.le_iff_toNat_le.mpr ?_, UInt8.lt_iff_toNat_lt.mpr ?_⟩
    · rw [hn]
      exact Nat.le_add_left 128 _
    · rw [hn]
      change n % 64 + 128 < 192
      omega
  unfold String.utf8EncodeChar at h
  dsimp only at h
  split at h
  · cases h
  split at h
  · simp only [List.tail_cons, List.mem_singleton] at h
    exact h ▸ hcontinues _
  split at h
  · simp only [List.tail_cons, List.mem_cons, List.not_mem_nil, or_false] at h
    rcases h with rfl | rfl <;> exact hcontinues _
  · simp only [List.tail_cons, List.mem_cons, List.not_mem_nil, or_false] at h
    rcases h with rfl | rfl | rfl <;> exact hcontinues _

end Utf8

/-- The offset lies between two bytes of one character of the line. -/
def Inside (line : List Char) (offset : Nat) : Prop :=
  ∃ before c after, line = before ++ c :: after ∧ Utf8.size before < offset ∧
    offset < Utf8.size before + c.utf8Size

section

variable {line : List Char} {offset : Nat}

theorem Inside.exists_continues (h : Inside line offset) :
    ∃ b rest, (Utf8.encode line).drop offset = b :: rest ∧ Utf8.Continues b := by
  obtain ⟨before, c, after, rfl, hbefore, hafter⟩ := h
  obtain ⟨n, rfl⟩ := Nat.exists_eq_add_of_lt hbefore
  obtain ⟨first, units, hc⟩ := List.exists_cons_of_ne_nil (Utf8.encodeChar_ne_nil c)
  have hlength : n < units.length := by
    have hsize := String.length_utf8EncodeChar c
    rw [hc, List.length_cons] at hsize
    omega
  obtain ⟨b, rest, hdrop⟩ :=
    List.exists_cons_of_ne_nil (List.drop_eq_nil_iff.not.mpr (Nat.not_le.mpr hlength))
  have hmem : b ∈ (String.utf8EncodeChar c).tail := by
    rw [hc, List.tail_cons]
    exact List.mem_of_mem_drop (hdrop ▸ List.mem_cons_self ..)
  refine ⟨b, rest ++ Utf8.encode after, ?_, Utf8.continues_of_mem_tail hmem⟩
  rw [Utf8.encode_append, Nat.add_assoc, ← Utf8.length_encode, List.drop_length_add_append,
    Utf8.encode_cons, hc, List.cons_append, List.drop_succ_cons,
    List.drop_append_of_le_length (Nat.le_of_lt hlength), hdrop, List.cons_append]

theorem Boundary.not_inside (h : Boundary line offset) : ¬ Inside line offset := by
  intro hinside
  obtain ⟨b, rest, hdrop, hb⟩ := hinside.exists_continues
  obtain ⟨before, after, rfl, rfl⟩ := h
  rw [Utf8.encode_append, ← Utf8.length_encode, List.drop_left] at hdrop
  exact Utf8.not_continues_of_head? after (by rw [hdrop]; rfl) hb

theorem boundary_or_inside (h : offset ≤ Utf8.size line) :
    Boundary line offset ∨ Inside line offset := by
  induction line generalizing offset with
  | nil => exact Or.inl ⟨[], [], rfl, (Nat.le_zero.mp h).symm⟩
  | cons c line ih =>
      rw [Utf8.size_cons] at h
      by_cases hzero : offset = 0
      · exact Or.inl ⟨[], c :: line, rfl, hzero.symm⟩
      · by_cases hfirst : offset < c.utf8Size
        · exact Or.inr ⟨[], c, line, rfl, Nat.pos_of_ne_zero hzero, by simpa using hfirst⟩
        · have hle : offset - c.utf8Size ≤ Utf8.size line := by omega
          rcases ih hle with ⟨before, after, rfl, hsize⟩ | ⟨before, d, after, rfl, hlow, hhigh⟩
          · refine Or.inl ⟨c :: before, after, rfl, ?_⟩
            rw [Utf8.size_cons]
            omega
          · refine Or.inr ⟨c :: before, d, after, rfl, ?_, ?_⟩ <;> rw [Utf8.size_cons] <;> omega

theorem inside_iff (h : offset ≤ Utf8.size line) : Inside line offset ↔ ¬ Boundary line offset :=
  ⟨fun hinside hboundary => hboundary.not_inside hinside,
    fun hboundary => (boundary_or_inside h).resolve_left hboundary⟩

end

namespace Reader

/-! ## Moving on -/

theorem Advances.position_le {r next : Reader} (h : r.Advances next) :
    r.position ≤ next.position := by
  obtain ⟨taken, -, hposition⟩ := h
  exact hposition ▸ Nat.le_add_right ..

theorem advances_untilQuote (r : Reader) : r.Advances r.untilQuote.2 := by
  unfold untilQuote
  split
  · exact .refl r
  · rename_i quote rest hrest
    split
    · have hsplit := List.takeWhile_append_dropWhile (p := (· != 0x22)) (l := r.rest)
      rw [hrest, ← List.singleton_append, ← List.append_assoc] at hsplit
      exact advances_leaving hsplit.symm
    · exact .refl r

/-! ## Readers of one line -/

variable {line : List Char} {r : Reader}

theorem advances_start (line : List Char) (offset : Nat) :
    (start line 0).Advances (start line offset) := by
  refine ⟨(Utf8.encode line).take offset, (List.take_append_drop ..).symm, ?_⟩
  simp [start]

/-- A reader that has come from the front of a line is known by its place. -/
theorem Advances.eq_start (h : (start line 0).Advances r) : r = start line r.position := by
  obtain ⟨taken, hrest, hposition⟩ := h
  obtain ⟨position, rest⟩ := r
  have hbytes : Utf8.encode line = taken ++ rest := hrest
  have htaken : position = taken.length := by simpa [start] using hposition
  simp [start, hbytes, htaken]

theorem Advances.position_le_size (h : (start line 0).Advances r) :
    r.position ≤ Utf8.size line := by
  rw [← Utf8.length_encode, h.eq_start]
  exact Nat.min_le_right ..

theorem AtBoundary.rest_eq (h : AtBoundary line r) :
    r.rest = (Utf8.encode line).drop r.position := by
  obtain ⟨before, after, rfl, rfl⟩ := h
  rw [Utf8.encode_append, between, ← Utf8.length_encode, List.drop_left]

theorem AtBoundary.untilQuote_eq_none_iff (h : AtBoundary line r) :
    r.untilQuote.1 = none ↔ 0x22 ∉ r.rest := by
  obtain ⟨before, after, rfl, rfl⟩ := h
  by_cases hquote : '"' ∈ after
  · obtain ⟨name, later, rfl, hname⟩ := List.eq_append_cons_of_mem hquote
    rw [untilQuote_between hname]
    simp [between, Utf8.encode_append, encode_quote_cons]
  · rw [untilQuote_between_of_not_mem before hquote]
    refine ⟨fun _ hmem => ?_, fun _ => rfl⟩
    exact absurd (ne_quote_of_mem_encode hquote hmem) (by decide)

/-! ## One thing after the other -/

/-- What a reader can be asked for. -/
inductive Operation where
  | blanks
  | char (c : Char)
  | integer (field : Option Nat)
  | number (field : Option Nat)
  | untilQuote
  deriving DecidableEq, Repr

/-- What a reader gives. -/
inductive Taken where
  | blanks
  | char
  | integer (value : Int32)
  | number (literal : Literal)
  | text (text : List Char)
  deriving DecidableEq, Repr

/-- What a step gives, or the mismatch it tells of. -/
def told {β : Type} (step : Result β) (taken : β → Taken) :
    Except (Option Mismatch) Taken × Reader :=
  ((step.1.map taken).mapError some, step.2)

/-- Do as asked. There is a mismatch to tell of wherever something is missing, but for a quote. -/
def perform (r : Reader) : Operation → Except (Option Mismatch) Taken × Reader
  | .blanks => (.ok .blanks, r.skipBlanks)
  | .char c => told (r.char c) fun _ => .char
  | .integer field => told (r.integer field) .integer
  | .number field => told (r.number field) .number
  | .untilQuote =>
      match r.untilQuote with
      | (some text, next) => (.ok (.text text), next)
      | (none, next) => (.error none, next)

/-- What was asked of a reader and came of it, and how the reader stood before and after. -/
structure Turn where
  before : Reader
  operation : Operation
  result : Except (Option Mismatch) Taken
  after : Reader

def Turn.Failed (t : Turn) : Prop :=
  ∃ e, t.result = .error e

def turn (r : Reader) (operation : Operation) : Turn :=
  ⟨r, operation, (r.perform operation).1, (r.perform operation).2⟩

/-- The turns of a reader that is asked for one thing after the other. -/
def turns (r : Reader) : List Operation → List Turn
  | [] => []
  | operation :: later => r.turn operation :: (r.turn operation).after.turns later

/-- The places that it comes to stand at, the first one included. -/
def places (r : Reader) (operations : List Operation) : List Nat :=
  r.position :: (r.turns operations).map (·.after.position)

/-- Whatever holds of a reader and is kept in each turn holds before every turn. -/
theorem exists_of_mem_turns {P : Reader → Prop}
    (hstep : ∀ r operation, P r → P (r.turn operation).after) (h : P r)
    {operations : List Operation} {t : Turn} (ht : t ∈ r.turns operations) :
    ∃ middle operation, P middle ∧ t = middle.turn operation := by
  induction operations generalizing r with
  | nil => cases ht
  | cons operation later ih =>
      rcases List.mem_cons.mp ht with rfl | ht
      · exact ⟨r, operation, h, rfl⟩
      · exact ih (hstep r operation h) ht

/-! ### No way back -/

theorem advances_turn (r : Reader) (operation : Operation) :
    r.Advances (r.turn operation).after := by
  cases operation with
  | blanks => exact r.advances_skipBlanks
  | char c => exact r.advances_char c
  | integer field => exact r.advances_integer field
  | number field => exact r.advances_number field
  | untilQuote =>
      have hadvances := r.advances_untilQuote
      simp only [turn, perform]
      split <;> rename_i hquote <;> rwa [hquote] at hadvances

theorem advances_of_mem_turns {operations : List Operation} {t : Turn}
    (ht : t ∈ r.turns operations) : r.Advances t.after := by
  obtain ⟨middle, operation, hmiddle, rfl⟩ := exists_of_mem_turns
    (fun middle operation h => Advances.trans h (middle.advances_turn operation)) (.refl r) ht
  exact hmiddle.trans (middle.advances_turn operation)

theorem pairwise_places (r : Reader) (operations : List Operation) :
    (r.places operations).Pairwise (· ≤ ·) := by
  induction operations generalizing r with
  | nil => exact List.pairwise_singleton ..
  | cons operation later ih =>
      refine List.Pairwise.cons ?_ (ih (r.turn operation).after)
      intro place hplace
      obtain ⟨t, ht, rfl⟩ := List.mem_map.mp hplace
      exact (advances_of_mem_turns ht).position_le

/-! ### Between characters -/

theorem AtBoundary.turn (h : AtBoundary line r) (operation : Operation) :
    AtBoundary line (r.turn operation).after := by
  cases operation with
  | blanks => exact h.skipBlanks
  | char c => exact h.char c
  | integer field => exact h.integer field
  | number field => exact h.number field
  | untilQuote =>
      have hafter := h.untilQuote
      simp only [Reader.turn, perform]
      split <;> rename_i hquote <;> rwa [hquote] at hafter

theorem AtBoundary.failed_untilQuote_iff (h : AtBoundary line r) :
    (r.turn .untilQuote).Failed ↔ 0x22 ∉ r.rest := by
  rw [← h.untilQuote_eq_none_iff]
  simp only [Turn.Failed, Reader.turn, perform]
  split <;> rename_i hquote <;> simp [hquote]

/-! ### Inside a character -/

theorem turn_of_told {β : Type} {step : Result β} {m : Mismatch} {taken : β → Taken}
    {operation : Operation} (hperform : r.perform operation = told step taken)
    (hstep : step = (.error m, r)) :
    (r.turn operation).after = r ∧ (operation ≠ .blanks → (r.turn operation).Failed) := by
  subst hstep
  simp only [turn, hperform]
  exact ⟨rfl, fun _ => ⟨some m, rfl⟩⟩

section

variable {b : UInt8} {rest : List UInt8} (hb : Utf8.Continues b) (hrest : r.rest = b :: rest)

include hb hrest

theorem skipBlanks_of_continues : r.skipBlanks = r := by
  have hblank : Blank.isBlankByte b = false := by
    rw [← Bool.not_eq_true]
    exact fun h => UInt8.not_lt.mpr hb.1 (Blank.ascii_of_isBlankByte h)
  have hdrop : r.rest.dropWhile Blank.isBlankByte = r.rest := by
    rw [hrest, List.dropWhile_cons_of_neg (by simp [hblank])]
  have hall : r.rest = [] ++ r.rest := rfl
  rw [skipBlanks, hdrop, leaving_append hall]
  rfl

theorem eq_nil_of_numberBytes {text later : List UInt8} (htext : r.rest = text ++ later)
    (hbytes : ∀ d ∈ text, Literal.isNumberByte d) : text = [] := by
  cases text with
  | nil => rfl
  | cons d text =>
      rw [hrest] at htext
      obtain ⟨rfl, -⟩ := List.cons.inj htext
      have hascii := Literal.ascii_of_isNumberByte (hbytes b (List.mem_cons_self ..))
      exact absurd hascii (UInt8.not_lt.mpr hb.1)

theorem char_of_continues (c : Char) : r.char c = (.error (r.mismatch none (.char c)), r) := by
  have hfront : (Utf8.encode [c]).isPrefixOf? r.rest = none := by
    rw [Option.eq_none_iff_forall_ne_some]
    intro later hlater
    rw [List.isPrefixOf?_eq_some_iff_append_eq, hrest] at hlater
    refine Utf8.not_continues_of_head? [c] ?_ hb
    have hne : Utf8.encode [c] ≠ [] := by simp [Utf8.encode]
    rw [← List.head?_append_of_ne_nil _ hne, hlater]
    rfl
  simp only [char, hfront]

theorem integer_of_continues (field : Option Nat) :
    r.integer field = (.error (r.mismatch field .integer), r) := by
  have htake : Literal.takeInteger? r.rest = none := by
    rw [Option.eq_none_iff_forall_ne_some]
    rintro ⟨value, later⟩ hlater
    obtain ⟨text, htext, hinteger⟩ := Literal.exists_of_takeInteger? hlater
    exact hinteger.ne_nil (eq_nil_of_numberBytes hb hrest htext hinteger.isNumberByte)
  simp only [integer, skipBlanks_of_continues hb hrest, htake]

theorem number_of_continues (field : Option Nat) :
    r.number field = (.error (r.mismatch field .number), r) := by
  have htake : Literal.takeNumber? r.rest = none := by
    rw [Option.eq_none_iff_forall_ne_some]
    rintro ⟨literal, later⟩ hlater
    obtain ⟨text, htext, hdecimal⟩ := Literal.exists_of_takeNumber? hlater
    exact hdecimal.ne_nil (eq_nil_of_numberBytes hb hrest htext hdecimal.isNumberByte)
  simp only [number, skipBlanks_of_continues hb hrest, htake]

/-- There may be a quote, but what stands before it is no text. -/
theorem untilQuote_of_continues : r.untilQuote = (none, r) := by
  have hquote : (b != 0x22) = true := by
    rw [bne_iff_ne]
    rintro rfl
    exact absurd hb.1 (by decide)
  have hdecode : Utf8.decode? (r.rest.takeWhile (· != 0x22)) = none := by
    rw [hrest, List.takeWhile_cons_of_pos (p := (· != 0x22)) hquote]
    exact Utf8.decode?_of_continues hb _
  simp only [untilQuote, hdecode]
  split <;> rfl

theorem turn_of_continues (operation : Operation) :
    (r.turn operation).after = r ∧ (operation ≠ .blanks → (r.turn operation).Failed) := by
  cases operation with
  | blanks => exact ⟨skipBlanks_of_continues hb hrest, fun h => absurd rfl h⟩
  | char c => exact turn_of_told rfl (char_of_continues hb hrest c)
  | integer field => exact turn_of_told rfl (integer_of_continues hb hrest field)
  | number field => exact turn_of_told rfl (number_of_continues hb hrest field)
  | untilQuote =>
      have hturn : r.turn .untilQuote = ⟨r, .untilQuote, .error none, r⟩ := by
        simp only [turn, perform, untilQuote_of_continues hb hrest]
      rw [hturn]
      exact ⟨rfl, fun _ => ⟨none, rfl⟩⟩

end

/-! ### Every run -/

/--
Wherever in a line a reader starts, and whatever it is asked for and denied, it never goes back and
never leaves the line. From a place between characters it comes only to such places, and the text
before a quote is denied only where no quote follows. Inside a character it does not move, and it is
denied everything but skipping blanks.
-/
theorem turns_keep_place (line : List Char) (offset : Nat) (operations : List Operation) :
    (∀ place ∈ (start line offset).places operations, place ≤ Utf8.size line) ∧
      ((start line offset).places operations).Pairwise (· ≤ ·) ∧
      (∀ t ∈ (start line offset).turns operations, t.after = start line t.after.position) ∧
      (Inside line (start line offset).position ↔
        ¬ Boundary line (start line offset).position) ∧
      (Boundary line (start line offset).position →
        ∀ t ∈ (start line offset).turns operations, Boundary line t.after.position ∧
          (t.operation = .untilQuote →
            (t.Failed ↔ 0x22 ∉ (Utf8.encode line).drop t.before.position))) ∧
      (Inside line (start line offset).position →
        ∀ t ∈ (start line offset).turns operations, t.after = start line offset ∧
          (t.operation ≠ .blanks → t.Failed)) := by
  have hstart := advances_start line offset
  have hafter : ∀ t ∈ (start line offset).turns operations, (start line 0).Advances t.after :=
    fun t ht => hstart.trans (advances_of_mem_turns ht)
  refine ⟨?_, pairwise_places _ operations, fun t ht => (hafter t ht).eq_start,
    inside_iff hstart.position_le_size, ?_, ?_⟩
  · intro place hplace
    rcases List.mem_cons.mp hplace with rfl | hplace
    · exact hstart.position_le_size
    · obtain ⟨t, ht, rfl⟩ := List.mem_map.mp hplace
      exact (hafter t ht).position_le_size
  · intro hboundary t ht
    have hat : AtBoundary line (start line offset) := by
      rw [hstart.eq_start]
      exact .start hboundary
    obtain ⟨middle, operation, hmiddle, rfl⟩ :=
      exists_of_mem_turns (P := AtBoundary line) (fun _ operation h => h.turn operation) hat ht
    refine ⟨(hmiddle.turn operation).position, ?_⟩
    rintro rfl
    rw [hmiddle.failed_untilQuote_iff, hmiddle.rest_eq]
    rfl
  · intro hinside t ht
    obtain ⟨b, rest, hdrop, hb⟩ := hinside.exists_continues
    have hrest : (start line offset).rest = b :: rest := by
      rw [hstart.eq_start]
      exact hdrop
    have hstep : ∀ r operation, r = start line offset →
        (r.turn operation).after = start line offset := by
      rintro r operation rfl
      exact (turn_of_continues hb hrest operation).1
    obtain ⟨middle, operation, rfl, rfl⟩ := exists_of_mem_turns hstep rfl ht
    exact turn_of_continues hb hrest operation

/-- The quotes are of no use to a reader that starts behind the first byte of the accented letter. -/
theorem turns_keep_place_around_accent :
    let line := "é\"a\" 7".toList
    Boundary line 0 ∧ Inside line 1 ∧
      (∀ operations, ∀ t ∈ (start line 0).turns operations, Boundary line t.after.position) ∧
      ∀ operations, ∀ t ∈ (start line 1).turns operations,
        t.after = start line 1 ∧ (t.operation ≠ .blanks → t.Failed) := by
  intro line
  have hboundary : Boundary line 0 := ⟨[], line, rfl, rfl⟩
  have hinside : Inside line 1 := ⟨[], 'é', "\"a\" 7".toList, rfl, by decide, by decide⟩
  refine ⟨hboundary, hinside, ?_, ?_⟩
  · intro operations t ht
    obtain ⟨-, -, -, -, hbetween, -⟩ := turns_keep_place line 0 operations
    exact (hbetween hboundary t ht).1
  · intro operations
    obtain ⟨-, -, -, -, -, hwithin⟩ := turns_keep_place line 1 operations
    exact hwithin hinside

end Reader
end PenScript
