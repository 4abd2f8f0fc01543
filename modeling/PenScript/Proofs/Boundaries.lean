import PenScript.Proofs.Literals
import PenScript.Proofs.Repairs

/-!
# Character boundaries

A reader that stands between two characters of a line comes to stand between two others, whatever it
is asked to take: a byte below 0x80 is a character by itself, and no character's bytes begin with
those of another one.
-/

set_option autoImplicit false

namespace PenScript

/-! ## Bytes of whole characters -/

namespace Utf8

theorem encode_cons (c : Char) (text : List Char) :
    encode (c :: text) = String.utf8EncodeChar c ++ encode text :=
  List.flatMap_cons

theorem encodeChar_ne_nil (c : Char) : String.utf8EncodeChar c ≠ [] := by
  intro h
  have hsize := String.length_utf8EncodeChar c
  rw [h] at hsize
  exact Nat.ne_of_gt c.utf8Size_pos hsize.symm

/-- ASCII bytes at the front of a text are characters of it. -/
theorem exists_of_past_ascii {text : List Char} {rest : List UInt8}
    (h : Past (· < 0x80) (encode text) rest) :
    ∃ first later, text = first ++ later ∧ encode later = rest := by
  obtain ⟨bytes, hbytes, hascii⟩ := h
  induction bytes generalizing text with
  | nil => exact ⟨[], text, rfl, hbytes⟩
  | cons b bytes ih =>
      cases text with
      | nil => cases hbytes
      | cons c text =>
          have hb : b < 0x80 := of_decide_eq_true (hascii b (List.mem_cons_self ..))
          rw [encode_cons] at hbytes
          have hmem : b ∈ String.utf8EncodeChar c := by
            obtain ⟨d, units, hc⟩ := List.exists_cons_of_ne_nil (encodeChar_ne_nil c)
            rw [hc] at hbytes ⊢
            exact (List.cons.inj hbytes).1 ▸ List.mem_cons_self ..
          rw [eq_of_mem_encodeChar hb hmem, encodeChar_ascii hb] at hbytes
          obtain ⟨first, later, rfl, hlater⟩ :=
            ih (List.cons.inj hbytes).2 fun d hd => hascii d (List.mem_cons_of_mem b hd)
          exact ⟨c :: first, later, rfl, hlater⟩

/-- A character whose bytes stand at the front of a text is its first character. -/
theorem exists_of_encode_eq_append {c : Char} {text : List Char} {rest : List UInt8}
    (h : encode text = encode [c] ++ rest) : ∃ later, text = c :: later ∧ encode later = rest := by
  have hbytes : encode [c] = String.utf8EncodeChar c := List.append_nil _
  have hunits := units_encode text
  rw [h, hbytes, units_eq_read, read_encodeChar] at hunits
  cases text with
  | nil => cases hunits
  | cons d later =>
      obtain ⟨hc, -⟩ := List.cons.inj hunits
      cases hc
      rw [encode_cons, hbytes] at h
      exact ⟨later, rfl, List.append_cancel_left h⟩

theorem decode?_encode (text : List Char) : decode? (encode text) = some text := by
  have hvalid : isValid (encode text) = true := by simp [isValid, units_encode]
  rw [decode?, if_pos hvalid, decodeLossy_encode]

end Utf8

theorem Blank.ascii_of_isBlankByte {b : UInt8} (h : Blank.isBlankByte b) : b < 0x80 := by
  simp only [Blank.isBlankByte, Bool.or_eq_true, beq_iff_eq] at h
  rcases h with (((rfl | rfl) | rfl) | rfl) | rfl <;> decide

/-! ## Readers between characters -/

namespace Reader

/-- The reader of a line behind the first text and in front of the other. -/
def between (before after : List Char) : Reader :=
  ⟨Utf8.size before, Utf8.encode after⟩

theorem start_between (before after : List Char) :
    start (before ++ after) (Utf8.size before) = between before after := by
  simp only [start, between, Utf8.encode_append, List.length_append, Utf8.length_encode,
    Reader.mk.injEq]
  refine ⟨by omega, ?_⟩
  rw [← Utf8.length_encode, List.drop_left]

theorem leaving_between (before first later : List Char) :
    (between before (first ++ later)).leaving (Utf8.encode later) =
      between (before ++ first) later := by
  simp only [leaving, between, Utf8.encode_append, List.length_append, Utf8.length_encode,
    Utf8.size_append, Reader.mk.injEq, and_true]
  omega

theorem char_between (before : List Char) (c : Char) (after : List Char) :
    (between before (c :: after)).char c = (.ok (), between (before ++ [c]) after) := by
  have hfront : (Utf8.encode [c]).isPrefixOf? (Utf8.encode (c :: after)) =
      some (Utf8.encode after) := by
    rw [List.isPrefixOf?_eq_some_iff_append_eq, ← Utf8.encode_append]
    rfl
  simp only [char, between] at hfront ⊢
  rw [hfront]
  exact congrArg (Prod.mk _) (leaving_between before [c] after)

theorem char_between_of_ne (before : List Char) {c d : Char} (hne : d ≠ c) (after : List Char) :
    (between before (d :: after)).char c =
      (.error ⟨Utf8.size before + 1, none, .char c⟩, between before (d :: after)) := by
  have hfront : (Utf8.encode [c]).isPrefixOf? (Utf8.encode (d :: after)) = none := by
    rw [Option.eq_none_iff_forall_ne_some]
    intro rest hrest
    rw [List.isPrefixOf?_eq_some_iff_append_eq] at hrest
    obtain ⟨later, hlater, -⟩ := Utf8.exists_of_encode_eq_append hrest.symm
    exact hne (List.cons.inj hlater).1
  simp only [char, between, mismatch] at hfront ⊢
  rw [hfront]

/-- Where the bytes left over are fewer each time, the last of them alone decide. -/
theorem leaving_leaving (r : Reader) {middle rest : List UInt8}
    (hmiddle : middle.length ≤ r.rest.length) (hrest : rest.length ≤ middle.length) :
    (r.leaving middle).leaving rest = r.leaving rest := by
  simp only [leaving, Reader.mk.injEq, and_true]
  omega

/-! ### Up to a quote -/

theorem encode_quote_cons (after : List Char) :
    Utf8.encode ('"' :: after) = 0x22 :: Utf8.encode after :=
  rfl

theorem skipBlanks_between_quote (before after : List Char) :
    (between before ('"' :: after)).skipBlanks = between before ('"' :: after) := by
  have hdrop : (between before ('"' :: after)).rest.dropWhile Blank.isBlankByte =
      Utf8.encode ('"' :: after) :=
    List.dropWhile_cons_of_neg (by decide)
  have hleaving := leaving_between before [] ('"' :: after)
  rw [List.nil_append, List.append_nil] at hleaving
  rw [skipBlanks, hdrop, hleaving]

theorem ne_quote_of_mem_encode {text : List Char} (htext : '"' ∉ text) {b : UInt8}
    (hb : b ∈ Utf8.encode text) : (b != 0x22) = true := by
  rw [bne_iff_ne]
  rintro rfl
  exact htext (Utf8.mem_encode (by decide) hb)

section

variable {name : List Char} (hname : '"' ∉ name) (after : List Char)

include hname

theorem takeWhile_encode_quote :
    (Utf8.encode (name ++ '"' :: after)).takeWhile (· != 0x22) = Utf8.encode name := by
  rw [Utf8.encode_append, encode_quote_cons,
    List.takeWhile_append_of_pos fun _ => ne_quote_of_mem_encode hname,
    List.takeWhile_cons_of_neg (by decide), List.append_nil]

theorem dropWhile_encode_quote :
    (Utf8.encode (name ++ '"' :: after)).dropWhile (· != 0x22) = 0x22 :: Utf8.encode after := by
  rw [Utf8.encode_append, encode_quote_cons,
    List.dropWhile_append_of_pos fun _ => ne_quote_of_mem_encode hname,
    List.dropWhile_cons_of_neg (by decide)]

theorem untilQuote_between (before : List Char) :
    (between before (name ++ '"' :: after)).untilQuote =
      (some name, between (before ++ name ++ ['"']) after) := by
  have hleaving := leaving_between before (name ++ ['"']) after
  rw [List.append_assoc, List.singleton_append, ← List.append_assoc] at hleaving
  have hrest : (between before (name ++ '"' :: after)).rest =
      Utf8.encode (name ++ '"' :: after) := rfl
  simp only [untilQuote, hrest, takeWhile_encode_quote hname after,
    dropWhile_encode_quote hname after, Utf8.decode?_encode, hleaving]

end

theorem dropWhile_encode_of_not_mem {after : List Char} (hafter : '"' ∉ after) :
    (Utf8.encode after).dropWhile (· != 0x22) = [] :=
  List.dropWhile_eq_nil_iff.mpr fun _ => ne_quote_of_mem_encode hafter

/-- Reading up to a quote fails for want of a quote only. -/
theorem untilQuote_between_of_not_mem (before : List Char) {after : List Char}
    (hafter : '"' ∉ after) : (between before after).untilQuote = (none, between before after) := by
  have hrest : (between before after).rest = Utf8.encode after := rfl
  simp only [untilQuote, hrest, dropWhile_encode_of_not_mem hafter]

/-! ### Every step -/

/-- The reader stands between two characters of the line, or at one of its ends. -/
def AtBoundary (line : List Char) (r : Reader) : Prop :=
  ∃ before after, line = before ++ after ∧ r = between before after

namespace AtBoundary

variable {line : List Char} {r : Reader} (h : AtBoundary line r)

include h

theorem leaving {p : UInt8 → Bool} (hp : ∀ b, p b → b < 0x80) {rest : List UInt8}
    (hrest : Past p r.rest rest) : AtBoundary line (r.leaving rest) := by
  obtain ⟨before, after, rfl, rfl⟩ := h
  have hascii : Past (· < 0x80) (between before after).rest rest :=
    hrest.mono fun b hb => decide_eq_true (hp b hb)
  obtain ⟨first, later, rfl, rfl⟩ := Utf8.exists_of_past_ascii hascii
  exact ⟨before ++ first, later, (List.append_assoc ..).symm, leaving_between before first later⟩

theorem skipBlanks : AtBoundary line r.skipBlanks :=
  h.leaving (fun _ => Blank.ascii_of_isBlankByte) (.dropWhile _ r.rest)

theorem char (c : Char) : AtBoundary line (r.char c).2 := by
  unfold Reader.char
  split
  · rename_i rest hrest
    obtain ⟨before, after, rfl, rfl⟩ := h
    rw [List.isPrefixOf?_eq_some_iff_append_eq] at hrest
    obtain ⟨later, rfl, rfl⟩ := Utf8.exists_of_encode_eq_append hrest.symm
    exact ⟨before ++ [c], later, by simp, leaving_between before [c] later⟩
  · exact h

theorem integer (field : Option Nat) : AtBoundary line (r.integer field).2 := by
  unfold Reader.integer
  dsimp only
  split
  · rename_i value rest htake
    exact h.skipBlanks.leaving (fun _ => Literal.ascii_of_isNumberByte)
      (Literal.past_of_takeInteger? htake)
  · exact h.skipBlanks

theorem number (field : Option Nat) : AtBoundary line (r.number field).2 := by
  unfold Reader.number
  dsimp only
  split
  · rename_i literal rest htake
    exact h.skipBlanks.leaving (fun _ => Literal.ascii_of_isNumberByte)
      (Literal.past_of_takeNumber? htake)
  · exact h.skipBlanks

theorem untilQuote : AtBoundary line r.untilQuote.2 := by
  obtain ⟨before, after, rfl, rfl⟩ := h
  by_cases hquote : '"' ∈ after
  · obtain ⟨name, later, rfl, hname⟩ := List.eq_append_cons_of_mem hquote
    rw [untilQuote_between hname later before]
    exact ⟨before ++ name ++ ['"'], later, by simp, rfl⟩
  · rw [untilQuote_between_of_not_mem before hquote]
    exact ⟨before, after, rfl, rfl⟩

end AtBoundary
end Reader
end PenScript
