import PenScript.Proofs.Spans
import PenScript.Scan.Pattern

/-!
# Shifted readers

A reader that starts further to the right reads the same. Only the columns that it reports are
shifted by as many bytes as stand before it.
-/

set_option autoImplicit false

namespace PenScript

/-! ## Bytes -/

namespace Utf8

theorem length_encode (text : List Char) : (encode text).length = size text := by
  induction text with
  | nil => rfl
  | cons c text ih =>
      rw [encode] at ih
      simp [encode, ih]

theorem encode_append (first later : List Char) :
    encode (first ++ later) = encode first ++ encode later :=
  List.flatMap_append

end Utf8

/-! ## Columns -/

theorem map_mapError {ε ε' β γ : Type} (f : ε → ε') (g : β → γ) (result : Except ε β) :
    (result.mapError f).map g = (result.map g).mapError f := by
  cases result <;> rfl

def Mismatch.shift (n : Nat) (m : Mismatch) : Mismatch :=
  { m with column := m.column + n }

/-! ## Readers -/

namespace Reader

def shift (n : Nat) (r : Reader) : Reader :=
  { r with position := r.position + n }

def Result.shift {α : Type} (n : Nat) (result : Result α) : Result α :=
  (result.1.mapError (Mismatch.shift n), result.2.shift n)

theorem Result.shift_ok {α : Type} (n : Nat) (value : α) (r : Reader) :
    Result.shift n (.ok value, r) = (.ok value, r.shift n) := rfl

@[simp] theorem rest_shift (n : Nat) (r : Reader) : (r.shift n).rest = r.rest := rfl

@[simp] theorem leaving_shift (n : Nat) (r : Reader) (rest : List UInt8) :
    (r.shift n).leaving rest = (r.leaving rest).shift n := by
  simp only [leaving, shift, Reader.mk.injEq, and_true]
  omega

@[simp] theorem mismatch_shift (n : Nat) (r : Reader) (field : Option Nat) (expected : Expected) :
    (r.shift n).mismatch field expected = (r.mismatch field expected).shift n := by
  simp only [mismatch, shift, Mismatch.shift, Mismatch.mk.injEq, and_true]
  omega

theorem start_append (before line : List Char) (offset : Nat) :
    start (before ++ line) (Utf8.size before + offset) =
      (start line offset).shift (Utf8.size before) := by
  have hdrop : (Utf8.encode before ++ Utf8.encode line).drop (Utf8.size before + offset) =
      (Utf8.encode line).drop offset := by
    rw [← Utf8.length_encode, List.drop_length_add_append]
  simp only [start, shift, Utf8.encode_append, hdrop, List.length_append, Utf8.length_encode,
    Reader.mk.injEq, and_true]
  omega

@[simp] theorem skipBlanks_shift (n : Nat) (r : Reader) :
    (r.shift n).skipBlanks = r.skipBlanks.shift n :=
  leaving_shift n r _

theorem char_shift (n : Nat) (r : Reader) (c : Char) :
    (r.shift n).char c = (r.char c).shift n := by
  simp only [char, rest_shift, leaving_shift, mismatch_shift]
  cases (Utf8.encode [c]).isPrefixOf? r.rest <;> rfl

theorem integer_shift (n : Nat) (r : Reader) (field : Option Nat) :
    (r.shift n).integer field = (r.integer field).shift n := by
  simp only [integer, skipBlanks_shift, rest_shift, leaving_shift, mismatch_shift]
  cases Literal.takeInteger? r.skipBlanks.rest <;> rfl

theorem number_shift (n : Nat) (r : Reader) (field : Option Nat) :
    (r.shift n).number field = (r.number field).shift n := by
  simp only [number, skipBlanks_shift, rest_shift, leaving_shift, mismatch_shift]
  cases Literal.takeNumber? r.skipBlanks.rest <;> rfl

theorem untilQuote_shift (n : Nat) (r : Reader) :
    (r.shift n).untilQuote = (r.untilQuote.1, r.untilQuote.2.shift n) := by
  simp only [untilQuote, rest_shift, leaving_shift]
  cases r.rest.dropWhile (· != 0x22) with
  | nil => rfl
  | cons quote rest => cases Utf8.decode? (r.rest.takeWhile (· != 0x22)) <;> rfl

end Reader

/-! ## Patterns -/

namespace Pattern

variable {α : Type} [Scalar α]

theorem readFrom_shift (n index : Nat) (pattern : Pattern) (r : Reader) :
    (readFrom index pattern (r.shift n) : Except Mismatch (List (Field α))) =
      (readFrom index pattern r).mapError (Mismatch.shift n) := by
  induction pattern generalizing index r with
  | nil => rfl
  | cons item items ih =>
      cases item with
      | integer =>
          rw [readFrom, readFrom, Reader.integer_shift]
          rcases r.integer (some index) with ⟨_ | value, r⟩
          · rfl
          · simp only [Reader.Result.shift_ok, ih]
            exact map_mapError _ _ _
      | number =>
          rw [readFrom, readFrom, Reader.number_shift]
          rcases r.number (some index) with ⟨_ | value, r⟩
          · rfl
          · simp only [Reader.Result.shift_ok, ih]
            exact map_mapError _ _ _
      | literal c =>
          rw [readFrom, readFrom, Reader.char_shift]
          rcases r.char c with ⟨_ | _, r⟩
          · rfl
          · exact ih index r
      | blanks =>
          rw [readFrom, readFrom, Reader.skipBlanks_shift]
          exact ih index r.skipBlanks

/-- Reading from a place in a line does not depend on what stands before it. -/
theorem read_append (pattern : Pattern) (before line : List Char) (offset : Nat) :
    (pattern.read (before ++ line) (Utf8.size before + offset) :
        Except Mismatch (List (Field α))) =
      (pattern.read line offset).mapError (Mismatch.shift (Utf8.size before)) := by
  rw [read, read, Reader.start_append, readFrom_shift]

end Pattern
end PenScript
