import PenScript.Proofs.Lists

/-!
# White space behind a line

A reader of a line with white space behind it reads as it does without. The white space ends a
number and begins no other item, and where blanks are skipped up to the end of the line, more of
them are skipped: a mismatch there has a column so many bytes further to the right.
-/

set_option autoImplicit false

namespace PenScript

/-! ## Numbers at the front -/

namespace Literal

/-- The bytes begin with no byte of a number. -/
def Ends (bytes : List UInt8) : Prop :=
  ∀ b ∈ bytes.head?, isNumberByte b = false

theorem ends_encode_blanks {ws : List Char} (hws : ∀ c ∈ ws, Blank.isBlank c) :
    Ends (Utf8.encode ws) := by
  intro b hb
  rw [← Bool.not_eq_true]
  intro hnumber
  obtain ⟨hlow, hhigh, -⟩ := isPlain_of_isNumberByte hnumber
  have hmem := Utf8.mem_encode hhigh (List.mem_of_mem_head? hb)
  have hvalue := Utf8.toNat_ofNat_of_ascii hhigh
  have hblank : Blank.isBlank (Char.ofNat b.toNat) = false :=
    Blank.isBlank_eq_false (hvalue.symm ▸ hlow) (hvalue.symm ▸ hhigh)
  exact Blank.not_mem_of_blanks hws hblank hmem

section

variable {later : List UInt8} (h : Ends later)

include h

theorem Ends.stops : Stops later := by
  intro b hb
  have hb := h b hb
  simp only [isNumberByte, Bool.or_eq_false_iff, beq_eq_false_iff_ne] at hb
  obtain ⟨⟨⟨⟨⟨hdigit, -⟩, -⟩, hpoint⟩, hcapital⟩, hsmall⟩ := hb
  exact ⟨hdigit, hpoint, hsmall, hcapital⟩

theorem Ends.takeSign_append (first : List UInt8) :
    takeSign (first ++ later) = ((takeSign first).1, (takeSign first).2 ++ later) := by
  cases first with
  | nil =>
      cases later with
      | nil => rfl
      | cons b later =>
          have hb := h b rfl
          simp only [isNumberByte, Bool.or_eq_false_iff, beq_eq_false_iff_ne] at hb
          simp [takeSign, hb]
  | cons b first => exact Literal.takeSign_append (List.cons_ne_nil b first) later

theorem Ends.takeDigits_append (first : List UInt8) :
    (first ++ later).takeWhile isDigit = first.takeWhile isDigit ∧
      (first ++ later).dropWhile isDigit = first.dropWhile isDigit ++ later := by
  have hdigit : ∀ b ∈ later.head?, isDigit b = false := fun b hb => (h.stops b hb).1
  exact ⟨takeWhile_append_of_stop hdigit first, dropWhile_append_of_stop hdigit first⟩

theorem Ends.takeExponent_append (first : List UInt8) :
    takeExponent (first ++ later) = ((takeExponent first).1, (takeExponent first).2 ++ later) := by
  cases first with
  | nil =>
      cases later with
      | nil => rfl
      | cons b later => simp [takeExponent, (h.stops b rfl).2.2]
  | cons b rest =>
      simp only [List.cons_append, takeExponent, h.takeSign_append, h.takeDigits_append]
      split
      · split <;> rfl
      · rfl

theorem Ends.takeNumber?_append (first : List UInt8) :
    takeNumber? (first ++ later) =
      (takeNumber? first).map fun taken => (taken.1, taken.2 ++ later) := by
  simp only [takeNumber?, h.takeSign_append, takeMantissa_append h.stops, h.takeExponent_append]
  split <;> rfl

theorem Ends.takeInteger?_append (first : List UInt8) :
    takeInteger? (first ++ later) =
      (takeInteger? first).map fun taken => (taken.1, taken.2 ++ later) := by
  simp only [takeInteger?, h.takeSign_append, h.takeDigits_append]
  split <;> rfl

end

end Literal

/-! ## Readers -/

namespace Reader

/--
The two readers stand at one place of a line, and behind the line the other has white space. From
the end of the line on, the other may be ahead. What it is ahead and what white space is still to
come are `n` bytes at most.
-/
inductive Trails (n : Nat) : Reader → Reader → Prop where
  | intro (before text : List Char) {ws : List Char} {k : Nat} (hws : ∀ c ∈ ws, Blank.isBlank c)
      (hn : k + Utf8.size ws ≤ n) :
      Trails n (between before text) ((between before (text ++ ws)).shift k)

/-- The steps take the same and the readers go on, or both fail with the same item missing. -/
inductive Result.Trails {β : Type} (n : Nat) : Result β → Result β → Prop where
  | ok (value : β) {r r' : Reader} (h : Reader.Trails n r r') :
      Trails n (.ok value, r) (.ok value, r')
  | error (m : Mismatch) {k : Nat} (hk : k ≤ n) (r r' : Reader) :
      Trails n (.error m, r) (.error (m.shift k), r')

theorem between_append (before text after : List Char) :
    between (before ++ text) after = (between before after).shift (Utf8.size text) := by
  simp only [between, shift, Utf8.size_append]

theorem shift_shift (m k : Nat) (r : Reader) : (r.shift m).shift k = r.shift (m + k) := by
  simp only [shift, Nat.add_assoc]

section

variable {n : Nat} {r r' : Reader}

theorem trails_start (before text : List Char) {ws : List Char}
    (hws : ∀ c ∈ ws, Blank.isBlank c) :
    Trails (Utf8.size ws) (start (before ++ text) (Utf8.size before))
      (start (before ++ text ++ ws) (Utf8.size before)) := by
  rw [List.append_assoc, start_between, start_between]
  exact .intro (k := 0) before text hws (by omega)

/-- An item is missing for the one reader as for the other. -/
theorem Trails.mismatch {β : Type} (h : Trails n r r') (field : Option Nat) (expected : Expected) :
    Result.Trails (β := β) n (.error (r.mismatch field expected), r)
      (.error (r'.mismatch field expected), r') := by
  cases h with
  | @intro before text ws k hws hn =>
      rw [mismatch_shift]
      exact .error _ (by omega) _ _

theorem Trails.leaving {before text ws : List Char} {k : Nat} (hws : ∀ c ∈ ws, Blank.isBlank c)
    (hn : k + Utf8.size ws ≤ n) {p : UInt8 → Bool} (hp : ∀ b, p b → b < 0x80) {rest : List UInt8}
    (hrest : Past p (Utf8.encode text) rest) :
    Trails n ((between before text).leaving rest)
      (((between before (text ++ ws)).shift k).leaving (rest ++ Utf8.encode ws)) := by
  have hascii : Past (· < 0x80) (Utf8.encode text) rest :=
    hrest.mono fun b hb => decide_eq_true (hp b hb)
  obtain ⟨first, later, rfl, rfl⟩ := Utf8.exists_of_past_ascii hascii
  rw [leaving_shift, ← Utf8.encode_append, List.append_assoc, leaving_between, leaving_between]
  exact .intro (before ++ first) later hws hn

theorem Trails.skipBlanks (h : Trails n r r') : Trails n r.skipBlanks r'.skipBlanks := by
  cases h with
  | @intro before text ws k hws hn =>
      have hskip : ∀ text, (between before text).skipBlanks =
          (between before text).leaving ((Utf8.encode text).dropWhile Blank.isBlankByte) :=
        fun _ => rfl
      rw [skipBlanks_shift, hskip, hskip, Utf8.encode_append, List.dropWhile_append,
        ← leaving_shift]
      split
      · -- The line is blank from here on, and some of what is behind it is skipped as well.
        rename_i hempty
        obtain ⟨first, later, rfl, hlater⟩ := Utf8.exists_of_past_ascii
          ((Past.dropWhile Blank.isBlankByte (Utf8.encode ws)).mono fun b hb =>
            decide_eq_true (Blank.ascii_of_isBlankByte hb))
        have htext : (between before text).leaving [] = between (before ++ text) [] := by
          have hleaving := leaving_between before text []
          rwa [List.append_nil] at hleaving
        rw [List.isEmpty_iff.mp hempty, htext, ← hlater, leaving_shift, ← List.append_assoc,
          leaving_between, ← List.append_assoc, between_append _ first, shift_shift]
        refine .intro (before ++ text) [] (fun c hc => hws c (by simp [hc])) ?_
        rw [Utf8.size_append] at hn
        omega
      · exact .leaving hws hn (fun _ => Blank.ascii_of_isBlankByte) (.dropWhile _ _)

theorem char_between_of_head?_ne {c : Char} {after : List Char} (hc : after.head? ≠ some c)
    (before : List Char) :
    (between before after).char c =
      (.error ((between before after).mismatch none (.char c)), between before after) := by
  cases after with
  | nil =>
      obtain ⟨b, bytes, hbytes⟩ := List.exists_cons_of_ne_nil (Utf8.encodeChar_ne_nil c)
      have hencode : Utf8.encode [c] = b :: bytes := by
        rw [Utf8.encode_cons, hbytes]
        exact List.append_nil _
      rw [char, hencode]
      rfl
  | cons d after => exact char_between_of_ne before (fun hd => hc (congrArg some hd)) after

theorem Trails.char (h : Trails n r r') {c : Char} (hc : Blank.isBlank c = false) :
    Result.Trails n (r.char c) (r'.char c) := by
  cases h with
  | @intro before text ws k hws hn =>
      have hblanks : ws.head? ≠ some c := fun hhead =>
        Blank.not_mem_of_blanks hws hc (List.mem_of_mem_head? hhead)
      rw [char_shift]
      by_cases htext : text.head? = some c
      · obtain ⟨text, rfl⟩ := List.head?_eq_some_iff.mp htext
        rw [List.cons_append, char_between, char_between]
        exact .ok () (.intro (before ++ [c]) text hws hn)
      · have hwhole : (text ++ ws).head? ≠ some c := by
          cases text with
          | nil => exact hblanks
          | cons d text => exact htext
        rw [char_between_of_head?_ne htext, char_between_of_head?_ne hwhole]
        exact .error _ (by omega) _ _

/-- The bytes of a number end in front of the white space, and there is one with it or without. -/
theorem Trails.take {β : Type} {take : List UInt8 → Option (β × List UInt8)}
    (happend : ∀ {later : List UInt8}, Literal.Ends later → ∀ first,
      take (first ++ later) = (take first).map fun taken => (taken.1, taken.2 ++ later))
    (hpast : ∀ {bytes rest : List UInt8} {value : β},
      take bytes = some (value, rest) → Past Literal.isNumberByte bytes rest)
    (h : Trails n r r') :
    (take r.rest = none ∧ take r'.rest = none) ∨
      ∃ value rest rest', take r.rest = some (value, rest) ∧ take r'.rest = some (value, rest') ∧
        Trails n (r.leaving rest) (r'.leaving rest') := by
  cases h with
  | @intro before text ws k hws hn =>
      have hrest : (between before text).rest = Utf8.encode text := rfl
      have hrest' : ((between before (text ++ ws)).shift k).rest =
          Utf8.encode text ++ Utf8.encode ws := Utf8.encode_append text ws
      rw [hrest, hrest', happend (Literal.ends_encode_blanks hws)]
      cases htake : take (Utf8.encode text) with
      | none => exact Or.inl ⟨rfl, rfl⟩
      | some taken =>
          exact Or.inr ⟨taken.1, taken.2, _, rfl, rfl,
            .leaving hws hn (fun _ => Literal.ascii_of_isNumberByte) (hpast htake)⟩

theorem Trails.integer (h : Trails n r r') (field : Option Nat) :
    Result.Trails n (r.integer field) (r'.integer field) := by
  have hskip := h.skipBlanks
  rcases hskip.take (fun h => h.takeInteger?_append) Literal.past_of_takeInteger? with
    ⟨hnone, hnone'⟩ | ⟨value, rest, rest', hsome, hsome', hnext⟩
  · simp only [Reader.integer, hnone, hnone']
    exact hskip.mismatch field .integer
  · simp only [Reader.integer, hsome, hsome']
    exact .ok value hnext

theorem Trails.number (h : Trails n r r') (field : Option Nat) :
    Result.Trails n (r.number field) (r'.number field) := by
  have hskip := h.skipBlanks
  rcases hskip.take (fun h => h.takeNumber?_append) Literal.past_of_takeNumber? with
    ⟨hnone, hnone'⟩ | ⟨value, rest, rest', hsome, hsome', hnext⟩
  · simp only [Reader.number, hnone, hnone']
    exact hskip.mismatch field .number
  · simp only [Reader.number, hsome, hsome']
    exact .ok value hnext

theorem Trails.untilQuote (h : Trails n r r') : r'.untilQuote.1 = r.untilQuote.1 := by
  cases h with
  | @intro before text ws k hws hn =>
      have hblanks : '"' ∉ ws := Blank.not_mem_of_blanks hws (by decide)
      rw [untilQuote_shift]
      by_cases hquote : '"' ∈ text
      · obtain ⟨name, after, rfl, hname⟩ := List.eq_append_cons_of_mem hquote
        rw [List.append_assoc, List.cons_append, untilQuote_between hname, untilQuote_between hname]
      · have hwhole : '"' ∉ text ++ ws := by simp [hquote, hblanks]
        rw [untilQuote_between_of_not_mem before hquote,
          untilQuote_between_of_not_mem before hwhole]

end

end Reader

/-! ## Patterns -/

/-- The item asks for no character that is white space. -/
def Item.isVisible : Item → Bool
  | .literal c => !Blank.isBlank c
  | .integer | .number | .blanks => true

namespace Pattern

variable {α : Type} [Scalar α]

def Visible (pattern : Pattern) : Prop :=
  ∀ item ∈ pattern, item.isVisible

theorem readFrom_trails {n : Nat} {pattern : Pattern} (hpattern : pattern.Visible) (index : Nat)
    {r r' : Reader} (h : Reader.Trails n r r') :
    ∃ k ≤ n, (readFrom index pattern r' : Except Mismatch (List (Field α))) =
      (readFrom index pattern r).mapError (Mismatch.shift k) := by
  induction pattern generalizing index r r' with
  | nil => exact ⟨0, Nat.zero_le n, rfl⟩
  | cons item items ih =>
      obtain ⟨hitem, hitems⟩ := List.forall_mem_cons.mp hpattern
      cases item with
      | integer =>
          have hstep := h.integer (some index)
          rw [readFrom, readFrom]
          generalize r.integer (some index) = result at hstep ⊢
          generalize r'.integer (some index) = result' at hstep ⊢
          cases hstep with
          | ok value hnext =>
              obtain ⟨k, hk, hrest⟩ := ih hitems (index + 1) hnext
              exact ⟨k, hk, by simp only [hrest, map_mapError]⟩
          | error m hk => exact ⟨_, hk, rfl⟩
      | number =>
          have hstep := h.number (some index)
          rw [readFrom, readFrom]
          generalize r.number (some index) = result at hstep ⊢
          generalize r'.number (some index) = result' at hstep ⊢
          cases hstep with
          | ok value hnext =>
              obtain ⟨k, hk, hrest⟩ := ih hitems (index + 1) hnext
              exact ⟨k, hk, by simp only [hrest, map_mapError]⟩
          | error m hk => exact ⟨_, hk, rfl⟩
      | literal c =>
          have hc : Blank.isBlank c = false := by simpa [Item.isVisible] using hitem
          have hstep := h.char hc
          rw [readFrom, readFrom]
          generalize r.char c = result at hstep ⊢
          generalize r'.char c = result' at hstep ⊢
          cases hstep with
          | ok value hnext => exact ih hitems index hnext
          | error m hk => exact ⟨_, hk, rfl⟩
      | blanks => exact ih hitems index h.skipBlanks

/-- White space behind a line moves the column of what is missing at most, by its size at most. -/
theorem read_append_blanks {pattern : Pattern} (hpattern : pattern.Visible) {ws : List Char}
    (hws : ∀ c ∈ ws, Blank.isBlank c) (before text : List Char) :
    ∃ k ≤ Utf8.size ws,
      (pattern.read (before ++ text ++ ws) (Utf8.size before) :
          Except Mismatch (List (Field α))) =
        (pattern.read (before ++ text) (Utf8.size before)).mapError (Mismatch.shift k) :=
  readFrom_trails hpattern 0 (Reader.trails_start before text hws)

end Pattern
end PenScript
