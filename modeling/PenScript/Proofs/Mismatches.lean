import PenScript.Proofs.Descriptions

/-!
# What a mismatch tells

A scan that fails names the first item of its pattern that it could not take, and the column where
that item is missing. The items in front of it were taken, and they describe all that stands before
the column; a field has its blanks in front of it as well.
-/

set_option autoImplicit false

namespace PenScript

/-! ## Missing items -/

namespace Literal

/-- Every signed run of digits that ends at no further digit is out of the bounds of 32 bits. -/
def LacksInteger (bytes : List UInt8) : Prop :=
  ∀ (sign digits rest : List UInt8) (negative : Bool), bytes = sign ++ (digits ++ rest) →
    IsSign sign negative → IsDigits digits → digits ≠ [] →
    (∀ b ∈ rest.head?, isDigit b = false) →
    signed negative (digitsValue digits) < -2 ^ 31 ∨ 2 ^ 31 ≤ signed negative (digitsValue digits)

def LacksNumber (bytes : List UInt8) : Prop :=
  ∀ (text rest : List UInt8) (literal : Literal), bytes = text ++ rest → ¬ IsDecimal text literal

theorem isInt32_iff {n : Int} : isInt32 n ↔ -2 ^ 31 ≤ n ∧ n < 2 ^ 31 := by
  have hmin : Int32.minValue.toInt = -2 ^ 31 := by decide
  have hmax : Int32.maxValue.toInt = 2 ^ 31 - 1 := by decide
  rw [isInt32, Bool.and_eq_true, decide_eq_true_eq, decide_eq_true_eq, hmin, hmax]
  omega

variable {bytes : List UInt8}

theorem lacksInteger_of_takeInteger? (h : takeInteger? bytes = none) : LacksInteger bytes := by
  rintro sign digits rest negative rfl hsign hdigits hne hrest
  by_contra hbounds
  have hfits : isInt32 (signed negative (digitsValue digits)) := isInt32_iff.mpr (by omega)
  have htake := (IsInteger.parts hsign hdigits hne (toInt_ofInt hfits)).takeInteger?_append hrest
  rw [List.append_assoc, h] at htake
  cases htake

theorem takeMantissa_fst (bytes : List UInt8) :
    (takeMantissa bytes).1 = bytes.takeWhile isDigit := by
  unfold takeMantissa
  cases bytes.dropWhile isDigit with
  | nil => rfl
  | cons b rest =>
      simp only
      split <;> rfl

theorem IsDigits.takeWhile_ne_nil {digits : List UInt8} (h : IsDigits digits) (hne : digits ≠ [])
    (rest : List UInt8) : (digits ++ rest).takeWhile isDigit ≠ [] := by
  rw [List.takeWhile_append_of_pos h]
  exact List.append_ne_nil_of_left_ne_nil hne _

/-- However a mantissa goes on, digits are taken of it. -/
theorem IsMantissa.takeMantissa_ne_nil {text whole fraction : List UInt8}
    (h : IsMantissa text whole fraction) (rest : List UInt8) :
    (takeMantissa (text ++ rest)).1 ≠ [] ∨ (takeMantissa (text ++ rest)).2.1 ≠ [] := by
  cases h with
  | whole hwhole hne =>
      left
      rw [takeMantissa_fst]
      exact hwhole.takeWhile_ne_nil hne rest
  | @point whole fraction hwhole hfraction hne =>
      by_cases hempty : whole = []
      · subst hempty
        exact Or.inr (hfraction.takeWhile_ne_nil hne rest)
      · left
        rw [takeMantissa_fst, List.append_assoc]
        exact hwhole.takeWhile_ne_nil hempty _

theorem lacksNumber_of_takeNumber? (h : takeNumber? bytes = none) : LacksNumber bytes := by
  rintro text rest literal rfl hdecimal
  cases hdecimal with
  | @parts sign mantissa whole fraction exponent negative value hsign hmantissa hexponent =>
      have hhead := hmantissa.head?_ne (exponent ++ rest)
      have hdigits := hmantissa.takeMantissa_ne_nil (exponent ++ rest)
      simp only [takeNumber?, List.append_assoc, hsign.takeSign_append hhead] at h
      split at h
      · rename_i hempty
        simp only [Bool.and_eq_true, List.isEmpty_iff] at hempty
        exact hdigits.elim (absurd hempty.1) (absurd hempty.2)
      · cases h

end Literal

namespace Item

/-- The bytes do not begin with what the item asks for. A field is looked for past the blanks. -/
inductive Missing : Item → List UInt8 → Prop where
  | integer {bytes : List UInt8} (hblank : ∀ b ∈ bytes.head?, Blank.isBlankByte b = false)
      (h : Literal.LacksInteger bytes) : Missing .integer bytes
  | number {bytes : List UInt8} (hblank : ∀ b ∈ bytes.head?, Blank.isBlankByte b = false)
      (h : Literal.LacksNumber bytes) : Missing .number bytes
  | literal {c : Char} {bytes : List UInt8} (h : ¬ Utf8.encode [c] <+: bytes) :
      Missing (.literal c) bytes

/-- What is reported when the item is missing; blanks never are. -/
def expected? : Item → Option Expected
  | .integer => some .integer
  | .number => some .number
  | .literal c => some (.char c)
  | .blanks => none

end Item

/-! ## Places of readers -/

namespace Reader

/-- The place where the bytes end. -/
def stop (r : Reader) : Nat :=
  r.position + r.rest.length

/-- The bytes in front of the first reader begin with those that the second one has gone past. -/
def Advances (r next : Reader) : Prop :=
  ∃ taken, r.rest = taken ++ next.rest ∧ next.position = r.position + taken.length

namespace Advances

variable {r middle next : Reader}

theorem refl (r : Reader) : r.Advances r :=
  ⟨[], rfl, rfl⟩

theorem trans (h : r.Advances middle) (h' : middle.Advances next) : r.Advances next := by
  obtain ⟨first, hfirst, hmiddle⟩ := h
  obtain ⟨later, hlater, hnext⟩ := h'
  refine ⟨first ++ later, ?_, ?_⟩
  · rw [hfirst, hlater, List.append_assoc]
  · rw [hnext, hmiddle, List.length_append, Nat.add_assoc]

theorem stop_eq (h : r.Advances next) : next.stop = r.stop := by
  obtain ⟨taken, hrest, hposition⟩ := h
  rw [stop, stop, hposition, hrest, List.length_append, Nat.add_assoc]

end Advances

theorem leaving_append {r : Reader} {text rest : List UInt8} (h : r.rest = text ++ rest) :
    r.leaving rest = ⟨r.position + text.length, rest⟩ := by
  simp only [leaving, h, List.length_append, Nat.add_sub_cancel]

theorem advances_leaving {r : Reader} {text rest : List UInt8} (h : r.rest = text ++ rest) :
    r.Advances (r.leaving rest) := by
  rw [leaving_append h]
  exact ⟨text, h, rfl⟩

theorem advances_past {r : Reader} {p : UInt8 → Bool} {rest : List UInt8}
    (h : Past p r.rest rest) : r.Advances (r.leaving rest) := by
  obtain ⟨text, hrest, -⟩ := h
  exact advances_leaving hrest

theorem advances_skipBlanks (r : Reader) : r.Advances r.skipBlanks :=
  advances_past (.dropWhile _ r.rest)

theorem head?_skipBlanks (r : Reader) :
    ∀ b ∈ r.skipBlanks.rest.head?, Blank.isBlankByte b = false := by
  intro b hb
  have hstop := List.head?_dropWhile_not Blank.isBlankByte r.rest
  rw [skipBlanks, leaving, Option.mem_def] at hb
  simpa [hb] using hstop

theorem advances_char (r : Reader) (c : Char) : r.Advances (r.char c).2 := by
  unfold char
  split
  · rename_i rest hrest
    exact advances_leaving (List.isPrefixOf?_eq_some_iff_append_eq.mp hrest).symm
  · exact .refl r

theorem advances_integer (r : Reader) (field : Option Nat) :
    r.Advances (r.integer field).2 := by
  unfold integer
  dsimp only
  split
  · rename_i value rest htake
    exact r.advances_skipBlanks.trans (advances_past (Literal.past_of_takeInteger? htake))
  · exact r.advances_skipBlanks

theorem advances_number (r : Reader) (field : Option Nat) :
    r.Advances (r.number field).2 := by
  unfold number
  dsimp only
  split
  · rename_i literal rest htake
    exact r.advances_skipBlanks.trans (advances_past (Literal.past_of_takeNumber? htake))
  · exact r.advances_skipBlanks

/-- A field that is not there is missing past the blanks. -/
theorem missing_of_integer {r next : Reader} {field : Option Nat} {m : Mismatch}
    (h : r.integer field = (.error m, next)) :
    m = r.skipBlanks.mismatch field .integer ∧ Item.integer.Missing r.skipBlanks.rest := by
  simp only [integer] at h
  split at h
  · cases h
  · rename_i htake
    cases h
    exact ⟨rfl, .integer (head?_skipBlanks r) (Literal.lacksInteger_of_takeInteger? htake)⟩

theorem missing_of_number {r next : Reader} {field : Option Nat} {m : Mismatch}
    (h : r.number field = (.error m, next)) :
    m = r.skipBlanks.mismatch field .number ∧ Item.number.Missing r.skipBlanks.rest := by
  simp only [number] at h
  split at h
  · cases h
  · rename_i htake
    cases h
    exact ⟨rfl, .number (head?_skipBlanks r) (Literal.lacksNumber_of_takeNumber? htake)⟩

theorem missing_of_char {r next : Reader} {c : Char} {m : Mismatch}
    (h : r.char c = (.error m, next)) :
    m = r.mismatch none (.char c) ∧ (Item.literal c).Missing r.rest := by
  simp only [char] at h
  split at h
  · cases h
  · rename_i hfront
    cases h
    refine ⟨rfl, .literal ?_⟩
    rintro ⟨rest, hrest⟩
    rw [List.isPrefixOf?_eq_some_iff_append_eq.mpr hrest] at hfront
    cases hfront

end Reader

/-! ## Failing scans -/

theorem eq_error_of_map {ε β γ : Type} {f : β → γ} {result : Except ε β} {e : ε}
    (h : result.map f = .error e) : result = .error e := by
  cases result with
  | error e' => exact congrArg Except.error (Except.error.inj h)
  | ok b => cases h

namespace Pattern

variable {α : Type} [Scalar α]

variable (α) in
/--
From the reader on, counting fields from `index`, the items before some item are taken, and describe
the bytes that they take; the item itself is missing, for a field past the blanks that come next.
-/
inductive Fails (index : Nat) (r : Reader) (m : Mismatch) : Pattern → Prop where
  | item (before : Pattern) {after : Pattern} {item : Item} {fields : List (Field α)}
      (text ws : List UInt8) {rest : List UInt8} (hread : readFrom index before r = .ok fields)
      (hdescribes : Describes before text fields) (hws : ∀ b ∈ ws, Blank.isBlankByte b)
      (hfield : item.isField = false → ws = []) (hrest : r.rest = text ++ (ws ++ rest))
      (hmissing : item.Missing rest) (hexpected : item.expected? = some m.expected)
      (hindex : m.field = if item.isField then some (index + fields.length) else none)
      (hcolumn : m.column = r.position + (text.length + ws.length) + 1) :
      Fails index r m (before ++ item :: after)

/-- Where an item is taken, the scan fails as the rest of it does from there on. -/
theorem Fails.cons {index : Nat} {r next : Reader} {m : Mismatch} {item : Item} {items : Pattern}
    (taken : List UInt8) (new : List (Field α)) (hrest : r.rest = taken ++ next.rest)
    (hstop : next.stop = r.stop)
    (hread : ∀ {before : Pattern} {fields : List (Field α)},
      readFrom (index + new.length) before next = .ok fields →
        readFrom index (item :: before) r = .ok (new ++ fields))
    (hdescribes : ∀ {before : Pattern} {text : List UInt8} {fields : List (Field α)},
      Describes before text fields → Describes (item :: before) (taken ++ text) (new ++ fields))
    (h : Fails α (index + new.length) next m items) : Fails α index r m (item :: items) := by
  cases h with
  | @item before after failing fields text ws rest hbefore hdescribe hws hfield hnext hmissing
      hexpected hindex hcolumn =>
      refine .item _ _ ws (hread hbefore) (hdescribes hdescribe) hws hfield ?_ hmissing hexpected
        ?_ ?_
      · rw [hrest, hnext, List.append_assoc]
      · rw [hindex, List.length_append, Nat.add_assoc]
      · rw [Reader.stop, Reader.stop, hrest, List.length_append] at hstop
        rw [hcolumn, List.length_append]
        omega

theorem Fails.field {index : Nat} {r : Reader} {m : Mismatch} {item : Item} {expected : Expected}
    (hfield : item.isField) (hexpected : item.expected? = some expected)
    (hm : m = r.skipBlanks.mismatch (some index) expected)
    (hmissing : item.Missing r.skipBlanks.rest) (items : Pattern) :
    Fails α index r m (item :: items) := by
  subst hm
  obtain ⟨ws, hrest, hws⟩ := Past.dropWhile Blank.isBlankByte r.rest
  have hskipped : r.rest = ws ++ r.skipBlanks.rest := hrest
  have hstop := r.advances_skipBlanks.stop_eq
  rw [Reader.stop, Reader.stop, hskipped, List.length_append] at hstop
  refine .item [] [] ws rfl .nil hws ?_ hskipped hmissing hexpected ?_ ?_
  · intro hliteral
    rw [hfield] at hliteral
    cases hliteral
  · rw [if_pos hfield]
    rfl
  · show r.skipBlanks.position + 1 = r.position + (0 + ws.length) + 1
    omega

theorem fails_of_readFrom {index : Nat} {pattern : Pattern} {r : Reader} {m : Mismatch}
    (h : (readFrom index pattern r : Except Mismatch (List (Field α))) = .error m) :
    Fails α index r m pattern := by
  induction pattern generalizing index r with
  | nil => cases h
  | cons item items ih =>
      cases item with
      | integer =>
          rw [readFrom] at h
          split at h
          · rename_i value next hinteger
            obtain ⟨ws, text, hrest, hws, htext⟩ := Reader.exists_of_integer hinteger
            have hstop := (r.advances_integer (some index)).stop_eq
            rw [hinteger] at hstop
            refine .cons (ws ++ text) [.integer value] ?_ hstop ?_ ?_ (ih (eq_error_of_map h))
            · rw [hrest, List.append_assoc]
            · intro before fields hread
              rw [List.length_singleton] at hread
              simp only [readFrom, hinteger, hread]
              rfl
            · intro before later fields hlater
              rw [List.append_assoc]
              exact .integer hws htext hlater
          · rename_i e next hinteger
            cases h
            obtain ⟨hm, hmissing⟩ := Reader.missing_of_integer hinteger
            exact .field rfl rfl hm hmissing items
      | number =>
          rw [readFrom] at h
          split at h
          · rename_i literal next hnumber
            obtain ⟨ws, text, hrest, hws, htext⟩ := Reader.exists_of_number hnumber
            have hstop := (r.advances_number (some index)).stop_eq
            rw [hnumber] at hstop
            refine .cons (ws ++ text) [.number (Scalar.ofLiteral literal)] ?_ hstop ?_ ?_
              (ih (eq_error_of_map h))
            · rw [hrest, List.append_assoc]
            · intro before fields hread
              rw [List.length_singleton] at hread
              simp only [readFrom, hnumber, hread]
              rfl
            · intro before later fields hlater
              rw [List.append_assoc]
              exact .number hws htext hlater
          · rename_i e next hnumber
            cases h
            obtain ⟨hm, hmissing⟩ := Reader.missing_of_number hnumber
            exact .field rfl rfl hm hmissing items
      | literal c =>
          rw [readFrom] at h
          split at h
          · rename_i value next hchar
            have hstop := (r.advances_char c).stop_eq
            rw [hchar] at hstop
            refine .cons _ [] (Reader.rest_of_char hchar) hstop ?_ ?_ (ih h)
            · intro before fields hread
              simp only [readFrom, hchar]
              exact hread
            · intro before later fields hlater
              exact .literal c hlater
          · rename_i e next hchar
            cases h
            obtain ⟨rfl, hmissing⟩ := Reader.missing_of_char hchar
            exact .item [] [] [] rfl .nil (List.forall_mem_nil _) (fun _ => rfl) rfl hmissing rfl
              rfl rfl
      | blanks =>
          obtain ⟨ws, hrest, hws⟩ := Past.dropWhile Blank.isBlankByte r.rest
          refine .cons ws [] hrest r.advances_skipBlanks.stop_eq ?_ ?_ (ih h)
          · intro before fields hread
            exact hread
          · intro before later fields hlater
            exact .blanks hws hlater

/--
A scan that fails does so at an item of its pattern. The items before it are taken, and they
describe the bytes from the start up to the column, but for the blanks in front of a field; from the
column on, what the item asks for is missing. The mismatch says what that is, and its number where
it is a field.
-/
theorem fails_of_read {pattern : Pattern} {line : List Char} {start : Nat} {m : Mismatch}
    (hstart : start ≤ Utf8.size line)
    (h : (pattern.read line start : Except Mismatch (List (Field α))) = .error m) :
    let bytes := Utf8.encode line
    start < m.column ∧ m.column ≤ Utf8.size line + 1 ∧
    ∃ before item after, pattern = before ++ item :: after ∧
      item.Missing (bytes.drop (m.column - 1)) ∧ item.expected? = some m.expected ∧
      (∀ k, m.field = some k ↔ item.isField ∧ (before.filter Item.isField).length = k) ∧
      ∃ (fields : List (Field α)) (text ws : List UInt8),
        before.read line start = .ok fields ∧ Describes before text fields ∧
        (bytes.take (m.column - 1)).drop start = text ++ ws ∧
        (∀ b ∈ ws, Blank.isBlankByte b) ∧ (item.isField = false → ws = []) := by
  intro bytes
  have hsize : bytes.length = Utf8.size line := Utf8.length_encode line
  have hstart' : start ≤ bytes.length := hsize.symm ▸ hstart
  have hbytes : (Reader.start line start).rest = bytes.drop start := rfl
  have hposition : (Reader.start line start).position = start := Nat.min_eq_left hstart'
  cases fails_of_readFrom h with
  | @item before after item fields text ws rest hread hdescribes hws hfield hrest hmissing
      hexpected hindex hcolumn =>
      rw [hbytes] at hrest
      rw [hposition] at hcolumn
      have hplace : m.column - 1 = start + (text ++ ws).length := by
        rw [hcolumn, List.length_append, Nat.add_sub_cancel]
      have hlength : bytes.length - start = (text ++ ws).length + rest.length := by
        rw [← List.length_drop, hrest, ← List.append_assoc, List.length_append]
      have htaken : (bytes.drop start).take (text ++ ws).length = text ++ ws := by
        rw [hrest, ← List.append_assoc, List.take_left]
      have hleft : (bytes.drop start).drop (text ++ ws).length = rest := by
        rw [hrest, ← List.append_assoc, List.drop_left]
      have hfields : fields.length = (before.filter Item.isField).length := by
        rw [← items_of_read hread, List.length_map]
      refine ⟨by omega, by omega, before, item, after, rfl, ?_, hexpected, ?_, fields, text, ws,
        hread, hdescribes, ?_, hws, hfield⟩
      · rw [hplace, ← List.drop_drop, hleft]
        exact hmissing
      · intro k
        rw [hindex, hfields]
        cases item.isField <;> simp
      · rw [hplace, List.drop_take, Nat.add_sub_cancel_left, htaken]

theorem fails_of_read_overflow :
    let pattern := ofText "R:%d G:%d".toList
    let line := "é R:5  G: \t-99999999999)".toList
    (pattern.read line 3 : Except Mismatch (List (Field Rat))) =
      .error ⟨13, some 1, .integer⟩ ∧
    3 ≤ Utf8.size line ∧
    ∃ before item after, pattern = before ++ item :: after ∧ item.expected? = some .integer ∧
      (before.filter Item.isField).length = 1 ∧ item.Missing (Utf8.encode "-99999999999)".toList) ∧
      ∃ (fields : List (Field Rat)) (text ws : List UInt8),
        Describes before text fields ∧ text ++ ws = Utf8.encode "R:5  G: \t".toList := by
  intro pattern line
  have h : (pattern.read line 3 : Except Mismatch (List (Field Rat))) =
      .error ⟨13, some 1, .integer⟩ := by
    decide +kernel
  have hstart : 3 ≤ Utf8.size line := by decide
  obtain ⟨-, -, before, item, after, hpattern, hmissing, hexpected, hindex, fields, text, ws, -,
    hdescribes, htext, -⟩ := fails_of_read hstart h
  exact ⟨h, hstart, before, item, after, hpattern, hexpected, ((hindex 1).mp rfl).2, hmissing,
    fields, text, ws, hdescribes, htext.symm⟩

end Pattern
end PenScript
