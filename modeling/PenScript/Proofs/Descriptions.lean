import PenScript.Proofs.Numerals
import PenScript.Proofs.Slices

/-!
# What a pattern describes

A pattern describes texts, and says nothing of how they are read: a field may have any blanks before
it and be any number, and each character stands for itself. Where a character that is no part of
numbers comes after every field, reading takes a line by the pattern if and only if the line begins
with such a text, whatever follows.
-/

set_option autoImplicit false

namespace PenScript

/-! ## Blanks -/

namespace Blank

theorem isBlankByte_of_isNumberByte {b : UInt8} (h : Literal.isNumberByte b) :
    isBlankByte b = false := by
  rw [← Bool.not_eq_true]
  intro hblank
  simp only [isBlankByte, Bool.or_eq_true, beq_iff_eq] at hblank
  rcases hblank with (((rfl | rfl) | rfl) | rfl) | rfl <;> exact absurd h (by decide)

theorem dropWhile_append {ws text : List UInt8} (hws : ∀ b ∈ ws, isBlankByte b)
    (htext : ∀ b ∈ text.head?, isBlankByte b = false) :
    (ws ++ text).dropWhile isBlankByte = text := by
  rw [List.dropWhile_append_of_pos hws]
  cases text with
  | nil => rfl
  | cons b text => exact List.dropWhile_cons_of_neg (by simp [htext b rfl])

end Blank

/-! ## Fields -/

namespace Reader

variable {r : Reader} {field : Option Nat} {ws text rest : List UInt8}

theorem exists_of_integer {value : Int32} {next : Reader}
    (h : r.integer field = (.ok value, next)) :
    ∃ ws text, r.rest = ws ++ (text ++ next.rest) ∧ (∀ b ∈ ws, Blank.isBlankByte b) ∧
      Literal.IsInteger text value := by
  simp only [integer] at h
  split at h
  · rename_i found rest htake
    cases h
    obtain ⟨text, hrest, htext⟩ := Literal.exists_of_takeInteger? htake
    obtain ⟨ws, hr, hws⟩ := Past.dropWhile Blank.isBlankByte r.rest
    exact ⟨ws, text, hr.trans (congrArg (ws ++ ·) hrest), hws, htext⟩
  · cases h

theorem exists_of_number {literal : Literal} {next : Reader}
    (h : r.number field = (.ok literal, next)) :
    ∃ ws text, r.rest = ws ++ (text ++ next.rest) ∧ (∀ b ∈ ws, Blank.isBlankByte b) ∧
      Literal.IsDecimal text literal := by
  simp only [number] at h
  split at h
  · rename_i found rest htake
    cases h
    obtain ⟨text, hrest, htext⟩ := Literal.exists_of_takeNumber? htake
    obtain ⟨ws, hr, hws⟩ := Past.dropWhile Blank.isBlankByte r.rest
    exact ⟨ws, text, hr.trans (congrArg (ws ++ ·) hrest), hws, htext⟩
  · cases h

theorem rest_of_char {c : Char} {next : Reader} (h : r.char c = (.ok (), next)) :
    r.rest = Utf8.encode [c] ++ next.rest := by
  simp only [char] at h
  split at h
  · rename_i rest hrest
    cases h
    exact (List.isPrefixOf?_eq_some_iff_append_eq.mp hrest).symm
  · cases h

theorem char_of_rest {c : Char} (h : r.rest = Utf8.encode [c] ++ rest) :
    r.char c = (.ok (), r.leaving rest) := by
  have hfront : (Utf8.encode [c]).isPrefixOf? r.rest = some rest :=
    List.isPrefixOf?_eq_some_iff_append_eq.mpr h.symm
  simp only [char, hfront]

section

variable (hws : ∀ b ∈ ws, Blank.isBlankByte b) (hr : r.rest = ws ++ (text ++ rest))

include hws hr

theorem skipBlanks_of_numberBytes (hne : text ≠ []) (htext : ∀ b ∈ text, Literal.isNumberByte b) :
    r.skipBlanks.rest = text ++ rest := by
  have hdrop : r.skipBlanks.rest = r.rest.dropWhile Blank.isBlankByte := rfl
  rw [hdrop, hr]
  apply Blank.dropWhile_append hws
  intro b hb
  rw [List.head?_append_of_ne_nil _ hne] at hb
  exact Blank.isBlankByte_of_isNumberByte (htext b (List.mem_of_mem_head? hb))

theorem integer_of_isInteger {value : Int32} (htext : Literal.IsInteger text value)
    (hrest : Literal.Stops rest) :
    r.integer field = (.ok value, r.skipBlanks.leaving rest) := by
  have hskip := skipBlanks_of_numberBytes hws hr htext.ne_nil htext.isNumberByte
  simp only [integer, hskip, htext.takeInteger?_append fun b hb => (hrest b hb).1]

theorem number_of_isDecimal {literal : Literal} (htext : Literal.IsDecimal text literal)
    (hrest : Literal.Stops rest) :
    r.number field = (.ok literal, r.skipBlanks.leaving rest) := by
  have hskip := skipBlanks_of_numberBytes hws hr htext.ne_nil htext.isNumberByte
  simp only [number, hskip, Literal.takeNumber?_append hrest htext.takeNumber?_eq]

end
end Reader

/-! ## Descriptions -/

namespace Pattern

variable {α : Type} [Scalar α]

/-- The text is made of what the items ask for, one after the other, and has fields of these values. -/
inductive Describes : Pattern → List UInt8 → List (Field α) → Prop where
  | nil : Describes [] [] []
  | integer {items : Pattern} {ws text later : List UInt8} {value : Int32} {fields : List (Field α)}
      (hws : ∀ b ∈ ws, Blank.isBlankByte b) (htext : Literal.IsInteger text value)
      (h : Describes items later fields) :
      Describes (.integer :: items) (ws ++ (text ++ later)) (.integer value :: fields)
  | number {items : Pattern} {ws text later : List UInt8} {literal : Literal}
      {fields : List (Field α)} (hws : ∀ b ∈ ws, Blank.isBlankByte b)
      (htext : Literal.IsDecimal text literal) (h : Describes items later fields) :
      Describes (.number :: items) (ws ++ (text ++ later))
        (.number (Scalar.ofLiteral literal) :: fields)
  | literal {items : Pattern} {later : List UInt8} {fields : List (Field α)} (c : Char)
      (h : Describes items later fields) :
      Describes (.literal c :: items) (Utf8.encode [c] ++ later) fields
  | blanks {items : Pattern} {ws later : List UInt8} {fields : List (Field α)}
      (hws : ∀ b ∈ ws, Blank.isBlankByte b) (h : Describes items later fields) :
      Describes (.blanks :: items) (ws ++ later) fields

/-- The bytes begin with a text that the pattern describes; anything may follow it. -/
def Begins (pattern : Pattern) (bytes : List UInt8) (fields : List (Field α)) : Prop :=
  ∃ text rest, bytes = text ++ rest ∧ Describes pattern text fields

/-- What is read by a pattern begins with what the pattern describes. -/
theorem begins_of_readFrom {index : Nat} {pattern : Pattern} {r : Reader}
    {fields : List (Field α)} (h : readFrom index pattern r = .ok fields) :
    Begins pattern r.rest fields := by
  induction pattern generalizing index r fields with
  | nil =>
      cases h
      exact ⟨[], r.rest, rfl, .nil⟩
  | cons item items ih =>
      cases item with
      | integer =>
          rw [readFrom] at h
          split at h
          · rename_i value next hinteger
            obtain ⟨others, hothers, rfl⟩ := exists_of_map_eq_ok h
            obtain ⟨ws, text, hr, hws, htext⟩ := Reader.exists_of_integer hinteger
            obtain ⟨later, rest, hnext, hlater⟩ := ih hothers
            refine ⟨ws ++ (text ++ later), rest, ?_, .integer hws htext hlater⟩
            rw [hr, hnext, List.append_assoc, List.append_assoc]
          · cases h
      | number =>
          rw [readFrom] at h
          split at h
          · rename_i literal next hnumber
            obtain ⟨others, hothers, rfl⟩ := exists_of_map_eq_ok h
            obtain ⟨ws, text, hr, hws, htext⟩ := Reader.exists_of_number hnumber
            obtain ⟨later, rest, hnext, hlater⟩ := ih hothers
            refine ⟨ws ++ (text ++ later), rest, ?_, .number hws htext hlater⟩
            rw [hr, hnext, List.append_assoc, List.append_assoc]
          · cases h
      | literal c =>
          rw [readFrom] at h
          split at h
          · rename_i value next hchar
            obtain ⟨later, rest, hnext, hlater⟩ := ih h
            refine ⟨Utf8.encode [c] ++ later, rest, ?_, .literal c hlater⟩
            rw [Reader.rest_of_char hchar, hnext, List.append_assoc]
          · cases h
      | blanks =>
          obtain ⟨later, rest, hnext, hlater⟩ := ih h
          obtain ⟨ws, hr, hws⟩ := Past.dropWhile Blank.isBlankByte r.rest
          refine ⟨ws ++ later, rest, ?_, .blanks hws hlater⟩
          rw [List.append_assoc, ← hnext]
          exact hr

/-! ## Settled patterns -/

/-- The first byte of the character that must come next, past any blanks. -/
def nextByte? : Pattern → Option UInt8
  | .literal c :: _ => (Utf8.encode [c]).head?
  | .blanks :: items => nextByte? items
  | _ => none

/-- A byte that is no blank and cannot carry a number on. -/
def separates (b : UInt8) : Bool :=
  !Blank.isBlankByte b && !Literal.isDigit b && b != 0x2E && b != 0x65 && b != 0x45

/-- Behind each field, and behind blanks, comes a character that separates. -/
def settled : Pattern → Bool
  | [] => true
  | .literal _ :: items => settled items
  | _ :: items => (nextByte? items).any separates && settled items

theorem of_separates {b : UInt8} (h : separates b) :
    Blank.isBlankByte b = false ∧ Literal.isDigit b = false ∧ b ≠ 0x2E ∧ b ≠ 0x65 ∧ b ≠ 0x45 := by
  simpa [separates, and_assoc] using h

/-- The blanks in front of that character are as good as none. -/
theorem Describes.exists_next {items : Pattern} {text : List UInt8} {fields : List (Field α)}
    (h : Describes items text fields) (hnext : (nextByte? items).any separates) :
    ∃ ws b later, text = ws ++ b :: later ∧ (∀ d ∈ ws, Blank.isBlankByte d) ∧ separates b ∧
      Describes items (b :: later) fields := by
  induction h with
  | nil => cases hnext
  | integer hws htext h ih => cases hnext
  | number hws htext h ih => cases hnext
  | literal c h ih =>
      obtain ⟨b, hb, hseparates⟩ := (Option.any_eq_true ..).mp hnext
      obtain ⟨tail, htail⟩ := List.head?_eq_some_iff.mp hb
      have hdescribes := Describes.literal c h
      rw [htail] at hdescribes ⊢
      exact ⟨[], b, _, rfl, List.forall_mem_nil _, hseparates, hdescribes⟩
  | @blanks items ws later fields hws h ih =>
      obtain ⟨ws', b, tail, rfl, hws', hseparates, hdescribes⟩ := ih hnext
      refine ⟨ws ++ ws', b, tail, (List.append_assoc ..).symm, ?_, hseparates,
        .blanks (List.forall_mem_nil _) hdescribes⟩
      intro d hd
      exact (List.mem_append.mp hd).elim (hws d) (hws' d)

/-- Nothing that such a pattern describes can carry on a number that stands before it. -/
theorem Describes.stops {items : Pattern} {text : List UInt8} {fields : List (Field α)}
    (h : Describes items text fields) (hnext : (nextByte? items).any separates)
    (rest : List UInt8) : Literal.Stops (text ++ rest) := by
  obtain ⟨ws, b, later, rfl, hws, hseparates, -⟩ := h.exists_next hnext
  intro d hd
  cases ws with
  | nil =>
      cases hd
      exact (of_separates hseparates).2
  | cons w ws =>
      cases hd
      have hnumber : ¬ Literal.isNumberByte d := by
        intro hw
        have hblank := hws d (List.mem_cons_self ..)
        rw [Blank.isBlankByte_of_isNumberByte hw] at hblank
        cases hblank
      simp only [Literal.isNumberByte, Bool.or_eq_true, beq_iff_eq, not_or,
        Bool.not_eq_true] at hnumber
      exact ⟨hnumber.1.1.1.1.1, hnumber.1.1.2, hnumber.2, hnumber.1.2⟩

/-- A settled pattern takes what it describes, whatever stands behind that. -/
theorem readFrom_of_describes {pattern : Pattern} {text rest : List UInt8}
    {fields : List (Field α)} (h : Describes pattern text fields) (hsettled : pattern.settled)
    (index : Nat) {r : Reader} (hr : r.rest = text ++ rest) :
    readFrom index pattern r = .ok fields := by
  induction pattern generalizing text fields index r with
  | nil =>
      cases h
      rfl
  | cons item items ih =>
      cases h with
      | @integer _ ws text later value fields hws htext h =>
          obtain ⟨hnext, hsettled⟩ := Bool.and_eq_true_iff.mp hsettled
          rw [List.append_assoc, List.append_assoc] at hr
          have hlater := ih h hsettled (index + 1)
            (r := r.skipBlanks.leaving (later ++ rest)) rfl
          simp only [readFrom, Reader.integer_of_isInteger hws hr htext (h.stops hnext rest),
            hlater, Except.map]
      | @number _ ws text later literal fields hws htext h =>
          obtain ⟨hnext, hsettled⟩ := Bool.and_eq_true_iff.mp hsettled
          rw [List.append_assoc, List.append_assoc] at hr
          have hlater := ih h hsettled (index + 1)
            (r := r.skipBlanks.leaving (later ++ rest)) rfl
          simp only [readFrom, Reader.number_of_isDecimal hws hr htext (h.stops hnext rest),
            hlater, Except.map]
      | @literal _ later fields c h =>
          rw [List.append_assoc] at hr
          simp only [readFrom, Reader.char_of_rest hr]
          exact ih h hsettled index rfl
      | @blanks _ ws later fields hws h =>
          obtain ⟨hnext, hsettled⟩ := Bool.and_eq_true_iff.mp hsettled
          obtain ⟨ws', b, tail, rfl, hws', hseparates, hdescribes⟩ := h.exists_next hnext
          refine ih hdescribes hsettled index (r := r.skipBlanks) ?_
          have hdrop : r.skipBlanks.rest = r.rest.dropWhile Blank.isBlankByte := rfl
          have hblanks : ∀ d ∈ ws ++ ws', Blank.isBlankByte d := by
            intro d hd
            exact (List.mem_append.mp hd).elim (hws d) (hws' d)
          have hhead : ∀ d ∈ (b :: tail ++ rest).head?, Blank.isBlankByte d = false := by
            intro d hd
            cases hd
            exact (of_separates hseparates).1
          rw [hdrop, hr, ← List.append_assoc ws, List.append_assoc (ws ++ ws')]
          exact Blank.dropWhile_append hblanks hhead

theorem read_eq_ok_iff {pattern : Pattern} (h : pattern.settled) {line : List Char}
    {offset : Nat} {fields : List (Field α)} :
    pattern.read line offset = .ok fields ↔
      Begins pattern ((Utf8.encode line).drop offset) fields := by
  constructor
  · exact begins_of_readFrom
  · rintro ⟨text, rest, hbytes, hdescribes⟩
    exact readFrom_of_describes hdescribes h 0 hbytes

/-- The characters of a text, each for itself. -/
def literals (text : String) : Pattern :=
  text.toList.map .literal

end Pattern

/-! ## Commands of a fixed format -/

namespace Command

open Pattern (Begins literals)

theorem colorPattern_eq :
    colorPattern = literals "draw.color(R:" ++ [.integer, .blanks] ++ literals "G:" ++
      [.integer, .blanks] ++ literals "B:" ++ [.integer] ++ literals ")" := by
  decide

theorem positionPattern_eq :
    positionPattern = literals "draw.pos(x:" ++ [.number, .blanks] ++ literals "y:" ++ [.number] ++
      literals ")" := by
  decide

theorem curvePattern_eq :
    curvePattern = literals "draw.line.curve(x:" ++ [.number, .blanks] ++ literals "y:" ++
      [.number] ++ literals ")" := by
  decide

theorem sidePattern_eq_literals :
    sidePattern = literals "draw.square(L:" ++ [.number] ++ literals ")" := by
  decide

/-- The patterns of the commands put no field in front of what could be taken for a part of it. -/
theorem settled_of_mem {pattern : Pattern}
    (h : pattern ∈ [colorPattern, positionPattern, curvePattern, sidePattern]) :
    pattern.settled := by
  have hall : ∀ pattern ∈ [colorPattern, positionPattern, curvePattern, sidePattern],
      pattern.settled := by
    decide
  exact hall pattern h

variable {α : Type} [Scalar α] {line : List Char} {offset : Nat}

/-- A scan makes a command of its fields, or rejects the line with its mismatch. -/
theorem scan_eq_ok_iff (pattern : Pattern) (line : List Char) (offset : Nat)
    {make : List (Field α) → Command α} (result : Except Cause (Command α))
    (hresult : result = do let values ← fields pattern line offset; return make values) :
    (∀ command, result = .ok command ↔
      ∃ values, pattern.read line offset = .ok values ∧ make values = command) ∧
    ((∃ command, result = .ok command) ∨ ∃ e, result = .error (.mismatch e)) := by
  subst hresult
  cases hread : (pattern.read line offset : Except Mismatch (List (Field α))) with
  | ok values =>
      have hfields : (fields pattern line offset : Except Cause (List (Field α))) = .ok values := by
        rw [fields, hread]
        rfl
      rw [hfields]
      refine ⟨fun command => ?_, Or.inl ⟨make values, rfl⟩⟩
      constructor
      · intro h
        exact ⟨values, rfl, Except.ok.inj h⟩
      · rintro ⟨_, hvalues, rfl⟩
        cases hvalues
        rfl
  | error e =>
      have hfields : (fields pattern line offset : Except Cause (List (Field α))) =
          .error (.mismatch e) := by
        rw [fields, hread]
        rfl
      rw [hfields]
      refine ⟨fun command => ?_, Or.inr ⟨e, rfl⟩⟩
      constructor
      · intro h
        cases h
      · rintro ⟨_, hvalues, -⟩
        cases hvalues

theorem exists_channels_iff {make : List (Field α) → Command α} {command : Command α} :
    (∃ values, colorPattern.read line offset = .ok values ∧ make values = command) ↔
      ∃ red green blue, command = make [.integer red, .integer green, .integer blue] ∧
        Begins colorPattern ((Utf8.encode line).drop offset)
          ([.integer red, .integer green, .integer blue] : List (Field α)) := by
  have hsettled : colorPattern.settled := settled_of_mem (by simp)
  constructor
  · rintro ⟨values, hread, rfl⟩
    obtain ⟨red, green, blue, rfl⟩ := exists_channels hread
    exact ⟨red, green, blue, rfl, (Pattern.read_eq_ok_iff hsettled).mp hread⟩
  · rintro ⟨red, green, blue, rfl, hbegins⟩
    exact ⟨_, (Pattern.read_eq_ok_iff hsettled).mpr hbegins, rfl⟩

theorem exists_coordinates_iff {pattern : Pattern} (hsettled : pattern.settled)
    (hfields : pattern.filter Item.isField = [.number, .number])
    {make : List (Field α) → Command α} {command : Command α} :
    (∃ values, pattern.read line offset = .ok values ∧ make values = command) ↔
      ∃ x y, command = make [.number x, .number y] ∧
        Begins pattern ((Utf8.encode line).drop offset) [.number x, .number y] := by
  constructor
  · rintro ⟨values, hread, rfl⟩
    obtain ⟨x, y, rfl⟩ := exists_coordinates hread hfields
    exact ⟨x, y, rfl, (Pattern.read_eq_ok_iff hsettled).mp hread⟩
  · rintro ⟨x, y, rfl, hbegins⟩
    exact ⟨_, (Pattern.read_eq_ok_iff hsettled).mpr hbegins, rfl⟩

theorem sideArgument_eq_ok_iff {side : α} :
    sideArgument line offset = .ok side ↔ sidePattern.read line offset = .ok [.number side] := by
  rw [sideArgument]
  cases hread : (sidePattern.read line offset : Except Mismatch (List (Field α))) with
  | ok values =>
      obtain ⟨value, rfl⟩ := exists_side hread
      simp [Except.map, Field.numberAt, Field.toNumber]
  | error e => simp [Except.map]

/-- The fixed side of a square, and what its command makes of it. -/
theorem ofLine_drawSquare (line : List Char) (offset : Nat) :
    (ofLine .drawSquare line offset : Except Cause (Command α)) =
      match choiceArgument line, sideArgument line offset with
      | .error cause, _ => .error cause
      | .ok none, .error e => .error (.mismatch e)
      | .ok choice, side => .ok (.drawSquare choice side) := by
  rw [ofLine]
  cases choiceArgument line with
  | error cause => rfl
  | ok choice =>
      cases (sideArgument line offset : Except Mismatch α) <;> cases choice <;> rfl

theorem ofLine_drawSquare_eq_ok_iff {choice : Option String} {side : α} :
    ofLine .drawSquare line offset = .ok (.drawSquare choice (.ok side)) ↔
      choiceArgument line = .ok choice ∧ sideArgument line offset = .ok side := by
  rw [ofLine_drawSquare]
  cases choiceArgument line with
  | error cause => simp
  | ok choice =>
      cases (sideArgument line offset : Except Mismatch α) <;> cases choice <;> simp

end Command
end PenScript
