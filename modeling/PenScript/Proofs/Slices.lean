import PenScript.Proofs.Boundaries
import PenScript.Proofs.Histories
import PenScript.Proofs.Recognition

/-!
# Slices

A text is cut at places that a search, a scan or the recognition of a keyword has come to. All of
them lie between characters, in order and in the line, so that no cut fails; nor does an access to
the fields of a scan, or to the list that an item is picked from.
-/

set_option autoImplicit false

namespace PenScript

/-! ## Spans that fit -/

/-- The offset lies between two characters of the line, or at one of its ends. -/
def Boundary (line : List Char) (offset : Nat) : Prop :=
  ∃ before after, line = before ++ after ∧ Utf8.size before = offset

namespace Span

structure Fits (line : List Char) (span : Span) : Prop where
  order : span.start ≤ span.stop
  bound : span.stop ≤ Utf8.size line
  starts : Boundary line span.start
  stops : Boundary line span.stop

theorem fits_append (before text after : List Char) :
    Fits (before ++ (text ++ after)) ⟨Utf8.size before, Utf8.size before + Utf8.size text⟩ where
  order := Nat.le_add_right ..
  bound := by simp only [Utf8.size_append]; omega
  starts := ⟨before, text ++ after, rfl, rfl⟩
  stops := ⟨before ++ text, after, by simp, by simp⟩

theorem exists_of_cutFrom {before rest first later : List Char} {n : Nat}
    (h : cutFrom before n rest = some (first, later)) :
    ∃ text, first = before.reverse ++ text ∧ rest = text ++ later ∧ Utf8.size text = n := by
  fun_induction cutFrom before n rest with
  | case1 before rest =>
      cases h
      exact ⟨[], by simp, rfl, rfl⟩
  | case2 => cases h
  | case3 before n c rest hle ih =>
      obtain ⟨text, rfl, rfl, hsize⟩ := ih h
      refine ⟨c :: text, by simp, rfl, ?_⟩
      rw [Utf8.size_cons, hsize]
      omega
  | case4 => cases h

theorem slice?_eq_some_iff {line text : List Char} {span : Span} :
    slice? line span = some text ↔
      ∃ before after, line = before ++ (text ++ after) ∧
        span = ⟨Utf8.size before, Utf8.size before + Utf8.size text⟩ := by
  constructor
  · intro h
    rw [slice?] at h
    split at h
    · cases h
    · rename_i horder
      simp only [Option.bind_eq_some_iff, Option.map_eq_some_iff, Prod.exists] at h
      obtain ⟨before, rest, hbefore, first, after, htext, rfl⟩ := h
      obtain ⟨before, rfl, rfl, hstart⟩ := exists_of_cutFrom hbefore
      obtain ⟨text, rfl, rfl, hstop⟩ := exists_of_cutFrom htext
      refine ⟨before, after, rfl, ?_⟩
      obtain ⟨start, stop⟩ := span
      simp only [Span.mk.injEq] at horder hstart hstop ⊢
      exact ⟨hstart.symm, by omega⟩
  · rintro ⟨before, after, rfl, rfl⟩
    exact slice?_size before text after

/-- A text can be cut out by just the spans that fit it. -/
theorem isSome_slice?_iff {line : List Char} {span : Span} :
    (slice? line span).isSome ↔ span.Fits line := by
  rw [Option.isSome_iff_exists]
  constructor
  · rintro ⟨text, h⟩
    obtain ⟨before, after, rfl, rfl⟩ := slice?_eq_some_iff.mp h
    exact fits_append before text after
  · rintro ⟨horder, -, ⟨before, rest, hline, hstart⟩, ⟨first, after, hline', hstop⟩⟩
    rw [hline] at hline'
    obtain ⟨text, rfl, rfl⟩ | ⟨text, rfl, rfl⟩ := List.append_eq_append_iff.mp hline'
    · refine ⟨text, slice?_eq_some_iff.mpr ⟨before, after, hline, ?_⟩⟩
      rw [← Utf8.size_append, hstart, hstop]
    · -- The order leaves only the empty text.
      rw [Utf8.size_append] at hstart
      have htext : Utf8.size text = 0 := by omega
      refine ⟨[], slice?_eq_some_iff.mpr ⟨first, text ++ rest, by simp [hline], ?_⟩⟩
      obtain ⟨start, stop⟩ := span
      simp only [Utf8.size_nil, Span.mk.injEq] at horder hstart hstop ⊢
      omega

end Span

/-! ## Fields of a scan -/

def Item.isField : Item → Bool
  | .integer | .number => true
  | .literal _ | .blanks => false

/-- The item that asks for a field of this kind. -/
def Field.item {α : Type} : Field α → Item
  | .integer _ => .integer
  | .number _ => .number

theorem exists_of_map_eq_ok {ε β γ : Type} {f : β → γ} {result : Except ε β} {c : γ}
    (h : result.map f = .ok c) : ∃ b, result = .ok b ∧ f b = c := by
  cases result with
  | error e => cases h
  | ok b => exact ⟨b, rfl, Except.ok.inj h⟩

namespace Pattern

variable {α : Type} [Scalar α]

/-- A scan that succeeds gives one field for each field of its pattern, in order and of its kind. -/
theorem items_of_readFrom {index : Nat} {pattern : Pattern} {r : Reader}
    {fields : List (Field α)} (h : readFrom index pattern r = .ok fields) :
    fields.map Field.item = pattern.filter Item.isField := by
  induction pattern generalizing index r fields with
  | nil =>
      cases h
      rfl
  | cons item items ih =>
      cases item with
      | integer =>
          rw [readFrom] at h
          split at h
          · obtain ⟨others, hrest, rfl⟩ := exists_of_map_eq_ok h
            rw [List.map_cons, ih hrest]
            rfl
          · cases h
      | number =>
          rw [readFrom] at h
          split at h
          · obtain ⟨others, hrest, rfl⟩ := exists_of_map_eq_ok h
            rw [List.map_cons, ih hrest]
            rfl
          · cases h
      | literal c =>
          rw [readFrom] at h
          split at h
          · exact ih h
          · cases h
      | blanks => exact ih h

theorem items_of_read {pattern : Pattern} {line : List Char} {offset : Nat}
    {fields : List (Field α)} (h : pattern.read line offset = .ok fields) :
    fields.map Field.item = pattern.filter Item.isField :=
  items_of_readFrom h

end Pattern

namespace Field

variable {α : Type} {field : Field α}

theorem exists_integer (h : field.item = .integer) : ∃ value, field = .integer value := by
  cases field with
  | integer value => exact ⟨value, rfl⟩
  | number value => cases h

theorem exists_number (h : field.item = .number) : ∃ value, field = .number value := by
  cases field with
  | integer value => cases h
  | number value => exact ⟨value, rfl⟩

end Field

namespace Command

variable {α : Type} [Scalar α] {line : List Char} {offset : Nat} {fields : List (Field α)}

/-- A scanned color has its three channels, so that none of them is left to a default. -/
theorem exists_channels (h : colorPattern.read line offset = .ok fields) :
    ∃ red green blue, fields = [.integer red, .integer green, .integer blue] := by
  have hitems : fields.map Field.item = [.integer, .integer, .integer] := Pattern.items_of_read h
  simp only [List.map_eq_cons_iff, List.map_eq_nil_iff] at hitems
  obtain ⟨first, _, rfl, hred, second, _, rfl, hgreen, third, _, rfl, hblue, rfl⟩ := hitems
  obtain ⟨red, rfl⟩ := Field.exists_integer hred
  obtain ⟨green, rfl⟩ := Field.exists_integer hgreen
  obtain ⟨blue, rfl⟩ := Field.exists_integer hblue
  exact ⟨red, green, blue, rfl⟩

theorem exists_coordinates {pattern : Pattern} (h : pattern.read line offset = .ok fields)
    (hpattern : pattern.filter Item.isField = [.number, .number]) :
    ∃ x y, fields = [.number x, .number y] := by
  have hitems := Pattern.items_of_read h
  simp only [hpattern, List.map_eq_cons_iff, List.map_eq_nil_iff] at hitems
  obtain ⟨first, _, rfl, hx, second, _, rfl, hy, rfl⟩ := hitems
  obtain ⟨x, rfl⟩ := Field.exists_number hx
  obtain ⟨y, rfl⟩ := Field.exists_number hy
  exact ⟨x, y, rfl⟩

theorem exists_side (h : sidePattern.read line offset = .ok fields) :
    ∃ side, fields = [.number side] := by
  have hitems : fields.map Field.item = [.number] := Pattern.items_of_read h
  simp only [List.map_eq_cons_iff, List.map_eq_nil_iff] at hitems
  obtain ⟨first, _, rfl, hside, rfl⟩ := hitems
  obtain ⟨side, rfl⟩ := Field.exists_number hside
  exact ⟨side, rfl⟩

end Command

/-! ## Places that are come to -/

section

variable {line : List Char}

theorem boundary_of_find? {needle : List Char} {place : Nat}
    (h : Span.find? needle line = some place) :
    Boundary line place ∧ Boundary line (place + Utf8.size needle) := by
  obtain ⟨before, rest, rfl, rfl, after, rfl⟩ := Span.exists_of_find? h
  exact ⟨⟨before, needle ++ after, rfl, rfl⟩, before ++ needle, after, by simp, by simp⟩

theorem boundary_of_findLast? {c : Char} {place : Nat} (hc : c ∈ line)
    (h : Span.findLast? c line = some place) : Boundary line place := by
  obtain ⟨before, after, rfl, hafter⟩ := Span.eq_append_cons_of_mem_last hc
  rw [Span.findLast?_append hafter] at h
  cases h
  exact ⟨before, c :: after, rfl, rfl⟩

theorem Boundary.le_size {offset : Nat} (h : Boundary line offset) : offset ≤ Utf8.size line := by
  obtain ⟨before, after, rfl, rfl⟩ := h
  rw [Utf8.size_append]
  omega

theorem Boundary.fits {start stop : Nat} (hstart : Boundary line start) (hstop : Boundary line stop)
    (horder : start ≤ stop) : Span.Fits line ⟨start, stop⟩ :=
  ⟨horder, hstop.le_size, hstart, hstop⟩

namespace Reader

variable {r : Reader}

theorem AtBoundary.position (h : AtBoundary line r) : Boundary line r.position := by
  obtain ⟨before, after, rfl, rfl⟩ := h
  exact ⟨before, after, rfl, rfl⟩

theorem AtBoundary.start {offset : Nat} (h : Boundary line offset) :
    AtBoundary line (start line offset) := by
  obtain ⟨before, after, rfl, rfl⟩ := h
  exact ⟨before, after, rfl, start_between before after⟩

end Reader
end

/-! ## Spans that are cut out -/

namespace Reader

/-- The text of an integer field, whether or not 32 bits hold its value. -/
def integerSpan? (r : Reader) : Option Span :=
  let r := r.skipBlanks
  let body := (Literal.takeSign r.rest).2
  if (body.takeWhile Literal.isDigit).isEmpty then none
  else some ⟨r.position, (r.leaving (body.dropWhile Literal.isDigit)).position⟩

def numberSpan? (r : Reader) : Option Span :=
  let r := r.skipBlanks
  (Literal.takeNumber? r.rest).map fun (_, rest) => ⟨r.position, (r.leaving rest).position⟩

/-- The rest of the line, in which a quote is looked for, and the text before the quote. -/
def quoteSpans (r : Reader) : List Span :=
  ⟨r.position, r.position + r.rest.length⟩ ::
    match r.rest.dropWhile (· != 0x22) with
    | [] => []
    | _ :: _ => [⟨r.position, r.position + (r.rest.takeWhile (· != 0x22)).length⟩]

variable {line : List Char} {r : Reader}

theorem integer_of_ok {field : Option Nat} {value : Int32} {next : Reader}
    (h : r.integer field = (.ok value, next)) (other : Option Nat) :
    r.integer other = (.ok value, next) := by
  simp only [integer] at h ⊢
  split at h
  · exact h
  · cases h

theorem number_of_ok {field : Option Nat} {literal : Literal} {next : Reader}
    (h : r.number field = (.ok literal, next)) (other : Option Nat) :
    r.number other = (.ok literal, next) := by
  simp only [number] at h ⊢
  split at h
  · exact h
  · cases h

/-- A field that is taken ends where its text does. -/
theorem integerSpan?_of_ok {field : Option Nat} {value : Int32} {next : Reader}
    (h : r.integer field = (.ok value, next)) :
    r.integerSpan? = some ⟨r.skipBlanks.position, next.position⟩ := by
  simp only [integer, Literal.takeInteger?] at h
  simp only [integerSpan?]
  by_cases hdigits : ((Literal.takeSign r.skipBlanks.rest).2.takeWhile Literal.isDigit).isEmpty
  · simp [hdigits] at h
  · rw [if_neg hdigits]
    split at h
    · rename_i value' rest htake
      split at htake
      · cases htake
      · cases htake
        cases h
        rfl
    · cases h

theorem numberSpan?_of_ok {field : Option Nat} {literal : Literal} {next : Reader}
    (h : r.number field = (.ok literal, next)) :
    r.numberSpan? = some ⟨r.skipBlanks.position, next.position⟩ := by
  simp only [number] at h
  split at h
  · rename_i literal' rest htake
    cases h
    simp [numberSpan?, htake]
  · cases h

theorem AtBoundary.fits_leaving (h : AtBoundary line r) {rest : List UInt8}
    (hrest : Past Literal.isNumberByte r.rest rest) :
    Span.Fits line ⟨r.position, (r.leaving rest).position⟩ :=
  h.position.fits (h.leaving (fun _ => Literal.ascii_of_isNumberByte) hrest).position
    (Nat.le_add_right ..)

theorem AtBoundary.fits_integerSpan? (h : AtBoundary line r) {span : Span}
    (hspan : r.integerSpan? = some span) : span.Fits line := by
  simp only [integerSpan?] at hspan
  split at hspan
  · cases hspan
  · cases hspan
    exact h.skipBlanks.fits_leaving (Literal.past_signed_digits _)

theorem AtBoundary.fits_numberSpan? (h : AtBoundary line r) {span : Span}
    (hspan : r.numberSpan? = some span) : span.Fits line := by
  simp only [numberSpan?, Option.map_eq_some_iff, Prod.exists] at hspan
  obtain ⟨literal, rest, htake, rfl⟩ := hspan
  exact h.skipBlanks.fits_leaving (Literal.past_of_takeNumber? htake)

theorem quoteSpans_between {name : List Char} (hname : '"' ∉ name) (before after : List Char) :
    (between before (name ++ '"' :: after)).quoteSpans =
      [⟨Utf8.size before, Utf8.size before + Utf8.size (name ++ '"' :: after)⟩,
        ⟨Utf8.size before, Utf8.size before + Utf8.size name⟩] := by
  simp only [quoteSpans, between, dropWhile_encode_quote hname, takeWhile_encode_quote hname,
    Utf8.length_encode]

theorem quoteSpans_between_of_not_mem (before : List Char) {after : List Char}
    (hafter : '"' ∉ after) :
    (between before after).quoteSpans =
      [⟨Utf8.size before, Utf8.size before + Utf8.size after⟩] := by
  simp only [quoteSpans, between, dropWhile_encode_of_not_mem hafter, Utf8.length_encode]

theorem AtBoundary.fits_of_mem_quoteSpans (h : AtBoundary line r) {span : Span}
    (hspan : span ∈ r.quoteSpans) : span.Fits line := by
  obtain ⟨before, after, rfl, rfl⟩ := h
  have hrest := Span.fits_append before after []
  rw [List.append_nil] at hrest
  by_cases hquote : '"' ∈ after
  · obtain ⟨name, later, rfl, hname⟩ := List.eq_append_cons_of_mem hquote
    rw [quoteSpans_between hname, List.mem_cons, List.mem_singleton] at hspan
    rcases hspan with rfl | rfl
    · exact hrest
    · exact Span.fits_append before name ('"' :: later)
  · rw [quoteSpans_between_of_not_mem before hquote, List.mem_singleton] at hspan
    exact hspan ▸ hrest

/-- The text taken up to a quote is one of those that are cut out. -/
theorem AtBoundary.exists_slice?_of_untilQuote (h : AtBoundary line r) {text : List Char}
    (htext : r.untilQuote.1 = some text) :
    ∃ span ∈ r.quoteSpans, span.slice? line = some text := by
  obtain ⟨before, after, rfl, rfl⟩ := h
  by_cases hquote : '"' ∈ after
  · obtain ⟨name, later, rfl, hname⟩ := List.eq_append_cons_of_mem hquote
    rw [untilQuote_between hname] at htext
    obtain rfl : name = text := Option.some.inj htext
    rw [quoteSpans_between hname]
    exact ⟨_, List.mem_cons_of_mem _ (List.mem_singleton_self _),
      Span.slice?_size before name ('"' :: later)⟩
  · rw [untilQuote_between_of_not_mem before hquote] at htext
    cases htext

end Reader

namespace Pattern

/-- The texts of the fields that are taken in reading by a pattern. -/
def spans : Pattern → Reader → List Span
  | [], _ => []
  | .integer :: items, r =>
      r.integerSpan?.toList ++
        match r.integer none with
        | (.ok _, r) => spans items r
        | (.error _, _) => []
  | .number :: items, r =>
      r.numberSpan?.toList ++
        match r.number none with
        | (.ok _, r) => spans items r
        | (.error _, _) => []
  | .literal c :: items, r =>
      match r.char c with
      | (.ok _, r) => spans items r
      | (.error _, _) => []
  | .blanks :: items, r => spans items r.skipBlanks

theorem fits_of_mem_spans {line : List Char} {pattern : Pattern} {r : Reader}
    (h : r.AtBoundary line) {span : Span} (hspan : span ∈ pattern.spans r) : span.Fits line := by
  induction pattern generalizing r with
  | nil => cases hspan
  | cons item items ih =>
      cases item with
      | integer =>
          rw [spans, List.mem_append, Option.mem_toList] at hspan
          rcases hspan with hspan | hspan
          · exact h.fits_integerSpan? hspan
          · have hnext := h.integer none
            split at hspan
            · rename_i value next hinteger
              rw [hinteger] at hnext
              exact ih hnext hspan
            · cases hspan
      | number =>
          rw [spans, List.mem_append, Option.mem_toList] at hspan
          rcases hspan with hspan | hspan
          · exact h.fits_numberSpan? hspan
          · have hnext := h.number none
            split at hspan
            · rename_i literal next hnumber
              rw [hnumber] at hnext
              exact ih hnext hspan
            · cases hspan
      | literal c =>
          have hnext := h.char c
          rw [spans] at hspan
          split at hspan
          · rename_i taken next hchar
            rw [hchar] at hnext
            exact ih hnext hspan
          · cases hspan
      | blanks => exact ih h.skipBlanks hspan

variable {α : Type} [Scalar α]

/-- A scan that succeeds cuts out one text for each of its fields. -/
theorem length_spans {index : Nat} {pattern : Pattern} {r : Reader} {fields : List (Field α)}
    (h : readFrom index pattern r = .ok fields) :
    (pattern.spans r).length = (pattern.filter Item.isField).length := by
  induction pattern generalizing index r fields with
  | nil => rfl
  | cons item items ih =>
      cases item with
      | integer =>
          rw [readFrom] at h
          split at h
          · rename_i value next hinteger
            obtain ⟨others, hrest, -⟩ := exists_of_map_eq_ok h
            rw [spans, Reader.integerSpan?_of_ok hinteger, Reader.integer_of_ok hinteger none,
              List.length_append, ih hrest]
            exact Nat.add_comm ..
          · cases h
      | number =>
          rw [readFrom] at h
          split at h
          · rename_i literal next hnumber
            obtain ⟨others, hrest, -⟩ := exists_of_map_eq_ok h
            rw [spans, Reader.numberSpan?_of_ok hnumber, Reader.number_of_ok hnumber none,
              List.length_append, ih hrest]
            exact Nat.add_comm ..
          · cases h
      | literal c =>
          rw [readFrom] at h
          split at h
          · rename_i taken next hchar
            rw [spans, hchar]
            exact ih h
          · cases h
      | blanks => exact ih h

end Pattern

namespace Command

/-- The texts cut out in looking for a random choice. -/
def choiceSpans (line : List Char) : List Span :=
  match Span.find? choiceOpening line with
  | none => []
  | some offset =>
      match (Reader.start line (offset + Utf8.size choiceOpening)).skipBlanks.char '"' with
      | (.ok _, r) => r.quoteSpans
      | (.error _, _) => []

/-- The texts cut out of a line in reading the arguments of a command. -/
def spans (keyword : Keyword) (line : List Char) (offset : Nat) : List Span :=
  match keyword with
  | .write | .createObject | .listName => (quotedSpan? line).toList
  | .createList => (bracketSpan? line).toList
  | .drawColor => colorPattern.spans (.start line offset)
  | .drawPos => positionPattern.spans (.start line offset)
  | .drawSquare => sidePattern.spans (.start line offset) ++ choiceSpans line
  | .drawCurve => curvePattern.spans (.start line offset)
  | .endWork => []

variable {line : List Char} {span : Span}

theorem fits_of_quotedSpan? (h : quotedSpan? line = some span) : span.Fits line := by
  simp only [quotedSpan?, Option.bind_eq_bind, Option.bind_eq_some_iff] at h
  obtain ⟨first, hfirst, last, hlast, h⟩ := h
  split at h
  · rename_i horder
    cases h
    have hmem : '"' ∈ line := by
      rw [← List.singleton_infix_iff, ← Span.isSome_find?_iff (by simp), hfirst]
      rfl
    exact (boundary_of_find? hfirst).2.fits (boundary_of_findLast? hmem hlast) horder
  · cases h

theorem fits_of_bracketSpan? (h : bracketSpan? line = some span) : span.Fits line := by
  simp only [bracketSpan?, Option.bind_eq_bind, Option.bind_eq_some_iff] at h
  obtain ⟨first, hfirst, last, hlast, h⟩ := h
  split at h
  · rename_i horder
    cases h
    exact (boundary_of_find? hfirst).2.fits (boundary_of_find? hlast).1 horder
  · cases h

theorem fits_of_mem_choiceSpans (h : span ∈ choiceSpans line) : span.Fits line := by
  unfold choiceSpans at h
  split at h
  · cases h
  · rename_i offset hoffset
    have hreader := (Reader.AtBoundary.start (boundary_of_find? hoffset).2).skipBlanks.char '"'
    split at h
    · rename_i taken next hchar
      rw [hchar] at hreader
      exact hreader.fits_of_mem_quoteSpans h
    · cases h

/-- The name of a list to choose from is one of the texts cut out. -/
theorem exists_slice?_of_choiceArgument {name : String}
    (h : choiceArgument line = .ok (some name)) :
    ∃ span ∈ choiceSpans line, span.slice? line = some name.toList := by
  unfold choiceArgument at h
  split at h
  · cases h
  · rename_i offset hoffset
    have hreader := (Reader.AtBoundary.start (boundary_of_find? hoffset).2).skipBlanks.char '"'
    split at h
    · cases h
    · rename_i taken next hchar
      rw [hchar] at hreader
      split at h
      · rename_i text last htext
        cases h
        have hspans : choiceSpans line = next.quoteSpans := by
          simp only [choiceSpans, hoffset, hchar]
        rw [hspans, String.toList_ofList]
        exact hreader.exists_slice?_of_untilQuote (congrArg Prod.fst htext)
      · cases h

theorem fits_of_mem_spans {keyword : Keyword} {offset : Nat} (hoffset : Boundary line offset)
    (h : span ∈ spans keyword line offset) : span.Fits line := by
  have hscan := Reader.AtBoundary.start hoffset
  cases keyword with
  | write | createObject | listName => exact fits_of_quotedSpan? (Option.mem_toList.mp h)
  | createList => exact fits_of_bracketSpan? (Option.mem_toList.mp h)
  | drawColor | drawPos | drawCurve => exact Pattern.fits_of_mem_spans hscan h
  | drawSquare =>
      rcases List.mem_append.mp h with h | h
      · exact Pattern.fits_of_mem_spans hscan h
      · exact fits_of_mem_choiceSpans h
  | endWork => cases h

end Command

namespace Dialect

/-- The texts cut out in telling a line apart: the strict dialect takes its leading word. -/
def wordSpans : Dialect → List Char → List Span
  | .strict, line => [leadingWord line]
  | .legacy, _ => []

/-- All texts cut out of a line in reading it. -/
def spans (dialect : Dialect) (line : List Char) : List Span :=
  if dialect.skips line then []
  else dialect.wordSpans line ++
    match dialect.recognize line with
    | none => []
    | some (keyword, offset) => Command.spans keyword line offset

theorem fits_of_mem_spans {dialect : Dialect} {line : List Char} {span : Span}
    (h : span ∈ dialect.spans line) : span.Fits line := by
  unfold spans at h
  split at h
  · cases h
  rcases List.mem_append.mp h with h | h
  · cases dialect with
    | strict =>
        rw [wordSpans, List.mem_singleton] at h
        rw [h, ← Span.isSome_slice?_iff, slice?_leadingWord]
        rfl
    | legacy => cases h
  · split at h
    · cases h
    · rename_i keyword offset hrecognize
      obtain ⟨before, rest, hline, hsize, -⟩ := exists_of_recognize hrecognize
      exact Command.fits_of_mem_spans ⟨before, rest, hline, hsize⟩ h

end Dialect

/-! ## Everything executed -/

namespace Session

variable {α : Type} [Scalar α]

/--
Whatever is executed, no partial operation fails in it. Every text cut out of the line lies in it,
from one character boundary to a later one, and the name of a list to choose from is such a text.
Every scan that succeeds has just the fields that its pattern asks for, and so those that the
commands take. Every item is picked by a place in its list, and no place is drawn for a list that
holds nothing.
-/
theorem accesses_of_history (settings : Settings α) (entropy : ChaCha.Key) (limit : Option Nat)
    (actions : List Action) :
    ∀ e ∈ (start settings entropy limit).history actions,
      e.session.settings = settings ∧
      (∀ span ∈ settings.dialect.spans e.line,
        span.Fits e.line ∧ (span.slice? e.line).isSome) ∧
      (∀ name, Command.choiceArgument e.line = .ok (some name) →
        ∃ span ∈ Command.choiceSpans e.line, span.slice? e.line = some name.toList) ∧
      (∀ (pattern : Pattern) (offset : Nat) (fields : List (Field α)),
        pattern.read e.line offset = .ok fields →
          fields.map Field.item = pattern.filter Item.isField ∧
          (pattern.spans (.start e.line offset)).length = fields.length) ∧
      (∀ (offset : Nat) (fields : List (Field α)),
        (Command.colorPattern.read e.line offset = .ok fields →
          ∃ red green blue, fields = [.integer red, .integer green, .integer blue]) ∧
        (Command.positionPattern.read e.line offset = .ok fields →
          ∃ x y, fields = [.number x, .number y]) ∧
        (Command.curvePattern.read e.line offset = .ok fields →
          ∃ dx dy, fields = [.number dx, .number dy]) ∧
        (Command.sidePattern.read e.line offset = .ok fields →
          ∃ side, fields = [.number side])) ∧
      ∀ (name : String) (items : Array α), e.session.store.list? name = some items →
        let g := e.session.generator
        (items = #[] ∧ g.pickNamed? e.session.store name = (none, g)) ∨
        ∃ hlt : (g.below items.size).1 < items.size, 0 < items.size ∧
          g.pickNamed? e.session.store name =
            (some items[(g.below items.size).1], (g.below items.size).2) := by
  intro e he
  refine ⟨(leads_history _ actions).settings_of_mem he, ?_,
    fun _ => Command.exists_slice?_of_choiceArgument, ?_, ?_, ?_⟩
  · intro span hspan
    have hfits := Dialect.fits_of_mem_spans hspan
    exact ⟨hfits, Span.isSome_slice?_iff.mpr hfits⟩
  · intro pattern offset fields h
    have hitems := Pattern.items_of_read h
    exact ⟨hitems, by rw [Pattern.length_spans h, ← hitems, List.length_map]⟩
  · intro offset fields
    exact ⟨Command.exists_channels, fun h => Command.exists_coordinates h rfl,
      fun h => Command.exists_coordinates h rfl, Command.exists_side⟩
  · intro name items h
    exact Generator.pickNamed?_of_list? h e.session.generator

theorem accesses_of_history_choice :
    let s : Session Rat := start Settings.standard (.replicate 8 0) none
    let lines := ["create.list[10,20]".toList, "list.name(\"é\")".toList]
    let line := "draw.square(L:2.5) random.choice( \"é\") ".toList
    let spans := [⟨0, 11⟩, ⟨14, 17⟩, ⟨35, 40⟩, ⟨35, 37⟩]
    let e : Execution Rat := ⟨s.after lines, line⟩
    e ∈ s.history ((lines ++ [line]).map .line) ∧
      s.settings.dialect.spans line = spans ∧
      (∀ span ∈ spans, span.Fits line ∧ (span.slice? line).isSome) ∧
      Command.sidePattern.read line 0 = .ok [Field.number (5 / 2 : Rat)] ∧
      (Command.sidePattern.spans (.start line 0)).length = 1 ∧
      ∃ (items : Array Rat) (hlt : (e.session.generator.below items.size).1 < items.size),
        e.session.store.list? "é" = some items ∧
          (e.session.generator.pickNamed? e.session.store "é").1 =
            some items[(e.session.generator.below items.size).1] := by
  intro s lines line spans e
  have he : e ∈ s.history ((lines ++ [line]).map .line) :=
    .tail _ (.tail _ (.head _))
  have hspans : s.settings.dialect.spans line = spans := by decide +kernel
  have hread : Command.sidePattern.read line 0 = .ok [Field.number (5 / 2 : Rat)] := by
    decide +kernel
  have hlist : e.session.store.list? "é" = some #[10, 20] := by decide +kernel
  obtain ⟨-, hfits, -, hscan, -, hpick⟩ :=
    accesses_of_history Settings.standard (.replicate 8 0) none _ e he
  refine ⟨he, hspans, ?_, hread, (hscan _ _ _ hread).2, #[10, 20], ?_⟩
  · exact hspans ▸ hfits
  · rcases hpick "é" _ hlist with ⟨hempty, -⟩ | ⟨hlt, -, hpicked⟩
    · cases hempty
    · exact ⟨hlt, hlist, congrArg Prod.fst hpicked⟩

end Session
end PenScript
