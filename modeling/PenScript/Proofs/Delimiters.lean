import PenScript.Command.Basic
import PenScript.Proofs.Spans
import Mathlib.Data.List.Infix

/-!
# Delimited text

What stands between the outer quotes of a line, or between its first brackets, told by how the line
falls apart around them.
-/

set_option autoImplicit false

namespace PenScript

/-! ## Single characters -/

namespace Span

variable {c : Char}

theorem find?_char {before : List Char} (hc : c ∉ before) (after : List Char) :
    find? [c] (before ++ c :: after) = some (Utf8.size before) :=
  find?_append hc [] after

theorem find?_char_eq_none {text : List Char} (hc : c ∉ text) : find? [c] text = none := by
  rw [find?_eq_none_iff (by simp), List.singleton_infix_iff]
  exact hc

/-- A needle without the character stands on one side of it. -/
theorem infix_append_cons_iff {needle : List Char} (hc : c ∉ needle) (before after : List Char) :
    needle <:+: before ++ c :: after ↔ needle <:+: before ∨ needle <:+: after := by
  constructor
  · rintro ⟨first, later, h⟩
    rw [List.append_assoc] at h
    obtain ⟨rest, rfl, hrest⟩ | ⟨rest, -, hrest⟩ := List.append_eq_append_iff.mp h
    · -- The needle starts in front of the character, and cannot reach over it.
      obtain ⟨tail, rfl, -⟩ | ⟨tail, rfl, htail⟩ := List.append_eq_append_iff.mp hrest
      · exact Or.inl ⟨first, tail, by simp⟩
      · obtain ⟨rfl, -⟩ | ⟨tail, rfl, -⟩ := List.cons_eq_append_iff.mp htail
        · exact Or.inl ⟨first, [], by simp⟩
        · simp at hc
    · obtain ⟨-, hneedle⟩ | ⟨rest, -, rfl⟩ := List.cons_eq_append_iff.mp hrest
      · obtain ⟨rfl, -⟩ | ⟨tail, rfl, -⟩ := List.append_eq_cons_iff.mp hneedle
        · exact Or.inl List.nil_infix
        · simp at hc
      · exact Or.inr ⟨rest, later, by simp⟩
  · rintro (h | h)
    · exact List.infix_append_of_infix_left h
    · exact List.infix_append_of_infix_right (List.infix_cons h)

theorem eq_append_cons_of_mem_last {β : Type} {x : β} {items : List β} (hx : x ∈ items) :
    ∃ before after, items = before ++ x :: after ∧ x ∉ after := by
  obtain ⟨after, before, hitems, hafter⟩ := List.eq_append_cons_of_mem (List.mem_reverse.mpr hx)
  refine ⟨before.reverse, after.reverse, ?_, by simpa using hafter⟩
  rw [← List.reverse_reverse items, hitems]
  simp

theorem slice?_between (before text after : List Char) (d : Char) :
    slice? (before ++ c :: (text ++ d :: after))
      ⟨Utf8.size before + c.utf8Size, Utf8.size (before ++ c :: text)⟩ = some text := by
  have h := slice?_size (before ++ [c]) text (d :: after)
  simpa [Nat.add_assoc] using h

end Span

namespace Command

/-! ## Quotes -/

/-- A line has no quote, a single one, or some text between its first and its last. -/
inductive Quotes : List Char → Option (List Char) → Prop where
  | absent {line : List Char} (h : '"' ∉ line) : Quotes line none
  | single {before after : List Char} (hbefore : '"' ∉ before) (hafter : '"' ∉ after) :
      Quotes (before ++ '"' :: after) none
  | between {before text after : List Char} (hbefore : '"' ∉ before) (hafter : '"' ∉ after) :
      Quotes (before ++ '"' :: (text ++ '"' :: after)) (some text)

theorem quotedSpan?_eq {line : List Char} {first last : Nat}
    (hfirst : Span.find? ['"'] line = some first) (hlast : Span.findLast? '"' line = some last) :
    quotedSpan? line = if first + 1 ≤ last then some ⟨first + 1, last⟩ else none := by
  simp [quotedSpan?, hfirst, hlast]

theorem exists_quotes (line : List Char) : ∃ found, Quotes line found := by
  by_cases hline : '"' ∈ line
  · obtain ⟨before, rest, rfl, hbefore⟩ := List.eq_append_cons_of_mem hline
    by_cases hrest : '"' ∈ rest
    · obtain ⟨text, after, rfl, hafter⟩ := Span.eq_append_cons_of_mem_last hrest
      exact ⟨_, .between hbefore hafter⟩
    · exact ⟨_, .single hbefore hrest⟩
  · exact ⟨_, .absent hline⟩

theorem Quotes.quoted?_eq {line : List Char} {found : Option (List Char)} (h : Quotes line found) :
    quoted? line = found := by
  cases h with
  | absent h => simp [quoted?, quotedSpan?, Span.find?_char_eq_none h]
  | @single before after hbefore hafter =>
      have hgt : ¬ Utf8.size before + 1 ≤ Utf8.size before := by omega
      rw [quoted?, quotedSpan?_eq (Span.find?_char hbefore after)
        (Span.findLast?_append hafter before), if_neg hgt]
      rfl
  | @between before text after hbefore hafter =>
      have hlast : Span.findLast? '"' (before ++ '"' :: (text ++ '"' :: after)) =
          some (Utf8.size (before ++ '"' :: text)) := by
        have h := Span.findLast?_append hafter (before ++ '"' :: text)
        rwa [List.append_assoc] at h
      have hquote : '"'.utf8Size = 1 := by decide
      have hle : Utf8.size before + 1 ≤ Utf8.size (before ++ '"' :: text) := by
        rw [Utf8.size_append, Utf8.size_cons, hquote]
        omega
      rw [quoted?, quotedSpan?_eq (Span.find?_char hbefore _) hlast, if_pos hle]
      exact Span.slice?_between before text after '"'

theorem quotes_quoted? (line : List Char) : Quotes line (quoted? line) := by
  obtain ⟨found, h⟩ := exists_quotes line
  rwa [h.quoted?_eq]

theorem Quotes.append {before rest : List Char} {found : Option (List Char)}
    (hbefore : '"' ∉ before) (h : Quotes rest found) : Quotes (before ++ rest) found := by
  cases h with
  | absent h => exact .absent (by simp [hbefore, h])
  | single hb ha =>
      rw [← List.append_assoc]
      exact .single (by simp [hbefore, hb]) ha
  | between hb ha =>
      rw [← List.append_assoc]
      exact .between (by simp [hbefore, hb]) ha

theorem quoted?_append {before : List Char} (hbefore : '"' ∉ before) (rest : List Char) :
    quoted? (before ++ rest) = quoted? rest :=
  ((quotes_quoted? rest).append hbefore).quoted?_eq

/-- A quote further left takes more text in. -/
theorem quoted?_append_ne {before rest : List Char} (hbefore : '"' ∈ before) (hrest : '"' ∈ rest) :
    quoted? (before ++ rest) ≠ quoted? rest := by
  obtain ⟨first, inner, rfl, hfirst⟩ := List.eq_append_cons_of_mem hbefore
  obtain ⟨text, after, rfl, hafter⟩ := Span.eq_append_cons_of_mem_last hrest
  have hwhole : quoted? (first ++ '"' :: inner ++ (text ++ '"' :: after)) =
      some (inner ++ text) := by
    have h : Quotes (first ++ '"' :: (inner ++ text ++ '"' :: after)) (some (inner ++ text)) :=
      .between hfirst hafter
    simpa using h.quoted?_eq
  rw [hwhole]
  intro h
  have hquotes := quotes_quoted? (text ++ '"' :: after)
  rw [← h] at hquotes
  generalize hline : text ++ '"' :: after = line at hquotes
  generalize hfound : some (inner ++ text) = found at hquotes
  cases hquotes with
  | absent _ => cases hfound
  | single _ _ => cases hfound
  | @between before' text' after' _ hafter' =>
      cases hfound
      -- Both splits are made at the last quote, so they leave equally much before it.
      have hsize := Span.findLast?_append hafter text
      have hsize' := Span.findLast?_append hafter' (before' ++ '"' :: (inner ++ text))
      rw [hline] at hsize
      rw [List.append_assoc, List.cons_append, hsize] at hsize'
      simp only [Option.some.injEq, Utf8.size_append, Utf8.size_cons] at hsize'
      have := '"'.utf8Size_pos
      omega

/-! ## Brackets -/

/-- The text that is read as a list of numbers. -/
def bracketed? (line : List Char) : Option (List Char) :=
  (bracketSpan? line).bind fun span => span.slice? line

theorem bracketSpan?_eq {line : List Char} {first last : Nat}
    (hfirst : Span.find? ['['] line = some first) (hlast : Span.find? [']'] line = some last) :
    bracketSpan? line = if first < last then some ⟨first + 1, last⟩ else none := by
  simp [bracketSpan?, hfirst, hlast]

/-- A bracket is missing, or they come in the wrong order, or there is some text between them. -/
inductive Brackets : List Char → Option (List Char) → Prop where
  | unopened {line : List Char} (h : '[' ∉ line) : Brackets line none
  | unclosed {line : List Char} (h : ']' ∉ line) : Brackets line none
  | reversed {before between after : List Char} (hbefore : '[' ∉ before) (hclose : ']' ∉ before)
      (hbetween : '[' ∉ between) :
      Brackets (before ++ ']' :: (between ++ '[' :: after)) none
  | between {before text after : List Char} (hbefore : '[' ∉ before) (hclose : ']' ∉ before)
      (htext : ']' ∉ text) : Brackets (before ++ '[' :: (text ++ ']' :: after)) (some text)

theorem exists_brackets (line : List Char) : ∃ found, Brackets line found := by
  by_cases hopen : '[' ∈ line
  · obtain ⟨before, rest, rfl, hbefore⟩ := List.eq_append_cons_of_mem hopen
    by_cases hclose : ']' ∈ before
    · obtain ⟨first, between, rfl, hfirst⟩ := List.eq_append_cons_of_mem hclose
      simp only [List.mem_append, List.mem_cons, not_or] at hbefore
      obtain ⟨hb, -, hbetween⟩ := hbefore
      rw [List.append_assoc]
      exact ⟨_, .reversed hb hfirst hbetween⟩
    · by_cases hrest : ']' ∈ rest
      · obtain ⟨text, after, rfl, htext⟩ := List.eq_append_cons_of_mem hrest
        exact ⟨_, .between hbefore hclose htext⟩
      · exact ⟨_, .unclosed (by simp [hclose, hrest])⟩
  · exact ⟨_, .unopened hopen⟩

theorem Brackets.bracketed?_eq {line : List Char} {found : Option (List Char)}
    (h : Brackets line found) : bracketed? line = found := by
  cases h with
  | unopened h => simp [bracketed?, bracketSpan?, Span.find?_char_eq_none h]
  | unclosed h =>
      cases hfirst : Span.find? ['['] line <;>
        simp [bracketed?, bracketSpan?, hfirst, Span.find?_char_eq_none h]
  | @reversed before between after hbefore hclose hbetween =>
      have hopen : Span.find? ['['] (before ++ ']' :: (between ++ '[' :: after)) =
          some (Utf8.size (before ++ ']' :: between)) := by
        have hnotin : '[' ∉ before ++ ']' :: between := by simp [hbefore, hbetween]
        have h := Span.find?_char hnotin after
        rwa [List.append_assoc] at h
      have hle : ¬ Utf8.size (before ++ ']' :: between) < Utf8.size before := by
        rw [Utf8.size_append]
        omega
      rw [bracketed?, bracketSpan?_eq hopen (Span.find?_char hclose _), if_neg hle]
      rfl
  | @between before text after hbefore hclose htext =>
      have hlast : Span.find? [']'] (before ++ '[' :: (text ++ ']' :: after)) =
          some (Utf8.size (before ++ '[' :: text)) := by
        have hnotin : ']' ∉ before ++ '[' :: text := by simp [hclose, htext]
        have h := Span.find?_char hnotin after
        rwa [List.append_assoc] at h
      have hbracket : '['.utf8Size = 1 := by decide
      have hlt : Utf8.size before < Utf8.size (before ++ '[' :: text) := by
        rw [Utf8.size_append, Utf8.size_cons, hbracket]
        omega
      rw [bracketed?, bracketSpan?_eq (Span.find?_char hbefore _) hlast, if_pos hlt]
      exact Span.slice?_between before text after ']'

theorem brackets_bracketed? (line : List Char) : Brackets line (bracketed? line) := by
  obtain ⟨found, h⟩ := exists_brackets line
  rwa [h.bracketed?_eq]

theorem Brackets.append {before rest : List Char} {found : Option (List Char)}
    (hopen : '[' ∉ before) (hclose : ']' ∉ before) (h : Brackets rest found) :
    Brackets (before ++ rest) found := by
  cases h with
  | unopened h => exact .unopened (by simp [hopen, h])
  | unclosed h => exact .unclosed (by simp [hclose, h])
  | reversed hb hc hbetween =>
      rw [← List.append_assoc]
      exact .reversed (by simp [hopen, hb]) (by simp [hclose, hc]) hbetween
  | between hb hc htext =>
      rw [← List.append_assoc]
      exact .between (by simp [hopen, hb]) (by simp [hclose, hc]) htext

theorem bracketed?_append {before : List Char} (hopen : '[' ∉ before) (hclose : ']' ∉ before)
    (rest : List Char) : bracketed? (before ++ rest) = bracketed? rest :=
  ((brackets_bracketed? rest).append hopen hclose).bracketed?_eq

end Command
end PenScript
