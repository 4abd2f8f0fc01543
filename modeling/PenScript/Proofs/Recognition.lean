import PenScript.Command.Dialect
import PenScript.Proofs.Spans

/-!
# Telling lines apart

What the dialects find in lines that begin with a keyword, and in lines with none of the fixed texts.
-/

set_option autoImplicit false

namespace PenScript

/-! ## Keywords -/

namespace Keyword

theorem ofWord?_text (keyword : Keyword) : ofWord? keyword.text.toList = some keyword := by
  cases keyword <;> decide

theorem text_of_ofWord? {word : List Char} {keyword : Keyword} (h : ofWord? word = some keyword) :
    keyword.text.toList = word := by
  simpa using List.find?_some h

theorem endsWord_of_mem_text {keyword : Keyword} {c : Char} (h : c ∈ keyword.text.toList) :
    Dialect.endsWord c = false := by
  have hall : keyword.text.toList.all (fun c => !Dialect.endsWord c) := by
    cases keyword <;> decide
  simpa using List.all_eq_true.mp hall c h

theorem text_eq_cons (keyword : Keyword) :
    ∃ c rest, keyword.text.toList = c :: rest ∧ Blank.isBlank c = false ∧ c ≠ '/' := by
  cases keyword <;> exact ⟨_, _, rfl, by decide, by decide⟩

/-- Does the keyword name one of the commands with a pattern? -/
def draws : Keyword → Bool
  | .drawColor | .drawPos | .drawSquare | .drawCurve => true
  | _ => false

end Keyword

namespace Dialect

/-! ## The leading word -/

def firstWord (line : List Char) : List Char :=
  (Blank.trimStart line).takeWhile fun c => !endsWord c

theorem slice?_leadingWord (line : List Char) :
    (leadingWord line).slice? line = some (firstWord line) := by
  have hword := List.takeWhile_append_dropWhile (p := fun c => !endsWord c)
    (l := Blank.trimStart line)
  have hline := List.takeWhile_append_dropWhile (p := Blank.isBlank) (l := line)
  rw [← Blank.trimStart, ← hword] at hline
  have hslice := Span.slice?_size (line.takeWhile Blank.isBlank) (firstWord line)
    ((Blank.trimStart line).dropWhile fun c => !endsWord c)
  rw [firstWord, hline] at hslice
  exact hslice

theorem findLeading_eq (line : List Char) :
    findLeading line = (Keyword.ofWord? (firstWord line)).map fun keyword =>
      (keyword, Utf8.size (line.takeWhile Blank.isBlank)) := by
  simp only [findLeading, slice?_leadingWord, Option.bind_eq_bind, Option.bind_some]
  cases Keyword.ofWord? (firstWord line) <;> rfl

theorem exists_of_findLeading {line : List Char} {keyword : Keyword} {offset : Nat}
    (h : findLeading line = some (keyword, offset)) :
    ∃ ws rest, line = ws ++ rest ∧ Utf8.size ws = offset ∧ (∀ c ∈ ws, Blank.isBlank c) ∧
      keyword.text.toList <+: rest := by
  rw [findLeading_eq, Option.map_eq_some_iff] at h
  obtain ⟨found, hword, hfound⟩ := h
  cases hfound
  refine ⟨_, Blank.trimStart line, List.takeWhile_append_dropWhile.symm, rfl, ?_, ?_⟩
  · exact List.all_eq_true.mp List.all_takeWhile
  · rw [Keyword.text_of_ofWord? hword]
    exact List.takeWhile_prefix _

section

variable {ws rest : List Char} (hws : ∀ c ∈ ws, Blank.isBlank c)

include hws

theorem takeWhile_isBlank_append {c : Char} (hc : Blank.isBlank c = false) :
    (ws ++ c :: rest).takeWhile Blank.isBlank = ws := by
  rw [List.takeWhile_append_of_pos hws, List.takeWhile_cons_of_neg (by simp [hc]),
    List.append_nil]

theorem trimStart_append {c : Char} (hc : Blank.isBlank c = false) :
    Blank.trimStart (ws ++ c :: rest) = c :: rest := by
  rw [Blank.trimStart, List.dropWhile_append_of_pos hws, List.dropWhile_cons_of_neg (by simp [hc])]

theorem firstWord_append (keyword : Keyword) (hrest : ∀ c ∈ rest.head?, endsWord c) :
    firstWord (ws ++ (keyword.text.toList ++ rest)) = keyword.text.toList := by
  obtain ⟨c, tail, htext, hc, -⟩ := keyword.text_eq_cons
  have htrim : Blank.trimStart (ws ++ (keyword.text.toList ++ rest)) =
      keyword.text.toList ++ rest := by
    rw [htext, List.cons_append]
    exact trimStart_append hws hc
  have hword : ∀ c ∈ keyword.text.toList, !endsWord c := by
    intro c hc
    simp [Keyword.endsWord_of_mem_text hc]
  rw [firstWord, htrim, List.takeWhile_append_of_pos hword]
  cases rest with
  | nil => simp
  | cons c rest =>
      have hc : endsWord c = true := hrest c rfl
      rw [List.takeWhile_cons_of_neg (by simp [hc]), List.append_nil]

theorem findLeading_append (keyword : Keyword) (hrest : ∀ c ∈ rest.head?, endsWord c) :
    findLeading (ws ++ (keyword.text.toList ++ rest)) = some (keyword, Utf8.size ws) := by
  rw [findLeading_eq, firstWord_append hws keyword hrest, Keyword.ofWord?_text, Option.map_some]
  obtain ⟨c, tail, htext, hc, -⟩ := keyword.text_eq_cons
  rw [htext, List.cons_append, takeWhile_isBlank_append hws hc]

/-! ## Skipped lines -/

theorem skips_append (dialect : Dialect) {c : Char} (hc : Blank.isBlank c = false)
    (hslash : c ≠ '/') : dialect.skips (ws ++ c :: rest) = false := by
  cases dialect with
  | strict =>
      obtain ⟨tail, htrim⟩ : ∃ tail, Blank.trim (ws ++ c :: rest) = c :: tail := by
        rw [Blank.trim, trimStart_append hws hc, Blank.trimEnd, List.reverse_cons,
          List.dropWhile_append]
        split
        · exact ⟨[], by simp [hc]⟩
        · exact ⟨_, List.reverse_append⟩
      simp [skips, htrim, comment, List.isPrefixOf, Ne.symm hslash]
  | legacy =>
      cases ws with
      | nil => simp [skips, comment, List.isPrefixOf, Ne.symm hslash]
      | cons d ws =>
          have hd : '/' ≠ d := by
            rintro rfl
            exact absurd (hws '/' (List.mem_cons_self ..)) (by decide)
          simp [skips, comment, List.isPrefixOf, hd]

end

theorem skips_keyword (dialect : Dialect) {ws : List Char} (hws : ∀ c ∈ ws, Blank.isBlank c)
    (keyword : Keyword) (rest : List Char) :
    dialect.skips (ws ++ (keyword.text.toList ++ rest)) = false := by
  obtain ⟨c, tail, htext, hc, hslash⟩ := keyword.text_eq_cons
  rw [htext, List.cons_append]
  exact skips_append hws dialect hc hslash

/-! ## Fixed texts -/

theorem needle_ne_nil {entry : Keyword × String} (h : entry ∈ needles) :
    entry.2.toList ≠ [] := by
  have hall : ∀ entry ∈ needles, entry.2.toList ≠ [] := by decide
  exact hall entry h

/-- Behind its keyword, a fixed text has nothing or a character that ends the word. -/
theorem needle_eq {entry : Keyword × String} (h : entry ∈ needles) :
    ∃ tail, entry.2.toList = entry.1.text.toList ++ tail ∧ (∀ c ∈ tail.head?, endsWord c) ∧
      (tail = [] → entry.1.draws) := by
  have hall : ∀ entry ∈ needles,
      let tail := entry.2.toList.drop entry.1.text.toList.length
      entry.2.toList = entry.1.text.toList ++ tail ∧ tail.head?.all endsWord ∧
        (tail = [] → entry.1.draws) := by
    decide
  obtain ⟨hneedle, hends, hdraws⟩ := hall entry h
  refine ⟨_, hneedle, ?_, hdraws⟩
  intro c hc
  rw [Option.mem_def.mp hc, Option.all_some] at hends
  exact hends

theorem ne_endWork_of_mem_needles {entry : Keyword × String} (h : entry ∈ needles) :
    entry.1 ≠ .endWork := by
  have hall : ∀ entry ∈ needles, entry.1 ≠ .endWork := by decide
  exact hall entry h

theorem findAnywhere_eq_none {line : List Char}
    (h : ∀ entry ∈ needles, ¬ entry.2.toList <:+: line) : findAnywhere line = none := by
  rw [findAnywhere, List.findSome?_eq_none_iff]
  intro entry hm
  rw [Option.map_eq_none_iff, Span.find?_eq_none_iff (needle_ne_nil hm)]
  exact h entry hm

/-- The first fixed text that occurs decides. -/
theorem findAnywhere_eq_some {line : List Char} {before after : List (Keyword × String)}
    {keyword : Keyword} {needle : String} {offset : Nat}
    (hneedles : needles = before ++ (keyword, needle) :: after)
    (hbefore : ∀ entry ∈ before, ¬ entry.2.toList <:+: line)
    (hfound : Span.find? needle.toList line = some offset) :
    findAnywhere line = some (keyword, offset) := by
  have hnone : before.findSome? (fun entry : Keyword × String =>
      (Span.find? entry.2.toList line).map fun offset => (entry.1, offset)) = none := by
    rw [List.findSome?_eq_none_iff]
    intro entry hm
    have hne : entry.2.toList ≠ [] := needle_ne_nil (by rw [hneedles]; simp [hm])
    rw [Option.map_eq_none_iff, Span.find?_eq_none_iff hne]
    exact hbefore entry hm
  rw [findAnywhere, hneedles, List.findSome?_append, hnone, Option.none_or,
    List.findSome?_cons_of_isSome (by simp [hfound])]
  exact congrArg (Option.map fun offset => (keyword, offset)) hfound

/-- A command whose fixed text stands at the beginning is told apart in the same way by both. -/
theorem recognize_command {ws rest : List Char} {before after : List (Keyword × String)}
    {keyword : Keyword} {needle : String}
    (hentry : needles = before ++ (keyword, needle) :: after)
    (hws : ∀ c ∈ ws, Blank.isBlank c) (hopen : keyword.draws → rest.head? = some '(')
    (hbefore : ∀ entry ∈ before, ¬ entry.2.toList <:+: ws ++ (needle.toList ++ rest))
    (dialect : Dialect) :
    let line := ws ++ (needle.toList ++ rest)
    dialect.skips line = false ∧ dialect.recognize line = some (keyword, Utf8.size ws) := by
  intro line
  have hm : (keyword, needle) ∈ needles := by
    rw [hentry]
    simp
  obtain ⟨tail, hneedle, htail, hdraws⟩ := needle_eq hm
  have hline : line = ws ++ (keyword.text.toList ++ (tail ++ rest)) := by
    simp only [line, hneedle, List.append_assoc]
  have hends : ∀ c ∈ (tail ++ rest).head?, endsWord c := by
    cases tail with
    | nil =>
        intro c hc
        rw [List.nil_append, hopen (hdraws rfl)] at hc
        cases hc
        decide
    | cons d tail => exact htail
  refine ⟨by rw [hline]; exact skips_keyword dialect hws keyword _, ?_⟩
  cases dialect with
  | strict =>
      rw [hline]
      exact findLeading_append hws keyword hends
  | legacy =>
      obtain ⟨c, text, htext, hc, -⟩ := keyword.text_eq_cons
      -- A fixed text starts with a letter, so the white space holds no occurrence of it.
      have hnotin : c ∉ ws := fun hm => by simp [hws c hm] at hc
      refine findAnywhere_eq_some hentry hbefore ?_
      simp only [line, hneedle, htext, List.cons_append]
      exact Span.find?_append hnotin (text ++ tail) rest

theorem exists_of_findAnywhere {line : List Char} {keyword : Keyword} {offset : Nat}
    (h : findAnywhere line = some (keyword, offset)) :
    ∃ before rest needle, line = before ++ rest ∧ Utf8.size before = offset ∧
      (keyword, needle) ∈ needles ∧ needle.toList <+: rest := by
  obtain ⟨⟨found, needle⟩, hm, hfound⟩ := List.exists_of_findSome?_eq_some h
  obtain ⟨place, hplace, heq⟩ := Option.map_eq_some_iff.mp hfound
  cases heq
  obtain ⟨before, rest, hline, hsize, hneedle⟩ := Span.exists_of_find? hplace
  exact ⟨before, rest, needle, hline, hsize, hm, hneedle⟩

/-- A command is found where its keyword stands, after white space only or at a fixed text. -/
theorem exists_of_recognize {dialect : Dialect} {line : List Char} {keyword : Keyword}
    {offset : Nat} (h : dialect.recognize line = some (keyword, offset)) :
    ∃ before rest, line = before ++ rest ∧ Utf8.size before = offset ∧
      keyword.text.toList <+: rest ∧ (dialect = .strict → ∀ c ∈ before, Blank.isBlank c) ∧
      (dialect = .legacy → ∃ needle, (keyword, needle) ∈ needles ∧ needle.toList <+: rest) := by
  cases dialect with
  | strict =>
      obtain ⟨ws, rest, hline, hsize, hws, htext⟩ := exists_of_findLeading h
      exact ⟨ws, rest, hline, hsize, htext, fun _ => hws, nofun⟩
  | legacy =>
      obtain ⟨before, rest, needle, hline, hsize, hm, hneedle⟩ := exists_of_findAnywhere h
      obtain ⟨tail, heq, -⟩ := needle_eq hm
      have htext : keyword.text.toList <+: needle.toList := ⟨tail, heq.symm⟩
      exact ⟨before, rest, hline, hsize, htext.trans hneedle, nofun, fun _ => ⟨needle, hm, hneedle⟩⟩

/-! ## Lines that end the script -/

theorem terminator_ne_nil : terminator ≠ [] := by
  decide

theorem stops_legacy_iff (line : List Char) : stops .legacy line ↔ terminator <:+: line :=
  Span.isSome_find?_iff terminator_ne_nil line

end Dialect
end PenScript
