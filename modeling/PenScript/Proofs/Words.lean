import PenScript.Proofs.Recognition
import PenScript.Proofs.Trims

/-!
# Leading words

What the strict dialect takes for a command, told by how the line begins: with white space, a
keyword, and then an opening bracket, white space or nothing. Such a line is neither blank nor a
comment.
-/

set_option autoImplicit false

namespace PenScript.Dialect

/-! ## Words that end -/

theorem endsWord_iff {c : Char} : endsWord c ↔ c = '(' ∨ c = '[' ∨ Blank.isBlank c := by
  simp [endsWord, or_assoc]

/-- White space of so many bytes comes first, then the keyword, and nothing that carries it on. -/
def Opens (line : List Char) (keyword : Keyword) (offset : Nat) : Prop :=
  ∃ ws rest, line = ws ++ (keyword.text.toList ++ rest) ∧ Utf8.size ws = offset ∧
    (∀ c ∈ ws, Blank.isBlank c) ∧ ∀ c ∈ rest.head?, c = '(' ∨ c = '[' ∨ Blank.isBlank c

theorem findLeading_eq_some_iff {line : List Char} {keyword : Keyword} {offset : Nat} :
    findLeading line = some (keyword, offset) ↔ Opens line keyword offset := by
  constructor
  · intro h
    rw [findLeading_eq, Option.map_eq_some_iff] at h
    obtain ⟨found, hword, hfound⟩ := h
    cases hfound
    refine ⟨line.takeWhile Blank.isBlank, (Blank.trimStart line).dropWhile fun c => !endsWord c,
      ?_, rfl, List.all_eq_true.mp List.all_takeWhile, ?_⟩
    · rw [Keyword.text_of_ofWord? hword, firstWord, List.takeWhile_append_dropWhile]
      exact List.takeWhile_append_dropWhile.symm
    · intro c hc
      have hstop := List.head?_dropWhile_not (fun c => !endsWord c) (Blank.trimStart line)
      rw [Option.mem_def.mp hc] at hstop
      exact endsWord_iff.mp (by simpa using hstop)
  · rintro ⟨ws, rest, rfl, rfl, hws, hrest⟩
    exact findLeading_append hws keyword fun c hc => endsWord_iff.mpr (hrest c hc)

theorem Opens.unique {line : List Char} {keyword keyword' : Keyword} {offset offset' : Nat}
    (h : Opens line keyword offset) (h' : Opens line keyword' offset') :
    keyword = keyword' ∧ offset = offset' := by
  have heq := (findLeading_eq_some_iff.mpr h).symm.trans (findLeading_eq_some_iff.mpr h')
  exact Prod.mk.inj (Option.some.inj heq)

/-! ## Blank lines and comments -/

theorem skips_strict_iff (line : List Char) :
    strict.skips line ↔ Blank.trim line = [] ∨ ['/', '/'] <+: Blank.trim line := by
  rw [skips, Bool.or_eq_true, List.isEmpty_iff, List.isPrefixOf_iff_prefix]
  rfl

theorem Opens.not_skips {line : List Char} {keyword : Keyword} {offset : Nat}
    (h : Opens line keyword offset) : strict.skips line = false := by
  obtain ⟨ws, rest, rfl, -, hws, -⟩ := h
  exact skips_keyword strict hws keyword rest

theorem findLeading_of_skips {line : List Char} (h : strict.skips line) :
    findLeading line = none := by
  rw [Option.eq_none_iff_forall_ne_some]
  rintro ⟨keyword, offset⟩ hfound
  have hopens := findLeading_eq_some_iff.mp hfound
  exact Bool.false_ne_true (hopens.not_skips.symm.trans h)

/-! ## Commands and ends -/

theorem stops_strict_iff (line : List Char) :
    strict.stops line ↔ ∃ offset, strict.recognize line = some (.endWork, offset) := by
  have hstops : strict.stops line =
      (!strict.skips line && (strict.recognize line).any fun found => found.1 = .endWork) := rfl
  rw [hstops, Bool.and_eq_true, Bool.not_eq_true', Option.any_eq_true]
  constructor
  · rintro ⟨-, ⟨keyword, offset⟩, hfound, hkeyword⟩
    cases of_decide_eq_true hkeyword
    exact ⟨offset, hfound⟩
  · rintro ⟨offset, hfound⟩
    exact ⟨(findLeading_eq_some_iff.mp hfound).not_skips, (.endWork, offset), hfound, rfl⟩

/--
The strict dialect takes a line for a command if and only if it opens with the keyword, at the one
place where it can. A line that is blank or a comment never does so, and a line ends the script if
and only if the keyword it opens with says so.
-/
theorem strict_recognize_iff (line : List Char) :
    (∀ keyword offset, strict.recognize line = some (keyword, offset) ↔
      Opens line keyword offset) ∧
    (∀ keyword offset keyword' offset', Opens line keyword offset →
      Opens line keyword' offset' → keyword = keyword' ∧ offset = offset') ∧
    (∀ keyword offset, Opens line keyword offset → strict.skips line = false) ∧
    (strict.skips line ↔ Blank.trim line = [] ∨ ['/', '/'] <+: Blank.trim line) ∧
    (strict.skips line → strict.recognize line = none) ∧
    (strict.stops line ↔ ∃ offset, strict.recognize line = some (.endWork, offset)) :=
  ⟨fun _ _ => findLeading_eq_some_iff, fun _ _ _ _ => Opens.unique, fun _ _ => Opens.not_skips,
    skips_strict_iff line, findLeading_of_skips, stops_strict_iff line⟩

end PenScript.Dialect
