import Mathlib.Data.List.Infix
import PenScript.Text.Span
import PenScript.Text.Utf8

/-!
# Cutting and searching

A text is cut at the size of any of its beginnings, and a search finds the first place where the
needle stands.
-/

set_option autoImplicit false

namespace PenScript

/-! ## Sizes -/

namespace Utf8

@[simp] theorem size_nil : size [] = 0 := rfl

@[simp] theorem size_cons (c : Char) (text : List Char) :
    size (c :: text) = c.utf8Size + size text := rfl

@[simp] theorem size_append (first later : List Char) :
    size (first ++ later) = size first + size later := by
  induction first with
  | nil => simp
  | cons c first ih => simp [ih, Nat.add_assoc]

end Utf8

namespace Span

/-! ## Cutting -/

theorem cutFrom_size (before text rest : List Char) :
    cutFrom before (Utf8.size text) (text ++ rest) = some (before.reverse ++ text, rest) := by
  induction text generalizing before with
  | nil => simp [cutFrom]
  | cons c text ih =>
      obtain ⟨n, hn⟩ : ∃ n, Utf8.size (c :: text) = n + 1 :=
        ⟨Utf8.size (c :: text) - 1, by have := c.utf8Size_pos; simp; omega⟩
      have hle : c.utf8Size ≤ n + 1 := by rw [← hn]; simp
      have hsub : n + 1 - c.utf8Size = Utf8.size text := by rw [← hn]; simp
      rw [hn, List.cons_append, cutFrom, if_pos hle, hsub, ih]
      simp

theorem cut?_size (text rest : List Char) :
    cut? (Utf8.size text) (text ++ rest) = some (text, rest) :=
  cutFrom_size [] text rest

theorem slice?_size (before text rest : List Char) :
    slice? (before ++ (text ++ rest)) ⟨Utf8.size before, Utf8.size before + Utf8.size text⟩ =
      some text := by
  have hle : ¬ Utf8.size before + Utf8.size text < Utf8.size before := by omega
  have hsub : Utf8.size before + Utf8.size text - Utf8.size before = Utf8.size text := by omega
  simp only [slice?, hle, if_false, cut?_size, Option.bind_some, hsub, Option.map_some]

/-! ## Searching -/

theorem findFrom_eq_none_iff {needle : List Char} (hn : needle ≠ []) (offset : Nat)
    (text : List Char) :
    findFrom needle.isPrefixOf offset text = none ↔ ¬ needle <:+: text := by
  induction text generalizing offset with
  | nil => simp [findFrom, hn]
  | cons c rest ih =>
      rw [findFrom, List.infix_cons_iff]
      split
      · rename_i hp
        simp [List.isPrefixOf_iff_prefix.mp hp]
      · rename_i hp
        rw [List.isPrefixOf_iff_prefix] at hp
        simp [ih, hp]

theorem find?_eq_none_iff {needle : List Char} (hn : needle ≠ []) (text : List Char) :
    find? needle text = none ↔ ¬ needle <:+: text :=
  findFrom_eq_none_iff hn 0 text

theorem isSome_find?_iff {needle : List Char} (hn : needle ≠ []) (text : List Char) :
    (find? needle text).isSome ↔ needle <:+: text := by
  rw [Option.isSome_iff_ne_none, ne_eq, find?_eq_none_iff hn, Decidable.not_not]

/-- Text without the needle's first character is passed over. -/
theorem findFrom_append {c : Char} {before : List Char} (hc : c ∉ before) (needle : List Char)
    (offset : Nat) (text : List Char) :
    findFrom (c :: needle).isPrefixOf offset (before ++ text) =
      findFrom (c :: needle).isPrefixOf (offset + Utf8.size before) text := by
  induction before generalizing offset with
  | nil => rfl
  | cons d before ih =>
      have hd : c ≠ d := List.ne_of_not_mem_cons hc
      have hrest : c ∉ before := List.not_mem_of_not_mem_cons hc
      have hp : (c :: needle).isPrefixOf (d :: (before ++ text)) = false := by
        simp [List.isPrefixOf, hd]
      rw [List.cons_append, findFrom, hp, if_neg Bool.false_ne_true, ih hrest, Utf8.size_cons,
        Nat.add_assoc]

theorem find?_append {c : Char} {before : List Char} (hc : c ∉ before) (needle rest : List Char) :
    find? (c :: needle) (before ++ (c :: needle ++ rest)) = some (Utf8.size before) := by
  have hp : (c :: needle).isPrefixOf (c :: needle ++ rest) = true :=
    List.isPrefixOf_iff_prefix.mpr (List.prefix_append _ rest)
  rw [find?, findFrom_append hc, List.cons_append, findFrom, ← List.cons_append, if_pos hp,
    Nat.zero_add]

theorem exists_of_findFrom {p : List Char → Bool} {offset place : Nat} {text : List Char}
    (h : findFrom p offset text = some place) :
    ∃ before rest, text = before ++ rest ∧ offset + Utf8.size before = place ∧ p rest := by
  induction text generalizing offset with
  | nil => cases h
  | cons c rest ih =>
      rw [findFrom] at h
      split at h
      · rename_i hp
        cases h
        exact ⟨[], c :: rest, rfl, rfl, hp⟩
      · obtain ⟨before, after, rfl, hplace, hp⟩ := ih h
        refine ⟨c :: before, after, rfl, ?_, hp⟩
        rw [Utf8.size_cons, ← Nat.add_assoc]
        exact hplace

theorem exists_of_find? {needle text : List Char} {place : Nat}
    (h : find? needle text = some place) :
    ∃ before rest, text = before ++ rest ∧ Utf8.size before = place ∧ needle <+: rest := by
  obtain ⟨before, rest, htext, hplace, hp⟩ := exists_of_findFrom h
  exact ⟨before, rest, htext, by simpa using hplace, List.isPrefixOf_iff_prefix.mp hp⟩

theorem findFrom_add (p : List Char → Bool) (n offset : Nat) (text : List Char) :
    findFrom p (n + offset) text = (findFrom p offset text).map (n + ·) := by
  induction text generalizing offset with
  | nil => rfl
  | cons c rest ih =>
      rw [findFrom, findFrom]
      split
      · rfl
      · rw [Nat.add_assoc, ih]

/-- A needle that does not start in the first text is found in the second or not at all. -/
theorem find?_append_of_absent {needle before text : List Char}
    (h : ∀ suffix, suffix <:+ before → suffix ≠ [] → ¬ needle <+: suffix ++ text) :
    find? needle (before ++ text) = (find? needle text).map (Utf8.size before + ·) := by
  rw [find?, find?, ← findFrom_add, Nat.add_zero, ← Nat.zero_add (Utf8.size before)]
  generalize 0 = offset
  induction before generalizing offset with
  | nil => rfl
  | cons c before ih =>
      have hhead : needle.isPrefixOf (c :: before ++ text) = false := by
        rw [← Bool.not_eq_true, List.isPrefixOf_iff_prefix]
        exact h (c :: before) (List.suffix_refl _) (List.cons_ne_nil c before)
      have ih := ih (fun suffix hs => h suffix (hs.trans (List.suffix_cons c before)))
        (offset + c.utf8Size)
      rw [List.cons_append] at hhead ⊢
      rw [findFrom, hhead, if_neg Bool.false_ne_true, ih, Utf8.size_cons, Nat.add_assoc]

/-- A needle that neither stands in the first text nor begins at its end is found in the second. -/
theorem find?_append_of_apart {needle before : List Char}
    (h : ∀ suffix ∈ before.tails, suffix ≠ [] → ¬ needle <+: suffix ∧ ¬ suffix <+: needle)
    (text : List Char) :
    find? needle (before ++ text) = (find? needle text).map (Utf8.size before + ·) := by
  refine find?_append_of_absent fun suffix hs hne hprefix => ?_
  obtain ⟨hlong, hshort⟩ := h suffix ((List.mem_tails ..).mpr hs) hne
  exact (List.prefix_or_prefix_of_prefix hprefix (List.prefix_append suffix text)).elim hlong hshort

/-- A step of the search for a last place: the offset counts on, the place is kept or replaced. -/
def lastStep (c : Char) : Nat × Option Nat → Char → Nat × Option Nat :=
  fun (offset, last) d => (offset + d.utf8Size, if d = c then some offset else last)

theorem foldl_lastStep_fst (c : Char) (text : List Char) (state : Nat × Option Nat) :
    (text.foldl (lastStep c) state).1 = state.1 + Utf8.size text := by
  induction text generalizing state with
  | nil => rfl
  | cons d text ih => simp [ih, lastStep, Nat.add_assoc]

theorem foldl_lastStep_snd {c : Char} {text : List Char} (hc : c ∉ text)
    (state : Nat × Option Nat) : (text.foldl (lastStep c) state).2 = state.2 := by
  induction text generalizing state with
  | nil => rfl
  | cons d text ih =>
      have hd : c ≠ d := List.ne_of_not_mem_cons hc
      have hrest : c ∉ text := List.not_mem_of_not_mem_cons hc
      simp [ih hrest, lastStep, Ne.symm hd]

theorem findLast?_append {c : Char} {after : List Char} (hc : c ∉ after) (before : List Char) :
    findLast? c (before ++ c :: after) = some (Utf8.size before) := by
  show ((before ++ c :: after).foldl (lastStep c) (0, none)).2 = _
  rw [List.foldl_append, List.foldl_cons, foldl_lastStep_snd hc, lastStep, if_pos rfl,
    foldl_lastStep_fst, Nat.zero_add]

end Span
end PenScript
