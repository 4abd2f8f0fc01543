import Mathlib.Data.List.DropRight
import PenScript.Text.Blank

/-!
# Trimming

White space at either end of a text is all that trimming takes away, and no more or less of it makes
any difference to what is left.
-/

set_option autoImplicit false

namespace PenScript.Blank

theorem isBlank_eq_false {c : Char} (h : 0x20 < c.toNat) (h' : c.toNat < 0x80) :
    isBlank c = false := by
  simp only [isBlank, ranges, List.any_cons, List.any_nil, Bool.or_false, Bool.or_eq_false_iff,
    Bool.and_eq_false_iff, decide_eq_false_iff_not]
  omega

theorem trimEnd_eq_rdropWhile (text : List Char) : trimEnd text = text.rdropWhile isBlank :=
  rfl

section

variable {ws : List Char} (hws : ∀ c ∈ ws, isBlank c) (text : List Char)

include hws

theorem not_mem_of_blanks {c : Char} (hc : isBlank c = false) : c ∉ ws :=
  fun h => Bool.false_ne_true (hc.symm.trans (hws c h))

theorem trimStart_blanks : trimStart ws = [] :=
  List.dropWhile_eq_nil_iff.mpr hws

theorem trimStart_blanks_append : trimStart (ws ++ text) = trimStart text :=
  List.dropWhile_append_of_pos hws

theorem trimEnd_append_blanks : trimEnd (text ++ ws) = trimEnd text := by
  have hreverse : ∀ c ∈ ws.reverse, isBlank c := fun c hc => hws c (List.mem_reverse.mp hc)
  rw [trimEnd, trimEnd, List.reverse_append, List.dropWhile_append_of_pos hreverse]

theorem trim_blanks_append : trim (ws ++ text) = trim text := by
  rw [trim, trimStart_blanks_append hws, trim]

theorem trim_append_blanks : trim (text ++ ws) = trim text := by
  rw [trim, trimStart, List.dropWhile_append]
  split
  · rename_i hempty
    rw [trim, trimStart, List.isEmpty_iff.mp hempty]
    exact congrArg trimEnd (trimStart_blanks hws)
  · exact trimEnd_append_blanks hws (trimStart text)

end

theorem exists_trim (text : List Char) :
    ∃ before after, text = before ++ (trim text ++ after) ∧ (∀ c ∈ before, isBlank c) ∧
      ∀ c ∈ after, isBlank c := by
  refine ⟨text.takeWhile isBlank, (trimStart text).rtakeWhile isBlank, ?_,
    List.all_eq_true.mp List.all_takeWhile, fun c => List.mem_rtakeWhile_imp⟩
  rw [trim, trimEnd_eq_rdropWhile, List.rdropWhile_append_rtakeWhile]
  exact List.takeWhile_append_dropWhile.symm

theorem trim_eq_self {text : List Char} (h : ∀ c ∈ text, isBlank c = false) : trim text = text := by
  have hstart : trimStart text = text := by
    refine List.dropWhile_eq_self_iff.mpr fun hl => ?_
    simp [h _ (List.getElem_mem hl)]
  rw [trim, hstart, trimEnd_eq_rdropWhile, List.rdropWhile_eq_self_iff]
  intro hne
  simp [h _ (List.getLast_mem hne)]

end PenScript.Blank
