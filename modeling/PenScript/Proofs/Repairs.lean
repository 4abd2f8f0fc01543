import PenScript.Proofs.Decoding
import PenScript.Proofs.Delimiters
import PenScript.Proofs.Runs
import PenScript.Proofs.Shifts

/-!
# Repaired sources

A source whose bytes are no text can be repaired beforehand, as a whole, or line by line as it is
run. It comes to the same: the line feeds stay where they are, and no bad piece reaches into another
line.
-/

set_option autoImplicit false

namespace PenScript

namespace Utf8

/-- The bytes of the text that the given bytes are read as. -/
def repair (bytes : List UInt8) : List UInt8 :=
  encode (decodeLossy bytes)

theorem decodeLossy_repair (bytes : List UInt8) : decodeLossy (repair bytes) = decodeLossy bytes :=
  decodeLossy_encode (decodeLossy bytes)

/-! ## Bytes that stay -/

theorem encodeChar_ascii {b : UInt8} (hb : b < 0x80) :
    String.utf8EncodeChar (Char.ofNat b.toNat) = [b] := by
  have hlt : b.toNat < 0x80 := hb
  simp only [String.utf8EncodeChar, Char.toNat_val, toNat_ofNat_of_ascii hb, UInt8.ofNat_toNat]
  exact if_pos (by omega)

theorem eq_of_mem_encodeChar {c : Char} {b : UInt8} (hb : b < 0x80)
    (h : b ∈ String.utf8EncodeChar c) : c = Char.ofNat b.toNat := by
  have hlt : b.toNat < 0x80 := hb
  have hlarge : ∀ n, 128 ≤ n → n < 256 → b ≠ UInt8.ofNat n := by
    intro n hle hn hbn
    rw [hbn, toNat_ofNat_of_lt hn] at hlt
    omega
  unfold String.utf8EncodeChar at h
  simp only [Char.toNat_val] at h
  split at h
  · rw [List.mem_singleton] at h
    rw [h, toNat_ofNat_of_lt (by omega), Char.ofNat_toNat]
  -- In a longer form no byte is that small.
  split at h
  · simp only [List.mem_cons, List.not_mem_nil, or_false] at h
    rcases h with h | h <;> exact absurd h (hlarge _ (by omega) (by omega))
  split at h
  · simp only [List.mem_cons, List.not_mem_nil, or_false] at h
    rcases h with h | h | h <;> exact absurd h (hlarge _ (by omega) (by omega))
  · simp only [List.mem_cons, List.not_mem_nil, or_false] at h
    rcases h with h | h | h | h <;> exact absurd h (hlarge _ (by omega) (by omega))

theorem mem_encode {text : List Char} {b : UInt8} (hb : b < 0x80) (h : b ∈ encode text) :
    Char.ofNat b.toNat ∈ text := by
  obtain ⟨c, hc, hm⟩ := List.mem_flatMap.mp h
  exact eq_of_mem_encodeChar hb hm ▸ hc

theorem not_mem_repair {bytes : List UInt8} {b : UInt8} (hzero : b ≠ 0) (hb : b < 0x80)
    (h : b ∉ bytes) : b ∉ repair bytes :=
  fun hm => not_mem_decodeLossy hzero hb h (mem_encode hb hm)

theorem repair_append_ascii (first : List UInt8) {b : UInt8} (hb : b < 0x80)
    (later : List UInt8) : repair (first ++ b :: later) = repair first ++ b :: repair later := by
  have hcons : encode (Char.ofNat b.toNat :: decodeLossy later) = b :: repair later := by
    rw [encode, List.flatMap_cons, encodeChar_ascii hb]
    rfl
  rw [repair, decodeLossy_append_ascii first hb, encode_append, hcons]
  rfl

theorem repair_eq_nil_iff {bytes : List UInt8} : repair bytes = [] ↔ bytes = [] := by
  have htext := @decodeLossy_eq_nil_iff bytes
  rw [← htext, repair, ← List.length_eq_zero_iff, length_encode]
  cases decodeLossy bytes with
  | nil => simp
  | cons c text =>
      have := c.utf8Size_pos
      simp only [size_cons, reduceCtorEq, iff_false]
      omega

theorem getLast?_repair {bytes : List UInt8} {b : UInt8} (hzero : b ≠ 0) (hb : b < 0x80) :
    (repair bytes).getLast? = some b ↔ bytes.getLast? = some b := by
  constructor
  · intro h
    have hm : b ∈ bytes := by
      by_contra hm
      exact not_mem_repair hzero hb hm (List.mem_of_getLast? h)
    obtain ⟨first, later, rfl, hlater⟩ := Span.eq_append_cons_of_mem_last hm
    rw [repair_append_ascii first hb] at h
    cases hrepair : repair later with
    | nil => rw [repair_eq_nil_iff.mp hrepair, List.getLast?_concat]
    | cons c rest =>
        -- Then the last byte comes from behind the last `b`.
        rw [hrepair, List.getLast?_append_cons, List.getLast?_cons_cons, ← hrepair] at h
        exact absurd (List.mem_of_getLast? h) (not_mem_repair hzero hb hlater)
  · intro h
    obtain ⟨first, rfl⟩ := List.getLast?_eq_some_iff.mp h
    rw [repair_append_ascii first hb]
    simp [repair_eq_nil_iff.mpr rfl]

end Utf8

/-! ## Lines that stay -/

namespace Source

/-- The source with its bytes repaired as a whole. -/
def repair (source : Source) : Source :=
  { source with pending := Utf8.repair source.pending }

theorem dropReturn_repair (bytes : List UInt8) :
    dropReturn (Utf8.repair bytes) = Utf8.repair (dropReturn bytes) := by
  have hlast : (Utf8.repair bytes).getLast? = some 0x0D ↔ bytes.getLast? = some 0x0D :=
    Utf8.getLast?_repair (by decide) (by decide)
  rw [dropReturn, dropReturn]
  split
  · rename_i h
    rw [if_pos (hlast.mp h)]
    obtain ⟨body, rfl⟩ := List.getLast?_eq_some_iff.mp (hlast.mp h)
    rw [Utf8.repair_append_ascii body (by decide), Utf8.repair_eq_nil_iff.mpr rfl,
      List.dropLast_concat, List.dropLast_concat]
  · rename_i h
    rw [if_neg (h ∘ hlast.mpr)]

theorem lines_repair (source : Source) : source.repair.lines = source.lines.map Utf8.repair := by
  obtain ⟨bytes, fault⟩ := source
  induction bytes using line_induction with
  | line body rest hbody ih =>
      have hrepair := Utf8.not_mem_repair (by decide) (by decide) hbody
      rw [repair] at ih ⊢
      rw [Utf8.repair_append_ascii body (by decide), lines_append_lineFeed hrepair,
        lines_append_lineFeed hbody, ih, dropReturn_repair, List.map_cons]
  | last body hbody =>
      have hrepair := Utf8.not_mem_repair (by decide) (by decide) hbody
      cases fault with
      | some reason =>
          simp [repair, lines, endedPart_of_not_mem hbody, endedPart_of_not_mem hrepair, linesOf,
            pieces]
      | none =>
          by_cases hne : body = []
          · subst hne
            rfl
          · have hne' : Utf8.repair body ≠ [] := hne ∘ Utf8.repair_eq_nil_iff.mp
            simp [repair, lines, linesOf_of_not_mem hbody hne, linesOf_of_not_mem hrepair hne']

theorem map_decodeLossy_lines_repair (source : Source) :
    source.repair.lines.map Utf8.decodeLossy = source.lines.map Utf8.decodeLossy := by
  rw [lines_repair, List.map_map]
  exact List.map_congr_left fun line _ => Utf8.decodeLossy_repair line

end Source

/-! ## Runs that stay -/

namespace Session

variable {α : Type}

theorem ranLines_repair (s : Session α) (source : Source) :
    s.ranLines source.repair = s.ranLines source := by
  rw [ranLines, ranLines, Source.map_decodeLossy_lines_repair]

variable [Scalar α]

/--
Running some bytes, and running the text that they are read as, comes to the same: an equal pass,
equal bytes written, and an equal session afterwards. The repair leaves every line in its place and
works on each by itself.
-/
theorem run_repaired_bytes (s : Session α) (bytes : List UInt8) :
    let repaired := Utf8.encode (Utf8.decodeLossy bytes)
    let t := (s.run ⟨bytes, none⟩).1
    let u := (s.run ⟨repaired, none⟩).1
    Source.linesOf repaired =
        ((Source.linesOf bytes).map fun line => Utf8.encode (Utf8.decodeLossy line)) ∧
      (∃ pass, (s.run ⟨bytes, none⟩).2 = .ok pass ∧ (s.run ⟨repaired, none⟩).2 = .ok pass) ∧
      u.sink = t.sink ∧ u.store = t.store ∧ u.generator = t.generator ∧ u.queue = t.queue ∧
      u.line = t.line := by
  intro repaired t u
  obtain ⟨houtcome, hsilent⟩ := run_congr s (ranLines_repair s ⟨bytes, none⟩) rfl
  obtain ⟨hcontext, hsink, hqueue, hline⟩ := silent_eq_iff.mp hsilent
  have hpass := outcome_of_ended s ⟨bytes, none⟩ (Or.inr rfl)
  exact ⟨Source.lines_repair ⟨bytes, none⟩, ⟨_, hpass, houtcome.trans hpass⟩, hsink,
    congrArg Context.store hcontext, congrArg Context.generator hcontext, hqueue, hline⟩

end Session
end PenScript
