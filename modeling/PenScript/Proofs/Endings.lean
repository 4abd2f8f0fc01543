import PenScript.Proofs.Runs

/-!
# Line endings

A line ends with a line feed, with or without a carriage return in front of it, and a last line that
is not empty needs neither. A script whose endings are written in another of these ways has the same
lines, and a run cannot tell the two apart.
-/

set_option autoImplicit false

namespace PenScript

namespace Source

/-! ## Other endings -/

/--
The later bytes are the first with some of the line feeds turned into CR LF. The last line feed may
also be left out, where the line that it ends is not empty.
-/
inductive Reended : List UInt8 → List UInt8 → Prop where
  | nil : Reended [] []
  | byte {b : UInt8} {first later : List UInt8} (hb : b ≠ 0x0A) (h : Reended first later) :
      Reended (b :: first) (b :: later)
  | feed {first later : List UInt8} (h : Reended first later) :
      Reended (0x0A :: first) (0x0A :: later)
  | returnFeed {first later : List UInt8} (h : Reended first later) :
      Reended (0x0A :: first) (0x0D :: 0x0A :: later)
  | dropped {b : UInt8} (hb : b ≠ 0x0A) : Reended [b, 0x0A] [b]

theorem Reended.append {body first later : List UInt8} (hbody : 0x0A ∉ body)
    (h : Reended first later) : Reended (body ++ first) (body ++ later) := by
  induction body with
  | nil => exact h
  | cons b body ih =>
      exact .byte (List.ne_of_not_mem_cons hbody).symm (ih (List.not_mem_of_not_mem_cons hbody))

/-! ## One byte more -/

theorem withoutEnding_cons {b : UInt8} (hfeed : b ≠ 0x0A) (hreturn : b ≠ 0x0D)
    (piece : List UInt8) : withoutEnding (b :: piece) = b :: withoutEnding piece := by
  have hlf : [0x0A] <:+ b :: piece ↔ [0x0A] <:+ piece := by
    simp [List.suffix_cons_iff, hfeed.symm]
  have hcr : [0x0D, 0x0A] <:+ b :: piece ↔ [0x0D, 0x0A] <:+ piece := by
    simp [List.suffix_cons_iff, hreturn.symm]
  unfold withoutEnding
  simp only [hlf, hcr]
  split
  · rename_i h
    have hle : 2 ≤ piece.length := h.length_le
    rw [List.length_cons, Nat.sub_add_comm hle, List.take_succ_cons]
  · split
    · rename_i h
      have hle : 1 ≤ piece.length := h.length_le
      rw [List.length_cons, Nat.sub_add_comm hle, List.take_succ_cons]
    · rfl

/-- A byte that ends no line belongs to the first one. -/
theorem linesOf_cons {b : UInt8} (hfeed : b ≠ 0x0A) (hreturn : b ≠ 0x0D) (rest : List UInt8) :
    linesOf (b :: rest) = match linesOf rest with
      | [] => [[b]]
      | line :: later => (b :: line) :: later := by
  have hb : isLineFeed b = false := by simpa [isLineFeed] using hfeed
  rw [linesOf, linesOf, pieces, hb]
  cases pieces rest with
  | nil => exact congrArg (· :: []) (withoutEnding_cons hfeed hreturn [])
  | cons piece later => simp [withoutEnding_cons hfeed hreturn]

theorem linesOf_lineFeed (rest : List UInt8) : linesOf (0x0A :: rest) = [] :: linesOf rest := by
  have hbody : (0x0A : UInt8) ∉ ([] : List UInt8) := List.not_mem_nil
  exact linesOf_append_lineFeed hbody rest

theorem linesOf_returnFeed (rest : List UInt8) :
    linesOf (0x0D :: 0x0A :: rest) = [] :: linesOf rest := by
  have hbody : (0x0A : UInt8) ∉ ([0x0D] : List UInt8) := by decide
  exact linesOf_append_lineFeed hbody rest

theorem linesOf_reended {first later : List UInt8} (h : Reended first later)
    (hreturn : 0x0D ∉ first) : linesOf later = linesOf first := by
  induction h with
  | nil => rfl
  | byte hb _ ih =>
      have hne := (List.ne_of_not_mem_cons hreturn).symm
      rw [linesOf_cons hb hne, linesOf_cons hb hne, ih (List.not_mem_of_not_mem_cons hreturn)]
  | feed _ ih =>
      rw [linesOf_lineFeed, linesOf_lineFeed, ih (List.not_mem_of_not_mem_cons hreturn)]
  | returnFeed _ ih =>
      rw [linesOf_returnFeed, linesOf_lineFeed, ih (List.not_mem_of_not_mem_cons hreturn)]
  | dropped hb =>
      have hne := (List.ne_of_not_mem_cons hreturn).symm
      rw [linesOf_cons hb hne, linesOf_cons hb hne, linesOf_lineFeed]
      rfl

/-! ## Fetching by lines -/

theorem exists_fetch_of_lines {source : Source} {bytes : List UInt8} {later : List (List UInt8)}
    (h : source.lines = bytes :: later) :
    ∃ rest, source.fetch = .line bytes rest ∧ rest.lines = later ∧ rest.fault = source.fault := by
  cases hfetch : source.fetch with
  | line bytes' rest =>
      obtain ⟨hlines, hfault⟩ := lines_of_fetch_line hfetch
      obtain ⟨rfl, rfl⟩ := List.cons.inj (hlines.symm.trans h)
      exact ⟨rest, rfl, rfl, hfault⟩
  | finished => simp [(lines_of_fetch_finished hfetch).1] at h
  | failed reason => simp [(lines_of_fetch_failed hfetch).1] at h

theorem fetch_of_lines_eq_nil {source : Source} (h : source.lines = []) :
    source.fetch = match source.fault with
      | none => .finished
      | some reason => .failed reason := by
  cases hfetch : source.fetch with
  | line bytes rest => simp [(lines_of_fetch_line hfetch).1] at h
  | finished => rw [(lines_of_fetch_finished hfetch).2]
  | failed reason => rw [(lines_of_fetch_failed hfetch).2]

end Source

/-! ## Runs of the same lines -/

namespace Session

variable {α : Type} [Scalar α]

theorem runFrom_of_fetch_line (s : Session α) (progress : Progress) {source rest : Source}
    {bytes : List UInt8} (h : source.fetch = .line bytes rest) :
    s.runFrom progress source =
      let next := s.runLine progress bytes
      if next.1.stopsAt bytes then next.1.finished next.2 true
      else next.1.runFrom next.2 rest := by
  rw [runFrom]
  split <;> rename_i hf <;> cases h.symm.trans hf
  rfl

theorem runFrom_of_lines_eq_nil (s : Session α) (progress : Progress) {source : Source}
    (h : source.lines = []) :
    s.runFrom progress source = match source.fault with
      | none => s.finished progress false
      | some reason => (s, .error (.reading (progress.lines + 1) reason)) := by
  have hfetch := Source.fetch_of_lines_eq_nil h
  cases hfault : source.fault with
  | none =>
      rw [hfault] at hfetch
      rw [runFrom]
      split <;> rename_i hf <;> cases hfetch.symm.trans hf
      rfl
  | some reason =>
      rw [hfault] at hfetch
      rw [runFrom]
      split <;> rename_i hf <;> cases hfetch.symm.trans hf
      rfl

/-- A run takes nothing from its source but the bytes of its lines, and whether it fails. -/
theorem runFrom_eq_of_lines_eq (s : Session α) (progress : Progress) {first later : Source}
    (hlines : first.lines = later.lines) (hfault : first.fault = later.fault) :
    s.runFrom progress first = s.runFrom progress later := by
  generalize hl : first.lines = lines at hlines
  induction lines generalizing s progress first later with
  | nil =>
      rw [runFrom_of_lines_eq_nil s progress hl, runFrom_of_lines_eq_nil s progress hlines.symm,
        hfault]
  | cons bytes lines ih =>
      obtain ⟨rest, hfetch, hrest, hf⟩ := Source.exists_fetch_of_lines hl
      obtain ⟨rest', hfetch', hrest', hf'⟩ := Source.exists_fetch_of_lines hlines.symm
      have hrests : rest.fault = rest'.fault := by rw [hf, hf', hfault]
      simp only [runFrom_of_fetch_line s progress hfetch, runFrom_of_fetch_line s progress hfetch',
        ih _ _ hrests hrest hrest'.symm]

/--
A script without carriage returns runs the same with its line endings written in any other way: the
pass is equal, with every column of its errors, and so are the text written, the store and the
generator, and all else that the run leaves.
-/
theorem run_reended (s : Session α) {first later : List UInt8} (h : Source.Reended first later)
    (hreturn : 0x0D ∉ first) :
    Source.linesOf later = Source.linesOf first ∧
      ∃ t pass, s.run ⟨first, none⟩ = (t, .ok pass) ∧ s.run ⟨later, none⟩ = (t, .ok pass) := by
  have hlines := Source.linesOf_reended h hreturn
  have hrun : s.run ⟨later, none⟩ = s.run ⟨first, none⟩ :=
    runFrom_eq_of_lines_eq s.beginPass .none hlines rfl
  obtain ⟨t, hfirst, -⟩ := run_of_ended s ⟨first, none⟩ (Or.inr rfl)
  exact ⟨hlines, t, _, hfirst, hrun.trans hfirst⟩

theorem run_reended_number_cut_short :
    let s : Session Float := start Settings.standard (.replicate 8 0) (some 2)
    let first := Utf8.encode "\ndraw.color(R:1 G:\n\nwrite(\"é\")\n".toList
    let later := Utf8.encode "\r\ndraw.color(R:1 G:\r\n\nwrite(\"é\")".toList
    Source.Reended first later ∧ 0x0D ∉ first ∧ Source.linesOf later = Source.linesOf first ∧
      ∃ t pass, s.run ⟨first, none⟩ = (t, .ok pass) ∧ s.run ⟨later, none⟩ = (t, .ok pass) ∧
        pass.lines = 4 ∧ pass.errors = #[⟨2, .drawColor, .mismatch ⟨18, some 1, .integer⟩⟩,
          ⟨4, .write, .sinkFailed Sink.full⟩] := by
  intro s first later
  let color := Utf8.encode "draw.color(R:1 G:".toList
  let write := Utf8.encode "write(\"é\"".toList
  have hfirst : first = 0x0A :: (color ++ 0x0A :: 0x0A :: (write ++ [0x29, 0x0A])) := by
    decide +kernel
  have hlater : later = 0x0D :: 0x0A :: (color ++ 0x0D :: 0x0A :: 0x0A :: (write ++ [0x29])) := by
    decide +kernel
  have h : Source.Reended first later := by
    rw [hfirst, hlater]
    refine .returnFeed (.append (by decide +kernel) (.returnFeed (.feed ?_)))
    exact .append (by decide +kernel) (.dropped (by decide))
  have hreturn : 0x0D ∉ first := by decide +kernel
  obtain ⟨hlines, t, pass, hrun, hrun'⟩ := run_reended s h hreturn
  have hpass : pass = s.passOf (s.ranLines ⟨first, none⟩) :=
    Except.ok.inj ((congrArg Prod.snd hrun).symm.trans (outcome_of_ended s _ (Or.inr rfl)))
  refine ⟨h, hreturn, hlines, t, pass, hrun, hrun', ?_, ?_⟩
  · rw [hpass]
    decide +kernel
  · rw [hpass]
    decide +kernel

end Session
end PenScript
