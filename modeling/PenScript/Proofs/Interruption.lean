import PenScript.Proofs.Runs

/-!
# Sources that fail

A source that fails in the middle of a script has delivered some complete lines and, perhaps, the
beginning of another. Only the complete lines count.
-/

set_option autoImplicit false

namespace PenScript.Session

variable {α : Type}

theorem any_ranLines (s : Session α) (source : Source) :
    (s.ranLines source).any s.settings.dialect.stops =
      (source.lines.map Utf8.decodeLossy).any s.settings.dialect.stops :=
  any_throughFirst _ _

theorem ranLines_eq_lines {s : Session α} {source : Source}
    (h : (source.lines.map Utf8.decodeLossy).any s.settings.dialect.stops = false) :
    s.ranLines source = source.lines.map Utf8.decodeLossy :=
  throughFirst_eq_self (by simpa using h)

/-- A failing source lets the lines run that have come to their end, and no other. -/
theorem ranLines_failing (s : Session α) (bytes : List UInt8) (reason : String) :
    s.ranLines ⟨bytes, some reason⟩ = s.ranLines ⟨Source.endedPart bytes, none⟩ := rfl

/--
A source that delivers `n` bytes and then fails has delivered the longest beginning of them that is
ended. If one of its lines ends the script, the run is that of this beginning alone. If not, the run
breaks off at the line after it, and leaves what the beginning leaves and, in the queue, what its pass
would have handed out.
-/
theorem run_failing [Scalar α] (s : Session α) (bytes : List UInt8) (n : Nat) (reason : String) :
    let ended := Source.endedPart (bytes.take n)
    let lines := (Source.linesOf ended).map Utf8.decodeLossy
    let whole := s.run ⟨ended, none⟩
    let broken := s.run ⟨bytes.take n, some reason⟩
    (Source.Ended ended ∧ ended <+: bytes.take n ∧
      ∀ start, start <+: bytes.take n → Source.Ended start → start <+: ended) ∧
    broken.1.store = whole.1.store ∧ broken.1.generator = whole.1.generator ∧
    broken.1.sink = whole.1.sink ∧ broken.1.line = whole.1.line ∧
    ∃ pass, whole.2 = .ok pass ∧
      if lines.any s.settings.dialect.stops then
        broken.2 = .ok pass ∧ broken.1.queue = whole.1.queue
      else
        broken.2 = .error (.reading (lines.length + 1) reason) ∧
          broken.1.queue = pass.shapes := by
  intro ended lines whole broken
  have hran : s.ranLines ⟨bytes.take n, some reason⟩ = s.ranLines ⟨ended, none⟩ :=
    ranLines_failing s (bytes.take n) reason
  have hcontext : broken.1.context = whole.1.context := by
    rw [context_run, context_run, hran]
  have hsink : broken.1.sink = whole.1.sink := by rw [sink_run, sink_run, hran]
  have hline : broken.1.line = whole.1.line := by rw [line_run, line_run, hran]
  have hany : (s.ranLines ⟨ended, none⟩).any s.settings.dialect.stops =
      lines.any s.settings.dialect.stops := any_ranLines s ⟨ended, none⟩
  refine ⟨⟨Source.ended_endedPart _, Source.endedPart_prefix_self _,
    fun _ hstart h => Source.prefix_endedPart hstart h⟩,
    congrArg Context.store hcontext, congrArg Context.generator hcontext, hsink, hline,
    _, outcome_of_ended s _ (Or.inr rfl), ?_⟩
  split
  · rename_i hstop
    have hreached : (s.ranLines ⟨bytes.take n, some reason⟩).any s.settings.dialect.stops := by
      rw [hran, hany, hstop]
    constructor
    · rw [← hran]
      exact outcome_of_ended s _ (Or.inl hreached)
    · exact (queue_of_ended s _ (Or.inl hreached)).trans (queue_of_ended s _ (Or.inr rfl)).symm
  · rename_i hstop
    rw [Bool.not_eq_true] at hstop
    have hmissed : (s.ranLines ⟨bytes.take n, some reason⟩).any s.settings.dialect.stops =
        false := by
      rw [hran, hany, hstop]
    have hlength : (s.ranLines ⟨bytes.take n, some reason⟩).length = lines.length :=
      congrArg List.length (ranLines_eq_lines hstop)
    constructor
    · rw [← hlength]
      exact outcome_of_broken s _ hmissed rfl
    · rw [← hran]
      exact queue_of_broken s _ hmissed rfl

end PenScript.Session
