import PenScript.Proofs.Codes
import PenScript.Proofs.Histories
import PenScript.Proofs.Rejection

/-!
# Diagnoses

What an error says of the line that it is about: its number in the pass, its command, and a code that
this command can have.
-/

set_option autoImplicit false

namespace PenScript

/-- The codes of all errors that a line with the keyword can give, with the sink's for a write. -/
def Keyword.errorCodes : Keyword → List ErrorCode
  | .write => Keyword.write.codes ++ [.X005]
  | keyword => keyword.codes

theorem Keyword.codes_subset_errorCodes (keyword : Keyword) :
    keyword.codes ⊆ keyword.errorCodes := by
  cases keyword with
  | write => exact List.subset_append_left _ _
  | _ => exact List.Subset.refl _

variable {α : Type} [Scalar α]

/-! ## Lines -/

namespace Execution

/-- A rejected line was read for the keyword of its error. -/
theorem keyword?_of_error {e : Execution α} {error : CommandError} (h : e.result = .error error) :
    (e.session.context.reading e.line).keyword? = some error.keyword := by
  rcases Session.error_cases h with hr | ⟨choice, mismatch, hr, -, hk, -⟩ | ⟨text, reason, hr, -, hk, -⟩
  · rw [hr]
    rfl
  · rw [hr, hk]
    rfl
  · rw [hr, hk]
    rfl

theorem code_of_error {e : Execution α} {error : CommandError} (h : e.result = .error error) :
    error.code ∈ error.keyword.errorCodes := by
  rcases Session.error_cases h with hr | ⟨choice, mismatch, -, -, hk, hc⟩ | ⟨text, reason, -, -, hk, hc⟩
  · exact error.keyword.codes_subset_errorCodes (Dialect.code_of_reading hr)
  · simp [CommandError.code, hk, hc, Cause.code, Keyword.errorCodes, Keyword.codes]
  · simp [CommandError.code, hk, hc, Cause.code, Keyword.errorCodes]

/-- The end of the script is never rejected. -/
theorem keyword_ne_endWork {e : Execution α} {error : CommandError} (h : e.result = .error error) :
    error.keyword ≠ .endWork := by
  intro hk
  have hcode := code_of_error h
  rw [hk] at hcode
  exact absurd hcode List.not_mem_nil

theorem recognize_of_error {e : Execution α} {error : CommandError} (h : e.result = .error error) :
    e.session.settings.dialect.skips e.line = false ∧
      ∃ offset, e.session.settings.dialect.recognize e.line = some (error.keyword, offset) := by
  have hkeyword := keyword?_of_error h
  rw [Context.reading, Dialect.keyword?_reading] at hkeyword
  split at hkeyword
  · cases hkeyword
  · rename_i hskips
    obtain ⟨⟨keyword, offset⟩, hfound, rfl⟩ := Option.map_eq_some_iff.mp hkeyword
    exact ⟨by simpa using hskips, offset, hfound⟩

end Execution

/-! ## Lines of a pass -/

namespace Session

/-- An error of some lines comes from the one that it gives the number of. -/
theorem exists_execution_of_mem_errors {s : Session α} {lines : List (List Char)}
    {error : CommandError} (h : error ∈ errorsOf (s.answers lines)) :
    ∃ (i : Nat) (e : Execution α), lines[i]? = some e.line ∧ e.session.settings = s.settings ∧
      e.result = .error error ∧ error.line = s.line + i + 1 := by
  obtain ⟨i, hi⟩ := exists_answer_of_mem_errorsOf h
  have hline := line_of_answers hi
  rw [answers_eq_map, List.getElem?_map, Option.map_eq_some_iff] at hi
  obtain ⟨e, he, hresult⟩ := hi
  refine ⟨i, e, ?_, settings_of_mem_executions (List.mem_of_getElem? he), hresult, hline⟩
  rw [← map_line_executions s lines, List.getElem?_map, he]
  rfl

/-! ## Calls -/

/-- A pass that is handed out is that over the lines of the source which the call asked for. -/
theorem pass_of_outcome {v : Visit α} {pass : Pass α} (h : v.outcome = .ok pass) :
    ∃ source, v.call.source? = some source ∧
      pass = v.session.passOf (v.session.ranLines source) := by
  obtain ⟨s, call⟩ := v
  have hrun : ∀ source, (s.run source).2 = .ok pass → pass = s.passOf (s.ranLines source) := by
    intro source hpass
    rw [outcome_run] at hpass
    split at hpass <;> cases hpass
    rfl
  cases call with
  | run source => exact ⟨source, rfl, hrun source h⟩
  | script opened =>
      cases opened with
      | error reason => cases h
      | ok source =>
          refine ⟨source, rfl, hrun source ?_⟩
          rw [← outcome_note]
          exact h

/--
The errors of every pass that is handed out, over any calls on a fresh session: their numbers grow and
lie between one and the number of lines, and the line of the source with such a number is not skipped,
holds the command of the error, and can give its code. The end of the script gives none.
-/
theorem errors_of_visits (settings : Settings α) (entropy : ChaCha.Key) (limit : Option Nat)
    (calls : List Call) (v : Visit α) (pass : Pass α)
    (hv : v ∈ (start settings entropy limit).visits calls) (hpass : v.outcome = .ok pass) :
    ∃ source, v.call.source? = some source ∧
      (pass.errors.toList.Pairwise fun d e => d.line < e.line) ∧
      ∀ e ∈ pass.errors, 1 ≤ e.line ∧ e.line ≤ pass.lines ∧
        ∃ line, (source.lines.map Utf8.decodeLossy)[e.line - 1]? = some line ∧
          settings.dialect.skips line = false ∧
          (∃ offset, settings.dialect.recognize line = some (e.keyword, offset)) ∧
          e.code ∈ e.keyword.errorCodes := by
  obtain ⟨source, hsource, rfl⟩ := pass_of_outcome hpass
  have hsettings : v.session.settings = settings := settings_of_mem_visits hv
  refine ⟨source, hsource, pairwise_line_errors _ _, ?_⟩
  intro error herror
  have hmem : error ∈ errorsOf (v.session.beginPass.answers (v.session.ranLines source)) := by
    simpa [passOf] using herror
  obtain ⟨i, e, hline, he, hresult, hnumber⟩ := exists_execution_of_mem_errors hmem
  have hzero : error.line = i + 1 := by simpa [beginPass] using hnumber
  have hlength : i < (v.session.ranLines source).length := (List.getElem?_eq_some_iff.mp hline).1
  obtain ⟨hskips, hfound⟩ := Execution.recognize_of_error hresult
  have hdialect : e.session.settings.dialect = settings.dialect := by rw [he, ← hsettings]; rfl
  rw [hdialect] at hskips hfound
  refine ⟨by omega, by rw [hzero]; exact hlength, e.line, ?_, hskips, hfound,
    Execution.code_of_error hresult⟩
  obtain ⟨later, hlater⟩ := v.session.ranLines_prefix source
  rw [hzero, Nat.add_sub_cancel, ← hlater, List.getElem?_append_left hlength]
  exact hline

theorem errors_of_visits_after_broken :
    let s : Session Float := start Settings.standard (.replicate 8 0) (some 2)
    let broken : Call :=
      .run ⟨Utf8.encode "draw.square(L:x)\n".toList, some "source broke"⟩
    let source : Source :=
      ⟨Utf8.encode "\nwrite(\"abc\")\n create.list[1,x]\nend.work\n".toList, none⟩
    let v : Visit Float := ⟨(s.call broken).1, .run source⟩
    v ∈ s.visits [broken, v.call] ∧ ∃ pass, v.outcome = .ok pass ∧
      pass.errors = #[⟨2, .write, .sinkFailed Sink.full⟩, ⟨3, .createList, .badNumber "x"⟩] ∧
      (pass.errors.toList.Pairwise fun d e => d.line < e.line) ∧
      ∀ e ∈ pass.errors, 1 ≤ e.line ∧ e.line ≤ pass.lines ∧ e.code ∈ e.keyword.errorCodes := by
  intro s broken source v
  have hv : v ∈ s.visits [broken, v.call] := List.mem_cons_of_mem _ (List.mem_cons_self ..)
  have hpass : v.outcome = .ok (v.session.passOf (v.session.ranLines source)) :=
    outcome_of_ended v.session source (Or.inr rfl)
  obtain ⟨_, -, hpairwise, herrors⟩ :=
    errors_of_visits Settings.standard (.replicate 8 0) (some 2) [broken, v.call] v _ hv hpass
  refine ⟨hv, _, hpass, by decide +kernel, hpairwise, ?_⟩
  intro e he
  obtain ⟨hone, hle, _, -, -, -, hcode⟩ := herrors e he
  exact ⟨hone, hle, hcode⟩

end Session
end PenScript
