import PenScript.Proofs.Locality
import PenScript.Proofs.Runs

/-!
# Codes of rejected lines

Which errors a command can give: those of its arguments and, for a write, that of the sink. A pass
reports them in the order of its lines.
-/

set_option autoImplicit false

namespace PenScript

/-- The codes of the errors that the arguments of a command can give. -/
def Keyword.codes : Keyword → List ErrorCode
  | .write | .createObject | .listName => [.X003]
  | .createList => [.X002, .X004]
  | .drawColor | .drawPos | .drawCurve => [.X001]
  | .drawSquare => [.X001, .X003]
  | .endWork => []

/-- No argument gives the error of the sink. -/
theorem Keyword.sinkCode_not_mem_codes (keyword : Keyword) : .X005 ∉ keyword.codes := by
  cases keyword <;> decide

/-! ## Arguments -/

namespace Command

variable {α : Type}

theorem code_of_choiceArgument {line : List Char} {cause : Cause}
    (h : choiceArgument line = .error cause) : cause.code ∈ Keyword.drawSquare.codes := by
  unfold choiceArgument at h
  split at h
  · cases h
  · split at h
    · cases h
      simp [Cause.code, Keyword.codes]
    · split at h <;> cases h
      decide

variable [Scalar α]

theorem code_of_fields {pattern : Pattern} {line : List Char} {offset : Nat} {cause : Cause}
    (h : (fields pattern line offset : Except Cause (List (Field α))) = .error cause) :
    cause.code = .X001 := by
  unfold fields at h
  cases hr : (pattern.read line offset : Except Mismatch (List (Field α))) <;> rw [hr] at h <;>
    cases h
  rfl

theorem code_of_ofLine {keyword : Keyword} {line : List Char} {offset : Nat} {cause : Cause}
    (h : (ofLine keyword line offset : Except Cause (Command α)) = .error cause) :
    cause.code ∈ keyword.codes := by
  cases keyword with
  | write | createObject | listName =>
      cases hq : quotedArgument line <;> simp only [ofLine, hq, Except.map] at h <;> cases h
      rw [cause_of_quotedArgument hq]
      decide
  | createList =>
      cases hl : (listArgument line : Except Cause (List α)) <;>
        simp only [ofLine, hl, Except.map] at h <;> cases h
      rcases cause_of_listArgument hl with rfl | ⟨text, rfl⟩ <;> simp [Cause.code, Keyword.codes]
  | drawColor =>
      cases hf : (fields colorPattern line offset : Except Cause (List (Field α))) <;>
        simp only [ofLine, hf] at h <;> cases h
      simp [code_of_fields hf, Keyword.codes]
  | drawPos =>
      cases hf : (fields positionPattern line offset : Except Cause (List (Field α))) <;>
        simp only [ofLine, hf] at h <;> cases h
      simp [code_of_fields hf, Keyword.codes]
  | drawCurve =>
      cases hf : (fields curvePattern line offset : Except Cause (List (Field α))) <;>
        simp only [ofLine, hf] at h <;> cases h
      simp [code_of_fields hf, Keyword.codes]
  | endWork => cases h
  | drawSquare =>
      cases hc : choiceArgument line with
      | error cause =>
          simp only [ofLine, hc] at h
          cases h
          exact code_of_choiceArgument hc
      | ok choice =>
          cases hs : (sideArgument line offset : Except Mismatch α) <;> cases choice <;>
            simp only [ofLine, hc, hs] at h <;> cases h
          simp [Cause.code, Keyword.codes]

end Command

/-! ## Lines -/

variable {α : Type} [Scalar α]

theorem Dialect.code_of_reading {dialect : Dialect} {line : List Char} {keyword : Keyword}
    {cause : Cause} (h : (dialect.reading line : Reading α) = .malformed keyword cause) :
    cause.code ∈ keyword.codes := by
  unfold reading at h
  split at h
  · cases h
  · split at h
    · cases h
    · split at h
      · cases h
      · rename_i hcommand
        cases h
        exact Command.code_of_ofLine hcommand

theorem Context.code_of_refusal? {c : Context α} {command : Command α} {cause : Cause}
    (h : c.refusal? command = some cause) : cause.code ∈ command.keyword.codes := by
  cases command with
  | drawSquare choice fixed =>
      cases hside : c.side choice fixed <;> simp only [refusal?, hside] at h <;> cases h
      simp [Cause.code, Command.keyword, Keyword.codes]
  | _ => cases h

theorem Context.code_of_rejection? {c : Context α} {line : List Char} {keyword : Keyword}
    {cause : Cause} (h : c.rejection? line = some (keyword, cause)) :
    cause.code ∈ keyword.codes := by
  unfold rejection? at h
  split at h
  · obtain ⟨_, hrefusal, heq⟩ := Option.map_eq_some_iff.mp h
    cases heq
    exact code_of_refusal? hrefusal
  · rename_i hreading
    cases h
    exact Dialect.code_of_reading hreading
  · cases h

/-! ## Numbers -/

theorem exists_answer_of_mem_errorsOf {answers : List (Except CommandError Unit)}
    {e : CommandError} (h : e ∈ errorsOf answers) : ∃ i : Nat, answers[i]? = some (.error e) := by
  obtain ⟨answer, hm, he⟩ := List.mem_filterMap.mp h
  obtain ⟨i, hi⟩ := List.mem_iff_getElem?.mp hm
  cases answer <;> cases he
  exact ⟨i, hi⟩

namespace Session

theorem line_of_mem_errors {s : Session α} {lines : List (List Char)} {e : CommandError}
    (h : e ∈ errorsOf (s.answers lines)) : s.line < e.line ∧ e.line ≤ s.line + lines.length := by
  obtain ⟨i, hi⟩ := exists_answer_of_mem_errorsOf h
  obtain ⟨hlength, -⟩ := List.getElem?_eq_some_iff.mp hi
  rw [length_answers] at hlength
  rw [line_of_answers hi]
  omega

/-- The errors of a pass stand in the order of its lines, at most one for each. -/
theorem pairwise_line_errors (s : Session α) (lines : List (List Char)) :
    (errorsOf (s.answers lines)).Pairwise fun d e => d.line < e.line := by
  induction lines generalizing s with
  | nil => exact .nil
  | cons line lines ih =>
      have hrest := ih (s.execute line).1
      rw [answers]
      cases hresult : (s.execute line).2 with
      | ok _ => exact hrest
      | error e =>
          refine .cons ?_ hrest
          intro later hm
          have hlater := (line_of_mem_errors hm).1
          rw [line_execute] at hlater
          rw [line_of_execute hresult]
          exact hlater

end Session
end PenScript
