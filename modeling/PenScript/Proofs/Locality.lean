import PenScript.Proofs.Delimiters
import PenScript.Proofs.Recognition
import PenScript.Proofs.Shifts

/-!
# Arguments from the keyword on

What stands before the keyword of a line has no part in its command, as long as it holds none of the
marks by which arguments are looked for in the whole line. White space never does.
-/

set_option autoImplicit false

namespace PenScript

/-! ## Marks -/

/-- The texts by which the arguments of a command are found, wherever in the line they stand. -/
def Keyword.marks : Keyword → List (List Char)
  | .write | .createObject | .listName => [['"']]
  | .createList => [['['], [']']]
  | .drawSquare => [Command.choiceOpening]
  | .drawColor | .drawPos | .drawCurve | .endWork => []

theorem Keyword.exists_not_isBlank_of_mem_marks {keyword : Keyword} {mark : List Char}
    (h : mark ∈ keyword.marks) : ∃ c ∈ mark, Blank.isBlank c = false := by
  have hall : ∀ mark ∈ keyword.marks, mark.any fun c => !Blank.isBlank c := by
    cases keyword <;> decide
  simpa using hall mark h

/-- No choice begins in front of a square's keyword and ends in it. -/
theorem not_choiceOpening_prefix_append {before rest : List Char}
    (hbefore : ¬ Command.choiceOpening <:+: before)
    (hrest : Keyword.drawSquare.text.toList <+: rest) {suffix : List Char}
    (hsuffix : suffix <:+ before) (hne : suffix ≠ []) :
    ¬ Command.choiceOpening <+: suffix ++ rest := by
  have hends : ∀ n < Command.choiceOpening.length, n ≠ 0 →
      ¬ Command.choiceOpening.drop n <+: Keyword.drawSquare.text.toList ∧
        ¬ Keyword.drawSquare.text.toList <+: Command.choiceOpening.drop n := by
    decide
  intro h
  rcases List.prefix_or_prefix_of_prefix h (List.prefix_append suffix rest) with
    hin | ⟨tail, htail⟩
  · exact hbefore (hin.isInfix.trans hsuffix.isInfix)
  · cases tail with
    | nil =>
        rw [List.append_nil] at htail
        exact hbefore (htail ▸ hsuffix.isInfix)
    | cons c tail =>
        -- The end of the opening and the keyword would both stand at the beginning of the rest.
        have hstart : c :: tail <+: rest := by
          rwa [← htail, List.prefix_append_right_inj] at h
        have hlength : suffix.length < Command.choiceOpening.length := by
          rw [← htail, List.length_append, List.length_cons]
          omega
        obtain ⟨hleft, hright⟩ := hends suffix.length hlength (by simpa using hne)
        rw [← htail, List.drop_left] at hleft hright
        exact (List.prefix_or_prefix_of_prefix hstart hrest).elim hleft hright

/-! ## Shifted commands -/

def Cause.shift (n : Nat) : Cause → Cause
  | .mismatch m => .mismatch (m.shift n)
  | cause => cause

namespace Command

variable {α : Type}

/-- A square may keep a mismatch, and with it a column. -/
def shift (n : Nat) : Command α → Command α
  | .drawSquare choice side => .drawSquare choice (side.mapError (Mismatch.shift n))
  | command => command

def shiftResult (n : Nat) (result : Except Cause (Command α)) : Except Cause (Command α) :=
  (result.map (shift n)).mapError (Cause.shift n)

/-! ## Quoted text -/

theorem cause_of_quotedArgument {line : List Char} {cause : Cause}
    (h : quotedArgument line = .error cause) : cause = .missingQuote := by
  unfold quotedArgument at h
  split at h <;> cases h
  rfl

theorem quotedArgument_append {before : List Char} (hbefore : '"' ∉ before) (rest : List Char) :
    quotedArgument (before ++ rest) = quotedArgument rest := by
  rw [quotedArgument, quotedArgument, quoted?_append hbefore]

theorem quotedArgument_inj {line other : List Char}
    (h : quotedArgument line = quotedArgument other) : quoted? line = quoted? other := by
  unfold quotedArgument at h
  cases hl : quoted? line <;> cases ho : quoted? other <;>
    simp only [hl, ho, reduceCtorEq, Except.ok.injEq] at h
  · rfl
  · rw [String.ofList_injective h]

theorem shiftResult_quotedArgument {f : String → Command α}
    (hf : ∀ n text, (f text).shift n = f text) (n : Nat) (line : List Char) :
    shiftResult n ((quotedArgument line).map f) = (quotedArgument line).map f := by
  cases hq : quotedArgument line with
  | ok text => exact congrArg Except.ok (hf n text)
  | error cause => rw [cause_of_quotedArgument hq]; rfl

theorem quotedArgument_eq_of_map {f : String → Command α} (hf : Function.Injective f)
    {line other : List Char}
    (h : (quotedArgument line).map f = (quotedArgument other).map f) :
    quotedArgument line = quotedArgument other := by
  cases hl : quotedArgument line <;> cases ho : quotedArgument other <;>
    simp only [hl, ho, Except.map, reduceCtorEq, Except.error.injEq, Except.ok.injEq] at h
  · rw [h]
  · rw [hf h]

/-! ## Choices -/

theorem choiceArgument_append {before rest : List Char}
    (h : ∀ suffix, suffix <:+ before → suffix ≠ [] → ¬ choiceOpening <+: suffix ++ rest) :
    choiceArgument (before ++ rest) =
      (choiceArgument rest).mapError (Cause.shift (Utf8.size before)) := by
  unfold choiceArgument
  rw [Span.find?_append_of_absent h]
  cases Span.find? choiceOpening rest with
  | none => rfl
  | some offset =>
      simp only [Option.map_some, Nat.add_assoc, Reader.start_append, Reader.skipBlanks_shift,
        Reader.char_shift]
      rcases (Reader.start rest (offset + Utf8.size choiceOpening)).skipBlanks.char '"' with
        ⟨_ | _, r⟩
      · rfl
      · simp only [Reader.Result.shift_ok, Reader.untilQuote_shift]
        rcases r.untilQuote with ⟨_ | _, _⟩ <;> rfl

variable [Scalar α]

/-! ## Lists of numbers -/

theorem cause_of_itemValue {item : List Char} {cause : Cause}
    (h : (itemValue item : Except Cause α) = .error cause) : ∃ text, cause = .badNumber text := by
  unfold itemValue at h
  dsimp only at h
  split at h <;> cases h
  exact ⟨_, rfl⟩

theorem cause_of_mapM_itemValue {items : List (List Char)} {cause : Cause}
    (h : (items.mapM itemValue : Except Cause (List α)) = .error cause) :
    ∃ text, cause = .badNumber text := by
  induction items with
  | nil => cases h
  | cons item items ih =>
      rw [List.mapM_cons] at h
      cases hvalue : (itemValue item : Except Cause α) with
      | error e =>
          rw [hvalue] at h
          cases h
          exact cause_of_itemValue hvalue
      | ok value =>
          cases hvalues : (items.mapM itemValue : Except Cause (List α)) with
          | error e =>
              rw [hvalue, hvalues] at h
              cases h
              exact ih hvalues
          | ok values =>
              rw [hvalue, hvalues] at h
              cases h

theorem cause_of_listArgument {line : List Char} {cause : Cause}
    (h : (listArgument line : Except Cause (List α)) = .error cause) :
    cause = .missingBracket ∨ ∃ text, cause = .badNumber text := by
  unfold listArgument at h
  split at h
  · exact Or.inr (cause_of_mapM_itemValue h)
  · cases h
    exact Or.inl rfl

theorem listArgument_append {before : List Char} (hopen : '[' ∉ before) (hclose : ']' ∉ before)
    (rest : List Char) :
    (listArgument (before ++ rest) : Except Cause (List α)) = listArgument rest := by
  have h := bracketed?_append hopen hclose rest
  unfold bracketed? at h
  rw [listArgument, listArgument, h]

/-! ## Patterns -/

theorem fields_append (pattern : Pattern) (before rest : List Char) :
    (fields pattern (before ++ rest) (Utf8.size before) : Except Cause (List (Field α))) =
      (fields pattern rest 0).mapError (Cause.shift (Utf8.size before)) := by
  have h := Pattern.read_append (α := α) pattern before rest 0
  rw [Nat.add_zero] at h
  rw [fields, fields, h]
  cases (pattern.read rest 0 : Except Mismatch (List (Field α))) <;> rfl

theorem sideArgument_append (before rest : List Char) :
    (sideArgument (before ++ rest) (Utf8.size before) : Except Mismatch α) =
      (sideArgument rest 0).mapError (Mismatch.shift (Utf8.size before)) := by
  have h := Pattern.read_append (α := α) sidePattern before rest 0
  rw [Nat.add_zero] at h
  rw [sideArgument, sideArgument, h, map_mapError]

/-! ## Whole commands -/

theorem ofLine_append {keyword : Keyword} {before rest : List Char}
    (hmarks : ∀ mark ∈ keyword.marks, ¬ mark <:+: before) (hrest : keyword.text.toList <+: rest) :
    (ofLine keyword (before ++ rest) (Utf8.size before) : Except Cause (Command α)) =
      shiftResult (Utf8.size before) (ofLine keyword rest 0) := by
  cases keyword with
  | write | createObject | listName =>
      have hquote : '"' ∉ before := by
        simpa [Keyword.marks, List.singleton_infix_iff] using hmarks
      rw [ofLine, ofLine, quotedArgument_append hquote,
        shiftResult_quotedArgument fun _ _ => rfl]
  | createList =>
      obtain ⟨hopen, hclose⟩ : '[' ∉ before ∧ ']' ∉ before := by
        simpa [Keyword.marks, List.singleton_infix_iff] using hmarks
      rw [ofLine, ofLine, listArgument_append hopen hclose]
      cases hl : (listArgument rest : Except Cause (List α)) with
      | ok values => rfl
      | error cause =>
          rcases cause_of_listArgument hl with rfl | ⟨text, rfl⟩ <;> rfl
  | drawColor =>
      rw [ofLine, ofLine, fields_append]
      cases (fields colorPattern rest 0 : Except Cause (List (Field α))) <;> rfl
  | drawPos =>
      rw [ofLine, ofLine, fields_append]
      cases (fields positionPattern rest 0 : Except Cause (List (Field α))) <;> rfl
  | drawCurve =>
      rw [ofLine, ofLine, fields_append]
      cases (fields curvePattern rest 0 : Except Cause (List (Field α))) <;> rfl
  | endWork => rfl
  | drawSquare =>
      have hbefore : ¬ choiceOpening <:+: before := hmarks _ (List.mem_singleton_self _)
      have hchoice := choiceArgument_append fun suffix hs hne =>
        not_choiceOpening_prefix_append hbefore hrest hs hne
      rw [ofLine, ofLine, hchoice, sideArgument_append]
      cases choiceArgument rest with
      | error cause => rfl
      | ok choice =>
          cases (sideArgument rest 0 : Except Mismatch α) <;> cases choice <;> rfl

theorem quoted?_eq_of_ofLine {keyword : Keyword} {line other : List Char} {offset : Nat}
    (hmark : ['"'] ∈ keyword.marks)
    (h : (ofLine keyword line offset : Except Cause (Command α)) =
      shiftResult offset (ofLine keyword other 0)) : quoted? line = quoted? other := by
  apply quotedArgument_inj
  cases keyword with
  | write =>
      rw [ofLine, ofLine, shiftResult_quotedArgument fun _ _ => rfl] at h
      exact quotedArgument_eq_of_map (fun _ _ => Command.write.inj) h
  | createObject =>
      rw [ofLine, ofLine, shiftResult_quotedArgument fun _ _ => rfl] at h
      exact quotedArgument_eq_of_map (fun _ _ => Command.createObject.inj) h
  | listName =>
      rw [ofLine, ofLine, shiftResult_quotedArgument fun _ _ => rfl] at h
      exact quotedArgument_eq_of_map (fun _ _ => Command.listName.inj) h
  | _ => exact absurd hmark (by decide)

/-- A fixed text that ends with a quote brings one along. -/
theorem quote_mem_of_needle {keyword : Keyword} {needle : String} {rest : List Char}
    (hmark : ['"'] ∈ keyword.marks) (hm : (keyword, needle) ∈ Dialect.needles)
    (hneedle : needle.toList <+: rest) : '"' ∈ rest := by
  have hall : ∀ entry ∈ Dialect.needles, ['"'] ∈ entry.1.marks → '"' ∈ entry.2.toList := by
    decide
  exact hneedle.subset (hall _ hm hmark)

variable (α) in
/--
What stands before the keyword has no part in a command unless it holds a mark of its arguments; an
earlier quote always lets another argument be read. The strict dialect has only white space there.
-/
theorem ofLine_of_recognize {dialect : Dialect} {line : List Char} {keyword : Keyword}
    {offset : Nat} (h : dialect.recognize line = some (keyword, offset)) :
    ∃ before rest, line = before ++ rest ∧ Utf8.size before = offset ∧
      ((∀ mark ∈ keyword.marks, ¬ mark <:+: before) →
        (ofLine keyword line offset : Except Cause (Command α)) =
          shiftResult offset (ofLine keyword rest 0)) ∧
      (['"'] ∈ keyword.marks → '"' ∈ before →
        (ofLine keyword line offset : Except Cause (Command α)) ≠
          shiftResult offset (ofLine keyword rest 0)) ∧
      (dialect = .strict → ∀ mark ∈ keyword.marks, ¬ mark <:+: before) := by
  obtain ⟨before, rest, rfl, rfl, htext, hstrict, hlegacy⟩ := Dialect.exists_of_recognize h
  have hblank : dialect = .strict → ∀ mark ∈ keyword.marks, ¬ mark <:+: before := by
    intro hd mark hm hin
    obtain ⟨c, hc, hnot⟩ := Keyword.exists_not_isBlank_of_mem_marks hm
    rw [hstrict hd c (hin.subset hc)] at hnot
    cases hnot
  refine ⟨before, rest, rfl, rfl, fun hmarks => ofLine_append hmarks htext, ?_, hblank⟩
  intro hmark hbefore heq
  cases dialect with
  | strict => exact hblank rfl _ hmark ((List.singleton_infix_iff _ _).mpr hbefore)
  | legacy =>
      obtain ⟨needle, hm, hneedle⟩ := hlegacy rfl
      exact quoted?_append_ne hbefore (quote_mem_of_needle hmark hm hneedle)
        (quoted?_eq_of_ofLine hmark heq)

theorem ofLine_of_recognize_color :
    let line := "né draw.color(R:x G:2 B:3)".toList
    Dialect.legacy.recognize line = some (.drawColor, 4) ∧
      ∃ before rest, line = before ++ rest ∧ Utf8.size before = 4 ∧
        (ofLine .drawColor line 4 : Except Cause (Command Float)) =
          shiftResult 4 (ofLine .drawColor rest 0) := by
  intro line
  have h : Dialect.legacy.recognize line = some (.drawColor, 4) := by decide +kernel
  obtain ⟨before, rest, hline, hsize, hlocal, -, -⟩ := ofLine_of_recognize Float h
  exact ⟨h, before, rest, hline, hsize, hlocal nofun⟩

/-- The legacy dialect lets a quote in front of the keyword begin the argument. -/
theorem ofLine_takes_earlier_quote :
    let rest := "write(\"a\")".toList
    let line := "say \"hi\" ".toList ++ rest
    Dialect.legacy.recognize line = some (.write, 9) ∧
      (ofLine .write line 9 : Except Cause (Command Float)) = .ok (.write "hi\" write(\"a") ∧
      (ofLine .write rest 0 : Except Cause (Command Float)) = .ok (.write "a") ∧
      (ofLine .write line 9 : Except Cause (Command Float)) ≠
        shiftResult 9 (ofLine .write rest 0) := by
  intro rest line
  have hline : (ofLine .write line 9 : Except Cause (Command Float)) =
      .ok (.write "hi\" write(\"a") := rfl
  have hrest : (ofLine .write rest 0 : Except Cause (Command Float)) = .ok (.write "a") := rfl
  refine ⟨by decide +kernel, hline, hrest, ?_⟩
  rw [hline, hrest]
  intro h
  injection h with h
  injection h with h
  exact absurd h (by decide)

end Command
end PenScript
