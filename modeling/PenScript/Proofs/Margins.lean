import PenScript.Proofs.Locality
import PenScript.Proofs.Steps
import PenScript.Proofs.Trailing
import PenScript.Proofs.Words

/-!
# White space around a line

The strict dialect does the same with a line whatever white space stands around it. A line that is
rejected is rejected for the same cause, and only the column of something missing tells that there
is white space: it counts what stands in front of the line, and what was skipped behind it.
-/

set_option autoImplicit false

namespace PenScript

/-! ## Moved columns -/

theorem Mismatch.shift_shift (m n : Nat) (x : Mismatch) :
    (x.shift m).shift n = x.shift (m + n) := by
  simp only [Mismatch.shift, Nat.add_assoc]

theorem Cause.shift_shift (m n : Nat) (cause : Cause) :
    (cause.shift m).shift n = cause.shift (m + n) := by
  cases cause with
  | mismatch x => exact congrArg Cause.mismatch (x.shift_shift m n)
  | _ => rfl

namespace Command

variable {α : Type}

theorem keyword_shift (n : Nat) (command : Command α) :
    (command.shift n).keyword = command.keyword := by
  cases command <;> rfl

theorem shift_shift (m n : Nat) (command : Command α) :
    (command.shift m).shift n = command.shift (m + n) := by
  cases command with
  | drawSquare choice side =>
      cases side with
      | ok side => rfl
      | error x => exact congrArg (Command.drawSquare choice ∘ Except.error) (x.shift_shift m n)
  | _ => rfl

theorem shiftResult_shiftResult (m n : Nat) (result : Except Cause (Command α)) :
    shiftResult n (shiftResult m result) = shiftResult (m + n) result := by
  cases result with
  | ok command => exact congrArg Except.ok (command.shift_shift m n)
  | error cause => exact congrArg Except.error (cause.shift_shift m n)

end Command

/-! ## Searching -/

namespace Span

variable {needle after : List Char} (hapart : ∀ c ∈ needle, c ∉ after)

include hapart

theorem isPrefixOf_append_of_apart (text : List Char) :
    needle.isPrefixOf (text ++ after) = needle.isPrefixOf text := by
  rw [Bool.eq_iff_iff, List.isPrefixOf_iff_prefix, List.isPrefixOf_iff_prefix]
  refine ⟨fun h => ?_, fun h => h.trans (List.prefix_append text after)⟩
  rcases List.prefix_or_prefix_of_prefix h (List.prefix_append text after) with
    hprefix | ⟨tail, rfl⟩
  · exact hprefix
  · rw [List.prefix_append_right_inj] at h
    cases tail with
    | nil => rw [List.append_nil]
    | cons c tail =>
        have hc : c ∈ after := h.subset (List.mem_cons_self ..)
        exact absurd hc (hapart c (by simp))

theorem find?_append_of_apart_after (hne : needle ≠ []) (text : List Char) :
    find? needle (text ++ after) = find? needle text := by
  rw [find?, find?]
  generalize 0 = offset
  induction text generalizing offset with
  | nil =>
      obtain ⟨c, rest, rfl⟩ := List.exists_cons_of_ne_nil hne
      rw [List.nil_append, findFrom, findFrom_eq_none_iff hne]
      exact fun h => hapart c (List.mem_cons_self ..) (h.subset (List.mem_cons_self ..))
  | cons c text ih =>
      have hprefix := isPrefixOf_append_of_apart hapart (c :: text)
      rw [List.cons_append] at hprefix ⊢
      rw [findFrom, findFrom, hprefix, ih]

end Span

/-! ## Arguments in front of white space -/

namespace Command

theorem Quotes.append_after {line after : List Char} {found : Option (List Char)}
    (hquote : '"' ∉ after) (h : Quotes line found) : Quotes (line ++ after) found := by
  cases h with
  | absent h => exact .absent (by simp [h, hquote])
  | single hb ha =>
      rw [List.append_assoc]
      exact .single hb (by simp [ha, hquote])
  | between hb ha =>
      rw [List.append_assoc, List.cons_append, List.append_assoc]
      exact .between hb (by simp [ha, hquote])

theorem Brackets.append_after {line after : List Char} {found : Option (List Char)}
    (hopen : '[' ∉ after) (hclose : ']' ∉ after) (h : Brackets line found) :
    Brackets (line ++ after) found := by
  cases h with
  | unopened h => exact .unopened (by simp [h, hopen])
  | unclosed h => exact .unclosed (by simp [h, hclose])
  | reversed hb hc hbetween =>
      rw [List.append_assoc, List.cons_append, List.append_assoc]
      exact .reversed hb hc hbetween
  | between hb hc htext =>
      rw [List.append_assoc, List.cons_append, List.append_assoc]
      exact .between hb hc htext

theorem visible_of_mem {pattern : Pattern}
    (h : pattern ∈ [colorPattern, positionPattern, curvePattern, sidePattern]) :
    pattern.Visible := by
  have hall : ∀ pattern ∈ [colorPattern, positionPattern, curvePattern, sidePattern],
      ∀ item ∈ pattern, item.isVisible := by
    decide
  exact hall pattern h

section

variable {α : Type} [Scalar α] {ws : List Char} (hws : ∀ c ∈ ws, Blank.isBlank c)

include hws

theorem quotedArgument_append_blanks (line : List Char) :
    quotedArgument (line ++ ws) = quotedArgument line := by
  have hquote : '"' ∉ ws := Blank.not_mem_of_blanks hws (by decide)
  rw [quotedArgument, quotedArgument, ((quotes_quoted? line).append_after hquote).quoted?_eq]

theorem listArgument_append_blanks (line : List Char) :
    (listArgument (line ++ ws) : Except Cause (List α)) = listArgument line := by
  have hopen : '[' ∉ ws := Blank.not_mem_of_blanks hws (by decide)
  have hclose : ']' ∉ ws := Blank.not_mem_of_blanks hws (by decide)
  have h := ((brackets_bracketed? line).append_after hopen hclose).bracketed?_eq
  unfold bracketed? at h
  rw [listArgument, listArgument, h]

theorem choiceArgument_append_blanks (line : List Char) :
    ∃ k ≤ Utf8.size ws, choiceArgument (line ++ ws) =
      (choiceArgument line).mapError (Cause.shift k) := by
  have hvisible : ∀ c ∈ choiceOpening, Blank.isBlank c = false := by
    have hall : choiceOpening.all fun c => !Blank.isBlank c := by decide
    intro c hc
    simpa using List.all_eq_true.mp hall c hc
  have hfind : Span.find? choiceOpening (line ++ ws) = Span.find? choiceOpening line :=
    Span.find?_append_of_apart_after
      (fun c hc => Blank.not_mem_of_blanks hws (hvisible c hc)) (by decide) line
  unfold choiceArgument
  rw [hfind]
  cases hplace : Span.find? choiceOpening line with
  | none => exact ⟨0, Nat.zero_le _, rfl⟩
  | some offset =>
      obtain ⟨before, rest, rfl, rfl, later, rfl⟩ := Span.exists_of_find? hplace
      have hquote : Blank.isBlank '"' = false := by decide
      have hstep := ((Reader.trails_start (before ++ choiceOpening) later
        hws).skipBlanks).char hquote
      rw [Utf8.size_append, List.append_assoc before] at hstep
      dsimp only
      generalize (Reader.start (before ++ (choiceOpening ++ later))
        (Utf8.size before + Utf8.size choiceOpening)).skipBlanks.char '"' = result at hstep ⊢
      generalize (Reader.start (before ++ (choiceOpening ++ later) ++ ws)
        (Utf8.size before + Utf8.size choiceOpening)).skipBlanks.char '"' = result' at hstep ⊢
      cases hstep with
      | @ok _ r r' hnext =>
          refine ⟨0, Nat.zero_le _, ?_⟩
          have huntil := hnext.untilQuote
          dsimp only
          generalize r.untilQuote = taken at huntil ⊢
          generalize r'.untilQuote = taken' at huntil ⊢
          obtain ⟨name, next⟩ := taken
          obtain ⟨name', next'⟩ := taken'
          obtain rfl : name' = name := huntil
          cases name' <;> rfl
      | error m hk => exact ⟨_, hk, rfl⟩

/-- A command that is made of the fields of a scan keeps no column of it. -/
theorem scan_append_blanks {pattern : Pattern}
    (hpattern : pattern ∈ [colorPattern, positionPattern, curvePattern, sidePattern])
    {make : List (Field α) → Command α} (hmake : ∀ n values, (make values).shift n = make values)
    (before text : List Char) :
    ∃ k ≤ Utf8.size ws,
      (do let values ← fields pattern (before ++ text ++ ws) (Utf8.size before)
          return make values : Except Cause (Command α)) =
        shiftResult k (do
          let values ← fields pattern (before ++ text) (Utf8.size before)
          return make values) := by
  obtain ⟨k, hk, h⟩ := Pattern.read_append_blanks (α := α) (visible_of_mem hpattern) hws before text
  refine ⟨k, hk, ?_⟩
  rw [fields, fields, h]
  cases (pattern.read (before ++ text) (Utf8.size before) :
    Except Mismatch (List (Field α))) with
  | ok values => exact congrArg Except.ok (hmake k values).symm
  | error e => rfl

theorem sideArgument_append_blanks (before text : List Char) :
    ∃ k ≤ Utf8.size ws,
      (sideArgument (before ++ text ++ ws) (Utf8.size before) : Except Mismatch α) =
        (sideArgument (before ++ text) (Utf8.size before)).mapError (Mismatch.shift k) := by
  have hvisible : sidePattern.Visible := visible_of_mem (by simp)
  obtain ⟨k, hk, h⟩ := Pattern.read_append_blanks (α := α) hvisible hws before text
  exact ⟨k, hk, by rw [sideArgument, sideArgument, h, map_mapError]⟩

theorem ofLine_append_blanks (keyword : Keyword) (before text : List Char) :
    ∃ k ≤ Utf8.size ws,
      (ofLine keyword (before ++ text ++ ws) (Utf8.size before) : Except Cause (Command α)) =
        shiftResult k (ofLine keyword (before ++ text) (Utf8.size before)) := by
  cases keyword with
  | write | createObject | listName =>
      refine ⟨0, Nat.zero_le _, ?_⟩
      rw [ofLine, ofLine, quotedArgument_append_blanks hws,
        shiftResult_quotedArgument fun _ _ => rfl]
  | createList =>
      refine ⟨0, Nat.zero_le _, ?_⟩
      rw [ofLine, ofLine, listArgument_append_blanks hws]
      cases hl : (listArgument (before ++ text) : Except Cause (List α)) with
      | ok values => rfl
      | error cause =>
          rcases cause_of_listArgument hl with rfl | ⟨text, rfl⟩ <;> rfl
  | drawColor => exact scan_append_blanks hws (by simp) (fun _ _ => rfl) before text
  | drawPos => exact scan_append_blanks hws (by simp) (fun _ _ => rfl) before text
  | drawCurve => exact scan_append_blanks hws (by simp) (fun _ _ => rfl) before text
  | drawSquare =>
      obtain ⟨k, hk, hchoice⟩ := choiceArgument_append_blanks hws (before ++ text)
      obtain ⟨k', hk', hside⟩ := sideArgument_append_blanks (α := α) hws before text
      rw [ofLine, ofLine, hchoice, hside]
      -- A choice that cannot be read comes before the side.
      cases choiceArgument (before ++ text) with
      | error cause => exact ⟨k, hk, rfl⟩
      | ok choice =>
          refine ⟨k', hk', ?_⟩
          cases (sideArgument (before ++ text) (Utf8.size before) : Except Mismatch α) <;>
            cases choice <;> rfl
  | endWork => exact ⟨0, Nat.zero_le _, rfl⟩

end

/-! ## Arguments behind white space -/

theorem not_infix_of_mem_marks {keyword : Keyword} {mark before : List Char}
    (hmark : mark ∈ keyword.marks) (hbefore : ∀ c ∈ before, Blank.isBlank c) :
    ¬ mark <:+: before := by
  obtain ⟨c, hc, hvisible⟩ := Keyword.exists_not_isBlank_of_mem_marks hmark
  exact fun hin => Blank.not_mem_of_blanks hbefore hvisible (hin.subset hc)

/-- Every column of a command counts the white space in front of the line as well. -/
theorem ofLine_blanks_append {α : Type} [Scalar α] {ws : List Char}
    (hws : ∀ c ∈ ws, Blank.isBlank c) {keyword : Keyword} {before rest : List Char}
    (hbefore : ∀ c ∈ before, Blank.isBlank c) (hrest : keyword.text.toList <+: rest) :
    (ofLine keyword (ws ++ (before ++ rest)) (Utf8.size ws + Utf8.size before) :
        Except Cause (Command α)) =
      shiftResult (Utf8.size ws) (ofLine keyword (before ++ rest) (Utf8.size before)) := by
  have hwhole : ∀ c ∈ ws ++ before, Blank.isBlank c := fun c hc =>
    (List.mem_append.mp hc).elim (hws c) (hbefore c)
  have hfront := ofLine_append (α := α) (fun _ hm => not_infix_of_mem_marks hm hwhole) hrest
  rw [ofLine_append (fun _ hm => not_infix_of_mem_marks hm hbefore) hrest, shiftResult_shiftResult,
    ← List.append_assoc, ← Utf8.size_append, hfront, Utf8.size_append, Nat.add_comm]

end Command

/-! ## Lines -/

namespace Dialect

section

variable {ws : List Char} (hws : ∀ c ∈ ws, Blank.isBlank c) (line : List Char)

include hws

theorem findLeading_blanks_append :
    findLeading (ws ++ line) = (findLeading line).map fun found =>
      (found.1, Utf8.size ws + found.2) := by
  have hword : firstWord (ws ++ line) = firstWord line := by
    rw [firstWord, firstWord, Blank.trimStart_blanks_append hws]
  rw [findLeading_eq, findLeading_eq, hword, List.takeWhile_append_of_pos hws, Utf8.size_append,
    Option.map_map]
  rfl

theorem findLeading_append_blanks : findLeading (line ++ ws) = findLeading line := by
  have hrest := List.takeWhile_append_dropWhile (p := Blank.isBlank) (l := line)
  rw [← Blank.trimStart] at hrest
  cases htrim : Blank.trimStart line with
  | nil =>
      -- There is no word in a line of nothing but white space.
      have hblank : Blank.trimStart (line ++ ws) = [] := by
        rw [Blank.trimStart, List.dropWhile_append, ← Blank.trimStart, htrim]
        exact Blank.trimStart_blanks hws
      rw [findLeading_eq, findLeading_eq, firstWord, firstWord, htrim, hblank]
      rfl
  | cons c rest =>
      have hc : Blank.isBlank c = false := by
        have hstop := List.head?_dropWhile_not Blank.isBlank line
        rw [← Blank.trimStart, htrim] at hstop
        simpa using hstop
      have hbefore : ∀ d ∈ line.takeWhile Blank.isBlank, Blank.isBlank d :=
        List.all_eq_true.mp List.all_takeWhile
      have hwhole : line.takeWhile Blank.isBlank ++ c :: (rest ++ ws) = line ++ ws := by
        rw [← List.cons_append, ← htrim, ← List.append_assoc, hrest]
      have hends : ∀ d ∈ ws.head?, (!endsWord d) = false := by
        intro d hd
        simp [endsWord, hws d (List.mem_of_mem_head? hd)]
      have hword : firstWord (line ++ ws) = firstWord line := by
        rw [firstWord, firstWord, htrim, ← hwhole, trimStart_append hbefore hc]
        exact Literal.takeWhile_append_of_stop hends (c :: rest)
      rw [findLeading_eq, findLeading_eq, hword, ← hwhole, takeWhile_isBlank_append hbefore hc]

theorem skips_strict_blanks_append : strict.skips (ws ++ line) = strict.skips line := by
  rw [skips, skips, Blank.trim_blanks_append hws]

theorem skips_strict_append_blanks : strict.skips (line ++ ws) = strict.skips line := by
  rw [skips, skips, Blank.trim_append_blanks hws]

end

end Dialect

/-- The same is read in the line, with every column moved. -/
def Reading.shift {α : Type} (n : Nat) : Reading α → Reading α
  | .malformed keyword cause => .malformed keyword (cause.shift n)
  | .parsed command => .parsed (command.shift n)
  | .skipped => .skipped
  | .ignored => .ignored

variable {α : Type} [Scalar α]

theorem Dialect.reading_eq_shift {dialect : Dialect} {line line' : List Char} {m n : Nat}
    (hskips : dialect.skips line' = dialect.skips line)
    (hrecognize : dialect.recognize line' =
      (dialect.recognize line).map fun found => (found.1, m + found.2))
    (hcommand : ∀ {keyword offset}, dialect.recognize line = some (keyword, offset) →
      (Command.ofLine keyword line' (m + offset) : Except Cause (Command α)) =
        Command.shiftResult n (Command.ofLine keyword line offset)) :
    (dialect.reading line' : Reading α) = (dialect.reading line).shift n := by
  rw [reading, reading, hskips, hrecognize]
  cases dialect.skips line with
  | true => rfl
  | false =>
      cases hfound : dialect.recognize line with
      | none => rfl
      | some found =>
          obtain ⟨keyword, offset⟩ := found
          simp only [Option.map_some, hcommand hfound]
          cases (Command.ofLine keyword line offset : Except Cause (Command α)) <;> rfl

omit [Scalar α] in
theorem Reading.shift_shift (m n : Nat) (reading : Reading α) :
    (reading.shift m).shift n = reading.shift (m + n) := by
  cases reading with
  | malformed keyword cause => exact congrArg (Reading.malformed keyword) (cause.shift_shift m n)
  | parsed command => exact congrArg Reading.parsed (command.shift_shift m n)
  | _ => rfl

namespace Dialect

theorem reading_strict_append_blanks {ws : List Char} (hws : ∀ c ∈ ws, Blank.isBlank c)
    (line : List Char) :
    ∃ k ≤ Utf8.size ws, (strict.reading (line ++ ws) : Reading α) =
      (strict.reading line).shift k := by
  have hskips := skips_strict_append_blanks hws line
  have hfound : strict.recognize (line ++ ws) =
      (strict.recognize line).map fun found => (found.1, 0 + found.2) := by
    simp [recognize, findLeading_append_blanks hws]
  cases hrecognize : strict.recognize line with
  | none =>
      refine ⟨0, Nat.zero_le _, reading_eq_shift hskips hfound ?_⟩
      rw [hrecognize]
      nofun
  | some found =>
      obtain ⟨keyword, offset⟩ := found
      obtain ⟨before, rest, rfl, rfl, -⟩ := exists_of_recognize hrecognize
      obtain ⟨k, hk, hcommand⟩ := Command.ofLine_append_blanks (α := α) hws keyword before rest
      refine ⟨k, hk, reading_eq_shift hskips hfound ?_⟩
      intro keyword' offset' h
      cases hrecognize.symm.trans h
      rwa [Nat.zero_add]

theorem reading_strict_blanks_append {ws : List Char} (hws : ∀ c ∈ ws, Blank.isBlank c)
    (line : List Char) :
    (strict.reading (ws ++ line) : Reading α) = (strict.reading line).shift (Utf8.size ws) := by
  refine reading_eq_shift (skips_strict_blanks_append hws line) (findLeading_blanks_append hws line)
    ?_
  intro keyword offset h
  obtain ⟨before, rest, rfl, rfl, hrest, hbefore, -⟩ := exists_of_recognize h
  exact Command.ofLine_blanks_append hws (hbefore rfl) hrest

theorem stops_strict_padded {u v : List Char} (hu : ∀ c ∈ u, Blank.isBlank c)
    (hv : ∀ c ∈ v, Blank.isBlank c) (line : List Char) :
    strict.stops (u ++ (line ++ v)) = strict.stops line := by
  have hfound : strict.recognize (u ++ (line ++ v)) =
      (strict.recognize line).map fun found => (found.1, Utf8.size u + found.2) := by
    rw [recognize, recognize, findLeading_blanks_append hu, findLeading_append_blanks hv]
  rw [stops, stops, skips_strict_blanks_append hu, skips_strict_append_blanks hv, hfound,
    Option.any_map]

theorem reading_strict_padded {u v : List Char} (hu : ∀ c ∈ u, Blank.isBlank c)
    (hv : ∀ c ∈ v, Blank.isBlank c) (line : List Char) :
    ∃ k ≤ Utf8.size v, (strict.reading (u ++ (line ++ v)) : Reading α) =
      (strict.reading line).shift (Utf8.size u + k) := by
  obtain ⟨k, hk, h⟩ := reading_strict_append_blanks (α := α) hv line
  refine ⟨k, hk, ?_⟩
  rw [reading_strict_blanks_append hu, h, Reading.shift_shift, Nat.add_comm]

end Dialect

/-! ## Sessions -/

def CommandError.shift (n : Nat) (e : CommandError) : CommandError :=
  { e with cause := e.cause.shift n }

namespace Session

/-- What a command does takes no column into account. -/
theorem perform_shift (s : Session α) (n : Nat) (command : Command α) :
    s.perform (command.shift n) =
      ((s.perform command).1, (s.perform command).2.mapError (Cause.shift n)) := by
  cases command with
  | write text =>
      simp only [Command.shift, perform]
      cases (s.sink.write (Utf8.encode (text.toList ++ ['\n']))).2 <;> rfl
  | drawSquare choice side =>
      simp only [Command.shift, perform]
      rcases s.pickSide choice with ⟨t, _ | pick⟩ <;> cases side <;> rfl
  | _ => rfl

theorem execute_eq_shift {s : Session α} {line line' : List Char} {n : Nat}
    (hreading : s.context.reading line' = (s.context.reading line).shift n)
    (htrim : Blank.trim line' = Blank.trim line) :
    s.execute line' =
      ((s.execute line).1, (s.execute line).2.mapError (CommandError.shift n)) := by
  rw [execute_eq, execute_eq, hreading, htrim]
  cases s.context.reading line with
  | parsed command =>
      simp only [Reading.shift, perform_shift, Command.keyword_shift]
      cases ({ s with line := s.line + 1 }.perform command).2 <;> rfl
  | _ => rfl

/--
In the strict dialect, white space around a line changes nothing of what the line does, whether it
ends the script, or why it is rejected. Only the column of what is missing is moved, by the bytes in
front of the line and by some of those behind it.
-/
theorem execute_padded {s : Session α} (hstrict : s.settings.dialect = .strict) {u v : List Char}
    (hu : ∀ c ∈ u, Blank.isBlank c) (hv : ∀ c ∈ v, Blank.isBlank c) (line : List Char) :
    (∃ k ≤ Utf8.size v, s.execute (u ++ (line ++ v)) =
      ((s.execute line).1, (s.execute line).2.mapError (CommandError.shift (Utf8.size u + k)))) ∧
    s.execute (u ++ line) =
      ((s.execute line).1, (s.execute line).2.mapError (CommandError.shift (Utf8.size u))) ∧
    s.settings.dialect.stops (u ++ (line ++ v)) = s.settings.dialect.stops line := by
  have hreading : ∀ line, s.context.reading line = Dialect.strict.reading line := by
    intro line
    rw [Context.reading, context_settings, hstrict]
  obtain ⟨k, hk, hpadded⟩ := Dialect.reading_strict_padded (α := α) hu hv line
  have hfront := Dialect.reading_strict_blanks_append (α := α) hu line
  rw [← hreading, ← hreading] at hpadded hfront
  refine ⟨⟨k, hk, execute_eq_shift hpadded ?_⟩, execute_eq_shift hfront ?_, ?_⟩
  · rw [Blank.trim_blanks_append hu, Blank.trim_append_blanks hv]
  · exact Blank.trim_blanks_append hu line
  · rw [hstrict]
    exact Dialect.stops_strict_padded hu hv line

theorem execute_padded_position :
    let s : Session Rat := start Settings.standard (.replicate 8 0) none
    let line := "draw.pos(x:1 y:".toList
    let u := "\u00A0\x0B".toList
    let v := " \u3000".toList
    s.settings.dialect = .strict ∧ (∀ c ∈ u, Blank.isBlank c) ∧ (∀ c ∈ v, Blank.isBlank c) ∧
      (s.execute line).2 = .error ⟨1, .drawPos, .mismatch ⟨16, some 1, .number⟩⟩ ∧
      (s.execute (u ++ line)).2 = .error ⟨1, .drawPos, .mismatch ⟨19, some 1, .number⟩⟩ ∧
      ∃ k ≤ 4, (s.execute (u ++ (line ++ v))).2 =
        .error ⟨1, .drawPos, .mismatch ⟨19 + k, some 1, .number⟩⟩ := by
  intro s line u v
  have hstrict : s.settings.dialect = .strict := rfl
  have hu : ∀ c ∈ u, Blank.isBlank c := List.all_eq_true.mp (by decide)
  have hv : ∀ c ∈ v, Blank.isBlank c := List.all_eq_true.mp (by decide)
  have hline : (s.execute line).2 = .error ⟨1, .drawPos, .mismatch ⟨16, some 1, .number⟩⟩ := by
    decide +kernel
  obtain ⟨⟨k, hk, hpadded⟩, hfront, -⟩ := execute_padded hstrict hu hv line
  refine ⟨hstrict, hu, hv, hline, ?_, k, hk, ?_⟩
  · rw [hfront, hline]
    rfl
  · have hcolumn : 16 + (3 + k) = 19 + k := by omega
    rw [hpadded, hline, ← hcolumn]
    rfl

end Session
end PenScript
