import PenScript.Proofs.Limits
import PenScript.Proofs.Repairs

/-!
# Transcripts

A script with nothing but a write for each of some texts. It writes the texts as they are, whatever
they hold, and changes nothing else. Only the legacy dialect ends it early, behind the first text
with the word in it that ends a script.
-/

set_option autoImplicit false

namespace PenScript

/-- The line that writes a text. -/
def writeLine (text : String) : List Char :=
  "write(\"".toList ++ (text.toList ++ ['"', ')'])

def writeScript (texts : List String) : List UInt8 :=
  texts.flatMap fun text => Utf8.encode (writeLine text ++ ['\n'])

/-- What is written for some texts: each with a line feed behind it. -/
def transcript (texts : List String) : List UInt8 :=
  texts.flatMap fun text => Utf8.encode (text.toList ++ ['\n'])

/-- The texts that a script of writes gets to. -/
def Dialect.reached : Dialect → List String → List String
  | .strict, texts => texts
  | .legacy, texts => throughFirst (fun text => terminator <:+: text.toList) texts

theorem writeLine_eq (text : String) :
    writeLine text = "write(".toList ++ '"' :: (text.toList ++ '"' :: [')']) := by
  have hopening : "write(\"".toList = "write(".toList ++ ['"'] := by decide
  unfold writeLine
  rw [hopening, List.append_assoc, List.singleton_append]

/-! ## Lines of the script -/

theorem encode_writeLine (text : String) :
    Utf8.encode (writeLine text) =
      Utf8.encode ("write(".toList ++ '"' :: (text.toList ++ ['"'])) ++ [0x29] := by
  have hclose : Utf8.encode [')'] = [0x29] := by decide
  rw [writeLine_eq, ← hclose, ← Utf8.encode_append]
  simp only [List.append_assoc, List.cons_append, List.nil_append]

namespace Source

theorem line_encode_writeLine {text : String} (h : '\n' ∉ text.toList) :
    0x0A ∉ Utf8.encode (writeLine text) ∧ Utf8.encode (writeLine text) ≠ [] ∧
      (Utf8.encode (writeLine text)).getLast? ≠ some 0x0D := by
  have hopening : '\n' ∉ "write(\"".toList := by decide
  have hclose : '\n' ∉ ['"', ')'] := by decide
  refine ⟨?_, ?_, ?_⟩
  · intro hm
    have hfeed : '\n' ∈ "write(\"".toList ++ (text.toList ++ ['"', ')']) :=
      Utf8.mem_encode (by decide) hm
    simp only [List.mem_append, hopening, h, hclose, or_self] at hfeed
  · rw [encode_writeLine]
    exact List.append_ne_nil_of_right_ne_nil _ (List.cons_ne_nil _ _)
  · rw [encode_writeLine, List.getLast?_concat]
    decide

theorem linesOf_writeScript {texts : List String} (h : ∀ text ∈ texts, '\n' ∉ text.toList)
    {bytes : List UInt8} (hbytes : bytes = writeScript texts ∨ bytes = (writeScript texts).dropLast) :
    linesOf bytes = texts.map fun text => Utf8.encode (writeLine text) := by
  have hfeed : Utf8.encode ['\n'] = [0x0A] := by decide
  have hscript : writeScript texts =
      (texts.map fun text => Utf8.encode (writeLine text)).flatMap (· ++ [0x0A]) := by
    simp only [writeScript, Utf8.encode_append, hfeed, List.flatMap_map]
  have hlines : ∀ body ∈ texts.map fun text => Utf8.encode (writeLine text),
      0x0A ∉ body ∧ body ≠ [] ∧ body.getLast? ≠ some 0x0D := by
    intro body hm
    obtain ⟨text, ht, rfl⟩ := List.mem_map.mp hm
    exact line_encode_writeLine (h text ht)
  obtain ⟨hwhole, hcut⟩ := linesOf_flatMap_lineFeed hlines
  rw [hscript] at hbytes
  rcases hbytes with rfl | rfl
  · exact hwhole
  · exact hcut

end Source

/-! ## Reading a write -/

namespace Dialect

variable {α : Type} [Scalar α]

theorem recognize_writeLine (dialect : Dialect) (text : String) :
    dialect.skips (writeLine text) = false ∧
      dialect.recognize (writeLine text) = some (.write, 0) := by
  have hentry : needles = [] ++ (.write, "write(\"") :: needles.tail := rfl
  exact recognize_command hentry (List.forall_mem_nil _) nofun (List.forall_mem_nil _) dialect

/-- No quote inside the text is taken for the first or the last of the line. -/
theorem quoted?_writeLine (text : String) : Command.quoted? (writeLine text) = some text.toList := by
  rw [writeLine_eq]
  exact (Command.Quotes.between (by decide) (by decide)).quoted?_eq

theorem reading_writeLine (dialect : Dialect) (text : String) :
    (dialect.reading (writeLine text) : Reading α) = .parsed (.write text) := by
  obtain ⟨hskips, hfound⟩ := dialect.recognize_writeLine text
  rw [reading_of_not_skips hskips, hfound]
  simp [Command.ofLine, Command.quotedArgument, quoted?_writeLine, Except.map]

theorem stops_strict_writeLine (text : String) : stops .strict (writeLine text) = false := by
  obtain ⟨hskips, hfound⟩ := recognize_writeLine .strict text
  simp [stops, hskips, hfound]

theorem stops_legacy_writeLine (text : String) :
    stops .legacy (writeLine text) ↔ terminator <:+: text.toList := by
  have hquote : '"' ∉ terminator := by decide
  have hbefore : ¬ terminator <:+: "write(".toList := by decide
  have hafter : ¬ terminator <:+: [')'] := by decide
  rw [stops_legacy_iff, writeLine_eq, Span.infix_append_cons_iff hquote,
    Span.infix_append_cons_iff hquote]
  simp only [hbefore, hafter, false_or, or_false]

theorem any_stops_writeLine (dialect : Dialect) (texts : List String) :
    (texts.map writeLine).any dialect.stops ↔
      dialect = .legacy ∧ ∃ text ∈ texts, terminator <:+: text.toList := by
  cases dialect <;> simp [stops_strict_writeLine, stops_legacy_writeLine]

theorem throughFirst_writeLine (dialect : Dialect) (texts : List String) :
    throughFirst dialect.stops (texts.map writeLine) = (dialect.reached texts).map writeLine := by
  rw [throughFirst_map]
  refine congrArg (List.map writeLine) ?_
  cases dialect with
  | strict => exact throughFirst_eq_self fun text _ => stops_strict_writeLine text
  | legacy =>
      refine throughFirst_congr fun text _ => ?_
      rw [Bool.eq_iff_iff, Function.comp_apply, stops_legacy_writeLine, decide_eq_true_iff]

end Dialect

/-! ## Writing texts -/

variable {α : Type} [Scalar α]

namespace Session

/-- The first session has written the texts to a sink without limit, and is the second one otherwise. -/
structure Wrote (texts : List String) (t s : Session α) : Prop where
  context : t.context = s.context
  queue : t.queue = s.queue
  sink : t.sink = ⟨none, s.sink.written ++ transcript texts⟩

theorem wrote_execute {s : Session α} (hunlimited : s.sink.limit = none) (text : String) :
    Wrote [text] (s.execute (writeLine text)).1 s ∧ (s.execute (writeLine text)).2 = .ok () := by
  have hreading : s.context.reading (writeLine text) = .parsed (.write text) :=
    Dialect.reading_writeLine _ text
  refine ⟨⟨?_, ?_, ?_⟩, ?_⟩
  · simp [context_execute, Context.step, hreading, Context.carryOut]
  · simp [queue_execute, Context.drawn?, hreading, Context.shape?]
  · simp [sink_execute, Context.bytes, hreading, Command.bytes, Sink.write_unlimited hunlimited,
      transcript]
  · simp [result_execute, Context.rejection?, Context.bytes, hreading, Context.refusal?,
      Sink.write_unlimited hunlimited]

theorem wrote_after {s : Session α} (hunlimited : s.sink.limit = none) (texts : List String) :
    Wrote texts (s.after (texts.map writeLine)) s ∧
      errorsOf (s.answers (texts.map writeLine)) = [] := by
  induction texts generalizing s with
  | nil =>
      obtain ⟨settings, store, generator, ⟨limit, written⟩, queue, line, notes⟩ := s
      cases hunlimited
      exact ⟨⟨rfl, rfl, by simp [transcript]⟩, rfl⟩
  | cons text texts ih =>
      obtain ⟨hfirst, hresult⟩ := wrote_execute hunlimited text
      obtain ⟨hrest, herrors⟩ := ih (s := (s.execute (writeLine text)).1) (by rw [hfirst.sink])
      refine ⟨⟨?_, ?_, ?_⟩, ?_⟩
      · exact hrest.context.trans hfirst.context
      · exact hrest.queue.trans hfirst.queue
      · rw [List.map_cons, after_cons, hrest.sink, hfirst.sink]
        simp [transcript, ← Array.toList_inj]
      · rw [List.map_cons, answers, hresult, errorsOf_cons_ok, herrors]

/--
A script of writes with an unlimited sink writes each text as it is, with a line feed behind it. No
line is rejected, nothing is drawn, and store and generator stay as they are. The legacy dialect ends
the script behind the first text that holds `end.work`, and the strict one behind none.
-/
theorem run_writeScript (s : Session α) (hunlimited : s.sink.limit = none) (texts : List String)
    (hfeeds : ∀ text ∈ texts, '\n' ∉ text.toList) (bytes : List UInt8)
    (hbytes : bytes = writeScript texts ∨ bytes = (writeScript texts).dropLast) :
    let reached := s.settings.dialect.reached texts
    let after := (s.run ⟨bytes, none⟩).1
    after.sink = ⟨none, s.sink.written ++ transcript reached⟩ ∧
      after.store = s.store ∧ after.generator = s.generator ∧
      ∃ pass, (s.run ⟨bytes, none⟩).2 = .ok pass ∧ pass.shapes = s.queue ∧ pass.errors = #[] ∧
        pass.lines = reached.length ∧
        (pass.terminated ↔
          s.settings.dialect = .legacy ∧ ∃ text ∈ texts, Dialect.terminator <:+: text.toList) := by
  intro reached after
  have hlines : (Source.mk bytes none).lines.map Utf8.decodeLossy = texts.map writeLine := by
    rw [Source.lines, Source.linesOf_writeScript hfeeds hbytes, List.map_map]
    exact List.map_congr_left fun text _ => Utf8.decodeLossy_encode (writeLine text)
  have hran : s.ranLines ⟨bytes, none⟩ = reached.map writeLine := by
    rw [ranLines, hlines, Dialect.throughFirst_writeLine]
  obtain ⟨hwrote, herrors⟩ := wrote_after (s := s.beginPass) hunlimited reached
  obtain ⟨hcontext, hsink⟩ := alike_run s ⟨bytes, none⟩
  rw [hran, hwrote.context] at hcontext
  rw [hran, hwrote.sink] at hsink
  refine ⟨hsink.symm, congrArg Context.store hcontext.symm,
    congrArg Context.generator hcontext.symm, _, outcome_of_ended s _ (Or.inr rfl), ?_, ?_, ?_, ?_⟩
  · rw [hran]
    exact hwrote.queue
  · simp [hran, passOf, herrors]
  · simp [hran, passOf]
  · rw [passOf, ranLines, hlines, any_throughFirst]
    exact Dialect.any_stops_writeLine _ texts

theorem run_writeScript_legacy :
    let s : Session Float :=
      start { Settings.standard with dialect := .legacy } (.replicate 8 0) none
    let texts := ["say \"draw.pos(x:1)\"", "// é", "no end.work yet", "never written"]
    let bytes := (writeScript texts).dropLast
    s.sink.limit = none ∧ (∀ text ∈ texts, '\n' ∉ text.toList) ∧
      (s.run ⟨bytes, none⟩).1.sink.written.toList =
        Utf8.encode "say \"draw.pos(x:1)\"\n// é\nno end.work yet\n".toList ∧
      ∃ pass, (s.run ⟨bytes, none⟩).2 = .ok pass ∧ pass.shapes = #[] ∧ pass.errors = #[] ∧
        pass.lines = 3 ∧ pass.terminated := by
  intro s texts bytes
  have hfeeds : ∀ text ∈ texts, '\n' ∉ text.toList := by decide +kernel
  have hreached : s.settings.dialect.reached texts = texts.take 3 := by decide +kernel
  obtain ⟨hsink, -, -, pass, hpass, hshapes, herrors, hlines, hterminated⟩ :=
    run_writeScript s rfl texts hfeeds bytes (Or.inr rfl)
  rw [hreached] at hsink hlines
  refine ⟨rfl, hfeeds, ?_, pass, hpass, hshapes, herrors, hlines, ?_⟩
  · rw [hsink]
    decide +kernel
  · exact hterminated.mpr ⟨rfl, "no end.work yet", by decide, by decide +kernel⟩

end Session
end PenScript
