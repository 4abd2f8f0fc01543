import PenScript.CommandLine.Report
import PenScript.Proofs.Arguments
import PenScript.Proofs.Limits
import PenScript.Proofs.Repairs
import PenScript.Proofs.Stamps
import PenScript.Proofs.Summaries

/-!
# Reports

A run without a window prints the texts that the script has written, and then one line for each
shape. None of these lines has a line feed in it, so that they can be counted.
-/

set_option autoImplicit false

namespace PenScript

/-! ## Lines of a report -/

namespace Report

theorem count_lineBytes {text : String} (h : OneLine text) : (lineBytes text).count 0x0A = 1 := by
  have htext : (0x0A : UInt8) ∉ Utf8.encode text.toList :=
    fun hm => h (Utf8.mem_encode (by decide) hm)
  have hfeed : Utf8.encode ['\n'] = [0x0A] := rfl
  rw [lineBytes, Utf8.encode_append, hfeed, List.count_append, List.count_eq_zero_of_not_mem htext]
  rfl

/-- There are as many line feeds as lines. -/
theorem count_flatMap_lineBytes {texts : List String} (h : ∀ text ∈ texts, OneLine text) :
    (texts.flatMap lineBytes).count 0x0A = texts.length := by
  induction texts with
  | nil => rfl
  | cons text texts ih =>
      obtain ⟨htext, hrest⟩ := List.forall_mem_cons.mp h
      rw [List.flatMap_cons, List.count_append, count_lineBytes htext, ih hrest, List.length_cons,
        Nat.add_comm]

def numbered (shapes : List (Shape Float)) : List String :=
  shapes.mapIdx fun i shape => s!"[{i + 1}] {shape.summary}"

theorem listing_eq (shapes : List (Shape Float)) :
    listing shapes = (numbered shapes).flatMap lineBytes := by
  rw [listing, List.zipIdx_succ, numbered, List.mapIdx_eq_zipIdx_map, List.flatMap_map,
    List.flatMap_map]

theorem oneLine_of_mem_numbered {shapes : List (Shape Float)} {text : String}
    (h : text ∈ numbered shapes) : OneLine text := by
  rw [numbered, List.mem_mapIdx] at h
  obtain ⟨i, hi, rfl⟩ := h
  have hopen : OneLine "[" := by decide
  have hclose : OneLine "] " := by decide
  simp [hopen, hclose, Shape.oneLine_summary]

end Report

/-! ## Lines without line feeds -/

theorem Source.dropReturn_subset (bytes : List UInt8) : dropReturn bytes ⊆ bytes := by
  unfold dropReturn
  split
  · exact List.dropLast_subset bytes
  · exact List.Subset.refl bytes

theorem Source.lineFeed_not_mem_lines {source : Source} {line : List UInt8}
    (h : line ∈ source.lines) : 0x0A ∉ line := by
  obtain ⟨bytes, fault⟩ := source
  induction bytes using line_induction with
  | line body rest hbody ih =>
      rw [lines_append_lineFeed hbody, List.mem_cons] at h
      rcases h with rfl | h
      · exact fun hm => hbody (dropReturn_subset body hm)
      · exact ih h
  | last body hbody =>
      cases fault with
      | some reason => simp [lines, endedPart_of_not_mem hbody, linesOf, pieces] at h
      | none =>
          by_cases hne : body = []
          · subst hne
            cases h
          · rw [lines, linesOf_of_not_mem hbody hne, List.mem_singleton] at h
            exact h ▸ hbody

variable {α : Type}

namespace Session

theorem lineFeed_not_mem_ranLines {s : Session α} {source : Source} {line : List Char}
    (h : line ∈ s.ranLines source) : '\n' ∉ line := by
  obtain ⟨bytes, hbytes, rfl⟩ := List.mem_map.mp ((s.ranLines_prefix source).subset h)
  exact Utf8.not_mem_decodeLossy (by decide) (by decide) (Source.lineFeed_not_mem_lines hbytes)

theorem lineFeed_not_mem_linesOf {s : Session α} {call : Call} {line : List Char}
    (h : line ∈ s.linesOf call) : '\n' ∉ line := by
  unfold linesOf at h
  split at h
  · exact lineFeed_not_mem_ranLines h
  · cases h

end Session

/-! ## Written texts -/

variable [Scalar α]

theorem Command.subset_of_quoted? {line text : List Char} (h : quoted? line = some text) :
    text ⊆ line := by
  have hquotes := quotes_quoted? line
  rw [h] at hquotes
  cases hquotes with
  | between _ _ => exact fun c hc => by simp [hc]

theorem Command.quoted?_of_ofLine {keyword : Keyword} {line : List Char} {offset : Nat}
    {text : String} (h : ofLine keyword line offset = .ok (.write text : Command α)) :
    quoted? line = some text.toList := by
  obtain rfl : Keyword.write = keyword := keyword_of_ofLine h
  cases hquoted : quoted? line with
  | none =>
      rw [ofLine, quotedArgument, hquoted] at h
      cases h
  | some found =>
      rw [ofLine, quotedArgument, hquoted] at h
      cases h
      rw [String.toList_ofList]

theorem Dialect.exists_ofLine_of_reading {dialect : Dialect} {line : List Char}
    {command : Command α} (h : dialect.reading line = .parsed command) :
    ∃ keyword offset, dialect.recognize line = some (keyword, offset) ∧
      Command.ofLine keyword line offset = .ok command := by
  unfold reading at h
  split at h
  · cases h
  · split at h
    · cases h
    · rename_i keyword offset hrecognize
      split at h
      · rename_i found hfound
        cases h
        exact ⟨keyword, offset, hrecognize, hfound⟩
      · cases h

namespace Execution

variable {e : Execution α}

/-- The text that the line has written. -/
def text? (e : Execution α) : Option String :=
  match e.accepted? with
  | some (.write text) => some text
  | _ => none

theorem reading_of_accepted? {command : Command α} (h : e.accepted? = some command) :
    e.session.context.reading e.line = .parsed command := by
  unfold accepted? at h
  split at h
  · rename_i found hreading
    split at h
    · cases h
      exact hreading
    · cases h
  · cases h

theorem accepted?_of_text? {text : String} (h : e.text? = some text) :
    e.accepted? = some (.write text) := by
  unfold text? at h
  split at h
  · rename_i found haccepted
    cases h
    exact haccepted
  · cases h

/-- A text is written as a line of its own, and a line that writes none adds no byte. -/
theorem bytes_eq_flatMap (h : e.session.sink.limit = none) :
    e.bytes = e.text?.toList.flatMap Report.lineBytes := by
  cases hreading : e.session.context.reading e.line with
  | parsed command =>
      cases command with
      | write text =>
          have hwrites : e.writes := by simp [writes, hreading]
          have hresult : e.result = .ok () := by
            rw [result_of_unlimited h, rejection?_of_writes hwrites]
          have htext : e.text? = some text := by
            simp [text?, accepted?, hreading, hresult, Except.isOk, Except.toBool]
          simp [bytes, Context.bytes, hreading, htext, Command.bytes, Report.lineBytes]
      | _ =>
          have htext : e.text? = none := by
            cases hok : e.result.isOk <;> simp [text?, accepted?, hreading, hok]
          simp [bytes, Context.bytes, hreading, htext, Command.bytes]
  | _ => simp [bytes, Context.bytes, hreading, text?, accepted?]

theorem oneLine_of_text? {text : String} (hline : '\n' ∉ e.line) (h : e.text? = some text) :
    OneLine text := by
  obtain ⟨keyword, offset, -, hcommand⟩ :=
    Dialect.exists_ofLine_of_reading (reading_of_accepted? (accepted?_of_text? h))
  exact fun hm => hline (Command.subset_of_quoted? (Command.quoted?_of_ofLine hcommand) hm)

end Execution

namespace Session

theorem Leads.written {s t : Session α} {executions : List (Execution α)}
    (h : Leads s executions t) (hs : s.sink.limit = none) :
    t.sink.written.toList =
      s.sink.written.toList ++ (executions.filterMap Execution.text?).flatMap Report.lineBytes := by
  induction h with
  | nil hst => simp [hst.sink]
  | @cons s t e rest hse _ ih =>
      have he : e.session.sink.limit = none := by rw [← hse.sink, hs]
      rw [ih (Execution.limit_next he), Execution.sink_next he, Execution.bytes_eq_flatMap he,
        hse.sink, List.filterMap_cons]
      cases e.text? <;> simp

theorem oneLine_of_mem_texts {v : Visit α} {text : String}
    (h : text ∈ v.executions.filterMap Execution.text?) : OneLine text := by
  obtain ⟨e, he, htext⟩ := List.mem_filterMap.mp h
  have hlines : v.executions.map Execution.line = v.session.linesOf v.call :=
    map_line_executions v.session.beginPass _
  have hline : e.line ∈ v.session.linesOf v.call := hlines ▸ List.mem_map_of_mem he
  exact Execution.oneLine_of_text? (lineFeed_not_mem_linesOf hline) htext

end Session

/-! ## Drawn lines -/

/-- A line as a curve leaves it: its summary gives 51 vertices and the color of them all. -/
structure Shape.Uniform (vertices : List (Vertex Float)) : Prop where
  length : vertices.length = 51
  summary : ∃ first last color, vertices.head? = some first ∧ vertices.getLast? = some last ∧
    (∀ v ∈ vertices, v.color = color) ∧
    Shape.summary (.polyline vertices) =
      "polyline   n=51  " ++ Shape.ends first last ++ "  rgb=" ++ color.summary

theorem Shape.uniform_of_colors {vertices : List (Vertex Float)} {color : Rgb}
    (hlength : vertices.length = 51) (hcolors : ∀ v ∈ vertices, v.color = color) :
    Uniform vertices := by
  cases vertices with
  | nil => cases hlength
  | cons first rest =>
      refine ⟨hlength, first, (first :: rest).getLast (List.cons_ne_nil _ _), color, rfl,
        List.getLast?_eq_some_getLast _, hcolors, ?_⟩
      have hcount : "polyline   n=" ++ toString 51 ++ "  " = "polyline   n=51  " := by decide
      rw [List.length_cons] at hlength
      rw [summary_polyline, hlength, hcolors first (List.mem_cons_self ..), hcount]

theorem Execution.uniform_of_shape? {e : Execution Float} {vertices : List (Vertex Float)}
    (h : e.shape? = some (.polyline vertices)) : Shape.Uniform vertices := by
  obtain ⟨command, -, hstamped⟩ := stamped_of_shape? h
  cases hstamped with
  | curve hlength _ hcolors => exact Shape.uniform_of_colors hlength hcolors

/-! ## Whole reports -/

namespace Session

theorem runScript_ended (s : Session α) (bytes : List UInt8) :
    let v : Visit α := ⟨s, .script (.ok ⟨bytes, none⟩)⟩
    ∃ t pass, s.runScript (.ok ⟨bytes, none⟩) = (t, .ok pass) ∧ Leads s v.executions t ∧
      pass.shapes.toList = s.queue.toList ++ v.executions.filterMap Execution.shape? := by
  intro v
  have hleads := leads_call s (.script (.ok ⟨bytes, none⟩))
  obtain ⟨u, hended, -⟩ :=
    run_of_ended (s.note (.loaded s.settings.script)) ⟨bytes, none⟩ (Or.inr rfl)
  rcases queue_call_cases s (.script (.ok ⟨bytes, none⟩)) with
    ⟨t, pass, hcall, -, hshapes⟩ | ⟨t, e, hcall, -⟩
  · rw [hcall] at hleads
    exact ⟨t, pass, hcall, hleads, by rw [hshapes, ← v.drawn_eq_filterMap]; rfl⟩
  · cases hended.symm.trans hcall

end Session

namespace Report

theorem ofScript_of_headless {options : Options} (h : options.headless)
    {opened : Except String Source} {entropy : ChaCha.Key} {t : Session Float} {pass : Pass Float}
    (hrun : (Session.start options.settings entropy none : Session Float).runScript opened =
      (t, .ok pass)) :
    ofScript options opened entropy =
      ⟨0, t.sink.written.toList ++ (numbered pass.shapes.toList).flatMap lineBytes, ""⟩ := by
  simp only [ofScript, hrun, h, if_true, listing_eq]

end Report
end PenScript
