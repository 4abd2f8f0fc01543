import PenScript.Proofs.Recognition
import PenScript.Proofs.Runs

/-!
# Portable scripts

On portable lines both dialects find the same command or none that does anything. They still differ
in what a picked zero counts for, which does not matter as long as no list holds a zero.
-/

set_option autoImplicit false

namespace PenScript

/-! ## Portable lines -/

/--
A line is plain, or a command whose fixed text stands at its beginning, or the end of the script.
Fixed texts that are tried later may occur anywhere in a command.
-/
inductive Portable (line : List Char) : Prop where
  | plain
      (hneedles : ∀ entry ∈ Dialect.needles, ¬ entry.2.toList <:+: line)
      (hend : ¬ Dialect.terminator <:+: line)
      (hword : Keyword.ofWord? (Dialect.firstWord line) = none)
  | command (ws rest : List Char) (before after : List (Keyword × String)) (keyword : Keyword)
      (needle : String)
      (hentry : Dialect.needles = before ++ (keyword, needle) :: after)
      (hline : line = ws ++ (needle.toList ++ rest))
      (hws : ∀ c ∈ ws, Blank.isBlank c)
      (hopen : keyword.draws → rest.head? = some '(')
      (hbefore : ∀ entry ∈ before, ¬ entry.2.toList <:+: line)
      (hend : ¬ Dialect.terminator <:+: line)
  | ending (ws rest : List Char)
      (hline : line = ws ++ (Dialect.terminator ++ rest))
      (hws : ∀ c ∈ ws, Blank.isBlank c)
      (hrest : ∀ c ∈ rest.head?, Dialect.endsWord c)
      (hneedles : ∀ entry ∈ Dialect.needles, ¬ entry.2.toList <:+: line)

namespace Dialect

theorem findLeading_plain {line : List Char} (h : Keyword.ofWord? (firstWord line) = none) :
    findLeading line = none := by
  rw [findLeading_eq, h, Option.map_none]

/-! ## Reading portable lines -/

variable {α : Type} [Scalar α]

/-- The dialects read a portable line alike, or to no effect. -/
theorem reading_portable {line : List Char} (h : Portable line) :
    (legacy.reading line : Reading α) = strict.reading line ∨
      (legacy.reading line : Reading α).Idle ∧ (strict.reading line : Reading α).Idle := by
  cases h with
  | plain hneedles _ hword =>
      exact Or.inr ⟨idle_of_recognize_eq_none (findAnywhere_eq_none hneedles),
        idle_of_recognize_eq_none (findLeading_plain hword)⟩
  | command ws rest before after keyword needle hentry hline hws hopen hbefore _ =>
      subst hline
      have hboth := recognize_command hentry hws hopen hbefore
      left
      rw [reading_of_not_skips (hboth legacy).1, reading_of_not_skips (hboth strict).1,
        (hboth legacy).2, (hboth strict).2]
  | ending ws rest hline hws hrest hneedles =>
      -- The legacy dialect has no command for the end of the script, and the strict one does nothing.
      right
      refine ⟨idle_of_recognize_eq_none (findAnywhere_eq_none hneedles), ?_⟩
      have hskips := skips_keyword strict hws .endWork rest
      have hfound : strict.recognize (ws ++ (Keyword.endWork.text.toList ++ rest)) =
          some (.endWork, Utf8.size ws) := findLeading_append hws .endWork hrest
      rw [hline, terminator, reading_of_not_skips hskips, hfound]
      exact .endWork

theorem stops_portable {line : List Char} (h : Portable line) :
    legacy.stops line = strict.stops line := by
  rw [Bool.eq_iff_iff, stops_legacy_iff]
  cases h with
  | plain _ hend hword =>
      simp [hend, stops, recognize, findLeading_plain hword]
  | command ws rest before after keyword needle hentry hline hws hopen hbefore hend =>
      have hm : (keyword, needle) ∈ needles := by
        rw [hentry]
        simp
      have hne : keyword ≠ .endWork := ne_endWork_of_mem_needles hm
      rw [hline] at hbefore
      obtain ⟨-, hfound⟩ := recognize_command hentry hws hopen hbefore strict
      rw [← hline] at hfound
      simp [hend, stops, hfound, hne]
  | ending ws rest hline hws hrest _ =>
      have hoccurs : terminator <:+: line := ⟨ws, rest, by rw [hline, List.append_assoc]⟩
      have hskips := skips_keyword strict hws .endWork rest
      have hfound := findLeading_append hws .endWork hrest
      rw [← terminator, ← hline] at hskips hfound
      simp [hoccurs, stops, hskips, recognize, hfound]

end Dialect

/-! ## Lists without zeros -/

variable {α : Type} [Scalar α]

/-- Is there no zero in the list that the line makes, if it makes one? -/
def makesNoZero (α : Type) [Scalar α] (line : List Char) : Bool :=
  match (Dialect.strict.reading line : Reading α) with
  | .parsed (.createList values) => values.all fun value => !Scalar.isZero value
  | _ => true

structure Store.Nonzero (store : Store α) : Prop where
  scratch : ∀ value ∈ store.scratch, Scalar.isZero value = false
  lists : ∀ name items, store.list? name = some items →
    ∀ value ∈ items, Scalar.isZero value = false

theorem Store.nonzero_initial (cursor : Point α) (color : Rgb) :
    (initial cursor color).Nonzero where
  scratch := by simp [initial]
  lists := by simp [initial, list?]

namespace Context

theorem nonzero_carryOut {c : Context α} (hc : c.store.Nonzero) {command : Command α}
    (h : ∀ values, command = .createList values →
      ∀ value ∈ values, Scalar.isZero value = false) :
    (c.carryOut command).store.Nonzero := by
  cases command with
  | createList values =>
      exact ⟨fun value hm => h values rfl value (by simpa [carryOut, Store.setScratch] using hm),
        hc.lists⟩
  | listName name =>
      refine ⟨hc.scratch, ?_⟩
      intro other items hitems
      simp only [carryOut, Store.nameList, Store.list?, Std.TreeMap.getElem?_insert] at hitems
      split at hitems
      · cases hitems
        exact hc.scratch
      · exact hc.lists other items hitems
  | _ => exact ⟨hc.scratch, hc.lists⟩

def inDialect (c : Context α) (dialect : Dialect) : Context α :=
  { c with settings := { c.settings with dialect } }

/-- Without zeros to pick, the dialects pick alike. -/
theorem pick_inDialect {c : Context α} (hc : c.store.Nonzero) (choice : Option String)
    (dialect : Dialect) : (c.inDialect dialect).pick choice = c.pick choice := by
  cases choice with
  | none => rfl
  | some name =>
      have hkeep : ∀ dialect, Session.keepPick dialect (c.generator.pickNamed? c.store name).1 =
          (c.generator.pickNamed? c.store name).1 := by
        intro dialect
        rcases Generator.pickNamed?_cases c.generator c.store name with
          h | ⟨items, item, hitems, hm, h⟩
        · cases dialect <;> simp [h, Session.keepPick]
        · -- What is picked comes from a list, so the legacy dialect keeps it.
          have hzero := hc.lists name items hitems item hm
          cases dialect <;> simp [h, Session.keepPick, hzero]
      simp only [pick, inDialect, hkeep]

theorem carryOut_inDialect {c : Context α} (hc : c.store.Nonzero) (command : Command α)
    (dialect : Dialect) :
    (c.inDialect dialect).carryOut command = (c.carryOut command).inDialect dialect := by
  cases command with
  | drawSquare choice fixed =>
      simp only [carryOut, pick_inDialect hc]
      rfl
  | _ => rfl

theorem side_inDialect {c : Context α} (hc : c.store.Nonzero) (choice : Option String)
    (fixed : Except Mismatch α) (dialect : Dialect) :
    (c.inDialect dialect).side choice fixed = c.side choice fixed := by
  rw [side, side, pick_inDialect hc]

theorem shape?_inDialect {c : Context α} (hc : c.store.Nonzero) (command : Command α)
    (dialect : Dialect) : (c.inDialect dialect).shape? command = c.shape? command := by
  cases command with
  | drawSquare choice fixed =>
      simp only [shape?, side_inDialect hc]
      rfl
  | _ => rfl

theorem refusal?_inDialect {c : Context α} (hc : c.store.Nonzero) (command : Command α)
    (dialect : Dialect) : (c.inDialect dialect).refusal? command = c.refusal? command := by
  cases command with
  | drawSquare choice fixed => simp only [refusal?, side_inDialect hc]
  | _ => rfl

theorem step_portable {c : Context α} (hdialect : c.settings.dialect = .strict)
    (hc : c.store.Nonzero) {line : List Char} (h : Portable line) :
    let d := c.inDialect .legacy
    d.step line = (c.step line).inDialect .legacy ∧ d.drawn? line = c.drawn? line ∧
      d.bytes line = c.bytes line ∧ d.rejection? line = c.rejection? line := by
  intro d
  have hlegacy : d.reading line = (Dialect.legacy.reading line : Reading α) := rfl
  have hstrict : c.reading line = Dialect.strict.reading line := by rw [reading, hdialect]
  rcases Dialect.reading_portable (α := α) h with hsame | ⟨hl, hs⟩
  · rw [← hlegacy, ← hstrict] at hsame
    rw [step, step, drawn?, drawn?, bytes, bytes, rejection?, rejection?, hsame]
    cases c.reading line with
    | parsed command =>
        exact ⟨carryOut_inDialect hc command _, shape?_inDialect hc command _, rfl,
          congrArg (Option.map fun cause => (command.keyword, cause))
            (refusal?_inDialect hc command _)⟩
    | _ => exact ⟨rfl, rfl, rfl, rfl⟩
  · rw [← hlegacy] at hl
    rw [← hstrict] at hs
    obtain ⟨hdstep, hddrawn, hdbytes, hdrejection⟩ := step_of_idle hl
    obtain ⟨hcstep, hcdrawn, hcbytes, hcrejection⟩ := step_of_idle hs
    exact ⟨by rw [hdstep, hcstep], by rw [hddrawn, hcdrawn], by rw [hdbytes, hcbytes],
      by rw [hdrejection, hcrejection]⟩

theorem nonzero_step {c : Context α} (hdialect : c.settings.dialect = .strict)
    (hc : c.store.Nonzero) {line : List Char} (h : makesNoZero α line) :
    (c.step line).store.Nonzero := by
  unfold step
  split
  · rename_i command hr
    refine nonzero_carryOut hc ?_
    rintro values rfl
    rw [reading, hdialect] at hr
    simpa [makesNoZero, hr] using h
  · exact hc

end Context

/-! ## Sessions of both dialects -/

namespace Session

/-- A strict session and a legacy one that otherwise differ in their notes only. -/
structure Twins (s t : Session α) : Prop where
  dialect : s.settings.dialect = .strict
  context : t.context = s.context.inDialect .legacy
  sink : t.sink = s.sink
  queue : t.queue = s.queue
  line : t.line = s.line
  nonzero : s.store.Nonzero

namespace Twins

theorem start (settings : Settings α) (entropy : ChaCha.Key) (limit : Option Nat) :
    Twins (start { settings with dialect := .strict } entropy limit)
      (start { settings with dialect := .legacy } entropy limit) where
  dialect := rfl
  context := rfl
  sink := rfl
  queue := rfl
  line := rfl
  nonzero := Store.nonzero_initial _ _

theorem beginPass {s t : Session α} (h : Twins s t) : Twins s.beginPass t.beginPass :=
  ⟨h.dialect, h.context, h.sink, h.queue, rfl, h.nonzero⟩

theorem takeShapes {s t : Session α} (h : Twins s t) :
    Twins s.takeShapes.1 t.takeShapes.1 :=
  ⟨h.dialect, h.context, h.sink, rfl, h.line, h.nonzero⟩

theorem of_silent {s t s' t' : Session α} (h : Twins s t) (hs : s'.silent = s.silent)
    (ht : t'.silent = t.silent) : Twins s' t' := by
  obtain ⟨hsc, hss, hsq, hsl⟩ := silent_eq_iff.mp hs
  obtain ⟨htc, hts, htq, htl⟩ := silent_eq_iff.mp ht
  have hstore : s'.store = s.store := congrArg Context.store hsc
  refine ⟨?_, ?_, ?_, ?_, ?_, ?_⟩
  · rw [settings_of_silent hs, h.dialect]
  · rw [htc, hsc, h.context]
  · rw [hts, hss, h.sink]
  · rw [htq, hsq, h.queue]
  · rw [htl, hsl, h.line]
  · rw [hstore]
    exact h.nonzero

theorem execute {s t : Session α} (h : Twins s t) {line : List Char} (hline : Portable line)
    (hzero : makesNoZero α line) :
    Twins (s.execute line).1 (t.execute line).1 ∧ (t.execute line).2 = (s.execute line).2 := by
  obtain ⟨hstep, hdrawn, hbytes, hrejection⟩ :=
    Context.step_portable (c := s.context) h.dialect h.nonzero hline
  rw [← h.context] at hstep hdrawn hbytes hrejection
  refine ⟨⟨?_, ?_, ?_, ?_, ?_, ?_⟩, ?_⟩
  · rw [settings_execute, h.dialect]
  · rw [context_execute, context_execute, hstep]
  · rw [sink_execute, sink_execute, hbytes, h.sink]
  · rw [queue_execute, queue_execute, hdrawn, h.queue]
  · rw [line_execute, line_execute, h.line]
  · rw [← context_store, context_execute]
    exact Context.nonzero_step h.dialect h.nonzero hzero
  · rw [result_execute, result_execute, hrejection, hbytes, h.sink, h.line]

theorem after {s t : Session α} (h : Twins s t) {lines : List (List Char)}
    (hlines : ∀ line ∈ lines, Portable line ∧ makesNoZero α line) :
    Twins (s.after lines) (t.after lines) ∧ t.answers lines = s.answers lines := by
  induction lines generalizing s t with
  | nil => exact ⟨h, rfl⟩
  | cons line lines ih =>
      obtain ⟨hline, hzero⟩ := hlines line (List.mem_cons_self ..)
      obtain ⟨hnext, hresult⟩ := h.execute hline hzero
      obtain ⟨hafter, hanswers⟩ := ih hnext fun line hm => hlines line (List.mem_cons_of_mem _ hm)
      exact ⟨hafter, by rw [answers, answers, hresult, hanswers]⟩

theorem ranLines {s t : Session α} (h : Twins s t) {source : Source}
    (hlines : ∀ bytes ∈ source.lines, Portable (Utf8.decodeLossy bytes)) :
    t.ranLines source = s.ranLines source := by
  have hdialect : t.settings.dialect = .legacy :=
    congrArg (fun c : Context α => c.settings.dialect) h.context
  rw [Session.ranLines, Session.ranLines, hdialect, h.dialect]
  apply throughFirst_congr
  intro line hm
  obtain ⟨bytes, hbytes, rfl⟩ := List.mem_map.mp hm
  exact Dialect.stops_portable (hlines bytes hbytes)

theorem run {s t : Session α} (h : Twins s t) {source : Source}
    (hlines : ∀ bytes ∈ source.lines, Portable (Utf8.decodeLossy bytes))
    (hzeros : ∀ bytes ∈ source.lines, makesNoZero α (Utf8.decodeLossy bytes)) :
    Twins (s.run source).1 (t.run source).1 ∧ (t.run source).2 = (s.run source).2 := by
  have hran := h.ranLines hlines
  have hportable : ∀ line ∈ s.ranLines source, Portable line ∧ makesNoZero α line := by
    intro line hm
    obtain ⟨bytes, hbytes, rfl⟩ :=
      List.mem_map.mp ((throughFirst_prefix_self _ _).subset hm)
    exact ⟨hlines bytes hbytes, hzeros bytes hbytes⟩
  have hdialect : t.settings.dialect = .legacy :=
    congrArg (fun c : Context α => c.settings.dialect) h.context
  have hstops : (s.ranLines source).any t.settings.dialect.stops =
      (s.ranLines source).any s.settings.dialect.stops := by
    rw [hdialect, h.dialect, Bool.eq_iff_iff, List.any_eq_true, List.any_eq_true]
    refine exists_congr fun line => and_congr_right fun hm => ?_
    rw [Dialect.stops_portable (hportable line hm).1]
  obtain ⟨hafter, hanswers⟩ := h.beginPass.after hportable
  by_cases hended : (s.ranLines source).any s.settings.dialect.stops ∨ source.fault = none
  · obtain ⟨s', hs, hs'⟩ := run_of_ended s source hended
    obtain ⟨t', ht, ht'⟩ := run_of_ended t source (by rw [hran, hstops]; exact hended)
    rw [hran] at ht ht'
    have hpass : t.passOf (s.ranLines source) = s.passOf (s.ranLines source) := by
      rw [passOf, passOf, hafter.queue, hanswers, hstops]
    rw [hs, ht, hpass]
    exact ⟨hafter.takeShapes.of_silent hs' ht', rfl⟩
  · obtain ⟨hstop, hfault⟩ := not_or.mp hended
    obtain ⟨reason, hreason⟩ := Option.ne_none_iff_exists'.mp hfault
    rw [Bool.not_eq_true] at hstop
    obtain ⟨s', hs, hs'⟩ := run_of_broken s source hstop hreason
    obtain ⟨t', ht, ht'⟩ := run_of_broken t source (by rw [hran, hstops]; exact hstop) hreason
    rw [hran] at ht ht'
    rw [hs, ht]
    exact ⟨hafter.of_silent hs' ht', rfl⟩

end Twins

/--
A source whose lines are all portable, and make no list with a zero, runs to the same pass in both
dialects, and leaves the same store, generator, sink and queue.
-/
theorem run_portable (settings : Settings α) (entropy : ChaCha.Key) (limit : Option Nat)
    (source : Source)
    (hlines : ∀ bytes ∈ source.lines, Portable (Utf8.decodeLossy bytes))
    (hzeros : ∀ bytes ∈ source.lines, makesNoZero α (Utf8.decodeLossy bytes)) :
    let strict := (start { settings with dialect := .strict } entropy limit).run source
    let legacy := (start { settings with dialect := .legacy } entropy limit).run source
    legacy.2 = strict.2 ∧ (source.fault = none → ∃ pass, strict.2 = .ok pass) ∧
      legacy.1.store = strict.1.store ∧ legacy.1.generator = strict.1.generator ∧
      legacy.1.sink = strict.1.sink ∧ legacy.1.queue = strict.1.queue ∧
      legacy.1.line = strict.1.line := by
  intro strict legacy
  obtain ⟨htwins, hresult⟩ := (Twins.start settings entropy limit).run hlines hzeros
  refine ⟨hresult, ?_, congrArg Context.store htwins.context,
    congrArg Context.generator htwins.context, htwins.sink, htwins.queue, htwins.line⟩
  intro hfault
  obtain ⟨t, hrun, -⟩ := run_of_ended (start { settings with dialect := .strict } entropy limit)
    source (Or.inr hfault)
  exact ⟨_, congrArg Prod.snd hrun⟩

theorem run_portable_list_note_end :
    let source : Source := ⟨Utf8.encode "create.list[2]\nhello\n  end.work\n".toList, none⟩
    let run (dialect : Dialect) : Run Float :=
      (start { Settings.standard with dialect } (.replicate 8 0) none).run source
    (∀ bytes ∈ source.lines, Portable (Utf8.decodeLossy bytes)) ∧
      (∀ bytes ∈ source.lines, makesNoZero Float (Utf8.decodeLossy bytes)) ∧
      (run .legacy).2 = (run .strict).2 ∧ (run .legacy).1.store = (run .strict).1.store := by
  intro source run
  have hsource : source.lines = ["create.list[2]", "hello", "  end.work"].map fun line =>
      Utf8.encode line.toList := by
    decide +kernel
  have hlines : ∀ bytes ∈ source.lines, Portable (Utf8.decodeLossy bytes) := by
    rw [hsource, List.forall_mem_map]
    simp only [List.forall_mem_cons, List.not_mem_nil, false_implies, implies_true, and_true]
    have hws : ∀ c ∈ "  ".toList, Blank.isBlank c := List.all_eq_true.mp (by decide)
    refine ⟨.command [] "2]".toList (Dialect.needles.take 2) (Dialect.needles.drop 3)
      .createList "create.list[" rfl ?_ nofun nofun ?_ ?_, .plain ?_ ?_ ?_,
      .ending "  ".toList [] ?_ hws nofun ?_⟩
    all_goals decide +kernel
  have hzeros : ∀ bytes ∈ source.lines, makesNoZero Float (Utf8.decodeLossy bytes) := by
    rw [hsource]
    decide +kernel
  obtain ⟨hresult, -, hstore, -⟩ :=
    run_portable Settings.standard (.replicate 8 0) none source hlines hzeros
  exact ⟨hlines, hzeros, hresult, hstore⟩

end Session
end PenScript
