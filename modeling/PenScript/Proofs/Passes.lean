import PenScript.Proofs.Runs

/-!
# Passes in a row

A session is asked for one pass after another. A pass hands out what its own lines drew, and before
that whatever the passes drew that broke off since the last one was handed out.
-/

set_option autoImplicit false

namespace PenScript

variable {α : Type} [Scalar α]

/-! ## Calls -/

/-- A request for a pass, over a given source or over what came of opening the settings' script. -/
inductive Call where
  | run (source : Source)
  | script (opened : Except String Source)

namespace Call

def source? : Call → Option Source
  | .run source => some source
  | .script (.ok source) => some source
  | .script (.error _) => none

end Call

namespace Session

def call (s : Session α) : Call → Run α
  | .run source => s.run source
  | .script opened => s.runScript opened

def linesOf (s : Session α) (call : Call) : List (List Char) :=
  match call.source? with
  | some source => s.ranLines source
  | none => []

theorem passOf_note (s : Session α) (note : Note) (lines : List (List Char)) :
    (s.note note).passOf lines = s.passOf lines := by
  have hsilent : (s.note note).beginPass.silent = s.beginPass.silent := rfl
  obtain ⟨hafter, hanswers⟩ := silent_after hsilent lines
  rw [passOf, passOf, (silent_eq_iff.mp hafter).2.2.1, hanswers]
  rfl

/-- The note that a script was opened has no part in the pass over it. -/
theorem outcome_note (s : Session α) (note : Note) (source : Source) :
    ((s.note note).run source).2 = (s.run source).2 := by
  rw [outcome_run, outcome_run]
  simp only [passOf_note]
  rfl

/-- A pass that is handed out empties the queue; one that breaks off leaves its shapes there. -/
theorem queue_run_cases (s : Session α) (source : Source) :
    (∃ t pass, s.run source = (t, .ok pass) ∧ t.queue = #[] ∧
      pass.shapes.toList = s.queue.toList ++ s.context.drawn (s.ranLines source)) ∨
    ∃ t e, s.run source = (t, .error e) ∧
      t.queue.toList = s.queue.toList ++ s.context.drawn (s.ranLines source) := by
  have hqueue := queue_after s.beginPass (s.ranLines source)
  rcases run_cases s source with ⟨t, hrun, ht⟩ | ⟨t, e, hrun, ht⟩
  · exact Or.inl ⟨t, _, hrun, (silent_eq_iff.mp ht).2.2.1, hqueue⟩
  · refine Or.inr ⟨t, e, hrun, ?_⟩
    rw [(silent_eq_iff.mp ht).2.2.1]
    exact hqueue

theorem queue_call_cases (s : Session α) (call : Call) :
    (∃ t pass, s.call call = (t, .ok pass) ∧ t.queue = #[] ∧
      pass.shapes.toList = s.queue.toList ++ s.context.drawn (s.linesOf call)) ∨
    ∃ t e, s.call call = (t, .error e) ∧
      t.queue.toList = s.queue.toList ++ s.context.drawn (s.linesOf call) := by
  cases call with
  | run source => exact queue_run_cases s source
  | script opened =>
      cases opened with
      | ok source => exact queue_run_cases (s.note (.loaded s.settings.script)) source
      | error reason => exact Or.inr ⟨s, _, rfl, by simp [linesOf, Call.source?, Context.drawn]⟩

theorem settings_call (s : Session α) (call : Call) : (s.call call).1.settings = s.settings := by
  cases call with
  | run source => exact settings_run s source
  | script opened =>
      cases opened with
      | error reason => rfl
      | ok source => exact settings_run (s.note (.loaded s.settings.script)) source

end Session

/-! ## Sequences of calls -/

structure Visit (α : Type) where
  session : Session α
  call : Call

namespace Visit

def outcome (v : Visit α) : Except LoadError (Pass α) :=
  (v.session.call v.call).2

def failed (v : Visit α) : Bool :=
  match v.outcome with
  | .ok _ => false
  | .error _ => true

/-- The shapes drawn by the lines of this very pass. -/
def drawn (v : Visit α) : List (Shape α) :=
  v.session.context.drawn (v.session.linesOf v.call)

/-- The queue after a visit that found `queue` in it. -/
def leave (v : Visit α) (queue : List (Shape α)) : List (Shape α) :=
  if v.failed then queue ++ v.drawn else []

theorem queue_leave (v : Visit α) :
    (v.session.call v.call).1.queue.toList = v.leave v.session.queue.toList := by
  rw [leave, failed, outcome]
  rcases Session.queue_call_cases v.session v.call with ⟨t, pass, hcall, ht, -⟩ | ⟨t, e, hcall, ht⟩
  · simp [hcall, ht]
  · simpa [hcall, drawn] using ht

end Visit

namespace Session

def visits (s : Session α) : List Call → List (Visit α)
  | [] => []
  | call :: calls => ⟨s, call⟩ :: (s.call call).1.visits calls

theorem settings_of_mem_visits {s : Session α} {calls : List Call} {v : Visit α}
    (h : v ∈ s.visits calls) : v.session.settings = s.settings := by
  induction calls generalizing s with
  | nil => cases h
  | cons call calls ih =>
      rw [visits, List.mem_cons] at h
      rcases h with rfl | h
      · rfl
      · rw [ih h, settings_call]

/-! ## What a failed pass leaves -/

theorem shapes_of_outcome {v : Visit α} {pass : Pass α} (h : v.outcome = .ok pass) :
    pass.shapes.toList = v.session.queue.toList ++ v.drawn := by
  rw [Visit.outcome] at h
  rcases queue_call_cases v.session v.call with ⟨t, p, hcall, -, hp⟩ | ⟨t, e, hcall, -⟩
  · rw [hcall] at h
    cases h
    exact hp
  · rw [hcall] at h
    cases h

theorem queue_foldl_leave {s : Session α} {calls : List Call} {earlier later : List (Visit α)}
    {v : Visit α} (h : s.visits calls = earlier ++ v :: later) :
    v.session.queue.toList = earlier.foldl (fun queue w => w.leave queue) s.queue.toList := by
  -- For any queue to begin with, as the calls after the first find what that one left.
  induction calls generalizing s earlier with
  | nil => simp [visits] at h
  | cons call calls ih =>
      cases earlier with
      | nil =>
          obtain ⟨rfl, -⟩ := List.cons.inj h
          rfl
      | cons w earlier =>
          obtain ⟨rfl, hrest⟩ := List.cons.inj h
          rw [ih hrest, List.foldl_cons, ← Visit.queue_leave]

/-- The shapes of the passes that have failed since the last one was handed out. -/
def leftBy (visits : List (Visit α)) : List (Shape α) :=
  (visits.rtakeWhile Visit.failed).flatMap Visit.drawn

theorem foldl_leave_nil (visits : List (Visit α)) :
    visits.foldl (fun queue w => w.leave queue) [] = leftBy visits := by
  -- The last visit decides whether anything earlier is still there.
  induction visits using List.reverseRecOn with
  | nil => rfl
  | append_singleton visits v ih =>
      rw [List.foldl_concat, ih, leftBy, leftBy, Visit.leave, List.rtakeWhile_concat]
      split <;> simp

/--
The shapes of a pass are those that its own lines drew, after those left by the passes that failed
right before it. It holds only its own exactly where these had drawn nothing.
-/
theorem shapes_of_visits (settings : Settings α) (entropy : ChaCha.Key) (limit : Option Nat)
    (calls : List Call) (earlier later : List (Visit α)) (v : Visit α) (pass : Pass α)
    (h : (start settings entropy limit).visits calls = earlier ++ v :: later)
    (hpass : v.outcome = .ok pass) :
    pass.shapes.toList = leftBy earlier ++ v.drawn ∧
      (pass.shapes.toList = v.drawn ↔ ∀ w ∈ earlier.rtakeWhile Visit.failed, w.drawn = []) := by
  have hshapes : pass.shapes.toList = leftBy earlier ++ v.drawn := by
    rw [shapes_of_outcome hpass, queue_foldl_leave h, ← foldl_leave_nil]
    rfl
  refine ⟨hshapes, ?_⟩
  rw [hshapes, List.append_left_eq_self, leftBy, List.flatMap_eq_nil_iff]

theorem shapes_of_visits_after_broken :
    let s : Session Float := start Settings.standard (.replicate 8 0) none
    let broken : Visit Float :=
      ⟨s, .run ⟨Utf8.encode "draw.square(L:1)\n".toList, some "source broke"⟩⟩
    let next : Visit Float := ⟨(s.call broken.call).1, .run ⟨[], none⟩⟩
    ∃ pass, s.visits [broken.call, next.call] = [broken] ++ next :: [] ∧
      next.outcome = .ok pass ∧ pass.shapes.toList = leftBy [broken] ++ next.drawn := by
  intro s broken next
  obtain ⟨t, hrun, -⟩ := run_of_ended next.session ⟨[], none⟩ (Or.inr rfl)
  have hpass : next.outcome = .ok (next.session.passOf (next.session.ranLines ⟨[], none⟩)) :=
    congrArg Prod.snd hrun
  exact ⟨_, rfl, hpass,
    (shapes_of_visits _ _ _ [broken.call, next.call] [broken] [] next _ rfl hpass).1⟩

/-- A pass that executes no line hands out the square of the call that broke off before it. -/
theorem shapes_of_empty_source_after_broken :
    let s : Session Float := start Settings.standard (.replicate 8 0) none
    let broken : Call :=
      .run ⟨Utf8.encode "draw.square(L:1)\n".toList, some "source broke"⟩
    let next : Visit Float := ⟨(s.call broken).1, .run ⟨[], none⟩⟩
    s.visits [broken, next.call] = [⟨s, broken⟩, next] ∧ next.drawn = [] ∧
      next.outcome.toOption.map (fun pass => pass.shapes.toList) =
        some [.rect ⟨0, 550⟩ 1 1 .white] := by
  intro s broken next
  refine ⟨rfl, ?_, ?_⟩
  · rfl
  · decide +kernel

end Session
end PenScript
