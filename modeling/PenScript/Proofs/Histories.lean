import PenScript.Proofs.Accounting

/-!
# Histories

A session executes lines one by one, or runs whole sources. What it has executed is its history:
whatever passes begin or end in between, each line meets the context and the sink that the line
before it left.
-/

set_option autoImplicit false

namespace PenScript

variable {α : Type} [Scalar α]

/-! ## What a line leaves to the next -/

namespace Session

/-- The sessions agree in all that passes from one line to the next. -/
structure Alike (s t : Session α) : Prop where
  context : s.context = t.context
  sink : s.sink = t.sink

namespace Alike

variable {s t u : Session α}

omit [Scalar α] in
theorem refl (s : Session α) : Alike s s :=
  ⟨rfl, rfl⟩

omit [Scalar α] in
theorem store (h : Alike s t) : s.store = t.store :=
  congrArg Context.store h.context

omit [Scalar α] in
theorem settings (h : Alike s t) : s.settings = t.settings :=
  congrArg Context.settings h.context

omit [Scalar α] in
theorem trans (h : Alike s t) (h' : Alike t u) : Alike s u :=
  ⟨h.context.trans h'.context, h.sink.trans h'.sink⟩

theorem execute (h : Alike s t) (line : List Char) :
    Alike (s.execute line).1 (t.execute line).1 where
  context := by rw [context_execute, context_execute, h.context]
  sink := by rw [sink_execute, sink_execute, h.context, h.sink]

theorem after (h : Alike s t) (lines : List (List Char)) :
    Alike (s.after lines) (t.after lines) := by
  induction lines generalizing s t with
  | nil => exact h
  | cons line lines ih => exact ih (h.execute line)

end Alike

/-- The executions take one session to another, each from where the one before it ended. -/
inductive Leads : Session α → List (Execution α) → Session α → Prop where
  | nil {s t : Session α} (h : Alike s t) : Leads s [] t
  | cons {s t : Session α} {e : Execution α} {rest : List (Execution α)}
      (h : Alike s e.session) (hrest : Leads e.next rest t) : Leads s (e :: rest) t

namespace Leads

variable {s t u : Session α} {first later : List (Execution α)}

theorem of_alike (h : Alike s t) (ht : Leads t first u) : Leads s first u := by
  cases ht with
  | nil h' => exact .nil (h.trans h')
  | cons h' hrest => exact .cons (h.trans h') hrest

theorem alike (hs : Leads s first t) (h : Alike t u) : Leads s first u := by
  induction hs with
  | nil h' => exact .nil (h'.trans h)
  | cons h' _ ih => exact .cons h' (ih h)

theorem append (hs : Leads s first t) (ht : Leads t later u) : Leads s (first ++ later) u := by
  induction hs with
  | nil h => exact ht.of_alike h
  | cons h _ ih => exact .cons h (ih ht)

theorem split (h : Leads s (first ++ later) u) : ∃ t, Leads s first t ∧ Leads t later u := by
  induction first generalizing s with
  | nil => exact ⟨s, .nil (.refl s), h⟩
  | cons e first ih =>
      cases h with
      | cons hs hrest =>
          obtain ⟨t, hfirst, hlater⟩ := ih hrest
          exact ⟨t, .cons hs hfirst, hlater⟩

theorem around {e : Execution α} (h : Leads s (first ++ e :: later) u) :
    Leads s first e.session ∧ Leads e.next later u := by
  obtain ⟨t, hfirst, hlater⟩ := h.split
  cases hlater with
  | cons ht hrest => exact ⟨hfirst.alike ht, hrest⟩

theorem settings_of_mem {e : Execution α} (h : Leads s first u) (he : e ∈ first) :
    e.session.settings = s.settings := by
  induction h with
  | nil _ => cases he
  | cons hs _ ih =>
      rcases List.mem_cons.mp he with rfl | he
      · exact hs.settings.symm
      · exact (ih he).trans ((settings_execute _ _).trans hs.settings.symm)

end Leads

theorem leads_executions (s : Session α) (lines : List (List Char)) :
    Leads s (s.executions lines) (s.after lines) := by
  induction lines generalizing s with
  | nil => exact .nil (.refl s)
  | cons line lines ih => exact .cons (.refl s) (ih (s.execute line).1)

/-! ## Calls -/

theorem alike_run (s : Session α) (source : Source) :
    Alike (s.beginPass.after (s.ranLines source)) (s.run source).1 where
  context := by
    rw [context_after, context_run]
    rfl
  sink := (sink_run s source).symm

theorem alike_call (s : Session α) (call : Call) :
    Alike (s.beginPass.after (s.linesOf call)) (s.call call).1 := by
  cases call with
  | run source => exact alike_run s source
  | script opened =>
      cases opened with
      | error reason => exact ⟨rfl, rfl⟩
      | ok source =>
          -- The note about the script is all that the pass finds in addition.
          have hnote : Alike s.beginPass (s.note (.loaded s.settings.script)).beginPass :=
            ⟨rfl, rfl⟩
          exact (hnote.after _).trans (alike_run _ source)

theorem leads_call (s : Session α) (call : Call) :
    Leads s (Visit.executions ⟨s, call⟩) (s.call call).1 := by
  have hbegin : Alike s s.beginPass := ⟨rfl, rfl⟩
  exact ((leads_executions s.beginPass (s.linesOf call)).of_alike hbegin).alike (alike_call s call)

end Session

/-! ## Actions -/

/-- A line executed by itself, or a call for a pass. -/
inductive Action where
  | line (line : List Char)
  | call (call : Call)

namespace Session

def act (s : Session α) : Action → Session α
  | .line line => (s.execute line).1
  | .call call => (s.call call).1

def afterActions (s : Session α) (actions : List Action) : Session α :=
  actions.foldl act s

def executionsOf (s : Session α) : Action → List (Execution α)
  | .line line => [⟨s, line⟩]
  | .call call => Visit.executions ⟨s, call⟩

/-- All that the actions execute, in order. -/
def history (s : Session α) : List Action → List (Execution α)
  | [] => []
  | action :: actions => s.executionsOf action ++ (s.act action).history actions

theorem leads_history (s : Session α) (actions : List Action) :
    Leads s (s.history actions) (s.afterActions actions) := by
  induction actions generalizing s with
  | nil => exact .nil (.refl s)
  | cons action actions ih =>
      refine Leads.append ?_ (ih (s.act action))
      cases action with
      | line line => exact .cons (.refl s) (.nil (.refl _))
      | call call => exact leads_call s call

theorem leads_calls (s : Session α) (calls : List Call) :
    Leads s ((s.visits calls).flatMap Visit.executions) (s.afterCalls calls) := by
  induction calls generalizing s with
  | nil => exact .nil (.refl s)
  | cons call calls ih =>
      rw [visits, List.flatMap_cons]
      exact (leads_call s call).append (ih (s.call call).1)

end Session
end PenScript
