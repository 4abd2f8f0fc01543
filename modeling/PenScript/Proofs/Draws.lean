import PenScript.Proofs.Histories

/-!
# Draws

A square that names a list with something in it draws an index below the length of the list. Nothing
else moves the generator, so these lengths alone decide which indices are drawn and where the
generator ends.
-/

set_option autoImplicit false

namespace PenScript

/-! ## Draws one after the other -/

namespace Generator

/-- The indices that are drawn below some sizes, each where the one before it left the generator. -/
def indices (g : Generator) : List Nat → List Nat
  | [] => []
  | n :: sizes => (g.below n).1 :: (g.below n).2.indices sizes

def afterDraws (g : Generator) (sizes : List Nat) : Generator :=
  sizes.foldl (fun g n => (g.below n).2) g

end Generator

variable {α : Type} [Scalar α]

/-! ## Draws of a line -/

namespace Execution

/-- The draw that the line makes, whether or not it is rejected after that. -/
def draw? (e : Execution α) : Option (Draw α) :=
  match e.session.context.reading e.line with
  | .parsed (.drawSquare (some name) _) =>
      (e.session.store.list? name).bind e.session.generator.draw?
  | _ => none

theorem exists_of_draw? {e : Execution α} {d : Draw α} (h : e.draw? = some d) :
    ∃ name fixed, e.session.context.reading e.line = .parsed (.drawSquare (some name) fixed) ∧
      e.session.store.list? name = some d.items ∧ e.session.generator.draw? d.items = some d := by
  unfold draw? at h
  split at h
  · rename_i name fixed hreading
    obtain ⟨items, hitems, hdraw⟩ := Option.bind_eq_some_iff.mp h
    obtain ⟨rfl, -⟩ := Generator.of_draw? hdraw
    exact ⟨name, fixed, hreading, hitems, hdraw⟩
  · cases h

theorem generator_next (e : Execution α) :
    e.next.generator = match e.draw? with
      | some d => (e.session.generator.below d.size).2
      | none => e.session.generator := by
  have hcontext : e.next.context = e.session.context.step e.line :=
    Session.context_execute e.session e.line
  rw [← Session.context_generator, hcontext, draw?, Context.step]
  cases e.session.context.reading e.line with
  | parsed command =>
      cases command with
      | drawSquare choice fixed =>
          cases choice with
          | none => rfl
          | some name =>
              simp only [Context.carryOut, Context.pick, Session.context_generator,
                Session.context_store, Generator.pickNamed?_eq_draw?]
              cases (e.session.store.list? name).bind e.session.generator.draw? <;> rfl
      | _ => rfl
  | _ => rfl

theorem below_of_draw? {e : Execution α} {d : Draw α} (h : e.draw? = some d) :
    e.session.generator.below d.size = (d.index.val, e.next.generator) := by
  obtain ⟨name, -, -, -, hdraw⟩ := exists_of_draw? h
  rw [generator_next, h, (Generator.of_draw? hdraw).2]

/-- The item at the index is the one that is picked for the square. -/
theorem pickNamed?_of_draw? {e : Execution α} {d : Draw α} (h : e.draw? = some d) :
    ∃ name fixed, e.session.context.reading e.line = .parsed (.drawSquare (some name) fixed) ∧
      e.session.store.list? name = some d.items ∧
      e.session.generator.pickNamed? e.session.store name = (some d.item, e.next.generator) := by
  obtain ⟨name, fixed, hreading, hitems, hdraw⟩ := exists_of_draw? h
  refine ⟨name, fixed, hreading, hitems, ?_⟩
  simp only [Generator.pickNamed?_eq_draw?, hitems, Option.bind_some, hdraw, below_of_draw? h]

theorem generator_next_of_draw?_eq_none {e : Execution α} (h : e.draw? = none) :
    e.next.generator = e.session.generator := by
  rw [generator_next, h]

end Execution

/-! ## Draws of a history -/

namespace Session

/-- Along any executions, the sizes of the lists drawn from decide the indices and the generator. -/
theorem Leads.indices {s t : Session α} {executions : List (Execution α)}
    (h : Leads s executions t) :
    let draws := executions.filterMap Execution.draw?
    draws.map (fun d => d.index.val) = s.generator.indices (draws.map Draw.size) ∧
      t.generator = s.generator.afterDraws (draws.map Draw.size) := by
  intro draws
  induction h with
  | nil h => exact ⟨rfl, (congrArg Context.generator h.context).symm⟩
  | @cons s t e rest h hrest ih =>
      have hs : s.generator = e.session.generator := congrArg Context.generator h.context
      obtain ⟨hindices, hgenerator⟩ := ih
      cases hdraw : e.draw? with
      | none =>
          rw [Execution.generator_next_of_draw?_eq_none hdraw, ← hs] at hindices hgenerator
          simp only [draws, List.filterMap_cons_none hdraw]
          exact ⟨hindices, hgenerator⟩
      | some d =>
          have hbelow := Execution.below_of_draw? hdraw
          rw [← hs] at hbelow
          simp only [draws, List.filterMap_cons_some hdraw, List.map_cons, Generator.indices,
            Generator.afterDraws, List.foldl_cons, hbelow]
          exact ⟨by rw [hindices], hgenerator⟩

/--
Two sessions that begin with the same generator draw the same indices and leave the same generator
behind, whatever else they execute, if the lists that they draw from are of the same lengths, one
after the other. What is drawn is what is picked, and no line without a draw moves the generator.
-/
theorem indices_eq_of_sizes_eq (settings settings' : Settings α) (entropy entropy' : ChaCha.Key)
    (limit limit' : Option Nat) (hseed : settings.seed = settings'.seed)
    (hentropy : settings.seed = none → entropy = entropy') (actions actions' : List Action) :
    let s := start settings entropy limit
    let t := start settings' entropy' limit'
    let draws := (s.history actions).filterMap Execution.draw?
    let draws' := (t.history actions').filterMap Execution.draw?
    (draws.map Draw.size = draws'.map Draw.size →
      draws.map (fun d => d.index.val) = draws'.map (fun d => d.index.val) ∧
        (s.afterActions actions).generator = (t.afterActions actions').generator) ∧
      ∀ e ∈ s.history actions, match e.draw? with
        | some d => ∃ name fixed,
            e.session.context.reading e.line = .parsed (.drawSquare (some name) fixed) ∧
            e.session.store.list? name = some d.items ∧
            e.session.generator.pickNamed? e.session.store name = (some d.item, e.next.generator)
        | none => e.next.generator = e.session.generator := by
  intro s t draws draws'
  have hgenerator : s.generator = t.generator := by
    show generatorOf settings.seed entropy = generatorOf settings'.seed entropy'
    cases hs : settings.seed with
    | none => rw [← hseed, hs, hentropy hs]
    | some seed => rw [← hseed, hs]; rfl
  constructor
  · intro hsizes
    obtain ⟨hindices, hafter⟩ := (leads_history s actions).indices
    obtain ⟨hindices', hafter'⟩ := (leads_history t actions').indices
    refine ⟨?_, ?_⟩
    · rw [hindices, hindices', hgenerator, hsizes]
    · rw [hafter, hafter', hgenerator, hsizes]
  · intro e _
    cases hdraw : e.draw? with
    | some d => exact Execution.pickNamed?_of_draw? hdraw
    | none => exact Execution.generator_next_of_draw?_eq_none hdraw

theorem indices_eq_for_other_contents :
    let settings : Settings Float := { Settings.standard with seed := some 5 }
    let settings' : Settings Float := { settings with dialect := .legacy }
    let broken := "write(\"x\")\ndraw.square(L:random.choice(\"a\"))\n"
    let other := "create.list[7,8,9]\nlist.name(\"b\")\ndraw.square(random.choice(\"b\"))\n"
    let actions : List Action := [.line "create.list[1,2,3]".toList, .line "list.name(\"a\")".toList,
      .call (.run ⟨Utf8.encode broken.toList, some "source broke"⟩),
      .line "draw.square(L:random.choice(\"a\"))".toList]
    let actions' : List Action := [.call (.run ⟨Utf8.encode other.toList, none⟩),
      .line "draw.square(L:2 random.choice(\"c\"))".toList,
      .line "draw.square(random.choice(\"b\"))".toList]
    let s := start settings (.replicate 8 0) (some 0)
    let t := start settings' (.replicate 8 1) none
    let draws := (s.history actions).filterMap Execution.draw?
    let draws' := (t.history actions').filterMap Execution.draw?
    settings.seed = settings'.seed ∧ settings.seed ≠ none ∧
      draws.map Draw.size = [3, 3] ∧ draws'.map Draw.size = [3, 3] ∧
      draws.map (fun d => d.index.val) = draws'.map (fun d => d.index.val) ∧
      (s.afterActions actions).generator = (t.afterActions actions').generator := by
  intro settings settings' broken other actions actions' s t draws draws'
  have hsizes : draws.map Draw.size = [3, 3] := by decide +kernel
  have hsizes' : draws'.map Draw.size = [3, 3] := by decide +kernel
  obtain ⟨hequal, -⟩ := indices_eq_of_sizes_eq settings settings' (.replicate 8 0) (.replicate 8 1)
    (some 0) none rfl nofun actions actions'
  obtain ⟨hindices, hgenerator⟩ := hequal (hsizes.trans hsizes'.symm)
  exact ⟨rfl, nofun, hsizes, hsizes', hindices, hgenerator⟩

end Session
end PenScript
