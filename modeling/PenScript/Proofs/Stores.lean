import PenScript.Proofs.Delimiters
import PenScript.Proofs.Histories

/-!
# What a store recalls

A store is made of the last command of each kind that the session has accepted: the last color, the
last position, the last values, and for every name the values as they stood when it was last given.
Nothing else that a session executes has left a trace there.
-/

set_option autoImplicit false

namespace PenScript

/-! ## Last occurrences -/

/-- The items before the last occurrence of one of them. -/
def BeforeLast {β : Type} (x : β) (items earlier : List β) : Prop :=
  ∃ later, items = earlier ++ x :: later ∧ x ∉ later

theorem not_beforeLast_nil {β : Type} (x : β) (earlier : List β) : ¬ BeforeLast x [] earlier := by
  rintro ⟨later, h, -⟩
  simp at h

theorem beforeLast_concat_self {β : Type} (x : β) (items earlier : List β) :
    BeforeLast x (items ++ [x]) earlier ↔ earlier = items := by
  constructor
  · rintro ⟨later, h, hx⟩
    rcases later.eq_nil_or_concat with rfl | ⟨later, y, rfl⟩
    · exact (List.append_inj_left' h rfl).symm
    · rw [List.concat_eq_append, ← List.cons_append, ← List.append_assoc] at h
      cases List.append_inj_right' h rfl
      exact absurd (by simp) hx
  · rintro rfl
    exact ⟨[], rfl, List.not_mem_nil⟩

theorem beforeLast_concat_of_ne {β : Type} {x y : β} (hne : y ≠ x) (items earlier : List β) :
    BeforeLast x (items ++ [y]) earlier ↔ BeforeLast x items earlier := by
  constructor
  · rintro ⟨later, h, hx⟩
    rcases later.eq_nil_or_concat with rfl | ⟨later, z, rfl⟩
    · cases List.append_inj_right' h rfl
      exact absurd rfl hne
    · rw [List.concat_eq_append, ← List.cons_append, ← List.append_assoc] at h
      exact ⟨later, List.append_inj_left' h rfl, fun hm => hx (by simp [hm])⟩
  · rintro ⟨later, rfl, hx⟩
    exact ⟨later ++ [y], by simp, by simp [hx, hne.symm]⟩

theorem exists_beforeLast_iff {β : Type} {x : β} {items : List β} :
    (∃ earlier, BeforeLast x items earlier) ↔ x ∈ items := by
  constructor
  · rintro ⟨earlier, later, rfl, -⟩
    simp
  · intro hx
    obtain ⟨earlier, later, hitems, hlater⟩ := Span.eq_append_cons_of_mem_last hx
    exact ⟨earlier, later, hitems, hlater⟩

variable {α : Type}

/-! ## Commands -/

namespace Command

def color? : Command α → Option Rgb
  | .drawColor color => some color
  | _ => none

def position? : Command α → Option (Point α)
  | .drawPos position => some position
  | _ => none

def values? : Command α → Option (List α)
  | .createList values => some values
  | _ => none

/-- Does the command change the store where it is accepted? -/
def changesStore : Command α → Bool
  | .createObject _ | .createList _ | .listName _ | .drawColor _ | .drawPos _ => true
  | .write _ | .drawSquare .. | .drawCurve .. | .endWork => false

/-- What the last of the commands says that say anything to the question. -/
def lastOf {β : Type} (f : Command α → Option β) (commands : List (Command α)) : Option β :=
  (commands.filterMap f).getLast?

@[simp] theorem lastOf_concat {β : Type} (f : Command α → Option β) (commands : List (Command α))
    (command : Command α) :
    lastOf f (commands ++ [command]) = (f command).or (lastOf f commands) := by
  cases h : f command <;> simp [lastOf, h]

end Command

variable [Scalar α]

namespace Store

/-! ## Names -/

omit [Scalar α] in
theorem list?_nameList (store : Store α) (name other : String) :
    (store.nameList name).list? other =
      if name = other then some store.scratch else store.list? other := by
  rw [list?, nameList, Std.TreeMap.getElem?_insert]
  simp only [Std.compare_eq_iff_eq]
  rfl

theorem object?_createObject (store : Store α) (name other : String) :
    (store.createObject name).object? other =
      if name = other then some (Nat.cast 0) else store.object? other := by
  rw [object?, createObject, Std.TreeMap.getElem?_insert]
  simp only [Std.compare_eq_iff_eq]
  rfl

omit [Scalar α] in
theorem hasObject_eq (store : Store α) (name : String) :
    store.hasObject name = (store.object? name).isSome := by
  rw [hasObject, object?, Std.TreeMap.isSome_getElem?_eq_contains]

end Store

/-! ## What a command leaves of each part -/

namespace Context

variable (c : Context α)

theorem color_carryOut (command : Command α) :
    (c.carryOut command).store.color = command.color?.getD c.store.color := by
  cases command <;> rfl

theorem cursor_carryOut (command : Command α) :
    (c.carryOut command).store.cursor =
      (command.position?.map c.settings.canvas.toSurface).getD c.store.cursor := by
  cases command <;> rfl

theorem scratch_carryOut (command : Command α) :
    (c.carryOut command).store.scratch =
      (command.values?.map List.toArray).getD c.store.scratch := by
  cases command <;> rfl

theorem list?_carryOut_self (name : String) :
    (c.carryOut (.listName name)).store.list? name = some c.store.scratch := by
  rw [carryOut, Store.list?_nameList, if_pos rfl]

theorem list?_carryOut_of_ne {command : Command α} {name : String}
    (hne : command ≠ .listName name) :
    (c.carryOut command).store.list? name = c.store.list? name := by
  cases command with
  | listName other =>
      have hother : other ≠ name := fun h => hne (congrArg Command.listName h)
      rw [carryOut, Store.list?_nameList, if_neg hother]
  | _ => rfl

theorem object?_carryOut_self (name : String) :
    (c.carryOut (.createObject name)).store.object? name = some (Nat.cast 0) := by
  rw [carryOut, Store.object?_createObject, if_pos rfl]

theorem object?_carryOut_of_ne {command : Command α} {name : String}
    (hne : command ≠ .createObject name) :
    (c.carryOut command).store.object? name = c.store.object? name := by
  cases command with
  | createObject other =>
      have hother : other ≠ name := fun h => hne (congrArg Command.createObject h)
      rw [carryOut, Store.object?_createObject, if_neg hother]
  | _ => rfl

theorem store_carryOut_of_not_changesStore {command : Command α}
    (h : command.changesStore = false) : (c.carryOut command).store = c.store := by
  cases command with
  | write _ | drawSquare _ _ | drawCurve _ _ | endWork => rfl
  | _ => cases h

end Context

/-! ## Stores after commands -/

/-- The store holds what the commands say, one after the other, and what the settings say before. -/
structure Store.Recalls (settings : Settings α) (commands : List (Command α)) (store : Store α) :
    Prop where
  color : store.color = (Command.lastOf Command.color? commands).getD settings.color
  cursor : store.cursor =
    let position := (Command.lastOf Command.position? commands).getD settings.cursor
    ⟨position.x, settings.canvas.height - position.y⟩
  scratch : store.scratch.toList = (Command.lastOf Command.values? commands).getD []
  list : ∀ name items, store.list? name = some items ↔
    ∃ earlier, BeforeLast (.listName name) commands earlier ∧
      items.toList = (Command.lastOf Command.values? earlier).getD []
  object : ∀ name value, store.object? name = some value ↔
    .createObject name ∈ commands ∧ value = Nat.cast 0

namespace Store.Recalls

variable {settings : Settings α} {commands : List (Command α)} {store : Store α}

theorem initial (settings : Settings α) :
    Recalls settings []
      (.initial (settings.canvas.toSurface settings.cursor) settings.color) where
  color := rfl
  cursor := rfl
  scratch := rfl
  list := by simp [Store.initial, list?, not_beforeLast_nil]
  object := by simp [Store.initial, object?]

theorem carryOut {c : Context α} (h : Recalls c.settings commands c.store) (command : Command α) :
    Recalls c.settings (commands ++ [command]) (c.carryOut command).store where
  color := by
    rw [c.color_carryOut, Command.lastOf_concat, h.color]
    cases command.color? <;> rfl
  cursor := by
    rw [c.cursor_carryOut, Command.lastOf_concat, h.cursor]
    cases command.position? <;> rfl
  scratch := by
    rw [c.scratch_carryOut, Command.lastOf_concat]
    cases command.values? with
    | none => exact h.scratch
    | some values => rfl
  list := by
    intro name items
    by_cases hcommand : command = .listName name
    · subst hcommand
      simp [c.list?_carryOut_self, beforeLast_concat_self, ← h.scratch, Array.toList_inj, eq_comm]
    · simp only [c.list?_carryOut_of_ne hcommand, beforeLast_concat_of_ne hcommand, h.list]
  object := by
    intro name value
    by_cases hcommand : command = .createObject name
    · subst hcommand
      simp [c.object?_carryOut_self, eq_comm]
    · simp [c.object?_carryOut_of_ne hcommand, h.object, Ne.symm hcommand]

/-- A name that has no list was never given to one. -/
theorem list?_eq_none_iff (h : Recalls settings commands store) (name : String) :
    store.list? name = none ↔ .listName name ∉ commands := by
  rw [← exists_beforeLast_iff, Option.eq_none_iff_forall_ne_some]
  constructor
  · rintro hnone ⟨earlier, hearlier⟩
    let values := (Command.lastOf Command.values? earlier).getD []
    exact hnone values.toArray ((h.list name values.toArray).mpr ⟨earlier, hearlier, rfl⟩)
  · intro hno items hitems
    obtain ⟨earlier, hearlier, -⟩ := (h.list name items).mp hitems
    exact hno ⟨earlier, hearlier⟩

theorem hasObject_iff (h : Recalls settings commands store) (name : String) :
    store.hasObject name ↔ .createObject name ∈ commands := by
  simp [hasObject_eq, Option.isSome_iff_exists, h.object]

end Store.Recalls

/-! ## Accepted lines -/

namespace Execution

/-- The command of a line that was carried out. -/
def accepted? (e : Execution α) : Option (Command α) :=
  match e.session.context.reading e.line with
  | .parsed command => if e.result.isOk then some command else none
  | _ => none

theorem store_next_eq_step (e : Execution α) :
    e.next.store = (e.session.context.step e.line).store :=
  congrArg Context.store (Session.context_execute e.session e.line)

theorem settings_next (e : Execution α) : e.next.settings = e.session.settings :=
  Session.settings_execute e.session e.line

/-- A command that changes the store cannot be refused. -/
theorem accepted?_of_changesStore {e : Execution α} {command : Command α}
    (hreading : e.session.context.reading e.line = .parsed command) (h : command.changesStore) :
    e.accepted? = some command := by
  have hresult : e.result = .ok () := by
    rw [result, Session.result_execute, Context.rejection?, Context.bytes, hreading]
    cases command with
    | write _ | drawSquare _ _ | drawCurve _ _ | endWork => cases h
    | _ => simp [Context.refusal?, Command.bytes]
  simp only [accepted?, hreading, hresult]
  rfl

theorem store_next (e : Execution α) :
    e.next.store = match e.accepted? with
      | some command => (e.session.context.carryOut command).store
      | none => e.session.store := by
  rw [store_next_eq_step, Context.step]
  cases hreading : e.session.context.reading e.line with
  | parsed command =>
      cases hchanges : command.changesStore with
      | true => simp [accepted?_of_changesStore hreading hchanges]
      | false =>
          have hcarry := e.session.context.store_carryOut_of_not_changesStore hchanges
          cases hok : e.result.isOk <;> simp [accepted?, hreading, hok, hcarry]
  | _ => simp [accepted?, hreading]

theorem store_next_of_not_changesStore {e : Execution α}
    (h : ∀ command ∈ e.accepted?, command.changesStore = false) :
    e.next.store = e.session.store := by
  rw [store_next]
  split
  · rename_i command haccepted
    exact e.session.context.store_carryOut_of_not_changesStore (h command haccepted)
  · rfl

theorem recalls_next {e : Execution α} {commands : List (Command α)}
    (h : e.session.store.Recalls e.session.settings commands) :
    e.next.store.Recalls e.session.settings (commands ++ e.accepted?.toList) := by
  rw [store_next]
  cases e.accepted? with
  | some command => exact Store.Recalls.carryOut (c := e.session.context) h command
  | none => simpa using h

end Execution

namespace Session

/-! ## Histories -/

theorem Leads.recalls {s t : Session α} {executions : List (Execution α)}
    (h : Leads s executions t) {commands : List (Command α)}
    (hs : s.store.Recalls s.settings commands) :
    t.store.Recalls s.settings (commands ++ executions.filterMap Execution.accepted?) := by
  induction h generalizing commands with
  | nil hst => simpa [hst.store] using hs
  | @cons s t e rest hse _ ih =>
      rw [hse.store, hse.settings] at hs
      have hrest := ih (e.settings_next ▸ Execution.recalls_next hs)
      rw [e.settings_next, List.append_assoc] at hrest
      rw [hse.settings, List.filterMap_cons]
      cases haccepted : e.accepted? <;> simpa [haccepted] using hrest

/--
After any actions, the store holds the last that the accepted lines have said of each of its parts,
or what the settings say. Only such lines have changed it.
-/
theorem store_recalls_history (settings : Settings α) (entropy : ChaCha.Key) (limit : Option Nat)
    (actions : List Action) :
    let s := start settings entropy limit
    let accepted := (s.history actions).filterMap Execution.accepted?
    let store := (s.afterActions actions).store
    store.Recalls settings accepted ∧
      (∀ name, store.list? name = none ↔ .listName name ∉ accepted) ∧
      (∀ name, store.hasObject name ↔ .createObject name ∈ accepted) ∧
      ∀ e ∈ s.history actions, (∀ command ∈ e.accepted?, command.changesStore = false) →
        e.next.store = e.session.store := by
  intro s accepted store
  have hrecalls : store.Recalls settings accepted :=
    (leads_history s actions).recalls (Store.Recalls.initial settings)
  exact ⟨hrecalls, hrecalls.list?_eq_none_iff, hrecalls.hasObject_iff,
    fun e _ => Execution.store_next_of_not_changesStore⟩

end Session
end PenScript
