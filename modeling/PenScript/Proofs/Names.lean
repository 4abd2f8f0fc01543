import PenScript.Proofs.Delimiters
import PenScript.Proofs.Fallbacks
import PenScript.Proofs.Stores

/-!
# Names of lists

A list is named by everything between the outer quotes of a line, and picked from by what stands up
to the next quote. The two agree on a name without a quote, whatever else it holds. A name with one
is bound in full and picked from under its beginning.
-/

set_option autoImplicit false

namespace PenScript

/-! ## Lines with a name -/

namespace Command

def nameOpening : List Char := "list.name(".toList

/-- The line that gives the scratch list a name. -/
def bindLine (name : List Char) : List Char :=
  nameOpening ++ '"' :: (name ++ ['"', ')'])

theorem nameOpening_eq : nameOpening = Keyword.listName.text.toList ++ ['('] := by
  decide

def pickOpening : List Char := "draw.square(".toList

theorem pickOpening_eq : pickOpening = Keyword.drawSquare.text.toList ++ ['('] := by
  decide

/-- The line that draws a square of a side from the list. -/
def pickLine (name : List Char) : List Char :=
  pickOpening ++ (choiceOpening ++ '"' :: (name ++ ['"', ')', ')']))

theorem quoted?_bindLine (name : List Char) : quoted? (bindLine name) = some name := by
  have hopening : '"' ∉ nameOpening := by decide
  have hclosing : '"' ∉ [')'] := by decide
  exact (Quotes.between hopening hclosing).quoted?_eq

/-- The choice names what stands in front of the first quote. -/
theorem choiceArgument_pickOpening {name : List Char} (hname : '"' ∉ name) (close : List Char) :
    choiceArgument (pickOpening ++ (choiceOpening ++ '"' :: (name ++ '"' :: close))) =
      .ok (some (String.ofList name)) := by
  have hapart : ∀ suffix ∈ pickOpening.tails, suffix ≠ [] →
      ¬ choiceOpening <+: suffix ∧ ¬ suffix <+: choiceOpening := by
    decide
  refine choiceArgument_of_find? hname close ?_
  rw [Span.find?_append_of_apart hapart, find?_choiceOpening]
  rfl

variable {α : Type} [Scalar α]

/-- There is no fixed side where the choice begins. -/
theorem sideArgument_pickOpening (after : List Char) :
    (sideArgument (pickOpening ++ (choiceOpening ++ after)) 0 : Except Mismatch α) =
      .error ⟨13, none, .char 'L'⟩ := by
  have hpattern : sidePattern =
      pickOpening.map .literal ++ [.literal 'L', .literal ':', .number, .literal ')'] := by
    decide
  have hstart := Reader.start_between [] (pickOpening ++ (choiceOpening ++ after))
  rw [List.nil_append, Utf8.size_nil] at hstart
  have hletter : choiceOpening ++ after = 'r' :: ("andom.choice(".toList ++ after) := rfl
  rw [sideArgument, Pattern.read, hstart, hpattern, Pattern.readFrom_literals, List.nil_append,
    Pattern.readFrom, hletter, Reader.char_between_of_ne _ (by decide)]
  rfl

end Command

/-! ## What is read -/

variable {α : Type} [Scalar α]

namespace Dialect

theorem strict_reading_keyword {keyword : Keyword} {line rest : List Char} {command : Command α}
    (hline : line = keyword.text.toList ++ rest) (hrest : ∀ c ∈ rest.head?, endsWord c)
    (h : Command.ofLine keyword line 0 = .ok command) : strict.reading line = .parsed command := by
  subst hline
  have hblanks : ∀ c ∈ ([] : List Char), Blank.isBlank c := List.forall_mem_nil _
  have hskips : strict.skips (keyword.text.toList ++ rest) = false :=
    skips_keyword .strict hblanks keyword rest
  have hfound : strict.recognize (keyword.text.toList ++ rest) = some (keyword, 0) :=
    findLeading_append hblanks keyword hrest
  simp only [reading_of_not_skips hskips, hfound, h]

theorem strict_reading_bindLine (name : List Char) :
    (strict.reading (Command.bindLine name) : Reading α) =
      .parsed (.listName (String.ofList name)) := by
  let rest := '(' :: '"' :: (name ++ ['"', ')'])
  have hline : Command.bindLine name = Keyword.listName.text.toList ++ rest := by
    rw [Command.bindLine, Command.nameOpening_eq, List.append_assoc, List.singleton_append]
  refine strict_reading_keyword hline (by simp [rest, endsWord]) ?_
  rw [Command.ofLine, Command.quotedArgument, Command.quoted?_bindLine]
  rfl

/-- Up to the next quote, the name of the list to pick from. -/
theorem strict_reading_pickOpening {name : List Char} (hname : '"' ∉ name) (close : List Char) :
    (strict.reading (Command.pickOpening ++
        (Command.choiceOpening ++ '"' :: (name ++ '"' :: close))) : Reading α) =
      .parsed (.drawSquare (some (String.ofList name)) (.error ⟨13, none, .char 'L'⟩)) := by
  let rest := '(' :: (Command.choiceOpening ++ '"' :: (name ++ '"' :: close))
  have hline : Command.pickOpening ++ (Command.choiceOpening ++ '"' :: (name ++ '"' :: close)) =
      Keyword.drawSquare.text.toList ++ rest := by
    rw [Command.pickOpening_eq, List.append_assoc, List.singleton_append]
  refine strict_reading_keyword hline (by simp [rest, endsWord]) ?_
  rw [Command.ofLine, Command.choiceArgument_pickOpening hname, Command.sideArgument_pickOpening]
  rfl

end Dialect

/-! ## Binding and picking -/

namespace Session

theorem execute_bindLine {s : Session α} (hstrict : s.settings.dialect = .strict)
    (name : List Char) :
    s.execute (Command.bindLine name) =
      ({ s with line := s.line + 1, store := s.store.nameList (String.ofList name) }, .ok ()) := by
  have hreading : s.context.reading (Command.bindLine name) =
      .parsed (.listName (String.ofList name)) := by
    rw [Context.reading, context_settings, hstrict]
    exact Dialect.strict_reading_bindLine name
  rw [execute_eq, hreading]
  rfl

/-- A pick from a list that is bound is one of its items, or the list is empty. -/
theorem pick_of_list? {s : Session α} {name : String} {items : Array α}
    (hstrict : s.settings.dialect = .strict) (h : s.store.list? name = some items) :
    (items = #[] ∧ s.context.pick (some name) = (none, s.generator)) ∨
      ∃ side ∈ items, (s.context.pick (some name)).1 = some side := by
  rcases Generator.pickNamed?_of_list? h s.generator with ⟨hempty, hpick⟩ | ⟨hlt, -, hpick⟩
  · refine .inl ⟨hempty, ?_⟩
    simp [Context.pick, hpick, hstrict, keepPick]
  · refine .inr ⟨_, Array.getElem_mem hlt, ?_⟩
    simp [Context.pick, hpick, hstrict, keepPick]

/--
In the strict dialect, a list is picked from under the name that it was given, whatever the name
holds, unless it holds a quote: one of the items is drawn, or the list is found to be empty, and the
square has no side. A name with a quote is given in full, but picked from is the list whose name is
its part in front of the first quote, and that list is as it was.
-/
theorem pick_of_bound (s : Session α) (hstrict : s.settings.dialect = .strict)
    (name : List Char) :
    let list := String.ofList name
    let bound := s.execute (Command.bindLine name)
    let drawn := bound.1.execute (Command.pickLine name)
    let asks := fun list : String => bound.1.context.reading (Command.pickLine name) =
      .parsed (.drawSquare (some list) (.error ⟨13, none, .char 'L'⟩))
    bound = ({ s with line := s.line + 1, store := s.store.nameList list }, .ok ()) ∧
    bound.1.store.list? list = some s.store.scratch ∧
    ('"' ∉ name → asks list ∧
      (s.store.scratch ≠ #[] → drawn.2 = .ok () ∧ drawn.1.store = bound.1.store ∧
        ∃ side ∈ s.store.scratch,
          drawn.1.queue = s.queue.push (.rect s.store.cursor side side s.store.color)) ∧
      (s.store.scratch = #[] → drawn.1 = { bound.1 with line := s.line + 2 } ∧
        drawn.2 = .error ⟨s.line + 2, .drawSquare, .mismatch ⟨13, none, .char 'L'⟩⟩)) ∧
    ∀ first rest, name = first ++ '"' :: rest → '"' ∉ first →
      asks (String.ofList first) ∧
        bound.1.store.list? (String.ofList first) = s.store.list? (String.ofList first) := by
  intro list bound drawn asks
  have hbound : bound =
      ({ s with line := s.line + 1, store := s.store.nameList list }, .ok ()) :=
    execute_bindLine hstrict name
  have hlists (other : String) : bound.1.store.list? other =
      if list = other then some s.store.scratch else s.store.list? other := by
    rw [hbound]
    exact Store.list?_nameList s.store list other
  have hdialect : bound.1.settings.dialect = .strict := by rw [hbound, hstrict]
  have hlist : bound.1.store.list? list = some s.store.scratch := by rw [hlists, if_pos rfl]
  refine ⟨hbound, hlist, ?_, ?_⟩
  · intro hname
    have hasks : asks list := by
      show bound.1.settings.dialect.reading _ = _
      rw [hdialect]
      exact Dialect.strict_reading_pickOpening hname [')', ')']
    refine ⟨hasks, ?_⟩
    rcases pick_of_list? hdialect hlist with ⟨hempty, hpick⟩ | ⟨side, hside, hpick⟩
    · refine ⟨fun hne => absurd hempty hne, fun _ => ?_⟩
      have hdrawn : drawn = _ := execute_square_of_mismatch hasks (congrArg Prod.fst hpick)
      rw [hdrawn, asked, hpick, hbound]
      exact ⟨rfl, rfl⟩
    · refine ⟨fun _ => ?_, ?_⟩
      · have hdrawn : drawn = _ := execute_square_of_pick hasks hpick
        rw [hdrawn, asked, hbound]
        exact ⟨rfl, rfl, side, hside, rfl⟩
      · intro hempty
        rw [hempty] at hside
        exact absurd hside (Array.not_mem_empty side)
  · rintro first rest rfl hfirst
    have hne : list ≠ String.ofList first := by
      intro h
      have hlength := congrArg List.length (String.ofList_injective h)
      simp at hlength
    refine ⟨?_, by rw [hlists, if_neg hne]⟩
    show bound.1.settings.dialect.reading _ = _
    rw [hdialect, Command.pickLine, List.append_assoc, List.cons_append]
    exact Dialect.strict_reading_pickOpening hfirst _

theorem pick_of_bound_opening :
    let s : Session Rat := (start Settings.standard (.replicate 8 0) none).after
      ["create.list[3,7]".toList]
    let name := "draw.square(random.choice(x)) ]list.name(".toList
    s.settings.dialect = .strict ∧ s.store.scratch = #[3, 7] ∧
      ((s.execute (Command.bindLine name)).1.execute (Command.pickLine name)).2 = .ok () ∧
      ∃ side ∈ s.store.scratch,
        ((s.execute (Command.bindLine name)).1.execute (Command.pickLine name)).1.queue =
          #[.rect ⟨0, 550⟩ side side .white] := by
  intro s name
  have hstrict : s.settings.dialect = .strict := by decide +kernel
  have hscratch : s.store.scratch = #[3, 7] := by decide +kernel
  have hname : '"' ∉ name := by decide
  have hne : s.store.scratch ≠ #[] := by simp [hscratch]
  have hqueue : s.queue = #[] := by decide +kernel
  have hcursor : s.store.cursor = ⟨0, 550⟩ := by decide +kernel
  have hcolor : s.store.color = .white := by decide +kernel
  obtain ⟨-, -, hagree, -⟩ := pick_of_bound s hstrict name
  obtain ⟨-, hdrawn, -⟩ := hagree hname
  obtain ⟨hok, -, side, hside, hshape⟩ := hdrawn hne
  have hpushed : s.queue.push (.rect s.store.cursor side side s.store.color) =
      #[.rect ⟨0, 550⟩ side side .white] := by
    rw [hqueue, hcursor, hcolor]
    rfl
  exact ⟨hstrict, hscratch, hok, side, hside, hshape.trans hpushed⟩

/-- A list whose name has a quote cannot be picked from under that name. -/
theorem quoted_name_not_picked :
    let s : Session Rat := (start Settings.standard (.replicate 8 0) none).after
      ["create.list[1]".toList]
    let name := "a\"b".toList
    let bound := s.execute (Command.bindLine name)
    let drawn := bound.1.execute (Command.pickLine name)
    s.settings.dialect = .strict ∧ '\n' ∉ name ∧ s.store.scratch = #[1] ∧ bound.2 = .ok () ∧
      bound.1.store.list? "a\"b" = some #[1] ∧ drawn.2 ≠ .ok () ∧ drawn.1.queue = #[] := by
  decide +kernel

end Session
end PenScript
