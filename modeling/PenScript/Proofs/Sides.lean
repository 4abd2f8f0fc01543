import PenScript.Proofs.Runs

/-!
# Sides of squares

A square that names a list with something in it draws from that list, and no other square moves the
generator. What is drawn is the side, unless the legacy dialect sees a zero in it. Then, and where
nothing is drawn, it is the fixed side, and a line whose fixed side cannot be read is rejected for
what is missing in it.
-/

set_option autoImplicit false

namespace PenScript

variable {α : Type} [Scalar α]

/-! ## Offered items -/

/-- The square names a list, the list is bound to these items, and there are some. -/
def Store.Offers (store : Store α) (choice : Option String) (items : Array α) : Prop :=
  choice.bind store.list? = some items ∧ items ≠ #[]

namespace Context

/-- An item drawn from the list that the square names, whatever the dialect makes of it. -/
def found? (c : Context α) (choice : Option String) : Option α :=
  choice.bind fun name => (c.generator.pickNamed? c.store name).1

/-- Either the square is offered nothing and nothing is drawn, or an item of its list is drawn. -/
theorem found?_cases (c : Context α) (choice : Option String) :
    ((∀ items, ¬ c.store.Offers choice items) ∧ c.found? choice = none ∧
      (c.pick choice).2 = c.generator) ∨
    ∃ items item, c.store.Offers choice items ∧ item ∈ items ∧ c.found? choice = some item ∧
      (c.pick choice).2 ≠ c.generator := by
  cases choice with
  | none => exact Or.inl ⟨fun _ hoffers => (nomatch hoffers.1), rfl, rfl⟩
  | some name =>
      cases hlist : c.store.list? name with
      | none =>
          have hpick : c.generator.pickNamed? c.store name = (none, c.generator) := by
            rw [Generator.pickNamed?, hlist]
          refine Or.inl ⟨?_, congrArg Prod.fst hpick, congrArg Prod.snd hpick⟩
          rintro items ⟨hitems, -⟩
          rw [Option.bind_some, hlist] at hitems
          cases hitems
      | some items =>
          rcases Generator.pickNamed?_of_list? hlist c.generator with
            ⟨rfl, hpick⟩ | ⟨hlt, hpos, hpick⟩
          · refine Or.inl ⟨?_, congrArg Prod.fst hpick, congrArg Prod.snd hpick⟩
            rintro items ⟨hitems, hne⟩
            rw [Option.bind_some, hlist] at hitems
            exact hne (Option.some.inj hitems).symm
          · have hne : items ≠ #[] := by
              rintro rfl
              exact Nat.lt_irrefl 0 hpos
            have hmoved : (c.pick (some name)).2 = (c.generator.below items.size).2 :=
              congrArg Prod.snd hpick
            refine Or.inr ⟨items, _, ⟨hlist, hne⟩, Array.getElem_mem hlt,
              congrArg Prod.fst hpick, ?_⟩
            intro hsame
            have hlt := Generator.drawn_lt_below items.size c.generator
            rw [← hmoved, hsame] at hlt
            exact Nat.lt_irrefl _ hlt

theorem generator_pick_ne_iff (c : Context α) (choice : Option String) :
    (c.pick choice).2 ≠ c.generator ↔ ∃ items, c.store.Offers choice items := by
  rcases c.found?_cases choice with ⟨hnothing, -, hsame⟩ | ⟨items, item, hoffers, -, -, hmoved⟩
  · exact iff_of_false (not_not_intro hsame) (not_exists.mpr hnothing)
  · exact iff_of_true hmoved ⟨items, hoffers⟩

theorem isSome_found?_iff (c : Context α) (choice : Option String) :
    (c.found? choice).isSome ↔ ∃ items, c.store.Offers choice items := by
  rcases c.found?_cases choice with ⟨hnothing, hfound, -⟩ | ⟨items, item, hoffers, -, hfound, -⟩
  · rw [hfound]
    exact iff_of_false Bool.false_ne_true (not_exists.mpr hnothing)
  · rw [hfound]
    exact iff_of_true rfl ⟨items, hoffers⟩

theorem exists_offers_of_found? {c : Context α} {choice : Option String} {item : α}
    (h : c.found? choice = some item) : ∃ items, c.store.Offers choice items ∧ item ∈ items := by
  rcases c.found?_cases choice with ⟨-, hfound, -⟩ | ⟨items, other, hoffers, hother, hfound, -⟩
  · cases hfound.symm.trans h
  · cases hfound.symm.trans h
    exact ⟨items, hoffers, hother⟩

/-! ## The side -/

/-- What is drawn counts, but for a zero in the legacy dialect. -/
theorem side_eq (c : Context α) (choice : Option String) (fixed : Except Mismatch α) :
    c.side choice fixed = match c.found? choice with
      | some item =>
          if c.settings.dialect = Dialect.legacy ∧ Scalar.isZero item then fixed else .ok item
      | none => fixed := by
  cases choice with
  | none => rfl
  | some name =>
      simp only [side, pick, found?, Option.bind_some]
      cases (c.generator.pickNamed? c.store name).1 with
      | none => cases c.settings.dialect <;> rfl
      | some item =>
          cases c.settings.dialect with
          | strict => rfl
          | legacy =>
              cases hzero : Scalar.isZero item <;>
                simp [Session.keepPick, Option.filter_some, hzero]

end Context

namespace Session

section

variable {s : Session α} {line : List Char} {choice : Option String} {fixed : Except Mismatch α}
  (h : s.context.reading line = .parsed (.drawSquare choice fixed))

include h

theorem generator_square : (s.execute line).1.generator = (s.context.pick choice).2 := by
  have hcontext := congrArg Context.generator (context_execute s line)
  rwa [Context.step, h] at hcontext

theorem square_of_side {side : α} (hside : s.context.side choice fixed = .ok side) :
    (s.execute line).2 = .ok () ∧
      (s.execute line).1.queue = s.queue.push (.rect s.store.cursor side side s.store.color) := by
  constructor
  · simp [result_execute, Context.rejection?, Context.refusal?, Context.bytes, Command.bytes, h,
      hside]
  · simp [queue_execute, Context.drawn?, Context.shape?, Except.toOption, h, hside]

theorem square_of_mismatch {m : Mismatch} (hside : s.context.side choice fixed = .error m) :
    (s.execute line).2 = .error ⟨s.line + 1, .drawSquare, .mismatch m⟩ ∧
      (s.execute line).1.queue = s.queue := by
  constructor
  · simp [result_execute, Context.rejection?, Context.refusal?, Command.keyword, h, hside]
  · simp [queue_execute, Context.drawn?, Context.shape?, Except.toOption, h, hside]

theorem square_eq_error_iff {e : CommandError} :
    (s.execute line).2 = .error e ↔ e.code = .X001 ∧
      ∃ m, s.context.side choice fixed = .error m ∧
        e = ⟨s.line + 1, .drawSquare, .mismatch m⟩ := by
  constructor
  · intro he
    cases hside : s.context.side choice fixed with
    | ok side => cases he.symm.trans (square_of_side h hside).1
    | error m =>
        cases he.symm.trans (square_of_mismatch h hside).1
        exact ⟨rfl, m, rfl, rfl⟩
  · rintro ⟨-, m, hside, rfl⟩
    exact (square_of_mismatch h hside).1

end

/--
A square moves the generator if and only if it names a list that is bound and not empty, and then
an item of that list is drawn. The side is this item, in the legacy dialect unless it is a zero, and
else the fixed side. One square of that side is appended, unless a fixed side is called for that was
not read: then, and only then, the line is rejected, with the mismatch of that side.
-/
theorem square_of_reading {s : Session α} {line : List Char} {choice : Option String}
    {fixed : Except Mismatch α}
    (h : s.context.reading line = .parsed (.drawSquare choice fixed)) :
    let t := (s.execute line).1
    let result := (s.execute line).2
    let found := s.context.found? choice
    let side := match found with
      | some item =>
          if s.settings.dialect = Dialect.legacy ∧ Scalar.isZero item then fixed else .ok item
      | none => fixed
    (t.generator ≠ s.generator ↔ ∃ items, s.store.Offers choice items) ∧
    (found.isSome ↔ ∃ items, s.store.Offers choice items) ∧
    (∀ item, found = some item → ∃ items, s.store.Offers choice items ∧ item ∈ items) ∧
    (∀ value, side = .ok value → result = .ok () ∧
      t.queue = s.queue.push (.rect s.store.cursor value value s.store.color)) ∧
    (∀ m, side = .error m → t.queue = s.queue) ∧
    (∀ e, result = .error e ↔ e.code = .X001 ∧
      ∃ m, side = .error m ∧ e = ⟨s.line + 1, .drawSquare, .mismatch m⟩) := by
  intro t result found side
  have hside : s.context.side choice fixed = side := s.context.side_eq choice fixed
  have hgenerator : t.generator = (s.context.pick choice).2 := generator_square h
  refine ⟨?_, s.context.isSome_found?_iff choice, fun _ => Context.exists_offers_of_found?, ?_, ?_,
    ?_⟩
  · rw [hgenerator]
    exact s.context.generator_pick_ne_iff choice
  · intro value hvalue
    exact square_of_side h (hside.trans hvalue)
  · intro m hm
    exact (square_of_mismatch h (hside.trans hm)).2
  · intro e
    rw [← hside]
    exact square_eq_error_iff h

theorem square_of_reading_zero :
    let s : Session Rat :=
      (start { Settings.standard with dialect := .legacy } (.replicate 8 0) none).after
        ["create.list[0]".toList, "list.name(\"z\")".toList]
    let line := "draw.square(L:7) random.choice(\"z\")".toList
    let t := (s.execute line).1
    s.context.reading line = .parsed (.drawSquare (some "z") (.ok 7)) ∧
      s.context.found? (some "z") = some 0 ∧ s.store.Offers (some "z") #[0] ∧
      t.generator ≠ s.generator ∧ (s.execute line).2 = .ok () ∧
      t.queue = #[.rect ⟨0, 550⟩ 7 7 .white] := by
  intro s line t
  have hdialect : s.context.settings.dialect = .legacy := by decide +kernel
  have hskips : Dialect.legacy.skips line = false := by decide +kernel
  have hrecognize : Dialect.legacy.recognize line = some (.drawSquare, 0) := by decide +kernel
  have hchoice : Command.choiceArgument line = .ok (some "z") := by decide +kernel
  have hfixed : (Command.sideArgument line 0 : Except Mismatch Rat) = .ok 7 := by decide +kernel
  have h : s.context.reading line = .parsed (.drawSquare (some "z") (.ok 7)) := by
    rw [Context.reading, hdialect, Dialect.reading_of_not_skips hskips, hrecognize]
    simp only [Command.ofLine, hchoice, hfixed]
    rfl
  have hfound : s.context.found? (some "z") = some 0 := by decide +kernel
  have hoffers : s.store.Offers (some "z") #[0] := ⟨by decide +kernel, by decide⟩
  have hqueue : s.queue.push (.rect s.store.cursor 7 7 s.store.color) =
      #[.rect ⟨0, 550⟩ 7 7 .white] := by
    decide +kernel
  obtain ⟨hmoved, -, -, hdrawn, -⟩ := square_of_reading h
  -- The zero that was drawn is dropped, so that the side is the fixed one.
  have hzero : s.settings.dialect = Dialect.legacy ∧ Scalar.isZero (0 : Rat) := ⟨hdialect, rfl⟩
  obtain ⟨hresult, hpushed⟩ := hdrawn 7 (by rw [hfound]; exact if_pos hzero)
  exact ⟨h, hfound, hoffers, hmoved.mpr ⟨_, hoffers⟩, hresult, hpushed.trans hqueue⟩

end Session
end PenScript
