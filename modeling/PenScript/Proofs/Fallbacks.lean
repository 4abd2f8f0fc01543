import PenScript.Proofs.Boundaries
import PenScript.Proofs.Recognition
import PenScript.Proofs.Steps

/-!
# Fixed sides and choices

A square may name a list to pick its side from, and give a fixed side for want of a pick. The fixed
side is read up to the bracket behind it. It can therefore stand in for a pick only where the choice
comes after that bracket, and not where it comes before.
-/

set_option autoImplicit false

namespace PenScript

/-! ## Numbers in full -/

/-- The text is nothing but the number, after any blanks. -/
def Literal.Fills (literal : Literal) (n : List Char) : Prop :=
  ∃ r, (Reader.start n 0).number none = (.ok literal, r) ∧ r.rest = []

namespace Literal.Fills

variable {literal : Literal} {n : List Char} (h : literal.Fills n)

include h

theorem takeNumber? :
    Literal.takeNumber? ((Utf8.encode n).dropWhile Blank.isBlankByte) = some (literal, []) := by
  obtain ⟨r, hnumber, hall⟩ := h
  simp only [Reader.number] at hnumber
  split at hnumber
  · rename_i found rest htake
    cases hnumber
    exact hall ▸ htake
  · cases hnumber

theorem past :
    Past (fun b => Literal.isNumberByte b || Blank.isBlankByte b) (Utf8.encode n) [] := by
  have hblanks := (Past.dropWhile Blank.isBlankByte (Utf8.encode n)).mono
    (q := fun b => Literal.isNumberByte b || Blank.isBlankByte b) fun b hb => by simp [hb]
  exact hblanks.trans ((Literal.past_of_takeNumber? h.takeNumber?).mono fun b hb => by simp [hb])

theorem not_mem {b : UInt8} (hascii : b < 0x80)
    (hb : (Literal.isNumberByte b || Blank.isBlankByte b) = false) :
    Char.ofNat b.toNat ∉ n := by
  intro hm
  have hmem : b ∈ Utf8.encode n := by
    refine List.mem_flatMap.mpr ⟨_, hm, ?_⟩
    rw [Utf8.encodeChar_ascii hascii]
    exact List.mem_singleton_self b
  exact Bool.false_ne_true (hb.symm.trans (h.past.forall_mem b hmem))

/-- No letter but the mark of an exponent stands in a number. -/
theorem letter_not_mem {c : Char} (hc : c ∈ ['l', 'p', 'r', 't']) : c ∉ n := by
  obtain rfl | rfl | rfl | rfl : c = 'l' ∨ c = 'p' ∨ c = 'r' ∨ c = 't' := by simpa using hc
  · exact h.not_mem (b := 0x6C) (by decide) (by decide)
  · exact h.not_mem (b := 0x70) (by decide) (by decide)
  · exact h.not_mem (b := 0x72) (by decide) (by decide)
  · exact h.not_mem (b := 0x74) (by decide) (by decide)

/-- In a line, the text is read in full in front of anything that does not carry the number on. -/
theorem number_between {rest : List Char} (hrest : Literal.Stops (Utf8.encode rest))
    (field : Option Nat) (before : List Char) :
    (Reader.between before (n ++ rest)).number field =
      (.ok literal, Reader.between (before ++ n) rest) := by
  have hnumber := h.takeNumber?
  have hne : ((Utf8.encode n).dropWhile Blank.isBlankByte).isEmpty = false := by
    cases hbody : (Utf8.encode n).dropWhile Blank.isBlankByte with
    | nil =>
        rw [hbody] at hnumber
        cases hnumber
    | cons b body => rfl
  have hblanks : (Utf8.encode (n ++ rest)).dropWhile Blank.isBlankByte =
      (Utf8.encode n).dropWhile Blank.isBlankByte ++ Utf8.encode rest := by
    rw [Utf8.encode_append, List.dropWhile_append, hne, if_neg Bool.false_ne_true]
  have hskip : (Reader.between before (n ++ rest)).skipBlanks.rest =
      (Utf8.encode n).dropWhile Blank.isBlankByte ++ Utf8.encode rest := hblanks
  have hleaving : (Reader.between before (n ++ rest)).skipBlanks.leaving (Utf8.encode rest) =
      Reader.between (before ++ n) rest := by
    have hle : (Utf8.encode rest).length ≤
        ((Utf8.encode (n ++ rest)).dropWhile Blank.isBlankByte).length := by
      rw [hblanks, List.length_append]
      omega
    rw [← Reader.leaving_between, Reader.skipBlanks]
    exact Reader.leaving_leaving _ (List.length_dropWhile_le ..) hle
  simp only [Reader.number, hskip, Literal.takeNumber?_append hrest hnumber, hleaving]

end Literal.Fills

/-! ## Sides -/

variable {α : Type} [Scalar α]

theorem Pattern.readFrom_literals (index : Nat) (text : List Char) (items : Pattern)
    (before after : List Char) :
    (readFrom index (text.map .literal ++ items) (Reader.between before (text ++ after)) :
        Except Mismatch (List (Field α))) =
      readFrom index items (Reader.between (before ++ text) after) := by
  induction text generalizing before with
  | nil => rw [List.map_nil, List.nil_append, List.nil_append, List.append_nil]
  | cons c text ih =>
      rw [List.map_cons, List.cons_append, List.cons_append, readFrom, Reader.char_between]
      refine (ih (before ++ [c])).trans ?_
      rw [List.append_assoc, List.singleton_append]

namespace Command

def sideOpening : List Char := "draw.square(L:".toList

theorem sidePattern_eq : sidePattern = sideOpening.map .literal ++ [.number, .literal ')'] := by
  decide

section

variable {literal : Literal} {n : List Char} (h : literal.Fills n)

include h

theorem read_sidePattern {rest : List Char} (hrest : Literal.Stops (Utf8.encode rest)) :
    (sidePattern.read (sideOpening ++ (n ++ rest)) 0 : Except Mismatch (List (Field α))) =
      match (Reader.between (sideOpening ++ n) rest).char ')' with
      | (.ok _, _) => .ok [.number (Scalar.ofLiteral literal)]
      | (.error e, _) => .error e := by
  have hstart := Reader.start_between [] (sideOpening ++ (n ++ rest))
  rw [List.nil_append, Utf8.size_nil] at hstart
  rw [Pattern.read, hstart, sidePattern_eq, Pattern.readFrom_literals, List.nil_append,
    Pattern.readFrom, h.number_between hrest]
  simp only [Pattern.readFrom]
  cases (Reader.between (sideOpening ++ n) rest).char ')' with
  | mk result next => cases result <;> rfl

theorem sideArgument_of_bracket (rest : List Char) :
    (sideArgument (sideOpening ++ (n ++ ')' :: rest)) 0 : Except Mismatch α) =
      .ok (Scalar.ofLiteral literal) := by
  have hstops : Literal.Stops (Utf8.encode (')' :: rest)) := by
    intro b hb
    cases hb
    decide
  rw [sideArgument, read_sidePattern h hstops, Reader.char_between]
  rfl

/-- A blank behind the number is not passed over, and is taken for a missing bracket. -/
theorem sideArgument_of_space (rest : List Char) :
    (sideArgument (sideOpening ++ (n ++ ' ' :: rest)) 0 : Except Mismatch α) =
      .error ⟨15 + Utf8.size n, none, .char ')'⟩ := by
  have hstops : Literal.Stops (Utf8.encode (' ' :: rest)) := by
    intro b hb
    cases hb
    decide
  have hsize : Utf8.size (sideOpening ++ n) + 1 = 15 + Utf8.size n := by
    have hopening : Utf8.size sideOpening = 14 := by decide
    rw [Utf8.size_append, hopening]
    omega
  rw [sideArgument, read_sidePattern h hstops, Reader.char_between_of_ne _ (by decide), hsize]
  rfl

end

/-! ## Choices -/

/-- The name behind the first text that asks for a choice is what stands between its quotes. -/
theorem choiceArgument_of_find? {before name : List Char} (hname : '"' ∉ name) (close : List Char) :
    let line := before ++ (choiceOpening ++ '"' :: (name ++ '"' :: close))
    Span.find? choiceOpening line = some (Utf8.size before) →
      choiceArgument line = .ok (some (String.ofList name)) := by
  intro line hplace
  have hline : line = (before ++ choiceOpening) ++ '"' :: (name ++ '"' :: close) := by
    simp [line]
  have hstart : Reader.start line (Utf8.size before + Utf8.size choiceOpening) =
      Reader.between (before ++ choiceOpening) ('"' :: (name ++ '"' :: close)) := by
    rw [← Utf8.size_append, hline]
    exact Reader.start_between _ _
  rw [choiceArgument, hplace]
  simp only [hstart, Reader.skipBlanks_between_quote, Reader.char_between,
    Reader.untilQuote_between hname]

theorem find?_choiceOpening (after : List Char) :
    Span.find? choiceOpening (choiceOpening ++ after) = some 0 :=
  Span.find?_append List.not_mem_nil "andom.choice(".toList after

/-- A square with a fixed side, a gap, and then the choice from a list. -/
def squareLine (n gap name close : List Char) : List Char :=
  sideOpening ++ (n ++ (gap ++ (choiceOpening ++ '"' :: (name ++ '"' :: close))))

theorem choiceArgument_squareLine {n gap name : List Char} (hn : 'r' ∉ n) (hgap : 'r' ∉ gap)
    (hname : '"' ∉ name) (close : List Char) :
    choiceArgument (squareLine n gap name close) = .ok (some (String.ofList name)) := by
  have hapart : ∀ suffix ∈ sideOpening.tails, suffix ≠ [] →
      ¬ choiceOpening <+: suffix ∧ ¬ suffix <+: choiceOpening := by
    decide
  have hfree : 'r' ∉ n ++ gap := by simp [hn, hgap]
  have hline : squareLine n gap name close =
      (sideOpening ++ (n ++ gap)) ++ (choiceOpening ++ '"' :: (name ++ '"' :: close)) := by
    simp [squareLine]
  have hfind : Span.find? choiceOpening
      ((n ++ gap) ++ (choiceOpening ++ '"' :: (name ++ '"' :: close))) =
        some (Utf8.size (n ++ gap)) :=
    Span.find?_append hfree "andom.choice(".toList _
  rw [hline]
  refine choiceArgument_of_find? hname close ?_
  rw [List.append_assoc, Span.find?_append_of_apart hapart, hfind, Option.map_some,
    ← Utf8.size_append]

end Command

/-! ## Telling squares apart -/

/-- A needle with the character at its end, if at all, does not reach over it. -/
theorem Span.infix_append_cons_cases {needle first later : List Char} {c : Char}
    (hc : c ∉ needle.dropLast) (h : needle <:+: first ++ c :: later) :
    needle <:+: first ++ [c] ∨ needle <:+: later := by
  obtain ⟨left, right, h⟩ := h
  have hline : left ++ needle ++ right = (first ++ [c]) ++ later := by simpa using h
  obtain ⟨rest, hfirst, -⟩ | ⟨rest, hneedle, rfl⟩ := List.append_eq_append_iff.mp hline
  · exact Or.inl ⟨left, rest, hfirst.symm⟩
  · obtain ⟨inner, hfirst, rfl⟩ | ⟨inner, -, rfl⟩ := List.append_eq_append_iff.mp hneedle
    · -- The needle starts in front of the character's end: it ends there or starts behind it.
      rcases rest.eq_nil_or_concat with rfl | ⟨rest, last, rfl⟩
      · exact Or.inl ⟨left, [], by simpa using hfirst.symm⟩
      · rcases inner.eq_nil_or_concat with rfl | ⟨inner, d, rfl⟩
        · exact Or.inr ⟨[], right, by simp⟩
        · rw [List.concat_eq_append, ← List.append_assoc] at hfirst
          cases List.append_inj_right' hfirst rfl
          have hdrop : (inner.concat c ++ rest.concat last).dropLast = inner ++ c :: rest := by
            rw [List.concat_eq_append, List.concat_eq_append, ← List.append_assoc,
              List.dropLast_concat, List.append_assoc, List.singleton_append]
          rw [hdrop] at hc
          simp at hc
    · exact Or.inr ⟨inner, right, by simp⟩

namespace Dialect

/-- The fixed texts that are looked for before that of a square. -/
def beforeSquare : List (Keyword × String) :=
  needles.takeWhile fun entry => entry.1 ≠ .drawSquare

theorem needles_eq_beforeSquare :
    needles =
      beforeSquare ++ (.drawSquare, "draw.square") :: [(.drawCurve, "draw.line.curve")] := by
  decide

/-- Letters of which every earlier fixed text has one, and a square's line none but in the name. -/
def markLetters : List Char := ['t', 'l', 'p']

theorem mem_markLetters {c : Char} : c ∈ markLetters ↔ c = 't' ∨ c = 'l' ∨ c = 'p' := by
  simp [markLetters]

theorem beforeSquare_marked {entry : Keyword × String} (h : entry ∈ beforeSquare) :
    (∃ c ∈ markLetters, c ∈ entry.2.toList) ∧ '"' ∉ entry.2.toList.dropLast := by
  have hall : ∀ entry ∈ beforeSquare,
      markLetters.any (· ∈ entry.2.toList) ∧ '"' ∉ entry.2.toList.dropLast := by
    decide
  simpa using hall entry h

variable {literal : Literal} {n gap name close : List Char}

theorem not_infix_squareLine {entry : Keyword × String} (hentry : entry ∈ beforeSquare)
    (hletters : ∀ c ∈ markLetters, c ∉ n ∧ c ∉ gap ∧ c ∉ close)
    (hname : ¬ entry.2.toList <:+: name ++ ['"']) :
    ¬ entry.2.toList <:+: Command.squareLine n gap name close := by
  obtain ⟨⟨c, hc, hmem⟩, hquote⟩ := beforeSquare_marked hentry
  obtain ⟨hn, hgap, hclose⟩ := hletters c hc
  have hopening : c ∉ Command.sideOpening ∧ c ∉ Command.choiceOpening ∧ c ≠ '"' := by
    rcases mem_markLetters.mp hc with rfl | rfl | rfl <;> decide
  let before := Command.sideOpening ++ (n ++ (gap ++ Command.choiceOpening))
  have hline : Command.squareLine n gap name close = before ++ '"' :: (name ++ '"' :: close) := by
    simp [Command.squareLine, before]
  rw [hline]
  intro h
  rcases Span.infix_append_cons_cases hquote h with h | h
  · have hin := h.subset hmem
    simp [before, hopening, hn, hgap] at hin
  · rcases Span.infix_append_cons_cases hquote h with h | h
    · exact hname h
    · exact hclose (h.subset hmem)

/-- The legacy dialect finds the fixed text of another command in the name of the list. -/
def Diverts (dialect : Dialect) (name : List Char) : Prop :=
  dialect = .legacy ∧ ∃ entry ∈ beforeSquare, entry.2.toList <:+: name ++ ['"']

theorem recognize_squareLine {dialect : Dialect}
    (hletters : ∀ c ∈ markLetters, c ∉ n ∧ c ∉ gap ∧ c ∉ close) (hname : ¬ dialect.Diverts name) :
    let line := Command.squareLine n gap name close
    dialect.skips line = false ∧ dialect.recognize line = some (.drawSquare, 0) := by
  intro line
  let rest := "(L:".toList ++
    (n ++ (gap ++ (Command.choiceOpening ++ '"' :: (name ++ '"' :: close))))
  have hline : line = [] ++ (Keyword.drawSquare.text.toList ++ rest) := rfl
  have hblanks : ∀ c ∈ ([] : List Char), Blank.isBlank c := List.forall_mem_nil _
  cases dialect with
  | strict =>
      have hends : ∀ c ∈ rest.head?, endsWord c := by
        intro c hc
        cases hc
        decide
      rw [hline]
      exact ⟨skips_keyword .strict hblanks .drawSquare rest,
        findLeading_append hblanks .drawSquare hends⟩
  | legacy =>
      have hbefore : ∀ entry ∈ beforeSquare, ¬ entry.2.toList <:+: line := fun entry hentry =>
        not_infix_squareLine hentry hletters fun hin => hname ⟨rfl, entry, hentry, hin⟩
      exact recognize_command needles_eq_beforeSquare hblanks (fun _ => rfl) hbefore .legacy

/-- A line with such a name is taken for another command, whatever stands before the name. -/
theorem recognize_of_diverts {dialect : Dialect} (h : dialect.Diverts name)
    (n gap close : List Char) :
    ∃ keyword offset, keyword ≠ .drawSquare ∧
      dialect.recognize (Command.squareLine n gap name close) = some (keyword, offset) := by
  obtain ⟨rfl, entry, hentry, hin⟩ := h
  have hline : name ++ ['"'] <:+: Command.squareLine n gap name close :=
    ⟨Command.sideOpening ++ (n ++ (gap ++ (Command.choiceOpening ++ ['"']))), close, by
      simp [Command.squareLine]⟩
  have hmem : entry ∈ needles := by
    rw [needles_eq_beforeSquare]
    exact List.mem_append_left _ hentry
  obtain ⟨place, hplace⟩ := Option.isSome_iff_exists.mp
    ((Span.isSome_find?_iff (needle_ne_nil hmem) _).mpr (hin.trans hline))
  let found := fun entry : Keyword × String =>
    (Span.find? entry.2.toList (Command.squareLine n gap name close)).map fun offset =>
      (entry.1, offset)
  have hsome : (beforeSquare.findSome? found).isSome := by
    rw [List.findSome?_isSome_iff]
    exact ⟨entry, hentry, by simp [found, hplace]⟩
  obtain ⟨⟨keyword, offset⟩, hfirst⟩ := Option.isSome_iff_exists.mp hsome
  obtain ⟨⟨first, needle⟩, hm, heq⟩ := List.exists_of_findSome?_eq_some hfirst
  obtain ⟨_, -, hkeyword⟩ := Option.map_eq_some_iff.mp heq
  cases hkeyword
  have hall : ∀ entry ∈ beforeSquare, entry.1 ≠ .drawSquare := by decide
  refine ⟨first, offset, hall _ hm, ?_⟩
  rw [recognize, findAnywhere, needles_eq_beforeSquare, List.findSome?_append, hfirst]
  rfl

end Dialect

/-! ## Squares with a choice -/

namespace Command

/-- The form with the choice inside the brackets of the square, behind the side. -/
def squareAround (n name : List Char) : List Char :=
  squareLine n [' '] name "))".toList

/-- The form with the choice behind the square. -/
def squareBefore (n name : List Char) : List Char :=
  squareLine n ") ".toList name ")".toList

end Command

theorem Dialect.reading_squareLine {dialect : Dialect} {literal : Literal}
    {n gap name close : List Char} (h : literal.Fills n) (hname : '"' ∉ name)
    (hletters : ∀ c ∈ ['l', 'p', 'r', 't'], c ∉ gap ∧ c ∉ close)
    (hdiverts : ¬ dialect.Diverts name) :
    let line := Command.squareLine n gap name close
    (dialect.reading line : Reading α) =
      .parsed (.drawSquare (some (String.ofList name)) (Command.sideArgument line 0)) := by
  intro line
  have hmarks : ∀ c ∈ markLetters, c ∉ n ∧ c ∉ gap ∧ c ∉ close := by
    intro c hc
    have hmem : c ∈ ['l', 'p', 'r', 't'] := by
      rcases mem_markLetters.mp hc with rfl | rfl | rfl <;> decide
    exact ⟨h.letter_not_mem hmem, hletters c hmem⟩
  obtain ⟨hskips, hfound⟩ := recognize_squareLine hmarks hdiverts
  have hchoice := Command.choiceArgument_squareLine (h.letter_not_mem (by decide))
    (hletters 'r' (by decide)).1 hname close
  rw [reading_of_not_skips hskips, hfound]
  simp only [Command.ofLine, line, hchoice]
  rfl

/-- There is nothing to pick from the list, or the legacy dialect makes nothing of the pick. -/
def Context.Unpicked (c : Context α) (name : String) : Prop :=
  c.store.list? name = none ∨ c.store.list? name = some #[] ∨
    c.settings.dialect = .legacy ∧
      ∃ value, (c.generator.pickNamed? c.store name).1 = some value ∧ Scalar.isZero value

theorem Context.unpicked_iff (c : Context α) (name : String) :
    c.Unpicked name ↔ (c.pick (some name)).1 = none := by
  rw [Unpicked, pick]
  cases hlist : c.store.list? name with
  | none =>
      have hpick : (c.generator.pickNamed? c.store name).1 = none := by
        rw [Generator.pickNamed?, hlist]
      cases hdialect : c.settings.dialect <;> simp [hpick, Session.keepPick]
  | some items =>
      rcases Generator.pickNamed?_of_list? hlist c.generator with ⟨rfl, hpick⟩ | ⟨_, hpos, hpick⟩
      · cases hdialect : c.settings.dialect <;> simp [hpick, Session.keepPick]
      · have hne : items ≠ #[] := by
          rintro rfl
          exact Nat.lt_irrefl 0 hpos
        cases hdialect : c.settings.dialect <;> simp [hpick, hne, Session.keepPick]

namespace Session

/-- The session on the next line, once it has asked for a pick from the list. -/
def asked (s : Session α) (name : String) : Session α :=
  { s with line := s.line + 1, generator := (s.context.pick (some name)).2 }

section

variable {s : Session α} {line : List Char} {name : String}

theorem execute_square {side : Except Mismatch α}
    (h : s.context.reading line = .parsed (.drawSquare (some name) side)) :
    s.execute line =
      let outcome := { s with line := s.line + 1 }.perform (.drawSquare (some name) side)
      (outcome.1, outcome.2.mapError fun cause => ⟨s.line + 1, .drawSquare, cause⟩) := by
  rw [execute_eq, h]
  rfl

theorem pickSide_asked (s : Session α) (name : String) :
    ({ s with line := s.line + 1 } : Session α).pickSide (some name) =
      (s.asked name, (s.context.pick (some name)).1) :=
  pickSide_eq _ _

/-- What is picked is drawn, whether or not there is a side to fall back on. -/
theorem execute_square_of_pick {side : Except Mismatch α} {pick : α}
    (h : s.context.reading line = .parsed (.drawSquare (some name) side))
    (hpick : (s.context.pick (some name)).1 = some pick) :
    s.execute line = ((s.asked name).drawSquare pick, .ok ()) := by
  simp only [execute_square h, perform, pickSide_asked, hpick]
  rfl

theorem execute_square_of_side {side : α}
    (h : s.context.reading line = .parsed (.drawSquare (some name) (.ok side)))
    (hpick : (s.context.pick (some name)).1 = none) :
    s.execute line = ((s.asked name).drawSquare side, .ok ()) := by
  simp only [execute_square h, perform, pickSide_asked, hpick]
  rfl

theorem execute_square_of_mismatch {e : Mismatch}
    (h : s.context.reading line = .parsed (.drawSquare (some name) (.error e)))
    (hpick : (s.context.pick (some name)).1 = none) :
    s.execute line = (s.asked name, .error ⟨s.line + 1, .drawSquare, .mismatch e⟩) := by
  simp only [execute_square h, perform, pickSide_asked, hpick]
  rfl

theorem eq_some_of_keepPick {dialect : Dialect} {found : Option α} {pick : α}
    (h : keepPick dialect found = some pick) : found = some pick := by
  cases dialect with
  | strict => exact h
  | legacy => exact (Option.filter_eq_some_iff.mp h).1

end

variable {literal : Literal} {n name : List Char}

/--
A square with a side `n` and a choice from a list. Where the choice stands behind the bracket, the
side is drawn for want of a pick. Where it stands in front, the line is rejected then, for the blank
that its pattern meets in place of the bracket. With a pick both forms draw the same. Neither form
is read as a square where the legacy dialect finds another command in the name.
-/
theorem square_fallback (s : Session α) {r : Reader}
    (hnumber : (Reader.start n 0).number none = (.ok literal, r)) (hall : r.rest = [])
    (hname : '"' ∉ name) :
    let dialect := s.settings.dialect
    let list := String.ofList name
    let shape := fun side : α => Shape.rect s.store.cursor side side s.store.color
    let around := s.execute (Command.squareAround n name)
    let before := s.execute (Command.squareBefore n name)
    (¬ dialect.Diverts name → s.context.Unpicked list →
      before.2 = .ok () ∧ before.1.queue = s.queue.push (shape (Scalar.ofLiteral literal)) ∧
      around.2 = .error ⟨s.line + 1, .drawSquare, .mismatch ⟨15 + Utf8.size n, none, .char ')'⟩⟩ ∧
      around.1 = { before.1 with queue := s.queue } ∧ around.1.store = s.store ∧
      around.1.sink = s.sink) ∧
    (¬ dialect.Diverts name → ¬ s.context.Unpicked list →
      ∃ pick, (s.generator.pickNamed? s.store list).1 = some pick ∧ around = before ∧
        before.2 = .ok () ∧ before.1.queue = s.queue.push (shape pick)) ∧
    (dialect.Diverts name →
      ∀ line ∈ [Command.squareAround n name, Command.squareBefore n name],
        ∃ keyword offset, keyword ≠ .drawSquare ∧
          dialect.recognize line = some (keyword, offset)) := by
  have hfills : literal.Fills n := ⟨r, hnumber, hall⟩
  intro dialect list shape around before
  have haround (h : ¬ dialect.Diverts name) : s.context.reading (Command.squareAround n name) =
      .parsed (.drawSquare (some list) (.error ⟨15 + Utf8.size n, none, .char ')'⟩)) := by
    rw [← Command.sideArgument_of_space hfills]
    exact Dialect.reading_squareLine hfills hname (by simp) h
  have hbefore (h : ¬ dialect.Diverts name) : s.context.reading (Command.squareBefore n name) =
      .parsed (.drawSquare (some list) (.ok (Scalar.ofLiteral literal))) := by
    rw [← Command.sideArgument_of_bracket hfills]
    exact Dialect.reading_squareLine hfills hname (by simp) h
  rw [Context.unpicked_iff]
  refine ⟨?_, ?_, ?_⟩
  · intro hdiverts hnone
    have haround := execute_square_of_mismatch (haround hdiverts) hnone
    have hbefore := execute_square_of_side (hbefore hdiverts) hnone
    simp only [around, before, haround, hbefore]
    exact ⟨trivial, rfl, trivial, rfl, rfl, rfl⟩
  · intro hdiverts hsome
    obtain ⟨pick, hpick⟩ := Option.ne_none_iff_exists'.mp hsome
    have haround := execute_square_of_pick (haround hdiverts) hpick
    have hbefore := execute_square_of_pick (hbefore hdiverts) hpick
    exact ⟨pick, eq_some_of_keepPick hpick, haround.trans hbefore.symm, congrArg Prod.snd hbefore,
      congrArg (fun outcome => outcome.1.queue) hbefore⟩
  · intro hdiverts line hline
    rcases List.mem_pair.mp hline with rfl | rfl
    · exact Dialect.recognize_of_diverts hdiverts n [' '] "))".toList
    · exact Dialect.recognize_of_diverts hdiverts n ") ".toList ")".toList

theorem square_fallback_picked_zero :
    let s : Session Rat :=
      (start { Settings.standard with dialect := .legacy } (.replicate 8 0) none).after
        ["create.list[0]".toList, "list.name(\"z\")".toList]
    let n := " +2.5e1".toList
    let name := "z".toList
    (Reader.start n 0).number none = (.ok (.decimal false 25 0), ⟨7, []⟩) ∧ '"' ∉ name ∧
      ¬ s.settings.dialect.Diverts name ∧ s.context.Unpicked "z" ∧
      (s.execute (Command.squareBefore n name)).2 = .ok () ∧
      (s.execute (Command.squareBefore n name)).1.queue = #[.rect ⟨0, 550⟩ 25 25 .white] ∧
      (s.execute (Command.squareAround n name)).2 =
        .error ⟨3, .drawSquare, .mismatch ⟨22, none, .char ')'⟩⟩ := by
  intro s n name
  have hnumber : (Reader.start n 0).number none = (.ok (.decimal false 25 0), ⟨7, []⟩) := by
    decide +kernel
  have hname : '"' ∉ name := by decide
  have hdiverts : ¬ s.settings.dialect.Diverts name := by
    have hall : ∀ entry ∈ Dialect.beforeSquare, ¬ entry.2.toList <:+: name ++ ['"'] := by
      decide +kernel
    rintro ⟨-, entry, hentry, hin⟩
    exact hall entry hentry hin
  have hzero : (s.generator.pickNamed? s.store "z").1 = some 0 := by decide +kernel
  have hunpicked : s.context.Unpicked "z" := Or.inr (Or.inr ⟨by decide +kernel, 0, hzero, rfl⟩)
  obtain ⟨hforms, -, -⟩ := square_fallback s hnumber rfl hname
  obtain ⟨hbefore, hqueue, haround, -⟩ := hforms hdiverts hunpicked
  refine ⟨hnumber, hname, hdiverts, hunpicked, hbefore, ?_, haround⟩
  rw [hqueue]
  decide +kernel

/-- A list that is not there leaves no side to a square that names it inside its brackets. -/
theorem square_around_unbound :
    let s : Session Rat := start Settings.standard (.replicate 8 0) none
    let n := "25".toList
    let name := "sizes".toList
    (Reader.start n 0).number none = (.ok (.decimal false 25 0), ⟨2, []⟩) ∧ '"' ∉ name ∧
      s.store.list? "sizes" = none ∧
      Command.squareAround n name = "draw.square(L:25 random.choice(\"sizes\"))".toList ∧
      (s.execute (Command.squareAround n name)).2 ≠ .ok () ∧
      (s.execute (Command.squareAround n name)).1.queue = #[] ∧
      Command.squareBefore n name = "draw.square(L:25) random.choice(\"sizes\")".toList ∧
      (s.execute (Command.squareBefore n name)).2 = .ok () ∧
      (s.execute (Command.squareBefore n name)).1.queue = #[.rect ⟨0, 550⟩ 25 25 .white] := by
  decide +kernel

end Session
end PenScript
