import Mathlib.Data.List.Forall2
import PenScript.Proofs.Boundaries
import PenScript.Proofs.Delimiters
import PenScript.Proofs.Trims

/-!
# Lists of numbers

What a list of numbers says, told by its text alone: the items between its commas, of which the last
may be left out, each a number with white space around it. The first item that is no number is what
the list is rejected for.
-/

set_option autoImplicit false

namespace PenScript

/-! ## Items one after the other -/

section

variable {ε β γ : Type} {f : β → Except ε γ} {items : List β}

theorem mapM_eq_ok_iff {values : List γ} :
    items.mapM f = .ok values ↔
      List.Forall₂ (fun item value => f item = .ok value) items values := by
  induction items generalizing values with
  | nil =>
      rw [List.mapM_nil, List.forall₂_nil_left_iff]
      exact ⟨fun h => (Except.ok.inj h).symm, fun h => congrArg Except.ok h.symm⟩
  | cons item items ih =>
      rw [List.mapM_cons, List.forall₂_cons_left_iff]
      cases hvalue : f item with
      | error e =>
          constructor
          · intro h
            cases h
          · rintro ⟨value, others, hok, -⟩
            cases hok
      | ok value =>
          cases hrest : items.mapM f with
          | error e =>
              constructor
              · intro h
                cases h
              · rintro ⟨_, others, -, hothers, -⟩
                rw [← ih, hrest] at hothers
                cases hothers
          | ok others =>
              constructor
              · intro h
                cases h
                exact ⟨value, others, rfl, ih.mp hrest, rfl⟩
              · rintro ⟨_, others', hok, hothers, rfl⟩
                rw [← ih, hrest] at hothers
                cases hok
                cases hothers
                rfl

/-- The first item that fails is what the whole fails for. -/
theorem mapM_eq_error_iff {e : ε} :
    items.mapM f = .error e ↔ ∃ first item later, items = first ++ item :: later ∧
      (∀ x ∈ first, ∃ value, f x = .ok value) ∧ f item = .error e := by
  induction items with
  | nil =>
      constructor
      · intro h
        cases h
      · rintro ⟨first, item, later, h, -⟩
        simp at h
  | cons item items ih =>
      rw [List.mapM_cons]
      constructor
      · intro h
        cases hvalue : f item with
        | error e' =>
            rw [hvalue] at h
            cases h
            exact ⟨[], item, items, rfl, List.forall_mem_nil _, hvalue⟩
        | ok value =>
            cases hrest : items.mapM f with
            | error e' =>
                rw [hvalue, hrest] at h
                cases h
                obtain ⟨first, bad, later, rfl, hfirst, hbad⟩ := ih.mp hrest
                exact ⟨item :: first, bad, later, rfl,
                  List.forall_mem_cons.mpr ⟨⟨value, hvalue⟩, hfirst⟩, hbad⟩
            | ok values =>
                rw [hvalue, hrest] at h
                cases h
      · rintro ⟨first, bad, later, hitems, hfirst, hbad⟩
        cases first with
        | nil =>
            cases hitems
            rw [hbad]
            rfl
        | cons x first =>
            cases hitems
            obtain ⟨⟨value, hvalue⟩, hfirst⟩ := List.forall_mem_cons.mp hfirst
            rw [hvalue, ih.mpr ⟨first, bad, later, rfl, hfirst, hbad⟩]
            rfl

end

/-! ## Bytes of numbers -/

namespace Literal

/-- An ASCII byte that is neither blank nor a comma. -/
def IsPlain (b : UInt8) : Prop :=
  0x20 < b ∧ b < 0x80 ∧ b ≠ 0x2C

theorem isPlain_of_isNumberByte {b : UInt8} (h : isNumberByte b) : IsPlain b := by
  refine ⟨?_, ascii_of_isNumberByte h, ?_⟩
  · simp only [isNumberByte, isDigit, Bool.or_eq_true, Bool.and_eq_true, decide_eq_true_eq,
      beq_iff_eq] at h
    rcases h with ((((h | rfl) | rfl) | rfl) | rfl) | rfl
    · exact UInt8.lt_of_lt_of_le (by decide) h.1
    all_goals decide
  · rintro rfl
    exact absurd h (by decide)

theorem isPlain_of_lower {b : UInt8} (hlow : 0x61 ≤ lower b) (hhigh : lower b ≤ 0x7A) :
    IsPlain b := by
  unfold lower at hlow hhigh
  have hlow' : 0x41 ≤ b ∧ b ≤ 0x7A := by
    split at hlow
    · rename_i hcapital
      exact ⟨hcapital.1, UInt8.le_trans hcapital.2 (by decide)⟩
    · rename_i hcapital
      rw [if_neg hcapital] at hhigh
      exact ⟨UInt8.le_trans (by decide) hlow, hhigh⟩
  refine ⟨UInt8.lt_of_lt_of_le (by decide) hlow'.1, UInt8.lt_of_le_of_lt hlow'.2 (by decide), ?_⟩
  rintro rfl
  exact absurd hlow'.1 (by decide)

theorem isPlain_of_spells {bytes : List UInt8} {word : String} (h : spells bytes word)
    (hword : ∀ b ∈ Utf8.encode word.toList, 0x61 ≤ b ∧ b ≤ 0x7A) : ∀ b ∈ bytes, IsPlain b := by
  intro b hb
  have hlower := hword (lower b) (beq_iff_eq.mp h ▸ List.mem_map_of_mem hb)
  exact isPlain_of_lower hlower.1 hlower.2

theorem isPlain_of_special? {bytes : List UInt8} {literal : Literal}
    (h : special? bytes = some literal) : ∀ b ∈ bytes, IsPlain b := by
  have hbody : ∀ b ∈ (takeSign bytes).2, IsPlain b := by
    simp only [special?, Bool.or_eq_true] at h
    split at h
    · rename_i hspells
      rcases hspells with hspells | hspells
      · exact isPlain_of_spells hspells (by decide +kernel)
      · exact isPlain_of_spells hspells (by decide +kernel)
    · split at h
      · rename_i hspells
        exact isPlain_of_spells hspells (by decide +kernel)
      · cases h
  obtain ⟨sign, hbytes, hsign⟩ := past_takeSign bytes
  rw [hbytes]
  intro b hb
  exact (List.mem_append.mp hb).elim (fun hb => isPlain_of_isNumberByte (hsign b hb)) (hbody b)

theorem isPlain_of_ofBytes? {bytes : List UInt8} {literal : Literal}
    (h : ofBytes? bytes = some literal) : ∀ b ∈ bytes, IsPlain b := by
  unfold ofBytes? at h
  split at h
  · rename_i hnumber
    exact fun b hb => isPlain_of_isNumberByte ((past_of_takeNumber? hnumber).forall_mem b hb)
  · exact isPlain_of_special? h

variable {number : List Char} {literal : Literal}
  (h : ofBytes? (Utf8.encode number) = some literal)

include h

theorem exists_isPlain_of_mem {c : Char} (hc : c ∈ number) :
    ∃ b, IsPlain b ∧ c = Char.ofNat b.toNat := by
  have hmem : ∀ b ∈ String.utf8EncodeChar c, b ∈ Utf8.encode number :=
    fun b hb => List.mem_flatMap.mpr ⟨c, hc, hb⟩
  obtain ⟨b, hb⟩ := List.exists_mem_of_ne_nil _ (Utf8.encodeChar_ne_nil c)
  have hplain := isPlain_of_ofBytes? h b (hmem b hb)
  exact ⟨b, hplain, Utf8.eq_of_mem_encodeChar hplain.2.1 hb⟩

theorem isBlank_eq_false_of_mem {c : Char} (hc : c ∈ number) : Blank.isBlank c = false := by
  obtain ⟨b, ⟨hlow, hhigh, -⟩, rfl⟩ := exists_isPlain_of_mem h hc
  have hvalue := Utf8.toNat_ofNat_of_ascii hhigh
  exact Blank.isBlank_eq_false (hvalue.symm ▸ hlow) (hvalue.symm ▸ hhigh)

theorem comma_not_mem : ',' ∉ number := by
  intro hc
  obtain ⟨b, ⟨-, hhigh, hne⟩, hcomma⟩ := exists_isPlain_of_mem h hc
  have hvalue := Utf8.toNat_ofNat_of_ascii hhigh
  rw [← hcomma] at hvalue
  exact hne (UInt8.toNat_inj.mp hvalue.symm)

theorem number_ne_nil : number ≠ [] := by
  rintro rfl
  cases h

end Literal

/-! ## Pieces -/

namespace Split

theorem pieces_cons (separator c : Char) (text : List Char) :
    pieces separator (c :: text) =
      if c = separator then [] :: pieces separator text
      else (pieces separator text).modifyHead (c :: ·) := by
  have hstep : firstAndRest separator (c :: text) =
      if c = separator then ([], (firstAndRest separator text).1 :: (firstAndRest separator text).2)
      else (c :: (firstAndRest separator text).1, (firstAndRest separator text).2) := rfl
  rw [pieces, pieces, hstep]
  by_cases hc : c = separator
  · simp only [if_pos hc]
  · simp only [if_neg hc, List.modifyHead_cons]

theorem pieces_eq_splitOn (separator : Char) (text : List Char) :
    pieces separator text = text.splitOn separator := by
  induction text with
  | nil => rfl
  | cons c text ih => simp only [pieces_cons, ih, List.splitOn_cons_eq_if_modifyHead, beq_iff_eq]

theorem not_mem_of_mem_pieces {separator : Char} {text piece : List Char}
    (h : piece ∈ pieces separator text) : separator ∉ piece := by
  induction text generalizing piece with
  | nil =>
      cases List.mem_singleton.mp h
      exact List.not_mem_nil
  | cons c text ih =>
      rw [pieces_cons] at h
      split at h
      · rcases List.mem_cons.mp h with rfl | h
        · exact List.not_mem_nil
        · exact ih h
      · rename_i hc
        cases hpieces : pieces separator text with
        | nil => simp [hpieces] at h
        | cons first rest =>
            rw [hpieces] at h ih
            rcases List.mem_cons.mp h with rfl | h
            · simp [Ne.symm hc, ih (List.mem_cons_self ..)]
            · exact ih (List.mem_cons_of_mem _ h)

end Split

namespace Command

/-! ## Items of a list -/

/-- The items with a comma between any two. -/
def commaSeparated (items : List (List Char)) : List Char :=
  [','].intercalate items

theorem commaSeparated_concat {items : List (List Char)} (hne : items ≠ []) (last : List Char) :
    commaSeparated (items ++ [last]) = commaSeparated items ++ ',' :: last := by
  induction items with
  | nil => exact absurd rfl hne
  | cons item items ih =>
      cases items with
      | nil => simp [commaSeparated]
      | cons next items =>
          have ih := ih (List.cons_ne_nil next items)
          simp only [commaSeparated, List.cons_append, List.intercalate_cons_cons] at ih ⊢
          rw [ih]
          simp

/--
The text lists the items. A comma may follow the last of them, and an item that is empty is left out
where it would be the last.
-/
inductive Listed : List Char → List (List Char) → Prop where
  | empty : Listed [] []
  | unclosed {items : List (List Char)} {last : List Char}
      (hcomma : ∀ item ∈ items ++ [last], ',' ∉ item) (hlast : last ≠ []) :
      Listed (commaSeparated (items ++ [last])) (items ++ [last])
  | closed {items : List (List Char)} (hcomma : ∀ item ∈ items, ',' ∉ item) (hne : items ≠ []) :
      Listed (commaSeparated items ++ [',']) items

theorem pieces_commaSeparated {items : List (List Char)} (hcomma : ∀ item ∈ items, ',' ∉ item)
    (hne : items ≠ []) : Split.pieces ',' (commaSeparated items) = items := by
  rw [Split.pieces_eq_splitOn]
  exact List.splitOn_intercalate ',' hcomma hne

theorem commaSeparated_pieces (text : List Char) :
    commaSeparated (Split.pieces ',' text) = text := by
  rw [Split.pieces_eq_splitOn]
  exact List.intercalate_splitOn ','

theorem Listed.items_eq {text : List Char} {found : List (List Char)} (h : Listed text found) :
    items text = found := by
  cases h with
  | empty => rfl
  | unclosed hcomma hlast =>
      rw [items, pieces_commaSeparated hcomma (by simp)]
      simp [hlast]
  | closed hcomma hne =>
      have hclosed : commaSeparated found ++ [','] = commaSeparated (found ++ [[]]) :=
        (commaSeparated_concat hne []).symm
      have hcomma : ∀ item ∈ found ++ [[]], ',' ∉ item := by
        intro item hitem
        rcases List.mem_append.mp hitem with h | h
        · exact hcomma item h
        · cases List.mem_singleton.mp h
          exact List.not_mem_nil
      rw [items, hclosed, pieces_commaSeparated hcomma (by simp)]
      simp

theorem listed_items (text : List Char) : Listed text (items text) := by
  have hcomma : ∀ piece ∈ Split.pieces ',' text, ',' ∉ piece :=
    fun piece => Split.not_mem_of_mem_pieces
  have htext := commaSeparated_pieces text
  have hne : Split.pieces ',' text ≠ [] := by
    rw [Split.pieces_eq_splitOn]
    exact List.splitOn_ne_nil ',' text
  rw [items]
  rcases (Split.pieces ',' text).eq_nil_or_concat with hnil | ⟨init, last, hpieces⟩
  · exact absurd hnil hne
  · rw [List.concat_eq_append] at hpieces
    rw [hpieces] at hcomma htext ⊢
    by_cases hlast : last = []
    · subst hlast
      simp only [List.getLast?_concat, if_true, List.dropLast_concat]
      cases init with
      | nil =>
          cases htext
          exact .empty
      | cons item init =>
          rw [commaSeparated_concat (List.cons_ne_nil item init)] at htext
          rw [← htext]
          have hinit : ∀ x ∈ item :: init, ',' ∉ x :=
            fun x hx => hcomma x (List.mem_append_left _ hx)
          exact .closed hinit (List.cons_ne_nil item init)
    · simp only [List.getLast?_concat, Option.some.injEq, hlast, if_false]
      rw [← htext]
      exact .unclosed hcomma hlast

theorem listed_iff {text : List Char} {found : List (List Char)} :
    Listed text found ↔ items text = found := by
  constructor
  · exact Listed.items_eq
  · rintro rfl
    exact listed_items text

/-! ## Numbers with white space around them -/

variable {α : Type} [Scalar α]

/-- The item is the text of a number, with white space around it or not. -/
def Reads (item : List Char) (value : α) : Prop :=
  ∃ before number after literal, item = before ++ (number ++ after) ∧
    (∀ c ∈ before, Blank.isBlank c) ∧ (∀ c ∈ after, Blank.isBlank c) ∧
    Literal.ofBytes? (Utf8.encode number) = some literal ∧ value = Scalar.ofLiteral literal

theorem reads_iff {item : List Char} {value : α} :
    Reads item value ↔ ∃ literal, Literal.ofBytes? (Utf8.encode (Blank.trim item)) = some literal ∧
      value = Scalar.ofLiteral literal := by
  constructor
  · rintro ⟨before, number, after, literal, rfl, hbefore, hafter, hnumber, rfl⟩
    rw [Blank.trim_blanks_append hbefore, Blank.trim_append_blanks hafter,
      Blank.trim_eq_self fun c => Literal.isBlank_eq_false_of_mem hnumber]
    exact ⟨literal, hnumber, rfl⟩
  · rintro ⟨literal, hnumber, hvalue⟩
    obtain ⟨before, after, hitem, hbefore, hafter⟩ := Blank.exists_trim item
    exact ⟨before, _, after, literal, hitem, hbefore, hafter, hnumber, hvalue⟩

theorem itemValue_eq_ok_iff {item : List Char} {value : α} :
    itemValue item = .ok value ↔ Reads item value := by
  rw [reads_iff, itemValue]
  cases Literal.ofBytes? (Utf8.encode (Blank.trim item)) with
  | none => simp
  | some literal => simp [eq_comm]

theorem itemValue_eq_error_iff {item : List Char} {cause : Cause} :
    (itemValue item : Except Cause α) = .error cause ↔
      (¬ ∃ value : α, Reads item value) ∧ cause = .badNumber (String.ofList (Blank.trim item)) := by
  simp only [reads_iff, itemValue]
  cases Literal.ofBytes? (Utf8.encode (Blank.trim item)) with
  | none => simp [eq_comm]
  | some literal => simp

section

variable {item : List Char} {value : α} (h : Reads item value)

include h

theorem Reads.comma_not_mem : ',' ∉ item := by
  obtain ⟨before, number, after, literal, rfl, hbefore, hafter, hnumber, -⟩ := h
  have hblank : Blank.isBlank ',' = false := Blank.isBlank_eq_false (by decide) (by decide)
  simp only [List.mem_append, not_or]
  exact ⟨Blank.not_mem_of_blanks hbefore hblank, Literal.comma_not_mem hnumber,
    Blank.not_mem_of_blanks hafter hblank⟩

theorem Reads.ne_nil : item ≠ [] := by
  obtain ⟨before, number, after, literal, rfl, -, -, hnumber, -⟩ := h
  simp [Literal.number_ne_nil hnumber]

end

theorem forall_mem_of_reads {found : List (List Char)} {values : List α}
    (h : List.Forall₂ Reads found values) : ∀ item ∈ found, ∃ value : α, Reads item value :=
  ((List.forall₂_and_left found values).mp
    (h.imp fun _ value hvalue => ⟨⟨value, hvalue⟩, hvalue⟩)).1

/-! ## Whole lists -/

/-- The text of a list says the values in order, and no others. -/
def Says (text : List Char) (values : List α) : Prop :=
  text = [] ∧ values = [] ∨
    ∃ items, items ≠ [] ∧ (text = commaSeparated items ∨ text = commaSeparated items ++ [',']) ∧
      List.Forall₂ Reads items values

theorem mapM_itemValue_eq_ok_iff {text : List Char} {values : List α} :
    (items text).mapM itemValue = .ok values ↔ Says text values := by
  simp only [mapM_eq_ok_iff, itemValue_eq_ok_iff]
  constructor
  · intro h
    have hlisted := listed_items text
    generalize items text = found at h hlisted
    cases hlisted with
    | empty => exact .inl ⟨rfl, List.forall₂_nil_left_iff.mp h⟩
    | unclosed hcomma hlast => exact .inr ⟨_, by simp, .inl rfl, h⟩
    | closed hcomma hne => exact .inr ⟨found, hne, .inr rfl, h⟩
  · rintro (⟨rfl, rfl⟩ | ⟨found, hne, htext, h⟩)
    · exact .nil
    · have hreads := forall_mem_of_reads h
      have hcomma : ∀ item ∈ found, ',' ∉ item := fun item hitem =>
        (hreads item hitem).elim fun _ => Reads.comma_not_mem
      have hlisted : Listed text found := by
        rcases htext with rfl | rfl
        · rcases found.eq_nil_or_concat with hnil | ⟨init, last, hfound⟩
          · exact absurd hnil hne
          · rw [List.concat_eq_append] at hfound
            subst hfound
            refine .unclosed hcomma ?_
            obtain ⟨value, hvalue⟩ := hreads last (by simp)
            exact hvalue.ne_nil
        · exact .closed hcomma hne
      rwa [hlisted.items_eq]

theorem mapM_itemValue_eq_error_iff {text : List Char} {cause : Cause} :
    ((items text).mapM itemValue : Except Cause (List α)) = .error cause ↔
      ∃ first item later, Listed text (first ++ item :: later) ∧
        (∀ x ∈ first, ∃ value : α, Reads x value) ∧ (¬ ∃ value : α, Reads item value) ∧
        cause = .badNumber (String.ofList (Blank.trim item)) := by
  simp only [mapM_eq_error_iff, itemValue_eq_ok_iff, itemValue_eq_error_iff, listed_iff]

theorem listArgument_of_brackets {line text : List Char} (h : Brackets line (some text)) :
    (listArgument line : Except Cause (List α)) = (items text).mapM itemValue := by
  have hbracketed := h.bracketed?_eq
  rw [bracketed?] at hbracketed
  rw [listArgument, hbracketed]

/-- A bracket is missing, or the first closing one comes before any opening one. -/
def Unbracketed (line : List Char) : Prop :=
  '[' ∉ line ∨ ']' ∉ line ∨
    ∃ before after, line = before ++ ']' :: after ∧ '[' ∉ before ∧ ']' ∉ before

theorem unbracketed_iff {line : List Char} : Unbracketed line ↔ Brackets line none := by
  constructor
  · rintro (h | h | ⟨before, after, rfl, hopen, hclose⟩)
    · exact .unopened h
    · exact .unclosed h
    · by_cases hafter : '[' ∈ after
      · obtain ⟨between, rest, rfl, hbetween⟩ := List.eq_append_cons_of_mem hafter
        exact .reversed hopen hclose hbetween
      · exact .unopened (by simp [hopen, hafter])
  · intro h
    generalize hfound : none = found at h
    cases h with
    | unopened h => exact .inl h
    | unclosed h => exact .inr (.inl h)
    | reversed hopen hclose hbetween => exact .inr (.inr ⟨_, _, rfl, hopen, hclose⟩)
    | between hopen hclose htext => cases hfound

theorem listArgument_eq_missingBracket_iff {line : List Char} :
    (listArgument line : Except Cause (List α)) = .error .missingBracket ↔ Unbracketed line := by
  rw [unbracketed_iff]
  have hbrackets := brackets_bracketed? line
  cases hfound : bracketed? line with
  | none =>
      rw [hfound] at hbrackets
      rw [bracketed?] at hfound
      simp [listArgument, hfound, hbrackets]
  | some text =>
      rw [hfound] at hbrackets
      rw [listArgument_of_brackets hbrackets]
      constructor
      · intro h
        obtain ⟨_, item, _, _, _, _, hcause⟩ := mapM_itemValue_eq_error_iff.mp h
        cases hcause
      · intro h
        rw [h.bracketed?_eq] at hfound
        cases hfound

/--
The text alone decides a list: whether it is bracketed at all, and then which values it says or
which item of it is the first that is no number.
-/
theorem ofLine_createList_iff (line : List Char) (offset : Nat) :
    ((ofLine .createList line offset : Except Cause (Command α)) = .error .missingBracket ↔
      Unbracketed line) ∧
    (Unbracketed line ∨
      ∃ before text after, line = before ++ '[' :: (text ++ ']' :: after) ∧ '[' ∉ before ∧
        ']' ∉ before ∧ ']' ∉ text ∧
        (∀ command : Command α, ofLine .createList line offset = .ok command ↔
          ∃ values, command = .createList values ∧ Says text values) ∧
        ∀ cause, (ofLine .createList line offset : Except Cause (Command α)) = .error cause ↔
          ∃ first item later, Listed text (first ++ item :: later) ∧
            (∀ x ∈ first, ∃ value : α, Reads x value) ∧ (¬ ∃ value : α, Reads item value) ∧
            cause = .badNumber (String.ofList (Blank.trim item))) := by
  rw [ofLine]
  constructor
  · rw [← listArgument_eq_missingBracket_iff (α := α)]
    cases (listArgument line : Except Cause (List α)) <;> simp [Except.map]
  · have hbrackets := brackets_bracketed? line
    generalize bracketed? line = found at hbrackets
    cases hbrackets with
    | unopened h => exact .inl (.inl h)
    | unclosed h => exact .inl (.inr (.inl h))
    | reversed hopen hclose hbetween => exact .inl (.inr (.inr ⟨_, _, rfl, hopen, hclose⟩))
    | @between before text after hopen hclose htext =>
        have hline : (listArgument (before ++ '[' :: (text ++ ']' :: after)) : Except Cause (List α)) =
            (items text).mapM itemValue :=
          listArgument_of_brackets (.between hopen hclose htext)
        refine .inr ⟨before, text, after, rfl, hopen, hclose, htext, ?_, ?_⟩
        · intro command
          rw [hline]
          simp only [← mapM_itemValue_eq_ok_iff]
          cases (items text).mapM (itemValue (α := α)) with
          | error e => simp [Except.map]
          | ok values => simp [Except.map, eq_comm]
        · intro cause
          rw [hline, ← mapM_itemValue_eq_error_iff]
          cases (items text).mapM (itemValue (α := α)) <;> simp [Except.map]

end Command
end PenScript
