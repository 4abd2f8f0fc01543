import Mathlib.Logic.Relation
import PenScript.Proofs.Lists

/-!
# White space in lists of numbers

More or less white space next to a bracket or a comma leaves every item the same once it is trimmed.
What it can change is whether there is a last item: one that is empty is left out before it is
trimmed, so it stands where anything blank is put in its place.
-/

set_option autoImplicit false

namespace PenScript

/-! ## Pieces around a separator -/

namespace Split

theorem pieces_append_cons (separator : Char) (first later : List Char) :
    pieces separator (first ++ separator :: later) =
      pieces separator first ++ pieces separator later := by
  induction first with
  | nil => rw [List.nil_append, pieces_cons, if_pos rfl]; rfl
  | cons c first ih =>
      rw [List.cons_append, pieces_cons, pieces_cons, ih]
      by_cases hc : c = separator
      · simp only [if_pos hc, List.cons_append]
      · simp only [if_neg hc]
        cases hfirst : pieces separator first with
        | nil => cases hfirst
        | cons piece pieces => rfl

theorem pieces_of_not_mem {separator : Char} {text : List Char} (h : separator ∉ text) :
    pieces separator text = [text] := by
  induction text with
  | nil => rfl
  | cons c text ih =>
      simp only [List.mem_cons, not_or] at h
      rw [pieces_cons, if_neg (Ne.symm h.1), ih h.2, List.modifyHead_cons]

end Split

namespace Command

/-! ## Trimmed pieces -/

/-- What stands between the commas, without the white space around it. -/
def trimmed (text : List Char) : List (List Char) :=
  (Split.pieces ',' text).map Blank.trim

theorem trimmed_append_cons (first later : List Char) :
    trimmed (first ++ ',' :: later) = trimmed first ++ trimmed later := by
  rw [trimmed, Split.pieces_append_cons, List.map_append, trimmed, trimmed]

theorem trimmed_of_not_mem {text : List Char} (h : ',' ∉ text) :
    trimmed text = [Blank.trim text] := by
  rw [trimmed, Split.pieces_of_not_mem h, List.map_singleton]

section

variable {ws : List Char} (hws : ∀ c ∈ ws, Blank.isBlank c)

include hws

theorem trimmed_blanks_append (text : List Char) : trimmed (ws ++ text) = trimmed text := by
  have hcomma : ',' ∉ ws :=
    Blank.not_mem_of_blanks hws (Blank.isBlank_eq_false (by decide) (by decide))
  by_cases htext : ',' ∈ text
  · obtain ⟨first, later, rfl, hfirst⟩ := List.eq_append_cons_of_mem htext
    have hboth : ',' ∉ ws ++ first := by simp [hcomma, hfirst]
    rw [← List.append_assoc, trimmed_append_cons, trimmed_append_cons, trimmed_of_not_mem hfirst,
      trimmed_of_not_mem hboth, Blank.trim_blanks_append hws]
  · have hboth : ',' ∉ ws ++ text := by simp [hcomma, htext]
    rw [trimmed_of_not_mem htext, trimmed_of_not_mem hboth, Blank.trim_blanks_append hws]

theorem trimmed_append_blanks (text : List Char) : trimmed (text ++ ws) = trimmed text := by
  have hcomma : ',' ∉ ws :=
    Blank.not_mem_of_blanks hws (Blank.isBlank_eq_false (by decide) (by decide))
  by_cases htext : ',' ∈ text
  · obtain ⟨first, last, rfl, hlast⟩ := Span.eq_append_cons_of_mem_last htext
    have hboth : ',' ∉ last ++ ws := by simp [hcomma, hlast]
    rw [List.append_assoc, List.cons_append, trimmed_append_cons, trimmed_append_cons,
      trimmed_of_not_mem hlast, trimmed_of_not_mem hboth, Blank.trim_append_blanks hws]
  · have hboth : ',' ∉ text ++ ws := by simp [hcomma, htext]
    rw [trimmed_of_not_mem htext, trimmed_of_not_mem hboth, Blank.trim_append_blanks hws]

end

/-! ## More or less white space -/

/-- White space put in behind the `[`, in front of the `]`, or on one side of a comma. -/
inductive Spaced : List Char → List Char → Prop where
  | opening {ws text : List Char} (hws : ∀ c ∈ ws, Blank.isBlank c) : Spaced text (ws ++ text)
  | closing {ws text : List Char} (hws : ∀ c ∈ ws, Blank.isBlank c) : Spaced text (text ++ ws)
  | before {ws first later : List Char} (hws : ∀ c ∈ ws, Blank.isBlank c) :
      Spaced (first ++ ',' :: later) (first ++ (ws ++ ',' :: later))
  | behind {ws first later : List Char} (hws : ∀ c ∈ ws, Blank.isBlank c) :
      Spaced (first ++ ',' :: later) (first ++ ',' :: (ws ++ later))

/-- The texts differ only by white space put in or taken out in these places. -/
def Respaced : List Char → List Char → Prop :=
  Relation.EqvGen Spaced

theorem Spaced.trimmed_eq {text text' : List Char} (h : Spaced text text') :
    trimmed text = trimmed text' := by
  cases h with
  | opening hws => exact (trimmed_blanks_append hws text).symm
  | closing hws => exact (trimmed_append_blanks hws text).symm
  | @before ws first later hws =>
      rw [← List.append_assoc, trimmed_append_cons, trimmed_append_cons,
        trimmed_append_blanks hws]
  | @behind ws first later hws =>
      rw [trimmed_append_cons, trimmed_append_cons, trimmed_blanks_append hws]

theorem Spaced.mem_iff {text text' : List Char} (h : Spaced text text') {c : Char}
    (hc : Blank.isBlank c = false) : c ∈ text ↔ c ∈ text' := by
  cases h with
  | opening hws => simp [Blank.not_mem_of_blanks hws hc]
  | closing hws => simp [Blank.not_mem_of_blanks hws hc]
  | before hws => simp [Blank.not_mem_of_blanks hws hc]
  | behind hws => simp [Blank.not_mem_of_blanks hws hc]

theorem Respaced.map_eq {β : Sort*} {f : List Char → β}
    (hf : ∀ text text', Spaced text text' → f text = f text') {text text' : List Char}
    (h : Respaced text text') : f text = f text' := by
  induction h with
  | rel text text' h => exact hf text text' h
  | refl text => rfl
  | symm text text' h ih => exact ih.symm
  | trans text text' text'' h h' ih ih' => exact ih.trans ih'

theorem Respaced.trimmed_eq {text text' : List Char} (h : Respaced text text') :
    trimmed text = trimmed text' :=
  h.map_eq fun _ _ => Spaced.trimmed_eq

theorem Respaced.mem_iff {text text' : List Char} (h : Respaced text text') {c : Char}
    (hc : Blank.isBlank c = false) : c ∈ text ↔ c ∈ text' :=
  iff_of_eq (h.map_eq fun _ _ h => propext (h.mem_iff hc))

/-! ## The last item -/

/-- The `]` stands directly behind the `[` or a comma. -/
def Bare (text : List Char) : Prop :=
  text = [] ∨ ∃ first, text = first ++ [',']

theorem bare_iff {text : List Char} :
    Bare text ↔ (Split.pieces ',' text).getLast? = some [] := by
  by_cases htext : ',' ∈ text
  · obtain ⟨first, last, rfl, hlast⟩ := Span.eq_append_cons_of_mem_last htext
    rw [Split.pieces_append_cons, Split.pieces_of_not_mem hlast, List.getLast?_concat,
      Option.some.injEq]
    constructor
    · rintro (h | ⟨first', h⟩)
      · simp at h
      · rcases last.eq_nil_or_concat with rfl | ⟨init, c, rfl⟩
        · rfl
        · rw [List.concat_eq_append, ← List.cons_append, ← List.append_assoc] at h
          obtain ⟨-, rfl⟩ := List.append_inj' h rfl |>.imp id (fun h => (List.cons.inj h).1)
          simp at hlast
    · rintro rfl
      exact .inr ⟨first, rfl⟩
  · rw [Split.pieces_of_not_mem htext]
    constructor
    · rintro (rfl | ⟨first, rfl⟩)
      · rfl
      · simp at htext
    · intro h
      exact .inl (Option.some.inj h)

theorem items_of_bare {text : List Char} (h : Bare text) :
    items text = (Split.pieces ',' text).dropLast :=
  if_pos (bare_iff.mp h)

theorem items_of_not_bare {text : List Char} (h : ¬ Bare text) :
    items text = Split.pieces ',' text :=
  if_neg fun hlast => h (bare_iff.mpr hlast)

/-! ## What white space does to the values -/

variable {α : Type} [Scalar α]

theorem itemValue_congr {item item' : List Char} (h : Blank.trim item = Blank.trim item') :
    (itemValue item : Except Cause α) = itemValue item' := by
  rw [itemValue, itemValue, h]

theorem itemValue_of_blank {item : List Char} (h : Blank.trim item = []) :
    (itemValue item : Except Cause α) = .error (.badNumber "") := by
  rw [itemValue, h]
  rfl

theorem mapM_itemValue_congr {found found' : List (List Char)}
    (h : found.map Blank.trim = found'.map Blank.trim) :
    (found.mapM itemValue : Except Cause (List α)) = found'.mapM itemValue := by
  induction found generalizing found' with
  | nil =>
      cases found' with
      | nil => rfl
      | cons item' found' => cases h
  | cons item found ih =>
      cases found' with
      | nil => cases h
      | cons item' found' =>
          simp only [List.map_cons, List.cons.injEq] at h
          rw [List.mapM_cons, List.mapM_cons, itemValue_congr h.1, ih h.2]

theorem mapM_items_of_not_bare {text text' : List Char} (hbare : ¬ Bare text)
    (hbare' : ¬ Bare text') (h : trimmed text = trimmed text') :
    ((items text).mapM itemValue : Except Cause (List α)) = (items text').mapM itemValue := by
  rw [items_of_not_bare hbare, items_of_not_bare hbare']
  exact mapM_itemValue_congr h

theorem dropLast_trimmed {text text' : List Char} (h : trimmed text = trimmed text') :
    (Split.pieces ',' text).dropLast.map Blank.trim =
      (Split.pieces ',' text').dropLast.map Blank.trim := by
  rw [List.map_dropLast, List.map_dropLast]
  exact congrArg List.dropLast h

theorem mapM_items_of_bare {text text' : List Char} (hbare : Bare text) (hbare' : Bare text')
    (h : trimmed text = trimmed text') :
    ((items text).mapM itemValue : Except Cause (List α)) = (items text').mapM itemValue := by
  rw [items_of_bare hbare, items_of_bare hbare']
  exact mapM_itemValue_congr (dropLast_trimmed h)

/-- A last item that is blank without being empty takes the place of all values. -/
theorem mapM_items_of_bare_of_not_bare {text text' : List Char} (hbare : Bare text)
    (hbare' : ¬ Bare text') (h : trimmed text = trimmed text') :
    ((items text').mapM itemValue : Except Cause (List α)) =
      ((items text).mapM itemValue : Except Cause (List α)).bind
        fun _ => .error (.badNumber "") := by
  have hlast : (trimmed text).getLast? = some [] := by
    rw [trimmed, List.getLast?_map, bare_iff.mp hbare]
    rfl
  rw [h, trimmed, List.getLast?_map, Option.map_eq_some_iff] at hlast
  obtain ⟨last, hlast, hblank⟩ := hlast
  rw [items_of_bare hbare, items_of_not_bare hbare',
    mapM_itemValue_congr (dropLast_trimmed h), ← List.dropLast_append_getLast? last hlast,
    List.mapM_append, List.dropLast_concat]
  cases ((Split.pieces ',' text').dropLast.mapM itemValue : Except Cause (List α)) with
  | error cause => rfl
  | ok values =>
      rw [List.mapM_cons, itemValue_of_blank hblank]
      rfl

/-- There are values unless some item is no number. -/
theorem isError_mapM_itemValue_iff {found : List (List Char)} :
    (∃ cause, (found.mapM itemValue : Except Cause (List α)) = .error cause) ↔
      ∃ item ∈ found, ¬ ∃ value : α, Reads item value := by
  constructor
  · rintro ⟨cause, h⟩
    obtain ⟨first, item, later, rfl, -, hitem⟩ := mapM_eq_error_iff.mp h
    exact ⟨item, by simp, (itemValue_eq_error_iff.mp hitem).1⟩
  · rintro ⟨item, hitem, hbad⟩
    cases h : (found.mapM itemValue : Except Cause (List α)) with
    | error cause => exact ⟨cause, rfl⟩
    | ok values =>
        have hreads : List.Forall₂ Reads found values :=
          (mapM_eq_ok_iff.mp h).imp fun _ _ => itemValue_eq_ok_iff.mp
        exact absurd (forall_mem_of_reads hreads item hitem) hbad

/-! ## Whole lines -/

/-- A line with a text between its brackets. -/
def listLine (before text after : List Char) : List Char :=
  before ++ '[' :: (text ++ ']' :: after)

section

variable {before text text' : List Char} (hopen : '[' ∉ before) (hclose : ']' ∉ before)
  (htext : ']' ∉ text) (after : List Char) (offset : Nat)

include hopen hclose htext

theorem ofLine_listLine :
    (ofLine .createList (listLine before text after) offset : Except Cause (Command α)) =
      ((items text).mapM itemValue).map .createList := by
  rw [ofLine, listLine, listArgument_of_brackets (.between hopen hclose htext)]

/--
White space next to a bracket or a comma changes nothing, as long as the `]` stands directly behind
the `[` or a comma before and after, or does so neither time. Where it stands there once only, both
lines are rejected for the same item if one in front of the last comma is no number; else the values
of the one line are lost in the other.
-/
theorem ofLine_createList_respaced (h : Respaced text text') :
    let plain : Except Cause (Command α) :=
      ofLine .createList (listLine before text after) offset
    let spaced : Except Cause (Command α) :=
      ofLine .createList (listLine before text' after) offset
    (plain = spaced ↔ (Bare text ↔ Bare text') ∨
      ∃ item ∈ (Split.pieces ',' text).dropLast, ¬ ∃ value : α, Reads item value) ∧
    (plain ≠ spaced → ∃ values : List α,
      Bare text ∧ plain = .ok (.createList values) ∧ spaced = .error (.badNumber "") ∨
      Bare text' ∧ spaced = .ok (.createList values) ∧ plain = .error (.badNumber "")) := by
  have hblank : Blank.isBlank ']' = false := Blank.isBlank_eq_false (by decide) (by decide)
  have htext' : ']' ∉ text' := mt (h.mem_iff hblank).mpr htext
  simp only [ofLine_listLine hopen hclose htext, ofLine_listLine hopen hclose htext']
  have htrimmed := h.trimmed_eq
  rw [← isError_mapM_itemValue_iff (α := α)]
  by_cases hbare : Bare text
  · by_cases hbare' : Bare text'
    · rw [mapM_items_of_bare hbare hbare' htrimmed]
      simp [hbare, hbare']
    · rw [mapM_items_of_bare_of_not_bare hbare hbare' htrimmed, items_of_bare hbare]
      cases ((Split.pieces ',' text).dropLast.mapM itemValue : Except Cause (List α)) <;>
        simp [Except.map, Except.bind, hbare, hbare']
  · by_cases hbare' : Bare text'
    · rw [mapM_items_of_bare_of_not_bare hbare' hbare htrimmed.symm, items_of_bare hbare',
        mapM_itemValue_congr (dropLast_trimmed htrimmed)]
      cases ((Split.pieces ',' text').dropLast.mapM itemValue : Except Cause (List α)) <;>
        simp [Except.map, Except.bind, hbare, hbare']
    · rw [mapM_items_of_not_bare hbare hbare' htrimmed]
      simp [hbare, hbare']

end

theorem ofLine_createList_respaced_numbers :
    Respaced "1,2".toList " 1 ,2".toList ∧
      (ofLine .createList (listLine "create.list".toList "1,2".toList []) 0 :
          Except Cause (Command Float)) =
        ofLine .createList (listLine "create.list".toList " 1 ,2".toList []) 0 := by
  have hws : ∀ c ∈ [' '], Blank.isBlank c := List.forall_mem_singleton.mpr rfl
  have hopening : Spaced "1,2".toList " 1,2".toList := @Spaced.opening [' '] _ hws
  have hcomma : Spaced " 1,2".toList " 1 ,2".toList := @Spaced.before [' '] [' ', '1'] ['2'] hws
  have h : Respaced "1,2".toList " 1 ,2".toList :=
    .trans _ _ _ (.rel _ _ hopening) (.rel _ _ hcomma)
  have hbare : ¬ Bare "1,2".toList := by
    rw [bare_iff]
    decide
  have hbare' : ¬ Bare " 1 ,2".toList := by
    rw [bare_iff]
    decide
  exact ⟨h, (ofLine_createList_respaced (by decide) (by decide) (by decide) [] 0 h).1.mpr
    (.inl (iff_of_false hbare hbare'))⟩

/-- A blank list is not empty, and a blank behind the last comma is an item. -/
theorem ofLine_createList_blank_item :
    let result text : Except Cause (Command Float) :=
      ofLine .createList (listLine "create.list".toList text []) 0
    Spaced [] [' '] ∧ result [] = .ok (.createList []) ∧ result [' '] = .error (.badNumber "") ∧
      Spaced ['1', ','] ['1', ',', ' '] ∧ result ['1', ','] ≠ result ['1', ',', ' '] ∧
      result ['1', ',', ' '] = .error (.badNumber "") := by
  intro result
  have hws : ∀ c ∈ [' '], Blank.isBlank c := List.forall_mem_singleton.mpr rfl
  have hvalues : result ['1', ','] = .ok (.createList [Scalar.ofLiteral (.decimal false 1 0)]) := rfl
  have hlost : result ['1', ',', ' '] = .error (.badNumber "") := rfl
  refine ⟨@Spaced.opening [' '] [] hws, rfl, rfl, @Spaced.closing [' '] ['1', ','] hws, ?_, hlost⟩
  rw [hvalues, hlost]
  exact nofun

end Command
end PenScript
