import PenScript.Session.Source
import Mathlib.Data.List.DropRight

/-!
# The lines of a source

A source is cut into pieces after every line feed, and each piece gives a line. Fetching hands out
these lines one after the other; where the source fails, the piece without a line feed is lost.
-/

set_option autoImplicit false

namespace PenScript.Source

/-! ## Pieces -/

/-- The bytes cut after every line feed. -/
def pieces : List UInt8 → List (List UInt8)
  | [] => []
  | b :: rest =>
      if isLineFeed b then [b] :: pieces rest
      else match pieces rest with
        | [] => [[b]]
        | piece :: later => (b :: piece) :: later

/-- A piece without the CR LF or the LF at its end; one that ends with neither stays whole. -/
def withoutEnding (piece : List UInt8) : List UInt8 :=
  if [0x0D, 0x0A] <:+ piece then piece.take (piece.length - 2)
  else if [0x0A] <:+ piece then piece.take (piece.length - 1)
  else piece

def linesOf (bytes : List UInt8) : List (List UInt8) :=
  (pieces bytes).map withoutEnding

/-- There are no bytes, or the last one is a line feed. -/
def Ended (bytes : List UInt8) : Prop :=
  bytes = [] ∨ bytes.getLast? = some 0x0A

def endedPart (bytes : List UInt8) : List UInt8 :=
  bytes.rdropWhile fun b => !isLineFeed b

/-- The lines that a source delivers before it ends or fails. -/
def lines (source : Source) : List (List UInt8) :=
  match source.fault with
  | none => linesOf source.pending
  | some _ => linesOf (endedPart source.pending)

theorem flatten_pieces (bytes : List UInt8) : (pieces bytes).flatten = bytes := by
  induction bytes with
  | nil => rfl
  | cons b rest ih =>
      rw [pieces]
      split
      · simp [ih]
      · split
        · rename_i hp
          simpa [hp] using ih
        · rename_i piece later hp
          simpa [hp] using ih

theorem isLineFeed_eq_false {body : List UInt8} (h : 0x0A ∉ body) {b : UInt8} (hb : b ∈ body) :
    isLineFeed b = false := by
  simp only [isLineFeed, beq_eq_false_iff_ne]
  rintro rfl
  exact h hb

theorem pieces_append_lineFeed {body : List UInt8} (h : 0x0A ∉ body) (rest : List UInt8) :
    pieces (body ++ 0x0A :: rest) = (body ++ [0x0A]) :: pieces rest := by
  induction body with
  | nil => simp [pieces, isLineFeed]
  | cons b body ih =>
      have hb := isLineFeed_eq_false h (List.mem_cons_self ..)
      have ih := ih fun hm => h (List.mem_cons_of_mem b hm)
      simp [pieces, hb, ih]

theorem pieces_of_not_mem {body : List UInt8} (h : 0x0A ∉ body) (hne : body ≠ []) :
    pieces body = [body] := by
  induction body with
  | nil => exact absurd rfl hne
  | cons b body ih =>
      have hb := isLineFeed_eq_false h (List.mem_cons_self ..)
      cases body with
      | nil => simp [pieces, hb]
      | cons c body =>
          have ih := ih (fun hm => h (List.mem_cons_of_mem b hm)) (by simp)
          rw [pieces]
          simp [hb, ih]

/-- Bytes without a line feed are the last line; any others have a line in front, and the rest. -/
@[elab_as_elim]
theorem line_induction {motive : List UInt8 → Prop}
    (last : ∀ body, 0x0A ∉ body → motive body)
    (line : ∀ body rest, 0x0A ∉ body → motive rest → motive (body ++ 0x0A :: rest))
    (bytes : List UInt8) : motive bytes := by
  induction hn : bytes.length using Nat.strongRecOn generalizing bytes with
  | _ n ih =>
      by_cases hm : 0x0A ∈ bytes
      · obtain ⟨body, rest, rfl, hbody⟩ := List.eq_append_cons_of_mem hm
        exact line body rest hbody (ih rest.length (by simp at hn; omega) rest rfl)
      · exact last bytes hm

theorem Ended.of_cons {b : UInt8} {rest : List UInt8} (h : Ended (b :: rest)) : Ended rest := by
  cases rest with
  | nil => exact Or.inl rfl
  | cons c rest =>
      rcases h with h | h
      · cases h
      · exact Or.inr (by rwa [List.getLast?_cons_cons] at h)

/-- No piece reaches over the end of a line. -/
theorem pieces_append {first : List UInt8} (h : Ended first) (later : List UInt8) :
    pieces (first ++ later) = pieces first ++ pieces later := by
  induction first with
  | nil => rfl
  | cons b rest ih =>
      rw [List.cons_append, pieces, pieces, ih h.of_cons]
      by_cases hb : isLineFeed b
      · simp [hb]
      · -- Then the piece that `b` begins is ended later on in the first bytes.
        cases hp : pieces rest with
        | cons piece pieces => simp [hb]
        | nil =>
            have hrest : rest = [] := by
              rw [← flatten_pieces rest, hp]
              rfl
            subst hrest
            rcases h with h | h
            · cases h
            · cases h
              exact absurd rfl hb

/-! ## Lines -/

theorem withoutEnding_append_lineFeed (body : List UInt8) :
    withoutEnding (body ++ [0x0A]) = dropReturn body := by
  have hlf : [0x0A] <:+ body ++ [0x0A] := List.suffix_append body [0x0A]
  have hcr : [0x0D, 0x0A] <:+ body ++ [0x0A] ↔ body.getLast? = some 0x0D := by
    rw [← List.singleton_suffix_iff_getLast?_eq_some]
    show [0x0D] ++ [0x0A] <:+ body ++ [0x0A] ↔ [0x0D] <:+ body
    exact List.suffix_append_self_iff
  unfold withoutEnding dropReturn
  simp only [hcr, hlf, if_true]
  split
  · simp [List.dropLast_eq_take, List.take_append_of_le_length]
  · simp

theorem withoutEnding_of_not_mem {body : List UInt8} (h : 0x0A ∉ body) :
    withoutEnding body = body := by
  have hlf : ¬ [0x0A] <:+ body := fun hs => h (hs.subset (by simp))
  have hcr : ¬ [0x0D, 0x0A] <:+ body := fun hs => h (hs.subset (by simp))
  simp [withoutEnding, hlf, hcr]

theorem linesOf_append_lineFeed {body : List UInt8} (h : 0x0A ∉ body) (rest : List UInt8) :
    linesOf (body ++ 0x0A :: rest) = dropReturn body :: linesOf rest := by
  simp [linesOf, pieces_append_lineFeed h, withoutEnding_append_lineFeed]

theorem linesOf_of_not_mem {body : List UInt8} (h : 0x0A ∉ body) (hne : body ≠ []) :
    linesOf body = [body] := by
  simp [linesOf, pieces_of_not_mem h hne, withoutEnding_of_not_mem h]

theorem linesOf_append {first : List UInt8} (h : Ended first) (later : List UInt8) :
    linesOf (first ++ later) = linesOf first ++ linesOf later := by
  rw [linesOf, pieces_append h, List.map_append]
  rfl

theorem dropReturn_eq_self {body : List UInt8} (h : body.getLast? ≠ some 0x0D) :
    dropReturn body = body :=
  if_neg h

/-- Lines that are not empty and end with no CR come back, with or without the last line feed. -/
theorem linesOf_flatMap_lineFeed {bodies : List (List UInt8)}
    (h : ∀ body ∈ bodies, 0x0A ∉ body ∧ body ≠ [] ∧ body.getLast? ≠ some 0x0D) :
    linesOf (bodies.flatMap (· ++ [0x0A])) = bodies ∧
      linesOf (bodies.flatMap (· ++ [0x0A])).dropLast = bodies := by
  induction bodies with
  | nil => exact ⟨rfl, rfl⟩
  | cons body bodies ih =>
      obtain ⟨⟨hfeed, hne, hreturn⟩, hrest⟩ := List.forall_mem_cons.mp h
      obtain ⟨hwhole, hcut⟩ := ih hrest
      have hcons : (body :: bodies).flatMap (· ++ [0x0A]) =
          body ++ 0x0A :: bodies.flatMap (· ++ [0x0A]) := by simp
      constructor
      · rw [hcons, linesOf_append_lineFeed hfeed, dropReturn_eq_self hreturn, hwhole]
      · cases bodies with
        | nil => simpa using linesOf_of_not_mem hfeed hne
        | cons next bodies =>
            rw [hcons, List.dropLast_append_of_ne_nil (by simp),
              List.dropLast_cons_of_ne_nil (by simp), linesOf_append_lineFeed hfeed,
              dropReturn_eq_self hreturn, hcut]

/-! ## The part that is ended -/

theorem endedPart_append_lineFeed (body rest : List UInt8) :
    endedPart (body ++ 0x0A :: rest) = body ++ 0x0A :: endedPart rest := by
  induction rest using List.reverseRecOn with
  | nil => exact List.rdropWhile_concat_neg _ body 0x0A (by simp [isLineFeed])
  | append_singleton rest b ih =>
      have happ : body ++ 0x0A :: (rest ++ [b]) = (body ++ 0x0A :: rest) ++ [b] := by simp
      unfold endedPart at ih ⊢
      rw [happ, List.rdropWhile_concat, List.rdropWhile_concat]
      split
      · exact ih
      · simp

theorem endedPart_of_not_mem {body : List UInt8} (h : 0x0A ∉ body) : endedPart body = [] := by
  rw [endedPart, List.rdropWhile_eq_nil_iff]
  intro b hb
  simp [isLineFeed_eq_false h hb]

theorem endedPart_prefix_self (bytes : List UInt8) : endedPart bytes <+: bytes :=
  List.rdropWhile_prefix _ bytes

theorem ended_endedPart (bytes : List UInt8) : Ended (endedPart bytes) := by
  by_cases hne : endedPart bytes = []
  · exact Or.inl hne
  · have hlast := List.rdropWhile_last_not (fun b => !isLineFeed b) bytes hne
    have hfeed : (endedPart bytes).getLast hne = 0x0A := by
      simp only [isLineFeed, Bool.not_eq_true', Bool.not_eq_false, beq_iff_eq] at hlast
      exact hlast
    rw [Ended, List.getLast?_eq_some_getLast hne, hfeed]
    exact Or.inr rfl

/-- Of the beginnings that are ended, it is the longest. -/
theorem prefix_endedPart {start bytes : List UInt8} (hstart : start <+: bytes)
    (h : Ended start) : start <+: endedPart bytes := by
  rcases h with rfl | h
  · exact List.nil_prefix
  · obtain ⟨rest, rfl⟩ := hstart
    obtain ⟨body, rfl⟩ := List.getLast?_eq_some_iff.mp h
    rw [List.append_assoc, List.singleton_append, endedPart_append_lineFeed]
    exact ⟨endedPart rest, by simp⟩

/-! ## Lines that are delivered -/

theorem lines_append_lineFeed {body : List UInt8} (h : 0x0A ∉ body) (rest : List UInt8)
    (fault : Option String) :
    lines ⟨body ++ 0x0A :: rest, fault⟩ = dropReturn body :: lines ⟨rest, fault⟩ := by
  cases fault <;> simp [lines, endedPart_append_lineFeed, linesOf_append_lineFeed h]

/-! ## Fetching -/

theorem fetch_append_lineFeed {body : List UInt8} (h : 0x0A ∉ body) (rest : List UInt8)
    (fault : Option String) :
    fetch ⟨body ++ 0x0A :: rest, fault⟩ = .line (dropReturn body) ⟨rest, fault⟩ := by
  have hb : ∀ b ∈ body, !isLineFeed b := fun b hb => by simp [isLineFeed_eq_false h hb]
  have hd : (body ++ 0x0A :: rest).dropWhile (fun b => !isLineFeed b) = 0x0A :: rest := by
    rw [List.dropWhile_append_of_pos hb, List.dropWhile_cons_of_neg (by simp [isLineFeed])]
  have ht : (body ++ 0x0A :: rest).takeWhile (fun b => !isLineFeed b) = body := by
    rw [List.takeWhile_append_of_pos hb, List.takeWhile_cons_of_neg (by simp [isLineFeed]),
      List.append_nil]
  simp [fetch, hd, ht]

theorem fetch_of_not_mem {body : List UInt8} (h : 0x0A ∉ body) (fault : Option String) :
    fetch ⟨body, fault⟩ = match fault with
      | some reason => .failed reason
      | none => if body.isEmpty then .finished else .line body ⟨[], none⟩ := by
  have hd : (body.dropWhile fun b => !isLineFeed b) = [] :=
    List.dropWhile_eq_nil_iff.mpr fun b hb => by simp [isLineFeed_eq_false h hb]
  cases fault <;> simp [fetch, hd]

theorem lines_of_fetch_line {source rest : Source} {bytes : List UInt8}
    (h : source.fetch = .line bytes rest) :
    source.lines = bytes :: rest.lines ∧ rest.fault = source.fault := by
  obtain ⟨pending, fault⟩ := source
  by_cases hm : 0x0A ∈ pending
  · obtain ⟨body, later, rfl, hbody⟩ := List.eq_append_cons_of_mem hm
    rw [fetch_append_lineFeed hbody, Fetch.line.injEq] at h
    obtain ⟨rfl, rfl⟩ := h
    exact ⟨lines_append_lineFeed hbody later fault, rfl⟩
  · rw [fetch_of_not_mem hm] at h
    cases fault with
    | some reason => cases h
    | none =>
        cases pending with
        | nil => cases h
        | cons b pending =>
            cases h
            exact ⟨linesOf_of_not_mem hm (by simp), rfl⟩

theorem lines_of_fetch_finished {source : Source} (h : source.fetch = .finished) :
    source.lines = [] ∧ source.fault = none := by
  obtain ⟨pending, fault⟩ := source
  by_cases hm : 0x0A ∈ pending
  · obtain ⟨body, later, rfl, hbody⟩ := List.eq_append_cons_of_mem hm
    rw [fetch_append_lineFeed hbody] at h
    cases h
  · rw [fetch_of_not_mem hm] at h
    cases fault with
    | some reason => cases h
    | none =>
        cases pending with
        | nil => exact ⟨rfl, rfl⟩
        | cons b pending => cases h

theorem lines_of_fetch_failed {source : Source} {reason : String}
    (h : source.fetch = .failed reason) : source.lines = [] ∧ source.fault = some reason := by
  obtain ⟨pending, fault⟩ := source
  by_cases hm : 0x0A ∈ pending
  · obtain ⟨body, later, rfl, hbody⟩ := List.eq_append_cons_of_mem hm
    rw [fetch_append_lineFeed hbody] at h
    cases h
  · rw [fetch_of_not_mem hm] at h
    cases fault with
    | none =>
        cases pending with
        | nil => cases h
        | cons b pending => cases h
    | some reason =>
        cases h
        refine ⟨?_, rfl⟩
        simp [lines, endedPart_of_not_mem hm, linesOf, pieces]

end PenScript.Source
