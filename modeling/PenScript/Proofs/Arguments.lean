import PenScript.CommandLine.Options

/-!
# Flags among the arguments

A flag that stands in front of any `--` is set in the options, if the arguments make any.
-/

set_option autoImplicit false

namespace PenScript.Options

theorem exists_of_bind_eq_ok {ε β γ : Type} {result : Except ε β} {f : β → Except ε γ} {c : γ}
    (h : result >>= f = .ok c) : ∃ b, result = .ok b ∧ f b = .ok c := by
  cases result with
  | error e => cases h
  | ok b => exact ⟨b, rfl, h⟩

namespace Draft

variable {d next : Draft}

/-! ## One argument -/

theorem headless_setSeed {text : String} (h : d.setSeed text = .ok next) :
    next.headless = d.headless := by
  unfold setSeed at h
  split at h
  · cases h
  · split at h
    · cases h
      rfl
    · cases h

theorem headless_settle (h : d.settle = .ok next) : next.headless = d.headless := by
  unfold settle at h
  split at h
  · cases h
    rfl
  · split at h
    · cases h
    · cases h
      rfl
  · cases h
  · have hset := headless_setSeed h
    exact hset

theorem headless_addScript {name : String} (h : d.addScript name = .ok next) :
    next.headless = d.headless := by
  unfold addScript at h
  split at h
  · cases h
  · obtain ⟨settled, hsettled, hnext⟩ := exists_of_bind_eq_ok h
    have hflag := headless_settle hsettled
    cases hnext
    exact hflag

theorem headless_addLegacy (h : d.addLegacy = .ok next) : next.headless = d.headless := by
  obtain ⟨settled, hsettled, hnext⟩ := exists_of_bind_eq_ok h
  split at hnext
  · cases hnext
  · have hflag := headless_settle hsettled
    cases hnext
    exact hflag

theorem headless_addHeadless (h : d.addHeadless = .ok next) : next.headless = true := by
  obtain ⟨settled, hsettled, hnext⟩ := exists_of_bind_eq_ok h
  split at hnext
  · cases hnext
  · cases hnext
    rfl

theorem addHelp_ne_ok : d.addHelp ≠ .ok next := by
  intro h
  obtain ⟨settled, hsettled, hnext⟩ := exists_of_bind_eq_ok h
  cases hnext

/-- No argument unsets the flag. -/
theorem headless_addLong {name : String} {value : Option String}
    (h : d.addLong name value = .ok next) (hd : d.headless) : next.headless := by
  unfold addLong at h
  split at h
  · obtain ⟨settled, hsettled, hnext⟩ := exists_of_bind_eq_ok h
    rw [headless_setSeed hnext, headless_settle hsettled, hd]
  · obtain ⟨settled, hsettled, hnext⟩ := exists_of_bind_eq_ok h
    cases hnext
    rw [headless_settle hsettled, hd]
  · rw [headless_addLegacy h, hd]
  · exact headless_addHeadless h
  · exact absurd h addHelp_ne_ok
  all_goals cases h

theorem headless_add {argument : String} (h : d.add argument = .ok next) (hd : d.headless) :
    next.headless := by
  unfold add at h
  split at h
  · exact headless_addLong h hd
  · exact absurd h addHelp_ne_ok
  · cases h
  · split at h
    · cases h
      exact hd
    · rw [headless_addScript h, hd]

theorem add_headless (d : Draft) : d.add "--headless" = d.addHeadless :=
  rfl

/-! ## All arguments -/

theorem headless_foldlM_addScript {names : List String}
    (h : names.foldlM addScript d = .ok next) : next.headless = d.headless := by
  induction names generalizing d with
  | nil =>
      cases h
      rfl
  | cons name names ih =>
      rw [List.foldlM_cons] at h
      obtain ⟨added, hadded, hrest⟩ := exists_of_bind_eq_ok h
      rw [ih hrest, headless_addScript hadded]

end Draft

variable {arguments : List String}

theorem headless_addAll {d next : Draft} (h : addAll d arguments = .ok next)
    (hd : d.headless ∨ "--headless" ∈ arguments.takeWhile (· ≠ "--")) : next.headless := by
  induction arguments generalizing d with
  | nil =>
      cases h
      simpa using hd
  | cons argument rest ih =>
      rw [addAll] at h
      split at h
      · rename_i hend
        rw [Draft.headless_foldlM_addScript h]
        simpa [hend] using hd
      · rename_i hend
        obtain ⟨added, hadded, hrest⟩ := exists_of_bind_eq_ok h
        rw [List.takeWhile_cons_of_pos (by simpa using hend), List.mem_cons] at hd
        refine ih hrest ?_
        rcases hd with hd | rfl | hd
        · exact Or.inl (Draft.headless_add hadded hd)
        · rw [Draft.add_headless] at hadded
          exact Or.inl (Draft.headless_addHeadless hadded)
        · exact Or.inr hd

theorem headless_of_ofArguments {options : Options} (h : ofArguments arguments = .ok options)
    (hflag : "--headless" ∈ arguments.takeWhile (· ≠ "--")) : options.headless := by
  obtain ⟨added, hadded, h⟩ := exists_of_bind_eq_ok h
  obtain ⟨settled, hsettled, h⟩ := exists_of_bind_eq_ok h
  cases h
  rw [Draft.toOptions, Draft.headless_settle hsettled]
  exact headless_addAll hadded (Or.inr hflag)

end PenScript.Options
