import WorkCode.IpSettingRewrite
import WorkCode.FaultySequence

/-!
# Faults while the start-up script is rewritten

Six commands change the two files, and their exit statuses are not looked at. A `sed` that
fails is still moved over the start-up script, and both `echo` commands write to it in
place, so nearly every fault leaves some file neither as it was nor as it should be.
-/

namespace WorkCode.IpSettingScript

open TextLines RepeatPattern FaultySequence Locales

structure Files where
  setting : Option Text
  temp : Option Text
  deriving DecidableEq

def firstPart (w : Text → ℕ) (output : Text) : Text := output.take (w output)

/-- `sed "/pattern/d" $IP_SETTING > $IP_SETTING_TEMP`; opening the output empties it. -/
def sed (locale : LcCtype) (pattern : List (Atom Item)) : Command Files Text where
  complete files := { files with temp := some (sedDelete locale pattern (files.setting.getD [])) }
  attempt
    | none, files => files
    | some w, files =>
      { files with temp := some (firstPart w (sedDelete locale pattern (files.setting.getD []))) }

/-- `mv $IP_SETTING_TEMP $IP_SETTING`: both names are in one directory, so a move is made
whole or not at all. -/
def mv : Command Files Text where
  complete files := match files.temp with
    | some t => ⟨some t, none⟩
    | none => files
  attempt _ files := files

def echo (line : Text) : Command Files Text where
  complete files := { files with setting := some (files.setting.getD [] ++ (line ++ ['\n'])) }
  attempt
    | none, files => files
    | some w, files => { files with setting := some (files.setting.getD [] ++ firstPart w (line ++ ['\n'])) }

def script (locale : LcCtype) (a : Answers) : List (Command Files Text) :=
  [sed locale addressPattern, mv, sed locale routePattern, mv, echo (addressLine a), echo (routeLine a)]

section Faults

variable (locale : LcCtype) (a : Answers) (fault : Fault Text) (temp : Option Text) (content : Text)

def outcome : Option Text := (run fault (script locale a) ⟨some content, temp⟩).setting

def OldOrNew : Prop :=
  outcome locale a fault temp content = some content ∨
    outcome locale a fault temp content = some (rewrite locale a content)

instance : Decidable (OldOrNew locale a fault temp content) := inferInstanceAs (Decidable (_ ∨ _))

def withoutAddress : Text := sedDelete locale addressPattern content

def withoutRoute : Text := sedDelete locale routePattern content

/-- A command that fails has written all that it comes to in the end. -/
def WritesEnough (w : Text → ℕ) : ℕ → Prop
  | 0 => ∀ content, withoutRoute locale (firstPart w (withoutAddress locale content)) =
      withoutRoute locale (withoutAddress locale content)
  | 2 => ∀ content, firstPart w (withoutRoute locale (withoutAddress locale content)) =
      withoutRoute locale (withoutAddress locale content)
  | 4 => firstPart w (addressLine a ++ ['\n']) = addressLine a ++ ['\n']
  | 5 => firstPart w (routeLine a ++ ['\n']) = routeLine a ++ ['\n']
  | _ => False

/-- No fault before the end, an interruption before the first `mv` is done, or a command that
fails although it has written enough, without an interruption unless it is the last one. -/
def Harmless : Prop :=
  6 ≤ fault.position ∨
  (fault.position ≤ 1 ∧ fault.stops = true) ∨
  ((fault.stops = false ∨ fault.position = 5) ∧
    ∃ w, fault.written = some w ∧ WritesEnough locale a w fault.position)

end Faults

section Outcomes

variable (locale : LcCtype) (a : Answers) (temp : Option Text) (content : Text)

def appendBoth (text : Text) : Text := text ++ (addressLine a ++ ['\n']) ++ (routeLine a ++ ['\n'])

def writtenPart (written : Option (Text → ℕ)) (line : Text) : Text :=
  written.elim [] fun w => firstPart w (line ++ ['\n'])

theorem rewrite_eq_appendBoth :
    rewrite locale a content = appendBoth a (withoutRoute locale (withoutAddress locale content)) := by
  rw [rewrite, appended, appendBoth]
  simp only [List.append_assoc, List.singleton_append]
  rfl

theorem appendBoth_injective : Function.Injective (appendBoth a) := by
  intro s t h
  simpa [appendBoth] using h

/-- Without a fault the six commands compute `rewrite`. -/
theorem runAll_script :
    (runAll (script locale a) ⟨some content, temp⟩).setting = some (rewrite locale a content) := by
  rw [rewrite_eq_appendBoth]
  rfl

theorem outcome_cut_sed (w : Text → ℕ) : outcome locale a ⟨0, some w, false⟩ temp content =
    some (appendBoth a (withoutRoute locale (firstPart w (withoutAddress locale content)))) := rfl

theorem outcome_stale_temp (t : Text) : outcome locale a ⟨0, none, false⟩ (some t) content =
    some (appendBoth a (withoutRoute locale t)) := rfl

theorem outcome_no_temp : outcome locale a ⟨0, none, false⟩ none content =
    some (appendBoth a (withoutRoute locale content)) := rfl

theorem outcome_failed_mv (written : Option (Text → ℕ)) : outcome locale a ⟨1, written, false⟩ temp content =
    some (appendBoth a (withoutRoute locale content)) := rfl

theorem outcome_cut_second_sed (w : Text → ℕ) : outcome locale a ⟨2, some w, false⟩ temp content =
    some (appendBoth a (firstPart w (withoutRoute locale (withoutAddress locale content)))) := rfl

theorem outcome_skipped_second_sed : outcome locale a ⟨2, none, false⟩ temp content =
    some (appendBoth a (withoutAddress locale content)) := rfl

theorem outcome_failed_second_mv (written : Option (Text → ℕ)) :
    outcome locale a ⟨3, written, false⟩ temp content =
      some (appendBoth a (withoutAddress locale content)) := rfl

theorem outcome_stopped_between {position : ℕ} (hposition : position = 2 ∨ position = 3)
    (written : Option (Text → ℕ)) : outcome locale a ⟨position, written, true⟩ temp content =
      some (withoutAddress locale content) := by
  rcases hposition with rfl | rfl
  · cases written with
    | none => rfl
    | some w => rfl
  · rfl

theorem outcome_stopped_before {position : ℕ} (hposition : position ≤ 1) (written : Option (Text → ℕ)) :
    outcome locale a ⟨position, written, true⟩ temp content = some content := by
  rcases Nat.le_one_iff_eq_zero_or_eq_one.mp hposition with rfl | rfl
  · cases written with
    | none => rfl
    | some w => rfl
  · rfl

theorem outcome_stopped_echo (written : Option (Text → ℕ)) : outcome locale a ⟨4, written, true⟩ temp content =
    some (withoutRoute locale (withoutAddress locale content) ++ writtenPart written (addressLine a)) := by
  cases written with
  | none => exact congrArg some (List.append_nil _).symm
  | some w => rfl

theorem outcome_failed_echo (written : Option (Text → ℕ)) : outcome locale a ⟨4, written, false⟩ temp content =
    some (withoutRoute locale (withoutAddress locale content) ++ writtenPart written (addressLine a) ++
      (routeLine a ++ ['\n'])) := by
  cases written with
  | none =>
    rw [writtenPart, Option.elim_none, List.append_nil]
    rfl
  | some w => rfl

theorem outcome_last_echo (written : Option (Text → ℕ)) (stops : Bool) :
    outcome locale a ⟨5, written, stops⟩ temp content =
      some (withoutRoute locale (withoutAddress locale content) ++ (addressLine a ++ ['\n']) ++
        writtenPart written (routeLine a)) := by
  cases written with
  | none =>
    rw [writtenPart, Option.elim_none, List.append_nil]
    cases stops with
    | true => rfl
    | false => rfl
  | some w =>
    cases stops with
    | true => rfl
    | false => rfl

end Outcomes

theorem Harmless.oldOrNew {locale : LcCtype} {a : Answers} {fault : Fault Text} (h : Harmless locale a fault)
    (temp : Option Text) (content : Text) : OldOrNew locale a fault temp content := by
  obtain ⟨position, written, stops⟩ := fault
  rcases h with hend | ⟨hbefore, hstops⟩ | ⟨hstops, w, hwritten, henough⟩
  · right
    rw [outcome, run_of_length_le (by exact hend), runAll_script]
  · left
    cases hstops
    exact outcome_stopped_before locale a temp content hbefore written
  · right
    cases hwritten
    dsimp only at hstops henough
    rw [rewrite_eq_appendBoth]
    match position, henough with
    | 0, henough =>
      cases hstops.resolve_right (by decide)
      rw [outcome_cut_sed, henough content]
    | 2, henough =>
      cases hstops.resolve_right (by decide)
      rw [outcome_cut_second_sed, henough content]
    | 4, henough =>
      have hline : firstPart w (addressLine a ++ ['\n']) = addressLine a ++ ['\n'] := henough
      cases hstops.resolve_right (by decide)
      rw [outcome_failed_echo, writtenPart, Option.elim_some, hline]
      rfl
    | 5, henough =>
      have hline : firstPart w (routeLine a ++ ['\n']) = routeLine a ++ ['\n'] := henough
      rw [outcome_last_echo, writtenPart, Option.elim_some, hline]
      rfl

section Samples

variable (locale : LcCtype)

/-- A line that only the first pattern finds, one that only the second finds, and one that
neither does. -/
def addressOnly : Text := ipAddrAdd ++ devEth1
def routeOnly : Text := ipRouteAdd ++ devEth1
def neither : Text := ['x']

theorem sedDelete_nil (pattern : List (Atom Item)) : sedDelete locale pattern [] = [] := by
  simp [sedDelete, filterLines, lines, rest]

theorem sedDelete_printable_append (pattern : List (Atom Item)) {l : Text} (hl : l.all printable = true)
    (s : Text) : sedDelete locale pattern (l ++ '\n' :: s) =
      (if search pattern (plain l) then [] else l ++ ['\n']) ++ sedDelete locale pattern s := by
  have hnl : '\n' ∉ l := by
    intro hmem
    have hprintable := List.all_eq_true.mp hl '\n' hmem
    revert hprintable
    decide
  rw [sedDelete, filterLines_append_cons '\n' _ hnl, finds, locale.decode_printable l (List.all_eq_true.mp hl), ← sedDelete]
  cases search pattern (plain l) with
  | true => rfl
  | false => rfl

theorem withoutAddress_addressOnly (s : Text) :
    withoutAddress locale (addressOnly ++ '\n' :: s) = withoutAddress locale s := by
  have hfound : search addressPattern (plain addressOnly) = true := by decide +kernel
  rw [withoutAddress, sedDelete_printable_append locale _ (by decide +kernel), if_pos hfound]
  rfl

theorem withoutRoute_addressOnly : withoutRoute locale (addressOnly ++ ['\n']) = addressOnly ++ ['\n'] := by
  have hkept : search routePattern (plain addressOnly) = false := by decide +kernel
  rw [withoutRoute, sedDelete_printable_append locale _ (by decide +kernel), hkept, sedDelete_nil]
  rfl

theorem withoutAddress_routeOnly : withoutAddress locale (routeOnly ++ ['\n']) = routeOnly ++ ['\n'] := by
  have hkept : search addressPattern (plain routeOnly) = false := by decide +kernel
  rw [withoutAddress, sedDelete_printable_append locale _ (by decide +kernel), hkept, sedDelete_nil]
  rfl

theorem withoutRoute_routeOnly : withoutRoute locale (routeOnly ++ ['\n']) = [] := by
  have hfound : search routePattern (plain routeOnly) = true := by decide +kernel
  rw [withoutRoute, sedDelete_printable_append locale _ (by decide +kernel), if_pos hfound, sedDelete_nil]
  rfl

theorem without_neither : withoutRoute locale (withoutAddress locale (neither ++ ['\n'])) = neither ++ ['\n'] := by
  have haddress : search addressPattern (plain neither) = false := by decide +kernel
  have hroute : search routePattern (plain neither) = false := by decide +kernel
  have hfirst : withoutAddress locale (neither ++ ['\n']) = neither ++ ['\n'] := by
    rw [withoutAddress, sedDelete_printable_append locale _ (by decide +kernel), haddress, sedDelete_nil]
    rfl
  rw [hfirst, withoutRoute, sedDelete_printable_append locale _ (by decide +kernel), hroute, sedDelete_nil]
  rfl

theorem without_nil : withoutAddress locale [] = [] ∧ withoutRoute locale [] = [] :=
  ⟨sedDelete_nil locale _, sedDelete_nil locale _⟩

end Samples

section Harmful

variable (locale : LcCtype) (a : Answers) (temp : Option Text) {fault : Fault Text}

/-- What depends only on the output of the first `sed`, and is not the new file once, is not
the old file either, because a line more that this `sed` deletes makes no difference to it. -/
theorem exists_not_oldOrNew_of_output (result : Text → Text) (content : Text)
    (h : ∀ content, outcome locale a fault temp content = some (result (withoutAddress locale content)))
    (hne : result (withoutAddress locale content) ≠ rewrite locale a content) :
    ∃ content, ¬ OldOrNew locale a fault temp content := by
  by_contra hall
  have hall : ∀ content, OldOrNew locale a fault temp content := by simpa using hall
  have hlonger := h (addressOnly ++ '\n' :: content)
  have hnew : rewrite locale a (addressOnly ++ '\n' :: content) = rewrite locale a content := by
    rw [rewrite_eq_appendBoth, rewrite_eq_appendBoth, withoutAddress_addressOnly]
  have hresult : result (withoutAddress locale content) = content := by
    rcases hall content with hold | hnew'
    · exact Option.some.inj ((h content).symm.trans hold)
    · exact absurd (Option.some.inj ((h content).symm.trans hnew')) hne
  rw [withoutAddress_addressOnly, hresult] at hlonger
  rcases hall (addressOnly ++ '\n' :: content) with hold | hnew'
  · have hlength := congrArg List.length (Option.some.inj (hlonger.symm.trans hold))
    rw [List.length_append, List.length_cons] at hlength
    omega
  · rw [hlonger, hnew] at hnew'
    exact hne (hresult.trans (Option.some.inj hnew'))

theorem exists_not_oldOrNew_of_address_left
    (h : ∀ content, outcome locale a fault temp content = some (appendBoth a (withoutRoute locale content))) :
    ∃ content, ¬ OldOrNew locale a fault temp content := by
  have houtcome := h (addressOnly ++ ['\n'])
  have hnew : withoutAddress locale (addressOnly ++ ['\n']) = [] :=
    (withoutAddress_addressOnly locale []).trans (without_nil locale).1
  rw [withoutRoute_addressOnly] at houtcome
  refine ⟨addressOnly ++ ['\n'], ?_⟩
  rintro (hold | hnew')
  · have hlength := congrArg List.length (Option.some.inj (houtcome.symm.trans hold))
    simp only [appendBoth, List.length_append, List.length_singleton] at hlength
    omega
  · rw [houtcome, rewrite_eq_appendBoth, hnew, (without_nil locale).2] at hnew'
    have hnil := appendBoth_injective a (Option.some.inj hnew')
    simp at hnil

theorem exists_not_oldOrNew_of_const (t : Text) (h : ∀ content, outcome locale a fault temp content = some t) :
    ∃ content, ¬ OldOrNew locale a fault temp content := by
  have hdiffer : rewrite locale a [] ≠ rewrite locale a (neither ++ ['\n']) := by
    rw [rewrite_eq_appendBoth, rewrite_eq_appendBoth, without_neither, (without_nil locale).1, (without_nil locale).2]
    intro heq
    cases appendBoth_injective a heq
  by_cases hempty : t = rewrite locale a []
  · exact exists_not_oldOrNew_of_output locale a temp (fun _ => t) _ h (hempty.trans_ne hdiffer)
  · exact exists_not_oldOrNew_of_output locale a temp (fun _ => t) _ h hempty

/-- The second `sed` is to make one text of the first one's output, and another one is moved over the
file. -/
theorem exists_not_oldOrNew_of_made (made : Text → Text)
    (h : ∀ content, outcome locale a fault temp content = some (appendBoth a (made (withoutAddress locale content))))
    (hwrong : ¬ ∀ content, made (withoutAddress locale content) = withoutRoute locale (withoutAddress locale content)) :
    ∃ content, ¬ OldOrNew locale a fault temp content := by
  obtain ⟨content, hcontent⟩ := not_forall.mp hwrong
  apply exists_not_oldOrNew_of_output locale a temp (fun out => appendBoth a (made out)) content h
  rw [rewrite_eq_appendBoth]
  intro heq
  exact hcontent (appendBoth_injective a heq)

theorem exists_not_oldOrNew_of_route_left
    (h : ∀ content, outcome locale a fault temp content = some (appendBoth a (withoutAddress locale content))) :
    ∃ content, ¬ OldOrNew locale a fault temp content := by
  apply exists_not_oldOrNew_of_made locale a temp id h
  intro hsame
  have hroute := hsame (routeOnly ++ ['\n'])
  rw [withoutAddress_routeOnly, withoutRoute_routeOnly] at hroute
  simp at hroute

/-- An empty file is left shorter than it should be. -/
theorem exists_not_oldOrNew_of_short (result : Text → Text)
    (h : ∀ content, outcome locale a fault temp content = some (result (withoutAddress locale content)))
    (hshort : (result []).length < (addressLine a).length + (routeLine a).length + 2) :
    ∃ content, ¬ OldOrNew locale a fault temp content := by
  apply exists_not_oldOrNew_of_output locale a temp result [] h
  rw [rewrite_eq_appendBoth, (without_nil locale).1, (without_nil locale).2]
  intro heq
  have hlength := congrArg List.length heq
  simp only [appendBoth, List.length_append, List.length_singleton, List.length_nil] at hlength
  omega

theorem length_writtenPart_le (written : Option (Text → ℕ)) (line : Text) :
    (writtenPart written line).length ≤ line.length + 1 := by
  cases written with
  | none => exact Nat.zero_le _
  | some w =>
    refine (List.length_take_le' _ _).trans ?_
    rw [List.length_append, List.length_singleton]

theorem length_writtenPart_lt {written : Option (Text → ℕ)} {line : Text}
    (h : ∀ w, written = some w → firstPart w (line ++ ['\n']) ≠ line ++ ['\n']) :
    (writtenPart written line).length < line.length + 1 := by
  cases written with
  | none => exact Nat.succ_pos _
  | some w =>
    have hne := h w rfl
    rw [firstPart, ne_eq, List.take_eq_self_iff, not_le] at hne
    refine Nat.lt_of_le_of_lt (List.length_take_le _ _) (Nat.lt_of_lt_of_eq hne ?_)
    rw [List.length_append, List.length_singleton]

theorem exists_not_oldOrNew (h : ¬ Harmless locale a fault) :
    ∃ content, ¬ OldOrNew locale a fault temp content := by
  obtain ⟨position, written, stops⟩ := fault
  simp only [Harmless, not_or, not_and, not_exists, not_le] at h
  obtain ⟨hposition, hbefore, hwrites⟩ := h
  have hcases : position = 0 ∨ position = 1 ∨ position = 2 ∨ position = 3 ∨ position = 4 ∨
      position = 5 := by
    omega
  rcases hcases with rfl | rfl | rfl | rfl | rfl | rfl
  · -- the first `sed`
    have hstops : stops = false := by simpa using hbefore
    subst hstops
    cases written with
    | none =>
      cases temp with
      | none => exact exists_not_oldOrNew_of_address_left locale a none (outcome_no_temp locale a)
      | some t => exact exists_not_oldOrNew_of_const locale a (some t) _ fun content => outcome_stale_temp locale a content t
    | some w =>
      have hwrong := hwrites (.inl rfl) w rfl
      exact exists_not_oldOrNew_of_made locale a temp (fun out => withoutRoute locale (firstPart w out))
        (fun content => outcome_cut_sed locale a temp content w) hwrong
  · -- the first `mv`
    have hstops : stops = false := by simpa using hbefore
    subst hstops
    exact exists_not_oldOrNew_of_address_left locale a temp
      fun content => outcome_failed_mv locale a temp content written
  · -- the second `sed`
    cases stops with
    | true =>
      exact exists_not_oldOrNew_of_short locale a temp id
        (fun content => outcome_stopped_between locale a temp content (.inl rfl) written) (Nat.succ_pos _)
    | false =>
      cases written with
      | none => exact exists_not_oldOrNew_of_route_left locale a temp (outcome_skipped_second_sed locale a temp)
      | some w =>
        have hwrong := hwrites (.inl rfl) w rfl
        exact exists_not_oldOrNew_of_made locale a temp (fun out => firstPart w (withoutRoute locale out))
          (fun content => outcome_cut_second_sed locale a temp content w) hwrong
  · -- the second `mv`
    cases stops with
    | true =>
      exact exists_not_oldOrNew_of_short locale a temp id
        (fun content => outcome_stopped_between locale a temp content (.inr rfl) written) (Nat.succ_pos _)
    | false =>
      exact exists_not_oldOrNew_of_route_left locale a temp
        fun content => outcome_failed_second_mv locale a temp content written
  · -- the first `echo`
    cases stops with
    | true =>
      apply exists_not_oldOrNew_of_short locale a temp
        (fun out => withoutRoute locale out ++ writtenPart written (addressLine a))
        fun content => outcome_stopped_echo locale a temp content written
      have hle := length_writtenPart_le written (addressLine a)
      rw [List.length_append, (without_nil locale).2, List.length_nil]
      omega
    | false =>
      apply exists_not_oldOrNew_of_short locale a temp
        (fun out => withoutRoute locale out ++ writtenPart written (addressLine a) ++ (routeLine a ++ ['\n']))
        fun content => outcome_failed_echo locale a temp content written
      have hlt := length_writtenPart_lt (hwrites (.inl rfl))
      simp only [List.length_append, (without_nil locale).2, List.length_nil, List.length_singleton]
      omega
  · -- the last `echo`
    apply exists_not_oldOrNew_of_short locale a temp
      (fun out => withoutRoute locale out ++ (addressLine a ++ ['\n']) ++ writtenPart written (routeLine a))
      fun content => outcome_last_echo locale a temp content written stops
    have hlt := length_writtenPart_lt (hwrites (.inr rfl))
    simp only [List.length_append, (without_nil locale).2, List.length_nil, List.length_singleton]
    omega

end Harmful

/-- A fault leaves every file with its old or its new content if and only if it is
harmless. -/
theorem oldOrNew_iff (locale : LcCtype) (a : Answers) (fault : Fault Text) (temp : Option Text) :
    (∀ content, OldOrNew locale a fault temp content) ↔ Harmless locale a fault := by
  constructor
  · intro h
    by_contra hharmful
    obtain ⟨content, hcontent⟩ := exists_not_oldOrNew locale a temp hharmful
    exact hcontent (h content)
  · intro h content
    exact h.oldOrNew temp content

/-- A full disk at the first `sed` costs the other lines of the file. -/
theorem cut_sed_not_oldOrNew :
    ¬ ∀ (locale : LcCtype) (a : Answers) (fault : Fault Text) (temp : Option Text) (content : Text),
      OldOrNew locale a fault temp content := by
  intro h
  have hfail := h .posix plainAnswers ⟨0, some fun _ => 0, false⟩ none "mount /dev/sda2 /utm\n".toList
  revert hfail
  decide +kernel

end WorkCode.IpSettingScript
