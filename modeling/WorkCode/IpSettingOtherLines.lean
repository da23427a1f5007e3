import WorkCode.IpSettingRewrite

/-!
# The lines that a rewrite has to leave alone

Which lines of a start-up script configure `eth1` is for the shell and its commands to say, and
a parameter here. The other lines of a file survive a run exactly when neither delete pattern
finds one of them and no such line is left unterminated at the end.
-/

namespace WorkCode.IpSettingScript

open TextLines RepeatPattern Locales

section OtherLines

variable (configures : Text → Bool) (locale : LcCtype)

def otherLines (ls : List Text) : List Text := ls.filter (!configures ·)

/-- The lines of a rewritten file before the two that its `echo` commands have ended. -/
def linesBefore (new : Text) : List Text := (allLines '\n' new).dropLast.dropLast

/-- Every line of the file that does not configure `eth1` is a line of the rewritten one, in the
same order and as often, apart from what the run itself appends. -/
def KeepsOtherLines (a : Answers) (content : Text) : Prop :=
  (otherLines configures (allLines '\n' content)).Sublist (linesBefore (rewrite locale a content))

def keptRest (content : Text) : Text :=
  if keeps locale (rest '\n' content) then rest '\n' content else []

theorem linesBefore_rewrite (a : Answers) (content : Text) :
    linesBefore (rewrite locale a content) = (lines '\n' content).filter (keeps locale) := by
  have hrest : '\n' ∉ keptRest locale content := by
    rw [keptRest]
    cases keeps locale (rest '\n' content) with
    | true => exact not_mem_rest '\n' content
    | false => exact List.not_mem_nil
  have hlines : ∀ l ∈ lines '\n' content, '\n' ∉ l := fun l hl => not_mem_of_mem_lines '\n' hl
  have hls := not_mem_joined locale a hlines hrest
  have hcontent : rewrite locale a content = unlines '\n' ((lines '\n' content).filter (keeps locale) ++
      [keptRest locale content ++ addressLine a, routeLine a]) ++ [] := by
    rw [rewrite_eq, filterLines, appended, unlines_append]
    simp [unlines, keptRest]
  rw [linesBefore, hcontent, allLines_unlines_append '\n' hls List.not_mem_nil, if_pos rfl, List.append_nil]
  simp [List.dropLast_append_of_ne_nil]

theorem otherLines_append (ls ls' : List Text) :
    otherLines configures (ls ++ ls') = otherLines configures ls ++ otherLines configures ls' :=
  List.filter_append ls ls'

theorem otherLines_sublist_iff (ls ls' : List Text) :
    (otherLines configures ls).Sublist ls' ↔
      (otherLines configures ls).Sublist (otherLines configures ls') := by
  constructor
  · intro h
    have hfilter := h.filter (!configures ·)
    simp only [otherLines, List.filter_filter, Bool.and_self] at hfilter
    exact hfilter
  · intro h
    exact h.trans List.filter_sublist

theorem otherLines_kept_iff (ls : List Text) :
    (otherLines configures ls).Sublist (otherLines configures (ls.filter (keeps locale))) ↔
      ∀ l ∈ ls, keeps locale l = false → configures l = true := by
  have hcomm : otherLines configures (ls.filter (keeps locale)) =
      (otherLines configures ls).filter (keeps locale) := by
    rw [otherLines, otherLines, List.filter_filter, List.filter_filter]
    simp only [Bool.and_comm]
  rw [hcomm]
  constructor
  · intro h l hl hfound
    have hself := h.antisymm List.filter_sublist
    rw [eq_comm, List.filter_eq_self] at hself
    by_contra hother
    have hkept := hself l (List.mem_filter.mpr ⟨hl, by simpa using hother⟩)
    rw [hfound] at hkept
    cases hkept
  · intro h
    rw [List.filter_eq_self.mpr]
    intro l hl
    obtain ⟨hmem, hother⟩ := List.mem_filter.mp hl
    by_contra hfound
    rw [h l hmem (Bool.eq_false_iff.mpr hfound)] at hother
    cases hother

/-- A run keeps all lines that do not configure `eth1` if and only if the patterns find no
such line and the file does not end in an unterminated one. -/
theorem keepsOtherLines_iff (a : Answers) (content : Text) :
    KeepsOtherLines configures locale a content ↔
      (∀ l ∈ lines '\n' content, keeps locale l = false → configures l = true) ∧
        (rest '\n' content = [] ∨ configures (rest '\n' content) = true) := by
  have hkept := otherLines_kept_iff configures locale (lines '\n' content)
  rw [KeepsOtherLines, linesBefore_rewrite, otherLines_sublist_iff, allLines, otherLines_append, ← hkept]
  constructor
  · intro h
    have hfront := (List.sublist_append_left _ _).trans h
    refine ⟨hfront, ?_⟩
    by_contra hnot
    rw [not_or] at hnot
    -- one more line would have to survive than there are
    have hrest : otherLines configures [rest '\n' content] = [rest '\n' content] := by
      simp [otherLines, hnot.2]
    rw [if_neg hnot.1, hrest] at h
    have hfew : (otherLines configures ((lines '\n' content).filter (keeps locale))).Sublist
        (otherLines configures (lines '\n' content)) := List.filter_sublist.filter _
    have hlength := h.length_le.trans hfew.length_le
    rw [List.length_append, List.length_singleton] at hlength
    omega
  · rintro ⟨h, hrest⟩
    have hnone : otherLines configures (if rest '\n' content = [] then [] else [rest '\n' content]) = [] := by
      rcases hrest with hrest | hrest
      · rw [if_pos hrest]
        rfl
      · split <;> simp [otherLines, hrest]
    rw [hnone, List.append_nil]
    exact h

end OtherLines

def eth10Line : Text := "ip addr add 10.0.0.1/8 dev eth10".toList

/-- `eth1` without an end of word also finds `eth10`, which no line for that device survives. -/
theorem rewrite_deletes_eth10 :
    ¬ ∃ configures : Text → Bool, configures eth10Line = false ∧
      ∀ (locale : LcCtype) (a : Answers) (content : Text), KeepsOtherLines configures locale a content := by
  rintro ⟨configures, hother, h⟩
  have hsurvives := h .posix plainAnswers (eth10Line ++ ['\n'])
  have hnew : linesBefore (rewrite .posix plainAnswers (eth10Line ++ ['\n'])) = [] := by decide +kernel
  have hold : allLines '\n' (eth10Line ++ ['\n']) = [eth10Line] := by decide +kernel
  rw [KeepsOtherLines, hnew, hold, List.sublist_nil, otherLines, List.filter_eq_nil_iff] at hsurvives
  exact hsurvives eth10Line List.mem_cons_self (by rw [hother]; rfl)

end WorkCode.IpSettingScript
