import WorkCode.IpSettingAnswers

/-!
# Repeated rewriting of the start-up script

A run removes what the runs before it appended when the delete patterns find the lines that
the script itself makes of the answers. They do unless there is a byte in such a line that is
no character for `sed`; they also find lines of other interfaces, and the two `echo` commands
continue an unterminated last line.
-/

namespace WorkCode.IpSettingScript

open TextLines RepeatPattern Locales

section Lines

variable (locale : LcCtype)

def keeps (l : Text) : Bool := !finds locale addressPattern l && !finds locale routePattern l

def ownLines (a : Answers) : List Text := [addressLine a, routeLine a]

/-- Each of the two lines that are made of the answers is found by one of the patterns. -/
def Found (a : Answers) : Prop := ∀ l ∈ ownLines a, keeps locale l = false

theorem finds_addressLine {a : Answers} (h : locale.decode (addressLine a) = plain (addressLine a)) :
    finds locale addressPattern (addressLine a) = true := by
  rw [finds, h]
  apply (search_literal_anything_literal _ _ _ _).mpr
  refine ⟨[], plain (a.sensorIp.val ++ '/' :: Nat.toDigits 10 a.bitNetmask), [], ?_, all_plain _⟩
  simp [addressLine, plain]

theorem finds_routeLine {a : Answers} (h : locale.decode (routeLine a) = plain (routeLine a)) :
    finds locale routePattern (routeLine a) = true := by
  rw [finds, h]
  apply (search_literal_anything_literal _ _ _ _).mpr
  refine ⟨[], plain a.sensorGw.val, [], ?_, all_plain _⟩
  simp [routeLine, plain]

theorem found_of_plain {a : Answers} (h : ∀ l ∈ ownLines a, locale.decode l = plain l) : Found locale a := by
  have haddress := finds_addressLine locale (h _ List.mem_cons_self)
  have hroute := finds_routeLine locale (h _ (List.mem_cons_of_mem _ List.mem_cons_self))
  intro l hl
  simp only [ownLines, List.mem_cons, List.not_mem_nil, or_false] at hl
  rcases hl with rfl | rfl
  · simp [keeps, haddress]
  · simp [keeps, hroute]

theorem found_posix (a : Answers) : Found .posix a := found_of_plain .posix fun _ _ => rfl

theorem found_of_printable {a : Answers} (hip : ∀ c ∈ a.sensorIp.val, printable c = true)
    (hgw : ∀ c ∈ a.sensorGw.val, printable c = true) : Found locale a := by
  have hadd : ∀ c ∈ ipAddrAdd, printable c = true := List.all_eq_true.mp (by decide +kernel)
  have hroute : ∀ c ∈ ipRouteAdd, printable c = true := List.all_eq_true.mp (by decide +kernel)
  have hdev : ∀ c ∈ devEth1, printable c = true := List.all_eq_true.mp (by decide +kernel)
  have hdigits : ∀ c ∈ Nat.toDigits 10 a.bitNetmask, printable c = true := by
    intro c hc
    exact printable_of_isDigit (Nat.isDigit_of_mem_toDigits (by omega) (by omega) hc)
  apply found_of_plain
  intro l hl
  apply locale.decode_printable
  simp only [ownLines, List.mem_cons, List.not_mem_nil, or_false] at hl
  intro c hc
  rcases hl with rfl | rfl
  · simp only [addressLine, List.mem_append, List.mem_cons] at hc
    rcases hc with ((hc | hc) | rfl | hc) | hc
    · exact hadd c hc
    · exact hip c hc
    · rfl
    · exact hdigits c hc
    · exact hdev c hc
  · simp only [routeLine, List.mem_append] at hc
    rcases hc with (hc | hc) | hc
    · exact hroute c hc
    · exact hgw c hc
    · exact hdev c hc

theorem filter_keeps_ownLines_eq_nil_iff (a : Answers) :
    (ownLines a).filter (keeps locale) = [] ↔ Found locale a := by
  simp only [List.filter_eq_nil_iff, Found, Bool.not_eq_true]

end Lines

section Runs

variable (locale : LcCtype)

theorem appended_eq (a : Answers) : appended a = unlines '\n' (ownLines a) := by
  simp [appended, unlines, ownLines]

theorem rewrite_eq (a : Answers) (content : Text) :
    rewrite locale a content = filterLines '\n' (keeps locale) content ++ appended a := by
  rw [rewrite]
  simp only [sedDelete]
  rw [filterLines_filterLines]
  rfl

theorem rewrite_unlines (a : Answers) {ls : List Text} (hls : ∀ l ∈ ls, '\n' ∉ l) :
    rewrite locale a (unlines '\n' ls) = unlines '\n' (ls.filter (keeps locale) ++ ownLines a) := by
  have hfilter := filterLines_unlines_append '\n' (keeps locale) hls List.not_mem_nil
  rw [List.append_nil, ite_self, List.append_nil] at hfilter
  rw [rewrite_eq, hfilter, appended_eq, unlines_append]

theorem filter_keeps_rewritten (a : Answers) (ls : List Text) :
    (ls.filter (keeps locale) ++ ownLines a).filter (keeps locale) =
      ls.filter (keeps locale) ++ (ownLines a).filter (keeps locale) := by
  rw [List.filter_append, List.filter_filter]
  simp only [Bool.and_self]

/-- What a run writes after an unterminated text `p` is lines again. -/
theorem not_mem_joined (a : Answers) {ls : List Text} (hls : ∀ l ∈ ls, '\n' ∉ l) {p : Text}
    (hp : '\n' ∉ p) : ∀ l ∈ ls.filter (keeps locale) ++ [p ++ addressLine a, routeLine a], '\n' ∉ l := by
  intro l hl
  rcases List.mem_append.mp hl with hl | hl
  · exact hls l (List.mem_of_mem_filter hl)
  · simp only [List.mem_cons, List.not_mem_nil, or_false] at hl
    rcases hl with rfl | rfl
    · rw [List.mem_append, not_or]
      exact ⟨hp, not_mem_addressLine a⟩
    · exact not_mem_routeLine a

theorem not_mem_rewritten (a : Answers) {ls : List Text} (hls : ∀ l ∈ ls, '\n' ∉ l) :
    ∀ l ∈ ls.filter (keeps locale) ++ ownLines a, '\n' ∉ l :=
  not_mem_joined locale a hls (p := []) List.not_mem_nil

/-- What any number of runs leaves: the lines that are not deleted are the initial ones and
those of the runs that no pattern finds. -/
theorem foldl_rewrite_unlines (runs : List Answers) {ls : List Text} (hls : ∀ l ∈ ls, '\n' ∉ l) :
    ∃ ls', (∀ l ∈ ls', '\n' ∉ l) ∧ ls'.filter (keeps locale) = ls.filter (keeps locale) ++
        runs.flatMap (fun a => (ownLines a).filter (keeps locale)) ∧
      runs.foldl (fun content a => rewrite locale a content) (unlines '\n' ls) = unlines '\n' ls' := by
  induction runs generalizing ls with
  | nil => exact ⟨ls, hls, (List.append_nil _).symm, rfl⟩
  | cons a runs ih =>
    obtain ⟨ls', hls', hkept, hfold⟩ := ih (not_mem_rewritten locale a hls)
    refine ⟨ls', hls', ?_, ?_⟩
    · rw [hkept, filter_keeps_rewritten, List.flatMap_cons, List.append_assoc]
    · rw [List.foldl_cons, rewrite_unlines locale a hls, hfold]

/-- Running again with the same answers changes nothing if and only if the patterns find them. -/
theorem rewrite_rewritten_iff (a : Answers) {ls : List Text} (hls : ∀ l ∈ ls, '\n' ∉ l) :
    rewrite locale a (unlines '\n' (ls.filter (keeps locale) ++ ownLines a)) =
      unlines '\n' (ls.filter (keeps locale) ++ ownLines a) ↔ Found locale a := by
  have hown := not_mem_rewritten locale a hls
  have hagain := not_mem_rewritten locale a hown
  rw [rewrite_unlines locale a hown, unlines_inj '\n' hagain hown, List.append_left_inj, filter_keeps_rewritten,
    List.append_right_eq_self, filter_keeps_ownLines_eq_nil_iff]

/-- After any runs, the file is the initial lines that match neither pattern and the two lines of
the last run, and running again with the same answers does not change it, if and only if the
patterns find the lines of every run. -/
theorem foldl_rewrite_iff (initial : List Line) (runs : List Answers) (last : Answers) :
    let content := unlines '\n' (initial.map Subtype.val)
    let file := (runs ++ [last]).foldl (fun content a => rewrite locale a content) content
    (file = unlines '\n' ((initial.map Subtype.val).filter (keeps locale) ++ [addressLine last, routeLine last]) ∧
        rewrite locale last file = file) ↔
      ∀ a ∈ runs ++ [last], Found locale a := by
  have hinitial : ∀ l ∈ initial.map Subtype.val, '\n' ∉ l := by
    intro l hl
    obtain ⟨line, -, rfl⟩ := List.mem_map.mp hl
    exact line.property
  obtain ⟨ls, hls, hkept, hfold⟩ := foldl_rewrite_unlines locale runs hinitial
  have hfile : (runs ++ [last]).foldl (fun content a => rewrite locale a content)
      (unlines '\n' (initial.map Subtype.val)) = unlines '\n' (ls.filter (keeps locale) ++ ownLines last) := by
    rw [List.foldl_append, hfold, List.foldl_cons, List.foldl_nil, rewrite_unlines locale last hls]
  have hlast : [addressLine last, routeLine last] = ownLines last := rfl
  have hleft : runs.flatMap (fun a => (ownLines a).filter (keeps locale)) = [] ↔ ∀ a ∈ runs, Found locale a := by
    simp only [List.flatMap_eq_nil_iff, filter_keeps_ownLines_eq_nil_iff]
  dsimp only
  rw [hfile, hlast, rewrite_rewritten_iff locale last hls, List.forall_mem_append, List.forall_mem_singleton, ← hleft]
  apply and_congr_left'
  rw [unlines_inj '\n' (not_mem_rewritten locale last hls) (not_mem_rewritten locale last hinitial),
    List.append_left_inj, hkept, List.append_right_eq_self]

end Runs

def plainAnswers : Answers :=
  ⟨⟨"10.51.49.7".toList, by decide +kernel⟩, 24, ⟨"10.51.49.1".toList, by decide +kernel⟩⟩

def utf8Shell : Shell := { plainShell with locale := .utf8 }

/-- A byte that no character has stands behind the first word of the sensor IP. -/
def strayInput : Text := "10.51.49.7 \xff\n255.255.255.0\n10.51.49.1\n".toList

def strayAnswers : Answers := (prompts utf8Shell strayInput).get (by decide +kernel)

/-- The address line of the first run survives the second one. -/
theorem strayAnswers_not_replaced :
    ¬ ∀ (sh : Shell) (initial : List Line) (runs : List Answers) (last : Answers),
      (∀ a ∈ runs ++ [last], ∃ stdin, prompts sh stdin = some a) →
      let content := unlines '\n' (initial.map Subtype.val)
      let file := (runs ++ [last]).foldl (fun content a => rewrite sh.locale a content) content
      file = unlines '\n' ((initial.map Subtype.val).filter (keeps sh.locale) ++
        [addressLine last, routeLine last]) ∧ rewrite sh.locale last file = file := by
  intro h
  have haccepted : ∀ a ∈ [strayAnswers] ++ [strayAnswers], ∃ stdin, prompts utf8Shell stdin = some a := by
    intro a ha
    have heq : a = strayAnswers := by simpa using ha
    rw [heq]
    exact ⟨strayInput, (Option.some_get _).symm⟩
  have hfail := (h utf8Shell [] [strayAnswers] strayAnswers haccepted).1
  revert hfail
  decide +kernel

end WorkCode.IpSettingScript
