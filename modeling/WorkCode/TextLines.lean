import Mathlib.Data.List.Basic
import Mathlib.Data.List.Flatten

/-!
# Lines and words of a text

A text is a list of characters. Cutting it at the line separator gives its complete
lines and what follows the last separator, which is empty exactly when the text ends
in one; `filterLines` is the effect of a line filter that keeps a missing final
separator missing. Words are the maximal runs of non-blank characters.
-/

namespace WorkCode.TextLines

variable {α : Type*}

section Lines

variable [DecidableEq α] (nl : α)

def lines (s : List α) : List (List α) := (s.splitOn nl).dropLast

/-- What follows the last line separator. -/
def rest (s : List α) : List α := (s.splitOn nl).getLastD []

def allLines (s : List α) : List (List α) :=
  lines nl s ++ if rest nl s = [] then [] else [rest nl s]

def unlines (ls : List (List α)) : List α := ls.flatMap (· ++ [nl])

/-- Keep the lines that satisfy `keep`, the unterminated one without a separator. -/
def filterLines (keep : List α → Bool) (s : List α) : List α :=
  unlines nl ((lines nl s).filter keep) ++ if keep (rest nl s) then rest nl s else []

omit [DecidableEq α] in
@[simp] theorem unlines_nil : unlines nl [] = [] := rfl

omit [DecidableEq α] in
@[simp] theorem unlines_append (ls ls' : List (List α)) :
    unlines nl (ls ++ ls') = unlines nl ls ++ unlines nl ls' := by
  simp [unlines]

theorem splitOn_unlines_append {ls : List (List α)} {p : List α} (hls : ∀ l ∈ ls, nl ∉ l)
    (hp : nl ∉ p) : (unlines nl ls ++ p).splitOn nl = ls ++ [p] := by
  induction ls with
  | nil => simpa using List.splitOn_eq_singleton hp
  | cons l ls ih =>
    have hl : nl ∉ l := hls l List.mem_cons_self
    have htail := ih (fun x hx => hls x (List.mem_cons_of_mem _ hx))
    have hcut : unlines nl (l :: ls) ++ p = l ++ nl :: (unlines nl ls ++ p) := by
      simp [unlines]
    rw [hcut, List.splitOn_append_cons_self_of_not_mem hl, htail, List.cons_append]

theorem lines_unlines_append {ls : List (List α)} {p : List α} (hls : ∀ l ∈ ls, nl ∉ l)
    (hp : nl ∉ p) : lines nl (unlines nl ls ++ p) = ls := by
  simp [lines, splitOn_unlines_append nl hls hp]

theorem rest_unlines_append {ls : List (List α)} {p : List α} (hls : ∀ l ∈ ls, nl ∉ l)
    (hp : nl ∉ p) : rest nl (unlines nl ls ++ p) = p := by
  simp [rest, splitOn_unlines_append nl hls hp]

theorem not_mem_of_mem_splitOn (s : List α) : ∀ l ∈ s.splitOn nl, nl ∉ l := by
  induction s with
  | nil => simp
  | cons c s ih =>
    rw [List.splitOn_cons_eq_if_modifyHead]
    by_cases hc : c = nl
    · simpa [hc] using ih
    · obtain ⟨x, xs, hx⟩ := List.exists_cons_of_ne_nil (List.splitOn_ne_nil nl s)
      rw [hx] at ih ⊢
      simpa [hc, Ne.symm hc] using ih

theorem not_mem_of_mem_lines {s l : List α} (h : l ∈ lines nl s) : nl ∉ l :=
  not_mem_of_mem_splitOn nl s l (List.dropLast_subset _ h)

theorem splitOn_eq (s : List α) : s.splitOn nl = lines nl s ++ [rest nl s] := by
  have hne := List.splitOn_ne_nil nl s
  rw [lines, rest, List.getLastD_eq_getLast?, List.getLast?_eq_some_getLast hne, Option.getD_some,
    List.dropLast_append_getLast hne]

theorem not_mem_rest (s : List α) : nl ∉ rest nl s := by
  apply not_mem_of_mem_splitOn nl s
  rw [splitOn_eq]
  simp

theorem filterLines_unlines_append (keep : List α → Bool) {ls : List (List α)} {p : List α}
    (hls : ∀ l ∈ ls, nl ∉ l) (hp : nl ∉ p) :
    filterLines nl keep (unlines nl ls ++ p) =
      unlines nl (ls.filter keep) ++ if keep p then p else [] := by
  rw [filterLines, lines_unlines_append nl hls hp, rest_unlines_append nl hls hp]

theorem filterLines_append_cons (keep : List α → Bool) {l : List α} (hl : nl ∉ l) (s : List α) :
    filterLines nl keep (l ++ nl :: s) = (if keep l then l ++ [nl] else []) ++ filterLines nl keep s := by
  have hsplit := List.splitOn_append_cons_self_of_not_mem hl s
  have hne := List.splitOn_ne_nil nl s
  have hlines : lines nl (l ++ nl :: s) = l :: lines nl s := by
    rw [lines, hsplit, List.dropLast_cons_of_ne_nil hne, lines]
  have hrest : rest nl (l ++ nl :: s) = rest nl s := by
    rw [rest, hsplit, List.getLastD_cons, rest, List.getLastD_eq_getLast?, List.getLastD_eq_getLast?,
      List.getLast?_eq_some_getLast hne]
    rfl
  rw [filterLines, hlines, hrest, filterLines, List.filter_cons]
  cases keep l with
  | true => simp [unlines]
  | false => simp

theorem filterLines_filterLines (keep keep' : List α → Bool) (s : List α) :
    filterLines nl keep' (filterLines nl keep s) =
      filterLines nl (fun l => keep l && keep' l) s := by
  have hls : ∀ l ∈ (lines nl s).filter keep, nl ∉ l :=
    fun l hl => not_mem_of_mem_lines nl (List.mem_of_mem_filter hl)
  have hrest := not_mem_rest nl s
  have hfilter : ((lines nl s).filter keep).filter keep' =
      (lines nl s).filter (fun l => keep l && keep' l) := by
    rw [List.filter_filter]
    simp only [Bool.and_comm]
  change filterLines nl keep' (unlines nl ((lines nl s).filter keep) ++
      if keep (rest nl s) then rest nl s else []) =
    unlines nl ((lines nl s).filter fun l => keep l && keep' l) ++
      if keep (rest nl s) && keep' (rest nl s) then rest nl s else []
  cases hk : keep (rest nl s) with
  | true =>
    rw [if_pos rfl, filterLines_unlines_append nl keep' hls hrest, hfilter, Bool.true_and]
  | false =>
    rw [if_neg (by simp), filterLines_unlines_append nl keep' hls (by simp), hfilter, ite_self]
    simp

theorem unlines_inj {ls ls' : List (List α)} (hls : ∀ l ∈ ls, nl ∉ l) (hls' : ∀ l ∈ ls', nl ∉ l) :
    unlines nl ls = unlines nl ls' ↔ ls = ls' := by
  constructor
  · intro h
    have hlines := lines_unlines_append nl hls List.not_mem_nil
    rw [List.append_nil, h, ← List.append_nil (unlines nl ls')] at hlines
    exact hlines.symm.trans (lines_unlines_append nl hls' List.not_mem_nil)
  · rintro rfl
    rfl

theorem allLines_unlines_append {ls : List (List α)} {p : List α} (hls : ∀ l ∈ ls, nl ∉ l)
    (hp : nl ∉ p) : allLines nl (unlines nl ls ++ p) = ls ++ if p = [] then [] else [p] := by
  rw [allLines, lines_unlines_append nl hls hp, rest_unlines_append nl hls hp]

end Lines

section Words

variable (blank : α → Bool)

def words (s : List α) : List (List α) := (s.splitOnP blank).filter (! ·.isEmpty)

end Words

end WorkCode.TextLines
