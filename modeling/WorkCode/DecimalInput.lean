import Mathlib.Data.List.TakeWhile
import Mathlib.Data.Int.Notation

/-!
# Decimal numbers at the start of an input

The conversion `%d` of the `scanf` family: white space is skipped, a sign may follow, and
then as many digits as there are. The number itself is not bounded here. `StartsWith` says
what such an input looks like, `scanInt` reads it.
-/

namespace WorkCode.DecimalInput

/-- `isspace` in the C locale. -/
def isSpace (c : Char) : Bool := c = ' ' || '\t' ≤ c && c ≤ '\r'

def decimal (digits : List Char) : ℕ := digits.foldl (fun n c => 10 * n + (c.toNat - '0'.toNat)) 0

def scanNat (text : List Char) : Option ℕ :=
  match text.takeWhile Char.isDigit with
  | [] => none
  | digits => some (decimal digits)

def scanSigned : List Char → Option ℤ
  | [] => none
  | c :: rest =>
    if c = '-' then (scanNat rest).map (fun n : ℕ => -(n : ℤ))
    else if c = '+' then (scanNat rest).map (fun n : ℕ => (n : ℤ))
    else (scanNat (c :: rest)).map (fun n : ℕ => (n : ℤ))

/-- What `%d` converts, if it converts anything. -/
def scanInt (text : List Char) : Option ℤ := scanSigned (text.dropWhile isSpace)

/-- A text that begins with `digits` and no further digit. -/
structure Digits (text digits : List Char) : Prop where
  nonempty : digits ≠ []
  isDigit : ∀ c ∈ digits, c.isDigit = true
  maximal : ∃ rest, text = digits ++ rest ∧ ∀ c ∈ rest.head?, c.isDigit = false

/-- A text that starts with the number `k`, behind white space and with or without a sign. -/
inductive StartsWith : List Char → ℤ → Prop
  | blank {c : Char} {text : List Char} {k : ℤ} (hc : isSpace c = true) (h : StartsWith text k) :
      StartsWith (c :: text) k
  | unsigned {text digits : List Char} (h : Digits text digits) : StartsWith text (decimal digits)
  | plus {text digits : List Char} (h : Digits text digits) : StartsWith ('+' :: text) (decimal digits)
  | minus {text digits : List Char} (h : Digits text digits) :
      StartsWith ('-' :: text) (-(decimal digits : ℤ))

theorem Digits.takeWhile_eq {text digits : List Char} (h : Digits text digits) :
    text.takeWhile Char.isDigit = digits := by
  obtain ⟨rest, rfl, hrest⟩ := h.maximal
  have hstop : rest.takeWhile Char.isDigit = [] := by
    cases rest with
    | nil => rfl
    | cons c rest => exact List.takeWhile_cons_of_neg (by simp [hrest c rfl])
  rw [List.takeWhile_append_of_pos h.isDigit, hstop, List.append_nil]

theorem scanNat_eq_some_iff {text : List Char} {n : ℕ} :
    scanNat text = some n ↔ ∃ digits, Digits text digits ∧ decimal digits = n := by
  constructor
  · intro h
    rw [scanNat] at h
    split at h
    · contradiction
    · rename_i digits hne
      refine ⟨text.takeWhile Char.isDigit, ⟨hne, ?_, ?_⟩, Option.some.inj h⟩
      · intro c hc
        exact List.mem_takeWhile_imp hc
      · refine ⟨text.dropWhile Char.isDigit, List.takeWhile_append_dropWhile.symm, ?_⟩
        intro c hc
        have hhead := List.head?_dropWhile_not Char.isDigit text
        rw [Option.mem_def.mp hc] at hhead
        simpa using hhead
  · intro h
    obtain ⟨digits, h, rfl⟩ := h
    have htake := h.takeWhile_eq
    rw [scanNat, htake]
    cases digits with
    | nil => exact absurd rfl h.nonempty
    | cons c digits => rfl

theorem scanNat_eq {text digits : List Char} (h : Digits text digits) :
    scanNat text = some (decimal digits) := scanNat_eq_some_iff.mpr ⟨digits, h, rfl⟩

theorem isDigit_not_space {c : Char} (hc : c.isDigit = true) :
    isSpace c = false ∧ c ≠ '-' ∧ c ≠ '+' := by
  have hne : ∀ d : Char, d.isDigit = false → c ≠ d := by
    intro d hd heq
    rw [heq, hd] at hc
    contradiction
  have hlow : '0' ≤ c := by
    rw [Char.isDigit, Bool.and_eq_true, decide_eq_true_eq, decide_eq_true_eq] at hc
    exact hc.1
  refine ⟨?_, hne '-' rfl, hne '+' rfl⟩
  have habove : ¬ c ≤ '\r' := by
    intro hle
    exact absurd (Char.le_trans hlow hle) (by decide)
  simp [isSpace, hne ' ' rfl, habove]

theorem startsWith_of_scanSigned {text : List Char} {k : ℤ} (h : scanSigned text = some k) :
    StartsWith text k := by
  have digits : ∀ {rest : List Char} {n : ℕ}, scanNat rest = some n →
      ∃ ds, Digits rest ds ∧ decimal ds = n := scanNat_eq_some_iff.mp
  cases text with
  | nil => contradiction
  | cons c rest =>
    rw [scanSigned] at h
    split at h
    · rename_i hc
      obtain ⟨n, hn, rfl⟩ := Option.map_eq_some_iff.mp h
      obtain ⟨ds, hds, rfl⟩ := digits hn
      exact hc ▸ .minus hds
    · split at h
      · rename_i hc
        obtain ⟨n, hn, rfl⟩ := Option.map_eq_some_iff.mp h
        obtain ⟨ds, hds, rfl⟩ := digits hn
        exact hc ▸ .plus hds
      · obtain ⟨n, hn, rfl⟩ := Option.map_eq_some_iff.mp h
        obtain ⟨ds, hds, rfl⟩ := digits hn
        exact .unsigned hds

/-- `%d` converts `k` exactly from the texts that start with it. -/
theorem scanInt_eq_some_iff {text : List Char} {k : ℤ} :
    scanInt text = some k ↔ StartsWith text k := by
  constructor
  · intro h
    induction text with
    | nil => contradiction
    | cons c text ih =>
      by_cases hc : isSpace c = true
      · rw [scanInt, List.dropWhile_cons_of_pos hc] at h
        exact .blank hc (ih h)
      · rw [scanInt, List.dropWhile_cons_of_neg hc] at h
        exact startsWith_of_scanSigned h
  · intro h
    induction h with
    | blank hc h ih => rwa [scanInt, List.dropWhile_cons_of_pos hc]
    | @unsigned text ds h =>
      obtain ⟨rest, htext, -⟩ := h.maximal
      cases ds with
      | nil => exact absurd rfl h.nonempty
      | cons c ds =>
        obtain ⟨hspace, hminus, hplus⟩ := isDigit_not_space (h.isDigit c List.mem_cons_self)
        have hscan := scanNat_eq h
        rw [htext, List.cons_append] at hscan ⊢
        rw [scanInt, List.dropWhile_cons_of_neg (by simp [hspace]), scanSigned, if_neg hminus,
          if_neg hplus, hscan]
        rfl
    | plus h =>
      have hscan := scanNat_eq h
      change (scanNat _).map _ = _
      rw [hscan]
      rfl
    | minus h =>
      have hscan := scanNat_eq h
      change (scanNat _).map _ = _
      rw [hscan]
      rfl

theorem StartsWith.unique {text : List Char} {j k : ℤ} (hj : StartsWith text j)
    (hk : StartsWith text k) : j = k := by
  rw [← scanInt_eq_some_iff] at hj hk
  exact Option.some.inj (hj.symm.trans hk)

end WorkCode.DecimalInput
