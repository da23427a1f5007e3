import WorkCode.DecimalInput
import Mathlib.Algebra.Ring.Int.Defs
import Mathlib.Data.List.Basic

/-!
# Choosing a capture device in `filter.c`

`main` lists the devices with numbers from 1 on, asks for one of the numbers and walks the
list to the device. What `scanf` returns is not looked at: when it converts nothing, the
range check reads an `inum` that was never set.
-/

namespace WorkCode.DeviceSelection

open DecimalInput

abbrev Text := List Char

/-- What a `pcap_if_t` shows; its `next` is the rest of the list. -/
structure Device where
  name : Text
  description : Option Text
deriving DecidableEq

/-- What the program prints and the calls it makes, in order. -/
inductive Event
  /-- A line `"%d. %s"` with `++i` and `d->name`, and the description behind it. -/
  | listed (i : ℤ) (d : Device)
  | findError
  | noInterfaces
  | prompt (i : ℤ)
  | outOfRange
  /-- `pcap_open_live(d->name, 65536, 1, 1000, errbuf)`. -/
  | openLive (d : Device)
  | unable (d : Device)
  | listening (d : Device)
  | wrongSyntax
  | filterError
  | freeAllDevs
  | loop
  | close
  | exit (status : ℤ)
deriving DecidableEq

/-- The results of the calls behind the selection: whether the device could be opened, and
what `pcap_compile` and `pcap_setfilter` return. -/
structure Pcap where
  openLive : Device → Bool
  compile : ℤ
  setfilter : ℤ

/-- What the program finds in `inum` without having put it there: the old contents of the
variable, and what `scanf` stores for a number that is no `int`. -/
structure Unset where
  inum : BitVec 32
  tooLarge : ℤ → BitVec 32

/-- `INT_MAX`; `++i` is undefined there. -/
def intMax : ℤ := 2 ^ 31 - 1

def IsInt (k : ℤ) : Prop := -2 ^ 31 ≤ k ∧ k ≤ intMax

instance (k : ℤ) : Decidable (IsInt k) := inferInstanceAs (Decidable (_ ∧ _))

def inumAfter (u : Unset) (text : Text) : BitVec 32 :=
  match scanInt text with
  | some k => if IsInt k then BitVec.ofInt 32 k else u.tooLarge k
  | none => u.inum

/-- `for(d=alldevs; d; d=d->next)`: the lines printed, and `i` afterwards. -/
def listing : List Device → ℤ → Option (List Event × ℤ)
  | [], i => some ([], i)
  | d :: next, i =>
    if i = intMax then none
    else (listing next (i + 1)).map (fun p => (.listed (i + 1) d :: p.1, p.2))

/-- `for(d=alldevs, i=0; i< inum-1 ;d=d->next, i++);` with the `NULL` behind the last device
as the empty list, which has no `next`. -/
def select (inum : ℤ) : List Device → ℤ → Option (List Device)
  | [], i => if i < inum - 1 then none else some []
  | d :: next, i => if i < inum - 1 then select inum next (i + 1) else some (d :: next)

def capture (pcap : Pcap) (d : Device) : List Event :=
  .openLive d ::
  if pcap.openLive d = false then [.unable d, .freeAllDevs, .exit (-1)]
  else .listening d ::
    if pcap.compile < 0 then [.wrongSyntax, .close, .exit (-3)]
    else if pcap.setfilter < 0 then [.filterError, .close, .exit (-4)]
    else [.freeAllDevs, .loop, .close, .exit 0]

/-- `main`, on the list that `pcap_findalldevs` returns, if it does, and the text typed at
the prompt; `none` when a step has no defined behaviour. -/
def main (pcap : Pcap) (alldevs : Option (List Device)) (u : Unset) (text : Text) :
    Option (List Event) :=
  match alldevs with
  | none => some [.findError, .exit 1]
  | some alldevs =>
    match listing alldevs 0 with
    | none => none
    | some (lines, i) =>
      if i = 0 then some (lines ++ [.noInterfaces, .exit (-1)])
      else
        let inum := (inumAfter u text).toInt
        if inum < 1 ∨ inum > i then
          some (lines ++ [.prompt i, .outOfRange, .freeAllDevs, .exit (-1)])
        else
          match select inum alldevs 0 with
          | some (d :: _) => some (lines ++ .prompt i :: capture pcap d)
          | _ => none

def InList (n : ℕ) (k : ℤ) : Prop := 1 ≤ k ∧ k ≤ n

/-- A device is opened only if the text starts with the number that this device, and no
other, was listed with; every other text typed at the prompt ends the program with the
list freed. -/
structure SelectsRight (devs : List Device) (text : Text) (trace : List Event) : Prop where
  opened : ∀ d, .openLive d ∈ trace →
    ∃ k, StartsWith text k ∧ InList devs.length k ∧ ∀ d', .listed k d' ∈ trace ↔ d' = d
  rejected : ∀ i, .prompt i ∈ trace → (¬ ∃ k, StartsWith text k ∧ InList devs.length k) →
    (∀ d, .openLive d ∉ trace) ∧ [.freeAllDevs, .exit (-1)] <:+ trace

/-- Whatever is in `inum` without having been typed is not the number of a device. -/
def Harmless (u : Unset) (text : Text) (n : ℕ) : Prop :=
  match scanInt text with
  | some k => IsInt k ∨ ¬ InList n (u.tooLarge k).toInt
  | none => ¬ InList n u.inum.toInt

theorem intMax_eq : intMax = 2147483647 := by decide

def lines (devs : List Device) (i : ℕ) : List Event :=
  (devs.zipIdx i).map (fun p => .listed (p.2 + 1) p.1)

theorem listing_eq {devs : List Device} {i : ℕ} (h : i + devs.length ≤ intMax) :
    listing devs i = some (lines devs i, (i : ℤ) + devs.length) := by
  induction devs generalizing i with
  | nil => simp [listing, lines]
  | cons d next ih =>
    rw [List.length_cons] at h
    have hrest := ih (i := i + 1) (by omega)
    rw [Int.natCast_succ] at hrest
    rw [listing, if_neg (by omega), hrest]
    simp [lines, List.zipIdx_cons]
    omega

theorem listing_eq_none {devs : List Device} {i : ℕ} (hi : i ≤ intMax)
    (h : intMax < i + devs.length) : listing devs i = none := by
  induction devs generalizing i with
  | nil =>
    rw [List.length_nil] at h
    omega
  | cons d next ih =>
    rw [List.length_cons] at h
    rw [listing]
    split
    · rfl
    · have hrest := ih (i := i + 1) (by omega) (by omega)
      rw [Int.natCast_succ] at hrest
      rw [hrest]
      rfl

theorem select_eq {inum i : ℤ} {devs : List Device} (h : inum - 1 - i ≤ devs.length) :
    select inum devs i = some (devs.drop (inum - 1 - i).toNat) := by
  induction devs generalizing i with
  | nil =>
    rw [List.length_nil] at h
    rw [select, if_neg (by omega), List.drop_nil]
  | cons d next ih =>
    rw [List.length_cons] at h
    rw [select]
    split
    · rw [ih (by omega), show (inum - 1 - i).toNat = (inum - 1 - (i + 1)).toNat + 1 by omega,
        List.drop_succ_cons]
    · rw [show (inum - 1 - i).toNat = 0 by omega, List.drop_zero]

theorem listed_mem_lines {devs : List Device} {k : ℤ} {d : Device} :
    .listed k d ∈ lines devs 0 ↔ ∃ j : ℕ, devs[j]? = some d ∧ (j : ℤ) + 1 = k := by
  rw [lines, List.mem_map]
  constructor
  · intro h
    obtain ⟨⟨d', j⟩, hp, heq⟩ := h
    obtain ⟨hk, rfl⟩ := Event.listed.inj heq
    exact ⟨j, List.mk_mem_zipIdx_iff_getElem?.mp hp, hk⟩
  · intro h
    obtain ⟨j, hd, rfl⟩ := h
    exact ⟨(d, j), List.mk_mem_zipIdx_iff_getElem?.mpr hd, rfl⟩

/-- Nothing but lines is printed before the prompt. -/
theorem listed_of_mem_lines {devs : List Device} {i : ℕ} {e : Event} (he : e ∈ lines devs i) :
    ∃ k d, e = .listed k d := by
  obtain ⟨p, -, rfl⟩ := List.mem_map.mp he
  exact ⟨_, _, rfl⟩

def OfChoice (d : Device) : Event → Prop
  | .listed _ _ => False
  | .prompt _ => False
  | .openLive d' => d' = d
  | _ => True

theorem ofChoice_of_mem_capture {pcap : Pcap} {d : Device} : ∀ e ∈ capture pcap d, OfChoice d e := by
  rw [capture]
  split_ifs
  all_goals simp [OfChoice]

theorem toInt_inumAfter {u : Unset} {text : Text} {k : ℤ} (h : StartsWith text k) (hk : IsInt k) :
    (inumAfter u text).toInt = k := by
  have hmax := intMax_eq
  have hle := hk.2
  rw [inumAfter, scanInt_eq_some_iff.mpr h]
  simp only [hk, if_true]
  apply BitVec.toInt_ofInt_eq_self (by omega) hk.1
  omega

theorem isInt_of_inList {n : ℕ} {k : ℤ} (hn : n ≤ intMax) (h : InList n k) : IsInt k := by
  obtain ⟨hlow, hhigh⟩ := h
  constructor
  · omega
  · omega

theorem harmless_iff {u : Unset} {text : Text} {n : ℕ} (hn : n ≤ intMax) :
    Harmless u text n ↔
      (InList n (inumAfter u text).toInt → StartsWith text (inumAfter u text).toInt) := by
  cases hscan : scanInt text with
  | none => simp [Harmless, inumAfter, ← scanInt_eq_some_iff, hscan]
  | some k =>
    have hstarts := scanInt_eq_some_iff.mp hscan
    by_cases hk : IsInt k
    · rw [toInt_inumAfter hstarts hk]
      simp [Harmless, hscan, hk, hstarts]
    · have hother : StartsWith text (u.tooLarge k).toInt → ¬ InList n (u.tooLarge k).toInt := by
        intro h hin
        rw [h.unique hstarts] at hin
        exact hk (isInt_of_inList hn hin)
      simp only [Harmless, inumAfter, hscan, hk, false_or, if_false]
      exact ⟨fun h hin => absurd hin h, fun h hin => hother (h hin) hin⟩

section Runs

variable (pcap : Pcap) {devs : List Device} {u : Unset} {text : Text}

theorem listing_devs (hlen : devs.length ≤ intMax) :
    listing devs 0 = some (lines devs 0, (devs.length : ℤ)) := by
  have h := @listing_eq devs 0 (by omega)
  rwa [Int.natCast_zero, Int.zero_add] at h

theorem main_undefined (h : intMax < devs.length) : main pcap (some devs) u text = none := by
  have hlisting : listing devs ((0 : ℕ) : ℤ) = none :=
    listing_eq_none (by rw [intMax_eq]; omega) (by omega)
  rw [Int.natCast_zero] at hlisting
  simp only [main, hlisting]

theorem main_empty : main pcap (some []) u text = some [.noInterfaces, .exit (-1)] := rfl

theorem main_rejects (hlen : devs.length ≤ intMax) (hne : devs ≠ [])
    (hout : ¬ InList devs.length (inumAfter u text).toInt) :
    main pcap (some devs) u text = some (lines devs 0 ++
      [.prompt devs.length, .outOfRange, .freeAllDevs, .exit (-1)]) := by
  have hpos := List.length_pos_iff.mpr hne
  rw [InList] at hout
  have hrange : (inumAfter u text).toInt < 1 ∨ (inumAfter u text).toInt > devs.length := by omega
  simp only [main, listing_devs hlen]
  rw [if_neg (by omega), if_pos hrange]

theorem main_opens (hlen : devs.length ≤ intMax) {j : ℕ} {d : Device} (hd : devs[j]? = some d)
    (hj : (inumAfter u text).toInt = j + 1) :
    main pcap (some devs) u text =
      some (lines devs 0 ++ .prompt devs.length :: capture pcap d) := by
  obtain ⟨hlt, hget⟩ := List.getElem?_eq_some_iff.mp hd
  have hselect : select (j + 1) devs 0 = some (d :: devs.drop (j + 1)) := by
    rw [select_eq (by omega), show ((j : ℤ) + 1 - 1 - 0).toNat = j by omega,
      List.drop_eq_getElem_cons hlt, hget]
  simp only [main, listing_devs hlen, hj, hselect]
  rw [if_neg (by omega), if_neg (by omega)]

theorem main_cases (hlen : devs.length ≤ intMax) :
    (devs = [] ∧ main pcap (some devs) u text = some [.noInterfaces, .exit (-1)]) ∨
    (¬ InList devs.length (inumAfter u text).toInt ∧
      main pcap (some devs) u text = some (lines devs 0 ++
        [.prompt devs.length, .outOfRange, .freeAllDevs, .exit (-1)])) ∨
    ∃ (j : ℕ) (d : Device), devs[j]? = some d ∧ (inumAfter u text).toInt = j + 1 ∧
      main pcap (some devs) u text =
        some (lines devs 0 ++ .prompt devs.length :: capture pcap d) := by
  by_cases hin : InList devs.length (inumAfter u text).toInt
  · obtain ⟨hlow, hhigh⟩ := hin
    obtain ⟨j, hj⟩ := Int.eq_ofNat_of_zero_le (Int.sub_nonneg_of_le hlow)
    have hinum : (inumAfter u text).toInt = j + 1 := by omega
    have hd : devs[j]? = some devs[j] := List.getElem?_eq_getElem (by omega)
    exact Or.inr (Or.inr ⟨j, devs[j], hd, hinum, main_opens pcap hlen hd hinum⟩)
  · by_cases hne : devs = []
    · subst hne
      exact Or.inl ⟨rfl, main_empty pcap⟩
    · exact Or.inr (Or.inl ⟨hin, main_rejects pcap hlen hne hin⟩)

theorem main_eq_none_iff : main pcap (some devs) u text = none ↔ intMax < devs.length := by
  constructor
  · intro hnone
    by_contra hlen
    rcases @main_cases pcap devs u text (by omega) with ⟨-, h⟩ | ⟨-, h⟩ | ⟨j, d, -, -, h⟩
    all_goals
      rw [h] at hnone
      contradiction
  · intro h
    exact main_undefined pcap h

theorem selectsRight_empty (text : Text) : SelectsRight [] text [.noInterfaces, .exit (-1)] := by
  constructor
  · simp
  · simp

theorem selectsRight_rejected (devs : List Device) (text : Text) (i : ℤ) :
    SelectsRight devs text (lines devs 0 ++ [.prompt i, .outOfRange, .freeAllDevs, .exit (-1)]) := by
  have hclosed : ∀ d, .openLive d ∉
      lines devs 0 ++ [.prompt i, .outOfRange, .freeAllDevs, .exit (-1)] := by
    intro d hd
    rcases List.mem_append.mp hd with hline | hrest
    · obtain ⟨k, d', heq⟩ := listed_of_mem_lines hline
      contradiction
    · simp at hrest
  constructor
  · intro d hd
    exact absurd hd (hclosed d)
  · intro j hj hnone
    refine ⟨hclosed, lines devs 0 ++ [.prompt i, .outOfRange], ?_⟩
    rw [List.append_assoc]
    rfl

theorem selectsRight_opened_iff (hlen : devs.length ≤ intMax) {j : ℕ} {d : Device}
    (hd : devs[j]? = some d) (hj : (inumAfter u text).toInt = j + 1) :
    SelectsRight devs text (lines devs 0 ++ .prompt devs.length :: capture pcap d) ↔
      StartsWith text (j + 1) := by
  obtain ⟨hlt, -⟩ := List.getElem?_eq_some_iff.mp hd
  have hin : InList devs.length (j + 1) := ⟨by omega, by omega⟩
  constructor
  · intro h
    obtain ⟨k, hstarts, hk, -⟩ := h.opened d (List.mem_append_right _
      (List.mem_cons_of_mem _ List.mem_cons_self))
    rw [← hj, toInt_inumAfter hstarts (isInt_of_inList hlen hk)]
    exact hstarts
  · intro hstarts
    have behind : ∀ e ∈ lines devs 0 ++ .prompt devs.length :: capture pcap d,
        e ∈ lines devs 0 ∨ e = .prompt devs.length ∨ e ∈ capture pcap d := by
      intro e he
      rwa [List.mem_append, List.mem_cons] at he
    constructor
    · intro d' hd'
      have hsame : d' = d := by
        rcases behind _ hd' with hline | heq | hrest
        · obtain ⟨k, x, heq⟩ := listed_of_mem_lines hline
          contradiction
        · contradiction
        · exact ofChoice_of_mem_capture _ hrest
      refine ⟨j + 1, hstarts, hin, ?_⟩
      intro x
      rw [hsame]
      constructor
      · intro hx
        rcases behind _ hx with hline | heq | hrest
        · obtain ⟨j', hx', hj'⟩ := listed_mem_lines.mp hline
          rw [show j' = j by omega, hd] at hx'
          exact (Option.some.inj hx').symm
        · contradiction
        · exact absurd (ofChoice_of_mem_capture _ hrest) id
      · intro hx
        rw [hx]
        exact List.mem_append_left _ (listed_mem_lines.mpr ⟨j, hd, rfl⟩)
    · intro i hi hnone
      exact absurd ⟨_, hstarts, hin⟩ hnone

end Runs

/-- `main` selects rightly exactly on lists that the counter can number, and unless a value
that was never typed is the number of a device. -/
theorem main_selects_iff (pcap : Pcap) (devs : List Device) (u : Unset) (text : Text) :
    (∃ trace, main pcap (some devs) u text = some trace ∧ SelectsRight devs text trace) ↔
      devs.length ≤ intMax ∧ Harmless u text devs.length := by
  by_cases hlen : (devs.length : ℤ) ≤ intMax
  · have only : ∀ {trace}, main pcap (some devs) u text = some trace →
        ((∃ t, main pcap (some devs) u text = some t ∧ SelectsRight devs text t) ↔
          SelectsRight devs text trace) := by
      intro trace htrace
      rw [htrace]
      simp
    rw [harmless_iff hlen]
    rcases @main_cases pcap devs u text hlen with ⟨rfl, h⟩ | ⟨hout, h⟩ | ⟨j, d, hd, hj, h⟩
    · have hempty : ¬ InList ([] : List Device).length (inumAfter u text).toInt := by
        rw [InList, List.length_nil]
        omega
      rw [only h]
      exact ⟨fun _ => ⟨hlen, fun hin => absurd hin hempty⟩, fun _ => selectsRight_empty text⟩
    · rw [only h]
      exact ⟨fun _ => ⟨hlen, fun hin => absurd hin hout⟩, fun _ => selectsRight_rejected devs text _⟩
    · -- the device with the number in `inum` is opened, wherever the number comes from
      obtain ⟨hlt, -⟩ := List.getElem?_eq_some_iff.mp hd
      rw [only h, selectsRight_opened_iff pcap hlen hd hj, hj]
      exact ⟨fun hstarts => ⟨hlen, fun _ => hstarts⟩, fun hboth => hboth.2 ⟨by omega, by omega⟩⟩
  · rw [main_undefined pcap (by omega)]
    simp [hlen]

/-- One device, the input `x`, and a one where `inum` happens to lie: the device is opened. -/
theorem main_opens_unasked : ¬ ∃ trace,
    main ⟨fun _ => true, 0, 0⟩ (some [⟨['e', 't', 'h', '0'], none⟩]) ⟨1, fun _ => 0⟩ ['x', '\n'] =
      some trace ∧ SelectsRight [⟨['e', 't', 'h', '0'], none⟩] ['x', '\n'] trace := by
  intro hright
  obtain ⟨trace, htrace, h⟩ := hright
  have hopened : .openLive ⟨['e', 't', 'h', '0'], none⟩ ∈ trace := by
    rw [← Option.some.inj htrace]
    decide
  obtain ⟨k, hstarts, -⟩ := h.opened _ hopened
  have hscan := scanInt_eq_some_iff.mpr hstarts
  contradiction

end WorkCode.DeviceSelection
