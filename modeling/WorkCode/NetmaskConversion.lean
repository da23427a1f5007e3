import WorkCode.IpSettingAnswers
import Mathlib.Data.List.Chain
import Mathlib.Data.Nat.Digits.Defs
import Mathlib.Tactic.IntervalCases

/-!
# `mask2cidr`

Both scripts convert a netmask by adding up the one bits of its fields. The loop keeps
no state between fields and does not count them, so it also answers for quads whose
one bits are not contiguous and for texts with fewer or more than four fields. It compares
texts, so a zero that is written with more than one digit is not recognised.
-/

namespace WorkCode.NetmaskConversion

open IpSettingScript

/-- A shell whose pathname expansion leaves a word of letters and digits alone. -/
structure GlobShell extends Shell where
  glob_alphanum : ∀ w, (∀ c ∈ w, c.isAlphanum = true) → glob w = [w]

/-- The `for` loop of `netmask_convert.sh`, left by `exit 1` at the first field that it
does not recognise. -/
def convertLoop : List Text → ℕ → Option ℕ
  | [], nbits => some nbits
  | dec :: rest, nbits => match maskBits dec with
    | some n => convertLoop rest (nbits + n)
    | none => none

/-- `mask2cidr` of `netmask_convert.sh`: the number that it prints, unless it reports
an error. -/
def NetmaskConvert.mask2cidr (sh : Shell) (arg : Text) : Option ℕ :=
  convertLoop (sh.expand .dot arg) 0

/-- `mask2cidr` of `ip_setting.sh`: the exit status, unless it reports an error. -/
def IpSetting.mask2cidr (sh : Shell) (arg : Text) : Option ℕ :=
  let nbits := maskLoop (sh.expand .dot arg) 0
  if nbits = -1 then none else some (nbits % 256).toNat

/-- The script calls it with an unquoted variable, whose first word is the argument. -/
theorem IpSetting.mask2cidr_call (sh : Shell) (ifs : Ifs) (mask : Text) :
    IpSettingScript.mask2cidr sh ifs mask =
      IpSetting.mask2cidr sh ((sh.expand ifs mask).headD []) := rfl

def decimal (dec : Text) : ℕ := Nat.ofDigitChars 10 dec 0

/-- The number that octets make up, the first one on top. -/
def quadValue (octets : List Text) : ℕ := Nat.ofDigits 256 (octets.map decimal).reverse

/-- The text is a dotted quad whose 32 bits are `n` ones followed by zeros. -/
def IsPrefixMask (arg : Text) (n : ℕ) : Prop :=
  n ≤ 32 ∧ ∃ octets : List Text, octets.length = 4 ∧ (∀ dec ∈ octets, IsOctet dec) ∧
    arg = ['.'].intercalate octets ∧ quadValue octets = (2 ^ n - 1) * 2 ^ (32 - n)

def Recognised (fields : List Text) : Prop := ∀ dec ∈ fields, (maskBits dec).isSome

instance : DecidablePred Recognised := fun fields =>
  inferInstanceAs (Decidable (∀ dec ∈ fields, (maskBits dec).isSome))

def bitCount (fields : List Text) : ℕ := (fields.map fieldBits).sum

theorem convertLoop_eq_some_iff (fields : List Text) (nbits n : ℕ) :
    convertLoop fields nbits = some n ↔ Recognised fields ∧ n = nbits + bitCount fields := by
  induction fields generalizing nbits with
  | nil =>
    simp only [convertLoop, Recognised, bitCount, Option.some.injEq, List.not_mem_nil, false_implies,
      implies_true, true_and, List.map_nil, List.sum_nil, Nat.add_zero]
    exact eq_comm
  | cons dec rest ih =>
    cases hdec : maskBits dec with
    | none => simp [convertLoop, Recognised, hdec]
    | some k =>
      simp only [convertLoop, hdec, ih, Recognised, bitCount, List.forall_mem_cons,
        Option.isSome_some, true_and, List.map_cons, List.sum_cons, fieldBits, Option.getD_some,
        Nat.add_assoc]

theorem NetmaskConvert.mask2cidr_eq_some_iff (sh : Shell) (arg : Text) (n : ℕ) :
    NetmaskConvert.mask2cidr sh arg = some n ↔
      Recognised (sh.expand .dot arg) ∧ n = bitCount (sh.expand .dot arg) := by
  rw [NetmaskConvert.mask2cidr, convertLoop_eq_some_iff, Nat.zero_add]

theorem IpSetting.mask2cidr_eq_some_iff (sh : Shell) (arg : Text) (n : ℕ) :
    IpSetting.mask2cidr sh arg = some n ↔
      Recognised (sh.expand .dot arg) ∧ n = bitCount (sh.expand .dot arg) % 256 := by
  have h := maskLoop_eq (sh.expand .dot arg) 0
  rw [Nat.zero_add] at h
  change maskLoop (sh.expand .dot arg) 0 = _ at h
  simp only [IpSetting.mask2cidr, h, Recognised, bitCount]
  by_cases hall : ∀ dec ∈ sh.expand .dot arg, (maskBits dec).isSome
  · rw [if_pos hall, if_neg (by omega), Option.some.injEq]
    constructor
    · intro hn
      exact ⟨hall, by omega⟩
    · intro hn
      omega
  · rw [if_neg hall, if_pos rfl]
    simp [hall]

/-- The octet with `k` leading ones, as it is written. -/
def onesOctet (k : ℕ) : Text := Nat.toDigits 10 (256 - 2 ^ (8 - k))

theorem maskBits_eq_some_iff (dec : Text) (k : ℕ) :
    maskBits dec = some k ↔ k ≤ 8 ∧ dec = onesOctet k := by
  constructor
  · intro h
    unfold maskBits at h
    iterate 9
      split at h
      · cases h
        exact ⟨by omega, by assumption⟩
    contradiction
  · rintro ⟨hk, rfl⟩
    interval_cases k <;> decide +kernel

/-- A zero in its shortest spelling. -/
def unpad (dec : Text) : Text := if dec = ['0', '0'] ∨ dec = ['0', '0', '0'] then ['0'] else dec

theorem unpad_onesOctet {k : ℕ} (hk : k ≤ 8) : unpad (onesOctet k) = onesOctet k := by
  interval_cases k <;> decide +kernel

theorem unpad_of_isSome {dec : Text} (h : (maskBits dec).isSome) : unpad dec = dec := by
  obtain ⟨k, hbits⟩ := Option.isSome_iff_exists.mp h
  obtain ⟨hk, rfl⟩ := (maskBits_eq_some_iff dec k).mp hbits
  exact unpad_onesOctet hk

theorem not_isSome_of_unpad_ne {dec : Text} (h : unpad dec ≠ dec) : ¬ (maskBits dec).isSome :=
  fun hsome => h (unpad_of_isSome hsome)

section Decimals

theorem decimal_eq_ofDigits (s : Text) :
    decimal s = Nat.ofDigits 10 (s.map fun c => c.toNat - '0'.toNat).reverse := by
  rw [decimal, Nat.ofDigitChars_eq_foldl, Nat.ofDigits_eq_foldr, List.foldr_reverse, List.foldl_map]
  simp only [Nat.cast_id, Nat.add_comm]

theorem digit_lt {c : Char} (hc : c.isDigit = true) : c.toNat - '0'.toNat < 10 := by
  simp only [Char.isDigit, Bool.and_eq_true, decide_eq_true_eq, ge_iff_le] at hc
  have hle := UInt32.le_iff_toNat_le.mp hc.2
  have h57 : c.val.toNat ≤ 57 := hle
  have h48 : '0'.toNat = 48 := rfl
  have hval : c.toNat = c.val.toNat := rfl
  omega

theorem digit_inj {c d : Char} (hc : c.isDigit = true) (hd : d.isDigit = true)
    (h : c.toNat - '0'.toNat = d.toNat - '0'.toNat) : c = d := by
  have lower : ∀ x : Char, x.isDigit = true → 48 ≤ x.toNat := by
    intro x hx
    simp only [Char.isDigit, Bool.and_eq_true, decide_eq_true_eq, ge_iff_le] at hx
    exact UInt32.le_iff_toNat_le.mp hx.1
  have hc48 := lower c hc
  have hd48 := lower d hd
  have h48 : '0'.toNat = 48 := rfl
  exact Char.toNat_inj.mp (by omega)

theorem decimal_lt {s : Text} (hs : ∀ c ∈ s, c.isDigit = true) : decimal s < 10 ^ s.length := by
  have hlt := Nat.ofDigits_lt_base_pow_length (b := 10) (l := (s.map fun c => c.toNat - '0'.toNat).reverse)
    (by decide) (by
      intro x hx
      obtain ⟨c, hc, rfl⟩ := List.mem_map.mp (List.mem_reverse.mp hx)
      exact digit_lt (hs c hc))
  rwa [← decimal_eq_ofDigits, List.length_reverse, List.length_map] at hlt

theorem decimal_inj {s t : Text} (hs : ∀ c ∈ s, c.isDigit = true) (ht : ∀ c ∈ t, c.isDigit = true)
    (hlen : s.length = t.length) (h : decimal s = decimal t) : s = t := by
  have hsmall : ∀ u : Text, (∀ c ∈ u, c.isDigit = true) →
      ∀ x ∈ (u.map fun c => c.toNat - '0'.toNat).reverse, x < 10 := by
    intro u hu x hx
    obtain ⟨c, hc, rfl⟩ := List.mem_map.mp (List.mem_reverse.mp hx)
    exact digit_lt (hu c hc)
  rw [decimal_eq_ofDigits, decimal_eq_ofDigits] at h
  have hdigits := Nat.ofDigits_inj_of_len_eq (by decide) (by simpa using hlen) (hsmall s hs) (hsmall t ht) h
  rw [List.reverse_inj] at hdigits
  clear h hsmall
  induction s generalizing t with
  | nil =>
    rw [eq_comm, ← List.length_eq_zero_iff, ← hlen]
    rfl
  | cons c s ih =>
    cases t with
    | nil => cases hlen
    | cons d t =>
      obtain ⟨hhead, htail⟩ := List.cons.inj hdigits
      rw [digit_inj (hs c List.mem_cons_self) (ht d List.mem_cons_self) hhead,
        ih (fun x hx => hs x (List.mem_cons_of_mem _ hx)) (fun x hx => ht x (List.mem_cons_of_mem _ hx))
          (Nat.succ.inj hlen) htail]

theorem onesOctet_isDigit (k : ℕ) : ∀ c ∈ onesOctet k, c.isDigit = true := by
  intro c hc
  exact Nat.isDigit_of_mem_toDigits (by omega) (by omega) hc

theorem decimal_onesOctet (k : ℕ) : decimal (onesOctet k) = 256 - 2 ^ (8 - k) :=
  Nat.ofDigitChars_ten_toDigits

/-- The octets that stand for `k` leading ones are the one that the loop knows and, for a zero,
those with more digits. -/
theorem unpad_eq_onesOctet_iff {dec : Text} {k : ℕ} (hk : k ≤ 8) :
    unpad dec = onesOctet k ↔ IsOctet dec ∧ decimal dec = 256 - 2 ^ (8 - k) := by
  constructor
  · intro h
    rw [unpad] at h
    split at h
    · next hzero =>
      have hk0 : k = 0 := by
        by_contra hne
        have hvalue := congrArg decimal h
        rw [decimal_onesOctet] at hvalue
        have hle := Nat.pow_le_pow_right (n := 2) (by omega) (show 8 - k ≤ 7 by omega)
        have hnone : decimal ['0'] = 0 := rfl
        omega
      subst hk0
      rcases hzero with rfl | rfl <;> exact ⟨⟨by decide, by decide, List.all_eq_true.mp rfl, by decide⟩, rfl⟩
    · rw [h]
      refine ⟨⟨Nat.toDigits_ne_nil, ?_, onesOctet_isDigit k, ?_⟩, decimal_onesOctet k⟩
      · clear h
        interval_cases k <;> decide +kernel
      · have hvalue := decimal_onesOctet k
        rw [decimal] at hvalue
        have hpos := Nat.two_pow_pos (8 - k)
        omega
  · rintro ⟨hoctet, hvalue⟩
    have hlt := decimal_lt hoctet.isDigit
    by_cases hk0 : k = 0
    · subst hk0
      have hzeros : dec = List.replicate dec.length '0' := by
        apply decimal_inj hoctet.isDigit _ (List.length_replicate ..).symm
        · rw [hvalue, decimal, Nat.ofDigitChars_replicate_zero]
          rfl
        · intro c hc
          rw [List.eq_of_mem_replicate hc]
          rfl
      have hpos := List.length_pos_iff.mpr hoctet.nonempty
      have hle := hoctet.length_le
      obtain ⟨n, hn⟩ : ∃ n, dec.length = n := ⟨_, rfl⟩
      rw [hn] at hzeros hpos hle
      rw [hzeros]
      interval_cases n <;> decide +kernel
    · have hle := Nat.pow_le_pow_right (n := 2) (by omega) (show 8 - k ≤ 7 by omega)
      have hthree : dec.length = 3 := by
        have hle3 := hoctet.length_le
        by_contra hne
        have hpow := Nat.pow_le_pow_right (n := 10) (by omega) (show dec.length ≤ 2 by omega)
        omega
      have hlen : (onesOctet k).length = 3 := by
        clear hvalue hle hlt
        interval_cases k <;> first | exact absurd rfl hk0 | decide +kernel
      have heq : dec = onesOctet k :=
        decimal_inj hoctet.isDigit (onesOctet_isDigit k) (hthree.trans hlen.symm)
          (hvalue.trans (decimal_onesOctet k).symm)
      rw [heq, unpad_onesOctet hk]

end Decimals

/-- The number that octets with the given counts of leading ones make up. -/
def onesValue : List ℕ → ℕ
  | [] => 0
  | k :: ks => (256 - 2 ^ (8 - k)) * 256 ^ ks.length + onesValue ks

theorem onesValue_eq_ofDigits (ks : List ℕ) :
    onesValue ks = Nat.ofDigits 256 (ks.map fun k => 256 - 2 ^ (8 - k)).reverse := by
  induction ks with
  | nil => rfl
  | cons k ks ih =>
    rw [onesValue, ih, List.map_cons, List.reverse_cons, Nat.ofDigits_append, List.length_reverse, List.length_map,
      Nat.ofDigits_singleton, Nat.mul_comm (256 ^ _), Nat.add_comm]

theorem quadValue_eq_onesValue {octets : List Text} {ks : List ℕ} (hle : ∀ k ∈ ks, k ≤ 8)
    (h : octets.map unpad = ks.map onesOctet) :
    (∀ dec ∈ octets, IsOctet dec) ∧ quadValue octets = onesValue ks := by
  have hvalues : (∀ dec ∈ octets, IsOctet dec) ∧ octets.map decimal = ks.map fun k => 256 - 2 ^ (8 - k) := by
    induction octets generalizing ks with
    | nil =>
      cases ks with
      | nil => exact ⟨fun _ hdec => (List.not_mem_nil hdec).elim, rfl⟩
      | cons k ks => cases h
    | cons dec octets ih =>
      cases ks with
      | nil => cases h
      | cons k ks =>
        obtain ⟨hhead, htail⟩ := List.cons.inj h
        obtain ⟨hoctet, hvalue⟩ := (unpad_eq_onesOctet_iff (hle k List.mem_cons_self)).mp hhead
        obtain ⟨hoctets, hrest⟩ := ih (fun x hx => hle x (List.mem_cons_of_mem _ hx)) htail
        refine ⟨?_, by rw [List.map_cons, List.map_cons, hvalue, hrest]⟩
        rw [List.forall_mem_cons]
        exact ⟨hoctet, hoctets⟩
  exact ⟨hvalues.1, by rw [quadValue, hvalues.2, onesValue_eq_ofDigits]⟩

theorem eq_zero_of_isChain {k : ℕ} {ks : List ℕ} (hk : k ≠ 8)
    (h : (k :: ks).IsChain fun x y => x = 8 ∨ y = 0) : ∀ x ∈ ks, x = 0 := by
  induction ks generalizing k with
  | nil =>
    intro x hx
    cases hx
  | cons y ks ih =>
    obtain ⟨hpair, hrest⟩ := List.isChain_cons_cons.mp h
    have hy : y = 0 := hpair.resolve_left hk
    intro x hx
    cases hx with
    | head => exact hy
    | tail _ hx => exact ih (by omega) hrest x hx

theorem onesValue_eq_zero {ks : List ℕ} (h : ∀ x ∈ ks, x = 0) : onesValue ks = 0 := by
  induction ks with
  | nil => rfl
  | cons k ks ih =>
    rw [onesValue, ih (fun x hx => h x (List.mem_cons_of_mem _ hx)), h k List.mem_cons_self]
    simp

/-- Contiguous octets are the ones of their sum, followed by zeros. -/
theorem onesValue_of_isChain {ks : List ℕ} (hle : ∀ k ∈ ks, k ≤ 8)
    (h : ks.IsChain fun x y => x = 8 ∨ y = 0) :
    ks.sum ≤ 8 * ks.length ∧
      onesValue ks + 2 ^ (8 * ks.length - ks.sum) = 2 ^ (8 * ks.length) := by
  induction ks with
  | nil => simp [onesValue]
  | cons k ks ih =>
    have hk : k ≤ 8 := hle k List.mem_cons_self
    obtain ⟨hsum, hvalue⟩ := ih (fun x hx => hle x (List.mem_cons_of_mem _ hx)) h.of_cons
    have hpow : 2 ^ (8 * ks.length) = 256 ^ ks.length := pow_mul 2 8 ks.length
    have hnext : 2 ^ (8 * (ks.length + 1)) = 256 * 256 ^ ks.length := by
      rw [pow_mul]
      exact pow_succ' 256 ks.length
    rw [hpow] at hvalue
    rw [List.sum_cons, List.length_cons, onesValue, hnext]
    refine ⟨by omega, ?_⟩
    by_cases hfull : k = 8
    · have hexp : 8 * (ks.length + 1) - (k + ks.sum) = 8 * ks.length - ks.sum := by omega
      have hone : 2 ^ (8 - k) = 1 := by
        rw [hfull]
        rfl
      rw [hexp, hone]
      omega
    · have hzero := eq_zero_of_isChain hfull h
      have hexp : 8 * (ks.length + 1) - (k + ks.sum) = (8 - k) + 8 * ks.length := by
        rw [List.sum_eq_zero hzero]
        omega
      have hle256 : 2 ^ (8 - k) ≤ 256 := by
        have hle := Nat.pow_le_pow_right (n := 2) (by omega) (show 8 - k ≤ 8 by omega)
        exact hle
      rw [onesValue_eq_zero hzero, hexp, pow_add, hpow, Nat.add_zero, ← Nat.add_mul,
        Nat.sub_add_cancel hle256]

/-- Four fields, in which only zeros follow a field that is not full. -/
structure Contiguous (fields : List Text) : Prop where
  length_eq : fields.length = 4
  chain : fields.IsChain fun x y => x = ['2', '5', '5'] ∨ y = ['0']

/-- A contiguous mask, but with a zero of more than one digit. -/
def Padded (arg : Text) : Prop :=
  ∃ fields, arg = ['.'].intercalate fields ∧ Contiguous (fields.map unpad) ∧
    Recognised (fields.map unpad) ∧ ∃ dec ∈ fields, unpad dec ≠ dec

theorem Recognised.exists_counts {fields : List Text} (h : Recognised fields) :
    ∃ ks : List ℕ, (∀ k ∈ ks, k ≤ 8) ∧ fields = ks.map onesOctet := by
  refine ⟨fields.map fieldBits, ?_, ?_⟩
  · intro k hk
    obtain ⟨dec, hdec, rfl⟩ := List.mem_map.mp hk
    obtain ⟨k, hbits⟩ := Option.isSome_iff_exists.mp (h dec hdec)
    rw [fieldBits, hbits]
    exact ((maskBits_eq_some_iff dec k).mp hbits).1
  · rw [List.map_map, eq_comm]
    conv_rhs => rw [← List.map_id fields]
    apply List.map_congr_left
    intro dec hdec
    obtain ⟨k, hbits⟩ := Option.isSome_iff_exists.mp (h dec hdec)
    rw [Function.comp_apply, fieldBits, hbits]
    exact ((maskBits_eq_some_iff dec k).mp hbits).2.symm

theorem Recognised.map_unpad {fields : List Text} (h : Recognised fields) : fields.map unpad = fields := by
  conv_rhs => rw [← List.map_id fields]
  apply List.map_congr_left
  intro dec hdec
  exact unpad_of_isSome (h dec hdec)

theorem expand_octets (sh : GlobShell) {fields : List Text} (hlen : fields.length = 4)
    (hoctets : ∀ dec ∈ fields, IsOctet dec) : sh.expand .dot (['.'].intercalate fields) = fields := by
  have hne : fields ≠ [] := by
    rintro rfl
    cases hlen
  have hsplit : (['.'].intercalate fields).splitOn '.' = fields := by
    refine List.splitOn_intercalate _ ?_ hne
    intro dec hdec hdot
    have hfalse := (hoctets dec hdec).isDigit '.' hdot
    cases hfalse
  have hlast : fields.getLastD [] ≠ [] := by
    rw [List.getLastD_eq_getLast?, List.getLast?_eq_some_getLast hne]
    exact (hoctets _ (List.getLast_mem hne)).nonempty
  have hglob : ∀ dec ∈ fields, sh.glob dec = [dec] := by
    intro dec hdec
    apply sh.glob_alphanum
    intro c hc
    simp [Char.isAlphanum, (hoctets dec hdec).isDigit c hc]
  have hfield : fieldSplit .dot (['.'].intercalate fields) = fields := by
    rw [fieldSplit, hsplit, if_neg hlast]
  rw [Shell.expand, hfield, List.flatMap_congr hglob, List.flatMap_singleton']

def prefixCounts (n : ℕ) : List ℕ := [min 8 n, min 8 (n - 8), min 8 (n - 16), min 8 (n - 24)]

theorem prefixCounts_spec : ∀ n : Fin 33,
    onesValue (prefixCounts n) = (2 ^ n.val - 1) * 2 ^ (32 - n.val) ∧ (prefixCounts n).sum = n ∧
      (prefixCounts n).IsChain fun x y => x = 8 ∨ y = 0 := by
  decide +kernel

theorem le_of_mem_prefixCounts (n : ℕ) : ∀ k ∈ prefixCounts n, k ≤ 8 := by
  intro k hk
  simp only [prefixCounts, List.mem_cons, List.not_mem_nil, or_false] at hk
  omega

/-- Four octets with the value of a prefix mask are the octets of that mask. -/
theorem map_unpad_of_quadValue {octets : List Text} {n : ℕ} (hn : n ≤ 32) (hlen : octets.length = 4)
    (hoctets : ∀ dec ∈ octets, IsOctet dec) (hvalue : quadValue octets = (2 ^ n - 1) * 2 ^ (32 - n)) :
    octets.map unpad = (prefixCounts n).map onesOctet := by
  have hspec := (prefixCounts_spec ⟨n, by omega⟩).1
  have hle := le_of_mem_prefixCounts n
  rw [← hspec, onesValue_eq_ofDigits, quadValue] at hvalue
  have hdigits : octets.map decimal = (prefixCounts n).map fun k => 256 - 2 ^ (8 - k) := by
    apply List.reverse_inj.mp
    apply Nat.ofDigits_inj_of_len_eq (by decide) _ _ _ hvalue
    · simpa [prefixCounts] using hlen
    · intro x hx
      obtain ⟨dec, hdec, rfl⟩ := List.mem_map.mp (List.mem_reverse.mp hx)
      exact Nat.lt_succ_of_le (hoctets dec hdec).value_le
    · intro x hx
      obtain ⟨k, -, rfl⟩ := List.mem_map.mp (List.mem_reverse.mp hx)
      have hpos := Nat.two_pow_pos (8 - k)
      omega
  generalize prefixCounts n = ks at hdigits hle
  clear hlen hvalue hspec
  induction octets generalizing ks with
  | nil =>
    cases ks with
    | nil => rfl
    | cons k ks => cases hdigits
  | cons dec octets ih =>
    cases ks with
    | nil => cases hdigits
    | cons k ks =>
      obtain ⟨hhead, htail⟩ := List.cons.inj hdigits
      rw [List.forall_mem_cons] at hoctets hle
      rw [List.map_cons, List.map_cons, (unpad_eq_onesOctet_iff hle.1).mpr ⟨hoctets.1, hhead⟩,
        ih hoctets.2 _ htail hle.2]

theorem bitCount_map_onesOctet {ks : List ℕ} (hle : ∀ k ∈ ks, k ≤ 8) :
    Recognised (ks.map onesOctet) ∧ bitCount (ks.map onesOctet) = ks.sum ∧
      ((ks.map onesOctet).IsChain (fun x y => x = ['2', '5', '5'] ∨ y = ['0']) ↔
        ks.IsChain fun x y => x = 8 ∨ y = 0) := by
  have hbits : ∀ k ∈ ks, maskBits (onesOctet k) = some k := by
    intro k hk
    exact (maskBits_eq_some_iff _ k).mpr ⟨hle k hk, rfl⟩
  have hfield : ∀ k ∈ ks, fieldBits (onesOctet k) = k := by
    intro k hk
    rw [fieldBits, hbits k hk, Option.getD_some]
  refine ⟨?_, ?_, ?_⟩
  · intro dec hdec
    obtain ⟨k, hk, rfl⟩ := List.mem_map.mp hdec
    rw [hbits k hk]
    rfl
  · rw [bitCount, List.map_map, List.map_congr_left (g := id) (by simpa using hfield), List.map_id]
  · have hpair : ∀ {a b : ℕ}, a ∈ ks → b ∈ ks →
        ((onesOctet a = ['2', '5', '5'] ∨ onesOctet b = ['0']) ↔ (a = 8 ∨ b = 0)) := by
      intro a b ha hb
      constructor
      · intro hab
        rw [← hfield a ha, ← hfield b hb]
        rcases hab with hfull | hzero
        · exact .inl (by rw [hfull]; rfl)
        · exact .inr (by rw [hzero]; rfl)
      · rintro (rfl | rfl)
        · exact .inl rfl
        · exact .inr rfl
    rw [List.isChain_map]
    constructor
    · intro h
      exact h.imp_of_mem_imp fun a b ha hb hab => (hpair ha hb).mp hab
    · intro h
      exact h.imp_of_mem_imp fun a b ha hb hab => (hpair ha hb).mpr hab

/-- A prefix mask is what the loop would accept, up to the spelling of its zeros, when only zeros
follow a partial field, and its length is what the loop counts. -/
theorem isPrefixMask_iff (arg : Text) (n : ℕ) : IsPrefixMask arg n ↔
    ∃ fields, arg = ['.'].intercalate fields ∧ (∀ dec ∈ fields, IsOctet dec) ∧ Contiguous (fields.map unpad) ∧
      Recognised (fields.map unpad) ∧ n = bitCount (fields.map unpad) := by
  constructor
  · rintro ⟨hn, octets, hlen, hoctets, harg, hvalue⟩
    have hunpad := map_unpad_of_quadValue hn hlen hoctets hvalue
    obtain ⟨-, hsum, hchain⟩ := prefixCounts_spec ⟨n, by omega⟩
    obtain ⟨hrec, hcount, hiff⟩ := bitCount_map_onesOctet (le_of_mem_prefixCounts n)
    refine ⟨octets, harg, hoctets, ?_, ?_, ?_⟩
    · rw [hunpad]
      exact ⟨rfl, hiff.mpr hchain⟩
    · rw [hunpad]
      exact hrec
    · rw [hunpad, hcount]
      exact hsum.symm
  · rintro ⟨fields, harg, -, hcont, hrec, rfl⟩
    obtain ⟨ks, hle, hks⟩ := hrec.exists_counts
    obtain ⟨hoctets, hquad⟩ := quadValue_eq_onesValue hle hks
    obtain ⟨-, hcount, hiff⟩ := bitCount_map_onesOctet hle
    have hlenks : ks.length = 4 := by
      have hlen := hcont.length_eq
      rwa [hks, List.length_map] at hlen
    have hchain := hcont.chain
    rw [hks, hiff] at hchain
    obtain ⟨hsum, hvalue⟩ := onesValue_of_isChain hle hchain
    rw [hlenks] at hsum hvalue
    rw [hks, hcount]
    refine ⟨hsum, fields, by simpa using hcont.length_eq, hoctets, harg, ?_⟩
    have hsplit : 2 ^ ks.sum * 2 ^ (32 - ks.sum) = 2 ^ 32 := by
      rw [← pow_add, Nat.add_sub_cancel' hsum]
    change onesValue ks + 2 ^ (32 - ks.sum) = 2 ^ 32 at hvalue
    rw [hquad, Nat.sub_mul, hsplit]
    omega

theorem isPrefixMask_expand_iff (sh : GlobShell) (arg : Text) (n : ℕ) : IsPrefixMask arg n ↔
    arg = ['.'].intercalate (sh.expand .dot arg) ∧ (∀ dec ∈ sh.expand .dot arg, IsOctet dec) ∧
      Contiguous ((sh.expand .dot arg).map unpad) ∧ Recognised ((sh.expand .dot arg).map unpad) ∧
      n = bitCount ((sh.expand .dot arg).map unpad) := by
  rw [isPrefixMask_iff]
  constructor
  · rintro ⟨fields, rfl, hoctets, hcont, hrest⟩
    have hexpand := expand_octets sh (by simpa using hcont.length_eq) hoctets
    rw [hexpand]
    exact ⟨rfl, hoctets, hcont, hrest⟩
  · intro h
    exact ⟨_, h⟩

theorem isOctet_of_recognised {fields : List Text} (h : Recognised (fields.map unpad)) :
    ∀ dec ∈ fields, IsOctet dec := by
  obtain ⟨ks, hle, hks⟩ := h.exists_counts
  exact (quadValue_eq_onesValue hle hks).1

/-- An answer that is the bit count, when that is a prefix length at all, is right about a text
exactly when the text does not consist of recognised fields in a wrong shape, nor is a mask
with a zero that is not recognised. -/
theorem answer_iff (sh : GlobShell) (arg : Text) {answer : Option ℕ} {cut : ℕ → ℕ}
    (hcut : ∀ x ≤ 32, cut x = x)
    (hanswer : ∀ n, answer = some n ↔
      Recognised (sh.expand .dot arg) ∧ n = cut (bitCount (sh.expand .dot arg))) :
    (∀ n, answer = some n ↔ IsPrefixMask arg n) ↔
      (Recognised (sh.expand .dot arg) →
        arg = ['.'].intercalate (sh.expand .dot arg) ∧ Contiguous (sh.expand .dot arg)) ∧ ¬ Padded arg := by
  constructor
  · intro h
    refine ⟨?_, ?_⟩
    · intro hrec
      have hmask := (h _).mp ((hanswer _).mpr ⟨hrec, rfl⟩)
      obtain ⟨harg, -, hcont, -⟩ := (isPrefixMask_expand_iff sh arg _).mp hmask
      rw [hrec.map_unpad] at hcont
      exact ⟨harg, hcont⟩
    · rintro ⟨fields, harg, hcont, hrec, dec, hdec, hpadded⟩
      have hoctets := isOctet_of_recognised hrec
      have hmask := (isPrefixMask_iff arg _).mpr ⟨fields, harg, hoctets, hcont, hrec, rfl⟩
      have hsome := ((hanswer _).mp ((h _).mpr hmask)).1
      rw [harg, expand_octets sh (by simpa using hcont.length_eq) hoctets] at hsome
      exact not_isSome_of_unpad_ne hpadded (hsome dec hdec)
  · rintro ⟨hshape, hnot⟩ n
    rw [hanswer]
    constructor
    · rintro ⟨hrec, rfl⟩
      obtain ⟨harg, hcont⟩ := hshape hrec
      have hmask : IsPrefixMask arg (bitCount (sh.expand .dot arg)) := by
        have hsame := hrec.map_unpad
        refine (isPrefixMask_expand_iff sh arg _).mpr ⟨harg, isOctet_of_recognised ?_, ?_, ?_, ?_⟩
        · rw [hsame]
          exact hrec
        · rw [hsame]
          exact hcont
        · rw [hsame]
          exact hrec
        · rw [hsame]
      rw [hcut _ hmask.1]
      exact hmask
    · intro hmask
      obtain ⟨harg, -, hcont, hrec, hn⟩ := (isPrefixMask_expand_iff sh arg n).mp hmask
      have hsame : (sh.expand .dot arg).map unpad = sh.expand .dot arg := by
        conv_rhs => rw [← List.map_id (sh.expand .dot arg)]
        apply List.map_congr_left
        intro dec hdec
        by_contra hne
        exact hnot ⟨_, harg, hcont, hrec, dec, hdec, hne⟩
      rw [hsame] at hrec hn
      refine ⟨hrec, ?_⟩
      rw [hcut _ (hn ▸ hmask.1), hn]

/-- Both versions of `mask2cidr` are right about exactly the arguments that have an
unrecognised field or are contiguous dotted quads, and are no mask with a padded zero. -/
theorem mask2cidr_isPrefixMask_iff (sh : GlobShell) (arg : Text) :
    ((∀ n, NetmaskConvert.mask2cidr sh.toShell arg = some n ↔ IsPrefixMask arg n) ↔
        (Recognised (sh.expand .dot arg) →
          arg = ['.'].intercalate (sh.expand .dot arg) ∧ Contiguous (sh.expand .dot arg)) ∧ ¬ Padded arg) ∧
      ((∀ n, IpSetting.mask2cidr sh.toShell arg = some n ↔ IsPrefixMask arg n) ↔
        (Recognised (sh.expand .dot arg) →
          arg = ['.'].intercalate (sh.expand .dot arg) ∧ Contiguous (sh.expand .dot arg)) ∧ ¬ Padded arg) := by
  constructor
  · exact answer_iff sh arg (fun _ _ => rfl) (NetmaskConvert.mask2cidr_eq_some_iff _ arg)
  · have hcut : ∀ x ≤ 32, x % 256 = x := fun x hx => Nat.mod_eq_of_lt (by omega)
    exact answer_iff sh arg hcut (IpSetting.mask2cidr_eq_some_iff _ arg)

def plainGlob : GlobShell := ⟨plainShell, fun _ _ => rfl⟩

def scatteredMask : Text := "255.0.255.0".toList

/-- `255.0.255.0` is answered with `16`. -/
theorem scatteredMask_not_prefixMask :
    ¬ (∀ (sh : GlobShell) (arg : Text) (n : ℕ),
        NetmaskConvert.mask2cidr sh.toShell arg = some n ↔ IsPrefixMask arg n) ∧
      ¬ (∀ (sh : GlobShell) (arg : Text) (n : ℕ),
        IpSetting.mask2cidr sh.toShell arg = some n ↔ IsPrefixMask arg n) := by
  have hfields : plainGlob.expand .dot scatteredMask =
      [['2', '5', '5'], ['0'], ['2', '5', '5'], ['0']] := by decide +kernel
  have hnot : ¬ IsPrefixMask scatteredMask 16 := by
    intro h
    have hchain := ((isPrefixMask_expand_iff plainGlob scatteredMask 16).mp h).2.2.1.chain
    rw [hfields] at hchain
    revert hchain
    decide
  have hrec : Recognised (plainGlob.expand .dot scatteredMask) ∧
      16 = bitCount (plainGlob.expand .dot scatteredMask) := by
    rw [hfields]
    decide
  constructor
  · intro h
    exact hnot ((h plainGlob scatteredMask 16).mp
      ((NetmaskConvert.mask2cidr_eq_some_iff _ _ _).mpr hrec))
  · intro h
    exact hnot ((h plainGlob scatteredMask 16).mp
      ((IpSetting.mask2cidr_eq_some_iff _ _ _).mpr ⟨hrec.1, by rw [← hrec.2]⟩))

end WorkCode.NetmaskConversion
