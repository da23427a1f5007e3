import WorkCode.IpSettingScript
import Mathlib.Algebra.BigOperators.Group.List.Basic
import Mathlib.Algebra.Order.Ring.Nat

/-!
# What the answers put into the start-up script

The addresses are appended as they were typed, but only a part of their first word was
matched. So the appended text is a pair of well-formed commands exactly when the two
addresses are dotted quads as a whole and the mask has at most 32 one bits.
-/

namespace WorkCode.IpSettingScript

open TextLines RepeatPattern

/-- One to three decimal digits with a value that fits a byte. -/
structure IsOctet (s : Text) : Prop where
  nonempty : s ≠ []
  length_le : s.length ≤ 3
  isDigit : ∀ c ∈ s, c.isDigit = true
  value_le : Nat.ofDigitChars 10 s 0 ≤ 255

def IsDottedQuad (s : Text) : Prop :=
  ∃ a b c d, IsOctet a ∧ IsOctet b ∧ IsOctet c ∧ IsOctet d ∧
    s = a ++ '.' :: (b ++ '.' :: (c ++ '.' :: d))

/-- The text is `ip addr add A.B.C.D/n dev eth1` and
`ip route add default via E.F.G.H dev eth1`, one command a line. -/
def TwoCommands (text : Text) : Prop :=
  ∃ ip gw n, IsDottedQuad ip ∧ IsDottedQuad gw ∧ n ≤ 32 ∧
    text = (ipAddrAdd ++ ip ++ '/' :: Nat.toDigits 10 n ++ devEth1) ++
      '\n' :: ((ipRouteAdd ++ gw ++ devEth1) ++ ['\n'])

theorem not_mem_toDigits {c : Char} (hc : c.isDigit = false) (n : ℕ) : c ∉ Nat.toDigits 10 n := by
  intro h
  rw [Nat.isDigit_of_mem_toDigits (by omega) (by omega) h] at hc
  cases hc

theorem toDigits_injective {m n : ℕ} (h : Nat.toDigits 10 m = Nat.toDigits 10 n) : m = n := by
  rw [← Nat.ofDigitChars_ten_toDigits (n := m), h, Nat.ofDigitChars_ten_toDigits]

theorem IsDottedQuad.mem_isDigit {s : Text} (h : IsDottedQuad s) :
    ∀ c ∈ s, c.isDigit = true ∨ c = '.' := by
  obtain ⟨a, b, c, d, ha, hb, hc, hd, rfl⟩ := h
  intro x hx
  simp only [List.mem_append, List.mem_cons] at hx
  rcases hx with hx | hx | hx | hx | hx | hx | hx
  · exact .inl (ha.isDigit x hx)
  · exact .inr hx
  · exact .inl (hb.isDigit x hx)
  · exact .inr hx
  · exact .inl (hc.isDigit x hx)
  · exact .inr hx
  · exact .inl (hd.isDigit x hx)

theorem IsDottedQuad.not_mem {s : Text} (h : IsDottedQuad s) {c : Char} (hdigit : c.isDigit = false)
    (hdot : c ≠ '.') : c ∉ s := by
  intro hc
  rcases h.mem_isDigit c hc with hd | hd
  · rw [hd] at hdigit
    cases hdigit
  · exact hdot hd

theorem not_mem_commandText : '\n' ∉ ipAddrAdd ∧ '\n' ∉ ipRouteAdd ∧ '\n' ∉ devEth1 := by
  decide +kernel

theorem not_mem_addressText {ip : Text} (hip : '\n' ∉ ip) (n : ℕ) :
    '\n' ∉ ipAddrAdd ++ ip ++ '/' :: Nat.toDigits 10 n ++ devEth1 := by
  obtain ⟨hadd, -, hdev⟩ := not_mem_commandText
  have hslash : '\n' ≠ '/' := by decide
  simp only [List.mem_append, List.mem_cons, not_or]
  exact ⟨⟨⟨hadd, hip⟩, hslash, not_mem_toDigits rfl n⟩, hdev⟩

theorem not_mem_routeText {gw : Text} (hgw : '\n' ∉ gw) : '\n' ∉ ipRouteAdd ++ gw ++ devEth1 := by
  obtain ⟨-, hroute, hdev⟩ := not_mem_commandText
  simp only [List.mem_append, not_or]
  exact ⟨⟨hroute, hgw⟩, hdev⟩

theorem not_mem_addressLine (a : Answers) : '\n' ∉ addressLine a := by
  unfold addressLine
  exact not_mem_addressText a.sensorIp.property a.bitNetmask

theorem not_mem_routeLine (a : Answers) : '\n' ∉ routeLine a := by
  unfold routeLine
  exact not_mem_routeText a.sensorGw.property

/-- The appended text can be cut in only one way: at the line break, and in the first
line at the slash. -/
theorem twoCommands_appended_iff (a : Answers) : TwoCommands (appended a) ↔
    IsDottedQuad a.sensorIp.val ∧ IsDottedQuad a.sensorGw.val ∧ a.bitNetmask ≤ 32 := by
  constructor
  · rintro ⟨ip, gw, n, hip, hgw, hn, h⟩
    rw [appended, ← List.cons_append, ← List.append_assoc, ← List.cons_append, ← List.append_assoc,
      List.append_left_inj] at h
    obtain ⟨haddr, -, hroute⟩ := (List.append_cons_inj_of_notMem (not_mem_addressLine a)
      (not_mem_routeLine a)).mp h
    rw [routeLine, List.append_left_inj, List.append_right_inj] at hroute
    rw [addressLine, List.append_left_inj, List.append_assoc, List.append_assoc,
      List.append_right_inj] at haddr
    have hslash : '/' ∉ ip := hip.not_mem rfl (by decide)
    obtain ⟨hipEq, -, hdigits⟩ := (List.append_cons_inj_of_notMem hslash
      (not_mem_toDigits rfl n)).mp haddr.symm
    have hnEq := toDigits_injective hdigits
    rw [hroute, ← hnEq, ← hipEq]
    exact ⟨hip, hgw, hn⟩
  · rintro ⟨hip, hgw, hn⟩
    exact ⟨_, _, _, hip, hgw, hn, rfl⟩

/-- The number of one bits a recognised field stands for. -/
def fieldBits (dec : Text) : ℕ := (maskBits dec).getD 0

theorem maskLoop_eq (fields : List Text) (n : ℕ) :
    maskLoop fields n =
      if ∀ dec ∈ fields, (maskBits dec).isSome then ((n + (fields.map fieldBits).sum : ℕ) : ℤ) else -1 := by
  induction fields generalizing n with
  | nil => simp [maskLoop]
  | cons dec rest ih =>
    cases hdec : maskBits dec with
    | none => simp [maskLoop, hdec]
    | some k =>
      have hcast : (n : ℤ) + k = ((n + k : ℕ) : ℤ) := by omega
      simp only [maskLoop, hdec, hcast, ih, List.forall_mem_cons, Option.isSome_some, true_and,
        List.map_cons, List.sum_cons, fieldBits, Option.getD_some, Nat.add_assoc]

/-- `mask2cidr` returns the number of one bits, cut to an exit status, unless a field is
not one of the nine it knows. -/
theorem mask2cidr_eq_some_iff (sh : Shell) (ifs : Ifs) (mask : Text) (n : ℕ) :
    mask2cidr sh ifs mask = some n ↔ (∀ dec ∈ maskFields sh ifs mask, (maskBits dec).isSome) ∧
      n = ((maskFields sh ifs mask).map fieldBits).sum % 256 := by
  have h := maskLoop_eq (maskFields sh ifs mask) 0
  simp only [Nat.zero_add] at h
  change maskLoop (maskFields sh ifs mask) 0 = _ at h
  simp only [mask2cidr, h]
  by_cases hall : ∀ dec ∈ maskFields sh ifs mask, (maskBits dec).isSome
  · simp only [if_pos hall]
    rw [if_neg (by omega)]
    simp only [Option.some.injEq]
    constructor
    · rintro rfl
      exact ⟨hall, by omega⟩
    · rintro ⟨-, rfl⟩
      omega
  · simp [hall]

def typed (stdin : Text) : Line × Line × Line :=
  let (sensorIp, stdin) := read .default stdin
  let (sensorNetmask, stdin) := read .default stdin
  (sensorIp, sensorNetmask, (read .null stdin).1)

structure Accepted (sh : Shell) (stdin : Text) : Prop where
  ip : validIp sh .default (typed stdin).1.val = true
  netmask : validIp sh .default (typed stdin).2.1.val = true
  mask : ∀ dec ∈ maskFields sh .default (typed stdin).2.1.val, (maskBits dec).isSome
  gw : validIp sh .null (typed stdin).2.2.val = true

theorem prompts_eq_some_iff (sh : Shell) (stdin : Text) (a : Answers) :
    prompts sh stdin = some a ↔ Accepted sh stdin ∧ a = ⟨(typed stdin).1,
      ((maskFields sh .default (typed stdin).2.1.val).map fieldBits).sum % 256, (typed stdin).2.2⟩ := by
  obtain ⟨ip, stdin₁, hip⟩ : ∃ ip stdin₁, read .default stdin = (ip, stdin₁) := ⟨_, _, rfl⟩
  obtain ⟨netmask, stdin₂, hnetmask⟩ : ∃ netmask stdin₂, read .default stdin₁ = (netmask, stdin₂) :=
    ⟨_, _, rfl⟩
  obtain ⟨gw, stdin₃, hgw⟩ : ∃ gw stdin₃, read .null stdin₂ = (gw, stdin₃) := ⟨_, _, rfl⟩
  have htyped : typed stdin = (ip, netmask, gw) := by
    simp only [typed, hip, hnetmask, hgw]
  rw [htyped]
  constructor
  · intro h
    simp only [prompts, hip, hnetmask, hgw] at h
    split at h
    · cases h
    · next hvalidIp =>
      split at h
      · cases h
      · next hvalidNetmask =>
        cases hbits : mask2cidr sh .default netmask.val with
        | none => simp [hbits] at h
        | some n =>
          obtain ⟨hmask, rfl⟩ := (mask2cidr_eq_some_iff _ _ _ _).mp hbits
          simp only [hbits] at h
          split at h
          · cases h
          · next hvalidGw =>
            cases h
            refine ⟨⟨?_, ?_, ?_, ?_⟩, rfl⟩ <;> rw [htyped]
            · simpa using hvalidIp
            · simpa using hvalidNetmask
            · exact hmask
            · simpa using hvalidGw
  · rintro ⟨⟨hvalidIp, hvalidNetmask, hmask, hvalidGw⟩, rfl⟩
    rw [htyped] at hvalidIp hvalidNetmask hmask hvalidGw
    have hbits := (mask2cidr_eq_some_iff sh .default netmask.val _).mpr ⟨hmask, rfl⟩
    simp [prompts, hip, hnetmask, hgw, hvalidIp, hvalidNetmask, hvalidGw, hbits]

/-- What the checks leave open: the addresses as a whole, and more mask fields than four. -/
structure WellTyped (sh : Shell) (stdin : Text) : Prop where
  ip : IsDottedQuad (typed stdin).1.val
  gw : IsDottedQuad (typed stdin).2.2.val
  mask : ((maskFields sh .default (typed stdin).2.1.val).map fieldBits).sum % 256 ≤ 32

/-- Accepted answers append exactly the two commands if and only if both addresses are
dotted quads as a whole and the bits of the mask add up to at most 32. -/
theorem prompts_twoCommands_iff (sh : Shell) (stdin : Text) :
    (∀ a : Answers, prompts sh stdin = some a → TwoCommands (appended a)) ↔
      (Accepted sh stdin → WellTyped sh stdin) := by
  constructor
  · intro h haccepted
    have hprompts := (prompts_eq_some_iff sh stdin _).mpr ⟨haccepted, rfl⟩
    obtain ⟨hip, hgw, hn⟩ := (twoCommands_appended_iff _).mp (h _ hprompts)
    exact ⟨hip, hgw, hn⟩
  · intro h a ha
    obtain ⟨haccepted, rfl⟩ := (prompts_eq_some_iff sh stdin a).mp ha
    obtain ⟨hip, hgw, hn⟩ := h haccepted
    exact (twoCommands_appended_iff _).mpr ⟨hip, hgw, hn⟩

def plainShell : Shell := ⟨.posix, fun w => [w], fun _ => false, id⟩

def injectedAnswers : Text := "10.51.49.7; reboot\n255.255.255.0\n10.51.49.1\n".toList

/-- Only the first word of the first answer is checked, and all of it is appended. -/
theorem prompts_accept_second_command :
    ¬ ∀ a : Answers, prompts plainShell injectedAnswers = some a → TwoCommands (appended a) := by
  intro h
  obtain ⟨a, ha⟩ : ∃ a, prompts plainShell injectedAnswers = some a := by
    apply Option.isSome_iff_exists.mp
    decide +kernel
  have hquad := ((twoCommands_appended_iff a).mp (h a ha)).1
  have hip : a.sensorIp = (typed injectedAnswers).1 := by
    rw [((prompts_eq_some_iff _ _ _).mp ha).2]
  have hsemicolon : ';' ∈ (typed injectedAnswers).1.val := by decide +kernel
  rw [hip] at hquad
  exact hquad.not_mem rfl (by decide) hsemicolon

end WorkCode.IpSettingScript
