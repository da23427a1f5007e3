import WorkCode.EchoReplies

/-!
# The loss that `ping_test.c` reports

`main` calls `CORE_Ping` once for each sequence number from 1 on, compares the result with
it, and prints the part that was lost. The loop variable is sequence number, loop test and
divisor at once; `CORE_Ping` puts it into a field of sixteen bits.
-/

namespace WorkCode.LossReport

open EchoRequestBuilders EchoReplies

abbrev Text := List Char

/-- `INT_MAX`; an `int` that would exceed it is undefined. -/
def intMax : ℤ := 2 ^ 31 - 1

theorem intMax_eq : intMax = 2147483647 := by decide

/-- What one call of `CORE_Ping` meets; `recvfrom` is `none` when the call fails. -/
structure Exchange where
  s_HostEntry : Bool
  s_Socket : ℤ
  s_SendBytes : ℤ
  s_IsSelect : ℤ
  recvfrom : Option (List Byte)

def corePing (o : ByteOrder) (exchange : Exchange) : ℤ :=
  if exchange.s_HostEntry then
    if 0 ≤ exchange.s_Socket then
      if exchange.s_SendBytes = sizeofIcmpPacket then
        if 0 < exchange.s_IsSelect then
          match exchange.recvfrom with
          | some datagram => sReturn o datagram
          | none => -1
        else -1
      else -1
    else -1
  else -1

structure Line where
  s_IsError : Bool
  s_Index : ℤ
  s_Check : ℤ
  s_ErrorCount : ℤ

structure State where
  s_Index : ℤ
  s_ErrorCount : ℤ
  lines : List Line

/-- The body of the loop; `results` is what `CORE_Ping` returns for each `s_Index`. -/
def body (results : BitVec 32 → ℤ) (s : State) : State :=
  let s_Check := results (BitVec.ofInt 32 s.s_Index)
  let s_IsError := decide (s_Check ≠ s.s_Index)
  let s_ErrorCount := if s_IsError then s.s_ErrorCount + 1 else s.s_ErrorCount
  ⟨s.s_Index, s_ErrorCount, s.lines ++ [⟨s_IsError, s.s_Index, s_Check, s_ErrorCount⟩]⟩

/-- `do … while (s_Index++ < s_Count)`, `none` when `s_Index` overflows. -/
def loop (results : BitVec 32 → ℤ) (s_Count : ℤ) (s : State) : Option State :=
  let next := { body results s with s_Index := s.s_Index + 1 }
  if s.s_Index = intMax then none
  else if s.s_Index < s_Count then loop results s_Count next
  else some next
termination_by (s_Count - s.s_Index).toNat
decreasing_by omega

inductive Outcome
  | usage
  | undefined
  | report (lines : List Line) (loss s_Return : ℤ)

/-- `s_Count`, from the arguments behind the host. -/
def sCount (atoi : Text → BitVec 32) : List Text → ℤ
  | [] => 8
  | count :: _ => (atoi count).toInt

/-- `main` on its arguments, the first of which is the program's name. -/
def main (atoi : Text → BitVec 32) (results : Text → BitVec 32 → ℤ) : List Text → Outcome
  | _ :: host :: rest =>
    match loop (results host) (sCount atoi rest) ⟨1, 0, []⟩ with
    | none => .undefined
    | some s =>
      if intMax < s.s_ErrorCount * 100 then .undefined
      else .report s.lines ((s.s_ErrorCount * 100).tdiv s.s_Index) s.s_ErrorCount
  | _ => .usage

/-- The loss of a report is the whole part of the percentage of calls that were lost. -/
def Outcome.LossRight : Outcome → Prop
  | .report lines loss _ =>
    loss = (100 * lines.countP (fun line => line.s_Check ≠ line.s_Index) / lines.length : ℕ)
  | _ => False

/-- Every round is reported OK and the error count is 0. -/
def Outcome.AllOk : Outcome → Prop
  | .report lines _ s_Return => (∀ line ∈ lines, line.s_IsError = false) ∧ s_Return = 0
  | _ => False

section Loop

variable (results : BitVec 32 → ℤ)

def Lost (k : ℕ) : Prop := results (BitVec.ofInt 32 (k + 1)) ≠ k + 1

instance : DecidablePred (Lost results) := fun k =>
  inferInstanceAs (Decidable (results (BitVec.ofInt 32 (k + 1)) ≠ k + 1))

def lostIn (n : ℕ) : ℕ := (List.range n).countP (Lost results ·)

theorem lostIn_succ (n : ℕ) :
    lostIn results (n + 1) = lostIn results n + if Lost results n then 1 else 0 := by
  simp [lostIn, List.range_succ, List.countP_append, List.countP_singleton]

theorem lostIn_eq_zero_iff (n : ℕ) : lostIn results n = 0 ↔ ∀ k < n, ¬ Lost results k := by
  simp [lostIn, List.countP_eq_zero]

def line (k : ℕ) : Line :=
  ⟨decide (Lost results k), k + 1, results (BitVec.ofInt 32 (k + 1)), lostIn results (k + 1)⟩

def after (n : ℕ) : State := ⟨n + 1, lostIn results n, (List.range n).map (line results)⟩

theorem next_after (n : ℕ) :
    { body results (after results n) with s_Index := (after results n).s_Index + 1 } =
      after results (n + 1) := by
  have hcount : (if decide (Lost results n) then (lostIn results n : ℤ) + 1 else lostIn results n) =
      (lostIn results (n + 1) : ℕ) := by
    rw [lostIn_succ]
    by_cases hlost : Lost results n
    · simp [hlost]
    · simp [hlost]
  simp only [after, List.range_succ, List.map_append, List.map_singleton, line]
  rw [← hcount]
  simp only [body, Lost]
  push_cast
  rfl

/-- The loop makes calls until the count is reached, at least one. -/
theorem loop_after {s_Count : ℤ} (hcount : s_Count ≤ intMax) (left n : ℕ) (hn : (n : ℤ) + 1 ≤ intMax)
    (hleft : (s_Count - (n + 1)).toNat = left) :
    loop results s_Count (after results n) =
      if ((n + left : ℕ) : ℤ) + 1 = intMax then none else some (after results (n + left + 1)) := by
  induction left generalizing n with
  | zero =>
    rw [loop, next_after]
    have hdone : ¬ (after results n).s_Index < s_Count := by
      change ¬ (n : ℤ) + 1 < s_Count
      omega
    rw [if_neg hdone]
    rfl
  | succ left ih =>
    have hmore : (after results n).s_Index < s_Count := by
      change (n : ℤ) + 1 < s_Count
      omega
    have hfits : (after results n).s_Index ≠ intMax := by
      change (n : ℤ) + 1 ≠ intMax
      omega
    rw [loop, next_after, if_neg hfits, if_pos hmore,
      ih (n + 1) (by push_cast; omega) (by push_cast; omega),
      show n + 1 + left = n + (left + 1) by omega]

def calls (s_Count : ℤ) : ℕ := (max 1 s_Count).toNat

theorem loop_start {s_Count : ℤ} (hcount : s_Count ≤ intMax) :
    loop results s_Count ⟨1, 0, []⟩ =
      if s_Count = intMax then none else some (after results (calls s_Count)) := by
  have hmax := intMax_eq
  have hstart : (⟨1, 0, []⟩ : State) = after results 0 := by simp [after, lostIn]
  have hcalls : 0 + (s_Count - ((0 : ℕ) + 1)).toNat + 1 = calls s_Count := by
    rw [calls]
    omega
  rw [hstart, loop_after results hcount _ 0 (by rw [hmax]; decide) rfl, hcalls]
  congr 1
  rw [eq_iff_iff, hmax]
  omega

theorem length_lines (n : ℕ) : (after results n).lines.length = n := by simp [after]

theorem countP_lines (n : ℕ) :
    (after results n).lines.countP (fun line => line.s_Check ≠ line.s_Index) = lostIn results n := by
  rw [after, List.countP_map]
  rfl

end Loop

/-- Dividing by one more gives the same whole part exactly when the remainder leaves room. -/
theorem div_succ_eq_div_iff (a : ℕ) {n : ℕ} (hn : 0 < n) : a / (n + 1) = a / n ↔ a / n ≤ a % n := by
  have hle : a / (n + 1) ≤ a / n := Nat.div_le_div_left (by omega) hn
  have hdiv : a / n * n + a % n = a := Nat.div_add_mod' a n
  have hroom : a / n ≤ a / (n + 1) ↔ a / n ≤ a % n := by
    rw [Nat.le_div_iff_mul_le (by omega), Nat.mul_succ]
    omega
  rw [← hroom]
  exact ⟨fun h => h.ge, fun h => Nat.le_antisymm hle h⟩

theorem sCount_le (atoi : Text → BitVec 32) (rest : List Text) : sCount atoi rest ≤ intMax := by
  cases rest with
  | nil =>
    change (8 : ℤ) ≤ intMax
    decide
  | cons count rest =>
    have hlt := BitVec.toInt_lt (x := atoi count)
    change (atoi count).toInt ≤ 2 ^ 31 - 1
    omega

section Main

variable (atoi : Text → BitVec 32) (results : Text → BitVec 32 → ℤ) (prog host : Text)
  (rest : List Text)

/-- The divisor is one more than the number of calls. -/
theorem main_eq : main atoi results (prog :: host :: rest) =
    if sCount atoi rest = intMax ∨ intMax < (100 * lostIn (results host) (calls (sCount atoi rest)) : ℕ)
    then .undefined
    else .report (after (results host) (calls (sCount atoi rest))).lines
      (100 * lostIn (results host) (calls (sCount atoi rest)) / (calls (sCount atoi rest) + 1) : ℕ)
      (lostIn (results host) (calls (sCount atoi rest))) := by
  have hmul : ∀ lost : ℕ, (lost : ℤ) * 100 = (100 * lost : ℕ) := by
    intro lost
    push_cast
    rw [mul_comm]
  rw [main, loop_start (results host) (sCount_le atoi rest)]
  by_cases hmax : sCount atoi rest = intMax
  · rw [if_pos hmax, if_pos (Or.inl hmax)]
  · rw [if_neg hmax]
    simp only [after, hmul, hmax, false_or]
    rfl

/-- The percentage is right exactly when it leaves no remainder below it, as long as neither
the loop variable nor the product overflows. -/
theorem lossRight_iff : (main atoi results (prog :: host :: rest)).LossRight ↔
    sCount atoi rest < intMax ∧
      (100 * lostIn (results host) (calls (sCount atoi rest)) : ℕ) ≤ intMax ∧
      100 * lostIn (results host) (calls (sCount atoi rest)) / calls (sCount atoi rest) ≤
        100 * lostIn (results host) (calls (sCount atoi rest)) % calls (sCount atoi rest) := by
  have hle := sCount_le atoi rest
  have hpos : 0 < calls (sCount atoi rest) := by rw [calls]; omega
  rw [main_eq]
  split
  · next hundefined =>
    simp only [Outcome.LossRight, false_iff]
    omega
  · next hdefined =>
    simp only [Outcome.LossRight, length_lines, countP_lines, Nat.cast_inj,
      div_succ_eq_div_iff _ hpos]
    constructor
    · intro h
      exact ⟨by omega, by omega, h⟩
    · intro h
      exact h.2.2

end Main

/-- One request that is not answered is a loss of one half. -/
theorem singleLoss_not_right :
    ¬ ∀ (atoi : Text → BitVec 32) (results : Text → BitVec 32 → ℤ) (prog host : Text)
      (rest : List Text),
      (100 * lostIn (results host) (calls (sCount atoi rest)) : ℕ) ≤ intMax →
      (main atoi results (prog :: host :: rest)).LossRight := by
  intro h
  have hright := h (fun _ => 1) (fun _ _ => -1) [] [] [['1']] (by decide)
  have hreport := main_eq (fun _ => 1) (fun _ _ => -1) [] [] [['1']]
  rw [if_neg (by decide)] at hreport
  rw [hreport] at hright
  revert hright
  change ¬ ((_ : ℕ) : ℤ) = ((_ : ℕ) : ℤ)
  decide

structure Answered (abi : Abi) (pid : BitVec 32) (exchange : Exchange) (s_Index : BitVec 32) :
    Prop where
  s_HostEntry : exchange.s_HostEntry = true
  s_Socket : 0 ≤ exchange.s_Socket
  s_SendBytes : exchange.s_SendBytes = sizeofIcmpPacket
  s_IsSelect : 0 < exchange.s_IsSelect
  recvfrom : ∃ stack now header check, exchange.recvfrom =
    some (echoReply abi.order header check (corePingRequest abi stack s_Index pid now))

theorem Answered.corePing_eq {abi : Abi} {pid s_Index : BitVec 32} {exchange : Exchange}
    (h : Answered abi pid exchange s_Index) :
    corePing abi.order exchange = requestSeq s_Index := by
  obtain ⟨stack, now, header, check, hrecv⟩ := h.recvfrom
  rw [corePing, if_pos h.s_HostEntry, if_pos h.s_Socket, if_pos h.s_SendBytes,
    if_pos h.s_IsSelect, hrecv]
  exact sReturn_echoReply abi header check stack s_Index pid now

section Answers

variable (abi : Abi) (pid : BitVec 32) (atoi : Text → BitVec 32) (exchanges : BitVec 32 → Exchange)
  (prog host : Text) (rest : List Text)

def pings : Outcome :=
  main atoi (fun _ s_Index => corePing abi.order (exchanges s_Index)) (prog :: host :: rest)

variable {abi pid exchanges}

/-- The sixteen bits of an answer tell whether the sequence number fits them. -/
theorem Answered.lost_iff {k : ℕ} (hk : (k : ℤ) + 1 ≤ intMax)
    (h : Answered abi pid (exchanges (BitVec.ofInt 32 (k + 1))) (BitVec.ofInt 32 (k + 1))) :
    Lost (fun s_Index => corePing abi.order (exchanges s_Index)) k ↔ 65536 ≤ k + 1 := by
  have hmax := intMax_eq
  have hindex : (BitVec.ofInt 32 (k + 1)).toNat = k + 1 := by
    rw [← Int.natCast_succ, BitVec.ofInt_natCast, BitVec.toNat_ofNat]
    omega
  rw [Lost, h.corePing_eq, requestSeq, hindex]
  omega

variable {atoi rest}

theorem allOk_of_le (h : ∀ k < calls (sCount atoi rest),
      Answered abi pid (exchanges (BitVec.ofInt 32 (k + 1))) (BitVec.ofInt 32 (k + 1)))
    (hcount : sCount atoi rest ≤ 65535) : (pings abi atoi exchanges prog host rest).AllOk := by
  have hmax := intMax_eq
  have hcalls : calls (sCount atoi rest) ≤ 65535 := by rw [calls]; omega
  have hkept : ∀ k < calls (sCount atoi rest),
      ¬ Lost (fun s_Index => corePing abi.order (exchanges s_Index)) k := by
    intro k hk
    rw [(h k hk).lost_iff (by omega)]
    omega
  have hzero := (lostIn_eq_zero_iff _ _).mpr hkept
  rw [pings, main_eq, hzero, if_neg (by rw [hmax]; omega)]
  refine ⟨?_, rfl⟩
  intro line hline
  obtain ⟨k, hk, rfl⟩ := List.mem_map.mp hline
  exact decide_eq_false (hkept k (List.mem_range.mp hk))

theorem not_allOk_of_lt (h : ∀ k < calls (sCount atoi rest),
      Answered abi pid (exchanges (BitVec.ofInt 32 (k + 1))) (BitVec.ofInt 32 (k + 1)))
    (hcount : 65535 < sCount atoi rest) : ¬ (pings abi atoi exchanges prog host rest).AllOk := by
  have hmax := intMax_eq
  have hcalls : 65535 < calls (sCount atoi rest) := by rw [calls]; omega
  have hlost : Lost (fun s_Index => corePing abi.order (exchanges s_Index)) 65535 := by
    rw [(h 65535 hcalls).lost_iff (by rw [hmax]; decide)]
  rw [pings, main_eq]
  split
  · exact id
  · intro hok
    have hline := hok.1 _ (List.mem_map.mpr ⟨65535, List.mem_range.mpr hcalls, rfl⟩)
    exact of_decide_eq_false hline hlost

end Answers

/-- When every call is answered, every round is OK exactly up to a count of 65535. -/
theorem allOk_iff (abi : Abi) (pid : BitVec 32) (atoi : Text → BitVec 32)
    (exchanges : BitVec 32 → Exchange) (prog host : Text) (rest : List Text)
    (h : ∀ k < calls (sCount atoi rest),
      Answered abi pid (exchanges (BitVec.ofInt 32 (k + 1))) (BitVec.ofInt 32 (k + 1))) :
    (pings abi atoi exchanges prog host rest).AllOk ↔ sCount atoi rest ≤ 65535 := by
  constructor
  · intro hok
    by_contra hlarge
    exact not_allOk_of_lt prog host h (by omega) hok
  · exact allOk_of_le prog host h

/-- A host that answers every request of process 7 at once, behind four bytes of options. -/
def answering (s_Index : BitVec 32) : Exchange :=
  let header : IpHeader := ⟨0x46 :: List.replicate 23 0, by decide⟩
  let request := corePingRequest (Abi.lp64 .little) (fun _ => 0) s_Index 7 ⟨0, 0⟩
  ⟨true, 3, sizeofIcmpPacket, 1, some (echoReply .little header 0 request)⟩

theorem answered_answering (s_Index : BitVec 32) :
    Answered (Abi.lp64 .little) 7 (answering s_Index) s_Index :=
  ⟨rfl, (by decide : (0 : ℤ) ≤ 3), rfl, Int.one_pos, _, _, _, _, rfl⟩

theorem allOk_iff_defaultCount :
    (pings (Abi.lp64 .little) (fun _ => 0) answering [] [] []).AllOk ↔
      sCount (fun _ => 0) [] ≤ 65535 :=
  allOk_iff (Abi.lp64 .little) 7 (fun _ => 0) answering [] [] [] fun _ _ => answered_answering _

/-- The answer to the request with sequence number 65536 carries a 0. -/
theorem largeCount_not_allOk :
    ¬ ∀ (abi : Abi) (pid : BitVec 32) (atoi : Text → BitVec 32) (exchanges : BitVec 32 → Exchange)
      (prog host : Text) (rest : List Text), 0 < sCount atoi rest →
      (∀ k < calls (sCount atoi rest),
        Answered abi pid (exchanges (BitVec.ofInt 32 (k + 1))) (BitVec.ofInt 32 (k + 1))) →
      (pings abi atoi exchanges prog host rest).AllOk := by
  intro h
  have hcount : sCount (fun _ => 65536) [[]] = 65536 := by decide
  have hok := h (Abi.lp64 .little) 7 (fun _ => 65536) answering [] [] [[]] (by rw [hcount]; decide)
    fun _ _ => answered_answering _
  revert hok
  apply not_allOk_of_lt [] []
  · intro k _
    exact answered_answering _
  · rw [hcount]
    decide

end WorkCode.LossReport
