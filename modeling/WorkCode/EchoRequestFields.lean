import WorkCode.EchoRequestBuilders
import Mathlib.Data.List.Induction

/-!
# The fields of an echo request

A request of `ping.c` read back under the layout of `ECHOREQUEST`. The structure is packed
and persistent, and `gettimeofday` is given the address of `dwTime` alone but fills a whole
`struct timeval`: its microseconds stand where the loop has just written data.
-/

namespace WorkCode.EchoRequestFields

open EchoRequestBuilders

def field (o : ByteOrder) (packet : List Byte) (offset n : ℕ) : ℕ :=
  o.value ((packet.drop offset).take n)

theorem field_load (m : Mem) (o : ByteOrder) {a size offset n : ℕ} (h : offset + n ≤ size) :
    field o (m.load a size) offset n = m.loadInt o (a + offset) n := by
  rw [field, m.take_drop_load h, Mem.loadInt]

/-- `ECHOREQUEST`, with its `ICMPHDR` in front. -/
structure EchoRequest where
  type : ℕ
  code : ℕ
  checksum : ℕ
  id : ℕ
  seq : ℕ
  data : Byte
  dwTime : ℕ
  cData : ℕ → Byte

def decode (abi : Abi) (packet : List Byte) : EchoRequest where
  type := field abi.order packet 0 1
  code := field abi.order packet 1 1
  checksum := field abi.order packet 2 2
  id := field abi.order packet 4 2
  seq := field abi.order packet 6 2
  data := packet.getD 8 0
  dwTime := field abi.order packet 9 abi.longBytes
  cData := fun j => packet.getD (9 + abi.longBytes + j) 0

/-- The fields that the `k`-th request of a process is meant to have. -/
structure Carries (request : EchoRequest) (k : ℕ) (now : Timeval) : Prop where
  type : request.type = ICMP_ECHOREQ
  code : request.code = 0
  id : request.id = k % 65536
  seq : request.seq = k % 65536
  dwTime : request.dwTime = now.sec.toNat
  cData : ∀ j < REQ_DATASIZE, request.cData j = BitVec.ofNat 8 (' '.toNat + j)

def EchoStatics.after (abi : Abi) (times : List Timeval) : EchoStatics :=
  times.foldl (fun s now => (sendEchoRequest abi s now).2) .initial

theorem counters_after (abi : Abi) (times : List Timeval) :
    (EchoStatics.after abi times).nId = BitVec.ofNat 32 (times.length + 1) ∧
      (EchoStatics.after abi times).nSeq = BitVec.ofNat 32 (times.length + 1) := by
  induction times using List.reverseRecOn with
  | nil => exact ⟨rfl, rfl⟩
  | append_singleton times now ih =>
    have hstep : EchoStatics.after abi (times ++ [now]) =
        (sendEchoRequest abi (EchoStatics.after abi times) now).2 := by
      simp [EchoStatics.after]
    rw [hstep, List.length_append, List.length_singleton, BitVec.ofNat_add (times.length + 1) 1]
    simp only [sendEchoRequest, ih.1, ih.2]
    exact ⟨rfl, rfl⟩

section Fields

variable (abi : Abi) (s : EchoStatics) (now : Timeval)

/-- Outside the checksum the packet is what `SendEchoRequest` wrote before it. -/
theorem field_sendEchoRequest {offset n : ℕ} (hsize : offset + n ≤ sizeofEchoRequest abi)
    (hcheck : offset + n ≤ 2 ∨ 4 ≤ offset) :
    field abi.order (sendEchoRequest abi s now).1 offset n =
      (echoFields abi s now).loadInt abi.order offset n := by
  simp only [sendEchoRequest]
  rw [field_load _ _ hsize, Nat.zero_add, Mem.loadInt, Mem.load_storeInt_disjoint _ _ _ (by omega),
    Mem.loadInt]

def header : Mem :=
  let m := s.echoReq.storeInt abi.order 0 1 ICMP_ECHOREQ
  let m := m.storeInt abi.order 1 1 0
  let m := m.storeInt abi.order 2 2 0
  let m := m.storeInt abi.order 4 2 s.nId.toNat
  m.storeInt abi.order 6 2 s.nSeq.toNat

/-- Neither the data nor the time stamp reaches a field before `dwTime`. -/
theorem field_header {offset n : ℕ} (h : offset + n ≤ 9) (hcheck : offset + n ≤ 2 ∨ 4 ≤ offset) :
    field abi.order (sendEchoRequest abi s now).1 offset n =
      (header abi s).loadInt abi.order offset n := by
  have hsize : offset + n ≤ sizeofEchoRequest abi := by rw [sizeofEchoRequest]; omega
  rw [field_sendEchoRequest abi s now hsize hcheck]
  simp only [Mem.loadInt, echoFields, header]
  rw [load_gettimeofday_before _ _ _ h, Mem.load_fill_disjoint _ _ (by omega)]

theorem type_sendEchoRequest : (decode abi (sendEchoRequest abi s now).1).type = ICMP_ECHOREQ := by
  simp only [decode]
  rw [field_header abi s now (by omega) (by omega), Mem.loadInt, header]
  simp (disch := omega) only [Mem.load_storeInt_disjoint, Mem.load_storeInt, ByteOrder.value_bytes]
  rfl

theorem code_sendEchoRequest : (decode abi (sendEchoRequest abi s now).1).code = 0 := by
  simp only [decode]
  rw [field_header abi s now (by omega) (by omega), Mem.loadInt, header]
  simp (disch := omega) only [Mem.load_storeInt_disjoint, Mem.load_storeInt, ByteOrder.value_bytes]
  rfl

theorem id_sendEchoRequest :
    (decode abi (sendEchoRequest abi s now).1).id = s.nId.toNat % 65536 := by
  simp only [decode]
  rw [field_header abi s now (by omega) (by omega), Mem.loadInt, header,
    Mem.load_storeInt_disjoint _ _ _ (by omega), Mem.load_storeInt, ByteOrder.value_bytes]
  rfl

theorem seq_sendEchoRequest :
    (decode abi (sendEchoRequest abi s now).1).seq = s.nSeq.toNat % 65536 := by
  simp only [decode]
  rw [field_header abi s now (by omega) (by omega), Mem.loadInt, header, Mem.load_storeInt,
    ByteOrder.value_bytes]
  rfl

theorem dwTime_sendEchoRequest :
    (decode abi (sendEchoRequest abi s now).1).dwTime = now.sec.toNat % 256 ^ abi.longBytes := by
  have hsize : 9 + abi.longBytes ≤ sizeofEchoRequest abi := by rw [sizeofEchoRequest]; omega
  simp only [decode]
  rw [field_sendEchoRequest abi s now hsize (by omega), Mem.loadInt, echoFields, gettimeofday,
    Mem.load_storeInt_disjoint _ _ _ (by omega), Mem.load_storeInt, ByteOrder.value_bytes]

theorem cData_sendEchoRequest {j : ℕ} (hj : j < REQ_DATASIZE) :
    (decode abi (sendEchoRequest abi s now).1).cData j =
      if j < abi.longBytes then (abi.order.bytes abi.longBytes now.usec.toNat).getD j 0
      else BitVec.ofNat 8 (' '.toNat + j) := by
  have hsize : 9 + abi.longBytes + j < sizeofEchoRequest abi := by rw [sizeofEchoRequest]; omega
  simp only [decode, sendEchoRequest]
  rw [Mem.getD_load _ hsize, Nat.zero_add, Mem.storeInt_outside _ _ _ (by omega), echoFields,
    gettimeofday]
  split
  · next hlong =>
    rw [Mem.storeInt, Mem.store_inside _ _ (by rw [ByteOrder.length_bytes]; omega),
      Nat.add_sub_cancel_left]
  · next hlong =>
    rw [Mem.storeInt_outside _ _ _ (by omega), Mem.storeInt_outside _ _ _ (by omega),
      Mem.fill_inside _ _ (by omega), Nat.add_sub_cancel_left]

end Fields

def firstData : List Byte := (List.range 8).map fun nRet => BitVec.ofNat 8 (' '.toNat + nRet)

theorem eq_firstData_iff {bs : List Byte} (hlen : bs.length = 8) :
    bs = firstData ↔ ∀ j < 8, bs.getD j 0 = BitVec.ofNat 8 (' '.toNat + j) := by
  have hget : ∀ j < 8, firstData.getD j 0 = BitVec.ofNat 8 (' '.toNat + j) := by decide
  constructor
  · intro h j hj
    rw [h, hget j hj]
  · intro h
    apply List.ext_getElem hlen
    intro j hj hj'
    rw [← List.getD_eq_getElem bs 0 hj, ← List.getD_eq_getElem firstData 0 hj',
      h j (by omega), hget j (by omega)]

/-- On a 64-bit host every field but the first eight data bytes is right, and these are
right exactly when the microseconds happen to consist of them. -/
theorem carries_iff (o : ByteOrder) (before : List Timeval) (now : Timeval) :
    Carries (decode (Abi.lp64 o)
        (sendEchoRequest (Abi.lp64 o) (EchoStatics.after (Abi.lp64 o) before) now).1)
        (before.length + 1) now ↔
      o.bytes 8 now.usec.toNat = firstData := by
  rw [eq_firstData_iff (o.length_bytes 8 _)]
  constructor
  · intro h j hj
    have hdata : j < REQ_DATASIZE := Nat.lt_of_lt_of_le hj (by decide)
    have hlong : j < (Abi.lp64 o).longBytes := hj
    have hsent := h.cData j hdata
    rw [cData_sendEchoRequest _ _ _ hdata, if_pos hlong] at hsent
    exact hsent
  · intro h
    have hcounter : (BitVec.ofNat 32 (before.length + 1)).toNat % 65536 =
        (before.length + 1) % 65536 := by
      rw [BitVec.toNat_ofNat]
      omega
    obtain ⟨hnId, hnSeq⟩ := counters_after (Abi.lp64 o) before
    refine ⟨type_sendEchoRequest _ _ _, code_sendEchoRequest _ _ _, ?_, ?_, ?_, ?_⟩
    · rw [id_sendEchoRequest, hnId, hcounter]
    · rw [seq_sendEchoRequest, hnSeq, hcounter]
    · rw [dwTime_sendEchoRequest]
      exact Nat.mod_eq_of_lt now.sec.isLt
    · intro j hj
      rw [cData_sendEchoRequest _ _ _ hj]
      split
      · next hlong => exact h j hlong
      · rfl

/-- A number of microseconds below a second never spells them. -/
theorem bytes_ne_firstData (o : ByteOrder) {usec : ℕ} (h : usec < 1000000) :
    o.bytes 8 usec ≠ firstData := by
  intro heq
  have hvalue : o.value firstData = usec := by
    rw [← heq, ByteOrder.value_bytes, Nat.mod_eq_of_lt (by omega)]
  have hbig : 1000000 ≤ o.value firstData := by cases o <;> decide
  omega

/-- The first request of a process, one microsecond after a full second. -/
theorem firstRequest_not_carries :
    ¬ ∀ (o : ByteOrder) (before : List Timeval) (now : Timeval),
      Carries (decode (Abi.lp64 o)
        (sendEchoRequest (Abi.lp64 o) (EchoStatics.after (Abi.lp64 o) before) now).1)
        (before.length + 1) now := by
  intro h
  have hspace : (decode (Abi.lp64 .little)
      (sendEchoRequest (Abi.lp64 .little) .initial ⟨0, 1⟩).1).cData 0 = 1 := by
    rw [cData_sendEchoRequest _ _ _ (by decide)]
    rfl
  have hdata := (h .little [] ⟨0, 1⟩).cData 0 (by decide)
  change (decode (Abi.lp64 .little)
      (sendEchoRequest (Abi.lp64 .little) .initial ⟨0, 1⟩).1).cData 0 = _ at hdata
  rw [hspace] at hdata
  revert hdata
  decide

end WorkCode.EchoRequestFields
