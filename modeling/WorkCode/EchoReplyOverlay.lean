import WorkCode.EchoReplies
import WorkCode.EchoRequestFields

/-!
# Where `RecvEchoReply` looks for the request

`RecvEchoReply` lays `ECHOREPLY` over the datagram: an `IPHDR` of twenty bytes, and behind
it the echoed request. An IP header with options is longer, and then the request is read
from the wrong place.
-/

namespace WorkCode.EchoReplyOverlay

open EchoRequestBuilders EchoRequestFields EchoReplies

abbrev Addr := BitVec 32

def sizeofIphdr : ℕ := 20

/-- `sizeof(ECHOREPLY)`, with 256 bytes of `cFiller` at the end. -/
def sizeofEchoReply (abi : Abi) : ℕ := sizeofIphdr + sizeofEchoRequest abi + 256

/-- What a raw socket hands out: the source address and the whole IP datagram. -/
structure Datagram where
  source : Addr
  bytes : List Byte

structure Reply where
  dwTime : ℕ
  lpsaFrom : Addr
  pTTL : Byte

/-- `RecvEchoReply`; `stack` is what `echoReply` holds before, and `recvfrom` is `none` when
the call fails: it is reported, and the fields are read all the same. -/
def recvEchoReply (abi : Abi) (stack : Mem) (lpsaFrom : Addr) (recvfrom : Option Datagram) : Reply :=
  let echoReply := match recvfrom with
    | some datagram => stack.store 0 (datagram.bytes.take (sizeofEchoReply abi))
    | none => stack
  { dwTime := echoReply.loadInt abi.order (sizeofIphdr + 9) abi.longBytes
    lpsaFrom := (recvfrom.map (·.source)).getD lpsaFrom
    pTTL := echoReply 8 }

section Overlay

variable (abi : Abi) (stack : Mem) (lpsaFrom : Addr)

theorem dwTime_recvEchoReply {datagram : Datagram}
    (hlen : sizeofIphdr + 9 + abi.longBytes ≤ datagram.bytes.length) :
    (recvEchoReply abi stack lpsaFrom (some datagram)).dwTime =
      field abi.order datagram.bytes (sizeofIphdr + 9) abi.longBytes := by
  have hsize : sizeofIphdr + 9 + abi.longBytes ≤ sizeofEchoReply abi := by
    simp only [sizeofEchoReply, sizeofEchoRequest]
    omega
  simp only [recvEchoReply, Mem.loadInt, field]
  rw [← Nat.zero_add (sizeofIphdr + 9), Mem.load_store_part _ _ (by rw [List.length_take]; omega),
    Nat.zero_add, List.drop_take, List.take_take, Nat.min_eq_left (by omega)]

theorem pTTL_recvEchoReply {datagram : Datagram} (hlen : 8 < datagram.bytes.length) :
    (recvEchoReply abi stack lpsaFrom (some datagram)).pTTL = datagram.bytes.getD 8 0 := by
  have hsize : 8 < sizeofEchoReply abi := by simp only [sizeofEchoReply, sizeofIphdr]; omega
  simp only [recvEchoReply]
  rw [Mem.store_inside _ _ (by rw [List.length_take]; omega), Nat.sub_zero,
    List.getD_eq_getElem?_getD, List.getElem?_take_of_lt hsize, ← List.getD_eq_getElem?_getD]

end Overlay

section Mirror

variable (abi : Abi) (header : IpHeader) (check : BitVec 16) (s : EchoStatics) (now : Timeval)

theorem length_echoReply : (echoReply abi.order header check (sendEchoRequest abi s now).1).length =
    header.val.length + sizeofEchoRequest abi := by
  have hrequest : (sendEchoRequest abi s now).1.length = sizeofEchoRequest abi :=
    Mem.length_load _ _ _
  have hsize : 9 ≤ sizeofEchoRequest abi := by rw [sizeofEchoRequest]; omega
  simp only [echoReply, List.length_append, List.length_drop, ByteOrder.length_bytes, hrequest,
    List.length_cons, List.length_nil]
  omega

theorem drop_echoReply (o : ByteOrder) (request : List Byte) {k : ℕ} (hk : 4 ≤ k) :
    (echoReply o header check request).drop (header.val.length + k) = request.drop k := by
  have hstart : ([ICMP_ECHOREPLY, 0] ++ o.bytes 2 check.toNat).length = 4 := by simp
  obtain ⟨r, rfl⟩ := Nat.exists_eq_add_of_le hk
  rw [echoReply, ← List.drop_drop, List.drop_left, ← List.drop_drop, List.drop_left' hstart,
    List.drop_drop]

/-- Where the overlay has `dwTime` the reply repeats the time stamp of the request. -/
def TimeAtOverlay : Prop :=
  ((echoReply abi.order header check (sendEchoRequest abi s now).1).drop (sizeofIphdr + 9)).take
    abi.longBytes = ((sendEchoRequest abi s now).1.drop 9).take abi.longBytes

theorem timeAtOverlay_of_noOptions (h : header.val.length = sizeofIphdr) :
    TimeAtOverlay abi header check s now := by
  rw [TimeAtOverlay, ← h, drop_echoReply header check _ _ (by omega)]

/-- The reply gives back the time of the request and the TTL of its own header. -/
structure Recovers (stack : Mem) (lpsaFrom source : Addr) : Prop where
  dwTime : (recvEchoReply abi stack lpsaFrom
      (some ⟨source, echoReply abi.order header check (sendEchoRequest abi s now).1⟩)).dwTime =
    (decode abi (sendEchoRequest abi s now).1).dwTime
  pTTL : (recvEchoReply abi stack lpsaFrom
      (some ⟨source, echoReply abi.order header check (sendEchoRequest abi s now).1⟩)).pTTL =
    header.val.getD 8 0

theorem recovers_iff_timeAtOverlay (stack : Mem) (lpsaFrom source : Addr) :
    Recovers abi header check s now stack lpsaFrom source ↔ TimeAtOverlay abi header check s now := by
  have hlen := length_echoReply abi header check s now
  have hheader : sizeofIphdr ≤ header.val.length := header.property.1
  have hsize : 9 + abi.longBytes ≤ sizeofEchoRequest abi := by rw [sizeofEchoRequest]; omega
  have hiphdr : sizeofIphdr = 20 := rfl
  have hTTL : (echoReply abi.order header check (sendEchoRequest abi s now).1).getD 8 0 =
      header.val.getD 8 0 := List.getD_append _ _ _ _ (by omega)
  have htime : (recvEchoReply abi stack lpsaFrom
        (some ⟨source, echoReply abi.order header check (sendEchoRequest abi s now).1⟩)).dwTime =
      (decode abi (sendEchoRequest abi s now).1).dwTime ↔ TimeAtOverlay abi header check s now := by
    have hrequest : (sendEchoRequest abi s now).1.length = sizeofEchoRequest abi :=
      Mem.length_load _ _ _
    rw [dwTime_recvEchoReply abi stack lpsaFrom (by dsimp only; omega)]
    simp only [decode, field]
    rw [ByteOrder.value_eq_iff _ (by simp only [List.length_take, List.length_drop]; omega)]
    rfl
  constructor
  · intro h
    exact htime.mp h.dwTime
  · intro h
    refine ⟨htime.mpr h, ?_⟩
    rw [pTTL_recvEchoReply abi stack lpsaFrom (by dsimp only; omega), hTTL]

theorem recovers_of_noOptions (stack : Mem) (lpsaFrom source : Addr) (h : header.val.length = sizeofIphdr) :
    Recovers abi header check s now stack lpsaFrom source :=
  (recovers_iff_timeAtOverlay abi header check s now stack lpsaFrom source).mpr
    (timeAtOverlay_of_noOptions abi header check s now h)

end Mirror

/-- `RecvEchoReply` recovers the time and the TTL exactly when the datagram has the bytes of the time
stamp in the place of the overlay: always when the IP header has no options, and with options
only if they and the ICMP header happen to have these bytes. -/
theorem recvEchoReply_recovers_iff (abi : Abi) (stack : Mem) (lpsaFrom source : Addr)
    (header : IpHeader) (check : BitVec 16) (s : EchoStatics) (now : Timeval) :
    (Recovers abi header check s now stack lpsaFrom source ↔ TimeAtOverlay abi header check s now) ∧
      (header.val.length = sizeofIphdr → Recovers abi header check s now stack lpsaFrom source) :=
  ⟨recovers_iff_timeAtOverlay abi header check s now stack lpsaFrom source,
    recovers_of_noOptions abi header check s now stack lpsaFrom source⟩

def longHeader : IpHeader := ⟨0x4f :: List.replicate 59 0, by decide⟩

/-- The time is read from the options. -/
theorem recvEchoReply_reads_options :
    ¬ ∀ (abi : Abi) (stack : Mem) (lpsaFrom source : Addr) (header : IpHeader) (check : BitVec 16)
      (s : EchoStatics) (now : Timeval), Recovers abi header check s now stack lpsaFrom source := by
  intro h
  have htime := (h (Abi.lp64 .little) (fun _ => 0) 0 0 longHeader 0 .initial ⟨1, 0⟩).dwTime
  have hlen := length_echoReply (Abi.lp64 .little) longHeader 0 .initial ⟨1, 0⟩
  have hheader : longHeader.val.length = 60 := by decide
  have hlong : (Abi.lp64 .little).longBytes = 8 := rfl
  have hiphdr : sizeofIphdr = 20 := rfl
  rw [dwTime_sendEchoRequest, dwTime_recvEchoReply _ _ _ (by dsimp only; omega), field, echoReply,
    List.drop_append_of_le_length (by omega), List.take_append_of_le_length
      (by rw [List.length_drop]; omega)] at htime
  revert htime
  decide

end WorkCode.EchoReplyOverlay
