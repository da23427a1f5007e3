import WorkCode.FileServer
import WorkCode.XdrCodec

/-!
# The remote calls of `ssson.x`

The client's stubs put a procedure number and encoded arguments on the wire, the dispatcher of
the server decodes the arguments, calls the handler and sends back its encoded result. What
the transport does to a call is given with it: the message or the answer may be lost, and a
reply may be too long for it.
-/

namespace WorkCode.RemoteCalls

open FileServer XdrCodec

def xdrEvent : Codec (BitVec 32 × List Byte) := xdrInt.seq (xdrString 128)

/-- The members of `struct file`; the length of `data` goes up to `~0`. -/
def xdrFile : Codec (Name × List Byte) := (xdrString 128).seq (xdrBytes (2 ^ 32 - 1))

/-- No null byte, as in what a `char *` points to. -/
def CString (s : List Byte) : Prop := s.takeWhile (· ≠ 0) = s

theorem lawful_xdrEvent : Lawful xdrEvent (fun e => True ∧ e.2.length ≤ 128 ∧ CString e.2) :=
  lawful_xdrInt.seq (lawful_xdrString (by decide))

theorem lawful_xdrFile : Lawful xdrFile
    (fun f => (f.1.length ≤ 128 ∧ CString f.1) ∧ f.2.length ≤ 2 ^ 32 - 1 ∧ id f.2 = f.2) :=
  (lawful_xdrString (by decide)).seq (lawful_xdrBytes (by decide))

/-- The two structures on the wire. Every value whose strings are C strings of the declared lengths
is written and read back, whatever follows it; and whatever bytes arrive, a value that is read
has strings of these lengths, is written again, and is then read as the same. -/
theorem wire_correct :
    (∀ eventId desc, desc.length ≤ 128 → CString desc → ∃ bs, xdrEvent.encode (eventId, desc) = some bs ∧
      ∀ rest, xdrEvent.decode (bs ++ rest) = some ((eventId, desc), rest)) ∧
    (∀ name data, name.length ≤ 128 → CString name → data.length < 2 ^ 32 → ∃ bs,
      xdrFile.encode (name, data) = some bs ∧ ∀ rest, xdrFile.decode (bs ++ rest) = some ((name, data), rest)) ∧
    (∀ bs e rest, xdrEvent.decode bs = some (e, rest) → e.2.length ≤ 128 ∧ CString e.2 ∧
      ∃ cs, xdrEvent.encode e = some cs ∧ xdrEvent.decode cs = some (e, [])) ∧
    (∀ bs f rest, xdrFile.decode bs = some (f, rest) → f.1.length ≤ 128 ∧ CString f.1 ∧ f.2.length < 2 ^ 32 ∧
      ∃ cs, xdrFile.encode f = some cs ∧ xdrFile.decode cs = some (f, [])) := by
  refine ⟨?_, ?_, ?_, ?_⟩
  · intro eventId desc hle hdesc
    have hvalid : True ∧ desc.length ≤ 128 ∧ CString desc := ⟨trivial, hle, hdesc⟩
    obtain ⟨bs, hbs⟩ := @lawful_xdrEvent.encodes (eventId, desc) hvalid
    exact ⟨bs, hbs, lawful_xdrEvent.decode_encode hvalid hbs⟩
  · intro name data hle hname hlt
    have hvalid : (name.length ≤ 128 ∧ CString name) ∧ data.length ≤ 2 ^ 32 - 1 ∧ id data = data :=
      ⟨⟨hle, hname⟩, Nat.le_pred_of_lt hlt, rfl⟩
    obtain ⟨bs, hbs⟩ := @lawful_xdrFile.encodes (name, data) hvalid
    exact ⟨bs, hbs, lawful_xdrFile.decode_encode hvalid hbs⟩
  · intro bs e rest h
    obtain ⟨-, hle, hdesc⟩ := lawful_xdrEvent.valid_of_decode h
    exact ⟨hle, hdesc, lawful_xdrEvent.reencode h⟩
  · intro bs f rest h
    obtain ⟨⟨hle, hname⟩, hdata, -⟩ := lawful_xdrFile.valid_of_decode h
    exact ⟨hle, hname, Nat.lt_of_le_of_lt hdata (by decide), lawful_xdrFile.reencode h⟩

/-- `svc_getargs` with each filter: what follows the arguments is not looked at. -/
def getEvent (args : List Byte) : Option EventArg :=
  match h : xdrEvent.decode args with
  | none => none
  | some (e, _) => some ⟨e.1, e.2, (lawful_xdrEvent.valid_of_decode h).2.1⟩

def getFile (args : List Byte) : Option File :=
  match h : xdrFile.decode args with
  | none => none
  | some (f, _) => some ⟨f.1, f.2, (lawful_xdrFile.valid_of_decode h).1.1,
      Nat.lt_of_le_of_lt (lawful_xdrFile.valid_of_decode h).2.1 (by decide)⟩

def getInt (args : List Byte) : Option (BitVec 32) := (xdrInt.decode args).map Prod.fst

inductive Reply
  | success (result : List Byte)
  | procUnavail
  | garbageArgs
  | systemErr
  deriving DecidableEq, Repr

/-- `svc_sendreply`, and `svcerr_systemerr` where it fails. `room n` says whether the transport
takes a reply with a result of `n` bytes; one of streams takes any. -/
def sendreply (room : ℕ → Bool) : Option (List Byte) → Reply
  | some result => if room result.length then .success result else .systemErr
  | none => .systemErr

def fileSize (dataLen : ℕ) : ℕ := 4 + (temp.length + padding temp.length) + (4 + (dataLen + padding dataLen))

/-- The reply to what a handler comes to, `none` where the server does not survive it: it
writes to a stream that is `NULL`, does not return, or encodes from more memory than is mapped.
Where there is no room for the data they are not read. -/
def reply (room : ℕ → Bool) : Outcome → Option Reply
  | .nullStream => none
  | .unfinished => none
  | .status rc => some (sendreply room (xdrInt.encode (BitVec.ofInt 32 rc)))
  | .file dataLen dataVal =>
    if dataLen = 0 then some (sendreply room (xdrFile.encode (temp, [])))
    else if room (fileSize dataLen) = false then some .systemErr
    else match dataVal with
      | none => none
      | some bytes => if bytes.length = dataLen then some (sendreply room (xdrFile.encode (temp, bytes))) else none

section Server

variable {ι : Type*} [DecidableEq ι] (resolve : Name → Option ι) (room : ℕ → Bool)

def serve (files : ι → Node) (argument : Option Request) (sys : System) : Option Reply × (ι → Node) :=
  match argument with
  | none => (some .garbageArgs, files)
  | some request =>
    let result := handle resolve files request sys
    (reply room result.1, result.2)

def sssonprog1 (files : ι → Node) (rqProc : BitVec 32) (args : List Byte) (sys : System) :
    Option Reply × (ι → Node) :=
  if rqProc = 0 then (some (sendreply room (some [])), files)
  else if rqProc = 1 then serve resolve room files ((getEvent args).map .sendEvent) sys
  else if rqProc = 2 then serve resolve room files ((getFile args).map .sendFile) sys
  else if rqProc = 3 then serve resolve room files ((getInt args).map .rcvEvent) sys
  else (some .procUnavail, files)

structure Server (ι : Type*) where
  files : ι → Node
  running : Bool

/-- What becomes of the two messages of a call before the client gives up waiting. -/
inductive Delivery
  | lost
  | unanswered
  | answered
  deriving DecidableEq, Repr

/-- `clnt_call`: the result, where the stub does not return `NULL`. -/
def clntCall {α β : Type} (proc : BitVec 32) (xdrArgs : Codec α) (xdrResult : Codec β) (arg : α)
    (net : Delivery) (sys : System) (server : Server ι) : Option β × Server ι :=
  match xdrArgs.encode arg with
  | none => (none, server)
  | some args =>
    if net = .lost ∨ server.running = false then (none, server)
    else match sssonprog1 resolve room server.files proc args sys with
      | (none, files) => (none, ⟨files, false⟩)
      | (some (.success result), files) =>
        (if net = .answered then (xdrResult.decode result).map Prod.fst else none, ⟨files, true⟩)
      | (some _, files) => (none, ⟨files, true⟩)

def sendEvent1 (arg : BitVec 32 × List Byte) (net : Delivery) (sys : System) (server : Server ι) :
    Option (BitVec 32) × Server ι := clntCall resolve room 1 xdrEvent xdrInt arg net sys server

def sendFile1 (arg : Name × List Byte) (net : Delivery) (sys : System) (server : Server ι) :
    Option (BitVec 32) × Server ι := clntCall resolve room 2 xdrFile xdrInt arg net sys server

def rcvEvent1 (arg : BitVec 32) (net : Delivery) (sys : System) (server : Server ι) :
    Option (Name × List Byte) × Server ι := clntCall resolve room 3 xdrInt xdrFile arg net sys server

end Server

section Arguments

variable {args : List Byte}

theorem getEvent_of_decode {e : BitVec 32 × List Byte} {rest : List Byte} (h : xdrEvent.decode args = some (e, rest))
    (hle : e.2.length ≤ 128) : getEvent args = some ⟨e.1, e.2, hle⟩ := by
  unfold getEvent
  split
  · next hnone =>
    rw [h] at hnone
    cases hnone
  · next e' rest' hsome =>
    rw [h] at hsome
    cases hsome
    rfl

theorem getFile_of_decode {f : Name × List Byte} {rest : List Byte} (h : xdrFile.decode args = some (f, rest))
    (hname : f.1.length ≤ 128) (hdata : f.2.length < 2 ^ 32) : getFile args = some ⟨f.1, f.2, hname, hdata⟩ := by
  unfold getFile
  split
  · next hnone =>
    rw [h] at hnone
    cases hnone
  · next f' rest' hsome =>
    rw [h] at hsome
    cases hsome
    rfl

theorem encode_xdrEvent_eq_none {e : BitVec 32 × List Byte} (h : ¬e.2.length ≤ 128) : xdrEvent.encode e = none := by
  by_contra hsome
  obtain ⟨bs, hbs⟩ := Option.ne_none_iff_exists'.mp hsome
  obtain ⟨cs, ds, -, hds, -⟩ := encode_seq_eq_some_iff.mp hbs
  exact h (encode_counted_eq_some_iff.mp hds).1

theorem encode_xdrFile_eq_some {f : Name × List Byte} {bs : List Byte} (h : xdrFile.encode f = some bs) :
    f.1.length ≤ 128 ∧ f.2.length ≤ 2 ^ 32 - 1 ∧
      bs.length = 4 + (f.1.length + padding f.1.length) + (4 + (f.2.length + padding f.2.length)) := by
  obtain ⟨cs, ds, hcs, hds, rfl⟩ := encode_seq_eq_some_iff.mp h
  have hname := (encode_counted_eq_some_iff.mp hcs).1
  have hdata := (encode_counted_eq_some_iff.mp hds).1
  refine ⟨hname, hdata, ?_⟩
  rw [List.length_append, length_encode_counted hcs, length_encode_counted hds]

end Arguments

section Transparency

inductive Value
  | int (n : BitVec 32)
  | file (name : Name) (data : List Byte)
  deriving DecidableEq, Repr

inductive StubCall
  | sendEvent (eventId : BitVec 32) (desc : List Byte)
  | sendFile (name : Name) (data : List Byte)
  | rcvEvent (id : BitVec 32)

def StubCall.WellFormed : StubCall → Prop
  | .sendEvent _ desc => CString desc
  | .sendFile name _ => CString name
  | .rcvEvent _ => True

def StubCall.request : StubCall → Option Request
  | .sendEvent eventId desc => if h : desc.length ≤ 128 then some (.sendEvent ⟨eventId, desc, h⟩) else none
  | .sendFile name data =>
    if h : name.length ≤ 128 ∧ data.length < 2 ^ 32 then some (.sendFile ⟨name, data, h.1, h.2⟩) else none
  | .rcvEvent id => some (.rcvEvent id)

/-- The value that goes back to the caller, if there is room for it; `none` where nothing ever
does. -/
def answer (room : ℕ → Bool) : Outcome → Option (Option Value)
  | .nullStream => none
  | .unfinished => none
  | .status rc => some (if room 4 then some (.int (BitVec.ofInt 32 rc)) else none)
  | .file dataLen dataVal =>
    if room (fileSize dataLen) = false then some none
    else if dataLen = 0 then some (some (.file temp []))
    else match dataVal with
      | none => none
      | some bytes => if bytes.length = dataLen then some (some (.file temp bytes)) else none

variable {ι : Type*} [DecidableEq ι] (resolve : Name → Option ι) (room : ℕ → Bool)

def StubCall.remote (c : StubCall) (net : Delivery) (sys : System) (server : Server ι) : Option Value × Server ι :=
  match c with
  | .sendEvent eventId desc => (sendEvent1 resolve room (eventId, desc) net sys server).map (·.map .int) id
  | .sendFile name data => (sendFile1 resolve room (name, data) net sys server).map (·.map .int) id
  | .rcvEvent i => (rcvEvent1 resolve room i net sys server).map (·.map fun f => .file f.1 f.2) id

/-- The same call without a wire: the handler is called with the argument itself, unless the
message is lost or there is no server, and its value is returned, unless it is too long or
the answer is lost. -/
def StubCall.direct (c : StubCall) (net : Delivery) (sys : System) (server : Server ι) : Option Value × Server ι :=
  match c.request with
  | none => (none, server)
  | some request =>
    if net = .lost ∨ server.running = false then (none, server)
    else
      let result := handle resolve server.files request sys
      match answer room result.1 with
      | none => (none, ⟨result.2, false⟩)
      | some value => (if net = .answered then value else none, ⟨result.2, true⟩)

/-- An outcome is replied to with a value that the codec of the procedure represents, or with
no value, or the server is lost with it. -/
def Replied {β : Type} (xdrResult : Codec β) (V : β → Prop) (toValue : β → Value) (outcome : Outcome) : Prop :=
  (reply room outcome = none ∧ answer room outcome = none) ∨
    (reply room outcome = some .systemErr ∧ answer room outcome = some none) ∨
    ∃ b bs, V b ∧ xdrResult.encode b = some bs ∧ reply room outcome = some (.success bs) ∧
      answer room outcome = some (some (toValue b))

theorem replied_status (rc : ℤ) : Replied room xdrInt (fun _ => True) .int (.status rc) := by
  have hlen : (ByteOrder.big.bytes 4 (BitVec.ofInt 32 rc).toNat).length = 4 := ByteOrder.length_bytes ..
  have hencode : xdrInt.encode (BitVec.ofInt 32 rc) = some (ByteOrder.big.bytes 4 (BitVec.ofInt 32 rc).toNat) := rfl
  by_cases hroom : room 4 = true
  · refine .inr (.inr ⟨BitVec.ofInt 32 rc, _, trivial, hencode, ?_, ?_⟩)
    · simp only [reply, hencode, sendreply, hlen, if_pos hroom]
    · simp only [answer, if_pos hroom]
  · refine .inr (.inl ⟨?_, ?_⟩)
    · simp only [reply, hencode, sendreply, hlen, if_neg hroom]
    · simp only [answer, if_neg hroom]

theorem replied_of_lost {β : Type} (xdrResult : Codec β) (V : β → Prop) (toValue : β → Value) {outcome : Outcome}
    (h : outcome = .nullStream ∨ outcome = .unfinished) : Replied room xdrResult V toValue outcome := by
  rcases h with rfl | rfl <;> exact .inl ⟨rfl, rfl⟩

theorem cString_temp : temp.length ≤ 128 ∧ CString temp := by
  constructor
  · decide
  · unfold CString
    decide

theorem replied_file {dataLen : ℕ} (hlt : dataLen < 2 ^ 32) (dataVal : Option (List Byte)) :
    Replied room xdrFile (fun f => (f.1.length ≤ 128 ∧ CString f.1) ∧ f.2.length ≤ 2 ^ 32 - 1 ∧ id f.2 = f.2)
      (fun f => .file f.1 f.2) (.file dataLen dataVal) := by
  have hencode : ∀ data : List Byte, data.length < 2 ^ 32 → ∃ bs, xdrFile.encode (temp, data) = some bs ∧
      bs.length = fileSize data.length := by
    intro data hdata
    obtain ⟨bs, hbs⟩ := @lawful_xdrFile.encodes (temp, data) ⟨cString_temp, Nat.le_pred_of_lt hdata, rfl⟩
    exact ⟨bs, hbs, (encode_xdrFile_eq_some hbs).2.2⟩
  by_cases hzero : dataLen = 0
  · subst hzero
    obtain ⟨bs, hbs, hsize⟩ := hencode [] (by decide)
    have hsize' : bs.length = fileSize 0 := hsize
    by_cases hroom : room (fileSize 0) = false
    · refine .inr (.inl ⟨?_, ?_⟩)
      · simp [reply, hbs, sendreply, hsize', hroom]
      · simp only [answer, if_pos hroom]
    · refine .inr (.inr ⟨(temp, []), bs, ⟨cString_temp, Nat.zero_le _, rfl⟩, hbs, ?_, ?_⟩)
      · rw [Bool.not_eq_false] at hroom
        simp [reply, hbs, sendreply, hsize', hroom]
      · simp only [answer, if_neg hroom, if_true]
  · by_cases hroom : room (fileSize dataLen) = false
    · refine .inr (.inl ⟨?_, ?_⟩)
      · simp only [reply, if_neg hzero, if_pos hroom]
      · simp only [answer, if_pos hroom]
    · cases dataVal with
      | none =>
        refine .inl ⟨?_, ?_⟩
        · simp only [reply, if_neg hzero, if_neg hroom]
        · simp only [answer, if_neg hzero, if_neg hroom]
      | some bytes =>
        by_cases hlen : bytes.length = dataLen
        · subst hlen
          obtain ⟨bs, hbs, hsize⟩ := hencode bytes hlt
          refine .inr (.inr ⟨(temp, bytes), bs, ⟨cString_temp, Nat.le_pred_of_lt hlt, rfl⟩, hbs, ?_, ?_⟩)
          · simp only [reply, if_neg hzero, if_neg hroom, if_true, hbs, sendreply, hsize]
            rw [if_pos (Bool.eq_true_of_not_eq_false hroom)]
          · simp only [answer, if_neg hzero, if_neg hroom, if_true]
        · refine .inl ⟨?_, ?_⟩
          · simp only [reply, if_neg hzero, if_neg hroom, if_neg hlen]
          · simp only [answer, if_neg hzero, if_neg hroom, if_neg hlen]

omit [DecidableEq ι] in
theorem replied_rcvEvent (files : ι → Node) (sys : System) :
    Replied room xdrFile (fun f => (f.1.length ≤ 128 ∧ CString f.1) ∧ f.2.length ≤ 2 ^ 32 - 1 ∧ id f.2 = f.2)
      (fun f => .file f.1 f.2) (rcvEvent1Svc resolve files sys) := by
  have hlt := Nat.mod_lt (stSize resolve files temp sys) (show 0 < 2 ^ 32 by decide)
  rw [rcvEvent1Svc]
  cases openRead resolve files temp sys with
  | waits => exact replied_of_lost room _ _ _ (.inr rfl)
  | opened fd => exact replied_file room hlt _
  | refused => exact replied_file room hlt _

theorem clntCall_eq {α β : Type} {proc : BitVec 32} {xdrArgs : Codec α} {xdrResult : Codec β} {V : β → Prop}
    (hlawful : Lawful xdrResult V) (toValue : β → Value) {arg : α} {args : List Byte} {request : Request}
    (hargs : xdrArgs.encode arg = some args)
    (hserve : ∀ files sys, sssonprog1 resolve room files proc args sys =
      serve resolve room files (some request) sys)
    (net : Delivery) (sys : System) (server : Server ι)
    (hreplied : Replied room xdrResult V toValue (handle resolve server.files request sys).1) :
    (clntCall resolve room proc xdrArgs xdrResult arg net sys server).map (·.map toValue) id =
      if net = .lost ∨ server.running = false then (none, server)
      else
        let result := handle resolve server.files request sys
        match answer room result.1 with
        | none => (none, ⟨result.2, false⟩)
        | some value => (if net = .answered then value else none, ⟨result.2, true⟩) := by
  simp only [clntCall, hargs]
  split
  · rfl
  · simp only [hserve, serve]
    rcases hreplied with ⟨hreply, hvalue⟩ | ⟨hreply, hvalue⟩ | ⟨b, bs, hb, hbs, hreply, hvalue⟩
    · simp only [hreply, hvalue]
      rfl
    · simp only [hreply, hvalue, ite_self]
      rfl
    · have hback := hlawful.decode_encode hb hbs []
      rw [List.append_nil] at hback
      simp only [hreply, hvalue, hback]
      by_cases hnet : net = .answered
      · simp [hnet]
      · simp [hnet]

theorem remote_eq_direct (c : StubCall) (hc : c.WellFormed) (net : Delivery) (sys : System) (server : Server ι) :
    c.remote resolve room net sys server = c.direct resolve room net sys server := by
  cases c with
  | sendEvent eventId desc =>
    by_cases hle : desc.length ≤ 128
    · have hvalid : True ∧ desc.length ≤ 128 ∧ CString desc := ⟨trivial, hle, hc⟩
      obtain ⟨args, hargs⟩ := @lawful_xdrEvent.encodes (eventId, desc) hvalid
      have hdecode := lawful_xdrEvent.decode_encode hvalid hargs []
      rw [List.append_nil] at hdecode
      have hget := getEvent_of_decode hdecode hle
      rw [StubCall.direct, StubCall.request, dif_pos hle]
      apply @clntCall_eq ι _ resolve room _ _ _ _ _ _ lawful_xdrInt .int _ _ (.sendEvent ⟨eventId, desc, hle⟩) hargs
      · intro files sys
        rw [sssonprog1, hget]
        rfl
      · exact replied_status room 0
    · have hnone := @encode_xdrEvent_eq_none (eventId, desc) hle
      simp only [StubCall.remote, StubCall.direct, StubCall.request, dif_neg hle, sendEvent1, clntCall, hnone]
      rfl
  | sendFile name data =>
    by_cases hle : name.length ≤ 128 ∧ data.length < 2 ^ 32
    · have hvalid : (name.length ≤ 128 ∧ CString name) ∧ data.length ≤ 2 ^ 32 - 1 ∧ id data = data :=
        ⟨⟨hle.1, hc⟩, Nat.le_pred_of_lt hle.2, rfl⟩
      obtain ⟨args, hargs⟩ := @lawful_xdrFile.encodes (name, data) hvalid
      have hdecode := lawful_xdrFile.decode_encode hvalid hargs []
      rw [List.append_nil] at hdecode
      have hget := getFile_of_decode hdecode hle.1 hle.2
      rw [StubCall.direct, StubCall.request, dif_pos hle]
      apply @clntCall_eq ι _ resolve room _ _ _ _ _ _ lawful_xdrInt .int _ _
        (.sendFile ⟨name, data, hle.1, hle.2⟩) hargs
      · intro files sys
        rw [sssonprog1, hget]
        rfl
      · rw [handle]
        by_cases hwritable : Writable resolve server.files sys name data
        · obtain ⟨i, -, hcall⟩ := sendFile1Svc_of_writable ⟨name, data, hle.1, hle.2⟩ hwritable
          rw [hcall]
          exact replied_status room 0
        · rcases sendFile1Svc_of_not_writable ⟨name, data, hle.1, hle.2⟩ hwritable with hcall | hcall
          · exact replied_of_lost room _ _ _ (.inl (congrArg Prod.fst hcall))
          · exact replied_of_lost room _ _ _ (.inr (congrArg Prod.fst hcall))
    · have hnone : xdrFile.encode (name, data) = none := by
        by_contra hsome
        obtain ⟨bs, hbs⟩ := Option.ne_none_iff_exists'.mp hsome
        obtain ⟨hname, hdata, -⟩ := encode_xdrFile_eq_some hbs
        exact hle ⟨hname, Nat.lt_of_le_of_lt hdata (by decide)⟩
      simp only [StubCall.remote, StubCall.direct, StubCall.request, dif_neg hle, sendFile1, clntCall, hnone]
      rfl
  | rcvEvent i =>
    have hargs : xdrInt.encode i = some (ByteOrder.big.bytes 4 i.toNat) := rfl
    have hdecode := lawful_xdrInt.decode_encode trivial hargs []
    rw [List.append_nil] at hdecode
    have hget : getInt (ByteOrder.big.bytes 4 i.toNat) = some i := by
      rw [getInt, hdecode]
      rfl
    rw [StubCall.direct, StubCall.request]
    apply @clntCall_eq ι _ resolve room _ _ _ _ _ _ lawful_xdrFile (fun f => .file f.1 f.2) _ _ (.rcvEvent i) hargs
    · intro files sys
      rw [sssonprog1, hget]
      rfl
    · exact replied_rcvEvent resolve room server.files sys

/-- A run of calls with the given meaning, the results in their order. -/
def session (perform : StubCall → Delivery → System → Server ι → Option Value × Server ι) :
    Server ι → List (StubCall × Delivery × System) → List (Option Value) × Server ι
  | server, [] => ([], server)
  | server, (c, net, sys) :: rest =>
    let result := perform c net sys server
    let later := session perform result.2 rest
    (result.1 :: later.1, later.2)

/-- Any number of calls over the wire return, one by one, what the handlers return when they are
called with the arguments themselves, and leave the server's files as these leave them. -/
theorem session_remote_eq_direct (server : Server ι) (calls : List (StubCall × Delivery × System))
    (h : ∀ c ∈ calls, c.1.WellFormed) :
    session (StubCall.remote resolve room) server calls = session (StubCall.direct resolve room) server calls := by
  induction calls generalizing server with
  | nil => rfl
  | cons c calls ih =>
    obtain ⟨c, net, sys⟩ := c
    have hhead := remote_eq_direct resolve room c (h _ List.mem_cons_self) net sys server
    have htail := ih (StubCall.direct resolve room c net sys server).2 fun c hc => h c (List.mem_cons_of_mem _ hc)
    rw [session, session, hhead, htail]

theorem session_two_bytes :
    session (StubCall.remote plainResolve fun _ => true) ⟨fun _ => .absent, true⟩
      [(.sendFile temp [0x61, 0x62], .answered, plainSystem 2),
        (.rcvEvent 1, .unanswered, plainSystem 0), (.rcvEvent 1, .answered, plainSystem 0)] =
    session (StubCall.direct plainResolve fun _ => true) ⟨fun _ => .absent, true⟩
      [(.sendFile temp [0x61, 0x62], .answered, plainSystem 2),
        (.rcvEvent 1, .unanswered, plainSystem 0), (.rcvEvent 1, .answered, plainSystem 0)] := by
  apply session_remote_eq_direct
  intro c hc
  simp only [List.mem_cons, List.not_mem_nil, or_false] at hc
  rcases hc with rfl | rfl | rfl
  · exact cString_temp.2
  · trivial
  · trivial

end Transparency

end WorkCode.RemoteCalls
