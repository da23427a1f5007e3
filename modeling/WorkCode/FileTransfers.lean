import WorkCode.EventRuns
import WorkCode.FileUpload
import WorkCode.RemoteCalls

/-!
# Transfers over the wire

The server takes messages from any number of clients in any order. What a message asks for is
read from its bytes; a run of messages goes on as long as the handlers' calls are granted, and
the files then are those of the last messages that wrote them. `ssson_client` uploads one file
and downloads whatever `temp` is.
-/

namespace WorkCode.FileTransfers

open EventRuns FileServer FileUpload RemoteCalls XdrCodec

/-- A call message as it arrives, with what the system does while it is handled. -/
structure Message where
  rqProc : BitVec 32
  args : List Byte
  sys : System

def Message.request (m : Message) : Option Request :=
  if m.rqProc = 1 then (getEvent m.args).map .sendEvent
  else if m.rqProc = 2 then (getFile m.args).map .sendFile
  else if m.rqProc = 3 then (getInt m.args).map .rcvEvent
  else none

/-- The bytes that a message asks to be in a node, and has put there when the handler returns. -/
def Message.written {ι : Type*} [DecidableEq ι] (resolve : Name → Option ι) (m : Message) (i : ι) :
    Option (List Byte) :=
  match m.request with
  | some (.sendFile file) => if resolve file.name = some i then some (file.data.take m.sys.stored) else none
  | _ => none

def lastWritten {ι : Type*} [DecidableEq ι] (resolve : Name → Option ι) (i : ι) : List Message → Option (List Byte)
  | [] => none
  | m :: ms => (lastWritten resolve i ms).or (m.written resolve i)

section Runs

variable {ι : Type*} [DecidableEq ι] (resolve : Name → Option ι) (room : ℕ → Bool)

/-- The files after a message, when the server survives it. -/
def receive (files : ι → Node) (m : Message) : Option (ι → Node) :=
  let result := sssonprog1 resolve room files m.rqProc m.args m.sys
  result.1.map fun _ => result.2

theorem sssonprog1_of_request {m : Message} {request : Request} (h : m.request = some request) (files : ι → Node) :
    sssonprog1 resolve room files m.rqProc m.args m.sys =
      (reply room (handle resolve files request m.sys).1, (handle resolve files request m.sys).2) := by
  rw [Message.request] at h
  by_cases h1 : m.rqProc = 1
  · rw [if_pos h1] at h
    rw [sssonprog1, h1, if_neg (by decide), if_pos rfl, h]
    rfl
  · rw [if_neg h1] at h
    by_cases h2 : m.rqProc = 2
    · rw [if_pos h2] at h
      rw [sssonprog1, h2, if_neg (by decide), if_neg (by decide), if_pos rfl, h]
      rfl
    · rw [if_neg h2] at h
      by_cases h3 : m.rqProc = 3
      · rw [if_pos h3] at h
        rw [sssonprog1, h3, if_neg (by decide), if_neg (by decide), if_neg (by decide), if_pos rfl, h]
        rfl
      · rw [if_neg h3] at h
        cases h

theorem sssonprog1_of_no_request {m : Message} (h : m.request = none) (files : ι → Node) :
    ∃ answer, sssonprog1 resolve room files m.rqProc m.args m.sys = (some answer, files) := by
  rw [Message.request] at h
  by_cases h0 : m.rqProc = 0
  · exact ⟨sendreply room (some []), by rw [sssonprog1, if_pos h0]⟩
  · by_cases h1 : m.rqProc = 1
    · rw [if_pos h1] at h
      exact ⟨.garbageArgs, by rw [sssonprog1, if_neg h0, if_pos h1, h, serve]⟩
    · rw [if_neg h1] at h
      by_cases h2 : m.rqProc = 2
      · rw [if_pos h2] at h
        exact ⟨.garbageArgs, by rw [sssonprog1, if_neg h0, if_neg h1, if_pos h2, h, serve]⟩
      · rw [if_neg h2] at h
        by_cases h3 : m.rqProc = 3
        · rw [if_pos h3] at h
          exact ⟨.garbageArgs, by rw [sssonprog1, if_neg h0, if_neg h1, if_neg h2, if_pos h3, h, serve]⟩
        · exact ⟨.procUnavail, by rw [sssonprog1, if_neg h0, if_neg h1, if_neg h2, if_neg h3]⟩

omit [DecidableEq ι] in
/-- What a request depends on for the server to go on: that its handler returns, and that nothing
which is not there is read into the reply. -/
def Survived (files : ι → Node) (sys : System) : Request → Prop
  | .sendEvent _ => True
  | .sendFile file => Writable resolve files sys file.name file.data
  | .rcvEvent _ => (∀ i, resolve temp = some i → (files i).waits sys = false) ∧
    (stSize resolve files temp sys % 2 ^ 32 = 0 ∨
      room (fileSize (stSize resolve files temp sys % 2 ^ 32)) = false ∨
      sys.opens = true ∧ sys.maps = true ∧ ∃ i seen, resolve temp = some i ∧
        (files i).shown sys = some seen ∧ stSize resolve files temp sys % 2 ^ 32 ≤ seen.length)

omit [DecidableEq ι] in
theorem isSome_reply_file_iff (dataLen : ℕ) (dataVal : Option (List Byte)) :
    (reply room (.file dataLen dataVal)).isSome ↔
      dataLen = 0 ∨ room (fileSize dataLen) = false ∨ ∃ val, dataVal = some val ∧ val.length = dataLen := by
  by_cases hzero : dataLen = 0
  · simp [reply, hzero]
  · by_cases hroom : room (fileSize dataLen) = false
    · simp [reply, hzero, hroom]
    · cases dataVal with
      | none => simp [reply, hzero, hroom]
      | some val =>
        by_cases hlen : val.length = dataLen
        · simp [reply, hzero, hroom, hlen]
        · simp [reply, hzero, hroom, hlen]

theorem reply_isSome_iff (files : ι → Node) (request : Request) (sys : System) :
    (reply room (handle resolve files request sys).1).isSome ↔ Survived resolve room files sys request := by
  cases request with
  | sendEvent event => simp [handle, sendEvent1Svc, reply, Survived]
  | sendFile file =>
    rw [handle, Survived]
    by_cases h : Writable resolve files sys file.name file.data
    · obtain ⟨i, -, hcall⟩ := sendFile1Svc_of_writable file h
      simp [hcall, reply, h]
    · rcases sendFile1Svc_of_not_writable file h with hcall | hcall <;> simp [hcall, reply, h]
  | rcvEvent id =>
    rw [handle, Survived]
    by_cases hwaits : ∀ i, resolve temp = some i → (files i).waits sys = false
    · obtain ⟨dataVal, hcall, hmapped⟩ := rcvEvent1Svc_of_not_waits resolve hwaits
      rw [hcall, isSome_reply_file_iff, and_iff_right hwaits]
      apply or_congr_right'
      intro hzero
      apply or_congr_right
      constructor
      · rintro ⟨val, hval, hlen⟩
        obtain ⟨-, hmaps, hopens, i, seen, hname, hshown, rfl⟩ := (hmapped val).mp hval
        rw [List.length_take] at hlen
        exact ⟨hopens, hmaps, i, seen, hname, hshown, by omega⟩
      · rintro ⟨hopens, hmaps, i, seen, hname, hshown, hle⟩
        exact ⟨_, (hmapped _).mpr ⟨hzero, hmaps, hopens, i, seen, hname, hshown, rfl⟩, List.length_take_of_le hle⟩
    · rw [rcvEvent1Svc_of_waits resolve hwaits]
      simp [reply, hwaits]

theorem isSome_receive_iff (files : ι → Node) (m : Message) : (receive resolve room files m).isSome ↔
    ∀ request, m.request = some request → Survived resolve room files m.sys request := by
  rw [receive, Option.isSome_map]
  cases hreq : m.request with
  | none =>
    obtain ⟨answer, hanswer⟩ := sssonprog1_of_no_request resolve room hreq files
    simp [hanswer]
  | some request =>
    rw [sssonprog1_of_request resolve room hreq, reply_isSome_iff]
    simp

theorem receive_eq {files files' : ι → Node} {m : Message} (h : receive resolve room files m = some files') (i : ι) :
    files' i = (m.written resolve i).elim (files i) (files i).write := by
  rw [receive, Option.map_eq_some_iff] at h
  obtain ⟨answer, hanswer, rfl⟩ := h
  rw [Message.written]
  cases hreq : m.request with
  | none =>
    obtain ⟨answer', hanswer'⟩ := sssonprog1_of_no_request resolve room hreq files
    rw [hanswer']
    rfl
  | some request =>
    rw [sssonprog1_of_request resolve room hreq] at hanswer ⊢
    have hsurvived := (reply_isSome_iff resolve room files request m.sys).mp (Option.isSome_of_eq_some hanswer)
    cases request with
    | sendEvent event => rfl
    | rcvEvent id => rfl
    | sendFile file =>
      obtain ⟨j, hname, hcall⟩ := sendFile1Svc_of_writable file hsurvived
      simp only [handle, hcall, hname]
      by_cases hij : j = i
      · subst hij
        simp
      · have hne : ¬some j = some i := fun heq => hij (Option.some.inj heq)
        simp only [if_neg hne, Option.elim_none]
        exact Function.update_of_ne (Ne.symm hij) _ _

theorem write_elim_write (node : Node) (last : Option (List Byte)) (data : List Byte) :
    last.elim (node.write data) (node.write data).write = (last.or (some data)).elim node node.write := by
  cases last with
  | none => rfl
  | some last => cases node <;> rfl

/-- Messages of any bytes, from any clients and in any order: the server goes on exactly as long as
it survives each that is a request, where it is handled, and then every node holds what the
last message for it has put there, unless it is a special file, or what it held before. -/
theorem receives_correct (files : ι → Node) (ms : List Message) :
    ((run (receive resolve room) files ms).isSome ↔
      Along (receive resolve room) (fun files m => ∀ request, m.request = some request →
        Survived resolve room files m.sys request) files ms) ∧
    ∀ files', run (receive resolve room) files ms = some files' →
      ∀ i, files' i = (lastWritten resolve i ms).elim (files i) (files i).write := by
  refine ⟨isSome_run_iff (isSome_receive_iff resolve room) files ms, ?_⟩
  intro files' hrun i
  induction ms generalizing files with
  | nil =>
    cases hrun
    rfl
  | cons m ms ih =>
    obtain ⟨mid, hmid, hrest⟩ := Option.bind_eq_some_iff.mp hrun
    rw [ih mid hrest, receive_eq resolve room hmid, lastWritten]
    cases m.written resolve i with
    | none => rw [Option.elim_none, Option.or_none]
    | some data => rw [Option.elim_some, write_elim_write]

end Runs

section Client

/-- How a run of the client ends: with a message on `stderr`, by a fault, or with these bytes in
`rcv_temp`. -/
inductive End
  | failed
  | crashed
  | finished (rcvTemp : List Byte)
  deriving DecidableEq, Repr

/-- What the client's system decides about `rcv_temp`: whether `fopen` succeeds, and how many
bytes reach the disk. -/
structure Disk where
  opens : Bool
  stored : ℕ

/-- What the network does in a run: whether `clnt_create` finds the server, and for each of the
three calls what becomes of it and what the server's system does in it. -/
structure Network where
  connected : Bool
  event : Delivery × System
  upload : Delivery × System
  download : Delivery × System

/-- "this is the event 8". -/
def eventDesc : List Byte :=
  [0x74, 0x68, 0x69, 0x73, 0x20, 0x69, 0x73, 0x20, 0x74, 0x68, 0x65, 0x20, 0x65, 0x76, 0x65, 0x6e, 0x74, 0x20, 0x38]

variable {ι : Type*} [DecidableEq ι] (resolve : Name → Option ι) (room : ℕ → Bool)

/-- The server after messages from other clients; it may have been lost to one of them. -/
def Server.serves (server : Server ι) (others : List Message) : Server ι :=
  match run (receive resolve room) server.files others with
  | some files => ⟨files, server.running⟩
  | none => ⟨server.files, false⟩

/-- The end of `main`: what was received is written, without a look at what `fopen` returned. -/
def store (received : Option (Name × List Byte)) (disk : Disk) : End :=
  match received with
  | none => .failed
  | some (_, data) => if disk.opens then .finished (data.take disk.stored) else .crashed

def download (net : Delivery × System) (disk : Disk) (server : Server ι) : End :=
  store (rcvEvent1 resolve room 1 net.1 net.2 server).1 disk

/-- `main` from `open` on. A mapping that failed is read when the file is encoded, unless the
name is refused before. -/
def transfer (client : Client) (net : Network) (disk : Disk) (filename : Name) (bytes : List Byte)
    (others : List Message) (server : Server ι) : End :=
  match encoded client filename bytes with
  | none => if filename.length ≤ 128 then .crashed else .failed
  | some file =>
    let result := sendFile1 resolve room (file.name, file.data) net.upload.1 net.upload.2 server
    match result.1 with
    | none => .failed
    | some _ => download resolve room net.download disk (Server.serves resolve room result.2 others)

def filename (argv : List Name) : Name := argv.getD 2 []

/-- `main` for a file with the given bytes under the name in `argv`, while the server takes messages
from others between the upload and the download. -/
def main (client : Client) (net : Network) (disk : Disk) (argv : List Name) (bytes : List Byte)
    (others : List Message) (server : Server ι) : End :=
  if argv.length ≠ 3 ∨ net.connected = false then .failed
  else
    let result := sendEvent1 resolve room (88, eventDesc) net.event.1 net.event.2 server
    match result.1 with
    | none => .failed
    | some _ => transfer resolve room client net disk (filename argv) bytes others result.2

omit [DecidableEq ι] in
theorem map_eq_some_iff {β : Type} {f : β → Value} (hf : Function.Injective f) {result : Option β × Server ι} {b : β}
    {server' : Server ι} : result.map (·.map f) id = (some (f b), server') ↔ result = (some b, server') := by
  obtain ⟨value, server⟩ := result
  cases value with
  | none => simp
  | some b' => simp [hf.eq_iff]

theorem value_int_injective : Function.Injective Value.int := by
  intro a b h
  exact Value.int.inj h

theorem value_file_injective : Function.Injective fun f : Name × List Byte => Value.file f.1 f.2 := by
  intro f g h
  obtain ⟨hname, hdata⟩ := Value.file.inj h
  exact Prod.ext hname hdata

theorem answer_status_eq_some_iff {rc : ℤ} {value : Value} :
    answer room (.status rc) = some (some value) ↔ room 4 = true ∧ value = .int (BitVec.ofInt 32 rc) := by
  by_cases hroom : room 4 = true
  · simp [answer, hroom, eq_comm]
  · simp [answer, hroom]

theorem answer_file_eq_some_iff {dataLen : ℕ} {dataVal : Option (List Byte)} {value : Value} :
    answer room (.file dataLen dataVal) = some (some value) ↔ room (fileSize dataLen) = true ∧
      (dataLen = 0 ∧ value = .file temp [] ∨
        dataLen ≠ 0 ∧ ∃ val, dataVal = some val ∧ val.length = dataLen ∧ value = .file temp val) := by
  by_cases hroom : room (fileSize dataLen) = true
  · by_cases hzero : dataLen = 0
    · subst hzero
      simp [answer, hroom, eq_comm]
    · cases dataVal with
      | none => simp [answer, hroom, hzero]
      | some val =>
        by_cases hlen : val.length = dataLen
        · simp [answer, hroom, hzero, hlen, eq_comm]
        · simp [answer, hroom, hzero, hlen]
  · rw [Bool.not_eq_true] at hroom
    simp [answer, hroom]

theorem remote_eq_some_iff {c : StubCall} {request : Request} (hc : c.WellFormed) (hrequest : c.request = some request)
    {net : Delivery} {sys : System} {server server' : Server ι} {value : Value} :
    c.remote resolve room net sys server = (some value, server') ↔
      net = .answered ∧ server.running = true ∧
        answer room (handle resolve server.files request sys).1 = some (some value) ∧
        server' = ⟨(handle resolve server.files request sys).2, true⟩ := by
  rw [remote_eq_direct resolve room c hc, StubCall.direct, hrequest]
  dsimp only
  constructor
  · intro h
    split at h
    · cases h
    · next hserved =>
      rw [not_or, Bool.not_eq_false] at hserved
      split at h
      · cases h
      · next value' hanswer =>
        obtain ⟨hvalue, hserver⟩ := Prod.mk.inj h
        split at hvalue
        · next hnet =>
          subst hvalue
          exact ⟨hnet, hserved.2, hanswer, hserver.symm⟩
        · cases hvalue
  · rintro ⟨rfl, hrunning, hanswer, rfl⟩
    simp [hrunning, hanswer]

theorem sendEvent1_eq_some_iff {eventId v : BitVec 32} {desc : List Byte} (hle : desc.length ≤ 128)
    (hdesc : CString desc) {net : Delivery} {sys : System} {server server' : Server ι} :
    sendEvent1 resolve room (eventId, desc) net sys server = (some v, server') ↔
      net = .answered ∧ server.running = true ∧ room 4 = true ∧ v = 0 ∧ server' = ⟨server.files, true⟩ := by
  have hrequest : (StubCall.sendEvent eventId desc).request = some (.sendEvent ⟨eventId, desc, hle⟩) := dif_pos hle
  have hremote := @remote_eq_some_iff ι _ resolve room (.sendEvent eventId desc) _ hdesc hrequest net sys server
    server' (.int v)
  rw [handle, sendEvent1Svc, answer_status_eq_some_iff, value_int_injective.eq_iff, and_assoc] at hremote
  exact (map_eq_some_iff value_int_injective).symm.trans hremote

theorem sendFile1_eq_some_iff {name : Name} {data : List Byte} (hname : name.length ≤ 128)
    (hdata : data.length < 2 ^ 32) (hstring : CString name) {v : BitVec 32} {net : Delivery} {sys : System}
    {server server' : Server ι} :
    sendFile1 resolve room (name, data) net sys server = (some v, server') ↔
      net = .answered ∧ server.running = true ∧ room 4 = true ∧ v = 0 ∧
        Writable resolve server.files sys name data ∧ ∃ i, resolve name = some i ∧
          server' = ⟨Function.update server.files i ((server.files i).write (data.take sys.stored)), true⟩ := by
  have hrequest : (StubCall.sendFile name data).request = some (.sendFile ⟨name, data, hname, hdata⟩) :=
    dif_pos ⟨hname, hdata⟩
  have hremote := @remote_eq_some_iff ι _ resolve room (.sendFile name data) _ hstring hrequest net sys server
    server' (.int v)
  refine (map_eq_some_iff value_int_injective).symm.trans (hremote.trans ?_)
  rw [handle]
  by_cases hwritable : Writable resolve server.files sys name data
  · obtain ⟨i, hi, hcall⟩ := sendFile1Svc_of_writable ⟨name, data, hname, hdata⟩ hwritable
    rw [hcall, answer_status_eq_some_iff, value_int_injective.eq_iff]
    simp [hi, hwritable, and_assoc]
  · rcases sendFile1Svc_of_not_writable ⟨name, data, hname, hdata⟩ hwritable with hcall | hcall
    · simp [hcall, answer, hwritable]
    · simp [hcall, answer, hwritable]

omit [DecidableEq ι] in
theorem stSize_regular {i : ι} {data : List Byte} {files : ι → Node} {sys : System} (htemp : resolve temp = some i)
    (hnode : files i = .regular data) (hstats : sys.stats = true) :
    stSize resolve files temp sys % 2 ^ 32 = dataLen data := by
  simp [stSize, htemp, hnode, hstats, Node.size, dataLen]

theorem rcvEvent1_eq_some_iff {i : ι} {data : List Byte} {server server' : Server ι} {sys : System}
    (htemp : resolve temp = some i) (hnode : server.files i = .regular data) (hstats : sys.stats = true)
    {id : BitVec 32} {net : Delivery} {f : Name × List Byte} :
    rcvEvent1 resolve room id net sys server = (some f, server') ↔
      net = .answered ∧ server.running = true ∧ room (fileSize (dataLen data)) = true ∧
        (dataLen data = 0 ∨ sys.opens = true ∧ sys.maps = true) ∧ f = (temp, data.take (dataLen data)) ∧
        server' = ⟨server.files, true⟩ := by
  have hremote := @remote_eq_some_iff ι _ resolve room (.rcvEvent id) _ trivial rfl net sys server server'
    (.file f.1 f.2)
  refine (map_eq_some_iff value_file_injective).symm.trans (hremote.trans ?_)
  have hwaits : ∀ j, resolve temp = some j → (server.files j).waits sys = false := by
    intro j hj
    cases Option.some.inj (htemp.symm.trans hj)
    rw [hnode]
    rfl
  obtain ⟨dataVal, hcall, hmapped⟩ := rcvEvent1Svc_of_not_waits resolve hwaits
  rw [stSize_regular resolve htemp hnode hstats] at hcall hmapped
  have hle : dataLen data ≤ data.length := Nat.mod_le _ _
  have hshown : (server.files i).shown sys = some (data ++ List.replicate sys.fill 0) := by
    rw [hnode]
    rfl
  have hvalue : (dataLen data = 0 ∧ Value.file f.1 f.2 = .file temp [] ∨ dataLen data ≠ 0 ∧
        ∃ val, dataVal = some val ∧ val.length = dataLen data ∧ Value.file f.1 f.2 = .file temp val) ↔
      (dataLen data = 0 ∨ sys.opens = true ∧ sys.maps = true) ∧ f = (temp, data.take (dataLen data)) := by
    have hpair : ∀ val, Value.file f.1 f.2 = .file temp val ↔ f = (temp, val) := by
      intro val
      exact @Function.Injective.eq_iff _ _ _ value_file_injective f (temp, val)
    simp only [hpair]
    by_cases hzero : dataLen data = 0
    · simp [hzero]
    · have hval : dataVal = some (data.take (dataLen data)) ↔ sys.opens = true ∧ sys.maps = true := by
        rw [hmapped]
        simp [hzero, htemp, hshown, List.take_append_of_le_length hle, and_comm]
      constructor
      · rintro (⟨hlen, -⟩ | ⟨-, val, hdata, -, hf⟩)
        · exact absurd hlen hzero
        · obtain ⟨-, hmaps, hopens, j, seen, hj, hseen, rfl⟩ := (hmapped val).mp hdata
          cases Option.some.inj (htemp.symm.trans hj)
          cases Option.some.inj (hshown.symm.trans hseen)
          rw [List.take_append_of_le_length hle] at hf
          exact ⟨.inr ⟨hopens, hmaps⟩, hf⟩
      · rintro ⟨hgranted, hf⟩
        have hdata := hval.mpr (hgranted.resolve_left hzero)
        exact .inr ⟨hzero, _, hdata, List.length_take_of_le hle, hf⟩
  rw [handle, hcall, answer_file_eq_some_iff, hvalue]
  simp only [and_assoc]

/-- What is in the node that is downloaded: what others have put there since, or as much of the
upload as reached the disk. -/
def content (net : Network) (bytes : List Byte) (others : List Message) (i : ι) : List Byte :=
  (lastWritten resolve i others).getD ((bytes.take (dataLen bytes)).take net.upload.2.stored)

structure Downloads (net : Delivery × System) (disk : Disk) (data : List Byte) : Prop where
  answered : net.1 = .answered
  granted : dataLen data = 0 ∨ net.2.opens = true ∧ net.2.maps = true
  room : room (fileSize (dataLen data)) = true
  opened : disk.opens = true

theorem store_eq_finished_iff {received : Option (Name × List Byte)} {disk : Disk} {copy : List Byte} :
    store received disk = .finished copy ↔
      ∃ f, received = some f ∧ disk.opens = true ∧ copy = f.2.take disk.stored := by
  cases received with
  | none => simp [store]
  | some f =>
    obtain ⟨name, data⟩ := f
    by_cases hopens : disk.opens = true
    · simp [store, hopens, eq_comm]
    · simp [store, hopens]

theorem download_eq_finished_iff {i : ι} {data copy : List Byte} {files : ι → Node} {net : Delivery × System}
    {disk : Disk} (htemp : resolve temp = some i) (hnode : files i = .regular data)
    (hstats : net.2.stats = true) (running : Bool) :
    download resolve room net disk ⟨files, running⟩ = .finished copy ↔
      (running = true ∧ Downloads room net disk data) ∧ copy = (data.take (dataLen data)).take disk.stored := by
  have hcall : ∀ f server', rcvEvent1 resolve room 1 net.1 net.2 ⟨files, running⟩ = (some f, server') ↔ _ :=
    fun f server' => @rcvEvent1_eq_some_iff ι _ resolve room i data ⟨files, running⟩ server' net.2 htemp hnode hstats 1
      net.1 f
  rw [download, store_eq_finished_iff]
  constructor
  · rintro ⟨f, hf, hopens, rfl⟩
    obtain ⟨hnet, hrunning, hroom, hgranted, rfl, -⟩ := (hcall f _).mp (Prod.ext hf rfl)
    exact ⟨⟨hrunning, hnet, hgranted, hroom, hopens⟩, rfl⟩
  · rintro ⟨⟨hrunning, hd⟩, rfl⟩
    have hf := (hcall _ _).mpr ⟨hd.answered, hrunning, hd.room, hd.granted, rfl, rfl⟩
    exact ⟨_, congrArg Prod.fst hf, hd.opened, rfl⟩

/-- What a run of the client depends on when the file it names is the server's `temp`. -/
structure Completes (client : Client) (net : Network) (disk : Disk) (argv : List Name) (bytes : List Byte)
    (others : List Message) (server : Server ι) (i : ι) : Prop where
  usage : argv.length = 3
  connected : net.connected = true
  running : server.running = true
  replies : room 4 = true
  event : net.event.1 = .answered
  name_le : (filename argv).length ≤ 128
  mapped : dataLen bytes = 0 ∨ client.maps = true
  written : Writable resolve server.files net.upload.2 (filename argv) (bytes.take (dataLen bytes))
  upload : net.upload.1 = .answered
  survived : (run (receive resolve room) (Function.update server.files i
    (.regular ((bytes.take (dataLen bytes)).take net.upload.2.stored))) others).isSome = true
  downloads : Downloads room net.download disk (content resolve net bytes others i)

section Session

variable {client : Client} {net : Network} {disk : Disk} {argv : List Name} {bytes copy : List Byte}
  {others : List Message} {server : Server ι} {i : ι}

theorem serves_of_run {files : ι → Node} (h : run (receive resolve room) server.files others = some files) :
    Server.serves resolve room server others = ⟨files, server.running⟩ := by
  rw [Server.serves, h]

theorem node_after {files : ι → Node} (h : run (receive resolve room) (Function.update server.files i
      (.regular ((bytes.take (dataLen bytes)).take net.upload.2.stored))) others = some files) :
    files i = .regular (content resolve net bytes others i) := by
  rw [(receives_correct resolve room _ others).2 files h i, Function.update_self, content]
  cases lastWritten resolve i others <;> rfl

theorem encoded_eq_some_iff {file : File} : encoded client (filename argv) bytes = some file ↔
    ∃ h : (filename argv).length ≤ 128, (dataLen bytes = 0 ∨ client.maps = true) ∧
      file = ⟨filename argv, bytes.take (dataLen bytes), h, length_take_dataLen bytes⟩ := by
  constructor
  · intro h
    rw [encoded] at h
    split at h
    · next hname =>
      split at h
      · next hmapped => exact ⟨hname, hmapped, (Option.some.inj h).symm⟩
      · cases h
    · cases h
  · intro h
    obtain ⟨hname, hmapped, rfl⟩ := h
    rw [encoded, dif_pos hname, if_pos hmapped]

theorem download_of_lost {files : ι → Node} {d : Delivery × System} :
    download resolve room d disk ⟨files, false⟩ = .failed := by
  have hargs : xdrInt.encode 1 = some (ByteOrder.big.bytes 4 1) := rfl
  simp only [download, rcvEvent1, clntCall, hargs, or_true, if_true]
  rfl

theorem transfer_eq_finished_iff (hname : CString (filename argv)) (hfile : resolve (filename argv) = some i)
    (htemp : resolve temp = some i) (hordinary : (server.files i).isSpecial = false)
    (hstats : net.download.2.stats = true) (husage : argv.length = 3) (hconnected : net.connected = true)
    (hrunning : server.running = true) (hevent : net.event.1 = .answered) (hroom : room 4 = true) :
    transfer resolve room client net disk (filename argv) bytes others ⟨server.files, true⟩ = .finished copy ↔
      Completes resolve room client net disk argv bytes others server i ∧
      copy = ((content resolve net bytes others i).take (dataLen (content resolve net bytes others i))).take
        disk.stored := by
  constructor
  · intro h
    rw [transfer] at h
    cases hencoded : encoded client (filename argv) bytes with
    | none =>
      rw [hencoded] at h
      dsimp only at h
      split at h <;> cases h
    | some file =>
      obtain ⟨hle, hmapped, rfl⟩ := encoded_eq_some_iff.mp hencoded
      obtain ⟨⟨sent, after⟩, hcall⟩ : ∃ result, sendFile1 resolve room (filename argv, bytes.take (dataLen bytes))
        net.upload.1 net.upload.2 ⟨server.files, true⟩ = result := ⟨_, rfl⟩
      simp only [hencoded, hcall] at h
      cases sent with
      | none => cases h
      | some v =>
        obtain ⟨hanswered, -, -, -, hwritten, j, hj, rfl⟩ :=
          (sendFile1_eq_some_iff resolve room hle (length_take_dataLen bytes) hname).mp hcall
        cases Option.some.inj (hfile.symm.trans hj)
        simp only [Node.write_of_isSpecial_eq_false hordinary] at h
        cases hrun : run (receive resolve room) (Function.update server.files i
            (.regular ((bytes.take (dataLen bytes)).take net.upload.2.stored))) others with
        | none =>
          rw [Server.serves, hrun, download_of_lost] at h
          cases h
        | some files =>
          rw [serves_of_run resolve room hrun] at h
          have hnode := node_after resolve room hrun
          obtain ⟨⟨-, hd⟩, rfl⟩ := (download_eq_finished_iff resolve room htemp hnode hstats true).mp h
          have hsurvived := Option.isSome_of_eq_some hrun
          exact ⟨⟨husage, hconnected, hrunning, hroom, hevent, hle, hmapped, hwritten, hanswered, hsurvived, hd⟩, rfl⟩
  · intro h
    obtain ⟨hc, rfl⟩ := h
    obtain ⟨files, hrun⟩ := Option.isSome_iff_exists.mp hc.survived
    have hnode := node_after resolve room hrun
    have hencoded := encoded_eq_some_iff.mpr ⟨hc.name_le, hc.mapped, rfl⟩
    have hcall : sendFile1 resolve room (filename argv, bytes.take (dataLen bytes)) net.upload.1 net.upload.2
        ⟨server.files, true⟩ = (some 0, ⟨Function.update server.files i
          ((server.files i).write ((bytes.take (dataLen bytes)).take net.upload.2.stored)), true⟩) :=
      (sendFile1_eq_some_iff resolve room hc.name_le (length_take_dataLen bytes) hname).mpr
        ⟨hc.upload, rfl, hroom, rfl, hc.written, i, hfile, rfl⟩
    simp only [transfer, hencoded, hcall, Node.write_of_isSpecial_eq_false hordinary]
    rw [serves_of_run resolve room hrun]
    exact (download_eq_finished_iff resolve room htemp hnode hstats true).mpr ⟨⟨rfl, hc.downloads⟩, rfl⟩

theorem wellFormed_event : eventDesc.length ≤ 128 ∧ CString eventDesc := by
  constructor
  · decide
  · unfold CString
    decide

theorem completes_of_main (hname : CString (filename argv)) (hfile : resolve (filename argv) = some i)
    (htemp : resolve temp = some i) (hordinary : (server.files i).isSpecial = false)
    (hstats : net.download.2.stats = true)
    (h : main resolve room client net disk argv bytes others server = .finished copy) :
    Completes resolve room client net disk argv bytes others server i ∧
      copy = ((content resolve net bytes others i).take (dataLen (content resolve net bytes others i))).take
        disk.stored := by
  rw [main] at h
  split at h
  · cases h
  · next hstarted =>
    rw [not_or, not_not, Bool.not_eq_false] at hstarted
    obtain ⟨⟨sent, after⟩, hcall⟩ : ∃ result, sendEvent1 resolve room (88, eventDesc) net.event.1 net.event.2
      server = result := ⟨_, rfl⟩
    simp only [hcall] at h
    cases sent with
    | none => cases h
    | some v =>
      obtain ⟨hevent, hrunning, hroom, -, rfl⟩ :=
        (sendEvent1_eq_some_iff resolve room wellFormed_event.1 wellFormed_event.2).mp hcall
      exact (transfer_eq_finished_iff resolve room hname hfile htemp hordinary hstats hstarted.1 hstarted.2 hrunning
        hevent hroom).mp h

theorem main_of_completes (hname : CString (filename argv)) (hfile : resolve (filename argv) = some i)
    (htemp : resolve temp = some i) (hordinary : (server.files i).isSpecial = false)
    (hstats : net.download.2.stats = true) (h : Completes resolve room client net disk argv bytes others server i) :
    main resolve room client net disk argv bytes others server = .finished
      (((content resolve net bytes others i).take (dataLen (content resolve net bytes others i))).take
        disk.stored) := by
  have hcall : sendEvent1 resolve room (88, eventDesc) net.event.1 net.event.2 server =
      (some 0, ⟨server.files, true⟩) :=
    (sendEvent1_eq_some_iff resolve room wellFormed_event.1 wellFormed_event.2).mpr
      ⟨h.event, h.running, h.replies, rfl, rfl⟩
  have hstarted : ¬(argv.length ≠ 3 ∨ net.connected = false) := by
    simp [h.usage, h.connected]
  rw [main, if_neg hstarted]
  simp only [hcall]
  exact (transfer_eq_finished_iff resolve room hname hfile htemp hordinary hstats h.usage h.connected h.running h.event
    h.replies).mpr ⟨h, rfl⟩

/-- A run of `ssson_client` on a file whose name is, for the server, that of `temp`, which is no
special file there. It ends with a copy in `rcv_temp` exactly when nothing it depends on fails,
and the copy is what is in `temp` at that time: the last bytes that others have put there, or
else the upload, each cut to the length that a `u_int` holds and to what reached the disks. -/
theorem main_eq_finished_iff (hname : CString (filename argv)) (hfile : resolve (filename argv) = some i)
    (htemp : resolve temp = some i) (hordinary : (server.files i).isSpecial = false)
    (hstats : net.download.2.stats = true) :
    main resolve room client net disk argv bytes others server = .finished copy ↔
      Completes resolve room client net disk argv bytes others server i ∧
      copy = ((content resolve net bytes others i).take (dataLen (content resolve net bytes others i))).take
        disk.stored := by
  constructor
  · intro h
    exact completes_of_main resolve room hname hfile htemp hordinary hstats h
  · intro h
    rw [h.2]
    exact main_of_completes resolve room hname hfile htemp hordinary hstats h.1

/-- With nobody else at the file, the copy is exact when the length fits a `u_int` and both disks
take all of it; the program does not look whether they do. -/
theorem main_copy_eq_iff (hname : CString (filename argv)) (hfile : resolve (filename argv) = some i)
    (htemp : resolve temp = some i) (hordinary : (server.files i).isSpecial = false)
    (hstats : net.download.2.stats = true) (hothers : lastWritten resolve i others = none)
    (h : main resolve room client net disk argv bytes others server = .finished copy) :
    copy = bytes ↔ bytes.length < 2 ^ 32 ∧ bytes.length ≤ net.upload.2.stored ∧ bytes.length ≤ disk.stored := by
  obtain ⟨-, rfl⟩ := completes_of_main resolve room hname hfile htemp hordinary hstats h
  have hlt : ((bytes.take (dataLen bytes)).take net.upload.2.stored).length < 2 ^ 32 := by
    rw [List.length_take]
    exact Nat.lt_of_le_of_lt (Nat.min_le_right _ _) (length_take_dataLen bytes)
  have hcontent : (content resolve net bytes others i).take (dataLen (content resolve net bytes others i)) =
      (bytes.take (dataLen bytes)).take net.upload.2.stored := by
    rw [content, hothers, Option.getD_none, dataLen, Nat.mod_eq_of_lt hlt, List.take_length]
  rw [hcontent, List.take_take, take_dataLen_eq_iff]
  constructor
  · intro hsizes
    exact ⟨hsizes.1, hsizes.2.trans (Nat.min_le_right _ _), hsizes.2.trans (Nat.min_le_left _ _)⟩
  · intro hsizes
    exact ⟨hsizes.1, Nat.le_min.mpr ⟨hsizes.2.2, hsizes.2.1⟩⟩

end Session

end Client

section Samples

def plainNetwork : Network :=
  ⟨true, (.answered, plainSystem 9), (.answered, plainSystem 9), (.answered, plainSystem 9)⟩

def plainArgv : List Name := [[0x63], [0x68], temp]

theorem cString_plainArgv : CString (filename plainArgv) := cString_temp.2

theorem completes_two_bytes : Completes plainResolve (fun _ => true) ⟨true, true⟩ plainNetwork ⟨true, 9⟩
    plainArgv [0x61, 0x62] [] ⟨fun _ => .absent, true⟩ temp :=
  ⟨rfl, rfl, rfl, rfl, rfl, by decide, by decide, ⟨rfl, temp, rfl, rfl, rfl, rfl⟩, rfl, rfl, ⟨rfl, by decide, rfl, rfl⟩⟩

/-- Two bytes, uploaded as `temp` to a server without files and brought back over a transport with
room for any reply. -/
theorem main_two_bytes :
    main plainResolve (fun _ => true) ⟨true, true⟩ plainNetwork ⟨true, 9⟩ plainArgv [0x61, 0x62] []
      ⟨fun _ => .absent, true⟩ = .finished [0x61, 0x62] :=
  (main_eq_finished_iff plainResolve _ cString_plainArgv rfl rfl rfl rfl).mpr ⟨completes_two_bytes, by decide⟩

theorem main_copy_two_bytes : ([0x61, 0x62] : List Byte).take 2 = [0x61, 0x62] ↔ 2 < 2 ^ 32 ∧ 2 ≤ 9 ∧ 2 ≤ 9 :=
  main_copy_eq_iff plainResolve _ cString_plainArgv rfl rfl rfl rfl rfl
    (main_of_completes plainResolve _ cString_plainArgv rfl rfl rfl rfl completes_two_bytes)

end Samples

end WorkCode.FileTransfers
