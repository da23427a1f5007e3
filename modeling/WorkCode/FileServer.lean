import WorkCode.ByteMemory
import Mathlib.Logic.Function.Basic

/-!
# The file server

The handlers of `ssson_server.c` work on one file system. How the system resolves a name
is a parameter; what a system call does beyond the state of the file system is given with
each request. A handler looks at no result, so it completes with a valid value exactly
when its calls happen to succeed.
-/

namespace WorkCode.FileServer

abbrev Name := List Byte

/-- A special file is a FIFO, a device or a socket. -/
inductive Node
  | absent
  | regular (bytes : List Byte)
  | directory (size : ℕ)
  | special (size : ℕ)
  deriving DecidableEq, Repr

/-- A decoded `struct file`: the name has at most 128 bytes, and the length is a `u_int`. -/
structure File where
  name : Name
  data : List Byte
  name_le : name.length ≤ 128
  dataLen_lt : data.length < 2 ^ 32

structure EventArg where
  eventId : BitVec 32
  desc : List Byte
  desc_le : desc.length ≤ 128

inductive Request
  | sendEvent (event : EventArg)
  | sendFile (file : File)
  | rcvEvent (id : BitVec 32)

/-- What a special file does: whether it keeps `open` waiting, whether it takes what is written
(the writer waits or is killed otherwise), and what a mapping of it shows. -/
structure Special where
  waits : Bool
  takes : Bool
  shows : Option (List Byte)

/-- What the system decides while a request is handled: whether `fopen` and `open` find
resources and permission, how many bytes reach the disk, whether `stat` succeeds, what
is in the `struct stat` otherwise, whether `mmap` finds space, and how many zero bytes it
shows behind the end of a file, up to the end of the page. -/
structure System where
  opens : Bool
  stored : ℕ
  stats : Bool
  garbage : ℕ
  maps : Bool
  fill : ℕ
  special : Special

/-- What a handler call comes to. A mapping is given by the bytes it shows, `none` for
`MAP_FAILED`. -/
inductive Outcome
  | nullStream
  | unfinished
  | status (rc : ℤ)
  | file (dataLen : ℕ) (dataVal : Option (List Byte))
  deriving DecidableEq, Repr

namespace Node

def isAbsent : Node → Bool
  | absent => true
  | _ => false

def isDirectory : Node → Bool
  | directory _ => true
  | _ => false

def isSpecial : Node → Bool
  | special _ => true
  | _ => false

def waits (sys : System) : Node → Bool
  | special _ => sys.special.waits
  | _ => false

def takes (sys : System) (data : List Byte) : Node → Bool
  | special _ => sys.special.takes || data.isEmpty
  | _ => true

/-- A node that was opened for writing, with the bytes that have reached the disk. -/
def write (data : List Byte) : Node → Node
  | special size => special size
  | _ => regular data

def size : Node → Option ℕ
  | absent => none
  | regular bytes => some bytes.length
  | directory size => some size
  | special size => some size

/-- The bytes of a node, as far as there are any to be mapped. -/
def contents (sys : System) : Node → Option (List Byte)
  | regular bytes => some bytes
  | special _ => sys.special.shows
  | _ => none

/-- The bytes that a mapping of any length can show. -/
def shown (sys : System) : Node → Option (List Byte)
  | regular bytes => some (bytes ++ List.replicate sys.fill 0)
  | special _ => sys.special.shows
  | _ => none

theorem write_of_isSpecial_eq_false {node : Node} (h : node.isSpecial = false) (data : List Byte) :
    node.write data = regular data := by
  cases node with
  | special size => cases h
  | absent => rfl
  | regular bytes => rfl
  | directory size => rfl

theorem shown_of_contents {node : Node} {sys : System} {bytes : List Byte} (h : node.contents sys = some bytes) :
    ∃ rest, node.shown sys = some (bytes ++ rest) := by
  cases node with
  | regular data =>
    cases h
    exact ⟨_, rfl⟩
  | special size => exact ⟨[], h.trans (by rw [List.append_nil])⟩
  | absent => cases h
  | directory size => cases h

theorem isAbsent_of_shown {node : Node} {sys : System} {seen : List Byte} (h : node.shown sys = some seen) :
    node.isAbsent = false := by
  cases node with
  | absent => cases h
  | regular bytes => rfl
  | directory size => rfl
  | special size => rfl

end Node

inductive Opening (ι : Type*)
  | opened (i : ι)
  | refused
  | waits
  deriving DecidableEq

section SystemCalls

variable {ι : Type*} (resolve : Name → Option ι) (files : ι → Node)

def openNode (refuses : Node → Bool) (name : Name) (sys : System) : Opening ι :=
  match resolve name with
  | none => .refused
  | some i =>
    if (files i).waits sys then .waits
    else if refuses (files i) || !sys.opens then .refused
    else .opened i

/-- `fopen (name, "w")`: a stream on an emptied file, unless the name leads nowhere or to a
directory, or the system refuses. -/
def fopen (name : Name) (sys : System) : Opening ι := openNode resolve files Node.isDirectory name sys

def openRead (name : Name) (sys : System) : Opening ι := openNode resolve files Node.isAbsent name sys

def stSize (name : Name) (sys : System) : ℕ :=
  match (resolve name).bind fun i => (files i).size with
  | some size => if sys.stats then size else sys.garbage
  | none => sys.garbage

/-- `mmap (0, len, PROT_READ, MAP_SHARED, fd, 0)`; a length of 0 is refused. -/
def mmap (len : ℕ) (fd : Option ι) (sys : System) : Option (List Byte) :=
  if len ≠ 0 ∧ sys.maps then (fd.bind fun i => (files i).shown sys).map (·.take len) else none

variable {resolve files}

theorem openNode_eq_opened_iff {refuses : Node → Bool} {name : Name} {sys : System} {i : ι} :
    openNode resolve files refuses name sys = .opened i ↔ resolve name = some i ∧
      (files i).waits sys = false ∧ refuses (files i) = false ∧ sys.opens = true := by
  cases hname : resolve name with
  | none => simp [openNode, hname]
  | some j =>
    simp only [openNode, hname]
    constructor
    · intro h
      split at h
      · cases h
      · next hwaits =>
        split at h
        · cases h
        · next hopens =>
          cases h
          simp only [Bool.or_eq_true, Bool.not_eq_true', not_or, Bool.not_eq_true, Bool.not_eq_false] at hopens
          exact ⟨rfl, Bool.eq_false_iff.mpr hwaits, hopens⟩
    · rintro ⟨hij, hwaits, hrefuses, hopens⟩
      cases hij
      simp [hwaits, hrefuses, hopens]

theorem openNode_eq_waits_iff {refuses : Node → Bool} {name : Name} {sys : System} :
    openNode resolve files refuses name sys = .waits ↔ ∃ i, resolve name = some i ∧ (files i).waits sys = true := by
  cases hname : resolve name with
  | none => simp [openNode, hname]
  | some j =>
    simp only [openNode, hname]
    constructor
    · intro h
      split at h
      · next hwaits => exact ⟨j, rfl, hwaits⟩
      · split at h <;> cases h
    · rintro ⟨i, hij, hwaits⟩
      cases hij
      rw [if_pos hwaits]

theorem mmap_eq_some_iff {len : ℕ} {fd : Option ι} {sys : System} {val : List Byte} :
    mmap files len fd sys = some val ↔ len ≠ 0 ∧ sys.maps = true ∧
      ∃ i seen, fd = some i ∧ (files i).shown sys = some seen ∧ val = seen.take len := by
  rw [mmap]
  split
  · next h =>
    rw [Option.map_eq_some_iff]
    constructor
    · rintro ⟨seen, hseen, rfl⟩
      obtain ⟨i, hi, hshown⟩ := Option.bind_eq_some_iff.mp hseen
      exact ⟨h.1, h.2, i, seen, hi, hshown, rfl⟩
    · rintro ⟨-, -, i, seen, rfl, hshown, rfl⟩
      exact ⟨seen, hshown, rfl⟩
  · next h =>
    constructor
    · intro hval
      cases hval
    · rintro ⟨hlen, hmaps, -⟩
      exact absurd ⟨hlen, hmaps⟩ h

end SystemCalls

section Handlers

variable {ι : Type*} [DecidableEq ι] (resolve : Name → Option ι)

def temp : Name := [0x74, 0x65, 0x6d, 0x70]

def sendEvent1Svc (_event : EventArg) : Outcome := .status 0

/-- The bytes of `fwrite` and `fclose` that reach the disk are a first part of the data. -/
def sendFile1Svc (files : ι → Node) (file : File) (sys : System) : Outcome × (ι → Node) :=
  match fopen resolve files file.name sys with
  | .refused => (.nullStream, files)
  | .waits => (.unfinished, files)
  | .opened i =>
    if (files i).takes sys file.data then
      (.status 0, Function.update files i ((files i).write (file.data.take sys.stored)))
    else (.unfinished, files)

def rcvEvent1Svc (files : ι → Node) (sys : System) : Outcome :=
  let dataLen := stSize resolve files temp sys % 2 ^ 32
  match openRead resolve files temp sys with
  | .waits => .unfinished
  | .opened fd => .file dataLen (mmap files dataLen (some fd) sys)
  | .refused => .file dataLen (mmap files dataLen none sys)

def handle (files : ι → Node) (request : Request) (sys : System) : Outcome × (ι → Node) :=
  match request with
  | .sendEvent event => (sendEvent1Svc event, files)
  | .sendFile file => sendFile1Svc resolve files file sys
  | .rcvEvent _ => (rcvEvent1Svc resolve files sys, files)

/-- A stream that is `NULL`, and a reply that is encoded from more than is mapped, end the
server; a handler that does not return keeps it from everything else. -/
def Outcome.survives : Outcome → Bool
  | .nullStream => false
  | .unfinished => false
  | .status _ => true
  | .file dataLen dataVal => decide (dataLen ≤ (dataVal.getD []).length)

structure Call (ι : Type*) where
  files : ι → Node
  request : Request
  sys : System

def Call.outcome (c : Call ι) : Outcome := (handle resolve c.files c.request c.sys).1

/-- The handler calls of a run, up to the first one the server does not survive. -/
def calls (files : ι → Node) : List (Request × System) → List (Call ι)
  | [] => []
  | (request, sys) :: rest =>
    let after := handle resolve files request sys
    ⟨files, request, sys⟩ :: if after.1.survives then calls after.2 rest else []

omit [DecidableEq ι] in
/-- The handler has returned, its stream was not `NULL`, and a non-empty result is a mapping of
that many bytes of the file `temp`. -/
def Outcome.Valid (files : ι → Node) (sys : System) : Outcome → Prop
  | .nullStream => False
  | .unfinished => False
  | .status _ => True
  | .file dataLen dataVal => dataLen ≠ 0 →
    ∃ i bytes, resolve temp = some i ∧ (files i).contents sys = some bytes ∧ dataLen ≤ bytes.length ∧
      dataVal = some (bytes.take dataLen)

/-- The name leads to a node that can be opened for writing, and that takes the bytes. -/
def Writable (files : ι → Node) (sys : System) (name : Name) (data : List Byte) : Prop :=
  sys.opens = true ∧ ∃ i, resolve name = some i ∧ (files i).waits sys = false ∧
    (files i).isDirectory = false ∧ (files i).takes sys data = true

/-- The system calls of the handler that have to succeed. -/
def Granted (files : ι → Node) (sys : System) : Request → Prop
  | .sendEvent _ => True
  | .sendFile file => Writable resolve files sys file.name file.data
  | .rcvEvent _ => (∀ i, resolve temp = some i → (files i).waits sys = false) ∧
    (stSize resolve files temp sys % 2 ^ 32 = 0 ∨
      sys.opens = true ∧ sys.maps = true ∧ ∃ i bytes, resolve temp = some i ∧
        (files i).contents sys = some bytes ∧ stSize resolve files temp sys % 2 ^ 32 ≤ bytes.length)

variable {resolve}

theorem sendFile1Svc_of_writable (file : File) {files : ι → Node} {sys : System}
    (h : Writable resolve files sys file.name file.data) : ∃ i, resolve file.name = some i ∧
      sendFile1Svc resolve files file sys =
        (.status 0, Function.update files i ((files i).write (file.data.take sys.stored))) := by
  obtain ⟨hopens, i, hname, hwaits, hdirectory, htakes⟩ := h
  refine ⟨i, hname, ?_⟩
  have hopened : fopen resolve files file.name sys = .opened i :=
    openNode_eq_opened_iff.mpr ⟨hname, hwaits, hdirectory, hopens⟩
  simp only [sendFile1Svc, hopened, if_pos htakes]

theorem sendFile1Svc_of_not_writable (file : File) {files : ι → Node} {sys : System}
    (h : ¬ Writable resolve files sys file.name file.data) : sendFile1Svc resolve files file sys = (.nullStream, files) ∨
      sendFile1Svc resolve files file sys = (.unfinished, files) := by
  cases hopen : fopen resolve files file.name sys with
  | refused => exact .inl (by simp only [sendFile1Svc, hopen])
  | waits => exact .inr (by simp only [sendFile1Svc, hopen])
  | opened i =>
    obtain ⟨hname, hwaits, hdirectory, hopens⟩ := openNode_eq_opened_iff.mp hopen
    have htakes : ¬ (files i).takes sys file.data = true := by
      intro htakes
      exact h ⟨hopens, i, hname, hwaits, hdirectory, htakes⟩
    exact .inr (by simp only [sendFile1Svc, hopen, if_neg htakes])

variable (resolve)

theorem sendFile_valid_iff (files : ι → Node) (file : File) (sys : System) :
    (sendFile1Svc resolve files file sys).1.Valid resolve files sys ↔
      Writable resolve files sys file.name file.data := by
  by_cases h : Writable resolve files sys file.name file.data
  · obtain ⟨i, -, hcall⟩ := sendFile1Svc_of_writable file h
    simp [hcall, Outcome.Valid, h]
  · rcases sendFile1Svc_of_not_writable file h with hcall | hcall <;> simp [hcall, Outcome.Valid, h]

omit [DecidableEq ι] in
theorem rcvEvent1Svc_of_not_waits {files : ι → Node} {sys : System}
    (h : ∀ i, resolve temp = some i → (files i).waits sys = false) : ∃ dataVal,
      rcvEvent1Svc resolve files sys = .file (stSize resolve files temp sys % 2 ^ 32) dataVal ∧
      ∀ val, dataVal = some val ↔ stSize resolve files temp sys % 2 ^ 32 ≠ 0 ∧ sys.maps = true ∧
        sys.opens = true ∧ ∃ i seen, resolve temp = some i ∧ (files i).shown sys = some seen ∧
          val = seen.take (stSize resolve files temp sys % 2 ^ 32) := by
  cases hopen : openRead resolve files temp sys with
  | waits =>
    obtain ⟨i, hname, hwaits⟩ := openNode_eq_waits_iff.mp hopen
    rw [h i hname] at hwaits
    cases hwaits
  | opened fd =>
    obtain ⟨hname, -, -, hopens⟩ := openNode_eq_opened_iff.mp hopen
    refine ⟨mmap files (stSize resolve files temp sys % 2 ^ 32) (some fd) sys, by simp only [rcvEvent1Svc, hopen], ?_⟩
    intro val
    rw [mmap_eq_some_iff]
    simp [hname, hopens]
  | refused =>
    refine ⟨mmap files (stSize resolve files temp sys % 2 ^ 32) none sys, by simp only [rcvEvent1Svc, hopen], ?_⟩
    intro val
    rw [mmap_eq_some_iff]
    constructor
    · rintro ⟨-, -, i, seen, hnone, -⟩
      cases hnone
    · rintro ⟨-, -, hopens, i, seen, hname, hshown, -⟩
      have hopened : openRead resolve files temp sys = .opened i :=
        openNode_eq_opened_iff.mpr ⟨hname, h i hname, Node.isAbsent_of_shown hshown, hopens⟩
      rw [hopen] at hopened
      cases hopened

omit [DecidableEq ι] in
theorem rcvEvent1Svc_of_waits {files : ι → Node} {sys : System}
    (h : ¬ ∀ i, resolve temp = some i → (files i).waits sys = false) :
    rcvEvent1Svc resolve files sys = .unfinished := by
  simp only [not_forall, Bool.not_eq_false] at h
  obtain ⟨i, hname, hwaits⟩ := h
  have hopen : openRead resolve files temp sys = .waits := openNode_eq_waits_iff.mpr ⟨i, hname, hwaits⟩
  simp only [rcvEvent1Svc, hopen]

omit [DecidableEq ι] in
theorem rcvEvent_valid_iff (files : ι → Node) (id : BitVec 32) (sys : System) :
    (rcvEvent1Svc resolve files sys).Valid resolve files sys ↔
      Granted resolve files sys (.rcvEvent id) := by
  by_cases hwaits : ∀ i, resolve temp = some i → (files i).waits sys = false
  · obtain ⟨dataVal, hcall, hmapped⟩ := rcvEvent1Svc_of_not_waits resolve hwaits
    rw [hcall, Granted, and_iff_right hwaits]
    constructor
    · intro hvalid
      by_cases hzero : stSize resolve files temp sys % 2 ^ 32 = 0
      · exact .inl hzero
      · obtain ⟨i, bytes, hname, hcontents, hle, hval⟩ := hvalid hzero
        obtain ⟨-, hmaps, hopens, -⟩ := (hmapped _).mp hval
        exact .inr ⟨hopens, hmaps, i, bytes, hname, hcontents, hle⟩
    · rintro (hzero | ⟨hopens, hmaps, i, bytes, hname, hcontents, hle⟩) hne
      · exact absurd hzero hne
      · obtain ⟨rest, hshown⟩ := Node.shown_of_contents hcontents
        refine ⟨i, bytes, hname, hcontents, hle, (hmapped _).mpr ?_⟩
        exact ⟨hne, hmaps, hopens, i, _, hname, hshown, (List.take_append_of_le_length hle).symm⟩
  · rw [rcvEvent1Svc_of_waits resolve hwaits, Granted]
    constructor
    · intro hvalid
      exact hvalid.elim
    · intro h
      exact (hwaits h.1).elim

theorem valid_iff (files : ι → Node) (request : Request) (sys : System) :
    (handle resolve files request sys).1.Valid resolve files sys ↔ Granted resolve files sys request := by
  cases request with
  | sendEvent event => exact Iff.rfl
  | sendFile file => exact sendFile_valid_iff resolve files file sys
  | rcvEvent id => exact rcvEvent_valid_iff resolve files id sys

omit [DecidableEq ι] in
theorem Outcome.Valid.survives {files : ι → Node} {sys : System} {outcome : Outcome}
    (h : outcome.Valid resolve files sys) : outcome.survives = true := by
  cases outcome with
  | nullStream => exact h.elim
  | unfinished => exact h.elim
  | status rc => rfl
  | file dataLen dataVal =>
    apply decide_eq_true
    by_cases hzero : dataLen = 0
    · rw [hzero]
      exact Nat.zero_le _
    · obtain ⟨i, bytes, -, -, hle, rfl⟩ := h hzero
      rw [Option.getD_some, List.length_take_of_le hle]

structure AllServed (files : ι → Node) (requests : List (Request × System)) : Prop where
  completed : (calls resolve files requests).length = requests.length
  valid : ∀ c ∈ calls resolve files requests, (c.outcome resolve).Valid resolve c.files c.sys

theorem length_calls {files : ι → Node} {requests : List (Request × System)}
    (h : ∀ c ∈ calls resolve files requests, (c.outcome resolve).Valid resolve c.files c.sys) :
    (calls resolve files requests).length = requests.length := by
  induction requests generalizing files with
  | nil => rfl
  | cons head rest ih =>
    obtain ⟨request, sys⟩ := head
    have hhead := h ⟨files, request, sys⟩ List.mem_cons_self
    have hsurvives : (handle resolve files request sys).1.survives = true := hhead.survives
    simp only [calls, hsurvives, if_true, List.mem_cons, forall_eq_or_imp] at h ⊢
    rw [List.length_cons, ih h.2, List.length_cons]

/-- In a run from any state, every request is handled with a valid result if and only if
the system grants each handler the calls it depends on. -/
theorem allServed_iff (files : ι → Node) (requests : List (Request × System)) :
    AllServed resolve files requests ↔
      ∀ c ∈ calls resolve files requests, Granted resolve c.files c.sys c.request := by
  constructor
  · intro h c hc
    exact (valid_iff resolve c.files c.request c.sys).mp (h.valid c hc)
  · intro h
    have hvalid : ∀ c ∈ calls resolve files requests, (c.outcome resolve).Valid resolve c.files c.sys := by
      intro c hc
      exact (valid_iff resolve c.files c.request c.sys).mpr (h c hc)
    exact ⟨length_calls resolve hvalid, hvalid⟩

end Handlers

def plainResolve (name : Name) : Option Name := if name = [] then none else some name

def plainSystem (stored : ℕ) : System := ⟨true, stored, true, 0, true, 0, ⟨false, true, none⟩⟩

def emptyNameRequest : Request × System :=
  (.sendFile ⟨[], [0x61], by decide, by decide⟩, plainSystem 1)

theorem emptyNameRequest_not_served :
    ¬ ∀ (files : Name → Node) (requests : List (Request × System)), AllServed plainResolve files requests := by
  intro h
  have hvalid := (h (fun _ => .absent) [emptyNameRequest]).valid
  exact hvalid ⟨fun _ => .absent, emptyNameRequest.1, emptyNameRequest.2⟩ List.mem_cons_self

end WorkCode.FileServer
