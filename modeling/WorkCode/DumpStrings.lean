import WorkCode.InternetAddress

/-!
# The strings of `pcap_dump.c`

`main` copies its arguments and composes its filter and its error prefixes in arrays of
fixed size. Only the length of the interface name is checked.
-/

namespace WorkCode.DumpStrings

/-- A string without its terminating NUL. -/
abbrev Text := List Char

def IFSZ : ℕ := 16
def FLTRSZ : ℕ := 120
def PCAP_SAVEFILE : Text := "./pcap_savefile".toList

inductive Buffer | ifname | filename | fltstr | prestr

def Buffer.size : Buffer → ℕ
  | ifname => IFSZ
  | filename => 80
  | fltstr => FLTRSZ
  | prestr => 80

structure Write where
  buffer : Buffer
  text : Text

/-- The string fits with its NUL. -/
def Write.Fits (write : Write) : Prop := write.text.length + 1 ≤ write.buffer.size

def HostName := {name : Text // name.length ≤ 64}

/-- What the library and the system do: which calls succeed, and the host name. -/
structure System where
  pcapOpenLive : Bool
  gethostname : Option HostName
  pcapCompile : Bool
  pcapSetfilter : Bool
  pcapDumpOpen : Bool
  pcapDispatch : Bool

/-- `net` and `mask` keep their initial value: `pcap_lookupnet` is commented out. -/
def net : Quad := ⟨0, 0, 0, 0⟩
def mask : Quad := ⟨0, 0, 0, 0⟩

def inetNtop (addr : Quad) : Text := addr.dotted

def fltstr (lhost : Text) : Text :=
  "dst host ".toList ++ lhost ++ " and src net ".toList ++ inetNtop net ++ " mask ".toList ++
    inetNtop mask ++ " and udp port 69".toList

def installPrefix (ifname : Text) : Text :=
  "Error installing bpf filter on interface ".toList ++ ifname

def readPrefix (ifname : Text) : Text :=
  "Error reading packets from interface ".toList ++ ifname

/-- What `main` writes once it has the host name. -/
def capture (system : System) (ifname lhost : Text) : List Write :=
  ⟨.fltstr, fltstr lhost⟩ ::
    if !system.pcapCompile then []
    else if !system.pcapSetfilter then [⟨.prestr, installPrefix ifname⟩]
    else if !system.pcapDumpOpen then []
    else if !system.pcapDispatch then [⟨.prestr, readPrefix ifname⟩]
    else []

/-- The strings that `main` builds, in order; the program's name is the first argument. -/
def main (system : System) : List Text → List Write
  | _ :: ifname :: rest =>
    if IFSZ < ifname.length then []
    else
      [⟨.ifname, ifname⟩, ⟨.filename, rest.headD PCAP_SAVEFILE⟩] ++
        if !system.pcapOpenLive then []
        else match system.gethostname with
          | none => []
          | some lhost => capture system ifname lhost.val
  | _ => []

theorem length_fltstr (lhost : Text) : (fltstr lhost).length = 58 + lhost.length := by
  have hrest : (" and src net ".toList ++ inetNtop net ++ " mask ".toList ++ inetNtop mask ++
      " and udp port 69".toList).length = 49 := by decide +kernel
  have hdst : "dst host ".toList.length = 9 := by decide +kernel
  simp only [List.length_append] at hrest
  unfold fltstr
  simp only [List.length_append, hdst]
  omega

theorem length_installPrefix (ifname : Text) :
    (installPrefix ifname).length = 41 + ifname.length := by
  have hinstall : "Error installing bpf filter on interface ".toList.length = 41 := by
    decide +kernel
  unfold installPrefix
  rw [List.length_append, hinstall]

theorem length_readPrefix (ifname : Text) : (readPrefix ifname).length = 37 + ifname.length := by
  have hread : "Error reading packets from interface ".toList.length = 37 := by decide +kernel
  unfold readPrefix
  rw [List.length_append, hread]

theorem fits_fltstr_iff (lhost : Text) :
    (⟨.fltstr, fltstr lhost⟩ : Write).Fits ↔ lhost.length ≤ 61 := by
  rw [Write.Fits, length_fltstr]
  change 58 + lhost.length + 1 ≤ 120 ↔ lhost.length ≤ 61
  omega

theorem fits_prestr {ifname : Text} (h : ifname.length ≤ IFSZ) :
    (⟨.prestr, installPrefix ifname⟩ : Write).Fits ∧ (⟨.prestr, readPrefix ifname⟩ : Write).Fits := by
  have hsize : IFSZ = 16 := rfl
  rw [Write.Fits, Write.Fits, length_installPrefix, length_readPrefix]
  change 41 + ifname.length + 1 ≤ 80 ∧ 37 + ifname.length + 1 ≤ 80
  omega

/-- Behind the host name only the filter can be too long. -/
theorem fits_capture_iff (system : System) {ifname : Text} (h : ifname.length ≤ IFSZ) (lhost : Text) :
    (∀ write ∈ capture system ifname lhost, write.Fits) ↔ lhost.length ≤ 61 := by
  obtain ⟨hinstall, hread⟩ := fits_prestr h
  rw [capture, List.forall_mem_cons, fits_fltstr_iff, and_iff_left_iff_imp]
  intro _
  split
  · exact List.forall_mem_nil _
  · split
    · exact List.forall_mem_singleton.mpr hinstall
    · split
      · exact List.forall_mem_nil _
      · split
        · exact List.forall_mem_singleton.mpr hread
        · exact List.forall_mem_nil _

theorem fits_filename_iff (rest : List Text) :
    (⟨.filename, rest.headD PCAP_SAVEFILE⟩ : Write).Fits ↔
      ∀ name ∈ rest.head?, name.length ≤ 79 := by
  cases rest with
  | nil =>
    simp only [List.headD_nil, List.head?_nil, Option.mem_def, reduceCtorEq, false_implies,
      implies_true, iff_true]
    change PCAP_SAVEFILE.length + 1 ≤ 80
    decide +kernel
  | cons name rest =>
    simp only [List.headD_cons, List.head?_cons, Option.mem_def, Option.some.injEq, forall_eq']
    exact Nat.succ_le_succ_iff

/-- Every string fits exactly when the interface name is rejected, or it is shorter than its
array, a given savefile name fits, and a host name that is reached leaves room for the
rest of the filter. -/
theorem fits_iff (system : System) (prog ifname : Text) (rest : List Text) :
    (∀ write ∈ main system (prog :: ifname :: rest), write.Fits) ↔
      IFSZ < ifname.length ∨
        (ifname.length ≤ 15 ∧ (∀ name ∈ rest.head?, name.length ≤ 79) ∧
          (system.pcapOpenLive → ∀ lhost ∈ system.gethostname, lhost.val.length ≤ 61)) := by
  have hsize : IFSZ = 16 := rfl
  have hifname : (⟨.ifname, ifname⟩ : Write).Fits ↔ ifname.length ≤ 15 := Nat.succ_le_succ_iff
  by_cases hreject : IFSZ < ifname.length
  · simp [main, hreject]
  · have hopened : (∀ write ∈ (if !system.pcapOpenLive then []
          else match system.gethostname with
            | none => []
            | some lhost => capture system ifname lhost.val), write.Fits) ↔
        (system.pcapOpenLive → ∀ lhost ∈ system.gethostname, lhost.val.length ≤ 61) := by
      cases hopen : system.pcapOpenLive with
      | false => simp
      | true =>
        cases hname : system.gethostname with
        | none => simp
        | some lhost => simp [fits_capture_iff system (Nat.le_of_not_lt hreject) lhost.val]
    rw [main, if_neg hreject, List.forall_mem_append, List.forall_mem_cons,
      List.forall_mem_singleton, hifname, fits_filename_iff, hopened, or_iff_right hreject, and_assoc]

/-- An interface name of sixteen characters passes the check and leaves no room for the NUL. -/
theorem longInterface_not_fits :
    ¬ ∀ (system : System) (prog ifname : Text) (rest : List Text), ifname.length ≤ IFSZ →
      ∀ write ∈ main system (prog :: ifname :: rest), write.Fits := by
  intro h
  have hfits := h ⟨false, none, false, false, false, false⟩ [] (List.replicate 16 'e') []
    (by decide) ⟨.ifname, List.replicate 16 'e'⟩ List.mem_cons_self
  revert hfits
  change ¬ 16 + 1 ≤ 16
  decide

end WorkCode.DumpStrings
