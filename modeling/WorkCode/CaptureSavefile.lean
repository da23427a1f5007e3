import WorkCode.ByteMemory
import Mathlib.Data.List.Flatten

/-!
# Appending captures to a savefile

`pcap_dump2` opens its file for appending, but `pcap_dump_fopen` writes a global header in
every run. What libpcap writes is a parameter: a global header of 24 bytes for a capture,
and one record for a packet.
-/

namespace WorkCode.CaptureSavefile

/-- The two things libpcap writes into a savefile. -/
structure SavefileFormat (Link Packet : Type*) where
  header : Link → List Byte
  record : Packet → List Byte
  length_header : ∀ link, (header link).length = 24

section Runs

variable {Link Packet : Type*}

/-- The packets that `pcap_loop` hands to `wifi_callback`, each of which is dumped, when
the callback's counter is at `i`; it breaks the loop once the counter is over 10. -/
def pcapLoop : ℕ → List Packet → List Packet
  | _, [] => []
  | i, packet :: packets => packet :: if i + 1 > 10 then [] else pcapLoop (i + 1) packets

/-- A run: whether the capture can be created and activated, and what it captures. -/
structure Run (Link Packet : Type*) where
  activated : Bool
  link : Link
  captured : List Packet

/-- The packets a run dumps; the counter is a new one in every run. -/
def Run.dumped (run : Run Link Packet) : List Packet :=
  if run.activated then pcapLoop 0 run.captured else []

variable (fmt : SavefileFormat Link Packet)

/-- The file after a run, `none` as long as there is none: `fopen (…, "a+")` makes every
write go to the end. -/
def main (file : Option (List Byte)) (run : Run Link Packet) : Option (List Byte) :=
  if run.activated then
    some (file.getD [] ++ fmt.header run.link ++ run.dumped.flatMap fmt.record)
  else file

def IsSavefile (bytes : List Byte) (packets : List Packet) : Prop :=
  ∃ link, bytes = fmt.header link ++ packets.flatMap fmt.record

def dumpedBy (runs : List (Run Link Packet)) : List Packet := runs.flatMap Run.dumped

def captures (runs : List (Run Link Packet)) : ℕ := runs.countP (·.activated)

theorem pcapLoop_eq (i : ℕ) (hi : i ≤ 10) (packets : List Packet) :
    pcapLoop i packets = packets.take (11 - i) := by
  induction packets generalizing i with
  | nil => simp [pcapLoop]
  | cons packet packets ih =>
    have hsucc : 11 - i = (10 - i) + 1 := by omega
    rw [pcapLoop, hsucc, List.take_succ_cons]
    by_cases hlast : i = 10
    · simp [hlast]
    · have hnext := ih (i + 1) (by omega)
      rw [if_neg (by omega), hnext, show 11 - (i + 1) = 10 - i by omega]

theorem isSome_foldl_main (runs : List (Run Link Packet)) (file : Option (List Byte)) :
    (runs.foldl (main fmt) file).isSome = (file.isSome || decide (0 < captures runs)) := by
  induction runs generalizing file with
  | nil => simp [captures]
  | cons run runs ih =>
    rw [List.foldl_cons, ih, main]
    cases hrun : run.activated with
    | true => simp [captures, hrun]
    | false => simp [captures, hrun]

theorem length_foldl_main (runs : List (Run Link Packet)) (file : Option (List Byte)) :
    ((runs.foldl (main fmt) file).getD []).length =
      (file.getD []).length + 24 * captures runs + ((dumpedBy runs).flatMap fmt.record).length := by
  induction runs generalizing file with
  | nil => simp [captures, dumpedBy]
  | cons run runs ih =>
    rw [List.foldl_cons, ih, main]
    cases hrun : run.activated with
    | true =>
      simp [captures, dumpedBy, hrun, fmt.length_header, List.flatMap_append]
      omega
    | false => simp [captures, dumpedBy, hrun, Run.dumped]

theorem foldl_main_of_captures_eq_zero {runs : List (Run Link Packet)} (h : captures runs = 0)
    (file : Option (List Byte)) : runs.foldl (main fmt) file = file ∧ dumpedBy runs = [] := by
  induction runs with
  | nil => exact ⟨rfl, rfl⟩
  | cons run runs ih =>
    rw [captures, List.countP_eq_zero] at h
    have hrun : run.activated = false := by simpa using h run List.mem_cons_self
    have hrest : captures runs = 0 :=
      List.countP_eq_zero.mpr fun r hr => h r (List.mem_cons_of_mem _ hr)
    obtain ⟨hfold, hdumped⟩ := ih hrest
    constructor
    · simpa [main, hrun] using hfold
    · simpa [dumpedBy, Run.dumped, hrun] using hdumped

theorem isSavefile_of_captures_le_one {runs : List (Run Link Packet)} (h : captures runs ≤ 1)
    {bytes : List Byte} (hbytes : runs.foldl (main fmt) none = some bytes) :
    IsSavefile fmt bytes (dumpedBy runs) := by
  induction runs with
  | nil => cases hbytes
  | cons run runs ih =>
    rw [List.foldl_cons, main] at hbytes
    cases hrun : run.activated with
    | true =>
      have hrest : captures runs = 0 := by
        simp only [captures, List.countP_cons, hrun, if_true] at h
        exact Nat.le_zero.mp (Nat.le_of_succ_le_succ h)
      rw [if_pos hrun] at hbytes
      obtain ⟨hfold, hdumped⟩ := foldl_main_of_captures_eq_zero fmt hrest
        (some (Option.getD none [] ++ fmt.header run.link ++ run.dumped.flatMap fmt.record))
      refine ⟨run.link, ?_⟩
      have hall : dumpedBy (run :: runs) = run.dumped := by
        rw [dumpedBy, List.flatMap_cons, ← dumpedBy, hdumped, List.append_nil]
      rw [hall]
      exact (Option.some.inj (hfold.symm.trans hbytes)).symm
    | false =>
      have hrest : captures runs ≤ 1 := by simpa [captures, hrun] using h
      rw [if_neg (by simp [hrun])] at hbytes
      have hall : dumpedBy (run :: runs) = dumpedBy runs := by
        simp [dumpedBy, Run.dumped, hrun]
      rw [hall]
      exact ih hrest hbytes

/-- The file that runs leave is a savefile of the packets they dumped if and only if at
most one of them captured. -/
theorem isSavefile_iff (runs : List (Run Link Packet)) :
    (∀ bytes, runs.foldl (main fmt) none = some bytes → IsSavefile fmt bytes (dumpedBy runs)) ↔
      captures runs ≤ 1 := by
  constructor
  · intro h
    by_contra hmany
    have hsome := isSome_foldl_main fmt runs none
    rw [Option.isSome_none, Bool.false_or, decide_eq_true (by omega)] at hsome
    obtain ⟨bytes, hbytes⟩ := Option.isSome_iff_exists.mp hsome
    obtain ⟨link, hfile⟩ := h bytes hbytes
    have hlength := length_foldl_main fmt runs none
    rw [hbytes, Option.getD_some, hfile, List.length_append, fmt.length_header, Option.getD_none,
      List.length_nil] at hlength
    omega
  · intro h bytes hbytes
    exact isSavefile_of_captures_le_one fmt h hbytes

end Runs

structure ClassicLink where
  snaplen : ℕ
  linktype : ℕ

structure ClassicPacket where
  sec : ℕ
  usec : ℕ
  len : ℕ
  data : List Byte

/-- The savefile format of version 2.4 on a machine with this byte order. -/
def classic (o : ByteOrder) : SavefileFormat ClassicLink ClassicPacket where
  header link := o.bytes 4 0xa1b2c3d4 ++ o.bytes 2 2 ++ o.bytes 2 4 ++ o.bytes 4 0 ++ o.bytes 4 0 ++
    o.bytes 4 link.snaplen ++ o.bytes 4 link.linktype
  record packet := o.bytes 4 packet.sec ++ o.bytes 4 packet.usec ++ o.bytes 4 packet.data.length ++
    o.bytes 4 packet.len ++ packet.data
  length_header link := by simp

/-- Two captures of one packet each: the second header stands where a record should. -/
def twoCaptures : List (Run ClassicLink ClassicPacket) :=
  [⟨true, ⟨65535, 1⟩, [⟨1, 0, 2, [0, 1]⟩]⟩, ⟨true, ⟨65535, 1⟩, [⟨2, 0, 2, [2, 3]⟩]⟩]

theorem twoCaptures_not_savefile :
    ¬ ∀ (runs : List (Run ClassicLink ClassicPacket)) (bytes : List Byte),
      runs.foldl (main (classic .little)) none = some bytes →
        IsSavefile (classic .little) bytes (dumpedBy runs) := by
  intro h
  obtain ⟨link, hfile⟩ := h twoCaptures _ rfl
  have hlength : (twoCaptures.foldl (main (classic .little)) none).map List.length =
      some (24 + ((dumpedBy twoCaptures).flatMap (classic .little).record).length) := by
    rw [← (classic .little).length_header link, ← List.length_append, ← hfile]
    rfl
  revert hlength
  decide

end WorkCode.CaptureSavefile
