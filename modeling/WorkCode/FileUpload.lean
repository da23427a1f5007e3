import WorkCode.FileServer
import Mathlib.Data.List.TakeDrop

/-!
# Uploading a file

`ssson_client` sends a mapping of the file and prints what `send_file_1` returned. The
length goes through a `u_int`, and the handler returns 0 whatever became of the bytes.
-/

namespace WorkCode.FileUpload

open FileServer

/-- What the client's system decides: whether a non-empty part of the file can be mapped,
and whether the call succeeds once the handler has returned. -/
structure Client where
  maps : Bool
  replied : Bool
  deriving DecidableEq, Repr

def dataLen (bytes : List Byte) : ℕ := bytes.length % 2 ^ 32

theorem length_take_dataLen (bytes : List Byte) : (bytes.take (dataLen bytes)).length < 2 ^ 32 := by
  rw [List.length_take]
  exact lt_of_le_of_lt (min_le_left _ _) (Nat.mod_lt _ (by decide))

/-- The `struct file` that is encoded, `none` when the name is too long for `xdr_string` or
bytes would be read from `MAP_FAILED`. -/
def encoded (client : Client) (name : Name) (bytes : List Byte) : Option File :=
  if h : name.length ≤ 128 then
    if dataLen bytes = 0 ∨ client.maps then
      some ⟨name, bytes.take (dataLen bytes), h, length_take_dataLen bytes⟩
    else none
  else none

section Upload

variable {ι : Type*} [DecidableEq ι] (resolve : Name → Option ι)

/-- The part of `main` that uploads: the value it prints, when it gets that far, and the
file system of the server afterwards. -/
def sssonClient (client : Client) (files : ι → Node) (name : Name) (bytes : List Byte)
    (sys : System) : Option ℤ × (ι → Node) :=
  match encoded client name bytes with
  | none => (none, files)
  | some file => match sendFile1Svc resolve files file sys with
    | (.status rc, files) => (if client.replied then some rc else none, files)
    | (_, files) => (none, files)

def Faithful (client : Client) (files : ι → Node) (name : Name) (bytes : List Byte)
    (sys : System) : Prop :=
  (sssonClient resolve client files name bytes sys).1 = some 0 →
    ∃ i, resolve name = some i ∧ (sssonClient resolve client files name bytes sys).2 i = .regular bytes

structure Acknowledged (client : Client) (files : ι → Node) (name : Name) (bytes : List Byte)
    (sys : System) : Prop where
  name_le : name.length ≤ 128
  mapped : dataLen bytes = 0 ∨ client.maps = true
  written : Writable resolve files sys name (bytes.take (dataLen bytes))
  replied : client.replied = true

theorem take_dataLen_eq_iff (bytes : List Byte) (stored : ℕ) :
    (bytes.take (dataLen bytes)).take stored = bytes ↔
      bytes.length < 2 ^ 32 ∧ bytes.length ≤ stored := by
  rw [List.take_take, List.take_eq_self_iff, dataLen, le_min_iff]
  constructor
  · rintro ⟨hstored, hlen⟩
    exact ⟨lt_of_le_of_lt hlen (Nat.mod_lt _ (by decide)), hstored⟩
  · rintro ⟨hlt, hstored⟩
    exact ⟨hstored, (Nat.mod_eq_of_lt hlt).ge⟩

theorem encoded_eq (client : Client) {name : Name} {bytes : List Byte} (hname : name.length ≤ 128)
    (hmapped : dataLen bytes = 0 ∨ client.maps = true) :
    encoded client name bytes = some ⟨name, bytes.take (dataLen bytes), hname, length_take_dataLen bytes⟩ := by
  rw [encoded, dif_pos hname, if_pos hmapped]

/-- An acknowledged upload leaves the first bytes of the file, as many as were mapped and
reached the disk. -/
theorem Acknowledged.sssonClient_eq {client : Client} {files : ι → Node} {name : Name}
    {bytes : List Byte} {sys : System} (h : Acknowledged resolve client files name bytes sys) :
    ∃ i, resolve name = some i ∧ sssonClient resolve client files name bytes sys =
      (some 0, Function.update files i ((files i).write ((bytes.take (dataLen bytes)).take sys.stored))) := by
  have hwritten := h.written
  obtain ⟨i, hi, hcall⟩ := sendFile1Svc_of_writable
    ⟨name, bytes.take (dataLen bytes), h.name_le, length_take_dataLen bytes⟩ hwritten
  refine ⟨i, hi, ?_⟩
  simp [sssonClient, encoded_eq client h.name_le h.mapped, hcall, h.replied]

theorem acknowledged_of_reported {client : Client} {files : ι → Node} {name : Name}
    {bytes : List Byte} {sys : System} {rc : ℤ}
    (h : (sssonClient resolve client files name bytes sys).1 = some rc) :
    Acknowledged resolve client files name bytes sys := by
  by_cases hname : name.length ≤ 128
  · by_cases hmapped : dataLen bytes = 0 ∨ client.maps = true
    · have hencoded := encoded_eq client hname hmapped
      by_cases hwritten : Writable resolve files sys name (bytes.take (dataLen bytes))
      · obtain ⟨i, -, hcall⟩ := sendFile1Svc_of_writable
          ⟨name, bytes.take (dataLen bytes), hname, length_take_dataLen bytes⟩ hwritten
        cases hreplied : client.replied with
        | false => simp [sssonClient, hencoded, hcall, hreplied] at h
        | true => exact ⟨hname, hmapped, hwritten, hreplied⟩
      · rcases sendFile1Svc_of_not_writable
          ⟨name, bytes.take (dataLen bytes), hname, length_take_dataLen bytes⟩ hwritten with hcall | hcall
        · simp [sssonClient, hencoded, hcall] at h
        · simp [sssonClient, hencoded, hcall] at h
    · simp [sssonClient, encoded, hmapped] at h
  · simp [sssonClient, encoded, hname] at h

/-- An upload is faithful if and only if it is not acknowledged, or it is to no special file, the
length of the file fits 32 bits and all its bytes reach the disk. -/
theorem faithful_iff (client : Client) (files : ι → Node) (name : Name) (bytes : List Byte)
    (sys : System) : Faithful resolve client files name bytes sys ↔
      (Acknowledged resolve client files name bytes sys →
        (∀ i, resolve name = some i → (files i).isSpecial = false) ∧
          bytes.length < 2 ^ 32 ∧ bytes.length ≤ sys.stored) := by
  constructor
  · intro h hack
    obtain ⟨i, hi, hrun⟩ := hack.sssonClient_eq
    rw [Faithful, hrun] at h
    obtain ⟨j, hj, hbytes⟩ := h rfl
    cases Option.some.inj (hi.symm.trans hj)
    simp only [Function.update_self] at hbytes
    have hordinary : (files i).isSpecial = false := by
      cases hnode : files i with
      | special size =>
        rw [hnode] at hbytes
        cases hbytes
      | absent => rfl
      | regular data => rfl
      | directory size => rfl
    rw [Node.write_of_isSpecial_eq_false hordinary] at hbytes
    refine ⟨?_, (take_dataLen_eq_iff bytes sys.stored).mp (Node.regular.inj hbytes)⟩
    intro k hk
    cases Option.some.inj (hi.symm.trans hk)
    exact hordinary
  · intro h hreported
    have hack := acknowledged_of_reported resolve hreported
    obtain ⟨i, hi, hrun⟩ := hack.sssonClient_eq
    obtain ⟨hordinary, hsizes⟩ := h hack
    refine ⟨i, hi, ?_⟩
    simp only [hrun, Function.update_self, Node.write_of_isSpecial_eq_false (hordinary i hi),
      (take_dataLen_eq_iff bytes sys.stored).mpr hsizes]

end Upload

/-- A full disk: `fclose` fails, the file stays empty, and 0 is reported. -/
theorem upload_to_full_disk_not_faithful :
    ¬ ∀ (client : Client) (files : Name → Node) (name : Name) (bytes : List Byte) (sys : System),
      Faithful plainResolve client files name bytes sys := by
  intro h
  have hfaithful := h ⟨true, true⟩ (fun _ => .absent) temp [0x61] (plainSystem 0)
  obtain ⟨i, hi, hbytes⟩ := hfaithful (by decide)
  cases Option.some.inj hi
  revert hbytes
  decide

end WorkCode.FileUpload
