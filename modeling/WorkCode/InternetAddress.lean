import WorkCode.ByteMemory
import Mathlib.Data.List.TakeWhile

/-! # `inet_addr` and dotted quads -/

namespace WorkCode

/-- Four octets, as an IPv4 address is written and as it stands in a packet. -/
structure Quad where
  a : Byte
  b : Byte
  c : Byte
  d : Byte
  deriving DecidableEq, Repr

namespace Quad

def octets (q : Quad) : List Byte := [q.a, q.b, q.c, q.d]

def dotted (q : Quad) : List Char :=
  ['.'].intercalate (q.octets.map fun x => Nat.toDigits 10 x.toNat)

end Quad

namespace InternetAddress

def digitValue (c : Char) : Option ℕ :=
  if '0' ≤ c ∧ c ≤ '9' then some (c.toNat - '0'.toNat)
  else if 'a' ≤ c ∧ c ≤ 'f' then some (c.toNat - 'a'.toNat + 10)
  else if 'A' ≤ c ∧ c ≤ 'F' then some (c.toNat - 'A'.toNat + 10)
  else none

def digits (base : ℕ) : ℕ → List Char → Option ℕ
  | n, [] => some n
  | n, c :: cs => match digitValue c with
    | some d => if d < base then digits base (n * base + d) cs else none
    | none => none

/-- One part of a numbers-and-dots address: decimal, octal after `0`, hexadecimal after `0x`. -/
def part : List Char → Option ℕ
  | [] => none
  | ['0', 'x'] | ['0', 'X'] => none
  | '0' :: 'x' :: cs | '0' :: 'X' :: cs => digits 16 0 cs
  | '0' :: cs => digits 8 0 cs
  | c :: cs => digits 10 0 (c :: cs)

/-- One to four parts, the last of which fills the bytes that remain. -/
def parts : List ℕ → Option ℕ
  | [a] => if a < 2 ^ 32 then some a else none
  | [a, b] => if a < 256 ∧ b < 2 ^ 24 then some (a * 2 ^ 24 + b) else none
  | [a, b, c] =>
    if a < 256 ∧ b < 256 ∧ c < 2 ^ 16 then some (a * 2 ^ 24 + b * 2 ^ 16 + c) else none
  | [a, b, c, d] =>
    if a < 256 ∧ b < 256 ∧ c < 256 ∧ d < 256 then
      some (a * 2 ^ 24 + b * 2 ^ 16 + c * 2 ^ 8 + d)
    else none
  | _ => none

/-- `inet_addr`: the address in network byte order, `INADDR_NONE` for malformed text.
Whatever follows the first blank is not looked at. -/
def inetAddr (o : ByteOrder) (cp : List Char) : BitVec 32 :=
  match ((cp.takeWhile (! ·.isWhitespace)).splitOn '.').mapM part >>= parts with
  | some v => BitVec.ofNat 32 (o.value (ByteOrder.big.bytes 4 v))
  | none => 0xffffffff

theorem part_toDigits : ∀ x : Fin 256, part (Nat.toDigits 10 x) = some x.val := by decide +kernel

theorem isWhitespace_of_isDigit {c : Char} (h : c.isDigit = true) : (! c.isWhitespace) = true := by
  have hne : ∀ d : Char, d.isDigit = false → c ≠ d := by
    rintro d hd rfl
    rw [hd] at h
    cases h
  have hspace := hne ' ' rfl
  have htab := hne '\t' rfl
  have hreturn := hne '\r' rfl
  have hnewline := hne '\n' rfl
  simp [Char.isWhitespace, hspace, htab, hreturn, hnewline]

theorem dotted_chars (q : Quad) : ∀ c ∈ q.dotted, (! c.isWhitespace) = true := by
  intro c hc
  have hparts : ∀ x : Byte, c ∈ Nat.toDigits 10 x.toNat → (! c.isWhitespace) = true := by
    intro x hx
    exact isWhitespace_of_isDigit (Nat.isDigit_of_mem_toDigits (by omega) (by omega) hx)
  simp only [Quad.dotted, Quad.octets, List.map_cons, List.map_nil, List.intercalate,
    List.intersperse, List.flatten_cons, List.flatten_nil, List.append_nil, List.mem_append,
    List.mem_singleton] at hc
  rcases hc with h | rfl | h | rfl | h | rfl | h
  · exact hparts _ h
  · rfl
  · exact hparts _ h
  · rfl
  · exact hparts _ h
  · rfl
  · exact hparts _ h

theorem splitOn_dotted (q : Quad) :
    q.dotted.splitOn '.' = q.octets.map fun x => Nat.toDigits 10 x.toNat := by
  apply List.splitOn_intercalate
  · intro l hl hdot
    obtain ⟨x, -, rfl⟩ := List.mem_map.mp hl
    have h := Nat.isDigit_of_mem_toDigits (by omega) (by omega) hdot
    simp at h
  · simp [Quad.octets]

theorem value_octets (q : Quad) : ByteOrder.big.value q.octets =
    q.a.toNat * 2 ^ 24 + q.b.toNat * 2 ^ 16 + q.c.toNat * 2 ^ 8 + q.d.toNat := by
  simp only [Quad.octets, ByteOrder.value, ByteOrder.littleValue, List.reverse_cons,
    List.reverse_nil, List.nil_append, List.cons_append]
  omega

/-- A dotted quad is stored by `s_addr` as its four octets, on either host. -/
theorem bytes_inetAddr_dotted (o : ByteOrder) (q : Quad) :
    o.bytes 4 (inetAddr o q.dotted).toNat = q.octets := by
  have hpart : ∀ x : Byte, part (Nat.toDigits 10 x.toNat) = some x.toNat :=
    fun x => part_toDigits x.toFin
  have hparse : ((q.dotted.takeWhile (! ·.isWhitespace)).splitOn '.').mapM part >>= parts =
      some (ByteOrder.big.value q.octets) := by
    rw [List.takeWhile_eq_self_iff.mpr (dotted_chars q), splitOn_dotted, value_octets]
    simp [Quad.octets, hpart, parts, q.a.isLt, q.b.isLt, q.c.isLt, q.d.isLt]
  have hlen : q.octets.length = 4 := rfl
  have hbig : ByteOrder.big.bytes 4 (ByteOrder.big.value q.octets) = q.octets :=
    hlen ▸ ByteOrder.bytes_value .big q.octets
  have hlt : o.value q.octets < 2 ^ 32 := by simpa [hlen] using o.value_lt q.octets
  rw [inetAddr, hparse]
  simp only [hbig, BitVec.toNat_ofNat, Nat.mod_eq_of_lt hlt]
  exact hlen ▸ o.bytes_value q.octets

end InternetAddress

end WorkCode
