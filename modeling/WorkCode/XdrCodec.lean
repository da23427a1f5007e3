import WorkCode.ByteMemory
import Mathlib.Data.List.TakeWhile

/-!
# External data representation

Filters between values and bytes: words of four bytes, most significant first, and counted
byte strings that are padded to a multiple of four. A filter fails on what has no room or no
representation. What follows a value on the wire is left for the next filter, which is why
filters compose.
-/

namespace WorkCode.XdrCodec

/-- A filter in its two directions, `none` where it returns `FALSE`. -/
structure Codec (α : Type) where
  encode : α → Option (List Byte)
  decode : List Byte → Option (α × List Byte)

/-- What a filter for the values with `Valid` is: these it represents and reads back, whatever
follows; it yields no others, from any bytes; and it reads and writes whole words. -/
structure Lawful {α : Type} (f : Codec α) (Valid : α → Prop) : Prop where
  encodes : ∀ {a}, Valid a → ∃ bs, f.encode a = some bs
  decode_encode : ∀ {a bs}, Valid a → f.encode a = some bs → ∀ rest, f.decode (bs ++ rest) = some (a, rest)
  valid_of_decode : ∀ {bs a rest}, f.decode bs = some (a, rest) → Valid a
  used_of_decode : ∀ {bs a rest}, f.decode bs = some (a, rest) → ∃ used, bs = used ++ rest ∧ used.length % 4 = 0
  length_encode : ∀ {a bs}, f.encode a = some bs → bs.length % 4 = 0

section Sequence

variable {α β : Type} {f : Codec α} {g : Codec β} {V : α → Prop} {W : β → Prop}

/-- One filter after the other, as for the members of a structure. -/
def Codec.seq (f : Codec α) (g : Codec β) : Codec (α × β) where
  encode p := do
    let bs ← f.encode p.1
    let cs ← g.encode p.2
    return bs ++ cs
  decode bs := do
    let (a, bs) ← f.decode bs
    let (b, bs) ← g.decode bs
    return ((a, b), bs)

theorem encode_seq_eq_some_iff {p : α × β} {bs : List Byte} : (f.seq g).encode p = some bs ↔
    ∃ cs ds, f.encode p.1 = some cs ∧ g.encode p.2 = some ds ∧ bs = cs ++ ds := by
  simp only [Codec.seq, Option.bind_eq_bind, Option.bind_eq_some_iff, Option.pure_def, Option.some.injEq]
  constructor
  · intro h
    obtain ⟨cs, hcs, ds, hds, heq⟩ := h
    exact ⟨cs, ds, hcs, hds, heq.symm⟩
  · intro h
    obtain ⟨cs, ds, hcs, hds, heq⟩ := h
    exact ⟨cs, hcs, ds, hds, heq.symm⟩

theorem decode_seq_eq_some_iff {bs rest : List Byte} {p : α × β} : (f.seq g).decode bs = some (p, rest) ↔
    ∃ cs, f.decode bs = some (p.1, cs) ∧ g.decode cs = some (p.2, rest) := by
  obtain ⟨a, b⟩ := p
  simp only [Codec.seq, Option.bind_eq_bind, Option.bind_eq_some_iff, Option.pure_def, Option.some.injEq,
    Prod.mk.injEq, Prod.exists]
  constructor
  · intro h
    obtain ⟨a', cs, hcs, b', rest', hrest, ⟨rfl, rfl⟩, rfl⟩ := h
    exact ⟨cs, hcs, hrest⟩
  · intro h
    obtain ⟨cs, hcs, hrest⟩ := h
    exact ⟨a, cs, hcs, b, rest, hrest, ⟨rfl, rfl⟩, rfl⟩

theorem Lawful.seq (hf : Lawful f V) (hg : Lawful g W) : Lawful (f.seq g) (fun p => V p.1 ∧ W p.2) := by
  constructor
  · intro p hp
    obtain ⟨cs, hcs⟩ := hf.encodes hp.1
    obtain ⟨ds, hds⟩ := hg.encodes hp.2
    exact ⟨cs ++ ds, encode_seq_eq_some_iff.mpr ⟨cs, ds, hcs, hds, rfl⟩⟩
  · intro p bs hp hbs rest
    obtain ⟨cs, ds, hcs, hds, rfl⟩ := encode_seq_eq_some_iff.mp hbs
    apply decode_seq_eq_some_iff.mpr
    refine ⟨ds ++ rest, ?_, hg.decode_encode hp.2 hds rest⟩
    rw [List.append_assoc]
    exact hf.decode_encode hp.1 hcs (ds ++ rest)
  · intro bs p rest hbs
    obtain ⟨cs, hcs, hrest⟩ := decode_seq_eq_some_iff.mp hbs
    exact ⟨hf.valid_of_decode hcs, hg.valid_of_decode hrest⟩
  · intro bs p rest hbs
    obtain ⟨cs, hcs, hrest⟩ := decode_seq_eq_some_iff.mp hbs
    obtain ⟨used, rfl, hused⟩ := hf.used_of_decode hcs
    obtain ⟨used', rfl, hused'⟩ := hg.used_of_decode hrest
    refine ⟨used ++ used', (List.append_assoc ..).symm, ?_⟩
    rw [List.length_append]
    omega
  · intro p bs hbs
    obtain ⟨cs, ds, hcs, hds, rfl⟩ := encode_seq_eq_some_iff.mp hbs
    have hleft := hf.length_encode hcs
    have hright := hg.length_encode hds
    rw [List.length_append]
    omega

/-- What a lawful filter yields it represents, and reads back from that. -/
theorem Lawful.reencode {α : Type} {f : Codec α} {V : α → Prop} (h : Lawful f V) {bs rest : List Byte} {a : α}
    (hdecode : f.decode bs = some (a, rest)) : ∃ cs, f.encode a = some cs ∧ f.decode cs = some (a, []) := by
  have hvalid := h.valid_of_decode hdecode
  obtain ⟨cs, hcs⟩ := h.encodes hvalid
  refine ⟨cs, hcs, ?_⟩
  have hback := h.decode_encode hvalid hcs []
  rwa [List.append_nil] at hback

end Sequence

section Words

def xdrUInt : Codec (BitVec 32) where
  encode n := some (ByteOrder.big.bytes 4 n.toNat)
  decode bs :=
    if 4 ≤ bs.length then some (BitVec.ofNat 32 (ByteOrder.big.value (bs.take 4)), bs.drop 4) else none

/-- The representation is that of the two's complement. -/
def xdrInt : Codec (BitVec 32) := xdrUInt

theorem ofNat_value_bytes (n : BitVec 32) :
    BitVec.ofNat 32 (ByteOrder.big.value (ByteOrder.big.bytes 4 n.toNat)) = n := by
  have hlt : n.toNat < 256 ^ 4 := n.isLt
  rw [ByteOrder.value_bytes, Nat.mod_eq_of_lt hlt, BitVec.ofNat_toNat, BitVec.setWidth_eq]

theorem lawful_xdrUInt : Lawful xdrUInt (fun _ => True) := by
  constructor
  · intro n _
    exact ⟨_, rfl⟩
  · intro n bs _ hbs rest
    cases hbs
    have hlen := ByteOrder.length_bytes .big 4 n.toNat
    have hlong : 4 ≤ (ByteOrder.big.bytes 4 n.toNat ++ rest).length := by
      rw [List.length_append, hlen]
      omega
    simp only [xdrUInt, if_pos hlong, List.take_left' hlen, List.drop_left' hlen, ofNat_value_bytes]
  · intro bs n rest _
    trivial
  · intro bs n rest hbs
    simp only [xdrUInt] at hbs
    split at hbs
    · next hlong =>
      cases hbs
      refine ⟨bs.take 4, (List.take_append_drop 4 bs).symm, ?_⟩
      rw [List.length_take_of_le hlong]
    · cases hbs
  · intro n bs hbs
    cases hbs
    rw [ByteOrder.length_bytes]

theorem lawful_xdrInt : Lawful xdrInt (fun _ => True) := lawful_xdrUInt

end Words

section Counted

/-- The bytes that are missing to a multiple of four. -/
def padding (n : ℕ) : ℕ := (4 - n % 4) % 4

theorem add_padding_mod (n : ℕ) : (n + padding n) % 4 = 0 := by
  rw [padding]
  omega

def encodeOpaque (xs : List Byte) : List Byte := xs ++ List.replicate (padding xs.length) 0

/-- What the padding holds is not looked at. -/
def decodeOpaque (n : ℕ) (bs : List Byte) : Option (List Byte × List Byte) :=
  if n + padding n ≤ bs.length then some (bs.take n, bs.drop (n + padding n)) else none

theorem length_encodeOpaque (xs : List Byte) : (encodeOpaque xs).length = xs.length + padding xs.length := by
  rw [encodeOpaque, List.length_append, List.length_replicate]

theorem decodeOpaque_encodeOpaque (xs rest : List Byte) :
    decodeOpaque xs.length (encodeOpaque xs ++ rest) = some (xs, rest) := by
  have hlen := length_encodeOpaque xs
  have hlong : xs.length + padding xs.length ≤ (encodeOpaque xs ++ rest).length := by
    rw [List.length_append, hlen]
    omega
  have htake : (encodeOpaque xs ++ rest).take xs.length = xs := by
    rw [encodeOpaque, List.append_assoc]
    exact List.take_left' rfl
  rw [decodeOpaque, if_pos hlong, htake, List.drop_left' hlen]

theorem decodeOpaque_eq_some {n : ℕ} {bs xs rest : List Byte} (h : decodeOpaque n bs = some (xs, rest)) :
    xs.length = n ∧ ∃ used, bs = used ++ rest ∧ used.length % 4 = 0 := by
  rw [decodeOpaque] at h
  split at h
  · next hlong =>
    cases h
    refine ⟨List.length_take_of_le (by omega), bs.take (n + padding n), (List.take_append_drop _ bs).symm, ?_⟩
    rw [List.length_take_of_le hlong, add_padding_mod]
  · cases h

/-- Byte strings of at most `maxsize` bytes, of which the reader sees `cut`. -/
def counted (cut : List Byte → List Byte) (maxsize : ℕ) : Codec (List Byte) where
  encode xs := do
    let size ← xdrUInt.encode (BitVec.ofNat 32 xs.length)
    if xs.length ≤ maxsize then some (size ++ encodeOpaque xs) else none
  decode bs := do
    let (size, bs) ← xdrUInt.decode bs
    if size.toNat ≤ maxsize then
      let (xs, bs) ← decodeOpaque size.toNat bs
      return (cut xs, bs)
    else none

/-- A C string ends before its first null byte. -/
def xdrString (maxsize : ℕ) : Codec (List Byte) := counted (List.takeWhile (· ≠ 0)) maxsize

def xdrBytes (maxsize : ℕ) : Codec (List Byte) := counted id maxsize

variable {cut : List Byte → List Byte} {maxsize : ℕ}

theorem encode_counted_eq_some_iff {xs bs : List Byte} : (counted cut maxsize).encode xs = some bs ↔
    xs.length ≤ maxsize ∧ bs = ByteOrder.big.bytes 4 (xs.length % 2 ^ 32) ++ encodeOpaque xs := by
  simp only [counted, xdrUInt, Option.bind_eq_bind, Option.bind_some, BitVec.toNat_ofNat]
  constructor
  · intro h
    split at h
    · next hle => exact ⟨hle, (Option.some.inj h).symm⟩
    · cases h
  · intro h
    rw [if_pos h.1, h.2]

theorem length_encode_counted {xs bs : List Byte} (h : (counted cut maxsize).encode xs = some bs) :
    bs.length = 4 + (xs.length + padding xs.length) := by
  obtain ⟨-, rfl⟩ := encode_counted_eq_some_iff.mp h
  rw [List.length_append, ByteOrder.length_bytes, length_encodeOpaque]

theorem decode_counted_eq_some_iff {bs xs rest : List Byte} :
    (counted cut maxsize).decode bs = some (xs, rest) ↔ ∃ size mid ys, xdrUInt.decode bs = some (size, mid) ∧
      size.toNat ≤ maxsize ∧ decodeOpaque size.toNat mid = some (ys, rest) ∧ xs = cut ys := by
  simp only [counted, Option.bind_eq_bind, Option.bind_eq_some_iff, Prod.exists]
  constructor
  · intro h
    obtain ⟨size, mid, hsize, h⟩ := h
    split at h
    · next hle =>
      obtain ⟨p, hp, hpure⟩ := Option.bind_eq_some_iff.mp h
      cases hpure
      exact ⟨size, mid, p.1, hsize, hle, hp, rfl⟩
    · cases h
  · intro h
    obtain ⟨size, mid, ys, hsize, hle, hys, rfl⟩ := h
    refine ⟨size, mid, hsize, ?_⟩
    rw [if_pos hle, hys]
    rfl

/-- A counted string is a lawful filter for the strings that a reader sees whole. -/
theorem lawful_counted (hidem : ∀ xs, cut (cut xs) = cut xs) (hle : ∀ xs, (cut xs).length ≤ xs.length)
    (hmax : maxsize < 2 ^ 32) :
    Lawful (counted cut maxsize) (fun xs => xs.length ≤ maxsize ∧ cut xs = xs) := by
  constructor
  · intro xs hxs
    exact ⟨_, encode_counted_eq_some_iff.mpr ⟨hxs.1, rfl⟩⟩
  · intro xs bs hxs hbs rest
    obtain ⟨-, rfl⟩ := encode_counted_eq_some_iff.mp hbs
    have hlt : xs.length < 2 ^ 32 := Nat.lt_of_le_of_lt hxs.1 hmax
    have hsize : (BitVec.ofNat 32 xs.length).toNat = xs.length := by
      rw [BitVec.toNat_ofNat, Nat.mod_eq_of_lt hlt]
    apply decode_counted_eq_some_iff.mpr
    refine ⟨BitVec.ofNat 32 xs.length, encodeOpaque xs ++ rest, xs, ?_, ?_, ?_, hxs.2.symm⟩
    · rw [List.append_assoc, ← BitVec.toNat_ofNat]
      exact lawful_xdrUInt.decode_encode trivial rfl _
    · rw [hsize]
      exact hxs.1
    · rw [hsize]
      exact decodeOpaque_encodeOpaque xs rest
  · intro bs xs rest hbs
    obtain ⟨size, mid, ys, -, hsize, hys, rfl⟩ := decode_counted_eq_some_iff.mp hbs
    have hlen := (decodeOpaque_eq_some hys).1
    exact ⟨(hle ys).trans (hlen.trans_le hsize), hidem ys⟩
  · intro bs xs rest hbs
    obtain ⟨size, mid, ys, hmid, -, hys, -⟩ := decode_counted_eq_some_iff.mp hbs
    obtain ⟨used, rfl, hused⟩ := lawful_xdrUInt.used_of_decode hmid
    obtain ⟨used', rfl, hused'⟩ := (decodeOpaque_eq_some hys).2
    refine ⟨used ++ used', (List.append_assoc ..).symm, ?_⟩
    rw [List.length_append]
    omega
  · intro xs bs hbs
    obtain ⟨-, rfl⟩ := encode_counted_eq_some_iff.mp hbs
    have hpad := add_padding_mod xs.length
    rw [List.length_append, ByteOrder.length_bytes, length_encodeOpaque]
    omega

theorem lawful_xdrString (hmax : maxsize < 2 ^ 32) :
    Lawful (xdrString maxsize) (fun xs => xs.length ≤ maxsize ∧ xs.takeWhile (· ≠ 0) = xs) := by
  apply lawful_counted _ _ hmax
  · intro xs
    exact List.takeWhile_idem
  · intro xs
    exact (List.takeWhile_prefix _).length_le

theorem lawful_xdrBytes (hmax : maxsize < 2 ^ 32) :
    Lawful (xdrBytes maxsize) (fun xs => xs.length ≤ maxsize ∧ id xs = xs) :=
  lawful_counted (fun _ => rfl) (fun _ => Nat.le_refl _) hmax

end Counted

end WorkCode.XdrCodec
