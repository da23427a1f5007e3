import Mathlib.Data.List.GetD
import Mathlib.Tactic.Ring

/-!
# Byte-addressed memory

A memory is a total map from addresses to bytes. Integers of `n` bytes are stored
in the byte order of a machine, so that the same program text can be read on a
little-endian and on a big-endian host. Every write is one `fill`; the lemmas
here say which addresses a write reaches and that it leaves the others alone.
-/

namespace WorkCode

abbrev Byte := BitVec 8

inductive ByteOrder | little | big deriving DecidableEq, Repr

namespace ByteOrder

/-- The `n` low bytes of `v`, least significant first. -/
def littleBytes : ℕ → ℕ → List Byte
  | 0, _ => []
  | n + 1, v => BitVec.ofNat 8 v :: littleBytes n (v / 256)

def littleValue : List Byte → ℕ
  | [] => 0
  | b :: bs => b.toNat + 256 * littleValue bs

/-- The bytes that a store of the `n`-byte integer `v` leaves, in address order. -/
def bytes (o : ByteOrder) (n v : ℕ) : List Byte :=
  match o with
  | little => littleBytes n v
  | big => (littleBytes n v).reverse

def value (o : ByteOrder) (bs : List Byte) : ℕ :=
  match o with
  | little => littleValue bs
  | big => littleValue bs.reverse

@[simp] theorem length_littleBytes (n v : ℕ) : (littleBytes n v).length = n := by
  induction n generalizing v with
  | zero => rfl
  | succ n ih => simp [littleBytes, ih]

@[simp] theorem length_bytes (o : ByteOrder) (n v : ℕ) : (o.bytes n v).length = n := by
  cases o <;> simp [bytes]

theorem littleValue_lt (bs : List Byte) : littleValue bs < 256 ^ bs.length := by
  induction bs with
  | nil => simp [littleValue]
  | cons b bs ih =>
    have hb : b.toNat < 256 := b.isLt
    simp only [littleValue, List.length_cons, pow_succ]
    omega

theorem value_lt (o : ByteOrder) (bs : List Byte) : o.value bs < 256 ^ bs.length := by
  cases o with
  | little => exact littleValue_lt bs
  | big => simpa [value] using littleValue_lt bs.reverse

theorem littleValue_littleBytes (n v : ℕ) : littleValue (littleBytes n v) = v % 256 ^ n := by
  induction n generalizing v with
  | zero => simp [littleBytes, littleValue, Nat.mod_one]
  | succ n ih =>
    have hp : 256 ^ (n + 1) = 2 ^ 8 * 256 ^ n := pow_succ' 256 n
    rw [hp, Nat.mod_mul]
    simp only [littleBytes, littleValue, ih, BitVec.toNat_ofNat]
    norm_num

@[simp] theorem value_bytes (o : ByteOrder) (n v : ℕ) : o.value (o.bytes n v) = v % 256 ^ n := by
  cases o <;> simp [value, bytes, littleValue_littleBytes]

theorem littleBytes_littleValue (bs : List Byte) :
    littleBytes bs.length (littleValue bs) = bs := by
  induction bs with
  | nil => rfl
  | cons b bs ih =>
    have hb : b.toNat < 256 := b.isLt
    have hlow : BitVec.ofNat 8 (b.toNat + 256 * littleValue bs) = b := by
      apply BitVec.eq_of_toNat_eq
      simp only [BitVec.toNat_ofNat]
      omega
    have hhigh : (b.toNat + 256 * littleValue bs) / 256 = littleValue bs := by omega
    simp only [List.length_cons, littleBytes, littleValue, hlow, hhigh, ih]

theorem bytes_value (o : ByteOrder) (bs : List Byte) : o.bytes bs.length (o.value bs) = bs := by
  cases o with
  | little => exact littleBytes_littleValue bs
  | big =>
    have h := littleBytes_littleValue bs.reverse
    rw [List.length_reverse] at h
    simp [bytes, value, h]

theorem value_eq_iff (o : ByteOrder) {xs ys : List Byte} (h : xs.length = ys.length) :
    o.value xs = o.value ys ↔ xs = ys := by
  refine ⟨?_, congrArg o.value⟩
  intro hvalue
  rw [← o.bytes_value xs, ← o.bytes_value ys, h, hvalue]

end ByteOrder

/-- The data model of a C implementation: its byte order and the size of its machine
word, which is that of `long`. -/
structure Abi where
  order : ByteOrder
  longBytes : ℕ
  longBytes_eq : longBytes = 4 ∨ longBytes = 8

def Abi.lp64 (o : ByteOrder) : Abi := ⟨o, 8, Or.inr rfl⟩

abbrev Mem := ℕ → Byte

namespace Mem

/-- `n` consecutive single-byte stores from address `a` on, `f i` to the `i`-th. -/
def fill (m : Mem) (a n : ℕ) (f : ℕ → Byte) : Mem :=
  fun i => if a ≤ i ∧ i < a + n then f (i - a) else m i

def store (m : Mem) (a : ℕ) (bs : List Byte) : Mem :=
  m.fill a bs.length (bs.getD · 0)

def storeInt (m : Mem) (o : ByteOrder) (a n v : ℕ) : Mem := m.store a (o.bytes n v)

def load (m : Mem) (a : ℕ) : ℕ → List Byte
  | 0 => []
  | n + 1 => m a :: load m (a + 1) n

def loadInt (m : Mem) (o : ByteOrder) (a n : ℕ) : ℕ := o.value (m.load a n)

theorem fill_outside (m : Mem) {a n i : ℕ} (f : ℕ → Byte) (h : i < a ∨ a + n ≤ i) :
    m.fill a n f i = m i := if_neg (by omega)

theorem fill_inside (m : Mem) {a n i : ℕ} (f : ℕ → Byte) (h : a ≤ i ∧ i < a + n) :
    m.fill a n f i = f (i - a) := if_pos h

theorem store_outside (m : Mem) {a i : ℕ} (bs : List Byte) (h : i < a ∨ a + bs.length ≤ i) :
    m.store a bs i = m i := m.fill_outside _ h

theorem store_inside (m : Mem) {a i : ℕ} (bs : List Byte) (h : a ≤ i ∧ i < a + bs.length) :
    m.store a bs i = bs.getD (i - a) 0 := m.fill_inside _ h

theorem storeInt_outside (m : Mem) (o : ByteOrder) {a n i : ℕ} (v : ℕ) (h : i < a ∨ a + n ≤ i) :
    m.storeInt o a n v i = m i := m.store_outside _ (by simpa using h)

@[simp] theorem length_load (m : Mem) (a n : ℕ) : (m.load a n).length = n := by
  induction n generalizing a with
  | zero => rfl
  | succ n ih => simp [load, ih]

theorem getElem_load (m : Mem) (a n k : ℕ) (h : k < (m.load a n).length) :
    (m.load a n)[k] = m (a + k) := by
  induction n generalizing a k with
  | zero => simp at h
  | succ n ih =>
    cases k with
    | zero => rfl
    | succ k =>
      simp only [load, List.getElem_cons_succ, ih]
      rw [Nat.add_assoc, Nat.add_comm 1 k]

theorem getD_load (m : Mem) {a n k : ℕ} (h : k < n) : (m.load a n).getD k 0 = m (a + k) := by
  rw [List.getD_eq_getElem _ _ (by simpa using h), getElem_load]

theorem load_add (m : Mem) (a n k : ℕ) : m.load a (n + k) = m.load a n ++ m.load (a + n) k := by
  induction n generalizing a with
  | zero => simp [load]
  | succ n ih =>
    rw [Nat.succ_add]
    simp only [load, ih, List.cons_append]
    rw [Nat.add_assoc, Nat.add_comm 1 n]

theorem take_drop_load (m : Mem) {a n k l : ℕ} (h : k + l ≤ n) :
    ((m.load a n).drop k).take l = m.load (a + k) l := by
  obtain ⟨r, rfl⟩ := Nat.exists_eq_add_of_le h
  rw [load_add, load_add, List.append_assoc, List.drop_left' (length_load m a k),
    List.take_left' (length_load m (a + k) l)]

theorem load_congr {m m' : Mem} {a n : ℕ} (h : ∀ i, a ≤ i → i < a + n → m i = m' i) :
    m.load a n = m'.load a n := by
  apply List.ext_getElem
  · simp
  · intro k hk hk'
    rw [length_load] at hk
    rw [getElem_load, getElem_load, h (a + k) (by omega) (by omega)]

theorem load_store (m : Mem) (a : ℕ) (bs : List Byte) : (m.store a bs).load a bs.length = bs := by
  apply List.ext_getElem
  · simp
  · intro k hk hk'
    rw [getElem_load, store_inside _ _ (by omega), Nat.add_sub_cancel_left,
      List.getD_eq_getElem _ _ hk']

theorem load_store_part (m : Mem) (a : ℕ) {bs : List Byte} {k n : ℕ} (h : k + n ≤ bs.length) :
    (m.store a bs).load (a + k) n = (bs.drop k).take n := by
  rw [← take_drop_load _ h, load_store]

theorem load_store_disjoint (m : Mem) {a b n : ℕ} (bs : List Byte)
    (h : b + n ≤ a ∨ a + bs.length ≤ b) : (m.store a bs).load b n = m.load b n :=
  load_congr (fun i hi hn => m.store_outside bs (by omega))

theorem store_append (m : Mem) (a : ℕ) (xs ys : List Byte) :
    m.store a (xs ++ ys) = (m.store a xs).store (a + xs.length) ys := by
  funext i
  have hlen : (xs ++ ys).length = xs.length + ys.length := List.length_append
  by_cases hy : a + xs.length ≤ i ∧ i < a + xs.length + ys.length
  · rw [store_inside m (xs ++ ys) (by omega), store_inside _ ys hy,
      List.getD_append_right _ _ _ _ (by omega), Nat.sub_sub]
  · rw [store_outside _ ys (by omega)]
    by_cases hx : a ≤ i ∧ i < a + xs.length
    · rw [store_inside m (xs ++ ys) (by omega), store_inside m xs hx,
        List.getD_append _ _ _ _ (by omega)]
    · rw [store_outside m xs (by omega), store_outside m (xs ++ ys) (by omega)]

theorem load_storeInt_disjoint (m : Mem) (o : ByteOrder) {a b n k : ℕ} (v : ℕ)
    (h : b + n ≤ a ∨ a + k ≤ b) : (m.storeInt o a k v).load b n = m.load b n :=
  m.load_store_disjoint _ (by simpa using h)

theorem load_storeInt (m : Mem) (o : ByteOrder) (a n v : ℕ) :
    (m.storeInt o a n v).load a n = o.bytes n v := by
  simpa [storeInt] using m.load_store a (o.bytes n v)

theorem load_fill_disjoint (m : Mem) {a b n k : ℕ} (f : ℕ → Byte)
    (h : b + n ≤ a ∨ a + k ≤ b) : (m.fill a k f).load b n = m.load b n :=
  load_congr (fun i hi hn => m.fill_outside f (by omega))

def AgreeOn (m m' : Mem) (a n : ℕ) : Prop := ∀ i, a ≤ i → i < a + n → m i = m' i

theorem AgreeOn.load_eq {m m' : Mem} {a n : ℕ} (h : AgreeOn m m' a n) : m.load a n = m'.load a n :=
  load_congr h

/-- The same write to both memories keeps what they agree on and adds what it covers. -/
theorem AgreeOn.fill {m m' : Mem} {a n b k c l : ℕ} {f : ℕ → Byte} (h : AgreeOn m m' a n)
    (hcover : ∀ i, c ≤ i → i < c + l → (a ≤ i ∧ i < a + n) ∨ (b ≤ i ∧ i < b + k)) :
    AgreeOn (m.fill b k f) (m'.fill b k f) c l := by
  intro i hi hl
  by_cases hin : b ≤ i ∧ i < b + k
  · rw [fill_inside _ _ hin, fill_inside _ _ hin]
  · rw [fill_outside _ _ (by omega), fill_outside _ _ (by omega)]
    have hold : a ≤ i ∧ i < a + n := (hcover i hi hl).resolve_right hin
    exact h i hold.1 hold.2

theorem AgreeOn.store {m m' : Mem} {a n b c l : ℕ} {bs : List Byte} (h : AgreeOn m m' a n)
    (hcover : ∀ i, c ≤ i → i < c + l → (a ≤ i ∧ i < a + n) ∨ (b ≤ i ∧ i < b + bs.length)) :
    AgreeOn (m.store b bs) (m'.store b bs) c l := h.fill hcover

theorem AgreeOn.storeInt {m m' : Mem} {o : ByteOrder} {a n b k c l v : ℕ} (h : AgreeOn m m' a n)
    (hcover : ∀ i, c ≤ i → i < c + l → (a ≤ i ∧ i < a + n) ∨ (b ≤ i ∧ i < b + k)) :
    AgreeOn (m.storeInt o b k v) (m'.storeInt o b k v) c l := h.store (by simpa using hcover)

end Mem

end WorkCode
