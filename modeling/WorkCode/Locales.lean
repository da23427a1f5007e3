import Mathlib.Data.List.Basic

/-!
# Characters of a locale

The tools that work on characters read a text of bytes in the encoding of their locale. Some
bytes make up a character, alone or together; others belong to none. What all encodings
share is that the printable characters of the portable set are single bytes.
-/

namespace WorkCode.Locales

/-- What is read at a place of a text. -/
inductive Item
  | character (bytes : List Char)
  | stray (byte : Char)
  deriving DecidableEq, Repr

def Item.isCharacter : Item → Bool
  | .character _ => true
  | .stray _ => false

def plain (s : List Char) : List Item := s.map fun c => .character [c]

def printable (c : Char) : Bool := decide (' ' ≤ c ∧ c ≤ '~')

theorem all_plain (s : List Char) : (plain s).all Item.isCharacter = true := by
  simp [plain, Item.isCharacter]

theorem printable_of_isDigit {c : Char} (hc : c.isDigit = true) : printable c = true := by
  simp only [Char.isDigit, Bool.and_eq_true, decide_eq_true_eq, ge_iff_le] at hc
  apply decide_eq_true
  exact ⟨UInt32.le_trans (by decide) hc.1, UInt32.le_trans hc.2 (by decide)⟩

/-- How the characters of a locale are encoded. -/
structure LcCtype where
  decode : List Char → List Item
  decode_printable : ∀ s, (∀ c ∈ s, printable c = true) → decode s = plain s

/-- The C locale, in which every byte is a character. -/
def LcCtype.posix : LcCtype := ⟨plain, fun _ _ => rfl⟩

section Utf8

def within (lo hi : ℕ) (c : Char) : Bool := decide (lo ≤ c.toNat ∧ c.toNat ≤ hi)

def tail (c : Char) : Bool := within 0x80 0xbf c

def startsOne : List Char → Bool
  | a :: _ => within 0 0x7f a
  | _ => false

def startsTwo : List Char → Bool
  | a :: b :: _ => within 0xc2 0xdf a && tail b
  | _ => false

def startsThree : List Char → Bool
  | a :: b :: c :: _ => tail c && (within 0xe0 0xe0 a && within 0xa0 0xbf b || within 0xe1 0xec a && tail b ||
      within 0xed 0xed a && within 0x80 0x9f b || within 0xee 0xef a && tail b)
  | _ => false

def startsFour : List Char → Bool
  | a :: b :: c :: d :: _ => tail c && tail d && (within 0xf0 0xf0 a && within 0x90 0xbf b ||
      within 0xf1 0xf3 a && tail b || within 0xf4 0xf4 a && within 0x80 0x8f b)
  | _ => false

/-- The number of bytes of the character that a text begins with, 0 if it begins with none. -/
def utf8Length (s : List Char) : ℕ :=
  if startsOne s then 1
  else if startsTwo s then 2
  else if startsThree s then 3
  else if startsFour s then 4
  else 0

/-- The first number is that of the bytes still to pass over in the character read last. -/
def utf8Decode : ℕ → List Char → List Item
  | _, [] => []
  | n + 1, _ :: s => utf8Decode n s
  | 0, c :: s => match utf8Length (c :: s) with
    | 0 => .stray c :: utf8Decode 0 s
    | n + 1 => .character ((c :: s).take (n + 1)) :: utf8Decode n s

theorem utf8Length_printable {c : Char} (hc : printable c = true) (s : List Char) : utf8Length (c :: s) = 1 := by
  have hle : c ≤ '~' := (of_decide_eq_true hc).2
  have hascii : startsOne (c :: s) = true := by
    apply decide_eq_true
    exact ⟨Nat.zero_le _, Nat.le_trans (UInt32.le_iff_toNat_le.mp hle) (by decide)⟩
  rw [utf8Length, if_pos hascii]

def LcCtype.utf8 : LcCtype where
  decode := utf8Decode 0
  decode_printable := by
    intro s hs
    induction s with
    | nil => rfl
    | cons c s ih =>
      have hlength := utf8Length_printable (hs c List.mem_cons_self) s
      have htail := ih fun x hx => hs x (List.mem_cons_of_mem _ hx)
      simp only [utf8Decode, hlength, htail]
      rfl

end Utf8

end WorkCode.Locales
