import Mathlib.Data.List.TakeDrop

/-!
# Channels of blocks

A channel carries blocks in order. A receiver asks for a number of items and gets no more than
one block at a time; what it leaves of a block waits at its end, where nobody sees it who only
looks whether a block has arrived.
-/

namespace WorkCode.BlockChannels

variable {α : Type*}

structure Channel (α : Type*) where
  /-- on the way, or arrived and not looked at -/
  blocks : List (List α)
  /-- left of the block that was received last -/
  rest : List α

def Channel.empty : Channel α := ⟨[], []⟩

def Channel.send (c : Channel α) (block : List α) : Channel α := { c with blocks := c.blocks ++ [block] }

def Channel.receive (n : ℕ) (c : Channel α) : Option (List α × Channel α) :=
  if c.rest ≠ [] then some (c.rest.take n, { c with rest := c.rest.drop n })
  else match c.blocks with
    | [] => none
    | block :: blocks => some (block.take n, ⟨blocks, block.drop n⟩)

/-- What has been sent and not received. -/
def Channel.contents (c : Channel α) : List α := c.rest ++ c.blocks.flatten

variable {c c' : Channel α} {n : ℕ} {got : List α}

theorem contents_send (c : Channel α) (block : List α) : (c.send block).contents = c.contents ++ block := by
  simp [Channel.contents, Channel.send]

/-- Nothing is lost, repeated or overtaken. -/
theorem contents_receive (h : c.receive n = some (got, c')) : got ++ c'.contents = c.contents := by
  rw [Channel.receive] at h
  split at h
  · cases h
    rw [Channel.contents, Channel.contents, ← List.append_assoc, List.take_append_drop]
  · next hrest =>
    rw [Channel.contents, Channel.contents, not_not.mp hrest]
    split at h
    · cases h
    · next block blocks hblocks =>
      cases h
      rw [hblocks, List.flatten_cons, ← List.append_assoc, List.take_append_drop, List.nil_append]

section Drain

/-- What it gets in the end: all but what is behind the first `n` items of the last block. -/
def Channel.seen (n : ℕ) (c : Channel α) : List α :=
  match c.blocks.getLast? with
  | none => []
  | some last => c.rest ++ c.blocks.dropLast.flatten ++ last.take n

end Drain

end WorkCode.BlockChannels
