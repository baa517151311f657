import Mathlib.Tactic

/-!
# Words of the allocator's heap

Memory holds 64-bit words. The bit-fields of `sf_header` and `sf_footer` are
read and assigned here; no other file looks inside a word.
-/

namespace LinuxSystem.Allocator

@[irreducible] def allocated (w : Nat) : Nat := w % 2

@[irreducible] def padded (w : Nat) : Nat := w / 2 % 2

@[irreducible] def blockSize (w : Nat) : Nat := w / 16 % 2 ^ 28

@[irreducible] def requestedSize (w : Nat) : Nat := w / 2 ^ 32 % 2 ^ 32

/-- Assigning `allocated`, `padded` and `block_size` keeps the other bits. -/
@[irreducible] def setFields (w alloc pad size : Nat) : Nat :=
  w / 2 ^ 32 * 2 ^ 32 + size % 2 ^ 28 * 16 + w / 4 % 4 * 4 + pad % 2 * 2 + alloc % 2

@[irreducible] def setRequestedSize (w requested : Nat) : Nat :=
  requested % 2 ^ 32 * 2 ^ 32 + w % 2 ^ 32

/-- `block_size << 4`. The field is promoted to `int`, so from 2^27 on the
result is negative, and large once it is extended to 64 bits. -/
@[irreducible] def blockBytes (w : Nat) : Nat :=
  if blockSize w < 2 ^ 27 then 16 * blockSize w else 2 ^ 64 - 2 ^ 32 + 16 * blockSize w

/-- `ptr - (block_size << 4)`, which lies above `ptr` where the shift is negative. -/
@[irreducible] def bytesBelow (ptr w : Nat) : Nat :=
  if blockSize w < 2 ^ 27 then ptr - 16 * blockSize w else ptr + (2 ^ 32 - 16 * blockSize w)

section Fields

variable (w alloc pad size requested : Nat)

@[simp] theorem allocated_setFields : allocated (setFields w alloc pad size) = alloc % 2 := by
  unfold allocated setFields
  omega

@[simp] theorem padded_setFields : padded (setFields w alloc pad size) = pad % 2 := by
  unfold padded setFields
  omega

@[simp] theorem blockSize_setFields : blockSize (setFields w alloc pad size) = size % 2 ^ 28 := by
  unfold blockSize setFields
  omega

@[simp] theorem allocated_setRequestedSize :
    allocated (setRequestedSize w requested) = allocated w := by
  unfold allocated setRequestedSize
  omega

@[simp] theorem padded_setRequestedSize : padded (setRequestedSize w requested) = padded w := by
  unfold padded setRequestedSize
  omega

@[simp] theorem blockSize_setRequestedSize :
    blockSize (setRequestedSize w requested) = blockSize w := by
  unfold blockSize setRequestedSize
  omega

@[simp] theorem requestedSize_setRequestedSize :
    requestedSize (setRequestedSize w requested) = requested % 2 ^ 32 := by
  unfold requestedSize setRequestedSize
  omega

end Fields

theorem allocated_lt (w : Nat) : allocated w < 2 := by
  unfold allocated
  omega

theorem padded_lt (w : Nat) : padded w < 2 := by
  unfold padded
  omega

theorem blockSize_lt (w : Nat) : blockSize w < 2 ^ 28 := by
  unfold blockSize
  omega

/-- Below 2 GiB the shift gives the size. -/
theorem blockBytes_eq {w size : Nat} (field : blockSize w = size / 16) (aligned : size % 16 = 0)
    (small : size < 2 ^ 31) : blockBytes w = size := by
  unfold blockBytes
  rw [field, if_pos (by omega)]
  omega

/-- From 2 GiB on it gives 2^64 bytes less 4 GiB more. -/
theorem blockBytes_large {w size : Nat} (field : blockSize w = size / 16)
    (aligned : size % 16 = 0) (large : 2 ^ 31 ≤ size) :
    blockBytes w = 2 ^ 64 - 2 ^ 32 + size := by
  unfold blockBytes
  rw [field, if_neg (by omega)]
  omega

theorem bytesBelow_eq {ptr w size : Nat} (field : blockSize w = size / 16)
    (aligned : size % 16 = 0) (small : size < 2 ^ 31) : bytesBelow ptr w = ptr - size := by
  unfold bytesBelow
  rw [field, if_pos (by omega)]
  omega

theorem bytesBelow_large {ptr w size : Nat} (field : blockSize w = size / 16)
    (aligned : size % 16 = 0) (large : 2 ^ 31 ≤ size) :
    bytesBelow ptr w = ptr + (2 ^ 32 - size) := by
  unfold bytesBelow
  rw [field, if_neg (by omega)]
  omega

end LinuxSystem.Allocator
