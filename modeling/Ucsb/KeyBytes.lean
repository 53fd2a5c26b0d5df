import Ucsb.Operation
import Ucsb.WordBytes

namespace Ucsb

open WordBytes

/-- The memory of a key variable on a little-endian machine. -/
def keyBytes (key : UInt64) : Bytes := littleEndian 8 key.toNat

/-- `__builtin_bswap64`: the bytes in reverse order. -/
def bswap64 (key : UInt64) : UInt64 := UInt64.ofNat (ofLittleEndian (keyBytes key).reverse)

/-- The bytes of a key, the most significant first. -/
def bigEndianKey (key : UInt64) : Bytes := bigEndian 8 key.toNat

theorem keyBytes_bswap64 (key : UInt64) : keyBytes (bswap64 key) = bigEndianKey key := by
  have hlength : (keyBytes key).reverse.length = 8 := by simp [keyBytes]
  have hlt : ofLittleEndian (keyBytes key).reverse < 2 ^ 64 := by
    have hbytes := ofLittleEndian_lt (keyBytes key).reverse
    rwa [hlength] at hbytes
  have hround := littleEndian_ofLittleEndian (keyBytes key).reverse
  rw [hlength] at hround
  rw [keyBytes, bswap64, UInt64.toNat_ofNat', Nat.mod_eq_of_lt hlt, hround]
  rfl

theorem keyBytes_injective : Function.Injective keyBytes := by
  intro x y h
  exact UInt64.toNat_inj.mp (littleEndian_injective x.toNat_lt y.toNat_lt h)

/-- Swapping twice gives the key back. -/
theorem bswap64_bswap64 (key : UInt64) : bswap64 (bswap64 key) = key := by
  apply keyBytes_injective
  rw [keyBytes_bswap64, bigEndianKey, bigEndian]
  exact congrArg List.reverse (keyBytes_bswap64 key) |>.trans (List.reverse_reverse _)

theorem bigEndianKey_strictMono : StrictMono bigEndianKey := by
  intro x y h
  exact bigEndian_lt y.toNat_lt (UInt64.lt_iff_toNat_lt.mp h)

theorem bigEndianKey_injective : Function.Injective bigEndianKey :=
  bigEndianKey_strictMono.injective

/-- The memory of two keys compares as the keys with their bytes in reverse order. -/
theorem keyBytes_lt_iff {x y : UInt64} : keyBytes x < keyBytes y ↔ bswap64 x < bswap64 y := by
  rw [← bigEndianKey_strictMono.lt_iff_lt, ← keyBytes_bswap64, ← keyBytes_bswap64,
    bswap64_bswap64, bswap64_bswap64]

theorem keyBytes_le_iff {x y : UInt64} : keyBytes x ≤ keyBytes y ↔ bswap64 x ≤ bswap64 y := by
  rw [← not_lt, keyBytes_lt_iff, not_lt]

end Ucsb
