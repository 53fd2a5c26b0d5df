import Mathlib.Data.List.Lex
import Mathlib.Order.Monotone.Basic
import Mathlib.Tactic.NormNum

namespace WordBytes

scoped instance instLinearOrderUInt8 : LinearOrder UInt8 where
  le_refl := UInt8.le_refl
  le_trans _ _ _ := UInt8.le_trans
  le_antisymm _ _ := UInt8.le_antisymm
  le_total := UInt8.le_total
  lt_iff_le_not_ge a b := by
    simp only [UInt8.lt_iff_toNat_lt, UInt8.le_iff_toNat_le]
    omega
  toDecidableLE := inferInstance
  toDecidableEq := inferInstance
  toDecidableLT := inferInstance

scoped instance instLinearOrderUInt64 : LinearOrder UInt64 where
  le_refl := UInt64.le_refl
  le_trans _ _ _ := UInt64.le_trans
  le_antisymm _ _ := UInt64.le_antisymm
  le_total := UInt64.le_total
  lt_iff_le_not_ge a b := by
    simp only [UInt64.lt_iff_toNat_lt, UInt64.le_iff_toNat_le]
    omega
  toDecidableLE := inferInstance
  toDecidableEq := inferInstance
  toDecidableLT := inferInstance

/-- The low bytes of a number, the least significant first. -/
def littleEndian : ℕ → ℕ → List UInt8
  | 0, _ => []
  | n + 1, x => UInt8.ofNat x :: littleEndian n (x / 256)

def ofLittleEndian : List UInt8 → ℕ
  | [] => 0
  | b :: bs => b.toNat + 256 * ofLittleEndian bs

def bigEndian (n x : ℕ) : List UInt8 := (littleEndian n x).reverse

@[simp] theorem length_littleEndian (n x : ℕ) : (littleEndian n x).length = n := by
  induction n generalizing x with
  | zero => rfl
  | succ n ih => simp [littleEndian, ih]

@[simp] theorem length_bigEndian (n x : ℕ) : (bigEndian n x).length = n := by
  simp [bigEndian]

theorem ofLittleEndian_lt (bs : List UInt8) : ofLittleEndian bs < 256 ^ bs.length := by
  induction bs with
  | nil => simp [ofLittleEndian]
  | cons b bs ih =>
    have hb : b.toNat < 256 := b.toNat_lt
    rw [ofLittleEndian, List.length_cons, pow_succ]
    omega

theorem ofLittleEndian_littleEndian {n x : ℕ} (h : x < 256 ^ n) :
    ofLittleEndian (littleEndian n x) = x := by
  induction n generalizing x with
  | zero =>
    rw [pow_zero, Nat.lt_one_iff] at h
    rw [h]
    rfl
  | succ n ih =>
    have hdiv : x / 256 < 256 ^ n := by
      rw [pow_succ] at h
      omega
    have hbyte : (UInt8.ofNat x).toNat = x % 256 := UInt8.toNat_ofNat'
    rw [littleEndian, ofLittleEndian, ih hdiv, hbyte]
    omega

theorem littleEndian_ofLittleEndian (bs : List UInt8) :
    littleEndian bs.length (ofLittleEndian bs) = bs := by
  induction bs with
  | nil => rfl
  | cons b bs ih =>
    have hb : b.toNat < 256 := b.toNat_lt
    have hhead : UInt8.ofNat (b.toNat + 256 * ofLittleEndian bs) = b := by
      rw [← UInt8.toNat_inj, UInt8.toNat_ofNat']
      omega
    have htail : (b.toNat + 256 * ofLittleEndian bs) / 256 = ofLittleEndian bs := by omega
    rw [List.length_cons, ofLittleEndian, littleEndian, hhead, htail, ih]

theorem littleEndian_injective {n x y : ℕ} (hx : x < 256 ^ n) (hy : y < 256 ^ n)
    (h : littleEndian n x = littleEndian n y) : x = y := by
  have heq := congrArg ofLittleEndian h
  rwa [ofLittleEndian_littleEndian hx, ofLittleEndian_littleEndian hy] at heq

theorem bigEndian_succ (n x : ℕ) :
    bigEndian (n + 1) x = bigEndian n (x / 256) ++ [UInt8.ofNat x] := by
  simp [bigEndian, littleEndian]

theorem append_lt_append {α : Type} [LinearOrder α] {as bs : List α} {a b : α}
    (hlength : as.length = bs.length) (h : as < bs ∨ (as = bs ∧ a < b)) :
    as ++ [a] < bs ++ [b] := by
  induction as generalizing bs with
  | nil =>
    obtain rfl := List.length_eq_zero_iff.mp hlength.symm
    rcases h with h | ⟨_, h⟩
    · exact absurd h (lt_irrefl _)
    · exact List.Lex.rel h
  | cons c as ih =>
    cases bs with
    | nil => simp at hlength
    | cons d bs =>
      rw [List.length_cons, List.length_cons, Nat.add_right_cancel_iff] at hlength
      rcases h with h | ⟨h, hab⟩
      · cases h with
        | rel h => exact List.Lex.rel h
        | cons h => exact List.Lex.cons (ih hlength (.inl h))
      · cases h
        exact List.Lex.cons (ih hlength (.inr ⟨rfl, hab⟩))

/-- The most significant byte decides first, as in the comparison of the numbers. -/
theorem bigEndian_lt {n x y : ℕ} (hy : y < 256 ^ n) (h : x < y) :
    bigEndian n x < bigEndian n y := by
  induction n generalizing x y with
  | zero =>
    rw [pow_zero, Nat.lt_one_iff] at hy
    omega
  | succ n ih =>
    have hdiv : y / 256 < 256 ^ n := by
      rw [pow_succ] at hy
      omega
    rw [bigEndian_succ, bigEndian_succ]
    apply append_lt_append (by simp)
    rcases Nat.lt_or_ge (x / 256) (y / 256) with hlt | hge
    · exact .inl (ih hdiv hlt)
    · have heq : x / 256 = y / 256 := by omega
      refine .inr ⟨by rw [heq], ?_⟩
      rw [UInt8.lt_iff_toNat_lt, UInt8.toNat_ofNat', UInt8.toNat_ofNat']
      omega

end WordBytes
