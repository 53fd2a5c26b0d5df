import Ucsb.Workload
import Ucsb.ExceptRules

namespace Ucsb

open BinaryRounding

/-- Why a call does not come to its regular end: an `exception_t` with its message, an
operation without a defined result, or a loop that the random source keeps going. -/
inductive Fault
  | exception (message : String)
  | outOfBounds
  | nullGenerator
  | divisionByZero
  | undefinedConversion
  | impossibleDraw
  | drawsExhausted
  deriving DecidableEq, Repr

def unknownDistribution (what : String) (dist : DistributionKind) : Fault :=
  .exception ("Unknown " ++ what ++ " distribution: " ++ toString dist.toNat)

/-- `counter_generator_t`. -/
structure CounterGenerator where
  counter : UInt64
  deriving DecidableEq

def CounterGenerator.generate (g : CounterGenerator) : UInt64 × CounterGenerator :=
  (g.counter, { counter := g.counter + 1 })

def CounterGenerator.last (g : CounterGenerator) : UInt64 := g.counter - 1

def windowSize : ℕ := 2 ^ 16

def windowMask : UInt64 := UInt64.ofNat windowSize - 1

/-- `acknowledged_counter_generator_t`. -/
structure AcknowledgedCounterGenerator extends CounterGenerator where
  ackWindow : Fin windowSize → Bool
  limit : UInt64

namespace AcknowledgedCounterGenerator

def make (start : UInt64) : AcknowledgedCounterGenerator :=
  { counter := start, ackWindow := fun _ => false, limit := start - 1 }

def generate (g : AcknowledgedCounterGenerator) : UInt64 × AcknowledgedCounterGenerator :=
  (g.counter, { g with counter := g.counter + 1 })

def last (g : AcknowledgedCounterGenerator) : UInt64 := g.limit

theorem and_windowMask_lt (value : UInt64) : (value &&& windowMask).toNat < windowSize := by
  have hm : windowMask.toNat < windowSize := by decide
  have hle : (value &&& windowMask).toNat ≤ windowMask.toNat := by
    simpa only [UInt64.toNat_and] using Nat.and_le_right
  omega

def slot (value : UInt64) : Fin windowSize := ⟨_, and_windowMask_lt value⟩

/-- The loop of `acknowledge` from index `i`, by the number of rounds to its bound:
it clears acknowledged slots and stops at the first that is not. -/
def roll : ℕ → UInt64 → (Fin windowSize → Bool) → UInt64 × (Fin windowSize → Bool)
  | 0, i, window => (i, window)
  | n + 1, i, window =>
    if window (slot i) then roll n (i + 1) (Function.update window (slot i) false)
    else (i, window)

def acknowledge (g : AcknowledgedCounterGenerator) (value : UInt64) :
    Except Fault AcknowledgedCounterGenerator :=
  if g.ackWindow (slot value) then .error (.exception "Not enough window size")
  else
    let window := Function.update g.ackWindow (slot value) true
    let bound := g.limit + UInt64.ofNat windowSize
    let rolled := roll (bound.toNat - (g.limit + 1).toNat) (g.limit + 1) window
    .ok { g with ackWindow := rolled.2, limit := rolled.1 - 1 }

end AcknowledgedCounterGenerator

/-- `zipfian_generator_t`, as far as its bounds go. -/
structure ZipfianGenerator where
  base : UInt64
  itemsCount : UInt64
  deriving DecidableEq

def ZipfianGenerator.make (min max : UInt64) : ZipfianGenerator :=
  { base := min, itemsCount := max - min + 1 }

/-- `scrambled_zipfian_generator_t`. -/
structure ScrambledZipfianGenerator where
  base : UInt64
  numItems : UInt64
  generator : ZipfianGenerator
  deriving DecidableEq

namespace ScrambledZipfianGenerator

def make (min max : UInt64) : ScrambledZipfianGenerator :=
  { base := min, numItems := max - min + 1, generator := .make min (max + 1) }

def fnvOffsetBasis64 : UInt64 := 0xCBF29CE484222325

def fnvPrime64 : UInt64 := 1099511628211

/-- The loop of `fnv_hash64`, one octet of `val` a round. -/
def fnvLoop : ℕ → UInt64 → UInt64 → UInt64
  | 0, _, hash => hash
  | n + 1, val, hash => fnvLoop n (val >>> 8) ((hash ^^^ (val &&& 0xff)) * fnvPrime64)

def fnvHash64 (val : UInt64) : UInt64 := fnvLoop 8 val fnvOffsetBasis64

def scramble (g : ScrambledZipfianGenerator) (value : UInt64) : Except Fault UInt64 :=
  if g.numItems = 0 then .error .divisionByZero
  else .ok (g.base + fnvHash64 value % g.numItems)

end ScrambledZipfianGenerator

/-- `beta_generator_t` with its default shape. -/
structure BetaGenerator where
  min : UInt64
  max : UInt64
  itemsCount : UInt64
  deriving DecidableEq

def BetaGenerator.make (min max : UInt64) : BetaGenerator :=
  { min := min, max := max, itemsCount := max - min + 1 }

/-- `generate` for the fraction `b` that `generateBeta` returned. -/
def BetaGenerator.generate (g : BetaGenerator) (b : ℚ) : Except Fault UInt64 :=
  let scaled := roundTo 24 (b * roundTo 24 g.itemsCount.toNat)
  let val := roundTo 24 (roundTo 24 g.min.toNat + scaled)
  match truncateTo 64 (roundHalfAway val) with
  | some key => .ok (UInt64.ofNat key)
  | none => .error .undefinedConversion

/-- One value of the random source under a key generator: the word that the
integer distribution or the inner zipfian generator returned, and the fraction
that `generateBeta` returned. -/
structure KeyDraw where
  value : UInt64 := 0
  fraction : ℚ := 0
  deriving DecidableEq

/-- A draw of `uniform_int_distribution`. With `min > max` the distribution has
no contract and any value may come back. -/
def drawUniform (min max value : UInt64) : Except Fault UInt64 :=
  if min ≤ max ∧ (value < min ∨ max < value) then .error .impossibleDraw else .ok value

/-- The generators `create_key_generator` makes. -/
inductive KeyGenerator
  | uniform (min max : UInt64)
  | scrambledZipfian (generator : ScrambledZipfianGenerator)
  | beta (generator : BetaGenerator)
  | skewedLatest (zipfian : ZipfianGenerator)
  deriving DecidableEq

/-- `generate`, where `basisLast` is what `last()` of the shared counter returns. -/
def KeyGenerator.generate (basisLast : UInt64) (draw : KeyDraw) :
    KeyGenerator → Except Fault UInt64
  | .uniform min max => drawUniform min max draw.value
  | .scrambledZipfian generator => generator.scramble draw.value
  | .beta generator => generator.generate draw.fraction
  | .skewedLatest _ => .ok (basisLast - draw.value)

/-- The generators of batch, bulk and range lengths. -/
inductive LengthGenerator
  | uniform (min max : UInt64)
  | zipfian (generator : ZipfianGenerator)
  deriving DecidableEq

def LengthGenerator.generate (draw : UInt64) : LengthGenerator → Except Fault UInt64
  | .uniform min max => drawUniform min max draw
  | .zipfian _ => .ok draw

theorem drawUniform_eq {min max value result : UInt64}
    (h : drawUniform min max value = .ok result) : result = value := by
  unfold drawUniform at h
  split at h
  next => simp at h
  next => exact (Except.ok.inj h).symm

theorem LengthGenerator.generate_eq {g : LengthGenerator} {draw length : UInt64}
    (h : g.generate draw = .ok length) : length = draw := by
  cases g with
  | uniform min max => exact drawUniform_eq h
  | zipfian _ => exact (Except.ok.inj h).symm

/-- The generators of value lengths. -/
inductive ValueLengthGenerator
  | const (constant : UInt32)
  | uniform (min max : UInt32)
  deriving DecidableEq

def ValueLengthGenerator.generate (draw : UInt32) : ValueLengthGenerator → Except Fault UInt32
  | .const constant => .ok constant
  | .uniform min max =>
    if min ≤ max ∧ (draw < min ∨ max < draw) then .error .impossibleDraw else .ok draw

/-- What `upsert_key_sequence_generator` points to. -/
inductive KeySequence
  | counter (generator : CounterGenerator)
  | acknowledged (generator : AcknowledgedCounterGenerator)

namespace KeySequence

def next : KeySequence → UInt64
  | .counter g => g.counter
  | .acknowledged g => g.counter

def last : KeySequence → UInt64
  | .counter g => g.last
  | .acknowledged g => g.last

def generate : KeySequence → UInt64 × KeySequence
  | .counter g => (g.generate.1, .counter g.generate.2)
  | .acknowledged g => (g.generate.1, .acknowledged g.generate.2)

/-- The sequence after `n` calls of `generate`. -/
def advance : ℕ → KeySequence → KeySequence
  | 0, s => s
  | n + 1, s => advance n s.generate.2

@[simp] theorem generate_fst (s : KeySequence) : s.generate.1 = s.next := by
  cases s <;> rfl

@[simp] theorem generate_next (s : KeySequence) : s.generate.2.next = s.next + 1 := by
  cases s <;> rfl

theorem advance_add (m n : ℕ) (s : KeySequence) :
    advance (m + n) s = advance n (advance m s) := by
  induction m generalizing s with
  | zero => simp [advance]
  | succ m ih => simpa only [Nat.succ_add, advance] using ih s.generate.2

theorem advance_next (n : ℕ) (s : KeySequence) :
    (advance n s).next = s.next + UInt64.ofNat n := by
  induction n generalizing s with
  | zero => simp [advance]
  | succ n ih =>
    rw [advance, ih, generate_next, Nat.add_comm n 1, UInt64.ofNat_add, UInt64.add_assoc]
    rfl

/-- Handing out keys does not move the bound of an acknowledged counter. -/
theorem advance_last_acknowledged (n : ℕ) (g : AcknowledgedCounterGenerator) :
    (advance n (.acknowledged g)).last = g.limit := by
  induction n generalizing g with
  | zero => rfl
  | succ n ih => exact ih g.generate.2

end KeySequence

end Ucsb
