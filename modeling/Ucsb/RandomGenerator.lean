import Mathlib.Data.UInt
import Ucsb.NaturalRounding

namespace Ucsb

open BinaryRounding

/-- What a `std::minstd_rand` yields from some state on, none of it above its `max()`. -/
structure EngineDraws where
  value : ℕ → UInt32
  le_max : ∀ k, value k ≤ 2147483646

def EngineDraws.drop (rand : EngineDraws) (count : ℕ) : EngineDraws where
  value k := rand.value (count + k)
  le_max k := rand.le_max (count + k)

/-- `random_int_generator_t`. Its `float` member is the rational number it denotes. -/
structure RandomIntGenerator where
  rand : EngineDraws
  last : ℚ

namespace RandomIntGenerator

/-- The draw is returned by way of the member it is assigned to. -/
def generate (g : RandomIntGenerator) : Option (UInt32 × RandomIntGenerator) :=
  let last := roundTo 24 (g.rand.value 0).toNat
  match truncateTo 32 last with
  | some value => some (UInt32.ofNat value, { rand := g.rand.drop 1, last := last })
  | none => none

/-- The constructor, which generates once. -/
def create (rand : EngineDraws) : Option RandomIntGenerator :=
  match generate { rand := rand, last := 0 } with
  | some (_, g) => some g
  | none => none

def generateMany : ℕ → RandomIntGenerator → Option (List UInt32)
  | 0, _ => some []
  | n + 1, g =>
    match g.generate with
    | some (value, g) => (generateMany n g).map (value :: ·)
    | none => none

end RandomIntGenerator

/-- The six characters that a draw is cut into. -/
def byteFields (bytes : UInt32) : List UInt8 :=
  [((bytes &&& 31) + 32).toUInt8,
    (((bytes >>> 5) &&& 63) + 32).toUInt8,
    (((bytes >>> 10) &&& 95) + 32).toUInt8,
    (((bytes >>> 15) &&& 31) + 32).toUInt8,
    (((bytes >>> 20) &&& 63) + 32).toUInt8,
    (((bytes >>> 25) &&& 95) + 32).toUInt8]

structure RandomByteGenerator where
  generator : RandomIntGenerator
  buf : List UInt8
  off : ℕ

namespace RandomByteGenerator

/-- The constructor, which leaves the buffer as it finds it. -/
def create (rand : EngineDraws) (buf : List UInt8) : Option RandomByteGenerator :=
  match RandomIntGenerator.create rand with
  | some generator => some { generator := generator, buf := buf, off := 6 }
  | none => none

def refill (g : RandomByteGenerator) : Option RandomByteGenerator :=
  if g.off = 6 then
    match g.generator.generate with
    | some (bytes, generator) =>
      some { generator := generator, buf := byteFields bytes, off := 0 }
    | none => none
  else some g

def generate (g : RandomByteGenerator) : Option (UInt8 × RandomByteGenerator) :=
  match g.refill with
  | some g =>
    match g.buf[g.off]? with
    | some c => some (c, { g with off := g.off + 1 })
    | none => none
  | none => none

def generateMany : ℕ → RandomByteGenerator → Option (List UInt8)
  | 0, _ => some []
  | n + 1, g =>
    match g.generate with
    | some (c, g) => (generateMany n g).map (c :: ·)
    | none => none

end RandomByteGenerator

/-- The character at a place of the sequence that a sequence of draws is cut into. -/
def charAt (draw : ℕ → UInt32) (k : ℕ) : UInt8 := (byteFields (draw (k / 6))).getD (k % 6) 0

/-- The generators return the draws behind the one of the constructor as they are: the
numbers themselves, and the characters of each in order. -/
def CarriesDraws (rand : EngineDraws) : Prop :=
  (∃ g, RandomIntGenerator.create rand = some g ∧ ∀ n,
    g.generateMany n = some ((List.range n).map fun k => rand.value (k + 1))) ∧
  ∀ buf, ∃ g, RandomByteGenerator.create rand buf = some g ∧ ∀ n,
    g.generateMany n = some ((List.range n).map (charAt fun k => rand.value (k + 1)))

/-- A draw after its way through the `float`. -/
def passed (draw : UInt32) : UInt32 := UInt32.ofNat ⌊roundTo 24 draw.toNat⌋.toNat

theorem excess_le {draw : UInt32} (hle : draw ≤ 2147483646) : excess 24 draw.toNat ≤ 7 := by
  have hlt : draw.toNat < 2 ^ 31 :=
    Nat.lt_of_le_of_lt (UInt32.le_iff_toNat_le.mp hle) (by decide)
  unfold excess
  by_cases hzero : draw.toNat = 0
  · simp [hzero]
  · have hlog := Nat.log_lt_of_lt_pow hzero hlt
    omega

/-- The rounded draw is a number of 32 bits again, and a multiple of its last place. -/
theorem passed_spec {draw : UInt32} (hle : draw ≤ 2147483646) :
    roundTo 24 draw.toNat = ((passed draw).toNat : ℚ) ∧
      2 ^ excess 24 draw.toNat ∣ (passed draw).toNat := by
  obtain ⟨m, hm, hdigits⟩ := roundTo_natCast_mul 24 draw.toNat
  have hlt : m * 2 ^ excess 24 draw.toNat < 2 ^ 32 := by
    have hpow := Nat.pow_le_pow_right (show 0 < 2 by decide) (excess_le hle)
    have hmul := Nat.mul_le_mul hdigits hpow
    omega
  have hpassed : (passed draw).toNat = m * 2 ^ excess 24 draw.toNat := by
    rw [passed, hm, Int.floor_natCast, Int.toNat_natCast, UInt32.toNat_ofNat',
      Nat.mod_eq_of_lt hlt]
  rw [hpassed]
  exact ⟨hm, Nat.dvd_mul_left _ _⟩

theorem passed_eq_iff {draw : UInt32} (hle : draw ≤ 2147483646) :
    passed draw = draw ↔ HasDigits 24 draw.toNat := by
  rw [← roundTo_natCast_eq_iff, (passed_spec hle).1, Nat.cast_inj, UInt32.toNat_inj]

/-- The low bits of a draw show whether it was rounded. -/
theorem hasDigits_of_low {draw : UInt32} (hle : draw ≤ 2147483646)
    (hlow : (passed draw).toNat % 2048 = draw.toNat % 2048) : HasDigits 24 draw.toNat := by
  rw [← dvd_excess_iff]
  have hplace : 2 ^ excess 24 draw.toNat ∣ 2048 :=
    Nat.pow_dvd_pow 2 (Nat.le_trans (excess_le hle) (show 7 ≤ 11 by decide))
  rw [← Nat.dvd_mod_iff hplace, ← hlow, Nat.dvd_mod_iff hplace]
  exact (passed_spec hle).2

namespace RandomIntGenerator

variable {g : RandomIntGenerator} {rand : EngineDraws}

theorem generate_eq (g : RandomIntGenerator) : g.generate = some (passed (g.rand.value 0),
    { rand := g.rand.drop 1, last := (passed (g.rand.value 0)).toNat }) := by
  have hspec := (passed_spec (g.rand.le_max 0)).1
  rw [generate]
  simp only [hspec, truncateTo_natCast (passed (g.rand.value 0)).toNat_lt, UInt32.ofNat_toNat]

theorem create_eq (rand : EngineDraws) : create rand = some
    { rand := rand.drop 1, last := (passed (rand.value 0)).toNat } := by
  rw [create, generate_eq]

theorem generateMany_eq (n : ℕ) (g : RandomIntGenerator) :
    g.generateMany n = some ((List.range n).map fun k => passed (g.rand.value k)) := by
  induction n generalizing g with
  | zero => rfl
  | succ n ih =>
    rw [generateMany, generate_eq]
    simp only [ih, Option.map_some, List.range_succ_eq_map, List.map_cons, List.map_map]
    congr 2
    refine List.map_congr_left fun k _ => ?_
    simp [EngineDraws.drop, Nat.add_comm]

end RandomIntGenerator

namespace RandomByteGenerator

variable {n : ℕ} {g : RandomByteGenerator} {rand : EngineDraws}

/-- The generator has returned `n` characters of the draws. -/
structure Returned (rand : EngineDraws) (n : ℕ) (g : RandomByteGenerator) : Prop where
  value : ∀ k, g.generator.rand.value k = rand.value ((n + 5) / 6 + k)
  off : g.off = if n % 6 = 0 then 6 else n % 6
  buf : n % 6 ≠ 0 → g.buf = byteFields (passed (rand.value (n / 6)))

theorem Returned.refill (h : Returned rand n g) :
    ∃ g', g.refill = some g' ∧ g'.buf = byteFields (passed (rand.value (n / 6))) ∧
      g'.off = n % 6 ∧ ∀ k, g'.generator.rand.value k = rand.value (n / 6 + 1 + k) := by
  have hoff := h.off
  have hvalue := h.value
  by_cases hzero : n % 6 = 0
  · rw [if_pos hzero] at hoff
    rw [show (n + 5) / 6 = n / 6 by omega] at hvalue
    refine ⟨_, by rw [RandomByteGenerator.refill, if_pos hoff, RandomIntGenerator.generate_eq], ?_,
      hzero.symm, fun k => ?_⟩
    · rw [hvalue]
      rfl
    · rw [Nat.add_assoc]
      exact hvalue (1 + k)
  · rw [if_neg hzero] at hoff
    rw [show (n + 5) / 6 = n / 6 + 1 by omega] at hvalue
    have hne : g.off ≠ 6 := by omega
    exact ⟨g, if_neg hne, h.buf hzero, hoff, hvalue⟩

theorem Returned.generate (h : Returned rand n g) :
    ∃ g', g.generate = some (charAt (fun k => passed (rand.value k)) n, g') ∧
      Returned rand (n + 1) g' := by
  obtain ⟨g', hrefill, hbuf, hoff, hvalue⟩ := h.refill
  have hlt : n % 6 < (byteFields (passed (rand.value (n / 6)))).length := Nat.mod_lt _ (by decide)
  have hchar : g'.buf[g'.off]? = some (charAt (fun k => passed (rand.value k)) n) := by
    rw [hbuf, hoff, charAt, List.getD_eq_getElem?_getD, List.getElem?_eq_getElem hlt,
      Option.getD_some]
  refine ⟨{ g' with off := g'.off + 1 }, ?_, fun k => ?_, ?_, fun hne => ?_⟩
  · rw [RandomByteGenerator.generate, hrefill]
    simp only [hchar]
  · rw [hvalue, show (n + 1 + 5) / 6 = n / 6 + 1 by omega]
  · simp only [hoff]
    split <;> omega
  · rw [show (n + 1) / 6 = n / 6 by omega]
    exact hbuf

theorem Returned.generateMany (h : Returned rand n g) (count : ℕ) :
    g.generateMany count = some ((List.range' n count).map
      (charAt fun k => passed (rand.value k))) := by
  induction count generalizing n g with
  | zero => rfl
  | succ count ih =>
    obtain ⟨g', hgenerate, h'⟩ := h.generate
    rw [RandomByteGenerator.generateMany, hgenerate]
    simp only [ih h', Option.map_some, List.range'_succ, List.map_cons]

theorem create_generateMany (rand : EngineDraws) (buf : List UInt8) :
    ∃ g, create rand buf = some g ∧ ∀ n, g.generateMany n =
      some ((List.range n).map (charAt fun k => passed (rand.value (k + 1)))) := by
  have hreturned : Returned (rand.drop 1) 0
      ⟨{ rand := rand.drop 1, last := (passed (rand.value 0)).toNat }, buf, 6⟩ :=
    ⟨fun k => by simp, rfl, fun hne => absurd rfl hne⟩
  refine ⟨_, by rw [create, RandomIntGenerator.create_eq], fun n => ?_⟩
  rw [hreturned.generateMany, List.range_eq_range']
  simp only [EngineDraws.drop, Nat.add_comm]

end RandomByteGenerator

theorem lowField_toNat (bytes : UInt32) (bits : ℕ) (hbits : 2 ^ bits ≤ 128) (mask : UInt32)
    (hmask : mask.toNat = 2 ^ bits - 1) :
    ((bytes &&& mask) + 32).toUInt8.toNat = bytes.toNat % 2 ^ bits + 32 := by
  have hlt := Nat.mod_lt bytes.toNat (Nat.two_pow_pos bits)
  rw [UInt32.toNat_toUInt8, UInt32.toNat_add, UInt32.toNat_and, hmask,
    Nat.and_two_pow_sub_one_eq_mod, show (32 : UInt32).toNat = 32 from rfl]
  omega

/-- The first two characters of a draw hold its lowest eleven bits. -/
theorem low_of_fields {v w : UInt32} (hfirst : (byteFields v).getD 0 0 = (byteFields w).getD 0 0)
    (hsecond : (byteFields v).getD 1 0 = (byteFields w).getD 1 0) :
    v.toNat % 2048 = w.toNat % 2048 := by
  have hlow := congrArg UInt8.toNat hfirst
  have hnext := congrArg UInt8.toNat hsecond
  have hfield : ∀ bytes : UInt32, ((byteFields bytes).getD 0 0).toNat = bytes.toNat % 32 + 32 :=
    fun bytes => lowField_toNat bytes 5 (by decide) 31 rfl
  have hfield' : ∀ bytes : UInt32,
      ((byteFields bytes).getD 1 0).toNat = bytes.toNat / 32 % 64 + 32 := by
    intro bytes
    have hshift : (bytes >>> 5).toNat = bytes.toNat / 32 := by
      rw [UInt32.toNat_shiftRight]
      exact Nat.shiftRight_eq_div_pow bytes.toNat 5
    rw [← hshift]
    exact lowField_toNat (bytes >>> 5) 6 (by decide) 63 rfl
  rw [hfield, hfield] at hlow
  rw [hfield', hfield'] at hnext
  omega

theorem charAt_six (draw : ℕ → UInt32) (k : ℕ) {i : ℕ} (hi : i < 6) :
    charAt draw (6 * k + i) = (byteFields (draw k)).getD i 0 := by
  rw [charAt, show (6 * k + i) / 6 = k by omega, show (6 * k + i) % 6 = i by omega]

/-- Equal characters come from draws that are passed on as they are. -/
theorem hasDigits_of_chars {rand : EngineDraws}
    (h : ∀ n, (List.range n).map (charAt fun k => passed (rand.value (k + 1))) =
      (List.range n).map (charAt fun k => rand.value (k + 1))) (k : ℕ) :
    HasDigits 24 (rand.value (k + 1)).toNat := by
  have hchar : ∀ i, i < 6 → (byteFields (passed (rand.value (k + 1)))).getD i 0 =
      (byteFields (rand.value (k + 1))).getD i 0 := by
    intro i hi
    have hat := List.map_inj_left.mp (h (6 * k + i + 1)) (6 * k + i)
      (List.mem_range.mpr (Nat.lt_succ_self _))
    rwa [charAt_six _ _ hi, charAt_six _ _ hi] at hat
  exact hasDigits_of_low (rand.le_max (k + 1))
    (low_of_fields (hchar 0 (by decide)) (hchar 1 (by decide)))

/-- The draws come through as they are if and only if none has more than 24 digits. -/
theorem value_bytes_iff (rand : EngineDraws) :
    CarriesDraws rand ↔ ∀ k, HasDigits 24 (rand.value (k + 1)).toNat := by
  constructor
  · rintro ⟨_, hchars⟩
    obtain ⟨g, hcreate, hchars⟩ := hchars []
    obtain ⟨g', hcreate', hpassed⟩ := RandomByteGenerator.create_generateMany rand []
    cases Option.some.inj (hcreate.symm.trans hcreate')
    exact hasDigits_of_chars fun n => Option.some.inj ((hpassed n).symm.trans (hchars n))
  · intro hdigits
    have hpassed : ∀ k, passed (rand.value (k + 1)) = rand.value (k + 1) := fun k =>
      (passed_eq_iff (rand.le_max (k + 1))).mpr (hdigits k)
    refine ⟨⟨_, RandomIntGenerator.create_eq rand, fun n => ?_⟩, fun buf => ?_⟩
    · rw [RandomIntGenerator.generateMany_eq]
      simp only [EngineDraws.drop, Nat.add_comm 1, hpassed]
    · obtain ⟨g, hcreate, hchars⟩ := RandomByteGenerator.create_generateMany rand buf
      simp only [hpassed] at hchars
      exact ⟨g, hcreate, hchars⟩

/-- The states of a `std::minstd_rand` from one of them on. -/
def minstdState (first : ℕ) : ℕ → ℕ
  | 0 => first
  | k + 1 => 48271 * minstdState first k % 2147483647

def minstd (first : ℕ) : EngineDraws where
  value k := UInt32.ofNat (minstdState first (k + 1))
  le_max k := by
    have hlt : minstdState first (k + 1) < 2147483647 := Nat.mod_lt _ (by decide)
    rw [UInt32.le_iff_toNat_le, UInt32.toNat_ofNat', Nat.mod_eq_of_lt (by omega)]
    exact Nat.le_of_lt_succ hlt

/-- The first draw behind that of the constructor loses its lowest bits, from state 1 on. -/
theorem minstd_one_rounded : ¬∀ rand : EngineDraws, CarriesDraws rand := by
  intro h
  obtain ⟨_, hchars⟩ := h (minstd 1)
  obtain ⟨g, hcreate, hchars⟩ := hchars []
  obtain ⟨g', hcreate', hpassed⟩ := RandomByteGenerator.create_generateMany (minstd 1) []
  cases Option.some.inj (hcreate.symm.trans hcreate')
  obtain ⟨m, e, hm, hdraw⟩ := hasDigits_of_chars
    (fun n => Option.some.inj ((hpassed n).symm.trans (hchars n))) 0
  have hvalue : ((minstd 1).value 1).toNat = 182605794 := rfl
  rw [hvalue] at hdraw
  rcases e with _ | _ | e
  · omega
  · norm_num at hdraw
    omega
  · rw [Nat.pow_add_one, Nat.pow_add_one, ← Nat.mul_assoc, ← Nat.mul_assoc] at hdraw
    omega

end Ucsb
