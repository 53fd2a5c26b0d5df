import Mathlib.Algebra.BigOperators.Group.List.Lemmas
import Mathlib.Algebra.Order.BigOperators.Group.List
import Mathlib.Data.Rat.Cast.Order
import Mathlib.Tactic.Linarith
import Ucsb.Workload

namespace Ucsb

/-- The operations of `worker_t` that call `generate_key`. -/
def OperationKind.generatesKey : OperationKind → Bool
  | update | remove | read | readModifyWrite | batchRead | rangeSelect => true
  | upsert | batchUpsert | bulkLoad | scan => false

/-- `operation_chooser_t`, with weights in place of its `float` members. -/
structure OperationChooser (K : Type) where
  ops : List (OperationKind × K)
  sum : K

namespace OperationChooser

variable {K : Type} [Field K]

def empty : OperationChooser K := { ops := [], sum := 0 }

def add (c : OperationChooser K) (op : OperationKind × K) : OperationChooser K :=
  { ops := c.ops ++ [op], sum := c.sum + op.2 }

/-- The chooser after the operations were added in order. -/
def ofList (ops : List (OperationKind × K)) : OperationChooser K := ops.foldl add empty

variable [LinearOrder K]

/-- The loop of `choose`. Without a result it reaches the assertion behind the loop. -/
def chooseFrom (sum : K) : List (OperationKind × K) → K → Option OperationKind
  | [], _ => none
  | op :: ops, chooser =>
    let part := op.2 / sum
    if chooser < part then some op.1 else chooseFrom sum ops (chooser - part)

/-- `choose` for what the generator drew. -/
def choose (c : OperationChooser K) (chooser : K) : Option OperationKind :=
  chooseFrom c.sum c.ops chooser

end OperationChooser

/-- The operations in the order in which `create_operation_chooser` adds them. -/
def Workload.weights (K : Type) [Field K] (w : Workload) : List (OperationKind × K) :=
  [(.upsert, w.upsertProportion), (.update, w.updateProportion), (.remove, w.removeProportion),
    (.read, w.readProportion), (.readModifyWrite, w.readModifyWriteProportion),
    (.batchUpsert, w.batchUpsertProportion), (.batchRead, w.batchReadProportion),
    (.bulkLoad, w.bulkLoadProportion), (.rangeSelect, w.rangeSelectProportion),
    (.scan, w.scanProportion)]

def createOperationChooser (K : Type) [Field K] (w : Workload) :
    OperationChooser K :=
  .ofList (w.weights K)

/-- The sum of the first weights. -/
def weightBefore {K : Type} [Field K] (ops : List (OperationKind × K)) (i : ℕ) : K :=
  ((ops.take i).map Prod.snd).sum

namespace OperationChooser

variable {K : Type} [Field K]

theorem foldl_add (c : OperationChooser K) (ops : List (OperationKind × K)) :
    ops.foldl add c = { ops := c.ops ++ ops, sum := c.sum + (ops.map Prod.snd).sum } := by
  induction ops generalizing c with
  | nil => simp
  | cons op ops ih =>
    rw [List.foldl_cons, ih]
    simp [add, add_assoc]

theorem ofList_eq (ops : List (OperationKind × K)) :
    ofList ops = { ops := ops, sum := (ops.map Prod.snd).sum } := by
  simp [ofList, foldl_add, empty]

theorem weightBefore_succ {ops : List (OperationKind × K)} {i : ℕ} {op : OperationKind}
    {weight : K} (h : ops[i]? = some (op, weight)) :
    weightBefore ops (i + 1) = weightBefore ops i + weight := by
  simp [weightBefore, List.take_add_one, h]

variable [LinearOrder K] [IsStrictOrderedRing K]

/-- The residue is the draw less the parts before; it meets the part it falls into. -/
theorem chooseFrom_spec {sum : K} {ops : List (OperationKind × K)} {u : K}
    (hu : 0 ≤ u) (hu' : u < (ops.map Prod.snd).sum / sum) :
    ∃ i op weight, ops[i]? = some (op, weight) ∧ chooseFrom sum ops u = some op ∧
      weightBefore ops i / sum ≤ u ∧ u < weightBefore ops (i + 1) / sum := by
  induction ops generalizing u with
  | nil =>
    simp only [List.map_nil, List.sum_nil, zero_div] at hu'
    exact absurd hu hu'.not_ge
  | cons op ops ih =>
    rw [chooseFrom]
    split
    next hlt => exact ⟨0, op.1, op.2, rfl, rfl, by simpa [weightBefore], by simpa [weightBefore]⟩
    next hge =>
      rw [not_lt] at hge
      have hrest : u - op.2 / sum < (ops.map Prod.snd).sum / sum := by
        rw [List.map_cons, List.sum_cons, add_div] at hu'
        linarith
      obtain ⟨i, kind, weight, hget, hchoose, hlow, hhigh⟩ := ih (sub_nonneg.mpr hge) hrest
      refine ⟨i + 1, kind, weight, hget, hchoose, ?_, ?_⟩
      · simp only [weightBefore, List.take_succ_cons, List.map_cons, List.sum_cons, add_div]
        rw [weightBefore] at hlow
        linarith
      · simp only [weightBefore, List.take_succ_cons, List.map_cons, List.sum_cons, add_div]
          at hhigh ⊢
        linarith

/-- A draw below one falls into the part of one operation, whose weight is not zero. -/
theorem choose_spec {ops : List (OperationKind × K)} {u : K}
    (hsum : 0 < (ops.map Prod.snd).sum) (hu : 0 ≤ u) (hu' : u < 1) :
    ∃ i op weight, ops[i]? = some (op, weight) ∧ 0 < weight ∧ (ofList ops).choose u = some op ∧
      weightBefore ops i / (ops.map Prod.snd).sum ≤ u ∧
      u < weightBefore ops (i + 1) / (ops.map Prod.snd).sum := by
  obtain ⟨i, op, weight, hget, hchoose, hlow, hhigh⟩ :=
    chooseFrom_spec hu ((div_self hsum.ne').symm ▸ hu')
  refine ⟨i, op, weight, hget, ?_, by rwa [ofList_eq, choose], hlow, hhigh⟩
  have hlt := (div_lt_div_iff_of_pos_right hsum).mp (hlow.trans_lt hhigh)
  rw [weightBefore_succ hget] at hlt
  linarith

end OperationChooser

namespace Workload

def operationKinds : List OperationKind :=
  [.upsert, .update, .remove, .read, .readModifyWrite, .batchUpsert, .batchRead, .bulkLoad,
    .rangeSelect, .scan]

theorem mem_operationKinds (op : OperationKind) : op ∈ operationKinds := by
  cases op <;> decide

theorem weights_eq (K : Type) [Field K] (w : Workload) :
    w.weights K = operationKinds.map fun op => (op, (w.proportion op : K)) := rfl

/-- The sum that `validate_workload` bounds, before it is rounded. -/
def proportionTotal (w : Workload) : ℚ := (operationKinds.map w.proportion).sum

theorem weights_sum (K : Type) [Field K] [CharZero K] (w : Workload) :
    ((w.weights K).map Prod.snd).sum = (w.proportionTotal : K) := by
  rw [weights_eq, proportionTotal, List.map_map]
  simp [operationKinds]

variable {w : Workload}

theorem proportion_le_total (hnonneg : ∀ kind, 0 ≤ w.proportion kind) (op : OperationKind) :
    w.proportion op ≤ w.proportionTotal := by
  refine List.single_le_sum (fun q hq => ?_) _ (List.mem_map_of_mem (mem_operationKinds op))
  obtain ⟨kind, -, rfl⟩ := List.mem_map.mp hq
  exact hnonneg kind

theorem proportion_add_le_total (hnonneg : ∀ kind, 0 ≤ w.proportion kind)
    {op other : OperationKind} (hne : op ≠ other) :
    w.proportion op + w.proportion other ≤ w.proportionTotal := by
  have hmem : other ∈ operationKinds.erase op :=
    (List.mem_erase_of_ne hne.symm).mpr (mem_operationKinds other)
  have hle : w.proportion other ≤ ((operationKinds.erase op).map w.proportion).sum := by
    refine List.single_le_sum (fun q hq => ?_) _ (List.mem_map_of_mem hmem)
    obtain ⟨kind, -, rfl⟩ := List.mem_map.mp hq
    exact hnonneg kind
  have htotal := List.sum_map_erase w.proportion (mem_operationKinds op)
  rw [proportionTotal, ← htotal]
  exact add_le_add_right hle _

theorem InsertOnly.exists_insertion (h : w.InsertOnly) :
    ∃ op : OperationKind, op.Inserts ∧ w.proportion op = 1 := by
  rcases h with hone | hone | hone
  · exact ⟨.upsert, by decide, hone⟩
  · exact ⟨.batchUpsert, by decide, hone⟩
  · exact ⟨.bulkLoad, by decide, hone⟩

/-- In an insert-only workload the one insertion takes the whole sum. -/
theorem InsertOnly.proportion_generatesKey (h : w.InsertOnly)
    (hnonneg : ∀ kind, 0 ≤ w.proportion kind) (htotal : w.proportionTotal ≤ 1)
    {op : OperationKind} (hop : op.generatesKey) : w.proportion op = 0 := by
  obtain ⟨insertion, hinserts, hone⟩ := h.exists_insertion
  have hne : insertion ≠ op := by
    rintro rfl
    rcases hinserts with rfl | rfl | rfl <;> exact absurd hop (by decide)
  have hle := proportion_add_le_total hnonneg hne
  exact le_antisymm (by linarith) (hnonneg op)

theorem InsertOnly.proportionTotal_pos (h : w.InsertOnly)
    (hnonneg : ∀ kind, 0 ≤ w.proportion kind) : 0 < w.proportionTotal := by
  obtain ⟨insertion, -, hone⟩ := h.exists_insertion
  have hle := proportion_le_total hnonneg insertion
  linarith

end Workload

/-- A draw chooses the operation into whose share of the sum it falls, and in an insert-only
workload with proportions that sum up to at most one that is none that needs a key. -/
theorem operation_chooser_samples (K : Type) [Field K] [LinearOrder K] [IsStrictOrderedRing K] :
    (∀ (ops : List (OperationKind × K)) (u : K), (∀ op ∈ ops, 0 ≤ op.2) →
      0 < (ops.map Prod.snd).sum → 0 ≤ u → u < 1 →
        ∃ i op weight, ops[i]? = some (op, weight) ∧ 0 < weight ∧
          (OperationChooser.ofList ops).choose u = some op ∧
          weightBefore ops i / (ops.map Prod.snd).sum ≤ u ∧
          u < weightBefore ops (i + 1) / (ops.map Prod.snd).sum) ∧
      ∀ (w : Workload) (u : K), w.InsertOnly → (∀ kind, 0 ≤ w.proportion kind) →
        w.proportionTotal ≤ 1 → 0 ≤ u → u < 1 →
          ∃ op, (createOperationChooser K w).choose u = some op ∧ op.generatesKey = false := by
  refine ⟨fun ops u _ hsum hu hu' => OperationChooser.choose_spec hsum hu hu', ?_⟩
  intro w u hw hnonneg htotal hu hu'
  have hsum : 0 < ((w.weights K).map Prod.snd).sum := by
    rw [w.weights_sum K, Rat.cast_pos]
    exact hw.proportionTotal_pos hnonneg
  obtain ⟨i, op, weight, hget, hpos, hchoose, -⟩ := OperationChooser.choose_spec hsum hu hu'
  refine ⟨op, hchoose, ?_⟩
  by_contra hkey
  rw [Bool.not_eq_false] at hkey
  obtain ⟨kind, -, heq⟩ := List.mem_map.mp (w.weights_eq K ▸ List.mem_of_getElem? hget)
  cases heq
  rw [hw.proportion_generatesKey hnonneg htotal hkey, Rat.cast_zero] at hpos
  exact lt_irrefl 0 hpos

/-- Two operations with a third one of weight zero between them, and a load. -/
theorem operation_chooser_samples_load :
    (∃ op, (OperationChooser.ofList [(.read, 2), (.scan, 0), (.update, 6)]).choose (1 / 2 : ℚ) =
        some op) ∧
      ∃ op, (createOperationChooser ℚ { upsertProportion := 1 }).choose (1 / 3) = some op ∧
        op.generatesKey = false := by
  obtain ⟨hlist, hload⟩ := operation_chooser_samples ℚ
  obtain ⟨i, op, weight, -, -, hchoose, -⟩ :=
    hlist [(.read, 2), (.scan, 0), (.update, 6)] (1 / 2) (by simp) (by norm_num) (by norm_num)
      (by norm_num)
  refine ⟨⟨op, hchoose⟩, hload _ _ (Or.inl rfl) (fun kind => ?_) ?_ (by norm_num) (by norm_num)⟩
  · cases kind <;> norm_num [Workload.proportion]
  · norm_num [Workload.proportionTotal, Workload.operationKinds, Workload.proportion]

/-- Upserts and as many reads: the workload counts as insert-only, and every second
operation reads. -/
theorem operation_chooser_chooses_read :
    ¬∀ (w : Workload) (u : ℚ), w.InsertOnly → (∀ kind, 0 ≤ w.proportion kind) → 0 ≤ u → u < 1 →
      ∀ op, (createOperationChooser ℚ w).choose u = some op → op.generatesKey = false := by
  intro h
  have hnonneg : ∀ kind, 0 ≤ ({ upsertProportion := 1, readProportion := 1 } :
      Workload).proportion kind := by
    intro kind
    cases kind <;> norm_num [Workload.proportion]
  have hread : (createOperationChooser ℚ { upsertProportion := 1, readProportion := 1 }).choose
      (3 / 4) = some .read := by
    rw [createOperationChooser, OperationChooser.ofList_eq]
    norm_num [OperationChooser.choose, OperationChooser.chooseFrom, Workload.weights]
  have hkey := h _ (3 / 4) (Or.inl rfl) hnonneg (by norm_num) (by norm_num) .read hread
  exact absurd hkey (by decide)

end Ucsb
