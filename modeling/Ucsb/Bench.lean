import Ucsb.BinaryRounding
import Ucsb.StepSystem
import Ucsb.Operation

namespace Ucsb

open BinaryRounding

/-- The counters of `progress_t`. -/
inductive Counter
  | entriesTouched
  | bytesProcessed
  | doneIterations
  | failedIterations
  | lastPrintedIterations
  | totalIterations
  deriving DecidableEq

/-- One workload as the threads run it: the results of each thread's operations. -/
structure BenchWorkload (n : ℕ) where
  valueLength : UInt32
  results : Fin n → List OperationResult

/-- Where a thread is in `bench`, by what it does next with the shared state. -/
inductive BenchPoint
  | opening
  | openFence
  | addTotal
  | startBarrier
  | operate
  | addEntries
  | addFailed
  | addBytes
  | addDone
  | loadDone
  | loadPrinted
  | printLoad
  | printStore
  | storeSpeed
  | testLast
  | flush
  | endBarrier
  | conclude (reads : List Counter)
  | clear (stores : List Counter)
  | concluded
  | closeFence
  deriving DecidableEq

structure BenchThread where
  workload : ℕ
  point : BenchPoint
  rest : List OperationResult
  result : OperationResult
  doneIterations : UInt64
  doneIts : UInt64
  doFlash : Bool

/-- The static `progress_t`, and what has been flushed and reported, in order. -/
structure BenchShared where
  progress : Counter → UInt64
  prevOpsPerSecond : Int64
  flushes : List ℕ
  reports : List (ℕ × Counter × UInt64)

structure Bench (n : ℕ) where
  shared : BenchShared
  threads : Fin n → BenchThread

namespace BenchPoint

/-- The barriers of a workload that a thread at this point has passed. -/
def stage : BenchPoint → ℕ
  | opening | openFence => 0
  | addTotal | startBarrier => 1
  | conclude _ | clear _ | concluded | closeFence => 3
  | _ => 2

/-- The two calls of `fence.sync`, and the barriers before the first and after the
last batch of `KeepRunningBatch`. -/
def AtBarrier (point : BenchPoint) : Prop :=
  point = openFence ∨ point = startBarrier ∨ point = endBarrier ∨ point = closeFence

instance (point : BenchPoint) : Decidable point.AtBarrier :=
  inferInstanceAs (Decidable (_ ∨ _ ∨ _ ∨ _))

end BenchPoint

namespace BenchThread

def passed (t : BenchThread) : ℕ := 4 * t.workload + t.point.stage

def arrived (t : BenchThread) : ℕ := t.passed + if t.point.AtBarrier then 1 else 0

end BenchThread

/-- What one operation adds to each counter. -/
def OperationResult.amount (valueLength : UInt32) (result : OperationResult) : Counter → UInt64
  | .entriesTouched => if result.status = .ok then result.entriesTouched else 0
  | .failedIterations => if result.status = .ok then 0 else 1
  | .bytesProcessed =>
    if result.status = .ok then valueLength.toUInt64 * result.entriesTouched else 0
  | .doneIterations => 1
  | _ => 0

/-- `progress_t::is_time_to_print`, for the number of iterations it has loaded. -/
def isTimeToPrint (progress : Counter → UInt64) (doneIts : UInt64) : Bool :=
  let twentieth : ℚ := { num := 3602879701896397, den := 72057594037927936, reduced := by decide }
  let step := truncateTo 64 (roundTo 53 (twentieth * roundTo 53 (progress .totalIterations).toNat))
  doneIts = progress .totalIterations ∨
    max (UInt64.ofNat (step.getD 0)) 1 ≤ doneIts - progress .lastPrintedIterations

/-- What thread 0 reads for the report. -/
def conclusionReads : List Counter :=
  [.bytesProcessed, .failedIterations, .doneIterations, .entriesTouched, .bytesProcessed]

/-- The stores of `progress_t::clear` to the counters. -/
def clearStores : List Counter :=
  [.failedIterations, .entriesTouched, .bytesProcessed, .doneIterations,
    .lastPrintedIterations, .totalIterations]

section

variable {n : ℕ} (plan : List (BenchWorkload n))

def planResults (k : ℕ) (i : Fin n) : List OperationResult :=
  match plan[k]? with
  | some w => w.results i
  | none => []

def planValueLength (k : ℕ) : UInt32 :=
  match plan[k]? with
  | some w => w.valueLength
  | none => 0

/-- A thread that is about to open the database for workload `k`. -/
def enterWorkload (k : ℕ) (i : Fin n) : BenchThread :=
  { workload := k, point := .opening, rest := planResults plan k i, result := {},
    doneIterations := 0, doneIts := 0, doFlash := true }

end

namespace BenchShared

def add (shared : BenchShared) (counter : Counter) (amount : UInt64) : BenchShared :=
  { shared with
    progress := Function.update shared.progress counter (shared.progress counter + amount) }

def store (shared : BenchShared) (counter : Counter) (value : UInt64) : BenchShared :=
  { shared with progress := Function.update shared.progress counter value }

end BenchShared

/-- What thread `i` does next where no barrier holds it up. `speed` is the
`ops_per_second` that a print would come to. -/
def benchAct {n : ℕ} (plan : List (BenchWorkload n)) (i : Fin n) (speed : Int64)
    (t : BenchThread) (shared : BenchShared) : Option (BenchThread × BenchShared) :=
  let amount := t.result.amount (planValueLength plan t.workload)
  match t.point with
  | .opening => if t.workload < plan.length then some ({ t with point := .openFence }, shared)
    else none
  | .openFence => some ({ t with point := .addTotal }, shared)
  | .addTotal => some ({ t with point := .startBarrier },
      shared.add .totalIterations (UInt64.ofNat (planResults plan t.workload i).length))
  | .startBarrier => some ({ t with point := .operate }, shared)
  | .operate =>
    match t.rest with
    | [] => some ({ t with point := .endBarrier }, shared)
    | result :: rest =>
      some ({ t with point := .addEntries, rest := rest, result := result }, shared)
  | .addEntries =>
    some ({ t with point := .addFailed }, shared.add .entriesTouched (amount .entriesTouched))
  | .addFailed =>
    some ({ t with point := .addBytes }, shared.add .failedIterations (amount .failedIterations))
  | .addBytes =>
    some ({ t with point := .addDone }, shared.add .bytesProcessed (amount .bytesProcessed))
  | .addDone =>
    let shared := shared.add .doneIterations (amount .doneIterations)
    some ({ t with point := .loadDone, doneIterations := shared.progress .doneIterations }, shared)
  | .loadDone =>
    some ({ t with point := .loadPrinted, doneIts := shared.progress .doneIterations }, shared)
  | .loadPrinted =>
    if isTimeToPrint shared.progress t.doneIts then some ({ t with point := .printLoad }, shared)
    else some ({ t with point := .testLast }, shared)
  | .printLoad =>
    some ({ t with point := .printStore, doneIts := shared.progress .doneIterations }, shared)
  | .printStore =>
    some ({ t with point := .storeSpeed }, shared.store .lastPrintedIterations t.doneIts)
  | .storeSpeed =>
    some ({ t with point := .testLast }, { shared with prevOpsPerSecond := speed })
  | .testLast =>
    if t.doneIterations = shared.progress .totalIterations ∧ t.doFlash = true then
      some ({ t with point := .flush, doFlash := false }, shared)
    else some ({ t with point := .operate }, shared)
  | .flush =>
    some ({ t with point := .operate }, { shared with flushes := shared.flushes ++ [t.workload] })
  | .endBarrier =>
    if i.val = 0 then some ({ t with point := .conclude conclusionReads }, shared)
    else some ({ t with point := .concluded }, shared)
  | .conclude [] => some ({ t with point := .clear clearStores }, shared)
  | .conclude (counter :: reads) =>
    some ({ t with point := .conclude reads },
      { shared with reports := shared.reports ++ [(t.workload, counter, shared.progress counter)] })
  | .clear [] => some ({ t with point := .concluded }, { shared with prevOpsPerSecond := 0 })
  | .clear (counter :: stores) =>
    some ({ t with point := .clear stores }, shared.store counter 0)
  | .concluded => some ({ t with point := .closeFence }, shared)
  | .closeFence => some (enterWorkload plan (t.workload + 1) i, shared)

/-- The transitions of `benchAct`, one by one. -/
inductive BenchAct {n : ℕ} (plan : List (BenchWorkload n)) (i : Fin n) (t : BenchThread)
    (shared : BenchShared) : BenchThread → BenchShared → Prop
  | opening (hp : t.point = .opening) (hworkload : t.workload < plan.length) :
    BenchAct plan i t shared { t with point := .openFence } shared
  | openFence (hp : t.point = .openFence) :
    BenchAct plan i t shared { t with point := .addTotal } shared
  | addTotal (hp : t.point = .addTotal) :
    BenchAct plan i t shared { t with point := .startBarrier }
      (shared.add .totalIterations (UInt64.ofNat (planResults plan t.workload i).length))
  | startBarrier (hp : t.point = .startBarrier) :
    BenchAct plan i t shared { t with point := .operate } shared
  | operate (hp : t.point = .operate) {result : OperationResult} {rest : List OperationResult}
    (hrest : t.rest = result :: rest) :
    BenchAct plan i t shared { t with point := .addEntries, rest := rest, result := result } shared
  | operateEnd (hp : t.point = .operate) (hrest : t.rest = []) :
    BenchAct plan i t shared { t with point := .endBarrier } shared
  | addEntries (hp : t.point = .addEntries) :
    BenchAct plan i t shared { t with point := .addFailed } (shared.add .entriesTouched
      (t.result.amount (planValueLength plan t.workload) .entriesTouched))
  | addFailed (hp : t.point = .addFailed) :
    BenchAct plan i t shared { t with point := .addBytes } (shared.add .failedIterations
      (t.result.amount (planValueLength plan t.workload) .failedIterations))
  | addBytes (hp : t.point = .addBytes) :
    BenchAct plan i t shared { t with point := .addDone } (shared.add .bytesProcessed
      (t.result.amount (planValueLength plan t.workload) .bytesProcessed))
  | addDone (hp : t.point = .addDone) :
    BenchAct plan i t shared
      { t with point := .loadDone, doneIterations := shared.progress .doneIterations + 1 }
      (shared.add .doneIterations 1)
  | loadDone (hp : t.point = .loadDone) :
    BenchAct plan i t shared
      { t with point := .loadPrinted, doneIts := shared.progress .doneIterations } shared
  | print (hp : t.point = .loadPrinted) :
    BenchAct plan i t shared { t with point := .printLoad } shared
  | skipPrint (hp : t.point = .loadPrinted) :
    BenchAct plan i t shared { t with point := .testLast } shared
  | printLoad (hp : t.point = .printLoad) :
    BenchAct plan i t shared
      { t with point := .printStore, doneIts := shared.progress .doneIterations } shared
  | printStore (hp : t.point = .printStore) :
    BenchAct plan i t shared { t with point := .storeSpeed }
      (shared.store .lastPrintedIterations t.doneIts)
  | storeSpeed (hp : t.point = .storeSpeed) {speed : Int64} :
    BenchAct plan i t shared { t with point := .testLast }
      { shared with prevOpsPerSecond := speed }
  | testLast (hp : t.point = .testLast)
    (hlast : t.doneIterations = shared.progress .totalIterations) (hflash : t.doFlash = true) :
    BenchAct plan i t shared { t with point := .flush, doFlash := false } shared
  | skipFlush (hp : t.point = .testLast)
    (hnot : t.doneIterations = shared.progress .totalIterations → t.doFlash = false) :
    BenchAct plan i t shared { t with point := .operate } shared
  | flush (hp : t.point = .flush) :
    BenchAct plan i t shared { t with point := .operate }
      { shared with flushes := shared.flushes ++ [t.workload] }
  | endBarrier (hp : t.point = .endBarrier) (hzero : i.val = 0) :
    BenchAct plan i t shared { t with point := .conclude conclusionReads } shared
  | skipConclusion (hp : t.point = .endBarrier) (hzero : i.val ≠ 0) :
    BenchAct plan i t shared { t with point := .concluded } shared
  | conclude {reads : List Counter} {counter : Counter}
    (hp : t.point = .conclude (counter :: reads)) :
    BenchAct plan i t shared { t with point := .conclude reads }
      { shared with reports := shared.reports ++ [(t.workload, counter, shared.progress counter)] }
  | concludeEnd (hp : t.point = .conclude []) :
    BenchAct plan i t shared { t with point := .clear clearStores } shared
  | clear {stores : List Counter} {counter : Counter} (hp : t.point = .clear (counter :: stores)) :
    BenchAct plan i t shared { t with point := .clear stores } (shared.store counter 0)
  | clearEnd (hp : t.point = .clear []) :
    BenchAct plan i t shared { t with point := .concluded } { shared with prevOpsPerSecond := 0 }
  | concluded (hp : t.point = .concluded) :
    BenchAct plan i t shared { t with point := .closeFence } shared
  | closeFence (hp : t.point = .closeFence) :
    BenchAct plan i t shared (enterWorkload plan (t.workload + 1) i) shared

theorem benchAct_cases {n : ℕ} {plan : List (BenchWorkload n)} {i : Fin n} {speed : Int64}
    {t t' : BenchThread} {shared shared' : BenchShared}
    (h : benchAct plan i speed t shared = some (t', shared')) :
    BenchAct plan i t shared t' shared' := by
  cases hp : t.point with
  | opening =>
    simp only [benchAct, hp, Option.ite_none_right_eq_some, Option.some.injEq,
      Prod.mk.injEq] at h
    obtain ⟨hworkload, rfl, rfl⟩ := h
    exact .opening hp hworkload
  | operate =>
    cases hrest : t.rest with
    | nil =>
      simp only [benchAct, hp, hrest, Option.some.injEq, Prod.mk.injEq] at h
      obtain ⟨rfl, rfl⟩ := h
      simpa [← hrest] using BenchAct.operateEnd hp hrest
    | cons result rest =>
      simp only [benchAct, hp, hrest, Option.some.injEq, Prod.mk.injEq] at h
      obtain ⟨rfl, rfl⟩ := h
      exact .operate hp hrest
  | loadPrinted =>
    simp only [benchAct, hp] at h
    split at h <;>
    · simp only [Option.some.injEq, Prod.mk.injEq] at h
      obtain ⟨rfl, rfl⟩ := h
      first | exact .print hp | exact .skipPrint hp
  | testLast =>
    simp only [benchAct, hp] at h
    split at h <;>
    · simp only [Option.some.injEq, Prod.mk.injEq] at h
      obtain ⟨rfl, rfl⟩ := h
      grind [BenchAct]
  | endBarrier =>
    simp only [benchAct, hp] at h
    split at h <;>
    · simp only [Option.some.injEq, Prod.mk.injEq] at h
      obtain ⟨rfl, rfl⟩ := h
      grind [BenchAct]
  | conclude reads =>
    cases reads <;>
    · simp only [benchAct, hp, Option.some.injEq, Prod.mk.injEq] at h
      obtain ⟨rfl, rfl⟩ := h
      first | exact .conclude hp | exact .concludeEnd hp
  | clear stores =>
    cases stores <;>
    · simp only [benchAct, hp, Option.some.injEq, Prod.mk.injEq] at h
      obtain ⟨rfl, rfl⟩ := h
      first | exact .clear hp | exact .clearEnd hp
  | addDone =>
    simp only [benchAct, hp, Option.some.injEq, Prod.mk.injEq] at h
    obtain ⟨rfl, rfl⟩ := h
    exact .addDone hp
  | _ =>
    simp only [benchAct, hp, Option.some.injEq, Prod.mk.injEq] at h
    obtain ⟨rfl, rfl⟩ := h
    grind [BenchAct]

namespace Bench

variable {n : ℕ}

def start (plan : List (BenchWorkload n)) : Bench n :=
  { shared := { progress := fun _ => 0, prevOpsPerSecond := 0, flushes := [], reports := [] }
    threads := enterWorkload plan 0 }

/-- A barrier opens when all threads have arrived at it as often as this one. -/
def Open (s : Bench n) (i : Fin n) : Prop :=
  (s.threads i).point.AtBarrier → ∀ j, (s.threads i).arrived ≤ (s.threads j).arrived

instance (s : Bench n) (i : Fin n) : Decidable (s.Open i) :=
  inferInstanceAs (Decidable (_ → ∀ _, _))

def step (plan : List (BenchWorkload n)) (s : Bench n) (event : Fin n × Int64) :
    Option (Bench n) :=
  if s.Open event.1 then
    (benchAct plan event.1 event.2 (s.threads event.1) s.shared).map fun (t, shared) =>
      { shared := shared, threads := Function.update s.threads event.1 t }
  else none

/-- A step is an action of one thread whose barrier, if it is at one, is open. -/
theorem step_cases {plan : List (BenchWorkload n)} {s s' : Bench n} {event : Fin n × Int64}
    (h : s.step plan event = some s') :
    s.Open event.1 ∧ ∃ t shared, BenchAct plan event.1 (s.threads event.1) s.shared t shared ∧
      s' = { shared := shared, threads := Function.update s.threads event.1 t } := by
  unfold step at h
  split at h
  next hopen =>
    obtain ⟨⟨t, shared⟩, hact, h⟩ := Option.map_eq_some_iff.mp h
    exact ⟨hopen, t, shared, benchAct_cases hact, h.symm⟩
  next => simp at h

end Bench

end Ucsb
