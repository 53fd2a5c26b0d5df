import Mathlib.Data.List.Induction
import Ucsb.Workload

namespace Ucsb

/-- `timer_t::state_t`. -/
inductive TimerState
  | stopped
  | running
  | paused
  deriving DecidableEq

/-- `timer_t`, with readings of the clock and durations in nanoseconds. Until the first
`start` the durations are not initialized. -/
structure Timer where
  state : TimerState := .stopped
  startTime : ℤ := 0
  elapsedTime : ℤ := 0
  operationsStartTime : ℤ := 0
  operationsElapsedTime : ℤ := 0

namespace Timer

def recalculateOperationsElapsedTime (t : Timer) (now : ℤ) : Timer :=
  { t with
    operationsElapsedTime := t.operationsElapsedTime + (now - t.operationsStartTime)
    operationsStartTime := now }

def recalculateElapsedTime (t : Timer) (now : ℤ) : Timer :=
  { t with elapsedTime := t.elapsedTime + (now - t.startTime), startTime := now }

/-- No result means that the assertion on the state fails. -/
def pause (t : Timer) (now : ℤ) : Option Timer :=
  if t.state = .running then
    some { t.recalculateOperationsElapsedTime now with state := .paused }
  else none

def resume (t : Timer) (now : ℤ) : Option Timer :=
  if t.state = .paused then some { t with operationsStartTime := now, state := .running }
  else none

def start (t : Timer) (now : ℤ) : Option Timer :=
  if t.state = .stopped then
    some
      { elapsedTime := 0
        operationsElapsedTime := 0
        startTime := now
        operationsStartTime := now
        state := .running }
  else none

def stop (t : Timer) (now : ℤ) : Option Timer :=
  if t.state = .running then
    some { t.recalculateOperationsElapsedTime now with state := .stopped }
  else none

/-- `operations_elapsed_time()`. -/
def queryOperations (t : Timer) (now : ℤ) : ℤ × Timer :=
  let t := if t.state = .running then t.recalculateOperationsElapsedTime now else t
  (t.operationsElapsedTime, t)

/-- `elapsed_time()`. -/
def queryElapsed (t : Timer) (now : ℤ) : ℤ × Timer :=
  let t := if t.state ≠ .stopped then t.recalculateElapsedTime now else t
  (t.elapsedTime, t)

end Timer

/-- The public methods of `timer_t`. -/
inductive TimerCall
  | start
  | pause
  | resume
  | stop
  | operationsElapsedTime
  | elapsedTime
  deriving DecidableEq

namespace Timer

/-- A call with the reading of the clock during it; a query answers. -/
def call (t : Timer) : ℤ × TimerCall → Option (Option ℤ × Timer)
  | (now, .start) => (t.start now).map (Prod.mk none)
  | (now, .pause) => (t.pause now).map (Prod.mk none)
  | (now, .resume) => (t.resume now).map (Prod.mk none)
  | (now, .stop) => (t.stop now).map (Prod.mk none)
  | (now, .operationsElapsedTime) =>
    some (some (t.queryOperations now).1, (t.queryOperations now).2)
  | (now, .elapsedTime) => some (some (t.queryElapsed now).1, (t.queryElapsed now).2)

/-- Calls one after another, with what each of them answers. -/
def run : Timer → List (ℤ × TimerCall) → Option (List (Option ℤ) × Timer)
  | t, [] => some ([], t)
  | t, c :: calls => do
    let (reply, t) ← t.call c
    let (replies, t) ← run t calls
    some (reply :: replies, t)

end Timer

/-- What the calls since the last `start` mean: the time during which the timer was running,
up to the interval that is still open, and when the wall clock was started, asked and
stopped. -/
structure TimerRecord where
  state : TimerState
  since : ℤ
  total : ℤ
  started : ℤ
  seen : ℤ
  ended : ℤ

namespace TimerRecord

/-- The length of all running intervals until now. -/
def measured (r : TimerRecord) (now : ℤ) : ℤ :=
  if r.state = .running then r.total + (now - r.since) else r.total

/-- Only starting and stopping counts; a query of the operations changes nothing. -/
def after : Option TimerRecord → ℤ × TimerCall → Option TimerRecord
  | _, (now, .start) =>
    some { state := .running, since := now, total := 0, started := now, seen := now, ended := now }
  | none, _ => none
  | some r, (now, .pause) => some { r with state := .paused, total := r.measured now }
  | some r, (now, .resume) => some { r with state := .running, since := now }
  | some r, (now, .stop) =>
    some { r with state := .stopped, total := r.measured now, ended := now }
  | some r, (_, .operationsElapsedTime) => some r
  | some r, (now, .elapsedTime) => some (if r.state = .stopped then r else { r with seen := now })

/-- The record of a list of calls. -/
def ofCalls (calls : List (ℤ × TimerCall)) : Option TimerRecord := calls.foldl after none

/-- The time since the start, up to the last query when the timer is stopped. -/
def wall (r : TimerRecord) (now : ℤ) : ℤ :=
  if r.state = .stopped then r.seen - r.started else now - r.started

/-- What a query has to answer once the timer was started. -/
def Answers : Option TimerRecord → ℤ × TimerCall → Option ℤ → Prop
  | some r, (now, .operationsElapsedTime), reply => reply = some (r.measured now)
  | some r, (now, .elapsedTime), reply => reply = some (r.wall now)
  | _, _, _ => True

theorem foldl_after_isSome {r : TimerRecord} (calls : List (ℤ × TimerCall)) :
    ∃ s, calls.foldl after (some r) = some s := by
  induction calls generalizing r with
  | nil => exact ⟨r, rfl⟩
  | cons c calls ih =>
    obtain ⟨now, method⟩ := c
    cases method <;> exact ih

end TimerRecord

namespace Timer

/-- The two accumulators against the record: a running timer owes the operations the time
since its interval was rebased, and the wall clock the time since it was last asked. -/
structure Measures (t : Timer) (r : TimerRecord) : Prop where
  state : t.state = r.state
  running : t.state = .running →
    t.operationsElapsedTime - t.operationsStartTime = r.total - r.since
  halted : t.state ≠ .running → t.operationsElapsedTime = r.total
  elapsed : t.elapsedTime = r.seen - r.started
  asked : t.startTime = r.seen

/-- A timer before its first start has no record. -/
def Follows (t : Timer) : Option TimerRecord → Prop
  | none => t.state = .stopped
  | some r => t.Measures r

theorem Follows.stopped_or {t : Timer} {r : Option TimerRecord} (h : t.Follows r)
    (hstate : t.state ≠ .stopped) : ∃ s, r = some s ∧ t.Measures s := by
  cases r with
  | none => exact absurd h hstate
  | some s => exact ⟨s, rfl, h⟩

/-- The open interval adds what has passed of it. -/
theorem Measures.running_until {t : Timer} {r : TimerRecord} (h : t.Measures r)
    (hstate : t.state = .running) (now : ℤ) :
    t.operationsElapsedTime + (now - t.operationsStartTime) = r.measured now := by
  have hopen := h.running hstate
  have hmeasured : r.measured now = r.total + (now - r.since) :=
    if_pos (h.state.symm.trans hstate)
  omega

/-- Pausing and stopping close the open interval alike. -/
theorem Measures.halt {t : Timer} {r : TimerRecord} (h : t.Measures r)
    (hstate : t.state = .running) {state : TimerState} (hhalted : state ≠ .running)
    (now ended : ℤ) :
    Measures { t.recalculateOperationsElapsedTime now with state := state }
      { r with state := state, total := r.measured now, ended := ended } where
  state := rfl
  running hrunning := absurd hrunning hhalted
  halted _ := h.running_until hstate now
  elapsed := h.elapsed
  asked := h.asked

theorem pause_follows {t u : Timer} {r : Option TimerRecord} {now : ℤ} (h : t.Follows r)
    (hcall : t.pause now = some u) : u.Follows (TimerRecord.after r (now, .pause)) := by
  unfold pause at hcall
  split at hcall
  next hstate =>
    cases Option.some.inj hcall
    obtain ⟨s, rfl, hs⟩ := h.stopped_or (by simp [hstate])
    exact hs.halt hstate (by simp) now s.ended
  next => simp at hcall

theorem stop_follows {t u : Timer} {r : Option TimerRecord} {now : ℤ} (h : t.Follows r)
    (hcall : t.stop now = some u) : u.Follows (TimerRecord.after r (now, .stop)) := by
  unfold stop at hcall
  split at hcall
  next hstate =>
    cases Option.some.inj hcall
    obtain ⟨s, rfl, hs⟩ := h.stopped_or (by simp [hstate])
    exact hs.halt hstate (by simp) now now
  next => simp at hcall

theorem resume_follows {t u : Timer} {r : Option TimerRecord} {now : ℤ} (h : t.Follows r)
    (hcall : t.resume now = some u) : u.Follows (TimerRecord.after r (now, .resume)) := by
  unfold resume at hcall
  split at hcall
  next hstate =>
    cases Option.some.inj hcall
    obtain ⟨s, rfl, hs⟩ := h.stopped_or (by simp [hstate])
    have htotal := hs.halted (by simp [hstate])
    refine ⟨rfl, fun _ => ?_, fun hhalted => absurd rfl hhalted, hs.elapsed, hs.asked⟩
    change t.operationsElapsedTime - now = s.total - now
    omega
  next => simp at hcall

theorem start_follows {t u : Timer} {r : Option TimerRecord} {now : ℤ}
    (hcall : t.start now = some u) : u.Follows (TimerRecord.after r (now, .start)) := by
  unfold start at hcall
  split at hcall
  next =>
    cases Option.some.inj hcall
    exact ⟨rfl, fun _ => rfl, fun hhalted => absurd rfl hhalted, (sub_self now).symm, rfl⟩
  next => simp at hcall

/-- A query closes the open interval and opens the next one at the same reading. -/
theorem queryOperations_measures {t : Timer} {r : TimerRecord} {now : ℤ} (h : t.Measures r) :
    (t.queryOperations now).1 = r.measured now ∧ (t.queryOperations now).2.Measures r := by
  by_cases hstate : t.state = .running
  · have hopen := h.running hstate
    simp only [queryOperations, if_pos hstate]
    refine ⟨h.running_until hstate now, h.state, fun _ => ?_, fun hhalted => absurd hstate hhalted,
      h.elapsed, h.asked⟩
    · change t.operationsElapsedTime + (now - t.operationsStartTime) - now = r.total - r.since
      omega
  · have hmeasured : r.measured now = r.total := if_neg (h.state ▸ hstate)
    simp only [queryOperations, if_neg hstate, hmeasured]
    exact ⟨h.halted hstate, h⟩

theorem queryElapsed_measures {t : Timer} {r : TimerRecord} {now : ℤ} (h : t.Measures r) :
    (t.queryElapsed now).1 = r.wall now ∧
      (t.queryElapsed now).2.Follows (TimerRecord.after (some r) (now, .elapsedTime)) := by
  have hasked := h.asked
  have helapsed := h.elapsed
  by_cases hstate : t.state = .stopped
  · have hr : r.state = .stopped := h.state.symm.trans hstate
    simp only [queryElapsed, TimerRecord.wall, TimerRecord.after, hstate, hr, ne_eq, not_true,
      if_false, if_true]
    exact ⟨helapsed, h⟩
  · have hr : r.state ≠ .stopped := h.state ▸ hstate
    simp only [queryElapsed, TimerRecord.wall, TimerRecord.after, ne_eq, hstate, hr,
      not_false_eq_true, if_true, if_false]
    have hsum : t.elapsedTime + (now - t.startTime) = now - r.started := by omega
    exact ⟨hsum, h.state, h.running, h.halted, hsum, rfl⟩

/-- One call keeps the record, and a query answers by it. -/
theorem call_follows {t u : Timer} {r : Option TimerRecord} {c : ℤ × TimerCall}
    {reply : Option ℤ} (h : t.Follows r) (hcall : t.call c = some (reply, u)) :
    u.Follows (TimerRecord.after r c) ∧ TimerRecord.Answers r c reply := by
  obtain ⟨now, method⟩ := c
  cases method with
  | start =>
    obtain ⟨v, hv, heq⟩ := Option.map_eq_some_iff.mp hcall
    cases heq
    refine ⟨start_follows hv, ?_⟩
    cases r <;> trivial
  | pause =>
    obtain ⟨v, hv, heq⟩ := Option.map_eq_some_iff.mp hcall
    cases heq
    refine ⟨pause_follows h hv, ?_⟩
    cases r <;> trivial
  | resume =>
    obtain ⟨v, hv, heq⟩ := Option.map_eq_some_iff.mp hcall
    cases heq
    refine ⟨resume_follows h hv, ?_⟩
    cases r <;> trivial
  | stop =>
    obtain ⟨v, hv, heq⟩ := Option.map_eq_some_iff.mp hcall
    cases heq
    refine ⟨stop_follows h hv, ?_⟩
    cases r <;> trivial
  | operationsElapsedTime =>
    cases Option.some.inj hcall
    cases r with
    | none =>
      have hstate : t.state ≠ .running := by
        have hstopped : t.state = .stopped := h
        simp [hstopped]
      simp only [queryOperations, if_neg hstate]
      exact ⟨h, trivial⟩
    | some r =>
      obtain ⟨hreply, hkept⟩ := queryOperations_measures h
      exact ⟨hkept, congrArg some hreply⟩
  | elapsedTime =>
    cases Option.some.inj hcall
    cases r with
    | none =>
      have hstate : ¬t.state ≠ .stopped := not_not.mpr h
      simp only [queryElapsed, if_neg hstate]
      exact ⟨h, trivial⟩
    | some r =>
      obtain ⟨hreply, hkept⟩ := queryElapsed_measures h
      exact ⟨hkept, congrArg some hreply⟩

theorem run_cons_eq_some {t u : Timer} {c : ℤ × TimerCall} {calls : List (ℤ × TimerCall)}
    {replies : List (Option ℤ)} (h : t.run (c :: calls) = some (replies, u)) :
    ∃ reply v rest, t.call c = some (reply, v) ∧ v.run calls = some (rest, u) ∧
      replies = reply :: rest := by
  obtain ⟨⟨reply, v⟩, hcall, hrest⟩ := Option.bind_eq_some_iff.mp h
  obtain ⟨⟨rest, w⟩, hrun, heq⟩ := Option.bind_eq_some_iff.mp hrest
  cases Option.some.inj heq
  exact ⟨reply, v, rest, hcall, hrun, rfl⟩

/-- Every query of a run answers by the record of the calls before it. -/
theorem run_answers {t u : Timer} {r : Option TimerRecord} {calls : List (ℤ × TimerCall)}
    {replies : List (Option ℤ)} (h : t.Follows r) (hrun : t.run calls = some (replies, u)) :
    u.Follows (calls.foldl TimerRecord.after r) ∧
      ∀ i c, calls[i]? = some c → ∃ reply, replies[i]? = some reply ∧
        TimerRecord.Answers ((calls.take i).foldl TimerRecord.after r) c reply := by
  induction calls generalizing t r replies with
  | nil =>
    cases Option.some.inj hrun
    exact ⟨h, fun i c hc => by simp at hc⟩
  | cons d calls ih =>
    obtain ⟨reply, v, rest, hcall, hrest, rfl⟩ := run_cons_eq_some hrun
    obtain ⟨hkept, hreply⟩ := call_follows h hcall
    obtain ⟨hlast, hanswers⟩ := ih hkept hrest
    refine ⟨hlast, fun i c hc => ?_⟩
    cases i with
    | zero =>
      cases Option.some.inj hc
      exact ⟨reply, rfl, hreply⟩
    | succ i => exact hanswers i c hc

theorem run_append {t u v : Timer} {calls more : List (ℤ × TimerCall)}
    {replies rest : List (Option ℤ)} (h : t.run calls = some (replies, u))
    (hmore : u.run more = some (rest, v)) :
    t.run (calls ++ more) = some (replies ++ rest, v) := by
  induction calls generalizing t replies with
  | nil =>
    cases Option.some.inj h
    exact hmore
  | cons c calls ih =>
    obtain ⟨reply, w, tail, hcall, htail, rfl⟩ := run_cons_eq_some h
    rw [List.cons_append, run]
    simp only [hcall, Option.bind_eq_bind, Option.bind_some, ih htail, List.cons_append]

end Timer

/-- What the loop of `bench` does to the timer of its thread. -/
inductive BenchEvent
  | operation (kind : OperationKind) (paused resumed : ℤ)
  | operationsElapsedTime (now : ℤ)
  | elapsedTime (now : ℤ)

namespace BenchEvent

/-- The three operations that prepare data pause the timer around it. -/
def calls : BenchEvent → List (ℤ × TimerCall)
  | operation .batchUpsert paused resumed => [(paused, .pause), (resumed, .resume)]
  | operation .batchRead paused resumed => [(paused, .pause), (resumed, .resume)]
  | operation .bulkLoad paused resumed => [(paused, .pause), (resumed, .resume)]
  | operation _ _ _ => []
  | operationsElapsedTime now => [(now, .operationsElapsedTime)]
  | elapsedTime now => [(now, .elapsedTime)]

theorem pause_resume_run {t : Timer} (h : t.state = .running) (paused resumed : ℤ) :
    ∃ replies u, t.run [(paused, .pause), (resumed, .resume)] = some (replies, u) ∧
      u.state = .running := by
  have hpause : t.pause paused =
      some { t.recalculateOperationsElapsedTime paused with state := .paused } := if_pos h
  simp only [Timer.run, Timer.call, hpause, Option.map_some, Option.bind_eq_bind,
    Option.bind_some]
  exact ⟨_, _, rfl, rfl⟩

theorem calls_run (e : BenchEvent) {t : Timer} (h : t.state = .running) :
    ∃ replies u, t.run e.calls = some (replies, u) ∧ u.state = .running := by
  cases e with
  | operation kind paused resumed =>
    cases kind with
    | batchUpsert => exact pause_resume_run h paused resumed
    | batchRead => exact pause_resume_run h paused resumed
    | bulkLoad => exact pause_resume_run h paused resumed
    | _ => exact ⟨[], t, rfl, h⟩
  | operationsElapsedTime now =>
    refine ⟨_, _, rfl, ?_⟩
    simp only [Timer.queryOperations, if_pos h]
    exact h
  | elapsedTime now =>
    have hstate : t.state ≠ .stopped := by simp [h]
    refine ⟨_, _, rfl, ?_⟩
    simp only [Timer.queryElapsed, if_pos hstate]
    exact h

theorem flatMap_calls_run (events : List BenchEvent) {t : Timer} (h : t.state = .running) :
    ∃ replies u, t.run (events.flatMap calls) = some (replies, u) ∧ u.state = .running := by
  induction events generalizing t with
  | nil => exact ⟨[], t, rfl, h⟩
  | cons e events ih =>
    obtain ⟨replies, u, hrun, hu⟩ := e.calls_run h
    obtain ⟨rest, v, hrest, hv⟩ := ih hu
    exact ⟨replies ++ rest, v, Timer.run_append hrun hrest, hv⟩

end BenchEvent

/-- All calls of `bench` on its timer. -/
def benchCalls (started : ℤ) (events : List BenchEvent) (ended : ℤ) : List (ℤ × TimerCall) :=
  (started, .start) :: (events.flatMap BenchEvent.calls ++ [(ended, .stop)])

theorem benchCalls_run (started : ℤ) (events : List BenchEvent) (ended : ℤ) {t : Timer}
    (h : t.state = .stopped) :
    ∃ replies u, t.run (benchCalls started events ended) = some (replies, u) ∧
      u.state = .stopped := by
  let fresh : Timer :=
    { elapsedTime := 0, operationsElapsedTime := 0, startTime := started,
      operationsStartTime := started, state := .running }
  have hstart : t.run [(started, .start)] = some ([none], fresh) := by
    simp only [Timer.run, Timer.call, Timer.start, if_pos h, Option.map_some,
      Option.bind_eq_bind, Option.bind_some, fresh]
  obtain ⟨replies, u, hrun, hu⟩ := BenchEvent.flatMap_calls_run events (t := fresh) rfl
  have hstop : u.run [(ended, .stop)] =
      some ([none], { u.recalculateOperationsElapsedTime ended with state := .stopped }) := by
    simp only [Timer.run, Timer.call, Timer.stop, if_pos hu, Option.map_some,
      Option.bind_eq_bind, Option.bind_some]
  exact ⟨_, _, Timer.run_append hstart (Timer.run_append hrun hstop), rfl⟩

/-- No assertion of the timer fails in `bench`, and every time the operations are asked for
it is the length of the intervals in which the timer was running. -/
theorem bench_timer_measures (started : ℤ) (events : List BenchEvent) (ended : ℤ) {t : Timer}
    (h : t.state = .stopped) :
    ∃ replies u, t.run (benchCalls started events ended) = some (replies, u) ∧
      ∀ i now, (benchCalls started events ended)[i]? = some (now, .operationsElapsedTime) →
        ∃ r, TimerRecord.ofCalls ((benchCalls started events ended).take i) = some r ∧
          replies[i]? = some (some (r.measured now)) := by
  obtain ⟨replies, u, hrun, -⟩ := benchCalls_run started events ended h
  refine ⟨replies, u, hrun, fun i now hi => ?_⟩
  obtain ⟨-, hanswers⟩ := Timer.run_answers (r := none) h hrun
  obtain ⟨reply, hreply, hanswer⟩ := hanswers i _ hi
  cases i with
  | zero => simp [benchCalls] at hi
  | succ i =>
    obtain ⟨r, hr⟩ := TimerRecord.foldl_after_isSome
      (r := ⟨.running, started, 0, started, started, started⟩)
      ((events.flatMap BenchEvent.calls ++ [(ended, TimerCall.stop)]).take i)
    have hrecord : TimerRecord.ofCalls ((benchCalls started events ended).take (i + 1)) = some r :=
      hr
    refine ⟨r, hrecord, ?_⟩
    rw [TimerRecord.ofCalls] at hrecord
    rw [hrecord] at hanswer
    rw [hreply, hanswer]

/-- A batch whose data takes from 2 to 5 to prepare, and two queries after it. -/
theorem bench_timer_measures_batch :
    ∃ replies u, ({} : Timer).run (benchCalls 0 [.operationsElapsedTime 1,
        .operation .batchUpsert 2 5, .operationsElapsedTime 9, .operationsElapsedTime 9] 10) =
          some (replies, u) ∧ replies[5]? = some (some 6) := by
  obtain ⟨replies, u, hrun, hreplies⟩ := bench_timer_measures 0 [.operationsElapsedTime 1,
    .operation .batchUpsert 2 5, .operationsElapsedTime 9, .operationsElapsedTime 9] 10
    (t := {}) rfl
  obtain ⟨r, hr, hreply⟩ := hreplies 5 9 rfl
  cases Option.some.inj hr
  exact ⟨replies, u, hrun, hreply⟩

/-- How a record of a clock that never goes back stands to the clock. -/
structure TimerRecord.InOrder (r : TimerRecord) (now : ℤ) : Prop where
  started : r.started ≤ r.seen
  seen : r.seen ≤ now
  ended : r.state = .stopped → r.seen ≤ r.ended ∧ r.total ≤ r.ended - r.started
  running : r.state = .running → r.since ≤ now ∧ r.total ≤ r.since - r.started
  total : r.total ≤ now - r.started

namespace TimerRecord

theorem InOrder.later {r : TimerRecord} {now later : ℤ} (h : r.InOrder now)
    (hlater : now ≤ later) : r.InOrder later := by
  obtain ⟨hstarted, hseen, hended, hrunning, htotal⟩ := h
  refine ⟨hstarted, by omega, hended, fun hstate => ?_, by omega⟩
  obtain ⟨hsince, hopen⟩ := hrunning hstate
  exact ⟨by omega, hopen⟩

theorem InOrder.measured_le {r : TimerRecord} {now : ℤ} (h : r.InOrder now) :
    r.measured now ≤ now - r.started := by
  unfold measured
  split
  next hstate =>
    have hopen := (h.running hstate).2
    omega
  next => exact h.total

/-- The call and the order before it are at the same reading of the clock. -/
theorem after_inOrder {r s : TimerRecord} {now : ℤ} {method : TimerCall} (h : r.InOrder now)
    (hafter : after (some r) (now, method) = some s) : s.InOrder now := by
  have hmeasured := h.measured_le
  obtain ⟨hstarted, hseen, hended, hrunning, htotal⟩ := h
  cases method with
  | start =>
    cases Option.some.inj hafter
    exact ⟨le_rfl, le_rfl, fun hstate => by simp at hstate, fun _ => ⟨le_rfl, by simp⟩, by simp⟩
  | pause =>
    cases Option.some.inj hafter
    exact ⟨hstarted, hseen, fun hstate => by simp at hstate, fun hstate => by simp at hstate,
      hmeasured⟩
  | resume =>
    cases Option.some.inj hafter
    exact ⟨hstarted, hseen, fun hstate => by simp at hstate, fun _ => ⟨le_rfl, htotal⟩, htotal⟩
  | stop =>
    cases Option.some.inj hafter
    exact ⟨hstarted, hseen, fun _ => ⟨hseen, hmeasured⟩, fun hstate => by simp at hstate,
      hmeasured⟩
  | operationsElapsedTime =>
    cases Option.some.inj hafter
    exact ⟨hstarted, hseen, hended, hrunning, htotal⟩
  | elapsedTime =>
    have heq := Option.some.inj hafter
    split at heq
    next =>
      cases heq
      exact ⟨hstarted, hseen, hended, hrunning, htotal⟩
    next hstate =>
      cases heq
      exact ⟨by simp only; omega, le_rfl, fun hstopped => absurd hstopped hstate, hrunning, htotal⟩

theorem after_none {s : TimerRecord} {c : ℤ × TimerCall} (h : after none c = some s) :
    s.InOrder c.1 := by
  obtain ⟨now, method⟩ := c
  cases method with
  | start =>
    cases Option.some.inj h
    exact ⟨le_rfl, le_rfl, fun hstate => by simp at hstate, fun _ => ⟨le_rfl, by simp⟩, by simp⟩
  | _ => simp [after] at h

theorem ofCalls_inOrder {calls : List (ℤ × TimerCall)} {s : TimerRecord} {now : ℤ}
    (hclock : (calls.map Prod.fst).Pairwise (· ≤ ·)) (hnow : ∀ c ∈ calls, c.1 ≤ now)
    (h : ofCalls calls = some s) : s.InOrder now := by
  induction calls using List.reverseRecOn generalizing s now with
  | nil => simp [ofCalls] at h
  | append_singleton calls c ih =>
    rw [List.map_append, List.pairwise_append] at hclock
    obtain ⟨hbefore, -, hlast⟩ := hclock
    have hc : c.1 ≤ now := hnow c (by simp)
    have hafter : after (ofCalls calls) c = some s := by
      simpa only [ofCalls, List.foldl_append, List.foldl_cons, List.foldl_nil] using h
    cases hr : ofCalls calls with
    | none => exact (after_none (hr ▸ hafter)).later hc
    | some r =>
      rw [hr] at hafter
      have horder : r.InOrder c.1 := ih hbefore (fun d hd =>
        hlast d.1 (List.mem_map_of_mem hd) c.1 (by simp)) hr
      exact (after_inOrder horder hafter).later hc

/-- Queries leave everything but the wall clock's last reading alone, and that too when the
timer is stopped. -/
theorem foldl_queries {queries : List (ℤ × TimerCall)} {r : TimerRecord}
    (hqueries : ∀ c ∈ queries, c.2 = .operationsElapsedTime ∨ c.2 = .elapsedTime) :
    ∃ seen, queries.foldl after (some r) = some { r with seen := seen } ∧
      (r.state = .stopped → seen = r.seen) := by
  induction queries generalizing r with
  | nil => exact ⟨r.seen, rfl, fun _ => rfl⟩
  | cons c queries ih =>
    rw [List.forall_mem_cons] at hqueries
    obtain ⟨hc, hrest⟩ := hqueries
    obtain ⟨now, method⟩ := c
    rcases hc with rfl | rfl
    · exact ih hrest
    · by_cases hstate : r.state = .stopped
      · have hsame : after (some r) (now, .elapsedTime) = some r := by simp [after, hstate]
        rw [List.foldl_cons, hsame]
        exact ih hrest
      · have hseen : after (some r) (now, .elapsedTime) = some { r with seen := now } := by
          simp [after, hstate]
        obtain ⟨seen, hfold, -⟩ := ih (r := { r with seen := now }) hrest
        rw [List.foldl_cons, hseen, hfold]
        exact ⟨seen, rfl, fun hstopped => absurd hstopped hstate⟩

end TimerRecord

/-- The time of the operations is asked for at `asked` and the wall time later in the same
state: the second is at least the first and, when the timer is stopped, the time from start
to stop, exactly when the timer is not stopped or `stop` found the wall clock up to date. -/
theorem timer_wall_dominates_iff {t u : Timer} {calls between : List (ℤ × TimerCall)}
    {asked now : ℤ} {replies : List (Option ℤ)} {r : TimerRecord} (h : t.state = .stopped)
    (hqueries : ∀ c ∈ between, c.2 = .operationsElapsedTime ∨ c.2 = .elapsedTime)
    (hclock : ((calls ++ (asked, TimerCall.operationsElapsedTime) ::
      (between ++ [(now, .elapsedTime)])).map Prod.fst).Pairwise (· ≤ ·))
    (hrun : t.run (calls ++ (asked, .operationsElapsedTime) ::
      (between ++ [(now, .elapsedTime)])) = some (replies, u))
    (hr : TimerRecord.ofCalls calls = some r) :
    ∃ operations wall, replies[calls.length]? = some (some operations) ∧
      replies[calls.length + (between.length + 1)]? = some (some wall) ∧
      ((operations ≤ wall ∧ (r.state = .stopped → wall = r.ended - r.started)) ↔
        (r.state = .stopped → r.seen = r.ended)) := by
  obtain ⟨-, hanswers⟩ := Timer.run_answers (r := none) h hrun
  obtain ⟨reply, hreply, hoperations⟩ :=
    hanswers calls.length (asked, .operationsElapsedTime) (by simp)
  obtain ⟨reply', hreply', hwall⟩ :=
    hanswers (calls.length + (between.length + 1)) (now, .elapsedTime) (by simp)
  obtain ⟨seen, hfold, hseen⟩ := TimerRecord.foldl_queries (r := r) hqueries
  have hbefore : ((calls ++ (asked, TimerCall.operationsElapsedTime) ::
      (between ++ [(now, .elapsedTime)])).take calls.length).foldl TimerRecord.after none =
        some r := by
    rw [List.take_left]
    exact hr
  have hlater : ((calls ++ (asked, TimerCall.operationsElapsedTime) ::
      (between ++ [(now, .elapsedTime)])).take (calls.length + (between.length + 1))).foldl
        TimerRecord.after none = some { r with seen := seen } := by
    rw [List.take_length_add_append, List.take_succ_cons, List.take_left, List.foldl_append,
      ← TimerRecord.ofCalls, hr, List.foldl_cons]
    exact hfold
  rw [hbefore] at hoperations
  rw [hlater] at hwall
  refine ⟨r.measured asked, TimerRecord.wall { r with seen := seen } now,
    hreply.trans (congrArg some hoperations), hreply'.trans (congrArg some hwall), ?_⟩
  rw [List.map_append, List.pairwise_append] at hclock
  obtain ⟨hbefore, hfrom, hacross⟩ := hclock
  have horder : r.InOrder asked := TimerRecord.ofCalls_inOrder hbefore
    (fun c hc => hacross c.1 (List.mem_map_of_mem hc) asked (by simp)) hr
  have hlast : asked ≤ now := (List.pairwise_cons.mp hfrom).1 now (by simp)
  have hmeasured := horder.measured_le
  unfold TimerRecord.wall
  by_cases hstate : r.state = .stopped
  · have hended := horder.ended hstate
    have htotal : r.measured asked = r.total := if_neg (by simp [hstate])
    have hkept := hseen hstate
    simp only [hstate, if_true, true_implies, htotal, hkept]
    omega
  · simp only [hstate, if_false, false_implies, and_true, iff_true]
    omega

/-- A run of five units that nobody asked for the wall time of: it is zero afterwards, less than
the time of the operations. -/
theorem timer_wall_behind :
    ∃ replies u, ({} : Timer).run [(0, .start), (5, .stop), (6, .operationsElapsedTime),
        (6, .elapsedTime)] = some (replies, u) ∧
      replies[2]? = some (some 5) ∧ replies[3]? = some (some 0) := ⟨_, _, rfl, rfl, rfl⟩

/-- Asked at the reading at which it stops, the timer tells the time from start to stop. -/
theorem timer_wall_dominates_asked :
    ∃ replies u operations wall, ({} : Timer).run [(0, .start), (2, .pause), (5, .elapsedTime),
        (5, .resume), (5, .stop), (7, .operationsElapsedTime), (8, .elapsedTime)] =
          some (replies, u) ∧
      replies[5]? = some (some operations) ∧ replies[6]? = some (some wall) ∧
      operations ≤ wall ∧ wall = 5 := by
  let calls : List (ℤ × TimerCall) :=
    [(0, .start), (2, .pause), (5, .elapsedTime), (5, .resume), (5, .stop)]
  have hqueries : ∀ c ∈ ([] : List (ℤ × TimerCall)),
      c.2 = .operationsElapsedTime ∨ c.2 = .elapsedTime := by simp
  have hclock : ((calls ++ ((7 : ℤ), TimerCall.operationsElapsedTime) ::
      ([] ++ [((8 : ℤ), TimerCall.elapsedTime)])).map Prod.fst).Pairwise (· ≤ ·) := by decide
  have hstopped : ({} : Timer).state = .stopped := rfl
  obtain ⟨operations, wall, hoperations, hwall, hiff⟩ :=
    timer_wall_dominates_iff hstopped hqueries hclock rfl rfl
  have hproperty := hiff.mpr fun _ => rfl
  exact ⟨_, _, operations, wall, rfl, hoperations, hwall, hproperty.1, hproperty.2 rfl⟩

end Ucsb
