import Ucsb.FencedSystem

namespace Ucsb

open StepSystem

/-- The workloads of a run: how many there are, the operations of each thread in each,
and whether they go through transactions. -/
structure SessionPlan (n : ℕ) where
  workloads : ℕ
  operations : ℕ → Fin n → ℕ
  transactional : Bool

/-- Where a thread is in the `bench` that opens the database. -/
inductive SessionPoint
  | opening
  | openFailed
  | openFence
  | creating
  | operating (left : ℕ)
  | unwinding
  | failed
  | committing
  | closeFence
  | closing
  | leaving
  deriving DecidableEq

structure SessionThread where
  workload : ℕ
  point : SessionPoint

/-- What the threads ask of the database. The end of a transaction commits it, and that
of a thread takes its thread-local state with it. -/
inductive SessionCall (n : ℕ)
  | open (ok : Bool)
  | createTransaction (i : Fin n) (ok : Bool)
  | use (i : Fin n)
  | commit (i : Fin n)
  | close
  | finish (i : Fin n)
  deriving DecidableEq

structure Session (n : ℕ) where
  threads : Fin n → SessionThread
  calls : List (SessionCall n)

variable {n : ℕ}

/-- What thread `i` does next, and whether it throws where it can. -/
def sessionAct (plan : SessionPlan n) (i : Fin n) (ok : Bool) (t : SessionThread) :
    Option (SessionThread × List (SessionCall n)) :=
  match t.point with
  | .opening =>
    if t.workload < plan.workloads then
      if i.val = 0 then
        some ({ t with point := if ok then .openFence else .openFailed }, [.open ok])
      else some ({ t with point := .openFence }, [])
    else none
  | .openFence =>
    some ({ t with point := if plan.transactional then .creating
      else .operating (plan.operations t.workload i) }, [])
  | .creating =>
    some ({ t with point := if ok then .operating (plan.operations t.workload i) else .failed },
      [.createTransaction i ok])
  | .operating (left + 1) =>
    some ({ t with point := if ok then .operating left else .unwinding }, [.use i])
  | .operating 0 =>
    some ({ t with point := if plan.transactional then .committing else .closeFence }, [])
  | .unwinding =>
    some ({ t with point := .failed }, if plan.transactional then [.commit i] else [])
  | .committing => some ({ t with point := .closeFence }, [.commit i])
  | .closeFence => some ({ t with point := if i.val = 0 then .closing else .leaving }, [])
  | .closing => some ({ t with point := .leaving }, [.close])
  | .leaving => some ({ workload := t.workload + 1, point := .opening }, [.finish i])
  | .openFailed | .failed => none

namespace SessionThread

/-- How often `sync` has returned to a thread in the workload it is in. -/
def stage (t : SessionThread) : ℕ :=
  match t.point with
  | .opening | .openFailed | .openFence => 0
  | .closing | .leaving => 2
  | _ => 1

def synced (t : SessionThread) : ℕ := 2 * t.workload + t.stage

def atFence (t : SessionThread) : Bool := t.point = .openFence || t.point = .closeFence

end SessionThread

/-- The transitions of `sessionAct`, one by one. -/
inductive SessionAct (plan : SessionPlan n) (i : Fin n) (t : SessionThread) :
    SessionThread → List (SessionCall n) → Prop
  | openDb (hp : t.point = .opening) (hworkload : t.workload < plan.workloads)
    (hzero : i.val = 0) : SessionAct plan i t { t with point := .openFence } [.open true]
  | openFails (hp : t.point = .opening) (hworkload : t.workload < plan.workloads)
    (hzero : i.val = 0) : SessionAct plan i t { t with point := .openFailed } [.open false]
  | skipOpen (hp : t.point = .opening) (hworkload : t.workload < plan.workloads)
    (hzero : i.val ≠ 0) : SessionAct plan i t { t with point := .openFence } []
  | begin (hp : t.point = .openFence) (htransactional : plan.transactional = true) :
    SessionAct plan i t { t with point := .creating } []
  | beginPlain (hp : t.point = .openFence) (htransactional : plan.transactional = false) :
    SessionAct plan i t { t with point := .operating (plan.operations t.workload i) } []
  | create (hp : t.point = .creating) :
    SessionAct plan i t { t with point := .operating (plan.operations t.workload i) }
      [.createTransaction i true]
  | createFails (hp : t.point = .creating) :
    SessionAct plan i t { t with point := .failed } [.createTransaction i false]
  | operate {left : ℕ} (hp : t.point = .operating (left + 1)) :
    SessionAct plan i t { t with point := .operating left } [.use i]
  | operateThrows {left : ℕ} (hp : t.point = .operating (left + 1)) :
    SessionAct plan i t { t with point := .unwinding } [.use i]
  | operated (hp : t.point = .operating 0) (htransactional : plan.transactional = true) :
    SessionAct plan i t { t with point := .committing } []
  | operatedPlain (hp : t.point = .operating 0) (htransactional : plan.transactional = false) :
    SessionAct plan i t { t with point := .closeFence } []
  | unwind (hp : t.point = .unwinding) (htransactional : plan.transactional = true) :
    SessionAct plan i t { t with point := .failed } [.commit i]
  | unwindPlain (hp : t.point = .unwinding) (htransactional : plan.transactional = false) :
    SessionAct plan i t { t with point := .failed } []
  | commit (hp : t.point = .committing) :
    SessionAct plan i t { t with point := .closeFence } [.commit i]
  | passZero (hp : t.point = .closeFence) (hzero : i.val = 0) :
    SessionAct plan i t { t with point := .closing } []
  | pass (hp : t.point = .closeFence) (hzero : i.val ≠ 0) :
    SessionAct plan i t { t with point := .leaving } []
  | close (hp : t.point = .closing) : SessionAct plan i t { t with point := .leaving } [.close]
  | leave (hp : t.point = .leaving) :
    SessionAct plan i t { workload := t.workload + 1, point := .opening } [.finish i]

section

variable {plan : SessionPlan n} {i : Fin n} {ok : Bool} {t t' : SessionThread}
  {calls : List (SessionCall n)}

theorem sessionAct_cases (h : sessionAct plan i ok t = some (t', calls)) :
    SessionAct plan i t t' calls := by
  cases hp : t.point with
  | opening =>
    simp only [sessionAct, hp, Option.ite_none_right_eq_some] at h
    obtain ⟨hworkload, h⟩ := h
    split at h
    next hzero =>
      cases ok
      · cases Option.some.inj h
        exact .openFails hp hworkload hzero
      · cases Option.some.inj h
        exact .openDb hp hworkload hzero
    next hzero =>
      cases Option.some.inj h
      exact .skipOpen hp hworkload hzero
  | openFence =>
    cases htransactional : plan.transactional <;>
    · simp only [sessionAct, hp, htransactional, Option.some.injEq, Prod.mk.injEq] at h
      obtain ⟨rfl, rfl⟩ := h
      first | exact .beginPlain hp htransactional | exact .begin hp htransactional
  | creating =>
    simp only [sessionAct, hp, Option.some.injEq, Prod.mk.injEq] at h
    obtain ⟨rfl, rfl⟩ := h
    cases ok
    · exact .createFails hp
    · exact .create hp
  | operating left =>
    cases left with
    | zero =>
      cases htransactional : plan.transactional <;>
      · simp only [sessionAct, hp, htransactional, Option.some.injEq, Prod.mk.injEq] at h
        obtain ⟨rfl, rfl⟩ := h
        first | exact .operatedPlain hp htransactional | exact .operated hp htransactional
    | succ left =>
      simp only [sessionAct, hp, Option.some.injEq, Prod.mk.injEq] at h
      obtain ⟨rfl, rfl⟩ := h
      cases ok
      · exact .operateThrows hp
      · exact .operate hp
  | unwinding =>
    cases htransactional : plan.transactional <;>
    · simp only [sessionAct, hp, htransactional, Option.some.injEq, Prod.mk.injEq] at h
      obtain ⟨rfl, rfl⟩ := h
      first | exact .unwindPlain hp htransactional | exact .unwind hp htransactional
  | closeFence =>
    simp only [sessionAct, hp, Option.some.injEq, Prod.mk.injEq] at h
    obtain ⟨rfl, rfl⟩ := h
    by_cases hzero : i.val = 0
    · simpa [hzero] using SessionAct.passZero hp hzero
    · simpa [hzero] using SessionAct.pass hp hzero
  | openFailed | failed => simp [sessionAct, hp] at h
  | committing =>
    cases (show some _ = some _ by simpa only [sessionAct, hp] using h)
    exact .commit hp
  | closing =>
    cases (show some _ = some _ by simpa only [sessionAct, hp] using h)
    exact .close hp
  | leaving =>
    cases (show some _ = some _ by simpa only [sessionAct, hp] using h)
    exact .leave hp

theorem SessionAct.syncs (h : SessionAct plan i t t' calls) :
    t'.synced = t.synced + if t.atFence then 1 else 0 := by
  cases h with
  | leave hp =>
    simp [SessionThread.synced, SessionThread.stage, SessionThread.atFence, hp]
    omega
  | _ hp => simp [SessionThread.synced, SessionThread.stage, SessionThread.atFence, hp]

end

namespace Session

variable {plan : SessionPlan n} {s s' : Session n} {event : Fin n × Bool}

def start (n : ℕ) : Session n :=
  { threads := fun _ => { workload := 0, point := .opening }, calls := [] }

def act (plan : SessionPlan n) (s : Session n) (event : Fin n × Bool) : Option (Session n) :=
  (sessionAct plan event.1 event.2 (s.threads event.1)).map fun (t, calls) =>
    { threads := Function.update s.threads event.1 t, calls := s.calls ++ calls }

theorem act_cases (h : s.act plan event = some s') : ∃ t calls,
    SessionAct plan event.1 (s.threads event.1) t calls ∧
      s' = { threads := Function.update s.threads event.1 t, calls := s.calls ++ calls } := by
  obtain ⟨⟨t, calls⟩, hact, h⟩ := Option.map_eq_some_iff.mp h
  exact ⟨t, calls, sessionAct_cases hact, h.symm⟩

/-- The threads of a run as users of the fence. -/
def fenceUser (plan : SessionPlan n) : FenceUser n (Session n) Bool where
  act := act plan
  atFence s i := (s.threads i).atFence
  synced s i := (s.threads i).synced
  synced_self h := by
    obtain ⟨t, calls, hact, rfl⟩ := act_cases h
    simpa using hact.syncs
  synced_other h hj := by
    obtain ⟨t, calls, _, rfl⟩ := act_cases h
    simp [hj]
  atFence_other h hj := by
    obtain ⟨t, calls, _, rfl⟩ := act_cases h
    simp [hj]

/-- Whoever follows the calls of every action follows those of a run. -/
theorem reaches_followed {τ : Type} (follow : τ → SessionCall n → Option τ) (first : τ)
    (Follows : Session n → τ → Prop) (hstart : Follows (start n) first)
    (hstep : ∀ s o i t calls, Reaches (fenceUser plan).ideal (fun _ _ => True) (start n) s →
      Follows s o → SessionAct plan i (s.threads i) t calls → ∃ o', run follow o calls = some o' ∧
        Follows { threads := Function.update s.threads i t, calls := s.calls ++ calls } o')
    (h : Reaches (fenceUser plan).ideal (fun _ _ => True) (start n) s) :
    ∃ o, run follow first s.calls = some o ∧ Follows s o := by
  refine h.invariant (fun s => ∃ o, run follow first s.calls = some o ∧ Follows s o)
    ⟨first, rfl, hstart⟩ fun s event s' hreach hs _ hideal => ?_
  obtain ⟨t, calls, hact, rfl⟩ := act_cases (FenceUser.ideal_cases hideal).2
  obtain ⟨o, ho, hfollows⟩ := hs
  obtain ⟨o', ho', hfollows'⟩ := hstep s o event.1 t calls hreach hfollows hact
  refine ⟨o', ?_, hfollows'⟩
  rw [run_append, ho]
  exact ho'

/-- Runs of the session with the fence as `sync` is written, in which no spurious failure
of a compare-exchange loses the reset of a counter. -/
def FencedReaches (plan : SessionPlan n) (rounds : ℕ) (f : Fenced n (Session n)) : Prop :=
  Reaches (Fenced.step (fenceUser plan) rounds) (Fenced.Survives (fenceUser plan))
    (Fenced.start (start n)) f

theorem FencedReaches.ideal {rounds : ℕ} {f : Fenced n (Session n)}
    (h : FencedReaches plan rounds f) :
    Reaches (fenceUser plan).ideal (fun _ _ => True) (start n) f.user :=
  Fenced.reaches_ideal (fun _ => rfl) h

end Session

end Ucsb
