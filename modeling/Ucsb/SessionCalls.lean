import Mathlib.Algebra.BigOperators.Group.Finset.Basic
import Ucsb.Session

namespace Ucsb

open StepSystem

variable {n : ℕ}

/-- What a database has to know of its callers: whether it is open, and which threads
have a transaction. -/
structure SessionDb (n : ℕ) where
  isOpen : Bool
  live : Fin n → Bool

namespace SessionDb

def closed (n : ℕ) : SessionDb n := { isOpen := false, live := fun _ => false }

def setLive (db : SessionDb n) (i : Fin n) (live : Bool) : SessionDb n :=
  { db with live := Function.update db.live i live }

/-- The calls in order: the database is opened when closed and closed when open, neither
with a transaction left, and used in between through the caller's transaction if there
are to be any. -/
def take (transactional : Bool) (db : SessionDb n) (call : SessionCall n) :
    Option (SessionDb n) :=
  match call with
  | .open ok =>
    if db.isOpen = false ∧ ∀ i, db.live i = false then some { db with isOpen := ok } else none
  | .createTransaction i ok =>
    if db.isOpen = true ∧ db.live i = false ∧ transactional = true then some (db.setLive i ok)
    else none
  | .use i => if db.isOpen = true ∧ db.live i = transactional then some db else none
  | .commit i => if db.isOpen = true ∧ db.live i = true then some (db.setLive i false) else none
  | .close =>
    if db.isOpen = true ∧ ∀ i, db.live i = false then some { db with isOpen := false } else none
  | .finish i => if db.live i = false then some db else none

end SessionDb

namespace SessionThread

/-- With a transaction of its own. -/
def inTransaction (plan : SessionPlan n) (t : SessionThread) : Bool :=
  match t.point with
  | .operating _ | .unwinding | .committing => plan.transactional
  | _ => false

/-- Where thread 0 has the database open. -/
def opened (t : SessionThread) : Bool :=
  match t.point with
  | .opening | .openFailed | .leaving => false
  | _ => true

/-- What a thread's own state is worth at its point. -/
structure Local (plan : SessionPlan n) (i : Fin n) (t : SessionThread) : Prop where
  workload_le : t.workload ≤ plan.workloads
  workload_lt : t.point ≠ .opening → t.workload < plan.workloads
  transactional : t.point = .creating ∨ t.point = .committing → plan.transactional = true
  zero : t.point = .openFailed ∨ t.point = .closing → i.val = 0
  left_le : ∀ left, t.point = .operating left → left ≤ plan.operations t.workload i

/-- Neither thrown out of the run nor about to be. -/
def Well (t : SessionThread) : Prop :=
  t.point ≠ .openFailed ∧ t.point ≠ .unwinding ∧ t.point ≠ .failed

/-- The operations a thread has asked for by its place in the plan. -/
def asked (plan : SessionPlan n) (i : Fin n) (t : SessionThread) : ℕ :=
  ∑ k ∈ Finset.range t.workload, plan.operations k i +
    match t.point with
    | .operating left => plan.operations t.workload i - left
    | .committing | .closeFence | .closing | .leaving => plan.operations t.workload i
    | _ => 0

end SessionThread

section

variable {plan : SessionPlan n} {i : Fin n} {t t' : SessionThread} {calls : List (SessionCall n)}

theorem SessionAct.keeps_local (ht : t.Local plan i) (h : SessionAct plan i t t' calls) :
    t'.Local plan i := by
  obtain ⟨hle, hlt, htransactional, hzero, hleft⟩ := ht
  cases h with
  | operate hp | operateThrows hp =>
    have hle' := hleft _ hp
    constructor <;> simp_all <;> omega
  | leave hp =>
    exact ⟨hlt (by simp [hp]), fun h => absurd rfl h, by simp, by simp, by simp⟩
  | _ hp => constructor <;> simp_all

theorem SessionAct.count_use (ht : t.Local plan i) (h : SessionAct plan i t t' calls)
    (hwell : t'.Well) : t.Well ∧ t.asked plan i + calls.count (.use i) = t'.asked plan i := by
  have hleft := ht.left_le
  cases h with
  | openFails | createFails | operateThrows | unwind | unwindPlain =>
    simp [SessionThread.Well] at hwell
  | operate hp =>
    have hle := hleft _ hp
    refine ⟨by simp [SessionThread.Well, hp], ?_⟩
    simp [SessionThread.asked, hp]
    omega
  | leave hp =>
    refine ⟨by simp [SessionThread.Well, hp], ?_⟩
    simp [SessionThread.asked, hp, Finset.sum_range_succ]
  | _ hp => exact ⟨by simp [SessionThread.Well, hp], by simp [SessionThread.asked, hp]⟩

theorem SessionAct.count_use_other (h : SessionAct plan i t t' calls) {j : Fin n} (hj : j ≠ i) :
    calls.count (.use j) = 0 := by
  cases h <;> simp [Ne.symm hj]

end

namespace Session

variable {plan : SessionPlan n} {s s' : Session n} {event : Fin n × Bool} {zero i : Fin n}

/-- The threads are apart by no more than the fence allows. -/
structure Apart (s : Session n) (plan : SessionPlan n) : Prop where
  synced_le : ∀ i j, (fenceUser plan).synced s i ≤ (fenceUser plan).arrived s j
  locals : ∀ i, (s.threads i).Local plan i

theorem reaches_apart (h : Reaches (fenceUser plan).ideal (fun _ _ => True) (start n) s) :
    s.Apart plan := by
  refine ⟨FenceUser.reaches_synced_le (fun i => rfl) h, fun i => ?_⟩
  refine h.invariant (fun s => ∀ i, (s.threads i).Local plan i) (fun i => ?_)
    (fun s event s' _ hs _ hstep j => ?_) i
  · exact ⟨Nat.zero_le _, by simp [start], by simp [start], by simp [start], by simp [start]⟩
  · obtain ⟨t, calls, hact, rfl⟩ := act_cases (FenceUser.ideal_cases hstep).2
    by_cases hj : j = event.1
    · subst hj
      simpa using hact.keeps_local (hs _)
    · simpa [hj] using hs j

/-- Between the fences of a workload a thread finds thread 0 there as well, or at the first. -/
theorem Apart.using_open (h : s.Apart plan) (hstage : (s.threads i).stage = 1)
    (hpoint : (s.threads i).point ≠ .closeFence) (j : Fin n) :
    (s.threads j).workload = (s.threads i).workload ∧
      ((s.threads j).point = .openFence ∨ (s.threads j).stage = 1) := by
  have hto := h.synced_le i j
  have hfrom := h.synced_le j i
  have hat : (s.threads i).atFence = false := by
    cases hp : (s.threads i).point <;>
      simp [SessionThread.stage, SessionThread.atFence, hp] at hstage hpoint ⊢
  simp only [FenceUser.arrived, fenceUser, SessionThread.synced, hstage, hat] at hto hfrom
  cases hp : (s.threads j).point <;>
    simp [SessionThread.stage, SessionThread.atFence, hp] at hto hfrom ⊢ <;> omega

/-- The database as the callers leave it. -/
def db (s : Session n) (plan : SessionPlan n) (zero : Fin n) : SessionDb n :=
  { isOpen := (s.threads zero).opened, live := fun i => (s.threads i).inTransaction plan }

theorem db_update (s : Session n) (i : Fin n) (t : SessionThread)
    (calls : List (SessionCall n)) :
    db { threads := Function.update s.threads i t, calls := calls } plan zero =
      { isOpen := if i = zero then t.opened else (s.threads zero).opened
        live := Function.update (s.db plan zero).live i (t.inTransaction plan) } := by
  have hopened : (Function.update s.threads i t zero).opened =
      if i = zero then t.opened else (s.threads zero).opened := by
    by_cases hi : i = zero
    · rw [if_pos hi, hi, Function.update_self]
    · rw [if_neg hi, Function.update_of_ne (Ne.symm hi)]
  have hlive : (fun j => (Function.update s.threads i t j).inTransaction plan) =
      Function.update (s.db plan zero).live i (t.inTransaction plan) := by
    funext j
    by_cases hj : j = i
    · rw [hj, Function.update_self, Function.update_self]
    · rw [Function.update_of_ne hj, Function.update_of_ne hj]
      rfl
  simp only [db, hopened, hlive]

theorem db_setLive {t : SessionThread} {calls : List (SessionCall n)}
    (h : i = zero → t.opened = (s.threads i).opened) :
    db { threads := Function.update s.threads i t, calls := calls } plan zero =
      (s.db plan zero).setLive i (t.inTransaction plan) := by
  have hopened : (if i = zero then t.opened else (s.threads zero).opened) =
      (s.threads zero).opened := by
    split
    next hi => rw [h hi, hi]
    next => rfl
  rw [db_update, hopened]
  rfl

theorem db_setOpen {t : SessionThread} {calls : List (SessionCall n)}
    (h : t.inTransaction plan = (s.threads i).inTransaction plan) :
    db { threads := Function.update s.threads i t, calls := calls } plan zero =
      { s.db plan zero with
        isOpen := if i = zero then t.opened else (s.threads zero).opened } := by
  have hlive : Function.update (s.db plan zero).live i (t.inTransaction plan) =
      (s.db plan zero).live := by
    rw [h]
    exact Function.update_eq_self i (s.db plan zero).live
  rw [db_update, hlive]

theorem db_same {t : SessionThread} {calls : List (SessionCall n)}
    (hopened : i = zero → t.opened = (s.threads i).opened)
    (hlive : t.inTransaction plan = (s.threads i).inTransaction plan) :
    db { threads := Function.update s.threads i t, calls := calls } plan zero =
      s.db plan zero := by
  rw [db_setLive hopened, SessionDb.setLive, hlive]
  have hself := Function.update_eq_self i (s.db plan zero).live
  exact congrArg (fun live => { s.db plan zero with live := live }) hself

/-- A thread between the fences that is not through with its work uses an open database. -/
theorem Apart.isOpen (h : s.Apart plan) (zero : Fin n) (hstage : (s.threads i).stage = 1)
    (hpoint : (s.threads i).point ≠ .closeFence) : (s.db plan zero).isOpen = true := by
  obtain ⟨_, hzero⟩ := h.using_open hstage hpoint zero
  unfold db SessionThread.opened
  unfold SessionThread.stage at hzero
  cases hp : (s.threads zero).point <;> simp [hp] at hzero ⊢

/-- Where thread 0 is not between the fences nobody has a transaction. -/
theorem Apart.none_live (h : s.Apart plan)
    (hzero : (s.threads zero).point ≠ .openFence ∧ (s.threads zero).stage ≠ 1) (i : Fin n) :
    (s.db plan zero).live i = false := by
  by_contra hlive
  have hp : (s.threads i).stage = 1 ∧ (s.threads i).point ≠ .closeFence := by
    unfold db SessionThread.inTransaction at hlive
    unfold SessionThread.stage
    cases hp : (s.threads i).point <;> simp [hp] at hlive ⊢
  rcases (h.using_open hp.1 hp.2 zero).2 with hother | hother
  · exact hzero.1 hother
  · exact hzero.2 hother

/-- The database takes the calls of every action. -/
theorem Apart.takes (h : s.Apart plan) (hzero : zero.val = 0) {t : SessionThread}
    {calls : List (SessionCall n)} (hact : SessionAct plan i (s.threads i) t calls) :
    run (SessionDb.take plan.transactional) (s.db plan zero) calls =
      some (db { threads := Function.update s.threads i t, calls := s.calls ++ calls } plan
        zero) := by
  have hlocal := h.locals i
  have hother : i.val ≠ 0 → i ≠ zero := fun hne heq => hne (heq ▸ hzero)
  have hself : i.val = 0 → i = zero := fun heq => Fin.ext (heq.trans hzero.symm)
  have hlive : ∀ live, (s.threads i).inTransaction plan = live →
      (s.db plan zero).live i = live := fun _ heq => heq
  cases hact with
  | skipOpen hp _ hi | pass hp hi =>
    rw [db_same (fun heq => absurd heq (hother hi)) (by simp [SessionThread.inTransaction, hp])]
    rfl
  | begin hp | operated hp | unwindPlain hp | passZero hp =>
    rw [db_same (fun _ => by simp [SessionThread.opened, hp])
      (by simp_all [SessionThread.inTransaction])]
    rfl
  | beginPlain hp htransactional | operatedPlain hp htransactional =>
    rw [db_same (fun _ => by simp [SessionThread.opened, hp])
      (by simp [SessionThread.inTransaction, hp, htransactional])]
    rfl
  | openDb hp _ hi | openFails hp _ hi =>
    obtain rfl := hself hi
    have hnone : ∀ j, (s.db plan i).live j = false :=
      h.none_live (by simp [SessionThread.stage, hp])
    have hclosed : (s.db plan i).isOpen = false := by simp [db, SessionThread.opened, hp]
    rw [db_setOpen (by simp [SessionThread.inTransaction, hp]), if_pos rfl]
    simp only [run, SessionDb.take, if_pos (And.intro hclosed hnone), Option.bind_some]
    rfl
  | create hp | createFails hp =>
    have hopen := h.isOpen zero (i := i) (by simp [SessionThread.stage, hp])
      (by simp [hp])
    have htransactional := hlocal.transactional (.inl hp)
    have hfree := hlive false (by simp [SessionThread.inTransaction, hp])
    rw [db_setLive fun _ => by simp [SessionThread.opened, hp]]
    simp [run, SessionDb.take, hopen, hfree, htransactional, SessionThread.inTransaction]
  | operate hp | operateThrows hp =>
    have hopen := h.isOpen zero (i := i) (by simp [SessionThread.stage, hp])
      (by simp [hp])
    have hown := hlive plan.transactional (by simp [SessionThread.inTransaction, hp])
    rw [db_same (fun _ => by simp [SessionThread.opened, hp])
      (by simp [SessionThread.inTransaction, hp])]
    simp [run, SessionDb.take, hopen, hown]
  | unwind hp htransactional =>
    have hopen := h.isOpen zero (i := i) (by simp [SessionThread.stage, hp])
      (by simp [hp])
    have hown := hlive true (by simp [SessionThread.inTransaction, hp, htransactional])
    rw [db_setLive fun _ => by simp [SessionThread.opened, hp]]
    simp [run, SessionDb.take, hopen, hown, SessionThread.inTransaction]
  | commit hp =>
    have hopen := h.isOpen zero (i := i) (by simp [SessionThread.stage, hp])
      (by simp [hp])
    have htransactional := hlocal.transactional (.inr hp)
    have hown := hlive true (by simp [SessionThread.inTransaction, hp, htransactional])
    rw [db_setLive fun _ => by simp [SessionThread.opened, hp]]
    simp [run, SessionDb.take, hopen, hown, SessionThread.inTransaction]
  | close hp =>
    obtain rfl := hself (hlocal.zero (.inr hp))
    have hnone : ∀ j, (s.db plan i).live j = false :=
      h.none_live (by simp [SessionThread.stage, hp])
    have hopen : (s.db plan i).isOpen = true := by simp [db, SessionThread.opened, hp]
    rw [db_setOpen (by simp [SessionThread.inTransaction, hp]), if_pos rfl]
    simp only [run, SessionDb.take, if_pos (And.intro hopen hnone), Option.bind_some]
    rfl
  | leave hp =>
    have hfree := hlive false (by simp [SessionThread.inTransaction, hp])
    rw [db_same (fun _ => by simp [SessionThread.opened, hp])
      (by simp [SessionThread.inTransaction, hp])]
    simp [run, SessionDb.take, hfree]

theorem reaches_asked (h : Reaches (fenceUser plan).ideal (fun _ _ => True) (start n) s)
    (i : Fin n) (hwell : (s.threads i).Well) :
    s.calls.count (.use i) = (s.threads i).asked plan i := by
  refine h.invariant (fun s => ∀ i, (s.threads i).Well →
    s.calls.count (.use i) = (s.threads i).asked plan i) (fun i _ => rfl)
    (fun s event s' hreach hs _ hstep j hwell => ?_) i hwell
  obtain ⟨t, calls, hact, rfl⟩ := act_cases (FenceUser.ideal_cases hstep).2
  by_cases hj : j = event.1
  · subst hj
    simp only [Function.update_self] at hwell ⊢
    obtain ⟨hbefore, hcount⟩ := hact.count_use ((reaches_apart hreach).locals _) hwell
    rw [List.count_append, hs _ hbefore, hcount]
  · simp only [Function.update_of_ne hj] at hwell ⊢
    rw [List.count_append, hs j hwell, hact.count_use_other hj, Nat.add_zero]

/-- However the threads interleave at the fence as it is built, while `Fenced.Survives`
holds of their steps, the database is opened, used and closed in turn, no transaction
outlives the work of its thread, and every operation of the plan is asked for once. -/
theorem session_calls_legal {rounds : ℕ} {f : Fenced n (Session n)} {zero : Fin n}
    (hzero : zero.val = 0) (h : FencedReaches plan rounds f) :
    run (SessionDb.take plan.transactional) (.closed n) f.user.calls =
      some (f.user.db plan zero) ∧
    ∀ i, (f.user.threads i).Well →
      f.user.calls.count (.use i) = (f.user.threads i).asked plan i := by
  have hideal := h.ideal
  refine ⟨?_, reaches_asked hideal⟩
  obtain ⟨_, hrun, rfl⟩ := reaches_followed (SessionDb.take plan.transactional) (.closed n)
    (fun s o => o = s.db plan zero) rfl (fun s o i t calls hreach ho hact => by
      subst ho
      exact ⟨_, (reaches_apart hreach).takes hzero hact, rfl⟩) hideal
  exact hrun

/-- Two workloads of one operation for each of two threads. -/
def twoWorkloads : SessionPlan 2 :=
  { workloads := 2, operations := fun _ _ => 1, transactional := true }

/-- Both threads in turn, until they are through. -/
def bothThrough : List (Fin 2 × Bool × Bool) :=
  let both := List.finRange 2
  (List.replicate 44 both ++ List.replicate 2 (both.take 1)).flatten.map fun i => (i, true, false)

theorem reaches_of_bothThrough {f : Fenced 2 (Session 2)}
    (h : run (Fenced.step (fenceUser twoWorkloads) 4) (Fenced.start (start 2)) bothThrough =
      some f) : FencedReaches twoWorkloads 4 f := by
  have hstrong : ∀ event ∈ bothThrough, event.2.2 = false := by
    intro event hevent
    obtain ⟨i, _, rfl⟩ := List.mem_map.mp hevent
    rfl
  exact Fenced.reaches_of_strong (reaches_of_run (fun event hevent _ => hstrong event hevent) h)

theorem bothThrough_session_calls_legal : ∃ f,
    run (Fenced.step (fenceUser twoWorkloads) 4) (Fenced.start (start 2)) bothThrough = some f ∧
    run (SessionDb.take true) (.closed 2) f.user.calls = some (f.user.db twoWorkloads 0) ∧
    f.user.calls.count (.use 1) = 2 := by
  have hrun : ∃ f, run (Fenced.step (fenceUser twoWorkloads) 4) (Fenced.start (start 2))
      bothThrough = some f ∧ f.user.threads 1 = { workload := 2, point := .opening } :=
    ⟨_, rfl, rfl⟩
  obtain ⟨f, hf, hone⟩ := hrun
  have hzero : (0 : Fin 2).val = 0 := rfl
  have hlegal := session_calls_legal hzero (reaches_of_bothThrough hf)
  have hcount := hlegal.2 1 (by simp [hone, SessionThread.Well])
  refine ⟨f, hf, hlegal.1, hcount.trans ?_⟩
  simp [hone, SessionThread.asked, twoWorkloads]

end Session

end Ucsb
