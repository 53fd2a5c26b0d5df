import Ucsb.AcknowledgedWindow
import Ucsb.RequestRun

namespace Ucsb

open CircularMarks
open AcknowledgedCounterGenerator RequestRun

/-- The calls that the key sequence of a worker makes. -/
inductive AckCall
  | generate
  | acknowledge (value : UInt64)

/-- A generator, the values it has generated, and those whose acknowledgement it has taken. -/
structure AckHistory where
  generator : AcknowledgedCounterGenerator
  generated : List UInt64 := []
  acknowledged : List UInt64 := []

namespace AckHistory

def make (start : UInt64) : AckHistory := { generator := .make start }

/-- A call returns what it throws, if it throws. -/
def step (h : AckHistory) : AckCall → Option Fault × AckHistory
  | .generate =>
    let (value, generator) := h.generator.generate
    (none, { h with generator := generator, generated := value :: h.generated })
  | .acknowledge value =>
    match h.generator.acknowledge value with
    | .error fault => (some fault, h)
    | .ok generator =>
      (none, { h with generator := generator, acknowledged := h.acknowledged ++ [value] })

/-- A generated value is acknowledged once at most. -/
def Allowed (h : AckHistory) : AckCall → Prop
  | .generate => True
  | .acknowledge value => value ∈ h.generated ∧ value ∉ h.acknowledged

/-- All values up to the last one have been acknowledged, and the next one has not. -/
def Exact (start : UInt64) (h : AckHistory) : Prop :=
  IsPrefixEnd start.toNat (numbers h.acknowledged) h.generator.last.toNat

/-- A call throws and leaves everything as it was, or the last value is exact after it. -/
def Safe (start : UInt64) (h : AckHistory) (call : AckCall) : Prop :=
  (h.step call = (some (.exception "Not enough window size"), h)) ∨
    ((h.step call).1 = none ∧ (h.step call).2.Exact start)

/-- A value is acknowledged within the window, which ends below the largest word, or its slot
is taken. -/
def Fits (h : AckHistory) : AckCall → Prop
  | .generate => True
  | .acknowledge value =>
    (h.generator.InWindow value ∧ h.generator.last.toNat + windowSize < 2 ^ 64) ∨
      h.generator.ackWindow (slot value) = true

def Follows (start : UInt64) (h : AckHistory) : Prop :=
  Tracks start (numbers h.acknowledged) h.generator

theorem Follows.exact {start : UInt64} {h : AckHistory} (hfollows : h.Follows start) :
    h.Exact start := hfollows.isPrefixEnd

/-- A fitting call is safe, and the generator follows the history again. -/
theorem Follows.step {start : UInt64} {h : AckHistory} {call : AckCall}
    (hfollows : h.Follows start) (hallowed : h.Allowed call) (hfits : h.Fits call) :
    h.Safe start call ∧ (h.step call).2.Follows start := by
  cases call with
  | generate =>
    have hnext : (h.step .generate).2.Follows start :=
      ⟨hfollows.reached, hfollows.below, hfollows.next, hfollows.marks, hfollows.near⟩
    exact ⟨Or.inr ⟨rfl, hnext.exact⟩, hnext⟩
  | acknowledge value =>
    rcases hfits with ⟨hwindow, hfit⟩ | htaken
    · have hnew : value.toNat ∉ numbers h.acknowledged := fun hold =>
        hallowed.2 (mem_numbers.mp hold)
      obtain ⟨generator, hcall, htracks⟩ := Tracks.acknowledge hfollows hwindow hfit hnew
      have hstep : h.step (.acknowledge value) = (none, { h with
          generator := generator
          acknowledged := h.acknowledged ++ [value] }) := by
        simp only [AckHistory.step, hcall]
      rw [← numbers_concat] at htracks
      rw [Safe, hstep]
      exact ⟨Or.inr ⟨rfl, htracks.isPrefixEnd⟩, htracks⟩
    · have hcall : h.generator.acknowledge value =
          .error (.exception "Not enough window size") := if_pos htaken
      have hstep : h.step (.acknowledge value) =
          (some (.exception "Not enough window size"), h) := by
        simp only [AckHistory.step, hcall]
      refine ⟨Or.inl hstep, ?_⟩
      rw [hstep]
      exact hfollows

theorem make_follows {start : UInt64} (hstart : 1 ≤ start) : (make start).Follows start := by
  have hnone : numbers (make start).acknowledged = ∅ := by simp [numbers, make]
  rw [Follows, hnone]
  exact make_tracks hstart

/-- In every run whose acknowledgements fit, the last value is exact in every state and every
call is safe. -/
theorem acknowledge_safe {start : UInt64} {calls : List AckCall} (hstart : 1 ≤ start)
    (hallowed : Throughout step Allowed (make start) calls)
    (hfits : Throughout step Fits (make start) calls) :
    Throughout step (fun h call => h.Exact start ∧ h.Safe start call) (make start) calls := by
  refine throughout_of_step ?_ (make_follows hstart) (hallowed.and hfits)
  intro h call hfollows hcall
  obtain ⟨hsafe, hnext⟩ := hfollows.step hcall.1 hcall.2
  exact ⟨⟨hfollows.exact, hsafe⟩, hnext⟩

theorem acknowledge_safe_two :
    Throughout step (fun h call => h.Exact 1 ∧ h.Safe 1 call) (make 1)
      [.generate, .generate, .acknowledge 2, .acknowledge 1] :=
  acknowledge_safe (by decide)
    ⟨trivial, trivial, ⟨by decide +kernel, by decide +kernel⟩,
      ⟨by decide +kernel, by decide +kernel⟩, trivial⟩
    ⟨trivial, trivial, Or.inl ⟨⟨by decide +kernel, by decide +kernel⟩, by decide +kernel⟩,
      Or.inl ⟨⟨by decide +kernel, by decide +kernel⟩, by decide +kernel⟩, trivial⟩

theorem generate_allowed (h : AckHistory) (n : ℕ) :
    Throughout step Allowed h (List.replicate n .generate) := by
  induction n generalizing h with
  | zero => trivial
  | succ n ih => exact ⟨trivial, ih _⟩

/-- Generating values only moves the counter. -/
theorem run_generate (h : AckHistory) (n : ℕ) :
    ∃ counter generated, (run step h (List.replicate n .generate)).2 =
      { h with
        generator := { h.generator with counter := counter }
        generated := generated } ∧
      (∀ value ∈ h.generated, value ∈ generated) ∧
      ∀ i < n, h.generator.counter + UInt64.ofNat i ∈ generated := by
  induction n generalizing h with
  | zero => exact ⟨h.generator.counter, h.generated, rfl, fun _ hold => hold, fun i hi => by omega⟩
  | succ n ih =>
    obtain ⟨counter, generated, hrun, hold, hnew⟩ := ih (h.step .generate).2
    refine ⟨counter, generated, hrun,
      fun value hvalue => hold value (List.mem_cons_of_mem _ hvalue), fun i hi => ?_⟩
    cases i with
    | zero =>
      have hfirst := hold h.generator.counter List.mem_cons_self
      have hzero : UInt64.ofNat 0 = 0 := rfl
      rwa [hzero, UInt64.add_zero]
    | succ i =>
      have hlater := hnew i (by omega)
      change h.generator.counter + 1 + UInt64.ofNat i ∈ generated at hlater
      rwa [UInt64.add_assoc, UInt64.add_comm 1, ← UInt64.ofNat_one, ← UInt64.ofNat_add] at hlater

theorem acknowledge_ahead {g : AcknowledgedCounterGenerator} (hlimit : g.limit = 0)
    (hwindow : g.ackWindow = fun _ => false) :
    ∃ g', g.acknowledge 65537 = .ok g' ∧ g'.last = 1 := by
  have hclear : ¬g.ackWindow (slot 65537) = true := by simp [hwindow]
  have hrounds : ((0 : UInt64) + UInt64.ofNat windowSize).toNat - ((0 : UInt64) + 1).toNat =
      65533 + 1 + 1 := by decide
  refine ⟨_, if_neg hclear, ?_⟩
  rw [hlimit, hwindow, hrounds, last, roll, if_pos (by decide), roll, if_neg (by decide)]
  rfl

/-- A value that is acknowledged a whole window ahead takes the slot of the first value, which
then counts as acknowledged. -/
theorem acknowledge_passes :
    Throughout step Allowed (make 1)
        (List.replicate 65537 .generate ++ [.acknowledge 65537]) ∧
      ¬Throughout step (fun h call => h.Exact 1 ∧ h.Safe 1 call) (make 1)
        (List.replicate 65537 .generate ++ [.acknowledge 65537]) := by
  obtain ⟨counter, generated, hrun, -, hgenerated⟩ := run_generate (make 1) 65537
  rw [throughout_append, throughout_append, hrun]
  have hmem : (65537 : UInt64) ∈ generated := hgenerated 65536 (by omega)
  refine ⟨⟨generate_allowed _ _, ⟨hmem, List.not_mem_nil⟩, trivial⟩, ?_⟩
  obtain ⟨g, hcall, hlast⟩ := @acknowledge_ahead
    { (make 1).generator with counter := counter } rfl rfl
  rintro ⟨-, ⟨-, hsafe⟩, -⟩
  simp only [Safe, step, hcall] at hsafe
  rcases hsafe with hthrown | ⟨-, hexact⟩
  · have hreply := congrArg Prod.fst hthrown
    cases hreply
  · have hone : g.last.toNat = 1 := congrArg UInt64.toNat hlast
    obtain ⟨v, hv, heq⟩ := hexact.1.2 1 le_rfl hone.ge
    cases List.mem_singleton.mp hv
    exact absurd heq (by decide)

end AckHistory

end Ucsb
