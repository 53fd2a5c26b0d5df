import Mathlib.Logic.Relation
import Mathlib.Data.List.Induction
import Mathlib.Data.Nat.Notation

namespace StepSystem

variable {σ ε τ : Type}

/-- One step by an event that `allowed` admits in the state it is taken in. -/
def Steps (step : σ → ε → Option σ) (allowed : σ → ε → Prop) (s t : σ) : Prop :=
  ∃ e, allowed s e ∧ step s e = some t

def Reaches (step : σ → ε → Option σ) (allowed : σ → ε → Prop) (start s : σ) : Prop :=
  Relation.ReflTransGen (Steps step allowed) start s

variable {step : σ → ε → Option σ} {allowed : σ → ε → Prop} {start s : σ}

theorem Reaches.invariant (Inv : σ → Prop) (hstart : Inv start)
    (hstep : ∀ s e t, Reaches step allowed start s → Inv s → allowed s e → step s e = some t →
      Inv t)
    (h : Reaches step allowed start s) : Inv s := by
  induction h with
  | refl => exact hstart
  | tail hprefix hlast ih =>
    obtain ⟨e, hallowed, he⟩ := hlast
    exact hstep _ e _ hprefix ih hallowed he

/-- A system whose steps are steps of an abstract one, or leave its state alone,
reaches only what the abstract one reaches. -/
theorem Reaches.simulates {Step : τ → τ → Prop} (abs : σ → τ)
    (hstep : ∀ s e t, Reaches step allowed start s → allowed s e → step s e = some t →
      abs t = abs s ∨ Step (abs s) (abs t))
    (h : Reaches step allowed start s) : Relation.ReflTransGen Step (abs start) (abs s) := by
  induction h with
  | refl => exact .refl
  | tail hprefix hlast ih =>
    obtain ⟨e, hallowed, he⟩ := hlast
    rcases hstep _ e _ hprefix hallowed he with heq | habs
    · rwa [heq]
    · exact ih.tail habs

/-- The state after a list of events. -/
def run (step : σ → ε → Option σ) : σ → List ε → Option σ
  | s, [] => some s
  | s, e :: events => (step s e).bind fun t => run step t events

/-- A run of steps that are all allowed ones, in the same system or in a part of it. -/
theorem reaches_of_steps {part : σ → ε → Option σ} {t : σ} {events : List ε}
    (hpart : ∀ e ∈ events, ∀ s t, part s e = some t → allowed s e ∧ step s e = some t)
    (h : run part s events = some t) : Reaches step allowed s t := by
  induction events generalizing s with
  | nil =>
    cases Option.some.inj h
    exact .refl
  | cons e events ih =>
    obtain ⟨u, hu, hrest⟩ := Option.bind_eq_some_iff.mp h
    rw [List.forall_mem_cons] at hpart
    exact Relation.ReflTransGen.head ⟨e, hpart.1 s u hu⟩ (ih hpart.2 hrest)

theorem reaches_of_run {t : σ} {events : List ε}
    (hallowed : ∀ e ∈ events, ∀ s, allowed s e) (h : run step s events = some t) :
    Reaches step allowed s t :=
  reaches_of_steps (fun e he s _ hstep => ⟨hallowed e he s, hstep⟩) h

theorem run_append {first rest : List ε} :
    run step s (first ++ rest) = (run step s first).bind fun t => run step t rest := by
  induction first generalizing s with
  | nil => rfl
  | cons e first ih =>
    simp only [List.cons_append, run, Option.bind_assoc, ih]

/-- A run goes through where every step can be taken from what holds of the events so far. -/
theorem run_ensures {events : List ε} (Inv : List ε → σ → Prop) (hstart : Inv [] start)
    (hstep : ∀ before e after s, events = before ++ e :: after → Inv before s →
      ∃ t, step s e = some t ∧ Inv (before ++ [e]) t) (before after : List ε)
    (hevents : events = before ++ after) :
    ∃ s, run step start before = some s ∧ Inv before s := by
  induction before using List.reverseRecOn generalizing after with
  | nil => exact ⟨start, rfl, hstart⟩
  | append_singleton before e ih =>
    rw [List.append_assoc, List.singleton_append] at hevents
    obtain ⟨s, hs, hinv⟩ := ih _ hevents
    obtain ⟨t, ht, hinv'⟩ := hstep before e after s hevents hinv
    refine ⟨t, ?_, hinv'⟩
    rw [run_append, hs, Option.bind_some, run, ht]
    rfl

/-- The steps that are allowed, as a system of its own. -/
def guarded (step : σ → ε → Option σ) (allowed : σ → ε → Prop) [∀ s e, Decidable (allowed s e)]
    (s : σ) (e : ε) : Option σ :=
  if allowed s e then step s e else none

theorem reaches_of_guarded_run [∀ s e, Decidable (allowed s e)] {t : σ} {events : List ε}
    (h : run (guarded step allowed) s events = some t) : Reaches step allowed s t :=
  reaches_of_steps (fun _ _ _ _ hstep => Option.ite_none_right_eq_some.mp hstep) h

/-- A rank that every step lowers bounds the length of every run. -/
theorem run_length_le (rank : σ → ℕ) (hrank : ∀ s e t, step s e = some t → rank t < rank s)
    {t : σ} {events : List ε} (h : run step s events = some t) :
    events.length + rank t ≤ rank s := by
  induction events generalizing s with
  | nil =>
    cases Option.some.inj h
    simp
  | cons e events ih =>
    obtain ⟨u, hu, hrest⟩ := Option.bind_eq_some_iff.mp h
    have hlt := hrank s e u hu
    have hle := ih hrest
    rw [List.length_cons]
    omega

end StepSystem
