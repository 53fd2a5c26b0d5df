import Mathlib.Data.List.Forall2

namespace RequestRun

variable {σ τ ο ρ ρ' : Type}

/-- The replies to a list of requests in their order, and the state after them. -/
def run (step : σ → ο → ρ × σ) : σ → List ο → List ρ × σ
  | s, [] => ([], s)
  | s, op :: ops =>
    ((step s op).1 :: (run step (step s op).2 ops).1, (run step (step s op).2 ops).2)

/-- Every request of the run meets `P` in the state it is made in. -/
def Throughout (step : σ → ο → ρ × σ) (P : σ → ο → Prop) : σ → List ο → Prop
  | _, [] => True
  | s, op :: ops => P s op ∧ Throughout step P (step s op).2 ops

/-- A machine and its specification answer every request of the run alike, and are
in related states after it. -/
def Agree (step : σ → ο → ρ × σ) (spec : τ → ο → ρ' × τ) (answers : ρ → ρ' → Prop)
    (R : σ → τ → Prop) : σ → τ → List ο → Prop
  | _, _, [] => True
  | s, t, op :: ops => (answers (step s op).1 (spec t op).1 ∧ R (step s op).2 (spec t op).2) ∧
      Agree step spec answers R (step s op).2 (spec t op).2 ops

variable {step : σ → ο → ρ × σ} {spec : τ → ο → ρ' × τ} {answers : ρ → ρ' → Prop}
  {R : σ → τ → Prop} {s : σ} {t : τ} {ops : List ο}

theorem Throughout.congr {P Q : σ → ο → Prop} (h : ∀ op ∈ ops, ∀ s, P s op ↔ Q s op) :
    Throughout step P s ops ↔ Throughout step Q s ops := by
  induction ops generalizing s with
  | nil => exact Iff.rfl
  | cons op ops ih =>
    rw [List.forall_mem_cons] at h
    exact and_congr (h.1 s) (ih h.2)

theorem Throughout.and {P Q : σ → ο → Prop} (hP : Throughout step P s ops)
    (hQ : Throughout step Q s ops) : Throughout step (fun s op => P s op ∧ Q s op) s ops := by
  induction ops generalizing s with
  | nil => trivial
  | cons op ops ih => exact ⟨⟨hP.1, hQ.1⟩, ih hP.2 hQ.2⟩

theorem throughout_append {P : σ → ο → Prop} {later : List ο} :
    Throughout step P s (ops ++ later) ↔
      Throughout step P s ops ∧ Throughout step P (run step s ops).2 later := by
  induction ops generalizing s with
  | nil => exact (and_iff_right trivial).symm
  | cons op ops ih => exact (and_congr_right fun _ => ih).trans and_assoc.symm

/-- What a step keeps, when its request is admitted, makes every admitted run right. -/
theorem throughout_of_step {I : σ → Prop} {P Q : σ → ο → Prop}
    (hstep : ∀ s op, I s → Q s op → P s op ∧ I (step s op).2) (hstart : I s)
    (h : Throughout step Q s ops) : Throughout step P s ops := by
  induction ops generalizing s with
  | nil => trivial
  | cons op ops ih =>
    obtain ⟨hfirst, hnext⟩ := hstep s op hstart h.1
    exact ⟨hfirst, ih hnext h.2⟩

theorem throughout_of_mem {P : ο → Prop} (h : ∀ op ∈ ops, P op) :
    Throughout step (fun _ op => P op) s ops := by
  induction ops generalizing s with
  | nil => trivial
  | cons op ops ih =>
    rw [List.forall_mem_cons] at h
    exact ⟨h.1, ih h.2⟩

/-- What the steps of a run keep holds after it. -/
theorem run_of_step {I : σ → Prop} {Q : σ → ο → Prop}
    (hstep : ∀ s op, I s → Q s op → I (step s op).2) (hstart : I s)
    (h : Throughout step Q s ops) : I (run step s ops).2 := by
  induction ops generalizing s with
  | nil => exact hstart
  | cons op ops ih => exact ih (hstep s op hstart h.1) h.2

/-- A step rule that holds in all states with an invariant holds for every run from one. -/
theorem throughout_iff_of_step {I : σ → Prop} {P Q : σ → ο → Prop}
    (hstep : ∀ s op, I s → (P s op ↔ Q s op) ∧ I (step s op).2) (hstart : I s) :
    Throughout step P s ops ↔ Throughout step Q s ops := by
  induction ops generalizing s with
  | nil => exact Iff.rfl
  | cons op ops ih =>
    obtain ⟨hfirst, hnext⟩ := hstep s op hstart
    exact and_congr hfirst (ih hnext)

/-- A step rule that holds in all related states decides for every run whether the
machine follows its specification. -/
theorem agree_iff {P : τ → ο → Prop}
    (hstep : ∀ s t op, R s t →
      ((answers (step s op).1 (spec t op).1 ∧ R (step s op).2 (spec t op).2) ↔ P t op))
    (hstart : R s t) : Agree step spec answers R s t ops ↔ Throughout spec P t ops := by
  induction ops generalizing s t with
  | nil => exact Iff.rfl
  | cons op ops ih =>
    constructor
    · rintro ⟨hfirst, hrest⟩
      exact ⟨(hstep s t op hstart).mp hfirst, (ih hfirst.2).mp hrest⟩
    · rintro ⟨hfirst, hrest⟩
      have hnext := (hstep s t op hstart).mpr hfirst
      exact ⟨hnext, (ih hnext.2).mpr hrest⟩

/-- The same for requests that keep to an interface. -/
theorem agree_iff_admitted {P : τ → ο → Prop} {admitted : ο → Prop}
    (hstep : ∀ s t op, R s t → admitted op →
      ((answers (step s op).1 (spec t op).1 ∧ R (step s op).2 (spec t op).2) ↔ P t op))
    (hstart : R s t) (hops : ∀ op ∈ ops, admitted op) :
    Agree step spec answers R s t ops ↔ Throughout spec P t ops := by
  induction ops generalizing s t with
  | nil => exact Iff.rfl
  | cons op ops ih =>
    rw [List.forall_mem_cons] at hops
    have hfirst := hstep s t op hstart hops.1
    constructor
    · rintro ⟨hnow, hrest⟩
      exact ⟨hfirst.mp hnow, (ih hnow.2 hops.2).mp hrest⟩
    · rintro ⟨hnow, hrest⟩
      have hnext := hfirst.mpr hnow
      exact ⟨hnext, (ih hnext.2 hops.2).mpr hrest⟩

/-- The same by a rule on the states of the machine, in runs that keep to an interface. -/
theorem agree_iff_within {P Q : σ → ο → Prop}
    (hstep : ∀ s t op, R s t → Q s op →
      ((answers (step s op).1 (spec t op).1 ∧ R (step s op).2 (spec t op).2) ↔ P s op))
    (hstart : R s t) (hops : Throughout step Q s ops) :
    Agree step spec answers R s t ops ↔ Throughout step P s ops := by
  induction ops generalizing s t with
  | nil => exact Iff.rfl
  | cons op ops ih =>
    have hfirst := hstep s t op hstart hops.1
    constructor
    · rintro ⟨hnow, hrest⟩
      exact ⟨hfirst.mp hnow, (ih hnow.2 hops.2).mp hrest⟩
    · rintro ⟨hnow, hrest⟩
      have hnext := hfirst.mpr hnow
      exact ⟨hnext, (ih hnext.2 hops.2).mpr hrest⟩

theorem agree_iff_machine {P : σ → ο → Prop} {admitted : ο → Prop}
    (hstep : ∀ s t op, R s t → admitted op →
      ((answers (step s op).1 (spec t op).1 ∧ R (step s op).2 (spec t op).2) ↔ P s op))
    (hstart : R s t) (hops : ∀ op ∈ ops, admitted op) :
    Agree step spec answers R s t ops ↔ Throughout step P s ops :=
  agree_iff_within hstep hstart (throughout_of_mem hops)

theorem agree_of_step {admitted : ο → Prop}
    (hstep : ∀ s t op, R s t → admitted op →
      answers (step s op).1 (spec t op).1 ∧ R (step s op).2 (spec t op).2)
    (hstart : R s t) (hops : ∀ op ∈ ops, admitted op) : Agree step spec answers R s t ops := by
  induction ops generalizing s t with
  | nil => trivial
  | cons op ops ih =>
    rw [List.forall_mem_cons] at hops
    have hnext := hstep s t op hstart hops.1
    exact ⟨hnext, ih hnext.2 hops.2⟩

theorem Agree.final (h : Agree step spec answers R s t ops) (hstart : R s t) :
    R (run step s ops).2 (run spec t ops).2 := by
  induction ops generalizing s t with
  | nil => exact hstart
  | cons op ops ih => exact ih h.2 h.1.2

theorem Agree.replies (h : Agree step spec answers R s t ops) :
    List.Forall₂ answers (run step s ops).1 (run spec t ops).1 := by
  induction ops generalizing s t with
  | nil => exact .nil
  | cons op ops ih => exact .cons h.1.1 (ih h.2)

/-- Replies that are translated ones of the specification's. -/
theorem Agree.replies_eq {f : ρ' → ρ} (h : Agree step spec (fun r r' => r = f r') R s t ops) :
    (run step s ops).1 = (run spec t ops).1.map f := by
  induction ops generalizing s t with
  | nil => rfl
  | cons op ops ih => simp only [run, List.map_cons, h.1.1, ih h.2]

/-- What every step from a state with an invariant answers, a run from one answers. -/
theorem forall₂_of_step {I : σ → Prop} {Q : ο → Prop} {P : ο → ρ → Prop}
    (hstep : ∀ s op, I s → Q op → P op (step s op).1 ∧ I (step s op).2) (hstart : I s)
    (hops : ∀ op ∈ ops, Q op) : List.Forall₂ P ops (run step s ops).1 := by
  induction ops generalizing s with
  | nil => exact .nil
  | cons op ops ih =>
    rw [List.forall_mem_cons] at hops
    obtain ⟨hfirst, hnext⟩ := hstep s op hstart hops.1
    exact .cons hfirst (ih hnext hops.2)

/-- Steps that are the same in the states with an invariant run the same from one. -/
theorem run_eq_of_step {other : σ → ο → ρ × σ} {I : σ → Prop} {Q : ο → Prop}
    (hstep : ∀ s op, I s → Q op → step s op = other s op ∧ I (step s op).2) (hstart : I s)
    (hops : ∀ op ∈ ops, Q op) : run step s ops = run other s ops := by
  induction ops generalizing s with
  | nil => rfl
  | cons op ops ih =>
    rw [List.forall_mem_cons] at hops
    obtain ⟨hsame, hnext⟩ := hstep s op hstart hops.1
    rw [run, run, ih hnext hops.2, hsame]

theorem length_replies : (run step s ops).1.length = ops.length := by
  induction ops generalizing s with
  | nil => rfl
  | cons op ops ih => simp only [run, List.length_cons, ih]

theorem run_map {ο' : Type} {f : ο' → ο} {ops : List ο'} :
    run step s (ops.map f) = run (fun s op => step s (f op)) s ops := by
  induction ops generalizing s with
  | nil => rfl
  | cons op ops ih => simp only [List.map_cons, run, ih]

end RequestRun
