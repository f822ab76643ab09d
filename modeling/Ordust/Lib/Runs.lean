import Mathlib.Data.List.Basic
import Mathlib.Data.List.Induction

/-!
# Runs of a machine

A machine takes one input at a time and answers each. What holds at the start, and is kept by
a step, holds after every run.
-/

namespace Runs

variable {σ ι ρ : Type}

/-- The answers to the inputs, in order, and the last state. -/
def run (step : σ → ι → ρ × σ) (s : σ) : List ι → List ρ × σ
  | [] => ([], s)
  | i :: is =>
    let (out, s) := step s i
    let (outs, s) := run step s is
    (out :: outs, s)

variable {step : σ → ι → ρ × σ}

@[simp] theorem run_nil (s : σ) : run step s [] = ([], s) := rfl

@[simp] theorem run_cons (s : σ) (i : ι) (is : List ι) :
    run step s (i :: is) =
      ((step s i).1 :: (run step (step s i).2 is).1, (run step (step s i).2 is).2) := rfl

theorem run_append (s : σ) (is js : List ι) :
    run step s (is ++ js) = ((run step s is).1 ++ (run step (run step s is).2 js).1,
      (run step (run step s is).2 js).2) := by
  induction is generalizing s with
  | nil => rfl
  | cons i is ih => simp [ih]

theorem length_run (s : σ) (is : List ι) : (run step s is).1.length = is.length := by
  induction is generalizing s with
  | nil => rfl
  | cons i is ih => simp [ih]

theorem run_invariant (P : σ → Prop) (hstep : ∀ s i, P s → P (step s i).2) (s : σ) (is : List ι)
    (h : P s) : P (run step s is).2 := by
  induction is generalizing s with
  | nil => exact h
  | cons i is ih => exact ih _ (hstep s i h)

theorem run_history (P : List ρ → σ → Prop)
    (hstep : ∀ outs s i, P outs s → P (outs ++ [(step s i).1]) (step s i).2)
    (outs : List ρ) (s : σ) (is : List ι) (h : P outs s) :
    P (outs ++ (run step s is).1) (run step s is).2 := by
  induction is generalizing outs s with
  | nil => simpa using h
  | cons i is ih => simpa using ih _ _ (hstep outs s i h)

/-- A translation of states, inputs and answers that a step respects is respected by a run. The
translation may ask something of the inputs, and of the states what a step keeps. -/
theorem run_map {σ' ι' ρ' : Type} {step' : σ' → ι' → ρ' × σ'} (f : σ → σ') (g : ι → ι') (k : ρ → ρ')
    (P : σ → Prop) (Q : ι → Prop)
    (hstep : ∀ s i, P s → Q i → step' (f s) (g i) = (k (step s i).1, f (step s i).2) ∧ P (step s i).2)
    (s : σ) (is : List ι) (h : P s) (his : ∀ i ∈ is, Q i) :
    run step' (f s) (is.map g) = ((run step s is).1.map k, f (run step s is).2) ∧
      P (run step s is).2 := by
  induction is generalizing s with
  | nil => exact ⟨rfl, h⟩
  | cons i is ih =>
    obtain ⟨hi, hs⟩ := hstep s i h (his i List.mem_cons_self)
    obtain ⟨hrun, hlast⟩ := ih _ hs (fun j hj => his j (List.mem_cons_of_mem _ hj))
    refine ⟨?_, hlast⟩
    rw [List.map_cons, run_cons, hi, hrun]
    rfl

/-! ## Machines that may stop with an error -/

variable {ε : Type}

/-- The answers and the last state, or the error of the first step that has one. -/
def exec (step : σ → ι → Except ε (ρ × σ)) (s : σ) : List ι → Except ε (List ρ × σ)
  | [] => .ok ([], s)
  | i :: is => do
    let (out, s) ← step s i
    let (outs, s) ← exec step s is
    return (out :: outs, s)

theorem exec_cons_ok {step : σ → ι → Except ε (ρ × σ)} {s s' s'' : σ} {i : ι} {is : List ι}
    {out : ρ} {outs : List ρ} (h : step s i = .ok (out, s')) (h' : exec step s' is = .ok (outs, s'')) :
    exec step s (i :: is) = .ok (out :: outs, s'') := by
  rw [exec, h]
  show (exec step s' is >>= _) = _
  rw [h']
  rfl

theorem exec_cons_eq_ok {step : σ → ι → Except ε (ρ × σ)} {s s'' : σ} {i : ι} {is : List ι}
    {outs : List ρ} (h : exec step s (i :: is) = .ok (outs, s'')) :
    ∃ out s' outs', step s i = .ok (out, s') ∧ exec step s' is = .ok (outs', s'') ∧
      outs = out :: outs' := by
  rw [exec] at h
  cases hi : step s i with
  | error e =>
    rw [hi] at h
    exact absurd h (by simp [bind, Except.bind])
  | ok x =>
    obtain ⟨out, s'⟩ := x
    rw [hi] at h
    change (exec step s' is >>= fun x => pure (out :: x.1, x.2)) = _ at h
    cases hrun : exec step s' is with
    | error e =>
      rw [hrun] at h
      exact absurd h (by simp [bind, Except.bind])
    | ok y =>
      obtain ⟨outs', s₁⟩ := y
      rw [hrun] at h
      obtain ⟨rfl, rfl⟩ := Prod.mk.inj (Except.ok.inj h)
      exact ⟨out, s', outs', rfl, hrun, rfl⟩

theorem exec_append_ok {step : σ → ι → Except ε (ρ × σ)} {s s' s'' : σ} {is js : List ι}
    {outs outs' : List ρ} (h : exec step s is = .ok (outs, s'))
    (h' : exec step s' js = .ok (outs', s'')) :
    exec step s (is ++ js) = .ok (outs ++ outs', s'') := by
  induction is generalizing s outs with
  | nil =>
    obtain ⟨rfl, rfl⟩ := Prod.mk.inj (Except.ok.inj h)
    exact h'
  | cons i is ih =>
    obtain ⟨out, s₁, outs₁, hi, his, rfl⟩ := exec_cons_eq_ok h
    exact exec_cons_ok hi (ih his)

theorem exec_append_eq_ok {step : σ → ι → Except ε (ρ × σ)} {s s'' : σ} {is js : List ι}
    {outs : List ρ} (h : exec step s (is ++ js) = .ok (outs, s'')) :
    ∃ outs₁ s' outs₂, exec step s is = .ok (outs₁, s') ∧ exec step s' js = .ok (outs₂, s'') ∧
      outs = outs₁ ++ outs₂ := by
  induction is generalizing s outs with
  | nil => exact ⟨[], s, outs, rfl, h, rfl⟩
  | cons i is ih =>
    obtain ⟨out, s₁, outs₁, hi, hrest, rfl⟩ := exec_cons_eq_ok h
    obtain ⟨outs₂, s', outs₃, his, hjs, rfl⟩ := ih hrest
    exact ⟨out :: outs₂, s', outs₃, exec_cons_ok hi his, hjs, rfl⟩

/-- Steps that answer and keep an invariant make a run that does. The machine may come in several
builds that answer the same. -/
theorem exec_invariant {π : Type} {step : π → σ → ι → Except ε (ρ × σ)} (P : σ → Prop) (Q : ι → Prop)
    (hstep : ∀ s i, P s → Q i → ∃ out s', (∀ p, step p s i = .ok (out, s')) ∧ P s') (s : σ)
    (is : List ι) (h : P s) (his : ∀ i ∈ is, Q i) :
    ∃ outs s', (∀ p, exec (step p) s is = .ok (outs, s')) ∧ P s' := by
  induction is generalizing s with
  | nil => exact ⟨[], s, fun _ => rfl, h⟩
  | cons i is ih =>
    obtain ⟨out, s', hi, hs'⟩ := hstep s i h (his i List.mem_cons_self)
    obtain ⟨outs, s'', hrun, hs''⟩ := ih s' hs' (fun j hj => his j (List.mem_cons_of_mem _ hj))
    exact ⟨out :: outs, s'', fun p => exec_cons_ok (hi p) (hrun p), hs''⟩

theorem length_exec {step : σ → ι → Except ε (ρ × σ)} {s s' : σ} {is : List ι} {outs : List ρ}
    (h : exec step s is = .ok (outs, s')) : outs.length = is.length := by
  induction is generalizing s outs with
  | nil =>
    obtain ⟨rfl, -⟩ := Prod.mk.inj (Except.ok.inj h)
    rfl
  | cons i is ih =>
    obtain ⟨out, s₁, outs₁, -, his, rfl⟩ := exec_cons_eq_ok h
    rw [List.length_cons, List.length_cons, ih his]

theorem exec_history {π : Type} {step : π → σ → ι → Except ε (ρ × σ)}
    (P : List ι → List ρ → σ → Prop) (Q : ι → Prop) (s : σ)
    (hstep : ∀ is outs s' i, (∀ p, exec (step p) s is = .ok (outs, s')) → P is outs s' → Q i →
      ∃ out s'', (∀ p, step p s' i = .ok (out, s'')) ∧ P (is ++ [i]) (outs ++ [out]) s'')
    (h : P [] [] s) (is : List ι) (his : ∀ i ∈ is, Q i) :
    ∃ outs s', (∀ p, exec (step p) s is = .ok (outs, s')) ∧ P is outs s' := by
  induction is using List.reverseRecOn with
  | nil => exact ⟨[], s, fun _ => rfl, h⟩
  | append_singleton is i ih =>
    obtain ⟨outs, s', hrun, hP⟩ := ih (fun j hj => his j (List.mem_append_left _ hj))
    obtain ⟨out, s'', hi, hP'⟩ := hstep is outs s' i hrun hP (his i (by simp))
    exact ⟨outs ++ [out], s'', fun p => exec_append_ok (hrun p) (exec_cons_ok (hi p) rfl), hP'⟩

/-- What every step that can be taken keeps, every run that can be taken keeps: it may relate the
inputs and the answers so far to the state. -/
theorem exec_keeps {step : σ → ι → Except ε (ρ × σ)} (P : List ι → List ρ → σ → Prop) {s : σ}
    (h : P [] [] s)
    (hstep : ∀ is outs s' i out s'', exec step s is = .ok (outs, s') → P is outs s' →
      step s' i = .ok (out, s'') → P (is ++ [i]) (outs ++ [out]) s'') {is : List ι} {outs : List ρ} {s' : σ}
    (hrun : exec step s is = .ok (outs, s')) : P is outs s' := by
  induction is using List.reverseRecOn generalizing outs s' with
  | nil =>
    obtain ⟨rfl, rfl⟩ := Prod.mk.inj (Except.ok.inj hrun)
    exact h
  | append_singleton is i ih =>
    obtain ⟨outs₁, s₁, outs₂, his, hlast, rfl⟩ := exec_append_eq_ok hrun
    obtain ⟨out, s₂, outs₃, hi, hnil, rfl⟩ := exec_cons_eq_ok hlast
    obtain ⟨rfl, rfl⟩ := Prod.mk.inj (Except.ok.inj hnil)
    exact hstep is outs₁ s₁ i out _ his (ih his) hi

end Runs
