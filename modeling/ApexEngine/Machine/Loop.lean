import Mathlib.Algebra.GroupWithZero.Nat
import Mathlib.Data.List.Basic

/-!
# Counted loops

`forUp start stop step body` is the loop `for (i = start; i < stop; i += step)`
with a state threaded through its body, and `last start stop step` is what the
variable has when the loop is done.  `forUp_inv` is its rule: an invariant indexed by
the loop variable, kept by the body, holds with the variable's final value when the
loop is done.

A loop that adds up what its iterations return, over a body that may fail, has a rule
of its own: `forUp_accumulate`.  What such a loop touches is what its iterations touch, up to
the first that fails (`marked`); when none fails it is all of it (`marked_eq_collect`), and
nothing else matters to the loop (`forUp_accumulate_congr`).
-/

namespace Loop

variable {σ : Type*}

/-- The number of iterations of a counted loop. -/
def trips (start stop step : ℕ) : ℕ := (stop - start + (step - 1)) / step

/-- `for (i = start; i < stop; i += step) s = body i s;` -/
def forUp (start stop step : ℕ) (body : ℕ → σ → σ) (s : σ) : σ :=
  (List.range (trips start stop step)).foldl (fun s j => body (start + j * step) s) s

/-- The value of the variable after the loop. -/
def last (start stop step : ℕ) : ℕ := start + trips start stop step * step

/-- The invariant rule, by the number of iterations. -/
theorem foldl_range_inv {P : ℕ → σ → Prop} {f : σ → ℕ → σ} {n : ℕ} {s : σ} (h0 : P 0 s)
    (hstep : ∀ j < n, ∀ s, P j s → P (j + 1) (f s j)) :
    P n ((List.range n).foldl f s) := by
  induction n with
  | zero => exact h0
  | succ n ih =>
    rw [List.range_succ, List.foldl_append, List.foldl_cons, List.foldl_nil]
    exact hstep n (by omega) _ (ih fun j hj => hstep j (by omega))

/-- An iteration runs exactly while the variable is below the bound. -/
theorem lt_trips_iff {start stop step : ℕ} (hstep : 0 < step) {j : ℕ} :
    j < trips start stop step ↔ start + j * step < stop := by
  rw [trips, Nat.lt_div_iff_mul_lt hstep]
  omega

/-- **The rule of counted loops**: what holds before and is kept by each iteration holds after. -/
theorem forUp_inv {P : ℕ → σ → Prop} {start stop step : ℕ} (hstep : 0 < step)
    {body : ℕ → σ → σ} {s : σ} (h0 : P start s)
    (hbody : ∀ i s, i < stop → (∃ j, i = start + j * step) → P i s →
      P (i + step) (body i s)) :
    P (last start stop step) (forUp start stop step body s) := by
  refine foldl_range_inv (P := fun j s => P (start + j * step) s) (by simpa using h0) ?_
  intro j hj s hs
  have := hbody _ s ((lt_trips_iff hstep).mp hj) ⟨j, rfl⟩ hs
  rwa [Nat.succ_mul, ← Nat.add_assoc]

/-- A loop whose bound is a whole number of steps away ends on its bound. -/
theorem last_of_dvd {start stop step : ℕ} (hle : start ≤ stop) (hdvd : step ∣ stop - start) :
    last start stop step = stop := by
  rw [last]
  obtain ⟨k, hk⟩ := hdvd
  rcases Nat.eq_zero_or_pos step with rfl | hpos
  · simp [trips] at *
    omega
  · have : trips start stop step = k := by
      rw [trips, hk, Nat.mul_add_div hpos, Nat.div_eq_of_lt (by omega), Nat.add_zero]
    rw [this, Nat.mul_comm, ← hk]
    omega

/-- The rule for a loop that ends on its bound. -/
theorem forUp_inv_of_dvd {P : ℕ → σ → Prop} {start stop step : ℕ} (hstep : 0 < step)
    (hle : start ≤ stop) (hdvd : step ∣ stop - start) {body : ℕ → σ → σ} {s : σ}
    (h0 : P start s)
    (hbody : ∀ i s, i < stop → (∃ j, i = start + j * step) → P i s → P (i + step) (body i s)) :
    P stop (forUp start stop step body s) := by
  have h := forUp_inv hstep h0 hbody
  rwa [last_of_dvd hle hdvd] at h

/-- Loops whose bodies are the same. -/
theorem forUp_congr {start stop step : ℕ} (hstep : 0 < step) {body body' : ℕ → σ → σ}
    (h : ∀ j, start + j * step < stop → body (start + j * step) = body' (start + j * step))
    (s : σ) : forUp start stop step body s = forUp start stop step body' s :=
  List.foldl_ext _ _ s fun s' j hj => by
    rw [h j ((lt_trips_iff hstep).mp (List.mem_range.mp hj))]

/-! ## Loops that add up -/

section Accumulate

variable {step : ℕ → σ → Option (σ × ℕ)}

/-- A body that fails or adds what it returns to a total. -/
def accumulate (step : ℕ → σ → Option (σ × ℕ)) (i : ℕ) (s : Option (σ × ℕ)) : Option (σ × ℕ) :=
  s.bind fun (s, total) => (step i s).map fun (s, m) => (s, total + m)

/-- **The rule of loops that add up.**  When every iteration succeeds from every state
of the invariant, the loop returns the sum of what they return. -/
theorem forUp_accumulate (I : σ → Prop) (val : ℕ → ℕ) {start stop inc : ℕ} (hinc : 0 < inc)
    (hstep : ∀ j, start + j * inc < stop → ∀ s, I s →
      ∃ s', step (start + j * inc) s = some (s', val (start + j * inc)) ∧ I s')
    {s : σ} (hs : I s) :
    ∃ s', forUp start stop inc (accumulate step) (some (s, 0)) =
        some (s', ((List.range (trips start stop inc)).map fun j => val (start + j * inc)).sum) ∧
      I s' := by
  refine foldl_range_inv (f := fun o j => accumulate step (start + j * inc) o)
    (P := fun k o => ∃ s', o = some (s', ((List.range k).map fun j => val (start + j * inc)).sum) ∧
      I s') ⟨s, rfl, hs⟩ ?_
  rintro k hk o ⟨s₁, rfl, hs₁⟩
  obtain ⟨s₂, hstep₂, hs₂⟩ := hstep k ((lt_trips_iff hinc).mp hk) s₁ hs₁
  refine ⟨s₂, ?_, hs₂⟩
  show Option.map _ (step (start + k * inc) s₁) = _
  rw [hstep₂, List.range_succ, List.map_append, List.sum_append]
  simp

/-- What every iteration that succeeds keeps holds when the loop has succeeded. -/
theorem forUp_accumulate_keeps {I : σ → Prop}
    (hstep : ∀ i s s' m, I s → step i s = some (s', m) → I s') {start stop inc : ℕ} {s : σ}
    (hs : I s) : ∀ r, forUp start stop inc (accumulate step) (some (s, 0)) = some r → I r.1 := by
  refine List.foldlRecOn (motive := fun o : Option (σ × ℕ) => ∀ r, o = some r → I r.1)
    _ _ ?_ ?_
  · rintro r h
    obtain rfl := Option.some.inj h
    exact hs
  · rintro o ho j - r h
    obtain ⟨⟨s₁, n₁⟩, hprev, h⟩ := Option.bind_eq_some_iff.mp h
    obtain ⟨⟨s₂, m⟩, hbody, h⟩ := Option.map_eq_some_iff.mp h
    obtain rfl := h
    exact hstep _ s₁ s₂ m (ho _ hprev) hbody

/-- Once the body has failed the loop has. -/
theorem forUp_accumulate_none {start stop inc : ℕ} (hinc : 0 < inc) (hlt : start < stop) {s : σ}
    (hfail : step start s = none) :
    forUp start stop inc (accumulate step) (some (s, 0)) = none := by
  have hrest : ∀ js : List ℕ,
      js.foldl (fun o j => accumulate step (start + j * inc) o) none = none := by
    intro js
    induction js with
    | nil => rfl
    | cons j js ih => exact ih
  have htrips : 0 < trips start stop inc := (lt_trips_iff hinc).mpr (by omega)
  obtain ⟨k, hk⟩ : ∃ k, trips start stop inc = k + 1 := ⟨trips start stop inc - 1, by omega⟩
  rw [forUp, hk, List.range_succ_eq_map, List.foldl_cons, Nat.zero_mul, Nat.add_zero]
  have hfirst : accumulate step start (some (s, 0)) = none := by
    show Option.map _ (step start s) = none
    rw [hfail]
    rfl
  rw [hfirst]
  exact hrest _

end Accumulate

/-! ## What a loop touches -/

section Marks

variable {α : Type*} {start stop inc : ℕ} {marks : ℕ → List α}

/-- What the iterations touch, when all of them run. -/
def collect (start stop inc : ℕ) (marks : ℕ → List α) : List α :=
  (List.range (trips start stop inc)).flatMap fun j => marks (start + j * inc)

theorem mem_collect (hinc : 0 < inc) {a : α} :
    a ∈ collect start stop inc marks ↔ ∃ j, start + j * inc < stop ∧ a ∈ marks (start + j * inc) := by
  simp only [collect, List.mem_flatMap, List.mem_range, lt_trips_iff hinc]

/-- One iteration of a loop that adds up, with what it touches if it runs. -/
def mark (step : ℕ → σ → Option (σ × ℕ)) (marks : ℕ → List α) (i : ℕ)
    (s : Option (σ × ℕ) × List α) : Option (σ × ℕ) × List α :=
  (accumulate step i s.1, s.2 ++ if s.1.isSome then marks i else [])

/-- What a loop that adds up touches: the iterations after one that fails do not run. -/
def marked (start stop inc : ℕ) (step : ℕ → σ → Option (σ × ℕ)) (marks : ℕ → List α) (s : σ) :
    List α :=
  (forUp start stop inc (mark step marks) (some (s, 0), [])).2

variable {step step' : ℕ → σ → Option (σ × ℕ)} {s : σ}

/-- When no iteration fails, all of them touch what they do. -/
theorem marked_eq_collect (I : σ → Prop) (hinc : 0 < inc)
    (hstep : ∀ j, start + j * inc < stop → ∀ s, I s →
      ∃ s' m, step (start + j * inc) s = some (s', m) ∧ I s') (hs : I s) :
    marked start stop inc step marks s = collect start stop inc marks := by
  have h : ∃ s' m, forUp start stop inc (mark step marks) (some (s, 0), []) =
      (some (s', m), collect start stop inc marks) ∧ I s' := by
    refine foldl_range_inv (f := fun o j => mark step marks (start + j * inc) o)
      (P := fun k o => ∃ s' m, o = (some (s', m),
        (List.range k).flatMap fun j => marks (start + j * inc)) ∧ I s') ⟨s, 0, rfl, hs⟩ ?_
    rintro k hk o ⟨s₁, m₁, rfl, hs₁⟩
    obtain ⟨s₂, m₂, hstep₂, hs₂⟩ := hstep k ((lt_trips_iff hinc).mp hk) s₁ hs₁
    refine ⟨s₂, m₁ + m₂, ?_, hs₂⟩
    rw [List.range_succ, List.flatMap_append, List.flatMap_singleton]
    show (Option.map _ (step (start + k * inc) s₁), _) = _
    rw [hstep₂]
    rfl
  obtain ⟨s', m, heq, -⟩ := h
  rw [marked, heq]

/-- The marks are carried along. -/
theorem fst_foldl_mark (js : List ℕ) (o : Option (σ × ℕ) × List α) :
    (js.foldl (fun o j => mark step marks (start + j * inc) o) o).1 =
      js.foldl (fun o j => accumulate step (start + j * inc) o) o.1 := by
  induction js generalizing o with
  | nil => rfl
  | cons j js ih => exact ih _

/-- **Loops whose iterations agree on what is touched** return the same. -/
theorem forUp_accumulate_congr {agree : α → Prop} (hinc : 0 < inc)
    (hstep : ∀ j, start + j * inc < stop → (∀ a ∈ marks (start + j * inc), agree a) →
      step (start + j * inc) = step' (start + j * inc))
    (h : ∀ a ∈ marked start stop inc step marks s, agree a) :
    forUp start stop inc (accumulate step) (some (s, 0)) =
      forUp start stop inc (accumulate step') (some (s, 0)) := by
  have hstep' := fun j hj => hstep j ((lt_trips_iff hinc).mp hj)
  clear hstep
  unfold marked forUp at *
  generalize trips start stop inc = n at *
  induction n with
  | zero => rfl
  | succ n ih =>
    rw [List.range_succ, List.foldl_append, List.foldl_cons, List.foldl_nil] at h
    have hbefore := ih (fun a ha => h a (List.mem_append_left _ ha))
      fun j hj => hstep' j (Nat.lt_succ_of_lt hj)
    simp only [List.range_succ, List.foldl_append, List.foldl_cons, List.foldl_nil, ← hbefore]
    rw [mark, fst_foldl_mark] at h
    generalize (List.range n).foldl (fun o j => accumulate step (start + j * inc) o) (some (s, 0)) =
      o at h
    cases o with
    | none => rfl
    | some r =>
      rw [accumulate, accumulate, hstep' n (Nat.lt_succ_self n) fun a ha =>
        h a (List.mem_append_right _ ha)]

end Marks
end Loop
