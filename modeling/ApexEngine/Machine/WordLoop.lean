import ApexEngine.Machine.Loop
import Mathlib.Logic.Function.Iterate

/-!
# Counted loops over machine words

The variable of a counted loop is a machine word, and a machine word wraps around.  So such a
loop may run for ever: when the step divides the size of the words, the variable keeps its
remainder, and no word of this remainder is at or above a bound that is greater than the last
of them.  `Counts.returns_iff` says that this is the only case: below this bound a loop over
words returns what the loop over natural numbers returns, and above it never returns.

A loop that may not return is run with fuel (`runFor`), and returns when there is enough of it
(`Returns`).  The variable may be the position itself, or a number of steps that is multiplied
by their length where it is used; what matters is where it stands in each iteration (`Counts`).
-/

namespace Loop

variable {ι σ : Type*}

/-! ## Loops with fuel -/

section Fuel

variable (test : ι → Bool) (next : ι → ι) (body : ι → σ → Option σ)

/-- `for (; test i; i = next i) s = body i s;`, as far as the fuel goes.  There is no state
after it when the body fails. -/
def runFor : ℕ → ι → σ → Option σ
  | 0, _, _ => none
  | fuel + 1, i, s => if test i then (body i s).bind (runFor fuel (next i)) else some s

/-- The loop returns, with state `t`. -/
def Returns (i : ι) (s t : σ) : Prop := ∃ fuel, runFor test next body fuel i s = some t

variable {test next body} {i : ι} {s t : σ}

theorem returns_of_test_false (h : test i = false) : Returns test next body i s t ↔ s = t := by
  have hrun : ∀ fuel, runFor test next body (fuel + 1) i s = some s := fun fuel => by
    rw [runFor, h]
    rfl
  constructor
  · rintro ⟨fuel, ht⟩
    cases fuel with
    | zero => exact absurd ht (by simp [runFor])
    | succ fuel => exact Option.some.inj ((hrun fuel).symm.trans ht)
  · rintro rfl
    exact ⟨1, hrun 0⟩

theorem returns_of_test (h : test i = true) :
    Returns test next body i s t ↔
      ∃ s', body i s = some s' ∧ Returns test next body (next i) s' t := by
  have hrun : ∀ fuel, runFor test next body (fuel + 1) i s =
      (body i s).bind (runFor test next body fuel (next i)) := fun fuel => by
    rw [runFor, if_pos h]
  constructor
  · rintro ⟨fuel, ht⟩
    cases fuel with
    | zero => exact absurd ht (by simp [runFor])
    | succ fuel =>
      rw [hrun] at ht
      obtain ⟨s', hs', hrest⟩ := Option.bind_eq_some_iff.mp ht
      exact ⟨s', hs', fuel, hrest⟩
  · rintro ⟨s', hs', fuel, hrest⟩
    exact ⟨fuel + 1, by rw [hrun, hs', Option.bind_some, hrest]⟩

/-- More fuel does no harm. -/
theorem runFor_mono {fuel fuel' : ℕ} (h : runFor test next body fuel i s = some t)
    (hle : fuel ≤ fuel') : runFor test next body fuel' i s = some t := by
  induction fuel generalizing fuel' i s with
  | zero => exact absurd h (by simp [runFor])
  | succ fuel ih =>
    obtain ⟨fuel', rfl⟩ : ∃ k, fuel' = k + 1 := ⟨fuel' - 1, by omega⟩
    rw [runFor] at h ⊢
    split at h
    · rename_i htest
      obtain ⟨s', hs', hrest⟩ := Option.bind_eq_some_iff.mp h
      rw [if_pos htest, hs', Option.bind_some, ih hrest (by omega)]
    · rename_i htest
      rw [if_neg htest, h]

/-- **A loop whose test never fails does not return.** -/
theorem not_returns (h : ∀ k, test (next^[k] i) = true) : ¬ Returns test next body i s t := by
  rintro ⟨fuel, ht⟩
  induction fuel generalizing i s with
  | zero => exact absurd ht (by simp [runFor])
  | succ fuel ih =>
    have hfirst : test i = true := h 0
    rw [runFor, if_pos hfirst] at ht
    obtain ⟨s', -, hrest⟩ := Option.bind_eq_some_iff.mp ht
    exact ih (fun k => h (k + 1)) hrest

theorem foldl_bind_none (f : ℕ → σ → Option σ) (l : List ℕ) :
    l.foldl (fun o k => o.bind (f k)) none = none := by
  induction l with
  | nil => rfl
  | cons k l ih => exact ih

/-- **A loop whose test fails after `n` iterations.** -/
theorem returns_iff_foldl {n : ℕ} (hruns : ∀ k < n, test (next^[k] i) = true)
    (hends : test (next^[n] i) = false) :
    Returns test next body i s t ↔
      (List.range n).foldl (fun o k => o.bind (body (next^[k] i))) (some s) = some t := by
  induction n generalizing i s with
  | zero =>
    have hfirst : test i = false := hends
    rw [returns_of_test_false hfirst, List.range_zero, List.foldl_nil, Option.some_inj]
  | succ n ih =>
    have hfirst : test i = true := hruns 0 (Nat.succ_pos n)
    rw [returns_of_test hfirst, List.range_succ_eq_map, List.foldl_cons,
      List.foldl_map]
    have hrest : ∀ s', Returns test next body (next i) s' t ↔
        (List.range n).foldl (fun o k => o.bind (body (next^[k + 1] i))) (some s') = some t :=
      fun s' => ih (fun k hk => hruns (k + 1) (by omega)) hends
    simp only [Function.iterate_zero, id, Option.bind_some]
    cases body i s with
    | none =>
      have hnone := foldl_bind_none (fun k => body (next^[k + 1] i)) (List.range n)
      exact iff_of_false (by simp) fun h => absurd (hnone.symm.trans h) (by simp)
    | some s' => simp [hrest s']

end Fuel

/-! ## Variables that wrap around -/

/-- In iteration `k` the variable stands at `start + k * inc`, reduced to `w` bits, and is
compared with `stop`. -/
def Counts (test : ι → Bool) (next : ι → ι) (i : ι) (w start stop inc : ℕ) : Prop :=
  ∀ k, test (next^[k] i) = decide ((start + k * inc) % 2 ^ w < stop)

section Counts

variable {test : ι → Bool} {next : ι → ι} {body : ι → σ → Option σ} {i : ι}
  {w start stop inc : ℕ}

/-- A number below a multiple of the step is at most the last one of its remainder. -/
theorem le_of_dvd_of_lt {x m : ℕ} (hm : inc ∣ m) (h : x < m) : x ≤ m - inc + x % inc := by
  obtain ⟨b, rfl⟩ := hm
  have hlt : x / inc < b := Nat.div_lt_of_lt_mul h
  calc x = inc * (x / inc) + x % inc := (Nat.div_add_mod x inc).symm
    _ ≤ inc * (b - 1) + x % inc := Nat.add_le_add_right (Nat.mul_le_mul_left inc (by omega)) _
    _ = inc * b - inc + x % inc := by rw [Nat.mul_sub, Nat.mul_one]

/-- Below the last one of its remainder there is room for another step. -/
theorem add_lt_of_lt {x m : ℕ} (hinc : 0 < inc) (hm : inc ∣ m) (h : x < m - inc + x % inc) :
    x + inc < m := by
  obtain ⟨b, rfl⟩ := hm
  have hsplit : inc * (x / inc) + x % inc = x := Nat.div_add_mod x inc
  have hmod : x % inc < inc := Nat.mod_lt x hinc
  generalize x / inc = q at hsplit
  generalize x % inc = r at hsplit hmod h
  have hlt : q < b - 1 := by
    refine Nat.lt_of_mul_lt_mul_left (a := inc) ?_
    rw [Nat.mul_sub, Nat.mul_one]
    omega
  calc x + inc = inc * q + r + inc := by rw [hsplit]
    _ < inc * q + inc + inc := by omega
    _ = inc * (q + 2) := by rw [Nat.mul_add, Nat.mul_two, Nat.add_assoc]
    _ ≤ inc * b := Nat.mul_le_mul_left inc (by omega)

/-- **The rule of counted loops over words.**  A loop whose bound is beyond the last word that
has the remainder of its start does not return.  Any other returns what the loop over natural
numbers does. -/
theorem Counts.returns_iff (h : Counts test next i w start stop inc) (hinc : 0 < inc)
    (hdvd : inc ∣ 2 ^ w) (hlt : start < 2 ^ w) {f : ℕ → σ → Option σ}
    (hbody : ∀ k, start + k * inc < stop → body (next^[k] i) = f (start + k * inc)) {s t : σ} :
    Returns test next body i s t ↔ stop ≤ 2 ^ w - inc + start % inc ∧
      forUp start stop inc (fun j o => o.bind (f j)) (some s) = some t := by
  have hrem : ∀ k, (start + k * inc) % inc = start % inc := fun k =>
    Nat.add_mul_mod_self_right start k inc
  by_cases hstop : stop ≤ 2 ^ w - inc + start % inc
  · -- no value up to the first one that is not below the bound wraps around
    have hword : ∀ k ≤ trips start stop inc, start + k * inc < 2 ^ w := by
      intro k hk
      cases k with
      | zero => omega
      | succ k =>
        have hbefore : start + k * inc < stop := (lt_trips_iff hinc).mp hk
        have hroom := add_lt_of_lt hinc hdvd (x := start + k * inc) (by rw [hrem]; omega)
        rw [Nat.succ_mul]
        omega
    have hruns : ∀ k < trips start stop inc, test (next^[k] i) = true := by
      intro k hk
      rw [h k, Nat.mod_eq_of_lt (hword k (Nat.le_of_lt hk))]
      exact decide_eq_true ((lt_trips_iff hinc).mp hk)
    have hends : test (next^[trips start stop inc] i) = false := by
      rw [h _, Nat.mod_eq_of_lt (hword _ (Nat.le_refl _))]
      exact decide_eq_false fun hpos => absurd ((lt_trips_iff hinc).mpr hpos) (Nat.lt_irrefl _)
    rw [returns_iff_foldl hruns hends, forUp, and_iff_right hstop]
    have hsame : ∀ l : List ℕ, (∀ k ∈ l, k < trips start stop inc) → ∀ o : Option σ,
        l.foldl (fun o k => o.bind (body (next^[k] i))) o =
          l.foldl (fun o k => o.bind (f (start + k * inc))) o := fun l hl o =>
      List.foldl_ext _ _ o fun o k hk => by rw [hbody k ((lt_trips_iff hinc).mp (hl k hk))]
    rw [hsame _ fun k hk => List.mem_range.mp hk]
  · refine iff_of_false (not_returns fun k => ?_) fun hboth => hstop hboth.1
    have hlast := le_of_dvd_of_lt hdvd (Nat.mod_lt (start + k * inc) (Nat.two_pow_pos w))
    rw [Nat.mod_mod_of_dvd _ hdvd, hrem k] at hlast
    rw [h k]
    exact decide_eq_true (by omega)

/-- Where a word stands that is advanced again and again. -/
theorem iterate_add (inc : ℕ) (start : BitVec w) (k : ℕ) :
    (fun i : BitVec w => i + BitVec.ofNat w inc)^[k] start =
      BitVec.ofNat w (start.toNat + k * inc) := by
  induction k with
  | zero => simp
  | succ k ih => rw [Function.iterate_succ_apply', ih, ← BitVec.ofNat_add, Nat.succ_mul, Nat.add_assoc]

/-- A variable that is the position. -/
theorem counts_add (inc : ℕ) (start stop : BitVec w) :
    Counts (fun i : BitVec w => decide (i < stop)) (· + BitVec.ofNat w inc) start w start.toNat
      stop.toNat inc := by
  intro k
  simp only [iterate_add, BitVec.lt_def, BitVec.toNat_ofNat]

/-- A variable that is a number of steps. -/
theorem counts_mul (inc : ℕ) (stop : BitVec w) :
    Counts (fun i : BitVec w => decide (i * BitVec.ofNat w inc < stop)) (· + BitVec.ofNat w 1) 0 w 0
      stop.toNat inc := by
  intro k
  have hzero : (0 : BitVec w).toNat = 0 := BitVec.toNat_zero
  simp only [iterate_add, ← BitVec.ofNat_mul, BitVec.lt_def, BitVec.toNat_ofNat, Nat.mul_one, hzero,
    Nat.zero_add]

end Counts

/-! ## Adding up in a word -/

section Accumulate

variable {w v start stop inc : ℕ}

/-- A body that fails or adds what it returns to a total of `v` bits. -/
def accumulateWord (step : ι → σ → Option (σ × ℕ)) (i : ι) (s : σ × BitVec v) :
    Option (σ × BitVec v) :=
  (step i s.1).map fun r => (r.1, s.2 + BitVec.ofNat v r.2)

/-- The total of a loop, reduced to `v` bits. -/
theorem forUp_accumulateWord (step : ℕ → σ → Option (σ × ℕ)) (s : σ) :
    forUp start stop inc (fun j o => o.bind (accumulateWord step j)) (some (s, (0 : BitVec v))) =
      (forUp start stop inc (accumulate step) (some (s, 0))).map
        fun r => (r.1, BitVec.ofNat v r.2) := by
  unfold forUp
  show List.foldl _ (Option.map (fun r : σ × ℕ => (r.1, BitVec.ofNat v r.2)) (some (s, 0))) _ = _
  refine List.foldl_hom (Option.map fun r : σ × ℕ => (r.1, BitVec.ofNat v r.2)) fun o j => ?_
  cases o with
  | none => rfl
  | some r =>
    show Option.map _ (step (start + j * inc) r.1) =
      Option.map _ (Option.map _ (step (start + j * inc) r.1))
    rw [Option.map_map]
    refine congrFun (congrArg Option.map (funext fun q => ?_)) _
    exact Prod.ext rfl (BitVec.ofNat_add r.2 q.2).symm

/-- **The rule of loops over words that add up.** -/
theorem Counts.returns_accumulate {test : ι → Bool} {next : ι → ι} {i : ι}
    (h : Counts test next i w start stop inc) (hinc : 0 < inc) (hdvd : inc ∣ 2 ^ w)
    (hlt : start < 2 ^ w) {step : ι → σ → Option (σ × ℕ)}
    {step' : ℕ → σ → Option (σ × ℕ)}
    (hstep : ∀ k, start + k * inc < stop → step (next^[k] i) = step' (start + k * inc)) {s : σ}
    {t : σ × BitVec v} :
    Returns test next (accumulateWord step) i (s, 0) t ↔ stop ≤ 2 ^ w - inc + start % inc ∧
      ∃ m, forUp start stop inc (accumulate step') (some (s, 0)) = some (t.1, m) ∧
        t.2 = BitVec.ofNat v m := by
  rw [h.returns_iff hinc hdvd hlt (f := accumulateWord step') fun k hk => by
    funext r
    rw [accumulateWord, accumulateWord, hstep k hk], forUp_accumulateWord, Option.map_eq_some_iff]
  refine and_congr_right fun _ => ⟨?_, ?_⟩
  · rintro ⟨r, hr, rfl⟩
    exact ⟨r.2, hr, rfl⟩
  · rintro ⟨m, hm, hword⟩
    exact ⟨(t.1, m), hm, Prod.ext rfl hword.symm⟩

/-- A total is at most what the iterations can return. -/
theorem le_of_forUp_accumulate {step : ℕ → σ → Option (σ × ℕ)} {c : ℕ}
    (hstep : ∀ j s r, step j s = some r → r.2 ≤ c) {s : σ} {r : σ × ℕ}
    (h : forUp start stop inc (accumulate step) (some (s, 0)) = some r) :
    r.2 ≤ trips start stop inc * c := by
  have hinv : ∀ r, forUp start stop inc (accumulate step) (some (s, 0)) = some r →
      r.2 ≤ trips start stop inc * c := by
    refine foldl_range_inv (f := fun o j => accumulate step (start + j * inc) o)
      (P := fun k o => ∀ r : σ × ℕ, o = some r → r.2 ≤ k * c) ?_ ?_
    · rintro r hr
      obtain rfl := Option.some.inj hr
      exact Nat.zero_le _
    · rintro k - o ho r hr
      obtain ⟨r₁, hprev, hr⟩ := Option.bind_eq_some_iff.mp hr
      obtain ⟨r₂, hbody, rfl⟩ := Option.map_eq_some_iff.mp hr
      rw [Nat.succ_mul]
      exact Nat.add_le_add (ho r₁ hprev) (hstep _ _ _ hbody)
  exact hinv r h

end Accumulate
end Loop
