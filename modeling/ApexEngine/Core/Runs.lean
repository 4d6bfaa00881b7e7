import Mathlib.Data.List.AList
import Mathlib.Data.List.DropRight
import Mathlib.Data.List.Induction

/-!
# Runs and the maps they fill

A system takes steps and its state is what they leave.  What every step preserves holds
after a run (`run_inv`); the steps may have to meet a condition in the states they are
taken in (`Along`).

A map that is written by assignment only is the assignments of the run in their order,
and a key has the value it was assigned last (`lookup_assignAll`).  So what matters of a
run is the list of what its steps emit (`emitted`), and not the states between.

Where some actions are resets, a run is one up to the last reset and one after it, in which
there are none (`untilLast`, `sinceLast`).
-/

namespace ApexEngine
namespace Runs

variable {σ α β κ ν : Type}

/-! ## Runs -/

section Run

variable (step : σ → α → σ)

/-- The state after a run. -/
def run (s : σ) (as : List α) : σ := as.foldl step s

/-- Every step of a run meets a condition, in the state it is taken in. -/
def Along (C : σ → α → Prop) : σ → List α → Prop
  | _, [] => True
  | s, a :: as => C s a ∧ Along C (step s a) as

/-- What the steps of a run emit, each in the state it is taken in. -/
def emitted (emit : σ → α → Option β) : σ → List α → List β
  | _, [] => []
  | s, a :: as => (emit s a).toList ++ emitted emit (step s a) as

variable {step}

theorem run_append (s : σ) (as bs : List α) :
    run step s (as ++ bs) = run step (run step s as) bs :=
  List.foldl_append

/-- **The invariant of a run.** -/
theorem run_inv {C : σ → α → Prop} {I : σ → Prop} (hstep : ∀ s a, I s → C s a → I (step s a))
    {s : σ} {as : List α} (hs : I s) (h : Along step C s as) : I (run step s as) := by
  induction as generalizing s with
  | nil => exact hs
  | cons a as ih => exact ih (hstep s a hs h.1) h.2

/-- What every step preserves in every state, a run preserves. -/
theorem run_inv_of_forall {I : σ → Prop} (hstep : ∀ s a, I s → I (step s a)) {s : σ} (hs : I s)
    (as : List α) : I (run step s as) :=
  List.foldlRecOn as step hs fun s hs a _ => hstep s a hs

/-- A condition holds along a run in two parts when it holds along both. -/
theorem along_append {C : σ → α → Prop} {s : σ} {as bs : List α} :
    Along step C s (as ++ bs) ↔ Along step C s as ∧ Along step C (run step s as) bs := by
  induction as generalizing s with
  | nil => exact ⟨fun h => ⟨trivial, h⟩, fun h => h.2⟩
  | cons a as ih =>
    rw [List.cons_append, Along, ih, Along, and_assoc]
    rfl

theorem Along.and {C D : σ → α → Prop} {s : σ} {as : List α} (hC : Along step C s as)
    (hD : Along step D s as) : Along step (fun s a => C s a ∧ D s a) s as := by
  induction as generalizing s with
  | nil => trivial
  | cons a as ih => exact ⟨⟨hC.1, hD.1⟩, ih hC.2 hD.2⟩

/-- A condition along a run, step by step. -/
theorem along_iff {C : σ → α → Prop} {s : σ} {as : List α} :
    Along step C s as ↔ ∀ past a rest, as = past ++ a :: rest → C (run step s past) a := by
  constructor
  · rintro h past a rest rfl
    exact (along_append.mp h).2.1
  · intro h
    induction as generalizing s with
    | nil => trivial
    | cons a as ih =>
      refine ⟨h [] a as rfl, ih fun past b rest has => ?_⟩
      exact h (a :: past) b rest (by rw [has, List.cons_append])

theorem emitted_append {emit : σ → α → Option β} {s : σ} {as bs : List α} :
    emitted step emit s (as ++ bs) =
      emitted step emit s as ++ emitted step emit (run step s as) bs := by
  induction as generalizing s with
  | nil => rfl
  | cons a as ih =>
    rw [List.cons_append, emitted, ih, emitted, List.append_assoc]
    rfl

/-- What one more step emits comes last. -/
theorem emitted_snoc (emit : σ → α → Option β) (s : σ) (as : List α) (a : α) :
    emitted step emit s (as ++ [a]) =
      emitted step emit s as ++ (emit (run step s as) a).toList := by
  rw [emitted_append, emitted, emitted, List.append_nil]

/-- What is emitted is emitted by some step. -/
theorem mem_emitted {emit : σ → α → Option β} {s : σ} {as : List α} {b : β} :
    b ∈ emitted step emit s as ↔
      ∃ past a rest, as = past ++ a :: rest ∧ emit (run step s past) a = some b := by
  induction as generalizing s with
  | nil => simp [emitted]
  | cons a as ih =>
    rw [emitted, List.mem_append, Option.mem_toList, ih]
    constructor
    · rintro (h | ⟨past, a', rest, rfl, h⟩)
      · exact ⟨[], a, as, rfl, h⟩
      · exact ⟨a :: past, a', rest, rfl, h⟩
    · rintro ⟨past, a', rest, has, h⟩
      cases past with
      | nil =>
        obtain ⟨rfl, rfl⟩ := List.cons.inj has
        exact Or.inl h
      | cons b past =>
        obtain ⟨rfl, rfl⟩ := List.cons.inj has
        exact Or.inr ⟨past, a', rest, rfl, h⟩

/-- Emitting part of what is emitted. -/
theorem emitted_filterMap (emit : σ → α → Option β) {γ : Type} (f : β → Option γ) (s : σ)
    (as : List α) :
    emitted step (fun s a => (emit s a).bind f) s as = (emitted step emit s as).filterMap f := by
  induction as generalizing s with
  | nil => rfl
  | cons a as ih =>
    rw [emitted, emitted, ih, List.filterMap_append]
    cases emit s a with
    | none => rfl
    | some b => cases hb : f b <;> simp [hb]

end Run

/-! ## Resets -/

section Resets

variable (reset : α → Bool)

/-- The actions up to the last reset, with it. -/
def untilLast (as : List α) : List α := as.rdropWhile fun a => !reset a

/-- The actions after the last reset, or all of them. -/
def sinceLast (as : List α) : List α := as.rtakeWhile fun a => !reset a

theorem untilLast_append_sinceLast (as : List α) : untilLast reset as ++ sinceLast reset as = as := by
  rw [untilLast, sinceLast, List.rdropWhile, List.rtakeWhile, ← List.reverse_append,
    List.takeWhile_append_dropWhile, List.reverse_reverse]

/-- A run in two parts at its last reset. -/
theorem run_sinceLast (step : σ → α → σ) (s : σ) (as : List α) :
    run step s as = run step (run step s (untilLast reset as)) (sinceLast reset as) := by
  rw [← run_append, untilLast_append_sinceLast]

/-- The first part ends with a reset, or there is none. -/
theorem untilLast_eq (as : List α) :
    untilLast reset as = [] ∨ ∃ past a, untilLast reset as = past ++ [a] ∧ reset a = true := by
  rcases List.eq_nil_or_concat' (untilLast reset as) with hnil | ⟨past, a, hpast⟩
  · exact Or.inl hnil
  · have hne : untilLast reset as ≠ [] := by simp [hpast]
    have hlast : ¬ (!reset ((untilLast reset as).getLast hne)) = true :=
      List.rdropWhile_last_not _ as hne
    rw [List.getLast_congr hne (by simp) hpast, List.getLast_concat] at hlast
    exact Or.inr ⟨past, a, hpast, by simpa using hlast⟩

variable {reset}

theorem not_reset_of_mem_sinceLast {as : List α} {a : α} (h : a ∈ sinceLast reset as) :
    reset a = false := by
  simpa using List.mem_rtakeWhile_imp h

end Resets

/-! ## Assignments -/

section Assign

variable [DecidableEq κ]

/-- Assign a list of values to their keys. -/
def assignAll (m : AList fun _ : κ => ν) (ps : List (κ × ν)) : AList fun _ : κ => ν :=
  ps.foldl (fun m p => m.insert p.1 p.2) m

/-- The value a list assigns to a key last. -/
def lastFor (ps : List (κ × ν)) (k : κ) : Option ν :=
  (ps.reverse.find? fun p => decide (p.1 = k)).map Prod.snd

variable {m : AList fun _ : κ => ν} {ps : List (κ × ν)} {k : κ} {v : ν}

theorem lastFor_snoc (ps : List (κ × ν)) (p : κ × ν) (k : κ) :
    lastFor (ps ++ [p]) k = if p.1 = k then some p.2 else lastFor ps k := by
  unfold lastFor
  rw [List.reverse_append, List.reverse_singleton, List.singleton_append, List.find?_cons]
  by_cases h : p.1 = k
  · simp [h]
  · simp [h]

/-- What is last assigned to a key is assigned to it. -/
theorem mem_of_lastFor (h : lastFor ps k = some v) : (k, v) ∈ ps := by
  obtain ⟨⟨k', v'⟩, hfind, rfl⟩ := Option.map_eq_some_iff.mp h
  have hk : k' = k := by simpa using List.find?_some hfind
  subst hk
  exact List.mem_reverse.mp (List.mem_of_find?_eq_some hfind)

/-- The last of all is the last for its key. -/
theorem lastFor_of_getLast? (h : ps.getLast? = some (k, v)) : lastFor ps k = some v := by
  obtain ⟨init, rfl⟩ := List.getLast?_eq_some_iff.mp h
  rw [lastFor_snoc, if_pos rfl]

/-- Changing the values changes what is assigned last. -/
theorem lastFor_map {μ : Type} (f : ν → μ) (ps : List (κ × ν)) (k : κ) :
    lastFor (ps.map fun p => (p.1, f p.2)) k = (lastFor ps k).map f := by
  induction ps using List.reverseRecOn with
  | nil => rfl
  | append_singleton ps p ih =>
    rw [List.map_append, List.map_singleton, lastFor_snoc, lastFor_snoc, ih]
    split <;> rfl

theorem assignAll_snoc (m : AList fun _ : κ => ν) (ps : List (κ × ν)) (p : κ × ν) :
    assignAll m (ps ++ [p]) = (assignAll m ps).insert p.1 p.2 := by
  rw [assignAll, List.foldl_append]
  rfl

/-- **A key has the value it was assigned last.** -/
theorem lookup_assignAll (m : AList fun _ : κ => ν) (ps : List (κ × ν)) (k : κ) :
    (assignAll m ps).lookup k = (lastFor ps k).or (m.lookup k) := by
  induction ps using List.reverseRecOn with
  | nil => rfl
  | append_singleton ps p ih =>
    rw [assignAll_snoc, lastFor_snoc]
    by_cases h : p.1 = k
    · subst h
      rw [AList.lookup_insert, if_pos rfl, Option.some_or]
    · rw [AList.lookup_insert_ne (Ne.symm h), if_neg h, ih]

/-- The keys are those that were there and those that are assigned. -/
theorem mem_assignAll : k ∈ assignAll m ps ↔ k ∈ m ∨ ∃ p ∈ ps, p.1 = k := by
  induction ps using List.reverseRecOn with
  | nil => simp [assignAll]
  | append_singleton ps p ih =>
    rw [assignAll_snoc, AList.mem_insert, ih]
    simp only [List.mem_append, List.mem_singleton, or_and_right, exists_or, exists_eq_left,
      eq_comm (a := k)]
    exact or_comm.trans or_assoc

/-- **A map a run only assigns to** is the assignments of the run. -/
theorem run_assigns {step : σ → α → σ} {emit : σ → α → Option (κ × ν)}
    {map : σ → AList fun _ : κ => ν}
    (hstep : ∀ s a, map (step s a) = assignAll (map s) (emit s a).toList) (s : σ) (as : List α) :
    map (run step s as) = assignAll (map s) (emitted step emit s as) := by
  induction as generalizing s with
  | nil => rfl
  | cons a as ih =>
    have htail := ih (step s a)
    rw [hstep] at htail
    rw [emitted, assignAll, List.foldl_append]
    exact htail

end Assign
end Runs
end ApexEngine
