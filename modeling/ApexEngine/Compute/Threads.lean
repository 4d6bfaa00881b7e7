import ApexEngine.Compute.ParallelRunner
import ApexEngine.Core.ForkJoin

/-!
# `ParallelRunner` with threads

`run` adds the workers up one after the other.  Here they are threads, which take their steps in
any order.  What they share is the array of results and the heap they have their scratchpads
from; the dataset, the configuration and the code are written by nobody.

A worker allocates a scratchpad, and when there is none to be had it reports a count of zero.
It clears the scratchpad, does a block of rows in every step, frees the scratchpad and reports
what it has counted.  The main thread starts the workers, joins them, and reads the results.

Alone, a worker counts what `workerThread` counts (`ends_iff`).  So what the general theorems
say about fork and join holds with the counts of `workerThread`: in every order of the steps
the result is the sum of the counts of the threads that had a scratchpad (`returned_eq`).
-/

namespace ApexEngine
namespace Compute

open ForkJoin (Next Program Reaches)
open Jit (Caller Scratch)

/-! ## The threads -/

section Threads

variable (callers : ℕ → ℕ → Caller) (slicer : BitSlicer) (fieldBuffers : ℕ → ℕ → ColumnBuffer)
  (data : Data) (totalRows : ℕ) (config : TaskConfig) (numThreads : ℤ)

/-- The locals of `worker_thread`. -/
structure WorkerLocals where
  row : ℕ
  fieldBuffers : ℕ → ColumnBuffer
  totalMatches : ℕ

/-- What a worker does next, at the head of its loop. -/
def workerNext (callers : ℕ → Caller) (endRow : ℕ) (l : WorkerLocals) (scratchpad : Scratch) :
    Next WorkerLocals Scratch ℕ :=
  if l.row < endRow then
    match workerBlock callers slicer config data endRow l.row ⟨l.fieldBuffers, scratchpad⟩ with
    | none => .fault
    | some (s, count) => .more ⟨l.row + 64, s.fieldBuffers, l.totalMatches + count⟩ s.scratchpad
  else .finish l.totalMatches

/-- `ParallelRunner::run` with its threads. -/
def threads : Program WorkerLocals Scratch ℕ ℕ where
  tasks := (tasks totalRows (threadCount numThreads)).length
  slots := threadCount numThreads
  start t :=
    let startRow := (task totalRows (threadCount numThreads) t).1
    ⟨startRow, fieldBuffers startRow, 0⟩
  fresh := fun _ => 0
  next t :=
    let interval := task totalRows (threadCount numThreads) t
    workerNext slicer data config (callers interval.1) interval.2
  zero := 0
  init := 0
  combine total count := total + count

end Threads

section Schedules

variable {callers : ℕ → ℕ → Caller} {slicer : BitSlicer} {fieldBuffers : ℕ → ℕ → ColumnBuffer}
  {data : Data} {totalRows : ℕ} {config : TaskConfig} {numThreads : ℤ} {t : ℕ}

theorem threads_tasks : (threads callers slicer fieldBuffers data totalRows config numThreads).tasks =
    started totalRows (threadCount numThreads) := by
  rw [threads, tasks_eq, List.length_map, List.length_range]
  rfl

/-- The first `k` blocks of the worker of an interval. -/
def firstBlocks (callers : ℕ → Caller) (slicer : BitSlicer) (config : TaskConfig) (data : Data)
    (buffers : ℕ → ColumnBuffer) (startRow endRow k : ℕ) : Option (WorkerState × ℕ) :=
  (List.range k).foldl
    (fun s j => Loop.accumulate (workerBlock callers slicer config data endRow)
      (startRow + j * 64) s) (some (⟨buffers, fun _ => 0⟩, 0))

theorem firstBlocks_succ {callers : ℕ → Caller} {buffers : ℕ → ColumnBuffer}
    {startRow endRow k : ℕ} :
    firstBlocks callers slicer config data buffers startRow endRow (k + 1) =
      (firstBlocks callers slicer config data buffers startRow endRow k).bind fun s =>
        (workerBlock callers slicer config data endRow (startRow + k * 64) s.1).map fun r =>
          (r.1, s.2 + r.2) := by
  rw [firstBlocks, List.range_succ, List.foldl_append, List.foldl_cons, List.foldl_nil]
  rfl

/-- **A worker alone** does the first blocks of its interval. -/
theorem alone_eq {k : ℕ} (hk : k ≤ Loop.trips (task totalRows (threadCount numThreads) t).1
      (task totalRows (threadCount numThreads) t).2 64) :
    (threads callers slicer fieldBuffers data totalRows config numThreads).alone t k =
      (firstBlocks (callers (task totalRows (threadCount numThreads) t).1) slicer config data
        (fieldBuffers (task totalRows (threadCount numThreads) t).1)
        (task totalRows (threadCount numThreads) t).1
        (task totalRows (threadCount numThreads) t).2 k).map fun s =>
          (⟨(task totalRows (threadCount numThreads) t).1 + k * 64, s.1.fieldBuffers, s.2⟩,
            s.1.scratchpad) := by
  induction k with
  | zero => simp [Program.alone, threads, firstBlocks]
  | succ k ih =>
    rw [Program.alone, ih (by omega), firstBlocks_succ]
    cases hblocks : firstBlocks (callers (task totalRows (threadCount numThreads) t).1) slicer
        config data (fieldBuffers (task totalRows (threadCount numThreads) t).1)
        (task totalRows (threadCount numThreads) t).1
        (task totalRows (threadCount numThreads) t).2 k with
    | none => rfl
    | some s =>
      have hrow := (Loop.lt_trips_iff (by omega : 0 < 64)).mp hk
      simp only [Option.map_some, Option.bind_some, threads, workerNext, if_pos hrow]
      cases hblock : workerBlock (callers (task totalRows (threadCount numThreads) t).1) slicer
          config data (task totalRows (threadCount numThreads) t).2
          ((task totalRows (threadCount numThreads) t).1 + k * 64) s.1 with
      | none => rfl
      | some r =>
        simp only [Option.map_some, Nat.succ_mul, Nat.add_assoc]

/-- **Alone, a worker counts what `workerThread` counts.** -/
theorem ends_iff {count : ℕ} :
    (∃ k, (threads callers slicer fieldBuffers data totalRows config numThreads).Ends t k count) ↔
      workerThread (callers (task totalRows (threadCount numThreads) t).1) slicer config data
        (fieldBuffers (task totalRows (threadCount numThreads) t).1)
        (task totalRows (threadCount numThreads) t).1
        (task totalRows (threadCount numThreads) t).2 = some count := by
  set interval := task totalRows (threadCount numThreads) t with hinterval
  have hthread : workerThread (callers interval.1) slicer config data (fieldBuffers interval.1)
      interval.1 interval.2 =
      (firstBlocks (callers interval.1) slicer config data (fieldBuffers interval.1) interval.1
        interval.2 (Loop.trips interval.1 interval.2 64)).map Prod.snd := rfl
  have hend : ¬ interval.1 + Loop.trips interval.1 interval.2 64 * 64 < interval.2 := by
    rw [← Loop.lt_trips_iff (by omega)]
    exact Nat.lt_irrefl _
  have hfinish : ∀ {buffers : ℕ → ColumnBuffer} {total : ℕ} {scratchpad : Scratch},
      (threads callers slicer fieldBuffers data totalRows config numThreads).next t
        ⟨interval.1 + Loop.trips interval.1 interval.2 64 * 64, buffers, total⟩ scratchpad =
        .finish total := by
    intro buffers total scratchpad
    simp only [threads, workerNext, ← hinterval, if_neg hend]
  rw [hthread, Option.map_eq_some_iff]
  constructor
  · rintro ⟨k, l, scratchpad, halone, hnext⟩
    -- a worker that finishes has done all of its blocks
    have hk : k = Loop.trips interval.1 interval.2 64 := by
      rcases Nat.lt_or_ge (Loop.trips interval.1 interval.2 64) k with hlt | hle
      · exfalso
        cases hall : (threads callers slicer fieldBuffers data totalRows config numThreads).alone t
            (Loop.trips interval.1 interval.2 64) with
        | none =>
          rw [ForkJoin.alone_none hall (Nat.le_of_lt hlt)] at halone
          exact absurd halone (by simp)
        | some s =>
          have heq := hall
          rw [alone_eq le_rfl] at heq
          obtain ⟨r, -, rfl⟩ := Option.map_eq_some_iff.mp heq
          have hends : (threads callers slicer fieldBuffers data totalRows config numThreads).Ends t
              (Loop.trips interval.1 interval.2 64) r.2 := ⟨_, _, hall, hfinish⟩
          rw [hends.alone_eq_none hlt] at halone
          exact absurd halone (by simp)
      · have heq := halone
        rw [alone_eq hle] at heq
        obtain ⟨r, -, hr⟩ := Option.map_eq_some_iff.mp heq
        obtain ⟨rfl, rfl⟩ := Prod.mk.inj hr
        rcases Nat.lt_or_eq_of_le hle with hlt | hk
        · have hrow := (Loop.lt_trips_iff (by omega : 0 < 64)).mp hlt
          simp only [threads, workerNext, ← hinterval, if_pos hrow] at hnext
          split at hnext
          · exact absurd hnext (by simp)
          · exact absurd hnext (by simp)
        · exact hk
    subst hk
    rw [alone_eq le_rfl] at halone
    obtain ⟨r, hr, heq⟩ := Option.map_eq_some_iff.mp halone
    obtain ⟨rfl, rfl⟩ := Prod.mk.inj heq
    exact ⟨r, hr, Next.finish.inj (hfinish.symm.trans hnext)⟩
  · rintro ⟨r, hr, rfl⟩
    have halone : (threads callers slicer fieldBuffers data totalRows config numThreads).alone t
        (Loop.trips interval.1 interval.2 64) = some
          (⟨interval.1 + Loop.trips interval.1 interval.2 64 * 64, r.1.fieldBuffers, r.2⟩,
            r.1.scratchpad) := by
      rw [alone_eq le_rfl, ← hinterval, hr, Option.map_some]
    exact ⟨_, _, _, halone, hfinish⟩

/-- The main thread adds up what is in the slots. -/
theorem total_eq (f : ℕ → ℕ) (n : ℕ) :
    (threads callers slicer fieldBuffers data totalRows config numThreads).total f n =
      ∑ t ∈ Finset.range n, f t := by
  induction n with
  | zero => rfl
  | succ n ih =>
    rw [Finset.sum_range_succ, ← ih, Program.total, List.range_succ, List.foldl_append]
    rfl

theorem sumTasks_map {worker : ℕ × ℕ → Option ℕ} {interval : ℕ → ℕ × ℕ} {count : ℕ → ℕ} {n : ℕ}
    (h : ∀ t < n, worker (interval t) = some (count t)) :
    sumTasks worker ((List.range n).map interval) = some (∑ t ∈ Finset.range n, count t) := by
  have hlist : ∀ l : List ℕ, (∀ t ∈ l, t < n) →
      sumTasks worker (l.map interval) = some (l.map count).sum := by
    intro l hl
    induction l with
    | nil => rfl
    | cons t l ih =>
      rw [List.map_cons, sumTasks, h t (hl t List.mem_cons_self),
        ih fun u hu => hl u (List.mem_cons_of_mem t hu), Option.bind_some, Option.map_some,
        List.map_cons, List.sum_cons]
  rw [hlist _ fun t ht => List.mem_range.mp ht]
  rfl

/-- **One after the other, the workers add up** to the sum of what they count. -/
theorem run_eq_sum {count : ℕ → ℕ}
    (hcount : ∀ t < started totalRows (threadCount numThreads),
      workerThread (callers (task totalRows (threadCount numThreads) t).1) slicer config data
        (fieldBuffers (task totalRows (threadCount numThreads) t).1)
        (task totalRows (threadCount numThreads) t).1
        (task totalRows (threadCount numThreads) t).2 = some (count t)) :
    run callers slicer fieldBuffers data totalRows config numThreads =
      some (∑ t ∈ Finset.range (started totalRows (threadCount numThreads)), count t) := by
  have htasks : sumTasks (fun p => workerThread (callers p.1) slicer config data
      (fieldBuffers p.1) p.1 p.2) (tasks totalRows (threadCount numThreads)) =
      some (∑ t ∈ Finset.range (started totalRows (threadCount numThreads)), count t) := by
    rw [tasks_eq]
    exact sumTasks_map hcount
  rw [run]
  split
  · rename_i hzero
    subst hzero
    rwa [tasks_zero] at htasks
  · exact htasks

/-- **The workers count alone**: they end when `workerThread` returns. -/
theorem ends_of_workerThread {count : ℕ → ℕ}
    (hcount : ∀ t < started totalRows (threadCount numThreads),
      workerThread (callers (task totalRows (threadCount numThreads) t).1) slicer config data
        (fieldBuffers (task totalRows (threadCount numThreads) t).1)
        (task totalRows (threadCount numThreads) t).1
        (task totalRows (threadCount numThreads) t).2 = some (count t)) :
    ∃ k : ℕ → ℕ, ∀ t < (threads callers slicer fieldBuffers data totalRows config numThreads).tasks,
      (threads callers slicer fieldBuffers data totalRows config numThreads).Ends t (k t)
        (count t) := by
  have hends : ∀ t < (threads callers slicer fieldBuffers data totalRows config numThreads).tasks,
      ∃ k, (threads callers slicer fieldBuffers data totalRows config numThreads).Ends t k
        (count t) := by
    intro t ht
    rw [threads_tasks] at ht
    exact ends_iff.mpr (hcount t ht)
  choose! k hk using hends
  exact ⟨k, hk⟩

/-- **What the main thread returns**, in every order of the steps: the sum of the counts of the
threads that had a scratchpad.  No scratchpad is left behind. -/
theorem returned_eq {count : ℕ → ℕ}
    (hcount : ∀ t < started totalRows (threadCount numThreads),
      workerThread (callers (task totalRows (threadCount numThreads) t).1) slicer config data
        (fieldBuffers (task totalRows (threadCount numThreads) t).1)
        (task totalRows (threadCount numThreads) t).1
        (task totalRows (threadCount numThreads) t).2 = some (count t))
    {n : ℕ} {s : ForkJoin.State WorkerLocals Scratch ℕ ℕ}
    (h : Reaches (threads callers slicer fieldBuffers data totalRows config numThreads) n s)
    {total : ℕ} (hret : s.main = .returned total) :
    ∃ allocated : ℕ → Bool,
      (∀ t < started totalRows (threadCount numThreads), s.phase t = .exited (allocated t)) ∧
      total = ∑ t ∈ Finset.range (started totalRows (threadCount numThreads)) with
        allocated t = true, count t ∧
      ∀ a, s.heap a = none := by
  obtain ⟨k, hk⟩ := ends_of_workerThread hcount
  obtain ⟨allocated, f, hexited, hends, hzero, htotal, hheap⟩ := h.returned hret
  rw [threads_tasks] at hexited hends hzero hk
  refine ⟨allocated, hexited, ?_, hheap⟩
  have hslots : started totalRows (threadCount numThreads) ≤ threadCount numThreads :=
    Nat.min_le_left _ _
  rw [htotal, total_eq]
  show ∑ t ∈ Finset.range (threadCount numThreads), f t = _
  rw [Finset.sum_filter, ← Finset.sum_subset (Finset.range_mono hslots)]
  · refine Finset.sum_congr rfl fun t ht => ?_
    have hlt := Finset.mem_range.mp ht
    split
    · rename_i htrue
      obtain ⟨j, hj⟩ := hends t hlt htrue
      exact (hj.unique (hk t hlt)).2
    · rename_i hfalse
      exact hzero t fun _ => Bool.eq_false_iff.mpr hfalse
  · intro t _ ht
    exact hzero t fun hlt => absurd (Finset.mem_range.mpr hlt) ht

/-- **The threads do not race.**  Whatever order the steps have been taken in, no two threads
are about to access the same scratchpad or the same slot of the results, and no two threads
have the same scratchpad. -/
theorem threads_race_free {n : ℕ} {s : ForkJoin.State WorkerLocals Scratch ℕ ℕ}
    (h : Reaches (threads callers slicer fieldBuffers data totalRows config numThreads) n s) :
    (∀ i j as bs s₁ s₂, i ≠ j →
      ForkJoin.Step (threads callers slicer fieldBuffers data totalRows config numThreads) i as
        s s₁ →
      ForkJoin.Step (threads callers slicer fieldBuffers data totalRows config numThreads) j bs
        s s₂ →
      ∀ x ∈ as, ∀ y ∈ bs, x.loc ≠ y.loc) ∧
    ∀ t u a, (s.phase t).address = some a → (s.phase u).address = some a → t = u := by
  obtain ⟨d, hinv, -⟩ := h.inv
  exact ⟨fun i j as bs s₁ s₂ hij hi hj => h.no_race hij hi hj, hinv.own⟩

end Schedules

/-- Two threads on 128 rows, for a kernel without fields. -/
def sampleThreads : Program WorkerLocals Scratch ℕ ℕ :=
  threads (fun _ _ => Caller.standard [] (by decide)) .portable (fun _ _ _ => 0) (fun _ => 0) 128
    ⟨[], [], 8, .scalar⟩ 2

/-- Both have just started and get no scratchpad. -/
theorem threads_race_free_two : ∃ s s₁ s₂,
    ForkJoin.Step sampleThreads (.worker 0) [.write (.result 0)] s s₁ ∧
    ForkJoin.Step sampleThreads (.worker 1) [.write (.result 1)] s s₂ ∧
    ForkJoin.Access.loc (.write (.result 0)) ≠ ForkJoin.Access.loc (.write (.result 1)) := by
  have hnoMemory : ∀ (s : ForkJoin.State WorkerLocals Scratch ℕ ℕ) (t : ℕ),
      s.main.isTerminated = false → s.phase t = .born →
      ∃ s', ForkJoin.Step sampleThreads (.worker t) [.write (.result t)] s s' := by
    intro s t hlive hborn
    refine ⟨_, .worker hlive (p := .exited false) (h := s.heap) (r := 0) ?_⟩
    rw [hborn]
    exact .noMemory
  obtain ⟨s, hreaches, hlive, hborn₀, hborn₁⟩ : ∃ s, Reaches sampleThreads 2 s ∧
      s.main.isTerminated = false ∧ s.phase 0 = .born ∧ s.phase 1 = .born :=
    ⟨_, (ForkJoin.Reaches.start.step (.main (.fork (by decide)))).step (.main (.fork (by decide))),
      rfl, rfl, rfl⟩
  obtain ⟨s₁, hi⟩ := hnoMemory s 0 hlive hborn₀
  obtain ⟨s₂, hj⟩ := hnoMemory s 1 hlive hborn₁
  exact ⟨s, s₁, s₂, hi, hj, (threads_race_free hreaches).1 _ _ _ _ _ _ (by simp) hi hj
    _ List.mem_cons_self _ List.mem_cons_self⟩

end Compute
end ApexEngine
