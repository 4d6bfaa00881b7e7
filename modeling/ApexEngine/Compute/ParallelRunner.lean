import ApexEngine.Compute.Columns
import ApexEngine.Machine.Blocks
import Mathlib.Data.List.TakeWhile
import Mathlib.Tactic.Ring

/-!
# `ParallelRunner`

`run` cuts the rows into intervals, one for each thread, and adds up what the workers
count.  A worker has buffers and a scratchpad of its own and shares only what nobody
writes, so the order in which the workers take their steps does not matter and the
result is a sum over the intervals (`sumTasks`).

The intervals start at the multiples of `rowsPerThread`, a multiple of 64 that is
rounded down, and never less than 64.  Every interval but that of the last thread is
that long, whether the rows are there or not, and the last thread's goes to the end;
so the interval of the last thread that is started is too long when threads are left
over and 64 does not divide the number of rows.  `exactPartition_iff` says exactly when
the intervals are what they should be.

A worker dereferences the descriptor of every slot without a test, clears its
scratchpad once, and otherwise does what the serial loop does to the same rows
(`workerThread_eq`).
-/

namespace ApexEngine
namespace Compute

open A64 (Word Item)
open Core (FieldDescriptor)
open Jit (ExecutionMode Caller Planes Scratch)

/-- `ParallelRunner::TaskConfig`. -/
structure TaskConfig where
  kernel : List Item
  fields : List (Option FieldDescriptor)
  rowStride : ℕ
  mode : ExecutionMode

/-! ## A worker -/

section Worker

variable (callers : ℕ → Caller) (slicer : BitSlicer) (config : TaskConfig) (data : Data)

/-- One iteration of a worker's field loop.  The descriptor is dereferenced; a null one
is a fault. -/
def workerField (chunkBase rowsInChunk : ℕ) (f : ℕ) (s : Option Staging) : Option Staging :=
  s.bind fun s => (config.fields.getD f none).map fun field =>
    s.loadColumn slicer config.mode f
      (gather (fun i => memcpy8 data (chunkBase + i * config.rowStride + field.offset.toNat))
        rowsInChunk (s.fieldBuffers f))

/-- What a worker keeps from one block to the next. -/
structure WorkerState where
  fieldBuffers : ℕ → ColumnBuffer
  scratchpad : Scratch

/-- One block of a worker: its rows are gathered, the kernel is called, and the bits of
its mask are counted. -/
def workerBlock (endRow row : ℕ) (s : WorkerState) : Option (WorkerState × ℕ) :=
  let chunkBase := row * config.rowStride
  let rowsInChunk := min 64 (endRow - row)
  (Loop.forUp 0 (min config.fields.length 8) 1
      (workerField slicer config data chunkBase rowsInChunk)
      (some ⟨s.fieldBuffers, fun _ => none⟩)).bind fun staging =>
    ((callers row).callExpr config.kernel staging.fieldPlanes s.scratchpad).map fun r =>
      (⟨staging.fieldBuffers, r.2⟩, popcount r.1)

/-- A block of some data: where its rows end and where it starts. -/
structure Block where
  data : Data
  endRow : ℕ
  row : ℕ

/-- What a worker has after some blocks, of any data. -/
def workerBlocks : List Block → WorkerState → Option WorkerState
  | [], s => some s
  | b :: bs, s =>
      (workerBlock callers slicer config b.data b.endRow b.row s).bind fun r =>
        workerBlocks bs r.1

/-- `worker_thread`, with what its buffers happen to contain. -/
def workerThread (fieldBuffers : ℕ → ColumnBuffer) (startRow endRow : ℕ) : Option ℕ :=
  (Loop.forUp startRow endRow 64 (Loop.accumulate (workerBlock callers slicer config data endRow))
    (some (⟨fieldBuffers, fun _ => 0⟩, 0))).map Prod.snd

end Worker

/-- The rows a worker copies fields of: those of each block, in the order of the
gathers. -/
def rowsRead (startRow endRow : ℕ) : List ℕ :=
  Loop.forUp startRow endRow 64
    (fun row rows => rows ++ (List.range (min 64 (endRow - row))).map (row + ·)) []

/-! ## The intervals -/

/-- `num_threads`, when it is not positive one. -/
def threadCount (numThreads : ℤ) : ℕ := if numThreads ≤ 0 then 1 else numThreads.toNat

theorem threadCount_pos (numThreads : ℤ) : 0 < threadCount numThreads := by
  unfold threadCount
  split <;> omega

/-- `rows_per_thread`. -/
def rowsPerThread (totalRows threads : ℕ) : ℕ :=
  let rows := totalRows / threads / 64 * 64
  if rows = 0 then 64 else rows

/-- The interval of thread `t`. -/
def task (totalRows threads t : ℕ) : ℕ × ℕ :=
  let start := t * rowsPerThread totalRows threads
  (start, if t = threads - 1 then totalRows else start + rowsPerThread totalRows threads)

/-- The intervals handed out: the loop breaks at the first that starts beyond the
rows. -/
def tasks (totalRows threads : ℕ) : List (ℕ × ℕ) :=
  ((List.range threads).map (task totalRows threads)).takeWhile fun p => p.1 < totalRows

/-- Add up the counts of the workers. -/
def sumTasks (worker : ℕ × ℕ → Option ℕ) : List (ℕ × ℕ) → Option ℕ
  | [] => some 0
  | p :: ps => (worker p).bind fun count => (sumTasks worker ps).map fun total => count + total

/-- `ParallelRunner::run`.  What a worker's buffers contain and how its calls enter the
kernel is given by the start of its interval. -/
def run (callers : ℕ → ℕ → Caller) (slicer : BitSlicer) (fieldBuffers : ℕ → ℕ → ColumnBuffer)
    (data : Data) (totalRows : ℕ) (config : TaskConfig) (numThreads : ℤ) : Option ℕ :=
  if totalRows = 0 then some 0
  else
    sumTasks (fun p =>
        workerThread (callers p.1) slicer config data (fieldBuffers p.1) p.1 p.2)
      (tasks totalRows (threadCount numThreads))

/-! ## What a worker computes -/

section Correct

variable {callers : ℕ → Caller} {slicer : BitSlicer} {config : TaskConfig} {data : Data}

/-- The field loop, when every slot is bound. -/
theorem workerFields_spec (hbound : ∀ f < min config.fields.length 8,
      (config.fields.getD f none).isSome) (slicer : BitSlicer) (data : Data) (chunkBase : ℕ)
    {rows : ℕ} (hrows : rows ≤ 64) (buffers : ℕ → ColumnBuffer) :
    ∃ s, Loop.forUp 0 (min config.fields.length 8) 1
        (workerField slicer config data chunkBase rows) (some ⟨buffers, fun _ => none⟩) = some s ∧
      ShowsFields config.mode config.fields s.fieldPlanes
        (blockColumn data chunkBase config.rowStride rows) := by
  have hloop : ∃ s, Loop.forUp 0 (min config.fields.length 8) 1
        (workerField slicer config data chunkBase rows) (some ⟨buffers, fun _ => none⟩) = some s ∧
      Staged config.mode config.fields (blockColumn data chunkBase config.rowStride rows)
        (min config.fields.length 8) s := by
    refine Loop.forUp_inv_of_dvd (P := fun i o => ∃ s, o = some s ∧
      Staged config.mode config.fields (blockColumn data chunkBase config.rowStride rows) i s)
      Nat.one_pos (Nat.zero_le _) (Nat.one_dvd _) ⟨_, rfl, Staged.start buffers⟩ ?_
    rintro i o hi - ⟨s, rfl, hs⟩
    obtain ⟨field, hfield⟩ := Option.isSome_iff_exists.mp (hbound i hi)
    refine ⟨s.loadColumn slicer config.mode i (gather (fun r => memcpy8 data
      (chunkBase + r * config.rowStride + field.offset.toNat)) rows (s.fieldBuffers i)), ?_,
      hs.loadColumn hfield fun r hr => ?_⟩
    · rw [workerField, Option.bind_some, hfield, Option.map_some]
    · rw [gather_apply hrows, if_pos hr]
      rfl
  obtain ⟨s, hs, hstaged⟩ := hloop
  exact ⟨s, hs, hstaged.showsFields⟩

/-- **What one block counts**, on a scratchpad the kernel can rely on. -/
theorem workerBlock_eq (hbound : ∀ f < min config.fields.length 8,
      (config.fields.getD f none).isSome) {row endRow count : ℕ} {I : Scratch → Prop}
    (hcall : Answers (callers row) config.kernel config.mode config.fields
      (blockColumn data (row * config.rowStride) config.rowStride (min 64 (endRow - row))) I
      fun m S => popcount m = count ∧ I S) {s : WorkerState} (hs : I s.scratchpad) :
    ∃ s', workerBlock callers slicer config data endRow row s = some (s', count) ∧
      I s'.scratchpad := by
  obtain ⟨staging, hstaging, hshows⟩ := workerFields_spec hbound slicer data
    (row * config.rowStride) (Nat.min_le_left 64 (endRow - row)) s.fieldBuffers
  obtain ⟨m, S, hrun, hm, hS⟩ := hcall staging.fieldPlanes s.scratchpad hshows hs
  refine ⟨⟨staging.fieldBuffers, S⟩, ?_, hS⟩
  simp only [workerBlock, hstaging, Option.bind_some, hrun, Option.map_some, hm]

/-- Blocks keep what the kernel relies on. -/
theorem workerBlocks_inv (hbound : ∀ f < min config.fields.length 8,
      (config.fields.getD f none).isSome) {I : Scratch → Prop} {count : Block → ℕ}
    (hcall : ∀ b : Block, Answers (callers b.row) config.kernel config.mode config.fields
      (blockColumn b.data (b.row * config.rowStride) config.rowStride (min 64 (b.endRow - b.row))) I
      fun m S => popcount m = count b ∧ I S) (bs : List Block) {s : WorkerState}
    (hs : I s.scratchpad) :
    ∃ s', workerBlocks callers slicer config bs s = some s' ∧ I s'.scratchpad := by
  induction bs generalizing s with
  | nil => exact ⟨s, rfl, hs⟩
  | cons b bs ih =>
    obtain ⟨s₁, hs₁, hI₁⟩ := workerBlock_eq hbound (hcall b) hs
    obtain ⟨s₂, hs₂, hI₂⟩ := ih hI₁
    refine ⟨s₂, ?_, hI₂⟩
    rw [workerBlocks, hs₁, Option.bind_some, hs₂]

/-- **What a worker counts**: what the kernel's masks have on its blocks, when the kernel
keeps an invariant of the scratchpad. -/
theorem workerThread_eq (hbound : ∀ f < min config.fields.length 8,
      (config.fields.getD f none).isSome) {startRow endRow : ℕ} {count : ℕ → ℕ}
    {I : Scratch → Prop} (hzero : I fun _ => 0)
    (hcall : ∀ c, startRow + c * 64 < endRow →
      Answers (callers (startRow + c * 64)) config.kernel config.mode config.fields
        (blockColumn data ((startRow + c * 64) * config.rowStride) config.rowStride
          (min 64 (endRow - (startRow + c * 64)))) I
        fun m S => popcount m = count (startRow + c * 64) ∧ I S)
    (fieldBuffers : ℕ → ColumnBuffer) :
    workerThread callers slicer config data fieldBuffers startRow endRow =
      some (Blocks.blockSum 64 (endRow - startRow) fun start _ => count (startRow + start)) := by
  have hstep : ∀ c, startRow + c * 64 < endRow → ∀ s : WorkerState, I s.scratchpad →
      ∃ s', workerBlock callers slicer config data endRow (startRow + c * 64) s =
        some (s', count (startRow + c * 64)) ∧ I s'.scratchpad := by
    intro c hc s hI
    exact workerBlock_eq hbound (hcall c hc) hI
  obtain ⟨s, hs, -⟩ := Loop.forUp_accumulate (fun s : WorkerState => I s.scratchpad)
    count (by omega) hstep (s := ⟨fieldBuffers, fun _ => 0⟩) hzero
  rw [workerThread, hs, Option.map_some]
  rfl

end Correct

/-! ## Where the intervals are right -/

/-- The intervals are disjoint, cover the rows, and no worker reads a row that is not
there. -/
structure ExactPartition (totalRows : ℕ) (intervals : List (ℕ × ℕ)) : Prop where
  disjoint : intervals.Pairwise fun p q =>
    ∀ row, ¬ ((p.1 ≤ row ∧ row < p.2) ∧ q.1 ≤ row ∧ row < q.2)
  cover : ∀ row < totalRows, ∃ p ∈ intervals, p.1 ≤ row ∧ row < p.2
  inBounds : ∀ p ∈ intervals, ∀ row ∈ rowsRead p.1 p.2, row < totalRows

/-- The rows divide well among the threads: they are none, or whole blocks, or at least
a block for every thread, or there are enough blocks to keep all threads busy. -/
def Divides (totalRows threads : ℕ) : Prop :=
  totalRows = 0 ∨ 64 ∣ totalRows ∨ 64 ≤ totalRows / threads ∨ 64 * (threads - 1) < totalRows

instance (totalRows threads : ℕ) : Decidable (Divides totalRows threads) := by
  unfold Divides
  infer_instance

/-- **A worker reads the rows of its interval.** -/
theorem mem_rowsRead {startRow endRow row : ℕ} :
    row ∈ rowsRead startRow endRow ↔ startRow ≤ row ∧ row < endRow := by
  have h : startRow ≤ Loop.last startRow endRow 64 ∧ ∀ row, row ∈ rowsRead startRow endRow ↔
      startRow ≤ row ∧ row < min (Loop.last startRow endRow 64) endRow := by
    refine Loop.forUp_inv (P := fun i rows => startRow ≤ i ∧
      ∀ row, row ∈ rows ↔ startRow ≤ row ∧ row < min i endRow) (by omega)
      ⟨le_rfl, fun row => by simp; omega⟩ ?_
    rintro i rows hi ⟨j, rfl⟩ ⟨hle, hrows⟩
    refine ⟨by omega, fun row => ?_⟩
    rw [List.mem_append, hrows, List.mem_map]
    constructor
    · rintro (h | ⟨k, hk, rfl⟩)
      · omega
      · have := List.mem_range.mp hk
        omega
    · rintro ⟨h₁, h₂⟩
      by_cases hlt : row < startRow + j * 64
      · exact Or.inl ⟨h₁, by omega⟩
      · exact Or.inr ⟨row - (startRow + j * 64), List.mem_range.mpr (by omega), by omega⟩
  have hlast : endRow ≤ Loop.last startRow endRow 64 := by
    rw [Loop.last, Loop.trips]
    omega
  rw [h.2 row]
  omega

section Intervals

variable {totalRows threads : ℕ}

theorem rowsPerThread_pos (totalRows threads : ℕ) : 0 < rowsPerThread totalRows threads := by
  unfold rowsPerThread
  simp only
  split <;> omega

theorem dvd_rowsPerThread (totalRows threads : ℕ) : 64 ∣ rowsPerThread totalRows threads := by
  unfold rowsPerThread
  simp only
  split
  · exact dvd_rfl
  · exact Nat.dvd_mul_left _ _

/-- The threads that are started have one interval each, until the rows are used up. -/
theorem tasks_eq (totalRows threads : ℕ) : tasks totalRows threads =
    (List.range (min threads (Blocks.count (rowsPerThread totalRows threads) totalRows))).map
      (task totalRows threads) := by
  have hpos := rowsPerThread_pos totalRows threads
  rw [tasks, List.takeWhile_map]
  congr 1
  have htest : ((fun p : ℕ × ℕ => decide (p.1 < totalRows)) ∘ task totalRows threads) =
      fun t => decide (t < Blocks.count (rowsPerThread totalRows threads) totalRows) := by
    funext t
    rw [Function.comp_apply, task, decide_eq_decide, Blocks.lt_count_iff hpos]
  rw [htest]
  generalize Blocks.count (rowsPerThread totalRows threads) totalRows = m
  rcases Nat.le_total threads m with hle | hle
  · rw [Nat.min_eq_left hle, List.takeWhile_eq_self_iff]
    exact fun t ht => decide_eq_true (Nat.lt_of_lt_of_le (List.mem_range.mp ht) hle)
  · rw [Nat.min_eq_right hle]
    obtain ⟨k, rfl⟩ := Nat.exists_eq_add_of_le hle
    rw [List.range_add, List.takeWhile_append_of_pos
      (fun t ht => decide_eq_true (List.mem_range.mp ht))]
    cases k with
    | zero => simp
    | succ k => simp [List.range_succ_eq_map]

/-- Enough rows for every thread to start. -/
def AllStart (totalRows threads : ℕ) : Prop :=
  (threads - 1) * rowsPerThread totalRows threads < totalRows

/-- When rows per thread is not the forced minimum, every thread starts. -/
theorem allStart_of_le (hthreads : 0 < threads) (h : 64 ≤ totalRows / threads) :
    AllStart totalRows threads := by
  have hr : rowsPerThread totalRows threads ≤ totalRows / threads := by
    unfold rowsPerThread
    simp only
    split <;> omega
  have hmul : (threads - 1) * rowsPerThread totalRows threads ≤
      (threads - 1) * (totalRows / threads) := Nat.mul_le_mul_left _ hr
  have hdiv : threads * (totalRows / threads) ≤ totalRows := Nat.mul_div_le _ _
  have hsplit : threads * (totalRows / threads) =
      (threads - 1) * (totalRows / threads) + totalRows / threads := by
    rw [← Nat.succ_mul, Nat.succ_eq_add_one, Nat.sub_add_cancel hthreads]
  unfold AllStart
  omega

theorem rowsPerThread_of_lt (h : totalRows / threads < 64) :
    rowsPerThread totalRows threads = 64 := by
  unfold rowsPerThread
  rw [Nat.div_eq_of_lt h]
  rfl

/-- The condition on the rows, in terms of the threads that start. -/
theorem divides_iff (hthreads : 0 < threads) : Divides totalRows threads ↔
    totalRows = 0 ∨ AllStart totalRows threads ∨
      rowsPerThread totalRows threads ∣ totalRows := by
  unfold Divides
  rcases Nat.lt_or_ge (totalRows / threads) 64 with hlt | hge
  · have hr := rowsPerThread_of_lt hlt
    have hnot : ¬ 64 ≤ totalRows / threads := by omega
    simp only [AllStart, hr, hnot, false_or, Nat.mul_comm]
    tauto
  · simp only [hge, allStart_of_le hthreads hge, true_or, or_true]

/-- The number of threads that start. -/
def started (totalRows threads : ℕ) : ℕ :=
  min threads (Blocks.count (rowsPerThread totalRows threads) totalRows)

theorem lt_started {t : ℕ} (ht : t < started totalRows threads) :
    t * rowsPerThread totalRows threads < totalRows :=
  (Blocks.lt_count_iff (rowsPerThread_pos _ _)).mp (Nat.lt_of_lt_of_le ht (Nat.min_le_right _ _))

/-- When some thread does not start, the last one that does is not the last thread. -/
theorem started_of_not_allStart (h : ¬ AllStart totalRows threads) :
    started totalRows threads = Blocks.count (rowsPerThread totalRows threads) totalRows ∧
      ∀ t < started totalRows threads, t ≠ threads - 1 := by
  have hcount : ¬ threads - 1 < Blocks.count (rowsPerThread totalRows threads) totalRows := by
    rw [Blocks.lt_count_iff (rowsPerThread_pos _ _)]
    exact h
  unfold started
  constructor
  · omega
  · intro t ht
    omega

/-- **The intervals when the rows divide well**: as long as `rowsPerThread`, but for the
last, which ends with the rows. -/
theorem task_snd (hthreads : 0 < threads) (hrows : 0 < totalRows)
    (hdiv : Divides totalRows threads) {t : ℕ} (ht : t < started totalRows threads) :
    (task totalRows threads t).2 =
      if t + 1 = started totalRows threads then totalRows
      else (t + 1) * rowsPerThread totalRows threads := by
  by_cases hall : AllStart totalRows threads
  · have hstarted : started totalRows threads = threads := by
      have := (Blocks.lt_count_iff (rowsPerThread_pos totalRows threads)).mpr hall
      unfold started
      omega
    rw [hstarted, task, Nat.succ_mul]
    exact if_congr (by omega) rfl rfl
  · obtain ⟨hstarted, hne⟩ := started_of_not_allStart hall
    have hdvd := (((divides_iff hthreads).mp hdiv).resolve_left (by omega)).resolve_left hall
    rw [task, if_neg (hne t ht), Nat.succ_mul]
    split
    · -- the last interval is full
      rename_i hlast
      rw [← Nat.succ_mul, Nat.succ_eq_add_one, hlast, hstarted,
        Blocks.count_mul_of_dvd (rowsPerThread_pos _ _) hdvd]
    · rfl

/-- A thread is started for some row, when there is one. -/
theorem started_pos (hthreads : 0 < threads) (hrows : 0 < totalRows) :
    0 < started totalRows threads :=
  Nat.lt_min.mpr ⟨hthreads, (Blocks.lt_count_iff (rowsPerThread_pos _ _)).mpr (by omega)⟩

/-- Where the interval of a thread before the last that is started ends. -/
theorem succ_mul_le {t : ℕ} (ht : t + 1 < started totalRows threads) :
    (t + 1) * rowsPerThread totalRows threads ≤ totalRows :=
  Nat.le_of_lt (lt_started ht)

theorem mem_tasks {p : ℕ × ℕ} :
    p ∈ tasks totalRows threads ↔ ∃ t < started totalRows threads, task totalRows threads t = p := by
  rw [tasks_eq, List.mem_map]
  exact exists_congr fun t => and_congr_left fun _ => List.mem_range

theorem tasks_zero (threads : ℕ) : tasks 0 threads = [] := by
  have hpos := rowsPerThread_pos 0 threads
  rw [tasks_eq, Blocks.count, Nat.div_eq_of_lt (by omega), Nat.min_zero, List.range_zero,
    List.map_nil]

/-- An exact partition leaves nothing over. -/
theorem divides_of_exactPartition (hthreads : 0 < threads) (hrows : 0 < totalRows)
    (h : ExactPartition totalRows (tasks totalRows threads)) : Divides totalRows threads := by
  have hpos := rowsPerThread_pos totalRows threads
  rw [divides_iff hthreads]
  by_contra hnot
  obtain ⟨-, hall, hdvd⟩ : ¬ totalRows = 0 ∧ ¬ AllStart totalRows threads ∧
      ¬ rowsPerThread totalRows threads ∣ totalRows := by
    simpa only [not_or] using hnot
  obtain ⟨hstarted, hne⟩ := started_of_not_allStart hall
  -- the last interval that is handed out is longer than what is left
  have hspos := started_pos hthreads hrows
  have hlast : started totalRows threads - 1 < started totalRows threads := by omega
  have htask : task totalRows threads (started totalRows threads - 1) =
      ((started totalRows threads - 1) * rowsPerThread totalRows threads,
        started totalRows threads * rowsPerThread totalRows threads) := by
    rw [task, if_neg (hne _ hlast), ← Nat.succ_mul, Nat.succ_eq_add_one,
      Nat.sub_add_cancel hspos]
  have hcover : totalRows ≤ started totalRows threads * rowsPerThread totalRows threads := by
    rw [hstarted]
    exact Blocks.le_count_mul hpos
  have hread := h.inBounds _ (mem_tasks.mpr ⟨_, hlast, htask⟩)
    (started totalRows threads * rowsPerThread totalRows threads - 1)
    (mem_rowsRead.mpr ⟨by have := lt_started hlast; omega, by
      have := Nat.mul_pos hspos hpos
      omega⟩)
  exact hdvd ⟨started totalRows threads, by rw [Nat.mul_comm]; omega⟩
/-- Where the rows divide well, every row is in the interval of its quotient, or in the last
one that is handed out. -/
theorem exactPartition_of_divides (hthreads : 0 < threads) (hrows : 0 < totalRows)
    (h : Divides totalRows threads) : ExactPartition totalRows (tasks totalRows threads) := by
  have hpos := rowsPerThread_pos totalRows threads
  have hsnd := fun t ht => task_snd (t := t) hthreads hrows h ht
  refine ⟨?_, fun row hrow => ?_, fun p hp row hread => ?_⟩
  · rw [tasks_eq, List.pairwise_map]
    refine List.pairwise_lt_range.imp_of_mem fun {t u} ht hu htu row hboth => ?_
    have hu' := List.mem_range.mp hu
    have hend := hsnd t (List.mem_range.mp ht)
    rw [if_neg (by unfold started; omega)] at hend
    have hle : (t + 1) * rowsPerThread totalRows threads ≤
        u * rowsPerThread totalRows threads := Nat.mul_le_mul_right _ htu
    have hstart : (task totalRows threads u).1 = u * rowsPerThread totalRows threads := rfl
    omega
  · have hspos := started_pos hthreads hrows
    have hlo := Nat.div_mul_le_self row (rowsPerThread totalRows threads)
    have hhi := Nat.lt_div_mul_add hpos (a := row)
    by_cases hlt : row / rowsPerThread totalRows threads + 1 < started totalRows threads
    · refine ⟨_, mem_tasks.mpr ⟨row / rowsPerThread totalRows threads, by omega, rfl⟩, hlo, ?_⟩
      rw [hsnd _ (by omega), if_neg (by omega), Nat.succ_mul]
      exact hhi
    · refine ⟨_, mem_tasks.mpr ⟨started totalRows threads - 1, by omega, rfl⟩, ?_, ?_⟩
      · exact (Nat.mul_le_mul_right _ (by omega)).trans hlo
      · rw [hsnd _ (by omega), if_pos (by omega)]
        exact hrow
  · obtain ⟨t, ht, rfl⟩ := mem_tasks.mp hp
    have hlt := (mem_rowsRead.mp hread).2
    rw [hsnd t ht] at hlt
    split at hlt
    · exact hlt
    · exact hlt.trans_le (succ_mul_le (by omega))

/-- **The intervals are an exact partition of the rows exactly when the rows divide
well** among the threads. -/
theorem exactPartition_iff (hthreads : 0 < threads) :
    ExactPartition totalRows (tasks totalRows threads) ↔ Divides totalRows threads := by
  rcases Nat.eq_zero_or_pos totalRows with rfl | hrows
  · refine iff_of_true ⟨?_, fun row h => absurd h (Nat.not_lt_zero row), ?_⟩ (Or.inl rfl)
    · rw [tasks_zero]
      exact List.Pairwise.nil
    · rintro p hp
      rw [tasks_zero] at hp
      exact absurd hp List.not_mem_nil
  · exact ⟨divides_of_exactPartition hthreads hrows, exactPartition_of_divides hthreads hrows⟩

end Intervals

/-! ## The sum over the intervals -/

/-- The sum, when every worker returns. -/
theorem sumTasks_eq {worker : ℕ × ℕ → Option ℕ} {count : ℕ × ℕ → ℕ} {ps : List (ℕ × ℕ)}
    (h : ∀ p ∈ ps, worker p = some (count p)) : sumTasks worker ps = some (ps.map count).sum := by
  induction ps with
  | nil => rfl
  | cons p ps ih =>
    rw [sumTasks, h p List.mem_cons_self, ih fun q hq => h q (List.mem_cons_of_mem p hq),
      Option.bind_some, Option.map_some, List.map_cons, List.sum_cons]

/-- **Counting the blocks of every interval** counts the blocks of the rows. -/
theorem sum_tasks {totalRows threads : ℕ} (hthreads : 0 < threads)
    (hdiv : Divides totalRows threads) (f : ℕ → ℕ → ℕ) :
    ((tasks totalRows threads).map fun p =>
        Blocks.blockSum 64 (p.2 - p.1) fun start len => f (p.1 + start) len).sum =
      Blocks.blockSum 64 totalRows f := by
  rcases Nat.eq_zero_or_pos totalRows with rfl | hrows
  · rw [tasks_eq, Blocks.count, Nat.div_eq_of_lt (by have := rowsPerThread_pos 0 threads; omega)]
    simp [Blocks.blockSum, Blocks.count]
  obtain ⟨k, hk⟩ := Nat.exists_eq_succ_of_ne_zero (started_pos hthreads hrows).ne'
  obtain ⟨q, hq⟩ := dvd_rowsPerThread totalRows threads
  have hlt : k < started totalRows threads := by omega
  have hstart := lt_started hlt
  have htasks : tasks totalRows threads = (List.range (k + 1)).map (task totalRows threads) := by
    rw [tasks_eq]
    exact congrArg (fun m => (List.range m).map (task totalRows threads)) hk
  rw [htasks, List.range_succ, List.map_append, List.map_append, List.sum_append, List.map_map]
  have hfirst : ∀ t ∈ List.range k, ((fun p : ℕ × ℕ =>
      Blocks.blockSum 64 (p.2 - p.1) fun start len => f (p.1 + start) len) ∘
        task totalRows threads) t =
      Blocks.blockSum 64 (rowsPerThread totalRows threads)
        fun start len => f (t * rowsPerThread totalRows threads + start) len := by
    intro t ht
    have htk := List.mem_range.mp ht
    rw [Function.comp_apply, task_snd hthreads hrows hdiv (by omega), if_neg (by omega)]
    simp only [task, Nat.succ_mul, Nat.add_sub_cancel_left]
  have hlast : (task totalRows threads k).2 = totalRows := by
    rw [task_snd hthreads hrows hdiv hlt, if_pos (by omega)]
  rw [List.map_congr_left hfirst, Blocks.sum_blockSum (by omega) (dvd_rowsPerThread _ _)]
  simp only [List.map_singleton, List.sum_singleton, hlast]
  have hmul : k * rowsPerThread totalRows threads = k * q * 64 := by
    rw [hq]
    ring
  have hsplit : totalRows = k * q * 64 + (totalRows - k * q * 64) := by omega
  conv_rhs => rw [hsplit, Blocks.blockSum_add (by omega)]
  simp only [task, hmul]

/-- **What the workers count together**, when the rows divide well: the same blocks, with
the same rows in them, as a loop over all rows has. -/
theorem run_eq {callers : ℕ → ℕ → Caller} {slicer : BitSlicer}
    {fieldBuffers : ℕ → ℕ → ColumnBuffer} {data : Data} {totalRows : ℕ} {config : TaskConfig}
    {numThreads : ℤ} (hdiv : Divides totalRows (threadCount numThreads))
    (hbound : ∀ f < min config.fields.length 8, (config.fields.getD f none).isSome)
    {count : ℕ → ℕ} {I : Scratch → Prop} (hzero : I fun _ => 0)
    (hcall : ∀ start c, c * 64 < totalRows →
      Answers (callers start (c * 64)) config.kernel config.mode config.fields
        (blockColumn data (c * 64 * config.rowStride) config.rowStride
          (min 64 (totalRows - c * 64))) I fun m S => popcount m = count (c * 64) ∧ I S) :
    run callers slicer fieldBuffers data totalRows config numThreads =
      some (Blocks.blockSum 64 totalRows fun start _ => count start) := by
  have hthreads := threadCount_pos numThreads
  rcases Nat.eq_zero_or_pos totalRows with rfl | hrows
  · rfl
  rw [run, if_neg (by omega), ← sum_tasks hthreads hdiv]
  refine sumTasks_eq fun p hp => ?_
  obtain ⟨t, ht, rfl⟩ := mem_tasks.mp hp
  obtain ⟨q, hq⟩ := dvd_rowsPerThread totalRows (threadCount numThreads)
  have hstart : (task totalRows (threadCount numThreads) t).1 = t * q * 64 := by
    rw [Nat.mul_assoc, Nat.mul_comm q, ← hq]
    rfl
  refine workerThread_eq hbound hzero (fun c hc => ?_) _
  have hblock : (task totalRows (threadCount numThreads) t).1 + c * 64 = (t * q + c) * 64 := by
    rw [hstart, Nat.add_mul]
  rw [hblock] at hc ⊢
  have hsnd := task_snd hthreads hrows hdiv ht
  -- a block of an interval is a block of the rows
  have hsame : (t * q + c) * 64 < totalRows ∧
      min 64 ((task totalRows (threadCount numThreads) t).2 - (t * q + c) * 64) =
        min 64 (totalRows - (t * q + c) * 64) := by
    split at hsnd
    · rw [hsnd] at hc ⊢
      exact ⟨hc, rfl⟩
    · have hle := succ_mul_le (show t + 1 < started totalRows (threadCount numThreads) by omega)
      have hend : (t + 1) * rowsPerThread totalRows (threadCount numThreads) =
          (t + 1) * q * 64 := by
        rw [hq]
        ring
      rw [hsnd, hend] at hc ⊢
      omega
  rw [hsame.2]
  exact hcall _ _ hsame.1

end Compute
end ApexEngine
