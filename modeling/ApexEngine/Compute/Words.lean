import ApexEngine.Compute.ParallelRunner
import ApexEngine.Machine.WordLoop

/-!
# Sizes and pointers as machine words

Rows, strides and addresses are natural numbers in the rest of the model.  In the program
they are words of 64 bits, and pointers are words as well: what lies behind a pointer is read
at sums that wrap around.  Pointers lose nothing by it, since the address of a byte is a sum
of products however it is reduced (`behind_add`).  The loops do: `row += 64` steps over the
end of the words when the last row is in their last block.

Here are the workers and `ParallelRunner::run` over words.  `run` returns exactly when the
number of rows is not in the last block of the words and the model over natural numbers has
a result, and then returns this result (`runWord_returns_iff`).  It is enough that one worker
does not return, as they are all waited for.
-/

namespace ApexEngine
namespace Compute

open A64 (Word Item)
open Core (FieldDescriptor)
open Jit (ExecutionMode Caller)

/-! ## Pointers -/

/-- The bytes behind a pointer into an address space. -/
def behind (space : Word → UInt8) (ptr : Word) : Data := fun k => space (ptr + BitVec.ofNat 64 k)

section Pointers

variable (space : Word → UInt8) (ptr : Word) (p : ℕ)

/-- **Pointer arithmetic.**  It makes no difference where a sum wraps around. -/
theorem behind_add (k : ℕ) : behind space (ptr + BitVec.ofNat 64 p) k = behind space ptr (p + k) := by
  rw [behind, behind, BitVec.add_assoc, ← BitVec.ofNat_add]

theorem memcpy8_behind_add (a : ℕ) :
    memcpy8 (behind space (ptr + BitVec.ofNat 64 p)) a = memcpy8 (behind space ptr) (p + a) := by
  simp only [memcpy8, behind_add, Nat.add_assoc]

/-- A gather at a pointer that was moved. -/
theorem gatherField_behind_add (field : FieldDescriptor) (rowStride rowCount : ℕ)
    (out : ColumnBuffer) :
    gatherField (behind space (ptr + BitVec.ofNat 64 p)) 0 field rowStride rowCount out =
      gatherField (behind space ptr) p field rowStride rowCount out := by
  simp only [gatherField, memcpy8_behind_add, Nat.zero_add, Nat.add_assoc]

end Pointers

/-! ## Rows -/

/-- `std::min(size_t(64), n)`. -/
def min64 (n : Word) : Word := if n < 64 then n else 64

theorem toNat_min64 (n : Word) : (min64 n).toNat = min 64 n.toNat := by
  unfold min64
  split
  · rename_i h
    have hlt : n.toNat < 64 := BitVec.lt_def.mp h
    omega
  · rename_i h
    have hge : ¬ n.toNat < 64 := fun hlt => h (BitVec.lt_def.mpr hlt)
    show 64 = min 64 n.toNat
    omega

/-- The rows that are left are counted without wrapping around. -/
theorem toNat_min64_sub {stop row : Word} (h : row.toNat < stop.toNat) :
    (min64 (stop - row)).toNat = min 64 (stop.toNat - row.toNat) := by
  rw [toNat_min64, BitVec.toNat_sub_of_le (BitVec.le_def.mpr h.le)]

/-! ## Workers -/

section Worker

variable (callers : ℕ → Caller) (slicer : BitSlicer) (config : TaskConfig) (space : Word → UInt8)
  (base : Word)

/-- One block of a worker, at `chunk_base`. -/
def workerBlockWord (endRow row : Word) (s : WorkerState) : Option (WorkerState × ℕ) :=
  let chunkBase := base + row * BitVec.ofNat 64 config.rowStride
  let rowsInChunk := min64 (endRow - row)
  workerBlock (fun _ => callers row.toNat) slicer config (behind space chunkBase) rowsInChunk.toNat
    0 s

/-- `worker_thread`, as far as the fuel goes. -/
def workerThreadWord (fuel : ℕ) (fieldBuffers : ℕ → ColumnBuffer) (startRow endRow : Word) :
    Option Word :=
  (Loop.runFor (fun row => decide (row < endRow)) (· + 64)
    (Loop.accumulateWord (workerBlockWord callers slicer config space base endRow)) fuel startRow
    (⟨fieldBuffers, fun _ => 0⟩, 0)).map Prod.snd

variable {callers slicer config space base}

/-- **A block is the block of the other model.** -/
theorem workerBlockWord_eq {endRow row : Word} (h : row.toNat < endRow.toNat) :
    workerBlockWord callers slicer config space base endRow row =
      workerBlock callers slicer config (behind space base) endRow.toNat row.toNat := by
  funext s
  have hbase : base + row * BitVec.ofNat 64 config.rowStride =
      base + BitVec.ofNat 64 (row.toNat * config.rowStride) := by
    rw [BitVec.ofNat_mul, BitVec.ofNat_toNat, BitVec.setWidth_eq]
  have hrows : min 64 (min 64 (endRow.toNat - row.toNat) - 0) =
      min 64 (endRow.toNat - row.toNat) := by omega
  have hfield : workerField slicer config
      (behind space (base + BitVec.ofNat 64 (row.toNat * config.rowStride))) (0 * config.rowStride)
      (min 64 (endRow.toNat - row.toNat)) = workerField slicer config (behind space base)
      (row.toNat * config.rowStride) (min 64 (endRow.toNat - row.toNat)) := by
    funext f o
    simp only [workerField, memcpy8_behind_add, Nat.zero_mul, Nat.zero_add, Nat.add_assoc]
  simp only [workerBlockWord, workerBlock, toNat_min64_sub h, hbase, hrows, hfield]

/-- **A worker over words** returns when the last word its row can be is not below the end of
its interval, and then what the other worker does. -/
theorem workerThreadWord_returns_iff {fieldBuffers : ℕ → ColumnBuffer} {startRow endRow w : Word} :
    (∃ fuel, workerThreadWord callers slicer config space base fuel fieldBuffers startRow endRow =
        some w) ↔
      endRow.toNat ≤ 2 ^ 64 - 64 + startRow.toNat % 64 ∧
        ∃ m, workerThread callers slicer config (behind space base) fieldBuffers startRow.toNat
          endRow.toNat = some m ∧ w = BitVec.ofNat 64 m := by
  have hcounts : Loop.Counts (fun row : Word => decide (row < endRow)) (· + 64) startRow 64
      startRow.toNat endRow.toNat 64 := Loop.counts_add 64 startRow endRow
  have hiter : ∀ k, startRow.toNat + k * 64 < endRow.toNat →
      ((· + 64)^[k] startRow : Word).toNat = startRow.toNat + k * 64 := by
    intro k hk
    have hword := endRow.isLt
    have hvar := Loop.iterate_add 64 startRow k
    show ((· + BitVec.ofNat 64 64)^[k] startRow : Word).toNat = _
    rw [hvar, BitVec.toNat_ofNat, Nat.mod_eq_of_lt (by omega)]
  have hstep : ∀ k, startRow.toNat + k * 64 < endRow.toNat →
      workerBlockWord callers slicer config space base endRow ((· + 64)^[k] startRow) =
        workerBlock callers slicer config (behind space base) endRow.toNat
          (startRow.toNat + k * 64) := by
    intro k hk
    rw [workerBlockWord_eq (by rw [hiter k hk]; exact hk), hiter k hk]
  have hloop := fun t => hcounts.returns_accumulate (v := 64) (by omega) (by decide)
    startRow.isLt hstep (s := ⟨fieldBuffers, fun _ => 0⟩) (t := t)
  constructor
  · rintro ⟨fuel, h⟩
    obtain ⟨t, ht, rfl⟩ := Option.map_eq_some_iff.mp h
    obtain ⟨hle, m, hm, hword⟩ := (hloop t).mp ⟨fuel, ht⟩
    exact ⟨hle, m, by rw [workerThread, hm, Option.map_some], hword⟩
  · rintro ⟨hle, m, hm, rfl⟩
    obtain ⟨t, ht, rfl⟩ := Option.map_eq_some_iff.mp hm
    obtain ⟨fuel, hrun⟩ := (hloop (t.1, BitVec.ofNat 64 t.2)).mpr ⟨hle, t.2, ht, rfl⟩
    exact ⟨fuel, by rw [workerThreadWord, hrun, Option.map_some]⟩

theorem workerThreadWord_mono {fieldBuffers : ℕ → ColumnBuffer} {startRow endRow w : Word}
    {fuel fuel' : ℕ}
    (h : workerThreadWord callers slicer config space base fuel fieldBuffers startRow endRow = some w)
    (hle : fuel ≤ fuel') :
    workerThreadWord callers slicer config space base fuel' fieldBuffers startRow endRow = some w := by
  obtain ⟨t, ht, rfl⟩ := Option.map_eq_some_iff.mp h
  rw [workerThreadWord, Loop.runFor_mono ht hle, Option.map_some]

end Worker

/-! ## The intervals -/

/-- `rows_per_thread`. -/
def rowsPerThreadWord (totalRows : Word) (threads : ℕ) : Word :=
  let rows := totalRows / BitVec.ofNat 64 threads / 64 * 64
  if rows = 0 then 64 else rows

/-- The interval of thread `t`. -/
def taskWord (totalRows : Word) (threads t : ℕ) : Word × Word :=
  let start := BitVec.ofNat 64 t * rowsPerThreadWord totalRows threads
  (start, if t = threads - 1 then totalRows else start + rowsPerThreadWord totalRows threads)

/-- The intervals handed out. -/
def tasksWord (totalRows : Word) (threads : ℕ) : List (Word × Word) :=
  ((List.range threads).map (taskWord totalRows threads)).takeWhile fun p => decide (p.1 < totalRows)

/-- Add up the counts of the workers. -/
def sumTasksWord (worker : Word × Word → Option Word) : List (Word × Word) → Option Word
  | [] => some 0
  | p :: ps => (worker p).bind fun count => (sumTasksWord worker ps).map fun total => count + total

/-- `ParallelRunner::run`, as far as the fuel goes.  The number of threads is an `int`. -/
def runWord (callers : ℕ → ℕ → Caller) (slicer : BitSlicer) (fieldBuffers : ℕ → ℕ → ColumnBuffer)
    (space : Word → UInt8) (base totalRows : Word) (config : TaskConfig) (numThreads : BitVec 32)
    (fuel : ℕ) : Option Word :=
  if totalRows = 0 then some 0
  else
    sumTasksWord (fun p => workerThreadWord (callers p.1.toNat) slicer config space base fuel
        (fieldBuffers p.1.toNat) p.1 p.2)
      (tasksWord totalRows (threadCount numThreads.toInt))

section Intervals

variable {totalRows : Word} {threads : ℕ}

/-- The number of threads is positive and an `int`. -/
theorem threadCount_lt (numThreads : BitVec 32) :
    0 < threadCount numThreads.toInt ∧ threadCount numThreads.toInt < 2 ^ 31 := by
  have hlt := BitVec.two_mul_toInt_lt (x := numThreads)
  unfold threadCount
  split <;> omega

theorem toNat_rowsPerThreadWord (hthreads : threads < 2 ^ 31) :
    (rowsPerThreadWord totalRows threads).toNat = rowsPerThread totalRows.toNat threads := by
  have hdiv : totalRows.toNat / threads / 64 * 64 ≤ totalRows.toNat :=
    (Nat.div_mul_le_self _ _).trans (Nat.div_le_self _ _)
  have hrows : (totalRows / BitVec.ofNat 64 threads / 64 * 64).toNat =
      totalRows.toNat / threads / 64 * 64 := by
    have hword := totalRows.isLt
    rw [BitVec.toNat_mul, BitVec.toNat_udiv, BitVec.toNat_udiv, BitVec.toNat_ofNat,
      Nat.mod_eq_of_lt (by omega : threads < 2 ^ 64)]
    exact Nat.mod_eq_of_lt (hdiv.trans_lt hword)
  unfold rowsPerThreadWord rowsPerThread
  simp only [← hrows]
  by_cases hzero : totalRows / BitVec.ofNat 64 threads / 64 * 64 = 0
  · rw [if_pos hzero, hzero]
    rfl
  · have hnat : (totalRows / BitVec.ofNat 64 threads / 64 * 64).toNat ≠ 0 := fun h =>
      hzero (BitVec.eq_of_toNat_eq h)
    rw [if_neg hzero, if_neg hnat]

/-- An interval ends before the rows do, unless there are few rows. -/
theorem task_le (hthreads : threads < 2 ^ 31) {rows t : ℕ} (ht : t < threads) :
    (t + 1) * rowsPerThread rows threads ≤ max rows (2 ^ 31 * 64) := by
  have hle : (t + 1) * rowsPerThread rows threads ≤ threads * rowsPerThread rows threads :=
    Nat.mul_le_mul_right _ ht
  by_cases hfew : rows / threads < 64
  · rw [rowsPerThread_of_lt hfew] at hle ⊢
    omega
  · have hrows : rowsPerThread rows threads ≤ rows / threads := by
      unfold rowsPerThread
      simp only
      split <;> omega
    have hmul : threads * rowsPerThread rows threads ≤ rows :=
      (Nat.mul_le_mul_left threads hrows).trans (Nat.mul_div_le _ _)
    omega

/-- An interval as natural numbers. -/
def toNats (p : Word × Word) : ℕ × ℕ := (p.1.toNat, p.2.toNat)

theorem toNats_taskWord (hthreads : threads < 2 ^ 31) {t : ℕ} (ht : t < threads) :
    toNats (taskWord totalRows threads t) = task totalRows.toNat threads t := by
  have hlt : (t + 1) * rowsPerThread totalRows.toNat threads ≤ _ := task_le hthreads ht
  have hword := totalRows.isLt
  have hrows : (rowsPerThreadWord totalRows threads).toNat = _ := toNat_rowsPerThreadWord hthreads
  rw [Nat.succ_mul] at hlt
  have hstart : (BitVec.ofNat 64 t * rowsPerThreadWord totalRows threads).toNat =
      t * rowsPerThread totalRows.toNat threads := by
    rw [BitVec.toNat_mul, hrows, BitVec.toNat_ofNat, Nat.mod_eq_of_lt (by omega : t < 2 ^ 64),
      Nat.mod_eq_of_lt (by omega)]
  unfold toNats taskWord task
  simp only
  refine Prod.ext hstart ?_
  split
  · rfl
  · simp only
    rw [BitVec.toNat_add, hstart, hrows, Nat.mod_eq_of_lt (by omega)]

/-- **The intervals over words are the intervals.** -/
theorem map_tasksWord (hthreads : threads < 2 ^ 31) :
    (tasksWord totalRows threads).map toNats = tasks totalRows.toNat threads := by
  have htest : (fun p : Word × Word => decide (p.1 < totalRows)) =
      (fun p : ℕ × ℕ => decide (p.1 < totalRows.toNat)) ∘ toNats := by
    funext p
    exact decide_eq_decide.mpr BitVec.lt_def
  rw [tasksWord, tasks, htest, ← List.takeWhile_map, List.map_map]
  congr 1
  exact List.map_congr_left fun t ht => toNats_taskWord hthreads (List.mem_range.mp ht)

theorem mem_tasksWord (hthreads : threads < 2 ^ 31) {p : Word × Word}
    (hp : p ∈ tasksWord totalRows threads) :
    ∃ t < threads, task totalRows.toNat threads t = toNats p := by
  have hmem : toNats p ∈ tasks totalRows.toNat threads := by
    rw [← map_tasksWord hthreads]
    exact List.mem_map_of_mem hp
  obtain ⟨t, ht, heq⟩ := mem_tasks.mp hmem
  exact ⟨t, ht.trans_le (Nat.min_le_left _ _), heq⟩

/-- Intervals start at whole blocks. -/
theorem dvd_of_mem_tasksWord (hthreads : threads < 2 ^ 31) {p : Word × Word}
    (hp : p ∈ tasksWord totalRows threads) : 64 ∣ p.1.toNat := by
  obtain ⟨t, -, heq⟩ := mem_tasksWord hthreads hp
  have hstart : t * rowsPerThread totalRows.toNat threads = p.1.toNat := congrArg Prod.fst heq
  rw [← hstart]
  exact Dvd.dvd.mul_left (dvd_rowsPerThread _ _) t

/-- With the rows, the intervals end below the last block of the words. -/
theorem le_of_mem_tasksWord (hthreads : threads < 2 ^ 31) (hrows : totalRows.toNat ≤ 2 ^ 64 - 64)
    {p : Word × Word} (hp : p ∈ tasksWord totalRows threads) : p.2.toNat ≤ 2 ^ 64 - 64 := by
  obtain ⟨t, ht, heq⟩ := mem_tasksWord hthreads hp
  have hle : (t + 1) * rowsPerThread totalRows.toNat threads ≤ _ := task_le hthreads ht
  have hend : (task totalRows.toNat threads t).2 = p.2.toNat := congrArg Prod.snd heq
  rw [Nat.succ_mul] at hle
  rw [← hend, task]
  simp only
  split <;> omega

/-- With rows in the last block, the last thread has them. -/
theorem exists_mem_tasksWord (hpos : 0 < threads) (hthreads : threads < 2 ^ 31)
    (hrows : 2 ^ 64 - 64 < totalRows.toNat) : ∃ p ∈ tasksWord totalRows threads, p.2 = totalRows := by
  have hmany : 64 ≤ totalRows.toNat / threads := by
    rw [Nat.le_div_iff_mul_le hpos]
    omega
  have hcount := (Blocks.lt_count_iff (rowsPerThread_pos _ _)).mpr (allStart_of_le hpos hmany)
  have hmem : task totalRows.toNat threads (threads - 1) ∈ tasks totalRows.toNat threads :=
    mem_tasks.mpr ⟨threads - 1, Nat.lt_min.mpr ⟨by omega, hcount⟩, rfl⟩
  rw [← map_tasksWord hthreads] at hmem
  obtain ⟨p, hp, heq⟩ := List.mem_map.mp hmem
  refine ⟨p, hp, BitVec.eq_of_toNat_eq ?_⟩
  have hend : p.2.toNat = (task totalRows.toNat threads (threads - 1)).2 := congrArg Prod.snd heq
  rw [hend, task, if_pos rfl]

end Intervals

/-! ## Waiting for all workers -/

section Run

variable {worker : ℕ → Word × Word → Option Word} {worker' : ℕ × ℕ → Option ℕ}

/-- **All workers return**, and their sum is what it is. -/
theorem sumTasksWord_iff
    (hmono : ∀ {fuel fuel' : ℕ} {p : Word × Word} {w : Word}, worker fuel p = some w →
      fuel ≤ fuel' → worker fuel' p = some w)
    {ps : List (Word × Word)}
    (hworker : ∀ p ∈ ps, ∀ w, (∃ fuel, worker fuel p = some w) ↔
      ∃ m, worker' (toNats p) = some m ∧ w = BitVec.ofNat 64 m) {w : Word} :
    (∃ fuel, sumTasksWord (worker fuel) ps = some w) ↔
      ∃ m, sumTasks worker' (ps.map toNats) = some m ∧ w = BitVec.ofNat 64 m := by
  have hsum : ∀ {fuel fuel' ps w}, sumTasksWord (worker fuel) ps = some w → fuel ≤ fuel' →
      sumTasksWord (worker fuel') ps = some w := by
    intro fuel fuel' ps w h hle
    induction ps generalizing w with
    | nil => exact h
    | cons p ps ih =>
      obtain ⟨count, hcount, h⟩ := Option.bind_eq_some_iff.mp h
      obtain ⟨total, htotal, rfl⟩ := Option.map_eq_some_iff.mp h
      rw [sumTasksWord, hmono hcount hle, Option.bind_some, ih htotal, Option.map_some]
  induction ps generalizing w with
  | nil =>
    constructor
    · rintro ⟨fuel, h⟩
      exact ⟨0, rfl, (Option.some.inj h).symm⟩
    · rintro ⟨m, hm, rfl⟩
      obtain rfl := Option.some.inj hm
      exact ⟨0, rfl⟩
  | cons p ps ih =>
    have hfirst := hworker p List.mem_cons_self
    have hrest := @ih fun q hq => hworker q (List.mem_cons_of_mem p hq)
    constructor
    · rintro ⟨fuel, h⟩
      obtain ⟨count, hcount, h⟩ := Option.bind_eq_some_iff.mp h
      obtain ⟨total, htotal, rfl⟩ := Option.map_eq_some_iff.mp h
      obtain ⟨m, hm, rfl⟩ := (hfirst count).mp ⟨fuel, hcount⟩
      obtain ⟨n, hn, rfl⟩ := (@hrest total).mp ⟨fuel, htotal⟩
      refine ⟨m + n, ?_, (BitVec.ofNat_add m n).symm⟩
      rw [List.map_cons, sumTasks, hm, Option.bind_some, hn, Option.map_some]
    · rintro ⟨k, hk, rfl⟩
      obtain ⟨m, hm, hk⟩ := Option.bind_eq_some_iff.mp hk
      obtain ⟨n, hn, rfl⟩ := Option.map_eq_some_iff.mp hk
      obtain ⟨fuel₁, h₁⟩ := (hfirst (BitVec.ofNat 64 m)).mpr ⟨m, hm, rfl⟩
      obtain ⟨fuel₂, h₂⟩ := (@hrest (BitVec.ofNat 64 n)).mpr ⟨n, hn, rfl⟩
      refine ⟨max fuel₁ fuel₂, ?_⟩
      rw [sumTasksWord, hmono h₁ (Nat.le_max_left _ _), Option.bind_some,
        hsum h₂ (Nat.le_max_right _ _), Option.map_some, BitVec.ofNat_add]

/-- One worker that does not return is enough. -/
theorem sumTasksWord_none {worker : Word × Word → Option Word} {ps : List (Word × Word)}
    {p : Word × Word} (hp : p ∈ ps) (hnone : worker p = none) : sumTasksWord worker ps = none := by
  induction ps with
  | nil => exact absurd hp List.not_mem_nil
  | cons q ps ih =>
    rw [sumTasksWord]
    rcases List.mem_cons.mp hp with rfl | hp
    · rw [hnone, Option.bind_none]
    · rw [ih hp]
      cases worker q <;> rfl

/-- **`ParallelRunner::run` over words** returns exactly when the rows end below the last block
of the words and no worker faults, and then what the model over natural numbers does. -/
theorem runWord_returns_iff (callers : ℕ → ℕ → Caller) (slicer : BitSlicer)
    (fieldBuffers : ℕ → ℕ → ColumnBuffer) (space : Word → UInt8) (base totalRows : Word)
    (config : TaskConfig) (numThreads : BitVec 32) {w : Word} :
    (∃ fuel, runWord callers slicer fieldBuffers space base totalRows config numThreads fuel =
        some w) ↔
      totalRows.toNat ≤ 2 ^ 64 - 64 ∧
        ∃ m, run callers slicer fieldBuffers (behind space base) totalRows.toNat config
          numThreads.toInt = some m ∧ w = BitVec.ofNat 64 m := by
  obtain ⟨hpos, hthreads⟩ := threadCount_lt numThreads
  by_cases hzero : totalRows = 0
  · subst hzero
    simp only [runWord, if_true, run]
    constructor
    · rintro ⟨-, h⟩
      exact ⟨by decide, 0, rfl, (Option.some.inj h).symm⟩
    · rintro ⟨-, m, hm, rfl⟩
      obtain rfl := Option.some.inj hm
      exact ⟨0, rfl⟩
  have hnat : totalRows.toNat ≠ 0 := fun h => hzero (BitVec.eq_of_toNat_eq h)
  simp only [runWord, if_neg hzero, run, if_neg hnat, ← map_tasksWord hthreads]
  by_cases hrows : totalRows.toNat ≤ 2 ^ 64 - 64
  · rw [and_iff_right hrows]
    refine @sumTasksWord_iff (fun fuel p => workerThreadWord (callers p.1.toNat) slicer config space
      base fuel (fieldBuffers p.1.toNat) p.1 p.2) _ (fun h hle => workerThreadWord_mono h hle) _
      (fun p hp w => ?_) w
    rw [workerThreadWord_returns_iff, Nat.mod_eq_zero_of_dvd (dvd_of_mem_tasksWord hthreads hp),
      Nat.add_zero, and_iff_right (le_of_mem_tasksWord hthreads hrows hp)]
    rfl
  · obtain ⟨p, hp, hend⟩ := exists_mem_tasksWord hpos hthreads (Nat.lt_of_not_le hrows)
    refine iff_of_false ?_ fun h => hrows h.1
    rintro ⟨fuel, h⟩
    -- the last worker does not return
    have hnone : workerThreadWord (callers p.1.toNat) slicer config space base fuel
        (fieldBuffers p.1.toNat) p.1 p.2 = none := by
      cases hrun : workerThreadWord (callers p.1.toNat) slicer config space base fuel
        (fieldBuffers p.1.toNat) p.1 p.2 with
      | none => rfl
      | some w' =>
        have hle := (workerThreadWord_returns_iff.mp ⟨fuel, hrun⟩).1
        rw [hend, Nat.mod_eq_zero_of_dvd (dvd_of_mem_tasksWord hthreads hp)] at hle
        exact absurd hle hrows
    rw [sumTasksWord_none hp hnone] at h
    exact absurd h (by simp)

end Run
end Compute
end ApexEngine
