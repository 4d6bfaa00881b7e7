import ApexEngine.Core.Stealing
import ApexEngine.Api.Threshold
import Mathlib.Data.BitVec

/-!
# The work-stealing runner of the benchmark

The benchmark does not use the engine's runner.  Its threads steal: each takes the next chunk of
64 prices from an atomic counter, slices it, calls the threshold kernel on it, and counts; in the
end it adds its count to an atomic total, and the masks of the first and of the last chunk are
published in a vector, at an index that is taken from another counter.  The trading example has
the same threads and publishes nothing.

The benchmark then compares the total with a scalar loop, and the two masks, found in the vector
by their chunk, bit by bit with the prices.

In every order of the steps the total is the number of prices in whole chunks that exceed the
threshold, and the masks are right (`verification_in_every_order`).  What is left over after the
last whole chunk nobody looks at; the scalar loop does, so the benchmark passes exactly when
nothing there exceeds the threshold.
-/

namespace ApexEngine
namespace Bench

open A64 (Word Item)
open Compute (BitSlicer ColumnBuffer popcount)
open Jit (Caller)
open Stealing (Independent Reaches Step)

/-! ## The benchmark -/

/-- `scalar_reference_count`. -/
def scalarReferenceCount (prices : ℕ → Word) (numRows : ℕ) (threshold : Word) : Word :=
  Loop.forUp 0 numRows 1 (fun i count => if threshold < prices i then count + 1 else count) 0

/-- `ChunkResult`. -/
structure ChunkResult where
  chunkId : ℕ
  resultMask : Word
  deriving DecidableEq

/-- `ParallelResults`. -/
structure ParallelResults where
  totalMatches : Word
  chunkResults : List ChunkResult

/-- The locals of a worker, with the buffers of its thread. -/
structure WorkerLocals where
  tlsIn : ColumnBuffer
  tlsOut : ColumnBuffer
  localMatches : Word
  localChunks : List ChunkResult

/-- `memcpy` of a chunk of 64 words. -/
def copyChunk (prices : ℕ → Word) (chunk : ℕ) (dst : ColumnBuffer) : ColumnBuffer := fun i =>
  if i < 64 then prices (chunk * 64 + i) else dst i

/-- What a worker does with a chunk it has taken.  The results of some chunks are kept. -/
def workChunk (caller : Caller) (slicer : BitSlicer) (kernel : List Item) (prices : ℕ → Word)
    (keeps : ℕ → Bool) (chunk : ℕ) (l : WorkerLocals) : Option WorkerLocals :=
  let tlsIn := copyChunk prices chunk l.tlsIn
  let tlsOut := slicer.slice tlsIn
  (caller.callThreshold kernel tlsOut).map fun mask =>
    ⟨tlsIn, tlsOut, l.localMatches + BitVec.ofNat 64 (popcount mask),
      if keeps chunk then l.localChunks ++ [⟨chunk, mask⟩] else l.localChunks⟩

/-- The threads.  The counters are 64-bit words. -/
def runner (callers : ℕ → Caller) (slicer : BitSlicer) (tls : ℕ → ColumnBuffer × ColumnBuffer)
    (kernel : List Item) (prices : ℕ → Word) (numChunks slots : ℕ) (numThreads : ℤ)
    (keeps : ℕ → Bool) : Stealing.Program WorkerLocals ChunkResult Word where
  threads := numThreads.toNat
  chunks := numChunks
  slots := slots
  size := 2 ^ 64
  start t := ⟨(tls t).1, (tls t).2, 0, []⟩
  work chunk := workChunk (callers chunk) slicer kernel prices keeps chunk
  amount l := l.localMatches
  items l := l.localChunks
  blank := ⟨0, 0⟩

section Benchmark

variable (callers : ℕ → Caller) (slicer : BitSlicer) (tls : ℕ → ColumnBuffer × ColumnBuffer)
  (prices : ℕ → Word) (numRows : ℕ) (threshold : Word) (numThreads : ℤ)

/-- The threads of `parallel_runner_with_results`: the first and the last chunk are kept. -/
def parallelRunnerWithResults : Stealing.Program WorkerLocals ChunkResult Word :=
  let numChunks := numRows / 64
  runner callers slicer tls (Jit.compileComparison threshold) prices numChunks numChunks numThreads
    fun chunk => chunk == 0 || chunk == numChunks - 1

/-- The threads of the trading example. -/
def orchestrator : Stealing.Program WorkerLocals ChunkResult Word :=
  runner callers slicer tls (Jit.compileComparison threshold) prices (numRows / 64) 0 numThreads
    fun _ => false

/-- What `parallel_runner_with_results` returns when the threads have been joined. -/
def results (s : Stealing.State WorkerLocals ChunkResult Word) : ParallelResults :=
  ⟨s.shared.total, (List.range (numRows / 64)).map s.shared.slot⟩

/-- The mask that is found for a chunk. -/
def findMask (chunkResults : List ChunkResult) (chunk : ℕ) : Word :=
  ((chunkResults.find? fun cr => cr.chunkId == chunk).map ChunkResult.resultMask).getD 0

/-- The bits of a mask are those of a chunk. -/
def chunkMatches (chunk : ℕ) (mask : Word) : Bool :=
  (List.range 64).all fun i => decide (threshold < prices (chunk * 64 + i)) == mask.getLsbD i

/-- `verify_chunk_results`.  It looks at chunk 0, whatever the first chunk is said to be. -/
def verifyChunkResults (chunkResults : List ChunkResult) (_firstChunkIdx lastChunkIdx : ℕ) : Bool :=
  chunkMatches prices threshold 0 (findMask chunkResults 0) &&
    chunkMatches prices threshold lastChunkIdx (findMask chunkResults lastChunkIdx)

/-- The benchmark exits without an error: the counts do not differ and the masks are right. -/
def verificationPassed (r : ParallelResults) : Bool :=
  r.totalMatches - scalarReferenceCount prices numRows threshold == 0 &&
    verifyChunkResults prices threshold r.chunkResults 0 (numRows / 64 - 1)

end Benchmark

/-! ## What the chunks contribute -/

section Chunks

variable {callers : ℕ → Caller} {slicer : BitSlicer} {tls : ℕ → ColumnBuffer × ColumnBuffer}
  {prices : ℕ → Word} {numRows slots numChunks : ℕ} {threshold : Word} {numThreads : ℤ}
  {keeps : ℕ → Bool}

/-- The mask of the rows of a chunk that exceed the threshold. -/
def IsMask (prices : ℕ → Word) (threshold : Word) (chunk : ℕ) (mask : Word) : Prop :=
  ∀ i < 64, mask.getLsbD i = decide (threshold < prices (chunk * 64 + i))

/-- There is one, and every call returns it. -/
theorem exists_mask (callers : ℕ → Caller) (slicer : BitSlicer) (prices : ℕ → Word)
    (threshold : Word) (chunk : ℕ) :
    ∃ mask, IsMask prices threshold chunk mask ∧ ∀ dst,
      (callers chunk).callThreshold (Jit.compileComparison threshold)
        (slicer.slice (copyChunk prices chunk dst)) = some mask := by
  have hcall : ∀ dst : ColumnBuffer, ∃ mask,
      (callers chunk).callThreshold (Jit.compileComparison threshold)
        (slicer.slice (copyChunk prices chunk dst)) = some mask ∧
      IsMask prices threshold chunk mask := by
    intro dst
    have hshows : Jit.ShowsColumn .bitSliced (slicer.slice (copyChunk prices chunk dst))
        (copyChunk prices chunk dst) := fun r hr => slicer.shows_slice _ hr
    obtain ⟨mask, hmask, hlanes⟩ := Api.callThreshold_lanes (callers chunk) threshold hshows
    refine ⟨mask, hmask, fun i hi => ?_⟩
    rw [hlanes i hi, copyChunk, if_pos hi]
  obtain ⟨mask, -, hmask⟩ := hcall fun _ => 0
  refine ⟨mask, hmask, fun dst => ?_⟩
  obtain ⟨mask', hcall', hmask'⟩ := hcall dst
  rw [hcall', show mask' = mask from
    BitVec.eq_of_getLsbD_eq fun i hi => by rw [hmask' i hi, hmask i hi]]

/-- The matches of a chunk. -/
def chunkCount (prices : ℕ → Word) (threshold : Word) (chunk : ℕ) : ℕ :=
  (List.range 64).countP fun i => decide (threshold < prices (chunk * 64 + i))

/-- **A chunk contributes its matches**, and its result when that is kept. -/
theorem independent (callers : ℕ → Caller) (slicer : BitSlicer)
    (tls : ℕ → ColumnBuffer × ColumnBuffer) (prices : ℕ → Word) (numChunks slots : ℕ)
    (threshold : Word) (numThreads : ℤ) (keeps : ℕ → Bool) :
    ∃ mask : ℕ → Word, (∀ chunk, IsMask prices threshold chunk (mask chunk)) ∧
      Independent (runner callers slicer tls (Jit.compileComparison threshold) prices numChunks
        slots numThreads keeps)
        (fun chunk => BitVec.ofNat 64 (chunkCount prices threshold chunk))
        (fun chunk => if keeps chunk then some ⟨chunk, mask chunk⟩ else none) ∧
      ∀ chunk l, ((runner callers slicer tls (Jit.compileComparison threshold) prices numChunks
        slots numThreads keeps).work chunk l).isSome := by
  choose mask hmask hcall using exists_mask callers slicer prices threshold
  have hwork : ∀ chunk l, (runner callers slicer tls (Jit.compileComparison threshold) prices
      numChunks slots numThreads keeps).work chunk l = some
        ⟨copyChunk prices chunk l.tlsIn, slicer.slice (copyChunk prices chunk l.tlsIn),
          l.localMatches + BitVec.ofNat 64 (chunkCount prices threshold chunk),
          if keeps chunk then l.localChunks ++ [⟨chunk, mask chunk⟩] else l.localChunks⟩ := by
    intro chunk l
    simp only [runner, workChunk, hcall, Option.map_some]
    rw [Api.popcount_eq (hmask chunk)]
    rfl
  refine ⟨mask, hmask, ⟨fun _ => rfl, fun _ => rfl, fun _ h => ?_, fun _ h => ?_⟩,
    fun chunk l => by rw [hwork]; rfl⟩
  · rw [hwork] at h
    obtain rfl := Option.some.inj h
    rfl
  · rw [hwork] at h
    obtain rfl := Option.some.inj h
    simp only [runner]
    split
    · rfl
    · exact (List.append_nil _).symm

/-- The chunks add up to the prices in them. -/
theorem sum_chunkCount (prices : ℕ → Word) (threshold : Word) (numChunks : ℕ) :
    ((List.range numChunks).map fun chunk =>
      BitVec.ofNat 64 (chunkCount prices threshold chunk)).sum =
    BitVec.ofNat 64 ((List.range (numChunks * 64)).countP fun i => decide (threshold < prices i)) := by
  have hsum : ∀ l : List ℕ, (l.map fun chunk => BitVec.ofNat 64 (chunkCount prices threshold chunk)).sum =
      BitVec.ofNat 64 (l.map (chunkCount prices threshold)).sum := by
    intro l
    induction l with
    | nil => rfl
    | cons chunk l ih => rw [List.map_cons, List.sum_cons, ih, List.map_cons, List.sum_cons,
        BitVec.ofNat_add]
  rw [hsum]
  exact congrArg _ (Blocks.countP_range_mul (fun i => decide (threshold < prices i)) numChunks)

/-- The scalar loop counts the prices that exceed the threshold. -/
theorem scalarReferenceCount_eq (prices : ℕ → Word) (numRows : ℕ) (threshold : Word) :
    scalarReferenceCount prices numRows threshold =
      BitVec.ofNat 64 ((List.range numRows).countP fun i => decide (threshold < prices i)) := by
  have hlast : Loop.last 0 numRows 1 = numRows := by
    simp [Loop.last, Loop.trips]
  let counted : ℕ → Word → Prop := fun n count => count =
    BitVec.ofNat 64 ((List.range n).countP fun i => decide (threshold < prices i))
  have hbody : ∀ i count, i < numRows → (∃ j, i = 0 + j * 1) → counted i count →
      counted (i + 1) (if threshold < prices i then count + 1 else count) := by
    intro i count _ _ hcount
    show _ = _
    rw [List.range_succ, List.countP_append, List.countP_singleton, BitVec.ofNat_add, ← hcount]
    by_cases hlt : threshold < prices i
    · simp only [hlt, decide_true, if_true]
      rfl
    · simp [hlt]
  have hcounted : counted 0 0 := rfl
  have hinv := Loop.forUp_inv (by omega) hcounted hbody
  rwa [hlast] at hinv

/-! ## The check -/

/-- The items that are kept: the results of the first chunk and of the last. -/
theorem mem_kept {mask : ℕ → Word} (h : 0 < numChunks) {cr : ChunkResult} :
    cr ∈ (List.range numChunks).filterMap (fun chunk =>
      if (chunk == 0 || chunk == numChunks - 1) then some ⟨chunk, mask chunk⟩ else none) ↔
      cr = ⟨0, mask 0⟩ ∨ cr = ⟨numChunks - 1, mask (numChunks - 1)⟩ := by
  rw [List.mem_filterMap]
  constructor
  · rintro ⟨chunk, -, hcr⟩
    split at hcr
    · rename_i hkept
      obtain rfl := Option.some.inj hcr
      rcases Bool.or_eq_true_iff.mp hkept with hzero | hlast
      · rw [beq_iff_eq.mp hzero]
        exact Or.inl rfl
      · rw [beq_iff_eq.mp hlast]
        exact Or.inr rfl
    · exact absurd hcr (by simp)
  · rintro (rfl | rfl)
    · exact ⟨0, List.mem_range.mpr h, by simp⟩
    · exact ⟨numChunks - 1, List.mem_range.mpr (by omega), by simp⟩

/-- **A mask that was published is found**, wherever it is in the vector: what stands before it
belongs to another chunk, and what was never written comes after all that was. -/
theorem findMask_of_mem {mask : ℕ → Word} {claims : List ChunkResult}
    (hclaims : ∀ cr ∈ claims, cr.resultMask = mask cr.chunkId) {chunk : ℕ}
    (hmem : (⟨chunk, mask chunk⟩ : ChunkResult) ∈ claims) (hlen : claims.length ≤ slots)
    {chunkResults : List ChunkResult}
    (hresults : chunkResults = (List.range slots).map fun k => claims[k]?.getD ⟨0, 0⟩) :
    findMask chunkResults chunk = mask chunk := by
  have hsplit : chunkResults = claims ++ List.replicate (slots - claims.length) ⟨0, 0⟩ := by
    rw [hresults]
    refine List.ext_getElem? fun k => ?_
    rw [List.getElem?_map]
    rcases Nat.lt_or_ge k slots with hk | hk
    · rw [List.getElem?_range hk, Option.map_some]
      rcases Nat.lt_or_ge k claims.length with hkc | hkc
      · rw [List.getElem?_append_left hkc, List.getElem?_eq_getElem hkc, Option.getD_some]
      · rw [List.getElem?_append_right hkc, List.getElem?_eq_none hkc, Option.getD_none,
          List.getElem?_replicate, if_pos (by omega)]
    · rw [List.getElem?_eq_none (by simpa using hk), List.getElem?_eq_none]
      · rfl
      · rw [List.length_append, List.length_replicate]
        omega
  obtain ⟨cr, hfind⟩ : ∃ cr, claims.find? (fun cr => cr.chunkId == chunk) = some cr := by
    rw [← Option.isSome_iff_exists, List.find?_isSome]
    exact ⟨_, hmem, beq_self_eq_true chunk⟩
  have hid := List.find?_some hfind
  rw [findMask, hsplit, List.find?_append, hfind, Option.some_or, Option.map_some, Option.getD_some,
    hclaims cr (List.mem_of_find?_eq_some hfind), beq_iff_eq.mp hid]

/-- The bits of the right mask are right. -/
theorem chunkMatches_of_isMask {chunk : ℕ} {mask : Word} (h : IsMask prices threshold chunk mask) :
    chunkMatches prices threshold chunk mask = true := by
  rw [chunkMatches, List.all_eq_true]
  intro i hi
  rw [h i (List.mem_range.mp hi)]
  exact beq_self_eq_true _

/-- Counting further finds as much when nothing more is there. -/
theorem countP_range_eq_iff {p : ℕ → Bool} {m n : ℕ} (hle : m ≤ n) :
    (List.range m).countP p = (List.range n).countP p ↔ ∀ i, m ≤ i → i < n → p i = false := by
  obtain ⟨d, rfl⟩ := Nat.exists_eq_add_of_le hle
  rw [List.range_add, List.countP_append, List.countP_map, Nat.left_eq_add, List.countP_eq_zero]
  constructor
  · intro h i hm hi
    have hnot := h (i - m) (List.mem_range.mpr (by omega))
    rw [Function.comp_apply, Nat.add_sub_cancel' hm] at hnot
    exact Bool.eq_false_iff.mpr hnot
  · intro h i hi
    rw [Function.comp_apply, h (m + i) (Nat.le_add_right _ _)
      (Nat.add_lt_add_left (List.mem_range.mp hi) m)]
    exact Bool.false_ne_true

/-! ## Every order of steps -/

variable {n : ℕ} {s : Stealing.State WorkerLocals ChunkResult Word}

/-- The counters of the threads do not wrap. -/
theorem size_ok (hrows : numRows < 2 ^ 64) (hint : numThreads < 2 ^ 31) :
    numRows / 64 + numThreads.toNat + 1 < 2 ^ 64 := by omega

/-- **The total of the threads**, whatever results they keep. -/
theorem total_eq (hrows : numRows < 2 ^ 64) (hthreads : 0 < numThreads) (hint : numThreads < 2 ^ 31)
    (h : Reaches (runner callers slicer tls (Jit.compileComparison threshold) prices (numRows / 64)
      slots numThreads keeps) n s) (hret : s.main = .returned) :
    s.shared.total = scalarReferenceCount prices (numRows / 64 * 64) threshold := by
  obtain ⟨mask, -, hP, -⟩ := independent callers slicer tls prices (numRows / 64) slots threshold
    numThreads keeps
  obtain ⟨htotal, -⟩ := h.returned hP (size_ok hrows hint)
    (by change 0 < numThreads.toNat; omega) hret
  rw [htotal, scalarReferenceCount_eq]
  exact sum_chunkCount prices threshold (numRows / 64)

/-- **The trading example counts** the prices in whole chunks, in every order of its steps. -/
theorem orchestrator_total (hrows : numRows < 2 ^ 64) (hthreads : 0 < numThreads)
    (hint : numThreads < 2 ^ 31)
    (h : Reaches (orchestrator callers slicer tls prices numRows threshold numThreads) n s)
    (hret : s.main = .returned) :
    s.shared.total = scalarReferenceCount prices (numRows / 64 * 64) threshold :=
  total_eq hrows hthreads hint h hret

/-- **The masks of the benchmark are right** when its threads have been joined. -/
theorem verifyChunkResults_of_returned (hchunk : 64 ≤ numRows) (hrows : numRows < 2 ^ 64)
    (hthreads : 0 < numThreads) (hint : numThreads < 2 ^ 31)
    (h : Reaches (parallelRunnerWithResults callers slicer tls prices numRows threshold numThreads)
      n s) (hret : s.main = .returned) :
    verifyChunkResults prices threshold (results numRows s).chunkResults 0 (numRows / 64 - 1) =
      true := by
  obtain ⟨mask, hmask, hP, -⟩ := independent callers slicer tls prices (numRows / 64)
    (numRows / 64) threshold numThreads fun chunk => chunk == 0 || chunk == numRows / 64 - 1
  obtain ⟨-, claims, hperm, hslots⟩ := h.returned hP (size_ok hrows hint)
    (by change 0 < numThreads.toNat; omega) hret
  have hpos : 0 < numRows / 64 := Nat.div_pos hchunk (by omega)
  have hmem : ∀ cr, cr ∈ claims ↔
      cr = ⟨0, mask 0⟩ ∨ cr = ⟨numRows / 64 - 1, mask (numRows / 64 - 1)⟩ := fun cr =>
    hperm.mem_iff.trans (mem_kept hpos)
  have hlen : claims.length ≤ numRows / 64 := by
    rw [hperm.length_eq]
    refine (List.length_filterMap_le _ _).trans ?_
    show (List.range (numRows / 64)).length ≤ _
    rw [List.length_range]
  have hclaims : ∀ cr ∈ claims, cr.resultMask = mask cr.chunkId := by
    intro cr hcr
    rcases (hmem cr).mp hcr with rfl | rfl <;> rfl
  have hresults : (results numRows s).chunkResults =
      (List.range (numRows / 64)).map fun k => claims[k]?.getD ⟨0, 0⟩ :=
    List.map_congr_left fun k hk => hslots k (List.mem_range.mp hk)
  rw [verifyChunkResults, findMask_of_mem hclaims ((hmem _).mpr (Or.inl rfl)) hlen hresults,
    findMask_of_mem hclaims ((hmem _).mpr (Or.inr rfl)) hlen hresults,
    chunkMatches_of_isMask (hmask _), chunkMatches_of_isMask (hmask _)]
  rfl

/-- **The benchmark in every order of its steps.**  There is a bound on the steps; a state in
which no thread can go on is one in which the main thread has returned or was terminated because
a thread did not start; no two threads are about to access the same place of the vector.  When
the main thread returns, the total is what the scalar loop counts in whole chunks and the two
masks are right, so that the benchmark passes exactly when no price after the last whole chunk
exceeds the threshold. -/
theorem verification_in_every_order (hchunk : 64 ≤ numRows) (hrows : numRows < 2 ^ 64)
    (hthreads : 0 < numThreads) (hint : numThreads < 2 ^ 31)
    (h : Reaches (parallelRunnerWithResults callers slicer tls prices numRows threshold numThreads)
      n s) :
    n ≤ 5 * numThreads.toNat + 4 * (numRows / 64) + 2 ∧
    (∀ i j as bs s₁ s₂, i ≠ j →
      Step (parallelRunnerWithResults callers slicer tls prices numRows threshold numThreads) i as
        s s₁ →
      Step (parallelRunnerWithResults callers slicer tls prices numRows threshold numThreads) j bs
        s s₂ → ∀ k ∈ as, k ∉ bs) ∧
    ((∀ i as s', ¬ Step (parallelRunnerWithResults callers slicer tls prices numRows threshold
        numThreads) i as s s') → s.main = .returned ∨ ∃ t, s.main = .terminated t) ∧
    (s.main = .returned →
      (results numRows s).totalMatches =
        scalarReferenceCount prices (numRows / 64 * 64) threshold ∧
      verifyChunkResults prices threshold (results numRows s).chunkResults 0 (numRows / 64 - 1) =
        true ∧
      (verificationPassed prices numRows threshold (results numRows s) = true ↔
        ∀ i, numRows / 64 * 64 ≤ i → i < numRows → ¬ threshold < prices i)) := by
  obtain ⟨mask, -, hP, hwork⟩ := independent callers slicer tls prices (numRows / 64)
    (numRows / 64) threshold numThreads fun chunk => chunk == 0 || chunk == numRows / 64 - 1
  have hsize := size_ok hrows hint
  refine ⟨h.le_bound hP hsize, fun i j as bs s₁ s₂ hij hi hj => h.no_race hP hsize hij hi hj,
    fun hstuck => ?_, fun hret => ?_⟩
  · rcases h.progress hP hsize fun c _ l => hwork c l with ⟨i, as, s', hstep⟩ | hend
    · exact absurd hstep (hstuck i as s')
    · exact hend
  · have htotal : (results numRows s).totalMatches = _ := total_eq hrows hthreads hint h hret
    have hverify := verifyChunkResults_of_returned hchunk hrows hthreads hint h hret
    refine ⟨htotal, hverify, ?_⟩
    have hle : ∀ m ≤ numRows, (List.range m).countP (fun i => decide (threshold < prices i)) <
        2 ^ 64 := fun m hm =>
      Nat.lt_of_le_of_lt (List.countP_le_length.trans (by rw [List.length_range])) (hm.trans_lt hrows)
    rw [verificationPassed, hverify, Bool.and_true, beq_iff_eq, sub_eq_zero, htotal,
      scalarReferenceCount_eq, scalarReferenceCount_eq, ← BitVec.toNat_inj, BitVec.toNat_ofNat,
      BitVec.toNat_ofNat, Nat.mod_eq_of_lt (hle _ (Nat.div_mul_le_self _ _)),
      Nat.mod_eq_of_lt (hle _ le_rfl), countP_range_eq_iff (Nat.div_mul_le_self _ _)]
    simp only [decide_eq_false_iff_not]

end Chunks

/-- One thread on the prices 0 to 63, with threshold 10. -/
def sampleRunner (callers : ℕ → Caller) : Stealing.Program WorkerLocals ChunkResult Word :=
  parallelRunnerWithResults callers .portable (fun _ => (fun _ => 0, fun _ => 0)) (BitVec.ofNat 64)
    64 10 1

/-- It can run to its end. -/
theorem sampleRunner_returns (callers : ℕ → Caller) :
    ∃ n s, Reaches (sampleRunner callers) n s ∧ s.main = .returned := by
  obtain ⟨mask, -, hP, hwork⟩ := independent callers .portable
    (fun _ => (fun _ => 0, fun _ => 0)) (BitVec.ofNat 64) 1 1 10 1
    fun chunk => chunk == 0 || chunk == 0
  obtain ⟨l, hl⟩ := Option.isSome_iff_exists.mp (hwork 0 ((sampleRunner callers).start 0))
  have hitems : (sampleRunner callers).items l = [⟨0, mask 0⟩] :=
    hP.items_work Nat.zero_lt_one hl
  have hmove : ∀ {n : ℕ} {s : Stealing.State WorkerLocals ChunkResult Word} {as p q σ},
      Reaches (sampleRunner callers) n s → s.main.isTerminated = false → s.phase 0 = q →
      Stealing.Move (sampleRunner callers) as q s.shared p σ → Reaches (sampleRunner callers) (n + 1)
        { s with phase := Function.update s.phase 0 p, shared := σ } := by
    rintro n s as p q σ h hlive rfl hm
    exact h.step (.worker hlive hm)
  have hstarted := (Reaches.start (P := sampleRunner callers)).step
    (.main (.fork Nat.zero_lt_one))
  have hforked := hstarted.step (.main .forked)
  have hworked := hmove (hmove hforked rfl rfl (.take Nat.zero_lt_one)) rfl rfl (.work hl)
  have hmerged := hmove (hmove hworked rfl rfl (.stop (Nat.le_refl 1))) rfl rfl .merge
  have hstored := hmove (hmove hmerged rfl (congrArg Stealing.Phase.publishing hitems) .claim)
    rfl rfl (.store Nat.zero_lt_one)
  have hleft := hmove hstored rfl rfl .leave
  exact ⟨_, _, (hleft.step (.main (.join Nat.zero_lt_one rfl))).step (.finish rfl), rfl⟩

/-- In the end it has found 53. -/
theorem verification_in_every_order_sample : ∃ n s,
    Reaches (sampleRunner fun _ => Caller.standard [] (by decide)) n s ∧
    (results 64 s).totalMatches = 53 ∧
    verificationPassed (BitVec.ofNat 64) 64 10 (results 64 s) = true := by
  obtain ⟨n, s, h, hret⟩ := sampleRunner_returns fun _ => Caller.standard [] (by decide)
  have hrows : 64 ≤ 64 ∧ 64 < 2 ^ 64 := by decide
  obtain ⟨-, -, -, hreturned⟩ := verification_in_every_order hrows.1 hrows.2 (by decide)
    (by decide) h
  obtain ⟨htotal, -, hpassed⟩ := hreturned hret
  refine ⟨n, s, h, ?_, hpassed.mpr fun i hle hlt => absurd hlt (Nat.not_lt_of_le hle)⟩
  rw [htotal, scalarReferenceCount_eq]
  decide

end Bench
end ApexEngine
