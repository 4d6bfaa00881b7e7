import ApexEngine.Api.Parallel
import ApexEngine.Compute.Threads

/-!
# `execute_parallel` in every order of its steps

The threads of `execute_parallel` are scheduled by somebody else.  Whatever the schedule is, for
a logic that is installed the run comes to an end, and what it returns is the sum of what the
serial loop counts on the intervals of the threads that had a scratchpad
(`executeParallel_any_order`).  When no allocation has failed and the rows divide well among
the threads, that is what `execute` returns.

An allocation that fails is not reported: the thread's rows are missing in the sum.
-/

namespace ApexEngine
namespace Api

open A64 (Word)
open Core (Name)
open Compute (BitSlicer ColumnBuffer Data Divides task tasks started threadCount WorkerLocals)
open ForkJoin (Reaches Step)
open Jit (Caller Graph NodeRef CompileState Scratch)

section Schedules

variable {e : Engine} {name : Name} {logic : ExprCompiledLogic} {g : Graph} {root : NodeRef}
  {compiled : CompileState} {order : IterationOrder} {schema : SchemaMetadata}
  {callers : ℕ → Caller} {workers : ℕ → ℕ → Caller}

/-- The serial loop on the rows of thread `t`. -/
def serialCount (e : Engine) (callers : ℕ → Caller) (data : Data) (order : IterationOrder)
    (rowStride n : ℕ) (numThreads : ℤ) (t : ℕ) : Option ℕ :=
  e.count callers (advanced data rowStride (task n (threadCount numThreads) t).1) order
    ((task n (threadCount numThreads) t).2 - (task n (threadCount numThreads) t).1)

/-- The threads of `execute_parallel`. -/
def ExprCompiledLogic.threads (logic : ExprCompiledLogic) (schema : SchemaMetadata)
    (workers : ℕ → ℕ → Caller) (slicer : BitSlicer) (fieldBuffers : ℕ → ℕ → ColumnBuffer)
    (data : Data) (n : ℕ) (numThreads : ℤ) : ForkJoin.Program WorkerLocals Scratch ℕ ℕ :=
  Compute.threads workers slicer fieldBuffers data n (logic.config schema) numThreads

/-- A thread counts what the serial loop counts on its rows. -/
theorem workerThread_serialCount (h : Installed e name logic g root compiled)
    (hw : g.WellTyped root) (hnodes : logic.mode = .scalar → (g.listing root).length ≤ 512)
    (hfront : order.front e.exprLogic = some (name, logic))
    (hschema : e.schemaMetadata.lookup name = some schema)
    (hpool : ∀ row, compiled.pool ⊆ (callers row).pool)
    (hpools : ∀ start row, compiled.pool ⊆ (workers start row).pool) (slicer : BitSlicer)
    (fieldBuffers : ℕ → ℕ → ColumnBuffer) (data : Data) (n : ℕ) (numThreads : ℤ) (t : ℕ) :
    ∃ count, serialCount e callers data order schema.rowStride n numThreads t = some count ∧
      Compute.workerThread (workers (task n (threadCount numThreads) t).1) slicer
        (logic.config schema) data (fieldBuffers (task n (threadCount numThreads) t).1)
        (task n (threadCount numThreads) t).1 (task n (threadCount numThreads) t).2 =
        some count := by
  have hfits := h.fits hnodes
  have hbound : ∀ f < min (logic.config schema).fields.length 8,
      ((logic.config schema).fields.getD f none).isSome :=
    fun f hf => h.bound f (hf.trans_le (Nat.min_le_left _ _))
  have hreads : ∀ caller, Reads g root 0 0 0 caller := fun _ => Or.inl hw
  refine ⟨_, h.count hfits hpool (fun row => hreads (callers row)) hfront hschema _ _, ?_⟩
  simp only [blockHits_advanced]
  exact Compute.workerThread_eq hbound (Jit.keeps_zero logic.mode g root compiled.metas)
    (fun c _ => h.answers hfits (hpools _ _) (hreads _) data schema.rowStride _ _) _

/-- **`execute_parallel` in every order of its steps.**  For an installed logic that is well
typed, there is a bound on the steps of all schedules.  A state in which no thread can go on is
one in which the main thread has returned, or the program was terminated because a thread could
not be started.  What is returned is the sum of the serial counts of the intervals whose thread
had a scratchpad, and every scratchpad has been freed.  When the rows divide well among the
threads, the serial counts add up to what `execute` returns. -/
theorem executeParallel_any_order (h : Installed e name logic g root compiled)
    (hw : g.WellTyped root) (hnodes : logic.mode = .scalar → (g.listing root).length ≤ 512)
    (hfront : order.front e.exprLogic = some (name, logic))
    (hschema : e.schemaMetadata.lookup name = some schema)
    (hpool : ∀ row, compiled.pool ⊆ (callers row).pool)
    (hpools : ∀ start row, compiled.pool ⊆ (workers start row).pool) (slicer : BitSlicer)
    (fieldBuffers : ℕ → ℕ → ColumnBuffer) (data : Data) (n : ℕ) (numThreads : ℤ) :
    ∃ (count : ℕ → ℕ) (bound : ℕ),
      (∀ t, serialCount e callers data order schema.rowStride n numThreads t = some (count t)) ∧
      (Divides n (threadCount numThreads) → e.count callers data order n =
        some (∑ t ∈ Finset.range (started n (threadCount numThreads)), count t)) ∧
      ∀ m s, Reaches (logic.threads schema workers slicer fieldBuffers data n numThreads) m s →
        m ≤ bound ∧
        (∀ total, s.main = .returned total → ∃ allocated : ℕ → Bool,
          (∀ t < started n (threadCount numThreads), s.phase t = .exited (allocated t)) ∧
          total = ∑ t ∈ Finset.range (started n (threadCount numThreads)) with
            allocated t = true, count t ∧
          ∀ a, s.heap a = none) ∧
        ((∀ i as s', ¬ Step (logic.threads schema workers slicer fieldBuffers data n numThreads)
            i as s s') →
          (∃ total, s.main = .returned total) ∨ ∃ t, s.main = .terminated t) := by
  choose count hserial hworker using workerThread_serialCount h hw hnodes hfront hschema hpool
    hpools slicer fieldBuffers data n numThreads
  have hcount := fun t (_ : t < started n (threadCount numThreads)) => hworker t
  obtain ⟨k, hends⟩ := Compute.ends_of_workerThread hcount
  refine ⟨count, _, hserial, fun hdiv => ?_, fun m s hreaches => ⟨hreaches.le_bound hends,
    fun total hret => Compute.returned_eq hcount hreaches hret, fun hstuck => ?_⟩⟩
  · have hreads : ∀ caller, Reads g root 0 0 0 caller := fun _ => Or.inl hw
    have hfits := h.fits hnodes
    have hserial := h.count hfits hpool (fun row => hreads (callers row)) hfront hschema data n
    have hparallel : e.countParallel callers data workers slicer fieldBuffers order n numThreads =
        _ := h.countParallel hfits hpools (fun start row => hreads (workers start row)) hfront
      hschema hdiv data slicer fieldBuffers
    rw [hserial, ← hparallel]
    simp only [Engine.countParallel, Engine.executeParallel, hfront, hschema]
    exact (congrArg (Option.map _) (congrArg (Option.map _) (Compute.run_eq_sum hcount))).trans rfl
  · rcases hreaches.progress fun t ht => ⟨k t, count t, hends t ht⟩ with ⟨i, as, s', hstep⟩ | hend
    · exact absurd hstep (hstuck i as s')
    · exact hend

/-- Four threads and 1024 rows of sevens. -/
theorem executeParallel_any_order_threshold : ∃ e st logic bound,
    sampleEngine.setExpression [115] Jit.standardHeap (Jit.thresholdGraph (.ofString [97]) 5)
      (some 2) .scalar sampleState = (e, st) ∧
    ∀ m s, Reaches (ExprCompiledLogic.threads logic ⟨8, [sampleField]⟩
        (fun _ _ => Caller.standard [] (by decide)) .portable (fun _ _ _ => 0) (fun _ => 7) 1024 4)
      m s → m ≤ bound := by
  obtain ⟨e, st, logic, he, hinst, hfits, hmode, hfront, hschema, -, hpool⟩ :=
    sampleEngine_installed (Jit.loadNodes_threshold (.ofString [97]) 5) (by decide) rfl (by decide)
  have hsub : ∀ pool : List (Word × Word), st.pool ⊆ pool := fun pool => by
    rw [hpool]
    exact List.nil_subset pool
  have hpools : ∀ row : ℕ, st.pool ⊆ ((fun _ => Caller.standard [] (by decide)) row : Caller).pool :=
    fun _ => hsub _
  have hworkers : ∀ start row : ℕ,
      st.pool ⊆ ((fun _ _ => Caller.standard [] (by decide)) start row : Caller).pool :=
    fun _ _ => hsub _
  obtain ⟨count, bound, -, -, hreach⟩ := executeParallel_any_order hinst
    (Jit.wellTyped_threshold (.ofString [97]) 5) (fun _ => (hfits hmode).2) (hfront .latest)
    hschema hpools hworkers .portable (fun _ _ _ => 0) (fun _ => 7) 1024 4
  exact ⟨e, st, logic, bound, he, fun m s h => (hreach m s h).1⟩

end Schedules

end Api
end ApexEngine
