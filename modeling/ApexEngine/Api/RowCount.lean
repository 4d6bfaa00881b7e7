import ApexEngine.Api.Words

/-!
# Counting the rows of a predicate

The kernel of a logic decides a predicate of rows when it returns, for any 64 rows, the
mask of those that satisfy it.  Executing the logic then counts the rows that satisfy
the predicate, and besides them the rows a partial last block is padded with, when a row
of zeros satisfies it (`count_eq`).  So the count is right exactly when there is no such
block or zeros are no match (`execute_counts_iff`), and over words when, besides, the rows
do not reach into the last block of the words (`executeWord_counts_iff`).
-/

namespace ApexEngine
namespace Api

open A64 (Word Item)
open Core (Name SchemaRegistry FieldDescriptor)
open Compute (Data Answers behind blockColumn memcpy8 popcount)
open Jit (ExecutionMode Caller Graph NodeRef CompileState Fits laneVerdict)

/-- A kernel that decides a predicate: called on any 64 rows, with a cleared scratchpad, it
returns the mask of those that satisfy it. -/
def Decides (callers : ℕ → Caller) (logic : ExprCompiledLogic) (P : Data → Bool) : Prop :=
  ∀ row, ∀ bytes : ℕ → Data,
    Answers (callers row) logic.kernel logic.mode logic.fields
      (fun field r => memcpy8 (bytes r) field.offset.toNat) (· = fun _ => 0)
      fun m _ => ∀ r < 64, m.getLsbD r = P (bytes r)

variable {callers : ℕ → Caller} {order : IterationOrder} {e : Engine} {name : Name}
  {logic : ExprCompiledLogic} {schema : SchemaMetadata} {P : Data → Bool}

/-- **What `execute` returns** for a kernel that decides a predicate. -/
theorem count_eq (hfront : order.front e.exprLogic = some (name, logic))
    (hschema : e.schemaMetadata.lookup name = some schema) (hlogic : Decides callers logic P)
    (data : Data) (n : ℕ) :
    e.count callers data order n =
      some ((List.range n).countP (fun i => P (datasetRow data schema.rowStride i)) +
        if P fun _ => 0 then Blocks.count 64 n * 64 - n else 0) := by
  have hcall : ∀ c, c * 64 < n → Answers (callers (c * 64)) logic.kernel logic.mode logic.fields
      (blockColumn data (c * 64 * schema.rowStride) schema.rowStride (min 64 (n - c * 64)))
      (· = fun _ => 0) fun m _ =>
        popcount m = blockCount P data schema.rowStride n (c * 64) := by
    intro c _
    rw [funext₂ (Compute.blockColumn_eq data _ _ _)]
    exact (hlogic (c * 64) _).mono (fun _ h => h) fun m _ hm => popcount_eq hm
  obtain ⟨buffers, hscan⟩ := scan_exprChunk (e := e) hcall
  rw [Engine.count, execute_of_expr hfront hschema, hscan, Option.map_some, blockSum_blockCount]

/-- The kernel of an installed logic decides what its lanes do. -/
theorem Installed.decides {g : Graph} {root : NodeRef} {compiled : CompileState}
    (h : Installed e name logic g root compiled) (hfits : Fits g logic.mode root)
    (hpool : ∀ row, compiled.pool ⊆ (callers row).pool) (hw : g.WellTyped root)
    (hverdict : ∀ bytes : ℕ → Data, ∀ r < 64,
      laneVerdict g (fun r => rowOf e.registry name (bytes r)) logic.mode root r = P (bytes r)) :
    Decides callers logic P := by
  intro row bytes
  obtain ⟨heap, st, hcompile⟩ := h.kernel
  refine (answers_of_compile hcompile hfits (hpool row) h.binds bytes).mono ?_ ?_
  · rintro scratch rfl
    exact Jit.keeps_zero logic.mode g root compiled.metas
  · rintro m S ⟨rfl, -⟩ r hr
    rw [Jit.kernelMask_getLsbD hw logic.mode _ _ _ hr, hverdict bytes r hr]

/-- The small engine with an expression of its field, in scalar mode. -/
theorem sampleEngine_decides {g : Graph} {root n : NodeRef} (hload : g.loadNodes root = [n])
    (hvisit : n ∈ g.visits root) (hname : (g.node n).fieldName = [97])
    (hnodes : (g.listing root).length ≤ 512) (hw : g.WellTyped root)
    (hover : g.Over root Jit.scalarKinds) (P : Word → Bool)
    (htruth : ∀ row, g.truth row root = P (row [97])) (callers : ℕ → Caller) :
    ∃ e st logic, sampleEngine.setExpression [115] Jit.standardHeap g (some root) .scalar
        sampleState = (e, st) ∧
      (∀ order : IterationOrder, order.front e.exprLogic = some ([115], logic)) ∧
      e.schemaMetadata.lookup [115] = some ⟨8, [sampleField]⟩ ∧
      Decides callers logic fun bytes => P (memcpy8 bytes 0) := by
  obtain ⟨e, st, logic, he, hinst, hfits, hmode, hfront, hschema, hfield, hpool⟩ :=
    sampleEngine_installed hload hvisit hname hnodes
  refine ⟨e, st, logic, he, hfront, hschema, hinst.decides hfits (fun _ => ?_) hw ?_⟩
  · rw [hpool]
    exact List.nil_subset _
  · intro bytes r hr
    rw [hmode, Jit.laneVerdict_eq_truth hw (fun h => absurd h (by decide)) (fun _ => hover) hr,
      htruth, rowOf, hfield]
    rfl

/-- **What fills up the last block** counts nothing exactly when there is nothing to fill up or a
row of zeros is no match. -/
theorem padding_eq_zero_iff {P : Data → Bool} {n : ℕ} :
    (if P fun _ => 0 then Blocks.count 64 n * 64 - n else 0) = 0 ↔
      64 ∣ n ∨ P (fun _ => 0) = false := by
  have hpos : 0 < 64 := by omega
  cases hP : P fun _ => 0 with
  | false => simp
  | true =>
    have hle := Blocks.le_count_mul hpos (n := n)
    simp only [if_true, Bool.true_eq_false, or_false]
    constructor
    · intro h
      exact ⟨Blocks.count 64 n, by omega⟩
    · intro h
      rw [Blocks.count_mul_of_dvd hpos h, Nat.sub_self]

/-- There are no more matches than rows. -/
theorem countP_rows_le (P : Data → Bool) (data : Data) (rowStride n : ℕ) :
    (List.range n).countP (fun i => P (datasetRow data rowStride i)) ≤ n :=
  List.countP_le_length.trans (Nat.le_of_eq List.length_range)

/-- **`execute` counts the rows of a predicate** exactly when the last block is a full one
or a row of zeros is no match.  Nothing is counted beyond the rows then. -/
theorem execute_counts_iff (hfront : order.front e.exprLogic = some (name, logic))
    (hschema : e.schemaMetadata.lookup name = some schema) (hlogic : Decides callers logic P)
    (data : Data) (n : ℕ) :
    (∃ total, e.count callers data order n = some total ∧
        total = (List.range n).countP (fun i => P (datasetRow data schema.rowStride i)) ∧
        total ≤ n) ↔
      64 ∣ n ∨ P (fun _ => 0) = false := by
  rw [count_eq hfront hschema hlogic, ← padding_eq_zero_iff]
  constructor
  · rintro ⟨total, htotal, hcount, -⟩
    have := Option.some.inj htotal
    omega
  · intro h
    refine ⟨_, rfl, by rw [h, Nat.add_zero], ?_⟩
    rw [h, Nat.add_zero]
    exact countP_rows_le P data schema.rowStride n

/-- `GT(Load("a"), Const(5))` on a hundred rows: zeros are no match, so it is right that no
more than a hundred are counted. -/
theorem execute_counts_iff_threshold : ∃ e st, sampleEngine.setExpression [115] Jit.standardHeap
      (Jit.thresholdGraph (.ofString [97]) 5) (some 2) .scalar sampleState = (e, st) ∧
    ∃ total, e.count (fun _ => Caller.standard [] (by decide)) (fun _ => 7) .latest 100 = some total ∧
      total ≤ 100 := by
  obtain ⟨e, st, logic, he, hfront, hschema, hdecides⟩ := sampleEngine_decides
    (Jit.loadNodes_threshold (.ofString [97]) 5) (by decide) rfl (by decide)
    (Jit.wellTyped_threshold _ _) (Jit.over_threshold _ _ (by decide))
    (fun a => decide (5 < a)) (Jit.truth_threshold _ _) fun _ => Caller.standard [] (by decide)
  obtain ⟨total, htotal, -, hle⟩ := (execute_counts_iff (hfront .latest) hschema hdecides
    (fun _ => 7) 100).mpr (Or.inr rfl)
  exact ⟨e, st, he, total, htotal, hle⟩

/-- **Padding is counted.**  `LT(Load("a"), Const(5))` does not hold on a row of sevens, but
it does on the 63 rows of zeros that fill up its block. -/
theorem execute_counts_padding : ¬ ∀ (callers : ℕ → Caller) (order : IterationOrder) (e : Engine)
    (name : Name) (logic : ExprCompiledLogic) (schema : SchemaMetadata) (P : Data → Bool)
    (data : Data) (n : ℕ), order.front e.exprLogic = some (name, logic) →
      e.schemaMetadata.lookup name = some schema → Decides callers logic P →
      ∃ total, e.count callers data order n = some total ∧
        total = (List.range n).countP (fun i => P (datasetRow data schema.rowStride i)) ∧
        total ≤ n := by
  intro h
  obtain ⟨e, st, logic, he, hfront, hschema, hdecides⟩ := sampleEngine_decides
    (Jit.loadNodes_below (.ofString [97]) 5) (by decide) rfl (by decide)
    (Jit.wellTyped_below _ _) (Jit.over_below _ _ (by decide))
    (fun a => decide (a < 5)) (Jit.truth_below _ _) fun _ => Caller.standard [] (by decide)
  obtain ⟨total, htotal, hcount, -⟩ := h _ .latest _ _ _ _ _ (fun _ => 7) 1 (hfront .latest)
    hschema hdecides
  rw [count_eq (hfront .latest) hschema hdecides, hcount] at htotal
  exact absurd (Option.some.inj htotal) (by decide)

/-- **`execute` over words** counts the rows of a predicate when, besides, the loop over the chunks
ends, which it does up to `2 ^ 64 - 64` rows. -/
theorem executeWord_counts_iff (hfront : order.front e.exprLogic = some (name, logic))
    (hschema : e.schemaMetadata.lookup name = some schema) (hlogic : Decides callers logic P)
    (space : Word → UInt8) (base rowCount : Word) :
    (∃ total, e.CountsWord callers space base order rowCount total ∧
        total.toNat = (List.range rowCount.toNat).countP (fun i =>
          P (datasetRow (behind space base) schema.rowStride i)) ∧
        total ≤ rowCount) ↔
      rowCount.toNat ≤ 2 ^ 64 - 64 ∧ (64 ∣ rowCount.toNat ∨ P (fun _ => 0) = false) := by
  have hcounts := fun total => @Engine.countsWord_iff_of_count callers space base rowCount order e
    (Engine.scans_of_expr hfront hschema) _ (count_eq hfront hschema hlogic _ rowCount.toNat) total
  simp only [hcounts]
  rw [← padding_eq_zero_iff]
  have hle := countP_rows_le P (behind space base) schema.rowStride rowCount.toNat
  have hpad : (if P fun _ => 0 then Blocks.count 64 rowCount.toNat * 64 - rowCount.toNat else 0) <
      64 := by
    have := Blocks.count_mul_lt (show 0 < 64 by omega) (n := rowCount.toNat)
    split <;> omega
  constructor
  · rintro ⟨total, ⟨hrows, rfl⟩, htotal, -⟩
    rw [BitVec.toNat_ofNat, Nat.mod_eq_of_lt (by omega)] at htotal
    exact ⟨hrows, by omega⟩
  · rintro ⟨hrows, hzero⟩
    refine ⟨_, ⟨hrows, rfl⟩, ?_, ?_⟩
    · rw [hzero, BitVec.toNat_ofNat, Nat.mod_eq_of_lt (by omega), Nat.add_zero]
    · rw [hzero, BitVec.le_def, BitVec.toNat_ofNat, Nat.mod_eq_of_lt (by omega), Nat.add_zero]
      exact hle

end Api
end ApexEngine
