import ApexEngine.Api.Widths
import ApexEngine.Jit.Readings

/-!
# Which logics look at declared bytes only

A threshold is not influenced by the bytes that its field does not declare exactly when the
field is declared with all its eight bytes, or when nothing can exceed the threshold.

For expressions there are three layers of the same (`noninterference`).

* When the eight bytes read of every field are declared, by this field or by others, no
  expression is influenced by other bytes.
* A comparison of a field with a constant is a comparison with a limit (`limit`).  It is not
  influenced exactly when each byte that is read and not declared is one of the zero bytes at
  the end of this limit, so that it decides nothing.
* A well-typed expression is not influenced exactly when what its kernel reads in it
  (`Graph.kernelReading`) depends on the declared bytes of a row only.  Where words reach into the
  rows behind, each of their bits has to, unless it is covered whatever the rows before are.
-/

namespace ApexEngine
namespace Api

open A64 (Word)
open Core (Name FieldDescriptor)
open Compute (Data blockRow memcpy8 memcpy8_congr popcount)
open Jit (Caller Graph NodeRef NodeKind CompileState FollowMasks SameFields kernelMask)

/-- The limit of a comparison with a constant: a number is greater when it is at least the
next one, and less when it is not at least the constant. -/
def limit (op : NodeKind) (T : Word) : ℕ :=
  match op with
  | .gt => T.toNat + 1
  | _ => T.toNat

section Expression

variable {e : Engine} {name : Name} {logic : ExprCompiledLogic} {g : Graph} {root : NodeRef}
  {compiled : CompileState} {x2 x3 x5 : Word}

/-- The descriptors a logic refers to. -/
def ExprCompiledLogic.descriptors (logic : ExprCompiledLogic) : List FieldDescriptor :=
  logic.fields.filterMap id

/-- The bits of the mask of a block. -/
def rowHits (e : Engine) (name : Name) (logic : ExprCompiledLogic) (g : Graph) (root : NodeRef)
    (x2 x3 x5 : Word) (block : ℕ → Data) : ℕ :=
  popcount (kernelMask g (fun r => rowOf e.registry name (block r)) logic.mode root x2 x3 x5)

/-! ## One block -/

/-- A row is read where the descriptors of the logic say. -/
theorem Installed.sameFields (h : Installed e name logic g root compiled) {x y : Data}
    (hxy : SameRead logic.descriptors x y) :
    SameFields g root (rowOf e.registry name x) (rowOf e.registry name y) := by
  intro n hn
  obtain ⟨i, field, -, hi, hslot, hfield⟩ := h.binds n hn
  have hmem : field ∈ logic.descriptors := by
    refine List.mem_filterMap.mpr ⟨some field, ?_, rfl⟩
    have hlt : i < logic.fields.length := by omega
    rw [List.getD_eq_getElem?_getD, List.getElem?_eq_getElem hlt, Option.getD_some] at hslot
    rw [← hslot]
    exact List.getElem_mem hlt
  simp only [rowOf, hfield, Option.map_some, Option.getD_some]
  exact memcpy8_congr fun k hk => hxy field hmem k hk

/-- A kernel reads eight bytes of each of these fields. -/
theorem Installed.rowHits_congr (h : Installed e name logic g root compiled)
    {block block' : ℕ → Data}
    (hread : ∀ r < 64, SameRead logic.descriptors (block r) (block' r)) :
    rowHits e name logic g root x2 x3 x5 block = rowHits e name logic g root x2 x3 x5 block' := by
  unfold rowHits
  rw [Jit.kernelMask_congr fun r hr => h.sameFields (hread r hr)]

/-- What executing an expression counts, block by block. -/
theorem Installed.count_restride (h : Installed e name logic g root compiled)
    (hfits : Jit.Fits g logic.mode root) {callers : ℕ → Caller}
    (hpool : ∀ row, compiled.pool ⊆ (callers row).pool)
    (hreads : ∀ row, Reads g root x2 x3 x5 (callers row)) {order : IterationOrder}
    (hfront : order.front e.exprLogic = some (name, logic)) (fields : List FieldDescriptor)
    (rowStride : ℕ) (data : Data) (n : ℕ) :
    (e.restride name ⟨rowStride, fields⟩).count callers data order n =
      some (Blocks.blockSum 64 n fun start _ => rowHits e name logic g root x2 x3 x5
        (blockRow data (start * rowStride) rowStride (min 64 (n - start)))) := by
  have h' : Installed (e.restride name ⟨rowStride, fields⟩) name logic g root compiled :=
    ⟨h.kernel, h.binds, h.bound⟩
  exact h'.count hfits hpool hreads hfront (AList.lookup_insert _) data n

/-! ## One row -/

/-- **Rows that a kernel decides by what it reads** in each of them. -/
theorem undisturbed_rowHits_iff (hw : g.WellTyped root)
    (hfollow : logic.mode = .scalar → FollowMasks g (g.listing root)) :
    Undisturbed logic.descriptors (rowHits e name logic g root x2 x3 x5) ↔
      ∀ r < 64, DependsOnDeclared logic.descriptors fun bytes =>
        g.kernelReading root logic.mode r (rowOf e.registry name bytes) := by
  simp only [dependsOnDeclared_iff]
  refine undisturbed_iff fun block => popcount_eq fun r hr => ?_
  rw [Jit.kernelMask_getLsbD hw _ _ _ _ hr, Jit.laneVerdict_eq_kernelReading hw hfollow hr]

/-- **Rows whose words are shifted into the mask**, whatever these are. -/
theorem undisturbed_rowHits_scalar_iff (hw : g.WellTyped root) (hmode : logic.mode = .scalar) :
    Undisturbed logic.descriptors (rowHits e name logic g root x2 x3 x5) ↔
      ∀ k < 64, (∃ d ≤ k, ∀ bytes,
          (g.read root (rowOf e.registry name bytes) root).getLsbD d = true) ∨
        DependsOnDeclared logic.descriptors fun bytes =>
          (g.read root (rowOf e.registry name bytes) root).getLsbD k := by
  refine undisturbed_shifted_iff fun block => popcount_eq fun r hr => ?_
  rw [Jit.kernelMask_getLsbD hw _ _ _ _ hr, hmode, Bool.eq_iff_iff,
    Jit.laneVerdict_scalar_iff_wordBit hr, decide_eq_true_iff]
  simp only [Graph.wordBit, Jit.scalarValue_eq_read hw]

/-- A comparison with a constant is one with its limit, or the opposite of it. -/
theorem dependsOnDeclared_holds_iff {op : NodeKind} (hop : op = .gt ∨ op = .lt)
    {fields : List FieldDescriptor} {o : ℕ} {T : Word} :
    DependsOnDeclared fields (fun bytes => op.holds (memcpy8 bytes o) T) ↔
      ∀ k < 8, Declares fields (o + k) ∨ 256 ^ (k + 1) ∣ limit op T := by
  have hT := T.isLt
  rcases hop with rfl | rfl
  · rw [← dependsOnDeclared_atLeast_iff (show limit .gt T ≤ 2 ^ 64 from hT)]
    rfl
  · rw [← dependsOnDeclared_atLeast_iff (show limit .lt T ≤ 2 ^ 64 from hT.le)]
    refine forall_congr' fun bytes => ?_
    have hless : ∀ w : Word, NodeKind.lt.holds w T = !decide (T.toNat ≤ w.toNat) := by
      intro w
      rw [NodeKind.holds, ← decide_not, decide_eq_decide, BitVec.lt_def, Nat.not_le]
    simp only [hless, limit, Bool.not_inj_iff]
    exact Iff.rfl

/-- **Rows of which a field is compared with a constant.** -/
theorem undisturbed_comparison_iff {op : NodeKind} {l c : NodeRef} (hbuilds : g.Builds op root l c)
    (hop : op = .gt ∨ op = .lt) (hl : g.kind l = .load) (hc : g.kind c = .const)
    {field : FieldDescriptor}
    (hfield : e.registry.getField name (g.node l).fieldName = some field) :
    Undisturbed logic.descriptors (rowHits e name logic g root x2 x3 x5) ↔
      ∀ k < 8, Declares logic.descriptors (field.offset.toNat + k) ∨
        256 ^ (k + 1) ∣ limit op (g.node c).constValue := by
  have hne : op ≠ .eq := by rcases hop with rfl | rfl <;> decide
  have hhits : ∀ block, rowHits e name logic g root x2 x3 x5 block =
      (List.range 64).countP fun r =>
        op.holds (memcpy8 (block r) field.offset.toNat) (g.node c).constValue := by
    intro block
    refine popcount_eq fun r hr => ?_
    rw [hbuilds.kernelMask_getLsbD (.load hl) (.const hc) _ _ _ _ _ hr, decide_eq_true (Or.inr hne),
      Bool.and_true, Graph.value_eq, Graph.value_eq, Graph.valueStep, Graph.valueStep, hl, hc]
    simp only [rowOf, hfield, Option.map_some, Option.getD_some]
  rw [@undisturbed_iff _ _ (fun _ bytes =>
    op.holds (memcpy8 bytes field.offset.toNat) (g.node c).constValue) hhits,
    ← dependsOnDeclared_holds_iff hop, dependsOnDeclared_iff]
  exact ⟨fun h => h 0 (by omega), fun h _ _ => h⟩

end Expression

/-- **When bytes of other fields do not influence a count.** -/
theorem noninterference (callers : ℕ → Caller) (order : IterationOrder) (e : Engine) (name : Name)
    (fields : List FieldDescriptor) :
    (∀ (field : FieldDescriptor) (T : Word), e.exprLogic = ∅ →
      order.front e.compiledLogic = some (name, ⟨field, Jit.compileComparison T⟩) →
      (Noninterfering [field] (fun rowStride data n =>
          (e.restride name ⟨rowStride, fields⟩).count callers data order n) ↔
        64 ≤ field.bitWidth.toNat ∨ T = BitVec.allOnes 64)) ∧
    ∀ (logic : ExprCompiledLogic) (g : Graph) (root : NodeRef) (compiled : CompileState)
      (x2 x3 x5 : Word), Installed e name logic g root compiled →
      (logic.mode = .scalar → (g.listing root).length ≤ 512) →
      (∀ row, compiled.pool ⊆ (callers row).pool) →
      (∀ row, Reads g root x2 x3 x5 (callers row)) →
      order.front e.exprLogic = some (name, logic) →
      let noninterfering := Noninterfering logic.descriptors (fun rowStride data n =>
        (e.restride name ⟨rowStride, fields⟩).count callers data order n)
      (AllDeclared logic.descriptors → noninterfering) ∧
      (∀ op l c field, g.Builds op root l c → op = .gt ∨ op = .lt → g.kind l = .load →
        g.kind c = .const → e.registry.getField name (g.node l).fieldName = some field →
        (noninterfering ↔ ∀ k < 8, Declares logic.descriptors (field.offset.toNat + k) ∨
          256 ^ (k + 1) ∣ limit op (g.node c).constValue)) ∧
      (g.WellTyped root → (logic.mode = .scalar → FollowMasks g (g.listing root)) →
        (noninterfering ↔ ∀ r < 64, DependsOnDeclared logic.descriptors fun bytes =>
          g.kernelReading root logic.mode r (rowOf e.registry name bytes))) ∧
      (g.WellTyped root → logic.mode = .scalar →
        (noninterfering ↔ ∀ k < 64, (∃ d ≤ k, ∀ bytes,
            (g.read root (rowOf e.registry name bytes) root).getLsbD d = true) ∨
          DependsOnDeclared logic.descriptors fun bytes =>
            (g.read root (rowOf e.registry name bytes) root).getLsbD k)) ∧
      (noninterfering ↔ Undisturbed logic.descriptors (rowHits e name logic g root x2 x3 x5)) := by
  constructor
  · intro field T hexpr hfront
    rw [noninterfering_iff (count_threshold_blocks hexpr hfront fields)
      fun _ _ => thresholdHits_congr]
    exact undisturbed_thresholdHits_iff
  · intro logic g root compiled x2 x3 x5 h hnodes hpool hreads hfront noninterfering
    have hblock : noninterfering ↔
        Undisturbed logic.descriptors (rowHits e name logic g root x2 x3 x5) :=
      noninterfering_iff (h.count_restride (h.fits hnodes) hpool hreads hfront fields)
        fun _ _ => h.rowHits_congr
    refine ⟨fun hdeclared => ?_, fun op l c field hbuilds hop hl hc hfield => ?_,
      fun hw hfollow => ?_, fun hw hmode => ?_, hblock⟩
    · exact hblock.mpr (undisturbed_of_declares (fun _ _ => h.rowHits_congr) hdeclared)
    · rw [hblock, undisturbed_comparison_iff hbuilds hop hl hc hfield]
    · rw [hblock, undisturbed_rowHits_iff hw hfollow]
    · rw [hblock, undisturbed_rowHits_scalar_iff hw hmode]

/-- The fields of a sensor: an identifier of 32 bits, with four bytes behind it that no field
declares, a temperature and a humidity. -/
def sensorFields : List FieldDescriptor :=
  [⟨[105, 100], 0, 32, .uint32⟩, ⟨[116], 8, 64, .uint64⟩, ⟨[104], 16, 64, .uint64⟩]

/-- The engine of a sensor, with a threshold on its temperature. -/
def sensorEngine : Engine :=
  ((Engine.new .portable fun _ _ => 0).registerSchema [115] sensorFields 24).setLogic [115] [116] 5

/-- A temperature has all its eight bytes. -/
theorem noninterference_temperature :
    Noninterfering [⟨[116], 8, 64, .uint64⟩] fun rowStride data n =>
      (sensorEngine.restride [115] ⟨rowStride, sensorFields⟩).count
        (fun _ => Caller.standard [] (by decide)) data .latest n :=
  ((noninterference _ _ sensorEngine [115] sensorFields).1 _ 5 rfl rfl).mpr (Or.inl le_rfl)

/-- **Padding is part of a narrow field.**  The identifiers of two sensors are zero, and one
of them exceeds five because a byte of the padding behind it is set. -/
theorem noninterference_sensor : ¬ ∀ (callers : ℕ → Caller) (order : IterationOrder)
    (fields : List FieldDescriptor) (s f : Name) (field : FieldDescriptor) (rowStride : ℕ) (T : Word)
    (n : ℕ) (data data' : Data),
    (∀ d ∈ fields, 8 ∣ d.bitWidth.toNat ∧ d.bitWidth.toNat ≤ 64) →
    (fields.find? fun d => d.name == f) = some field →
    (∀ i < n, SameDeclared [field] (datasetRow data rowStride i) (datasetRow data' rowStride i)) →
    (((Engine.new .portable fun _ _ => 0).registerSchema s fields rowStride).setLogic s f T).count
        callers data order n =
      (((Engine.new .portable fun _ _ => 0).registerSchema s fields rowStride).setLogic s f T).count
        callers data' order n := by
  intro h
  let padded : Data := fun a => if a = 4 then 1 else 0
  have hfield : (sensorFields.find? fun d => d.name == [105, 100]) =
      some ⟨[105, 100], 0, 32, .uint32⟩ := rfl
  have hsame : ∀ i < 1, SameDeclared [⟨[105, 100], 0, 32, .uint32⟩]
      (datasetRow (fun _ => 0) 24 i) (datasetRow padded 24 i) := by
    rintro i hi a ⟨d, hd, -, hlt⟩
    obtain rfl : i = 0 := by omega
    rw [List.mem_singleton.mp hd] at hlt
    have hne : 0 * 24 + a ≠ 4 := fun heq => by
      simp at hlt
      omega
    simp only [datasetRow, padded, if_neg hne]
  have hcount := h (fun _ => Caller.standard [] (by decide)) .latest sensorFields [115] [105, 100]
    _ 24 5 1 (fun _ => 0) padded (by decide) hfield hsame
  have hconf := configured_new .portable (fun _ _ => 0) [115] sensorFields 24
  have hget := (getField_new .portable (fun _ _ => 0) [115] [105, 100] sensorFields 24).trans hfield
  rw [count_setLogic hconf hget, count_setLogic hconf hget] at hcount
  exact absurd hcount (by decide)

end Api
end ApexEngine
