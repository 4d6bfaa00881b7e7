import ApexEngine.Compute.Gather
import ApexEngine.Jit.Kernel
import ApexEngine.Jit.Semantics

/-!
# The planes of a block of rows

Before a kernel is called on a block of rows, each field slot of its logic gets a
buffer with the gathered column, transposed for a bit-sliced kernel, and the plane
array gets the pointer to it.  The serial loop and the workers do this with the same
code written twice; they differ in what they do about a slot that is not bound to a
descriptor, so the step for one bound slot is shared (`loadColumn`) and the loops are
not.

`ShowsFields` is what either loop establishes: bound slots show their columns, the
others are null.  `Answers` is what is asked of a kernel that is called after it.
-/

namespace ApexEngine
namespace Compute

open A64 (Word Item)
open Core (FieldDescriptor)
open Jit (ExecutionMode Caller Planes Scratch ShowsColumn)

/-- The column buffers and the plane array. -/
structure Staging where
  fieldBuffers : ℕ → ColumnBuffer
  fieldPlanes : Planes

/-- A gathered column as the kernel wants it. -/
def prepare (slicer : BitSlicer) (mode : ExecutionMode) (gathered : ColumnBuffer) : ColumnBuffer :=
  match mode with
  | .bitSliced => slicer.slice gathered
  | .scalar => gathered

/-- Put a column into the buffer of slot `i` and its address into the plane array. -/
def Staging.loadColumn (s : Staging) (slicer : BitSlicer) (mode : ExecutionMode) (i : ℕ)
    (gathered : ColumnBuffer) : Staging where
  fieldBuffers := Function.update s.fieldBuffers i (prepare slicer mode gathered)
  fieldPlanes := Function.update s.fieldPlanes i (some (prepare slicer mode gathered))

/-- The column of a field over a block: `rows` rows from `ptr` on, then zeros. -/
def blockColumn (data : Data) (ptr rowStride rows : ℕ) (field : FieldDescriptor) (r : ℕ) : Word :=
  if r < rows then memcpy8 data (ptr + r * rowStride + field.offset.toNat) else 0

/-- The bytes of row `r` of a block, and zeros for the rows it does not have. -/
def blockRow (data : Data) (ptr rowStride rows r : ℕ) : Data := fun a =>
  if r < rows then data (ptr + r * rowStride + a) else 0

theorem blockColumn_eq (data : Data) (ptr rowStride rows : ℕ) (field : FieldDescriptor) (r : ℕ) :
    blockColumn data ptr rowStride rows field r =
      memcpy8 (blockRow data ptr rowStride rows r) field.offset.toNat := by
  unfold blockColumn
  split
  · rename_i hr
    refine memcpy8_congr fun k _ => ?_
    rw [blockRow, if_pos hr, Nat.add_assoc]
  · rename_i hr
    rw [memcpy8_zero fun k _ => ?_]
    rw [blockRow, if_neg hr]

/-- The planes show the columns of the bound slots, and no other slot has one. -/
def ShowsFields (mode : ExecutionMode) (fields : List (Option FieldDescriptor)) (planes : Planes)
    (column : FieldDescriptor → ℕ → Word) : Prop :=
  ∀ i < 8, match fields.getD i none with
    | some field => ∃ p, planes i = some p ∧ ShowsColumn mode p (column field)
    | none => planes i = none

theorem showsColumn_prepare {slicer : BitSlicer} {mode : ExecutionMode} {gathered : ColumnBuffer}
    {column : ℕ → Word} (h : ∀ r < 64, gathered r = column r) :
    ShowsColumn mode (prepare slicer mode gathered) column := by
  cases mode with
  | bitSliced =>
    intro r hr
    rw [← h r hr]
    exact slicer.shows_slice gathered hr
  | scalar => exact h

/-- Called with planes that show the columns, and a scratchpad that satisfies `I`, the
kernel returns, and its mask and the scratchpad it leaves satisfy `Q`. -/
def Answers (caller : Caller) (kernel : List Item) (mode : ExecutionMode)
    (fields : List (Option FieldDescriptor)) (column : FieldDescriptor → ℕ → Word)
    (I : Scratch → Prop) (Q : Word → Scratch → Prop) : Prop :=
  ∀ planes scratch, ShowsFields mode fields planes column → I scratch →
    ∃ m S, caller.callExpr kernel planes scratch = some (m, S) ∧ Q m S

theorem Answers.mono {caller : Caller} {kernel : List Item} {mode : ExecutionMode}
    {fields : List (Option FieldDescriptor)} {column : FieldDescriptor → ℕ → Word}
    {I I' : Scratch → Prop} {Q Q' : Word → Scratch → Prop}
    (h : Answers caller kernel mode fields column I Q) (hI : ∀ scratch, I' scratch → I scratch)
    (hQ : ∀ m S, Q m S → Q' m S) : Answers caller kernel mode fields column I' Q' := by
  intro planes scratch hshows hscratch
  obtain ⟨m, S, hcall, hm⟩ := h planes scratch hshows (hI scratch hscratch)
  exact ⟨m, S, hcall, hQ m S hm⟩

/-- The slots below `i` are done. -/
structure Staged (mode : ExecutionMode) (fields : List (Option FieldDescriptor))
    (column : FieldDescriptor → ℕ → Word) (i : ℕ) (s : Staging) : Prop where
  done : ∀ j < i, match fields.getD j none with
    | some field => ∃ p, s.fieldPlanes j = some p ∧ ShowsColumn mode p (column field)
    | none => s.fieldPlanes j = none
  rest : ∀ j, i ≤ j → s.fieldPlanes j = none

namespace Staged

variable {mode : ExecutionMode} {fields : List (Option FieldDescriptor)}
  {column : FieldDescriptor → ℕ → Word} {i : ℕ} {s : Staging}

/-- Nothing is published after the plane array is cleared. -/
theorem start (buffers : ℕ → ColumnBuffer) :
    Staged mode fields column 0 ⟨buffers, fun _ => none⟩ where
  done j hj := absurd hj (Nat.not_lt_zero j)
  rest _ _ := rfl

/-- A bound slot gets the column of its field. -/
theorem loadColumn (h : Staged mode fields column i s) {field : FieldDescriptor}
    (hf : fields.getD i none = some field) {slicer : BitSlicer} {gathered : ColumnBuffer}
    (hg : ∀ r < 64, gathered r = column field r) :
    Staged mode fields column (i + 1) (s.loadColumn slicer mode i gathered) where
  done j hj := by
    by_cases hji : j = i
    · subst hji
      rw [hf]
      exact ⟨_, Function.update_self .., showsColumn_prepare hg⟩
    · simp only [Staging.loadColumn, Function.update_of_ne hji]
      exact h.done j (by omega)
  rest j hj := by
    have hji : j ≠ i := by omega
    simp only [Staging.loadColumn, Function.update_of_ne hji]
    exact h.rest j (by omega)

/-- A slot that is not bound. -/
theorem skip (h : Staged mode fields column i s) (hf : fields.getD i none = none) :
    Staged mode fields column (i + 1)
      { s with fieldPlanes := Function.update s.fieldPlanes i none } where
  done j hj := by
    by_cases hji : j = i
    · subst hji
      rw [hf]
      exact Function.update_self ..
    · simp only [Function.update_of_ne hji]
      exact h.done j (by omega)
  rest j hj := by
    have hji : j ≠ i := by omega
    simp only [Function.update_of_ne hji]
    exact h.rest j (by omega)

/-- When all slots are done the planes show the fields. -/
theorem showsFields (h : Staged mode fields column (min fields.length 8) s) :
    ShowsFields mode fields s.fieldPlanes column := by
  intro i hi
  by_cases hlt : i < fields.length
  · exact h.done i (by omega)
  · rw [List.getD_eq_getElem?_getD, List.getElem?_eq_none (by omega), Option.getD_none]
    exact h.rest i (by omega)

end Staged
end Compute
end ApexEngine
