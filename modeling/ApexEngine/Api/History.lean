import ApexEngine.Api.Execution
import ApexEngine.Core.Runs

/-!
# Histories of an engine

An engine is configured by calls of `register_schema`, `set_logic` and
`set_expression`.  `register_schema` always assigns the metadata of the schema; the
other two assign a logic, or nothing at all when a field or a kernel is missing
(`Engine.installs`).

The maps an engine executes from are therefore what a history of calls has assigned
(`exprLogic_run`, `compiledLogic_run`, `schemaMetadata_run`).  The registry is the
exception: it keeps the first registration of a name and ignores the later ones.
-/

namespace ApexEngine
namespace Api

open A64 (Word)
open Core (Name StringMap FieldDescriptor)
open Jit (ExecutionMode Graph NodeRef CompileState)

/-- A call that configures an engine.  A call of `set_expression` has with it the state in
which it finds the compilers: the nodes with what other compilations left in them, and
the constants of its thread. -/
inductive Call where
  | registerSchema (schemaName : Name) (fields : List FieldDescriptor) (totalRowStride : ℕ)
  | setLogic (schemaName fieldName : Name) (threshold : Word)
  | setExpression (schemaName : Name) (heap : ℕ → Word) (g : Graph) (exprRoot : Option NodeRef)
      (mode : ExecutionMode) (st : CompileState)

/-- The logic of a schema. -/
inductive Logic where
  | threshold (logic : CompiledLogic)
  | expression (logic : ExprCompiledLogic)

namespace Logic

def asThreshold : Logic → Option CompiledLogic
  | .threshold logic => some logic
  | .expression _ => none

def asExpression : Logic → Option ExprCompiledLogic
  | .threshold _ => none
  | .expression logic => some logic

end Logic

namespace Engine

/-- What a call does. -/
def step (e : Engine) : Call → Engine
  | .registerSchema schemaName fields totalRowStride =>
      e.registerSchema schemaName fields totalRowStride
  | .setLogic schemaName fieldName threshold => e.setLogic schemaName fieldName threshold
  | .setExpression schemaName heap g exprRoot mode st =>
      (e.setExpression schemaName heap g exprRoot mode st).1

/-- The schema a call registers. -/
def registers (_ : Engine) : Call → Option (Name × SchemaMetadata)
  | .registerSchema schemaName fields totalRowStride =>
      some (schemaName, ⟨totalRowStride, fields⟩)
  | _ => none

/-- The logic a call installs. -/
def installs (e : Engine) : Call → Option (Name × Logic)
  | .registerSchema _ _ _ => none
  | .setLogic schemaName fieldName threshold =>
      (e.registry.getField schemaName fieldName).map fun field =>
        (schemaName, .threshold ⟨field, Jit.compileComparison threshold⟩)
  | .setExpression schemaName heap g exprRoot mode st =>
      exprRoot.bind fun root =>
        let compiled := Jit.compile mode heap g exprRoot st
        compiled.1.map fun kernel =>
          (schemaName, .expression
            ⟨kernel, slotsOf schemaName e.registry g compiled.2.metas root, mode⟩)

/-- The expression a call installs. -/
def installsExpression (e : Engine) (c : Call) : Option (Name × ExprCompiledLogic) :=
  (e.installs c).bind fun p => p.2.asExpression.map fun logic => (p.1, logic)

/-- The threshold a call installs. -/
def installsThreshold (e : Engine) (c : Call) : Option (Name × CompiledLogic) :=
  (e.installs c).bind fun p => p.2.asThreshold.map fun logic => (p.1, logic)

/-! ## One call -/

section Step

variable (e : Engine) (c : Call)

/-- **What a call of `set_expression` does**: it installs its logic, or nothing. -/
theorem setExpression_eq (schemaName : Name) (heap : ℕ → Word) (g : Graph)
    (exprRoot : Option NodeRef) (mode : ExecutionMode) (st : CompileState) :
    (e.setExpression schemaName heap g exprRoot mode st).1 =
      { e with
        exprLogic := Runs.assignAll e.exprLogic
          (e.installsExpression (.setExpression schemaName heap g exprRoot mode st)).toList } := by
  cases exprRoot with
  | none => cases mode <;> rfl
  | some root =>
    cases hcompile : Jit.compile mode heap g (some root) st with
    | mk code st' =>
      cases code with
      | none =>
        rw [setExpression_none e schemaName hcompile]
        simp only [installsExpression, installs, Option.bind_some, hcompile]
        rfl
      | some code =>
        rw [setExpression_some e schemaName hcompile]
        simp only [installsExpression, installs, Option.bind_some, hcompile]
        rfl

/-- A call assigns to the expressions what it installs. -/
theorem exprLogic_step :
    (e.step c).exprLogic = Runs.assignAll e.exprLogic (e.installsExpression c).toList := by
  cases c with
  | registerSchema => rfl
  | setLogic s f T =>
    simp only [step, setLogic, installsExpression, installs]
    cases e.registry.getField s f <;> rfl
  | setExpression => rw [step, setExpression_eq]

theorem compiledLogic_step :
    (e.step c).compiledLogic = Runs.assignAll e.compiledLogic (e.installsThreshold c).toList := by
  cases c with
  | registerSchema => rfl
  | setLogic s f T =>
    simp only [step, setLogic, installsThreshold, installs]
    cases e.registry.getField s f <;> rfl
  | setExpression s heap g exprRoot mode st =>
    rw [step, setExpression_eq]
    simp only [installsThreshold, installs]
    cases exprRoot with
    | none => rfl
    | some root => cases (Jit.compile mode heap g (some root) st).1 <;> rfl

theorem schemaMetadata_step :
    (e.step c).schemaMetadata = Runs.assignAll e.schemaMetadata (e.registers c).toList := by
  cases c with
  | registerSchema => rfl
  | setLogic s f T =>
    simp only [step, setLogic]
    cases e.registry.getField s f <;> rfl
  | setExpression => rw [step, setExpression_eq]; rfl

/-- Only a registration changes the registry. -/
theorem registry_step : (e.step c).registry =
    match c with
    | .registerSchema s fields _ => e.registry.registerSchema s fields
    | _ => e.registry := by
  cases c with
  | registerSchema => rfl
  | setLogic s f T =>
    simp only [step, setLogic]
    cases e.registry.getField s f <;> rfl
  | setExpression => rw [step, setExpression_eq]

end Step

/-! ## A history of calls -/

section Run

variable (e : Engine) (calls : List Call)

/-- The engine after a history of calls. -/
def run : Engine := Runs.run step e calls

/-- The logics a history installs, in the order of the calls. -/
def installed : List (Name × Logic) := Runs.emitted step installs e calls

/-- The schemas a history registers. -/
def registered : List (Name × SchemaMetadata) := Runs.emitted step registers e calls

/-- The expressions a history installs. -/
def expressions : List (Name × ExprCompiledLogic) :=
  (e.installed calls).filterMap fun p => p.2.asExpression.map fun logic => (p.1, logic)

/-- The thresholds a history installs. -/
def thresholds : List (Name × CompiledLogic) :=
  (e.installed calls).filterMap fun p => p.2.asThreshold.map fun logic => (p.1, logic)

/-- **The expressions of an engine** are those its history has installed. -/
theorem exprLogic_run :
    (e.run calls).exprLogic = Runs.assignAll e.exprLogic (e.expressions calls) := by
  rw [expressions, installed, ← Runs.emitted_filterMap]
  exact Runs.run_assigns exprLogic_step e calls

theorem compiledLogic_run :
    (e.run calls).compiledLogic = Runs.assignAll e.compiledLogic (e.thresholds calls) := by
  rw [thresholds, installed, ← Runs.emitted_filterMap]
  exact Runs.run_assigns compiledLogic_step e calls

theorem schemaMetadata_run :
    (e.run calls).schemaMetadata = Runs.assignAll e.schemaMetadata (e.registered calls) :=
  Runs.run_assigns schemaMetadata_step e calls

/-- The metadata of a schema is that of its last registration. -/
theorem schemaMetadata_of_history (slicer : Compute.BitSlicer)
    (buffers : ℕ → Compute.ColumnBuffer) (s : Name) :
    ((Engine.new slicer buffers).run calls).schemaMetadata.lookup s =
      Runs.lastFor ((Engine.new slicer buffers).registered calls) s := by
  rw [schemaMetadata_run, Runs.lookup_assignAll]
  exact Option.or_none

end Run

end Engine
end Api
end ApexEngine
