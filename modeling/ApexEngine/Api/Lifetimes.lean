import ApexEngine.Api.History
import ApexEngine.Core.Ownership

/-!
# Constant planes and the threads that own them

The planes of a constant are an array in the `g_const_pool` of the thread that compiled
the constant first, and the code of a bit-sliced kernel contains the address.  The pool is
`thread_local`: when the thread exits, `~ConstPool` deletes the arrays.  The kernel is
installed in an engine, which other threads may execute and which lives as long as
somebody keeps it.

`Process` is what of this matters: the arrays in memory, the pools of the threads that are
running, and the engines, each with what its installed kernels reference.  Threads take
turns in compiling, installing, executing and leaving (`Process.step`).  A run is one
that can be (`Process.Possible`) when only running threads and living engines take part
and `operator new` returns addresses that are not in use.

References are good as long as the thread that owns the array runs.  The planes of every
installed kernel are where it expects them throughout a run exactly when no thread of the
run exits while an installed kernel references an array of its pool
(`constPlanes_outlive_iff`).  Nothing in the source makes threads wait.
-/

namespace ApexEngine
namespace Api

open A64 (Word Item)
open Core (Name StringMap FieldDescriptor)
open Compute (BitSlicer ColumnBuffer Data)
open Jit (ExecutionMode Caller Graph NodeRef NodeMetas CompileState ConstPool)
open Ownership (store free addresses leave Ledger)

/-! ## Compilations and what they reference -/

abbrev ThreadId := ℕ

abbrev EngineId := ℕ

/-- An entry of a pool as an object: the planes `get_or_create` fills, at their address. -/
def planesAt (e : Word × Word) : Word × (ℕ → Word) := (e.2, Jit.constPlanes e.1)

/-- What a thread compiles: the expression with what other compilations left in its nodes,
the mode, and the addresses `operator new` returns. -/
structure Compilation where
  heap : ℕ → Word
  graph : Graph
  exprRoot : Option NodeRef
  mode : ExecutionMode
  metas : NodeMetas

namespace Compilation

variable (c : Compilation) (pool : ConstPool)

/-- The compilation, by a thread with a given pool. -/
def compile : Option (List Item) × CompileState :=
  Jit.compile c.mode c.heap c.graph c.exprRoot ⟨c.metas, pool⟩

/-- The constant pool after the compilation. -/
def poolAfter : ConstPool := (c.compile pool).2.pool

/-- The entries that the compilation adds to the pool. -/
def added : ConstPool := (c.poolAfter pool).drop pool.length

/-- What a kernel of it references: the constants of the CONST nodes with the addresses
`get_bit` embeds.  A scalar kernel has its constants in its code. -/
def references : List (Word × Word) :=
  match c.mode, c.exprRoot with
  | .bitSliced, some root => (c.graph.constNodes root).map fun n =>
      ((c.graph.node n).constValue, c.graph.constBitPlanes root c.heap pool n)
  | _, _ => []

/-- A compilation adds to the end of the pool. -/
theorem poolAfter_eq : c.poolAfter pool = pool ++ c.added pool := by
  have hext : pool <+: c.poolAfter pool := by
    unfold poolAfter compile Jit.compile
    cases c.mode with
    | bitSliced => exact Jit.compileExpression_extends c.heap c.graph ⟨c.metas, pool⟩ c.exprRoot
    | scalar => exact List.prefix_rfl
  obtain ⟨t, ht⟩ := hext
  rw [added, ← ht, List.drop_left]

variable {c pool}

/-- What a kernel is, with what it references. -/
inductive Embeds : List Item → List (Word × Word) → Prop
  | bitSliced (g : Graph) (root : NodeRef) (ms : NodeMetas) (constBitPlanes : NodeRef → Word) :
      Embeds (g.expressionCode root ms constBitPlanes)
        ((g.constNodes root).map fun n => ((g.node n).constValue, constBitPlanes n))
  | scalar (g : Graph) (root : NodeRef) (ms : NodeMetas) : Embeds (g.scalarCode root ms) []

/-- **The addresses in the code are those of `references`**, and they are in the pool. -/
theorem embeds_of_compile {code : List Item} {st : CompileState}
    (h : c.compile pool = (some code, st)) :
    Embeds code (c.references pool) ∧ c.references pool ⊆ c.poolAfter pool := by
  obtain ⟨heap, g, exprRoot, mode, metas⟩ := c
  obtain ⟨root, rfl⟩ := Jit.root_of_compile h
  cases mode with
  | bitSliced =>
    obtain ⟨hfields, harith⟩ := Jit.limits_of_compileExpression heap g root ⟨metas, pool⟩ h
    have heq := Jit.compileExpression_eq heap g root ⟨metas, pool⟩ hfields harith
    have hst : poolAfter ⟨heap, g, some root, .bitSliced, metas⟩ pool = g.constPool root heap pool :=
      congrArg (fun r => r.2.pool) heq
    have hcode := congrArg Prod.fst (h.symm.trans heq)
    refine ⟨?_, fun e he => ?_⟩
    · rw [Option.some.inj hcode]
      exact .bitSliced g root _ _
    · obtain ⟨n, hn, rfl⟩ := List.mem_map.mp he
      rw [hst]
      exact g.mem_constPool heap root pool hn
  | scalar =>
    rw [compile, Jit.compile_scalar] at h
    obtain ⟨hcode, -⟩ := Prod.mk.inj h
    rw [← Option.some.inj hcode]
    exact ⟨.scalar g root _, List.nil_subset _⟩

end Compilation

/-! ## The process -/

/-- An engine, and by schema what its installed expression references. -/
structure Host where
  engine : Engine
  references : StringMap (List (Word × Word))

/-- The arrays of planes in memory, the pools of the running threads, and the engines. -/
structure Process where
  arrays : Word → Option (ℕ → Word)
  pools : ThreadId → Option ConstPool
  hosts : EngineId → Option Host

/-- What a thread of the process does. -/
inductive Action where
  | start (t : ThreadId)
  | exit (t : ThreadId)
  | construct (t : ThreadId) (E : EngineId) (slicer : BitSlicer) (fieldBuffers : ℕ → ColumnBuffer)
  | destroy (t : ThreadId) (E : EngineId)
  | registerSchema (t : ThreadId) (E : EngineId) (schemaName : Name)
      (fields : List FieldDescriptor) (totalRowStride : ℕ)
  | setLogic (t : ThreadId) (E : EngineId) (schemaName fieldName : Name) (threshold : Word)
  | compile (t : ThreadId) (c : Compilation)
  | setExpression (t : ThreadId) (E : EngineId) (schemaName : Name) (c : Compilation)
  | execute (t : ThreadId) (E : EngineId) (callers : ℕ → Caller) (data : Data)
      (order : IterationOrder) (rowCount : ℕ)
  | executeParallel (t : ThreadId) (E : EngineId) (callers : ℕ → Caller) (data : Data)
      (workerCallers : ℕ → ℕ → Caller) (slicer : BitSlicer) (fieldBuffers : ℕ → ℕ → ColumnBuffer)
      (order : IterationOrder) (rowCount : ℕ) (numThreads : ℤ) (workers : List ThreadId)

/-- `set_expression`, by a thread with a given pool. -/
def Host.setExpression (host : Host) (schemaName : Name) (c : Compilation) (pool : ConstPool) :
    Host where
  engine := (host.engine.setExpression schemaName c.heap c.graph c.exprRoot c.mode
    ⟨c.metas, pool⟩).1
  references :=
    if (c.compile pool).1.isSome then host.references.insert schemaName (c.references pool)
    else host.references

/-- A call on the engine.  One that faults is the end of the process, and the engine is left
as it was. -/
def Host.run (host : Host) (call : Engine → Option (Engine × ℕ)) : Host :=
  { host with engine := ((call host.engine).map Prod.fst).getD host.engine }

namespace Process

def initial : Process := ⟨fun _ => none, fun _ => none, fun _ => none⟩

variable (s : Process)

/-- The arrays a thread owns: those of its pool. -/
def owned (t : ThreadId) : List (Word × (ℕ → Word)) := ((s.pools t).getD []).map planesAt

/-- Threads start, with empty pools. -/
def start (ts : List ThreadId) : Process :=
  { s with pools := fun t => if t ∈ ts then some [] else s.pools t }

/-- Threads exit: `~ConstPool` deletes the arrays of each. -/
def exit (ts : List ThreadId) : Process :=
  { s with
    arrays := free s.arrays (addresses s.owned ts)
    pools := fun t => if t ∈ ts then none else s.pools t }

/-- A thread compiles: the arrays of the constants that are new to it are filled. -/
def compile (t : ThreadId) (c : Compilation) : Process :=
  match s.pools t with
  | none => s
  | some pool =>
      { s with
        arrays := store s.arrays ((c.added pool).map planesAt)
        pools := Function.update s.pools t (some (c.poolAfter pool)) }

/-- Something is done with an engine. -/
def onEngine (E : EngineId) (f : Host → Host) : Process :=
  { s with hosts := Function.update s.hosts E ((s.hosts E).map f) }

/-- What an action does to a process. -/
def step (s : Process) : Action → Process
  | .start t => s.start [t]
  | .exit t => s.exit [t]
  | .construct _ E slicer fieldBuffers =>
      { s with hosts := Function.update s.hosts E (some ⟨.new slicer fieldBuffers, ∅⟩) }
  | .destroy _ E => { s with hosts := Function.update s.hosts E none }
  | .registerSchema _ E schemaName fields totalRowStride =>
      s.onEngine E fun host =>
        { host with engine := host.engine.registerSchema schemaName fields totalRowStride }
  | .setLogic _ E schemaName fieldName threshold =>
      s.onEngine E fun host =>
        { host with engine := host.engine.setLogic schemaName fieldName threshold }
  | .compile t c => s.compile t c
  | .setExpression t E schemaName c =>
      (s.compile t c).onEngine E fun host =>
        host.setExpression schemaName c ((s.pools t).getD [])
  | .execute _ E callers data order rowCount =>
      s.onEngine E fun host => host.run fun e => e.execute callers data order rowCount
  | .executeParallel _ E callers data workerCallers slicer fieldBuffers order rowCount numThreads
      workers =>
      -- the workers are joined before the call returns
      ((s.start workers).onEngine E fun host => host.run fun e =>
        e.executeParallel callers data workerCallers slicer fieldBuffers order rowCount
          numThreads).exit workers

/-! ## Runs that can be -/

/-- A thread runs. -/
def Running (t : ThreadId) : Prop := (s.pools t).isSome

/-- An engine lives. -/
def Lives (E : EngineId) : Prop := (s.hosts E).isSome

/-- `operator new` returns addresses that are not in use, and different ones. -/
def Allocates (t : ThreadId) (c : Compilation) : Prop :=
  ∀ pool, s.pools t = some pool →
    ((c.added pool).map Prod.snd).Nodup ∧ ∀ e ∈ c.added pool, s.arrays e.2 = none

/-- What an action takes for granted: that its thread runs and its engine lives, that a
thread which starts is not there yet, and what `operator new` promises. -/
def Possible (s : Process) : Action → Prop
  | .start t => ¬ s.Running t
  | .exit t => s.Running t
  | .construct t E _ _ => s.Running t ∧ ¬ s.Lives E
  | .destroy t E | .registerSchema t E _ _ _ | .setLogic t E _ _ _ | .execute t E _ _ _ _ =>
      s.Running t ∧ s.Lives E
  | .compile t c => s.Running t ∧ s.Allocates t c
  | .setExpression t E _ c => s.Running t ∧ s.Lives E ∧ s.Allocates t c
  | .executeParallel t E _ _ _ _ _ _ _ _ workers =>
      s.Running t ∧ s.Lives E ∧ ∀ w ∈ workers, ¬ s.Running w

/-- An installed kernel references a constant at an address. -/
def References (e : Word × Word) : Prop :=
  ∃ E host schemaName refs, s.hosts E = some host ∧
    host.references.lookup schemaName = some refs ∧ e ∈ refs

/-- **Every array that an installed kernel references is present and holds the bit-planes of
its constant.** -/
def Intact : Prop :=
  ∀ e, s.References e → ∃ planes, s.arrays e.2 = some planes ∧
    ∀ b < 64, planes b = BitPlane.broadcast e.1 b

/-- A thread that exits leaves nothing behind that is referenced. -/
def Guarded (s : Process) : Action → Prop
  | .exit t => ∀ e, s.References e → e.2 ∉ addresses s.owned [t]
  | _ => True

/-! ## What is kept -/

section Kept

variable {s} {ts : List ThreadId} {t : ThreadId} {E : EngineId} {e : Word × Word}

/-- Threads that are not running own nothing. -/
theorem owned_of_not_running (ht : ¬ s.Running t) : s.owned t = [] := by
  rw [owned, Option.not_isSome_iff_eq_none.mp ht]
  rfl

/-- Starting is owning nothing, as before. -/
theorem owned_start (hts : ∀ t ∈ ts, ¬ s.Running t) : (s.start ts).owned = s.owned := by
  funext t
  by_cases ht : t ∈ ts
  · rw [owned_of_not_running (hts t ht)]
    simp [owned, start, ht]
  · simp [owned, start, ht]

theorem owned_exit (s : Process) (ts : List ThreadId) : (s.exit ts).owned = leave s.owned ts := by
  funext t
  by_cases ht : t ∈ ts
  · simp [owned, exit, leave, ht]
  · simp [owned, exit, leave, ht]

/-- A thread owns what it compiles. -/
theorem owned_compile {pool : ConstPool} (ht : s.pools t = some pool) (c : Compilation) :
    (s.compile t c).owned =
      Function.update s.owned t (s.owned t ++ (c.added pool).map planesAt) := by
  funext t'
  by_cases heq : t' = t
  · subst heq
    simp only [owned, compile, ht, Function.update_self, Option.getD_some]
    rw [c.poolAfter_eq, List.map_append]
  · simp only [owned, compile, ht, Function.update_of_ne heq]

theorem hosts_compile (s : Process) (t : ThreadId) (c : Compilation) :
    (s.compile t c).hosts = s.hosts := by
  unfold Process.compile
  split <;> rfl

/-- What is referenced after something was done with an engine: what was referenced before,
or what was brought in. -/
theorem references_onEngine {f : Host → Host} {N : List (Word × Word) → Prop}
    (hf : ∀ host schemaName refs, (f host).references.lookup schemaName = some refs →
      host.references.lookup schemaName = some refs ∨ N refs)
    (h : (s.onEngine E f).References e) : s.References e ∨ ∃ refs, N refs ∧ e ∈ refs := by
  obtain ⟨E', host, schemaName, refs, hhost, hlookup, he⟩ := h
  by_cases hE : E' = E
  · subst hE
    simp only [onEngine, Function.update_self] at hhost
    obtain ⟨host', hhost', rfl⟩ := Option.map_eq_some_iff.mp hhost
    rcases hf host' schemaName refs hlookup with hlookup | hnew
    · exact Or.inl ⟨E', host', schemaName, refs, hhost', hlookup, he⟩
    · exact Or.inr ⟨refs, hnew, he⟩
  · simp only [onEngine, Function.update_of_ne hE] at hhost
    exact Or.inl ⟨E', host, schemaName, refs, hhost, hlookup, he⟩

/-- A step that brings no logic in leaves the references as they are. -/
theorem references_of_onEngine {f : Host → Host}
    (hf : ∀ host, (f host).references = host.references) (h : (s.onEngine E f).References e) :
    s.References e := by
  rcases references_onEngine (N := fun _ => False)
    (fun host _ _ hlookup => Or.inl (hf host ▸ hlookup)) h with h | ⟨_, hnew, _⟩
  · exact h
  · exact hnew.elim

/-- `set_expression` brings in the references of its compilation. -/
theorem references_setExpression {schemaName : Name} {c : Compilation} {pool : ConstPool}
    (host : Host) (name : Name) (refs : List (Word × Word))
    (hlookup : (host.setExpression schemaName c pool).references.lookup name = some refs) :
    host.references.lookup name = some refs ∨
      (c.compile pool).1.isSome ∧ refs = c.references pool := by
  simp only [Host.setExpression] at hlookup
  by_cases hkernel : (c.compile pool).1.isSome
  · rw [if_pos hkernel] at hlookup
    by_cases hname : name = schemaName
    · subst hname
      rw [AList.lookup_insert] at hlookup
      exact Or.inr ⟨hkernel, (Option.some.inj hlookup).symm⟩
    · rw [AList.lookup_insert_ne hname] at hlookup
      exact Or.inl hlookup
  · rw [if_neg hkernel] at hlookup
    exact Or.inl hlookup

/-- **The invariant**: the arrays of the running threads are in memory, each owned by one of
them, and what is referenced is owned. -/
structure Sound (s : Process) : Prop where
  ledger : Ledger s.arrays s.owned
  covered : ∀ e, s.References e → ∃ t, planesAt e ∈ s.owned t

theorem Sound.initial : initial.Sound where
  ledger := .empty fun _ => rfl
  covered := by
    rintro e ⟨E, host, schemaName, refs, hhost, -, -⟩
    exact absurd hhost (by simp [Process.initial])

/-- What is owned has the planes of its constant. -/
theorem Sound.intact (h : s.Sound) : s.Intact := by
  intro e he
  obtain ⟨t, ht⟩ := h.covered e he
  exact ⟨Jit.constPlanes e.1, h.ledger.holds ht, fun b hb => Jit.constPlanes_eq e.1 hb⟩

/-- Engines come, change and go; the arrays stay. -/
theorem Sound.of_hosts (h : s.Sound) {hosts : EngineId → Option Host}
    (hcovered : ∀ e, References { s with hosts := hosts } e → ∃ t, planesAt e ∈ s.owned t) :
    Sound { s with hosts := hosts } :=
  ⟨h.ledger, hcovered⟩

theorem Sound.start (h : s.Sound) (hts : ∀ t ∈ ts, ¬ s.Running t) : (s.start ts).Sound := by
  have howned := owned_start hts
  refine ⟨?_, fun e he => ?_⟩
  · rw [howned]
    exact h.ledger
  · rw [howned]
    exact h.covered e he

/-- **Exits** of threads whose arrays are not referenced. -/
theorem Sound.exit (h : s.Sound) (hts : ∀ e, s.References e → e.2 ∉ addresses s.owned ts) :
    (s.exit ts).Sound := by
  have howned := owned_exit s ts
  refine ⟨?_, fun e he => ?_⟩
  · rw [howned]
    exact h.ledger.leave ts
  · rw [howned]
    exact Ownership.exists_owner_leave (h.covered e he) (hts e he)

/-- **A compilation** fills arrays where none were. -/
theorem Sound.compile (h : s.Sound) {c : Compilation} (halloc : s.Allocates t c) :
    (s.compile t c).Sound := by
  cases hpool : s.pools t with
  | none =>
    have hsame : s.compile t c = s := by rw [Process.compile, hpool]
    rw [hsame]
    exact h
  | some pool =>
    obtain ⟨hnodup, hfree⟩ := halloc pool hpool
    have howned := owned_compile hpool c
    have harrays : (s.compile t c).arrays = store s.arrays ((c.added pool).map planesAt) := by
      rw [Process.compile, hpool]
    have hhosts := hosts_compile s t c
    refine ⟨?_, fun e he => ?_⟩
    · rw [howned, harrays]
      refine h.ledger.allocate t ?_ fun e he => ?_
      · rw [List.map_map]
        exact hnodup
      · obtain ⟨e', he', rfl⟩ := List.mem_map.mp he
        exact hfree e' he'
    · rw [References, hhosts] at he
      obtain ⟨t', ht'⟩ := h.covered e he
      rw [howned]
      exact ⟨t', Ownership.mem_allocate.mpr (Or.inl ht')⟩

/-- After a thread has compiled it owns the references of the kernel. -/
theorem owned_references {pool : ConstPool} (ht : s.pools t = some pool) {c : Compilation}
    (hkernel : (c.compile pool).1.isSome) (he : e ∈ c.references pool) :
    planesAt e ∈ (s.compile t c).owned t := by
  obtain ⟨code, hcode⟩ := Option.isSome_iff_exists.mp hkernel
  have hmem := (Compilation.embeds_of_compile
    (Prod.ext hcode rfl : c.compile pool = (some code, (c.compile pool).2))).2 he
  rw [owned, Process.compile, ht]
  simp only [Function.update_self, Option.getD_some]
  exact List.mem_map_of_mem hmem

/-- **`set_expression`** installs references to what its thread owns. -/
theorem Sound.setExpression (h : s.Sound) (ht : s.Running t) {c : Compilation}
    (halloc : s.Allocates t c) (schemaName : Name) :
    (s.step (.setExpression t E schemaName c)).Sound := by
  obtain ⟨pool, hpool⟩ := Option.isSome_iff_exists.mp ht
  have hcompiled := h.compile halloc
  refine hcompiled.of_hosts fun e he => ?_
  rw [hpool, Option.getD_some] at he
  rcases references_onEngine references_setExpression he with he | ⟨_, ⟨hkernel, rfl⟩, he⟩
  · exact hcompiled.covered e he
  · exact ⟨t, owned_references hpool hkernel he⟩

theorem Sound.onEngine (h : s.Sound) {f : Host → Host}
    (hf : ∀ host, (f host).references = host.references) : (s.onEngine E f).Sound :=
  h.of_hosts fun e he => h.covered e (references_of_onEngine hf he)

/-- An engine is taken into or out of the process: one without references. -/
theorem Sound.update (h : s.Sound) {host : Option Host}
    (hhost : ∀ x, host = some x → x.references = ∅) :
    Sound { s with hosts := Function.update s.hosts E host } := by
  refine h.of_hosts fun e he => h.covered e ?_
  obtain ⟨E', x, schemaName, refs, hx, hlookup, he⟩ := he
  by_cases hE : E' = E
  · subst hE
    simp only [Function.update_self] at hx
    rw [hhost x hx, AList.lookup_empty] at hlookup
    exact absurd hlookup (by simp)
  · simp only [Function.update_of_ne hE] at hx
    exact ⟨E', x, schemaName, refs, hx, hlookup, he⟩

/-- **The call of workers**: they exit with the empty pools they started with. -/
theorem Sound.workers (h : s.Sound) (hts : ∀ t ∈ ts, ¬ s.Running t) {f : Host → Host}
    (hf : ∀ host, (f host).references = host.references) :
    (((s.start ts).onEngine E f).exit ts).Sound := by
  refine ((h.start hts).onEngine hf).exit fun e _ => ?_
  have hnothing : addresses ((s.start ts).onEngine E f).owned ts = [] := by
    refine Ownership.addresses_eq_nil fun t ht => ?_
    show (s.start ts).owned t = []
    rw [owned_start hts, owned_of_not_running (hts t ht)]
  rw [hnothing]
  exact List.not_mem_nil

/-- **One action** keeps the invariant when nothing is left behind. -/
theorem Sound.step (h : s.Sound) {a : Action} (hpossible : s.Possible a) (hguarded : s.Guarded a) :
    (s.step a).Sound := by
  cases a with
  | start t => exact h.start fun t' ht' => List.mem_singleton.mp ht' ▸ hpossible
  | exit t => exact h.exit hguarded
  | construct => exact h.update fun x hx => by obtain rfl := Option.some.inj hx; rfl
  | destroy => exact h.update fun x hx => absurd hx (by simp)
  | registerSchema => exact h.onEngine fun _ => rfl
  | setLogic => exact h.onEngine fun _ => rfl
  | compile => exact h.compile hpossible.2
  | setExpression t E schemaName => exact h.setExpression hpossible.1 hpossible.2.2 schemaName
  | execute => exact h.onEngine fun _ => rfl
  | executeParallel => exact h.workers hpossible.2.2 fun _ => rfl

/-- What is referenced when a thread has left its array is not there. -/
theorem not_intact_exit (he : s.References e) (ha : e.2 ∈ addresses s.owned [t]) :
    ¬ (s.step (.exit t)).Intact := by
  intro h
  obtain ⟨planes, hplanes, -⟩ := h e he
  have hgone : (s.step (.exit t)).arrays e.2 = none := Ownership.free_of_mem ha
  rw [hgone] at hplanes
  exact absurd hplanes (by simp)

end Kept

end Process

/-! ## The references are those of the code -/

/-- What is kept beside an engine is what the code installed in it references. -/
def Host.Tracks (host : Host) : Prop :=
  ∀ schemaName, Option.Rel (fun logic refs => Compilation.Embeds logic.kernel refs)
    (host.engine.exprLogic.lookup schemaName) (host.references.lookup schemaName)

section Tracks

variable {host : Host}

theorem Host.Tracks.new (slicer : BitSlicer) (fieldBuffers : ℕ → ColumnBuffer) :
    Host.Tracks ⟨.new slicer fieldBuffers, ∅⟩ := by
  intro schemaName
  rw [Engine.new, AList.lookup_empty, AList.lookup_empty]
  exact .none

/-- What does not install keeps the references right. -/
theorem Host.Tracks.of_exprLogic (h : host.Tracks) {e : Engine}
    (he : e.exprLogic = host.engine.exprLogic) : Host.Tracks { host with engine := e } := by
  intro schemaName
  rw [he]
  exact h schemaName

theorem Host.Tracks.run (h : host.Tracks) {call : Engine → Option (Engine × ℕ)}
    (hcall : ∀ r, call host.engine = some r → r.1.exprLogic = host.engine.exprLogic) :
    (host.run call).Tracks := by
  refine h.of_exprLogic ?_
  cases hr : call host.engine with
  | none => rfl
  | some r => exact hcall r hr

/-- **`set_expression` installs the code and its references together.** -/
theorem Host.Tracks.setExpression (h : host.Tracks) (schemaName : Name) (c : Compilation)
    (pool : ConstPool) : (host.setExpression schemaName c pool).Tracks := by
  cases hcompile : c.compile pool with
  | mk code st =>
    cases code with
    | none =>
      have hengine := setExpression_none host.engine schemaName hcompile
      rw [Host.setExpression, hengine, hcompile]
      exact h
    | some code =>
      obtain ⟨root, hroot⟩ := Jit.root_of_compile hcompile
      have hembeds := (Compilation.embeds_of_compile hcompile).1
      have hinstall : (host.setExpression schemaName c pool).engine.exprLogic =
          host.engine.exprLogic.insert schemaName ⟨code,
            slotsOf schemaName host.engine.registry c.graph st.metas root, c.mode⟩ := by
        have hcompile' := hcompile
        rw [Compilation.compile, hroot] at hcompile'
        rw [Host.setExpression, hroot, setExpression_some host.engine schemaName hcompile']
      have hrefs : (host.setExpression schemaName c pool).references =
          host.references.insert schemaName (c.references pool) := by
        rw [Host.setExpression, hcompile]
        rfl
      intro name
      rw [hinstall, hrefs]
      by_cases hname : name = schemaName
      · subst hname
        rw [AList.lookup_insert, AList.lookup_insert]
        exact .some hembeds
      · rw [AList.lookup_insert_ne hname, AList.lookup_insert_ne hname]
        exact h name

end Tracks

namespace Process

/-- The engines of a process have the references of their code. -/
def Tracked (s : Process) : Prop := ∀ E host, s.hosts E = some host → host.Tracks

section Tracked

variable {s : Process} {E : EngineId}

theorem Tracked.onEngine (h : s.Tracked) {f : Host → Host}
    (hf : ∀ host : Host, host.Tracks → (f host).Tracks) : (s.onEngine E f).Tracked := by
  intro E' host hhost
  by_cases hE : E' = E
  · subst hE
    simp only [Process.onEngine, Function.update_self] at hhost
    obtain ⟨host', hhost', rfl⟩ := Option.map_eq_some_iff.mp hhost
    exact hf host' (h E' host' hhost')
  · simp only [Process.onEngine, Function.update_of_ne hE] at hhost
    exact h E' host hhost

theorem Tracked.update (h : s.Tracked) {host : Option Host}
    (hhost : ∀ x, host = some x → x.Tracks) :
    Tracked { s with hosts := Function.update s.hosts E host } := by
  intro E' x hx
  by_cases hE : E' = E
  · subst hE
    simp only [Function.update_self] at hx
    exact hhost x hx
  · simp only [Function.update_of_ne hE] at hx
    exact h E' x hx

/-- No action takes the references of an engine away from its code. -/
theorem Tracked.step (h : s.Tracked) (a : Action) : (s.step a).Tracked := by
  cases a with
  | start => exact h
  | exit => exact h
  | construct t E slicer fieldBuffers =>
    exact h.update fun x hx => Option.some.inj hx ▸ Host.Tracks.new slicer fieldBuffers
  | destroy => exact h.update fun x hx => absurd hx (by simp)
  | registerSchema => exact h.onEngine fun _ hhost => hhost.of_exprLogic rfl
  | setLogic t E schemaName fieldName threshold =>
    refine h.onEngine fun host hhost => hhost.of_exprLogic ?_
    unfold Engine.setLogic
    split <;> rfl
  | compile t c =>
    intro E host hhost
    rw [Process.step, hosts_compile] at hhost
    exact h E host hhost
  | setExpression t E schemaName c =>
    refine Tracked.onEngine (fun E' host hhost => ?_) fun host hhost => hhost.setExpression _ _ _
    rw [hosts_compile] at hhost
    exact h E' host hhost
  | execute =>
    refine h.onEngine fun host hhost => hhost.run fun r hr => ?_
    obtain ⟨buffers, hr⟩ := execute_frame hr
    rw [hr]
  | executeParallel =>
    refine Tracked.onEngine (s := s.start _) h fun host hhost => hhost.run fun r hr => ?_
    obtain ⟨buffers, hr⟩ := executeParallel_frame hr
    rw [hr]

/-- **In every state of every run** the engines have the references of their code. -/
theorem tracked_run (as : List Action) : (Runs.run Process.step initial as).Tracked :=
  Runs.run_inv_of_forall (fun _ a h => h.step a)
    (fun _ _ h => absurd h (by simp [initial])) as

end Tracked
end Process

/-! ## A thread that installs and exits -/

section Sample

open Process

/-- `GT(Load("a"), Const(5))`, compiled for bit-sliced execution. -/
def sampleCompilation : Compilation :=
  ⟨Jit.standardHeap, Jit.thresholdGraph (.ofString [97]) 5, some 2, .bitSliced, fun _ => {}⟩

theorem added_sample : sampleCompilation.added [] = [(5, Jit.standardHeap 0)] := rfl

/-- Thread 0 constructs an engine with a schema and thread 1 installs an expression in it. -/
def setUp : List Action :=
  [.start 0, .construct 0 0 .portable fun _ _ => 0, .registerSchema 0 0 [115] [sampleField] 8,
    .start 1, .setExpression 1 0 [115] sampleCompilation]

/-- The pool of thread 1 when it is to install the expression. -/
theorem pools_setUp : (Runs.run step initial (setUp.take 4)).pools 1 = some [] := rfl

theorem possible_setUp : Runs.Along step Possible initial setUp := by
  refine ⟨?_, ⟨?_, ?_⟩, ⟨?_, ?_⟩, ?_, ⟨?_, ?_, fun pool hpool => ?_⟩, trivial⟩
  · simp [Possible, Running, initial]
  · rfl
  · simp [Lives, step, initial, start]
  · rfl
  · rfl
  · simp [Possible, Running, step, initial, start, onEngine]
  · rfl
  · rfl
  · obtain rfl : [] = pool := Option.some.inj (pools_setUp.symm.trans hpool)
    rw [added_sample]
    exact ⟨by simp, fun e _ => rfl⟩

/-- What is installed references the array of thread 1. -/
theorem references_setUp :
    (Runs.run step initial setUp).References (5, Jit.standardHeap 0) := by
  refine ⟨0, _, [115], [(5, Jit.standardHeap 0)], rfl, ?_, by simp⟩
  rfl

theorem addresses_setUp :
    Jit.standardHeap 0 ∈ addresses (Runs.run step initial setUp).owned [1] := by
  rw [Ownership.mem_addresses]
  exact ⟨1, by simp, planesAt (5, Jit.standardHeap 0), List.mem_singleton.mpr rfl, rfl⟩

end Sample

/-! ## Runs -/

open Process in
/-- **Constant planes outlive kernels exactly when no thread leaves references behind**: in a
run of the process every array that an installed kernel references is present, with the
planes of its constant, in every state, if and only if no thread exits while an installed
kernel references an array of its pool. -/
theorem constPlanes_outlive_iff {as : List Action} (h : Runs.Along step Possible initial as) :
    (∀ past, past <+: as → (Runs.run step initial past).Intact) ↔
      Runs.Along step Guarded initial as := by
  constructor
  · intro hintact
    rw [Runs.along_iff]
    rintro past a rest rfl
    cases a with
    | exit t =>
      intro e he ha
      refine not_intact_exit he ha ?_
      have hafter := hintact (past ++ [.exit t]) ⟨rest, by simp⟩
      rwa [Runs.run_append] at hafter
    | _ => trivial
  · rintro hguarded past ⟨rest, rfl⟩
    have hpossible := (Runs.along_append.mp h).1
    have hpast := (Runs.along_append.mp hguarded).1
    exact (Runs.run_inv (fun s a hs ha => hs.step ha.1 ha.2) Sound.initial
      (hpossible.and hpast)).intact

open Process in
/-- Another thread may execute while the thread that has installed the expression runs, and
that thread may exit when the engine is gone. -/
theorem constPlanes_outlive_iff_destroyed :
    (Runs.run step initial (setUp ++ [.execute 0 0 (fun _ => Caller.standard [5] (by decide))
      (fun _ => 7) .latest 64])).Intact ∧
    (Runs.run step initial (setUp ++ [.execute 0 0 (fun _ => Caller.standard [5] (by decide))
      (fun _ => 7) .latest 64, .destroy 0 0, .exit 1])).Intact := by
  have hintact := (@constPlanes_outlive_iff (setUp ++
    [.execute 0 0 (fun _ => Caller.standard [5] (by decide)) (fun _ => 7) .latest 64,
      .destroy 0 0, .exit 1]) (Runs.along_append.mpr ⟨possible_setUp, ?_⟩)).mpr
    (Runs.along_append.mpr ⟨?_, ?_⟩)
  · exact ⟨hintact _ ⟨[.destroy 0 0, .exit 1], by simp⟩, hintact _ List.prefix_rfl⟩
  · exact ⟨⟨rfl, rfl⟩, ⟨rfl, rfl⟩, rfl, trivial⟩
  · exact ⟨trivial, trivial, trivial, trivial, trivial, trivial⟩
  · refine ⟨trivial, trivial, ?_, trivial⟩
    rintro e ⟨E, host, schemaName, refs, hhost, -, -⟩ -
    by_cases hE : E = 0
    · subst hE
      exact absurd hhost (by simp [step])
    · simp only [step, Function.update_of_ne hE] at hhost
      simp [setUp, Runs.run, step, onEngine, Process.compile, start, initial, hE] at hhost

open Process in
/-- **Thread 1 installs `GT(Load("a"), Const(5))` and exits.**  The kernel is still installed,
and thread 0 may execute it; the planes of the constant are gone. -/
theorem constPlanes_outlive_exit : ¬ ∀ as, Runs.Along step Possible initial as →
    ∀ past, past <+: as → (Runs.run step initial past).Intact := by
  intro h
  have hpossible : Runs.Along step Possible initial (setUp ++ [.exit 1]) :=
    Runs.along_append.mpr ⟨possible_setUp, rfl, trivial⟩
  have hintact := h _ hpossible _ List.prefix_rfl
  rw [Runs.run_append] at hintact
  exact not_intact_exit references_setUp addresses_setUp hintact

end Api
end ApexEngine
