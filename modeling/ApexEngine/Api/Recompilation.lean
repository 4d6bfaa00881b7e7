import ApexEngine.Api.Execution
import ApexEngine.Core.Runs
import ApexEngine.Jit.BuilderRuns
import ApexEngine.Jit.Copies

/-!
# Compiling again

A thread compiles one expression after another, for any engines and schemas and in any mode.
The expressions share nodes, and a compilation writes into them: a node that was compiled
before has an index, a slot, a carry register and a result kind from then, and when the
compiler gave up in the middle it has some of them.  The constant planes are shared as well.

None of this reaches a logic.  What a call of `set_expression` installs is what it would
install for a copy of the expression in nodes nobody has compiled.  And later calls leave it
as it is: they replace it, if they install something for the same schema of the same engine,
or they do not touch it, and its kernel returns the same masks, because the constants its code
refers to stay where they are (`recompilation`).

A request carries the graph that its nodes are part of when it is made, so expressions may be
built between the calls.
-/

namespace ApexEngine

namespace Jit

open A64 (Word)

variable {g g' : Graph} {root : NodeRef} {φ : NodeRef → NodeRef}

/-- The visits of `collect_fields` to a copy. -/
theorem visits_copy (h : Mirrors g g' root φ) : g'.visits (φ root) = (g.visits root).map φ := by
  refine fold_copy h (List.map φ) (fun n hn a b c => ?_) .refl
  rw [getD_map_nil, getD_map_nil, getD_map_nil, h.kind hn]
  split <;> simp

/-! ## Masks of planes -/

/-- The mask of a kernel as a function of the planes and the scratchpad it is called with. -/
def planesMask (mode : ExecutionMode) (g : Graph) (root : NodeRef) (ms : NodeMetas) (planes : Planes)
    (scratch : Scratch) (x2 x3 x5 : Word) : Word :=
  match mode with
  | .bitSliced => Circuit.mask g (inputs g ms planes scratch) root x2 x3
  | .scalar => Scalar.mask g root (scalarLeaf g ms planes) x2 x3 x5

/-- **What a compiled kernel returns** for planes of its fields, whatever they show. -/
theorem callExpr_planesMask {mode : ExecutionMode} {heap : ℕ → Word} {st st' : CompileState}
    {code : List A64.Item} {caller : Caller}
    (hcompile : compile mode heap g (some root) st = (some code, st')) (hfits : Fits g mode root)
    (hpool : st'.pool ⊆ caller.pool) {planes : Planes}
    (hplanes : ∀ i < (g.fieldNames root).length, (planes i).isSome) (scratch : Scratch) :
    ∃ S, caller.callExpr code planes scratch = some (planesMask mode g root st'.metas planes scratch
      (caller.regs .x2) (caller.regs .x3) (caller.regs .x5), S) := by
  have hbound : ∀ n ∈ g.loadNodes root, (planes (st'.metas n).fieldIdx.toNat).isSome := by
    intro n hn
    obtain ⟨hmem, hk⟩ := (g.mem_loadNodes root).mp hn
    rw [fieldIdx_of_compile hcompile hn, Int.toNat_natCast]
    exact hplanes _ (List.idxOf_lt_length_of_mem (g.name_mem_fieldNames hmem hk))
  cases mode with
  | bitSliced =>
    obtain ⟨konst, rfl, hcall⟩ := callable_of_compile hcompile hpool hbound
    obtain ⟨S, hrun, -⟩ := callExpr_expressionCode scratch hcall
    exact ⟨S, hrun⟩
  | scalar =>
    obtain ⟨hfields, hnodes⟩ := hfits rfl
    rw [compile_scalar] at hcompile
    obtain ⟨hcode, rfl⟩ := Prod.mk.inj hcompile
    obtain ⟨-, hcall⟩ := scalarCallable_of_compile (compileScalarExpression_eq g root st.metas)
      hfields hnodes hbound
    rw [← Option.some.inj hcode]
    exact callExpr_scalarCode caller scratch hcall

end Jit

namespace Api

open A64 (Word)
open Core (Name SchemaRegistry FieldDescriptor)
open Jit (ExecutionMode Caller Graph NodeRef NodeMetas CompileState ConstPool Copies Mirrors Fits)

/-! ## Copies and slots -/

section Copies

variable {g g' : Graph} {root : NodeRef} {φ : NodeRef → NodeRef} {mode : ExecutionMode}
  {heap heap' : ℕ → Word} {schemaName : Name}

/-- A copy is given the same slots. -/
theorem slotsOf_copy (h : Mirrors g g' root φ) (registry : SchemaRegistry)
    {st st' c c' : CompileState} {code code' : List A64.Item}
    (hcompile : Jit.compile mode heap g (some root) st = (some code, c))
    (hcompile' : Jit.compile mode heap' g' (some (φ root)) st' = (some code', c')) :
    slotsOf schemaName registry g' c'.metas (φ root) = slotsOf schemaName registry g c.metas root := by
  rw [slotsOf, slotsOf, collectFields_eq, collectFields_eq, Jit.visits_copy h, List.foldl_map]
  refine congrArg trim (List.foldl_ext _ _ _ fun fields m hm => ?_)
  have hreach := g.reach_of_mem_visits hm
  rw [bindNode, bindNode, h.kind hreach]
  by_cases hk : g.kind m = .load
  · have hload := mem_loadNodes_of_visited hm hk
    have hload' : φ m ∈ g'.loadNodes (φ root) :=
      Jit.loadNodes_copy h ▸ List.mem_map_of_mem hload
    have hidx : (c'.metas (φ m)).fieldIdx = (c.metas m).fieldIdx := by
      rw [Jit.fieldIdx_of_compile hcompile hload, Jit.fieldIdx_of_compile hcompile' hload',
        Jit.fieldNames_copy h, h.fieldName hreach hk]
    rw [hidx, h.fieldName hreach hk]
  · rw [if_neg fun hc => hk hc.1, if_neg fun hc => hk hc.1]

/-- **An engine is given the same by a copy**, whatever the nodes contain. -/
theorem setExpression_copy (h : Mirrors g g' root φ) (e : Engine) (metas metas' : NodeMetas)
    (pool : ConstPool) :
    (e.setExpression schemaName heap g' (some (φ root)) mode ⟨metas', pool⟩).1 =
      (e.setExpression schemaName heap g (some root) mode ⟨metas, pool⟩).1 := by
  have hcode := (Jit.compile_copy h mode heap metas metas' pool).1
  cases hcompile : Jit.compile mode heap g (some root) ⟨metas, pool⟩ with
  | mk kernel c =>
    cases hcompile' : Jit.compile mode heap g' (some (φ root)) ⟨metas', pool⟩ with
    | mk kernel' c' =>
      rw [hcompile, hcompile'] at hcode
      obtain rfl : kernel' = kernel := hcode
      cases kernel' with
      | none => rw [setExpression_none e _ hcompile, setExpression_none e _ hcompile']
      | some code =>
        rw [setExpression_some e _ hcompile, setExpression_some e _ hcompile',
          slotsOf_copy h e.registry hcompile hcompile']

end Copies

/-! ## A thread and its engines -/

/-- The engines of a thread, and what its compilations share: the metadata of the nodes and
the constant planes. -/
structure Deployment where
  engines : ℕ → Engine
  compiled : CompileState

/-- A call on one of the engines. -/
inductive Request where
  | registerSchema (E : ℕ) (schemaName : Name) (fields : List FieldDescriptor)
      (totalRowStride : ℕ)
  | setLogic (E : ℕ) (schemaName fieldName : Name) (threshold : Word)
  | setExpression (E : ℕ) (schemaName : Name) (g : Graph) (exprRoot : Option NodeRef)
      (mode : ExecutionMode)

/-- A request that installs an expression for a schema of an engine. -/
def Request.Installs (E : ℕ) (schemaName : Name) : Request → Prop
  | .setExpression E' s g (some root) mode => E' = E ∧ s = schemaName ∧ Jit.Accepts g mode root
  | _ => False

namespace Deployment

/-- What a request does. -/
def step (heap : ℕ → Word) (d : Deployment) : Request → Deployment
  | .registerSchema E s fields stride =>
      { d with engines := Function.update d.engines E ((d.engines E).registerSchema s fields stride) }
  | .setLogic E s f T =>
      { d with engines := Function.update d.engines E ((d.engines E).setLogic s f T) }
  | .setExpression E s g exprRoot mode =>
      let (e, compiled) := (d.engines E).setExpression s heap g exprRoot mode d.compiled
      ⟨Function.update d.engines E e, compiled⟩

/-- The deployment after some requests. -/
def run (heap : ℕ → Word) (d : Deployment) (requests : List Request) : Deployment :=
  Runs.run (step heap) d requests

variable {heap : ℕ → Word} {d : Deployment} {E : ℕ} {s : Name}

/-- The state that `set_expression` leaves to the next compilation is that of its compiler. -/
theorem setExpression_snd (e : Engine) (s : Name) (heap : ℕ → Word) (g : Graph)
    (exprRoot : Option NodeRef) (mode : ExecutionMode) (st : CompileState) :
    (e.setExpression s heap g exprRoot mode st).2 = (Jit.compile mode heap g exprRoot st).2 := by
  cases hcompile : Jit.compile mode heap g exprRoot st with
  | mk kernel st' =>
    rw [Engine.setExpression, hcompile]
    cases kernel <;> rfl

/-- **Constants stay**: a request adds to the pool of constant planes. -/
theorem pool_step (d : Deployment) (r : Request) :
    d.compiled.pool <+: (d.step heap r).compiled.pool := by
  cases r with
  | registerSchema => exact List.prefix_rfl
  | setLogic => exact List.prefix_rfl
  | setExpression E s g exprRoot mode =>
    show _ <+: ((d.engines E).setExpression s heap g exprRoot mode d.compiled).2.pool
    rw [setExpression_snd]
    cases mode with
    | bitSliced => exact Jit.compileExpression_extends heap g d.compiled exprRoot
    | scalar => exact List.prefix_rfl

theorem pool_run (requests : List Request) :
    d.compiled.pool <+: (d.run heap requests).compiled.pool :=
  Runs.run_inv_of_forall (I := fun d' : Deployment => d.compiled.pool <+: d'.compiled.pool)
    (fun d' r h => h.trans (pool_step d' r)) List.prefix_rfl requests

/-- **A logic stays** when a request does not install another one in its place. -/
theorem lookup_step {r : Request} (hr : ¬ r.Installs E s) :
    ((d.step heap r).engines E).exprLogic.lookup s = (d.engines E).exprLogic.lookup s := by
  have hother : ∀ {E' : ℕ} {e : Engine},
      (E' = E → e.exprLogic.lookup s = (d.engines E).exprLogic.lookup s) →
      (Function.update d.engines E' e E).exprLogic.lookup s =
        (d.engines E).exprLogic.lookup s := by
    intro E' e he
    by_cases hE : E' = E
    · subst hE
      rw [Function.update_self]
      exact he rfl
    · rw [Function.update_of_ne (Ne.symm hE)]
  cases r with
  | registerSchema E' s' fields stride =>
    refine hother ?_
    rintro rfl
    rfl
  | setLogic E' s' f T =>
    refine hother ?_
    rintro rfl
    rw [Engine.setLogic]
    split <;> rfl
  | setExpression E' s' g exprRoot mode =>
    refine hother (e := ((d.engines E').setExpression s' heap g exprRoot mode d.compiled).1) ?_
    rintro rfl
    cases hcompile : Jit.compile mode heap g exprRoot d.compiled with
    | mk kernel st' =>
      cases kernel with
      | none => rw [setExpression_none _ _ hcompile]
      | some code =>
        obtain ⟨root, rfl⟩ := Jit.root_of_compile hcompile
        have haccepts : Jit.Accepts g mode root :=
          (Jit.compile_isSome_iff mode heap g root d.compiled).mp (by rw [hcompile]; rfl)
        rw [setExpression_some _ _ hcompile]
        exact AList.lookup_insert_ne fun heq => hr ⟨rfl, heq.symm, haccepts⟩

theorem lookup_run {requests : List Request} (h : ∀ r ∈ requests, ¬ r.Installs E s) :
    ((d.run heap requests).engines E).exprLogic.lookup s = (d.engines E).exprLogic.lookup s := by
  induction requests generalizing d with
  | nil => rfl
  | cons r requests ih =>
    exact (ih fun r' hr' => h r' (List.mem_cons_of_mem r hr')).trans
      (lookup_step (h r List.mem_cons_self))

end Deployment

/-! ## History -/

/-- **Recompilation does not depend on history.**  After any requests, a call of
`set_expression` makes of its engine what it would make of it for a copy of the expression,
whatever that copy's nodes contain.  What it installs stays through any later requests but
those that install for the same schema of the same engine, and its kernel returns the same
masks after them as before. -/
theorem recompilation (heap : ℕ → Word) (start : Deployment) (before after : List Request) (E : ℕ)
    (s : Name) (g : Graph) (root : NodeRef) (mode : ExecutionMode) {now next later : Deployment}
    (hnow : now = start.run heap before)
    (hnext : next = now.step heap (.setExpression E s g (some root) mode))
    (hlater : later = next.run heap after) :
    (∀ g' φ, Copies g g' root φ → ∀ metas', next.engines E =
      ((now.engines E).setExpression s heap g' (some (φ root)) mode
        ⟨metas', now.compiled.pool⟩).1) ∧
    ∀ logic, Jit.Accepts g mode root → (next.engines E).exprLogic.lookup s = some logic →
      ((∀ r ∈ after, ¬ r.Installs E s) →
        (later.engines E).exprLogic.lookup s = some logic) ∧
      ∀ caller caller' : Caller,
        next.compiled.pool ⊆ caller.pool → later.compiled.pool ⊆ caller'.pool →
        caller.regs .x2 = caller'.regs .x2 → caller.regs .x3 = caller'.regs .x3 →
        caller.regs .x5 = caller'.regs .x5 → Fits g mode root →
        ∀ planes scratch, (∀ i < (g.fieldNames root).length, (planes i).isSome) →
          ∃ m S S', caller.callExpr logic.kernel planes scratch = some (m, S) ∧
            caller'.callExpr logic.kernel planes scratch = some (m, S') := by
  have hengine : next.engines E =
      ((now.engines E).setExpression s heap g (some root) mode now.compiled).1 := by
    rw [hnext]
    exact Function.update_self ..
  refine ⟨fun g' φ hcopy metas' => ?_, fun logic haccepts hlogic => ⟨fun hafter => ?_, ?_⟩⟩
  · rw [hengine]
    exact (setExpression_copy hcopy.mirrors _ now.compiled.metas metas' _).symm
  · rw [hlater, Deployment.lookup_run hafter]
    exact hlogic
  · intro caller caller' hpool hpool' h2 h3 h5 hfits planes scratch hplanes
    have hcompiled : next.compiled = (Jit.compile mode heap g (some root) now.compiled).2 := by
      rw [hnext]
      exact Deployment.setExpression_snd ..
    obtain ⟨code, hcode⟩ := Option.isSome_iff_exists.mp
      ((Jit.compile_isSome_iff mode heap g root now.compiled).mpr haccepts)
    have hcompile : Jit.compile mode heap g (some root) now.compiled = (some code, next.compiled) :=
      Prod.ext hcode hcompiled.symm
    rw [hengine, setExpression_some _ _ hcompile, AList.lookup_insert] at hlogic
    obtain rfl := Option.some.inj hlogic
    have hsub : next.compiled.pool ⊆ caller'.pool := fun c hc =>
      hpool' ((hlater ▸ Deployment.pool_run after).subset hc)
    obtain ⟨S, hrun⟩ := Jit.callExpr_planesMask hcompile hfits hpool hplanes scratch
    obtain ⟨S', hrun'⟩ := Jit.callExpr_planesMask hcompile hfits hsub hplanes scratch
    rw [← h2, ← h3, ← h5] at hrun'
    exact ⟨_, S, S', hrun, hrun'⟩

/-- The calls that build `GT(Load("a"), Const(5))` twice. -/
def twiceCalls : List Jit.BuilderCall :=
  [.load (.ofString [97]), .const 5, .gt (some 0) (some 1),
   .load (.ofString [97]), .const 5, .gt (some 3) (some 4)]

theorem run_twiceCalls : Jit.Session.Run twiceCalls := by
  simp only [twiceCalls, Jit.Session.Run, Runs.Along]
  refine ⟨?_, ?_, ?_, ?_, ?_, ?_, trivial⟩ <;> exact of_decide_eq_true rfl

/-- The pool with both. -/
def twiceGraph : Graph :=
  (Jit.Session.run twiceCalls).pool.graph (Jit.Session.wellFormed_run run_twiceCalls).ordered

/-- The second is a copy of the first. -/
theorem copies_twice : Copies twiceGraph twiceGraph 2 (· + 3) where
  inj _ _ _ _ h := Nat.add_right_cancel h
  node n hn := by
    have hmem : n ∈ [0, 1, 2] := (twiceGraph.mem_listing 2).mpr hn
    simp only [List.mem_cons, List.not_mem_nil, or_false] at hmem
    rcases hmem with rfl | rfl | rfl <;> rfl

/-- An expression compiled in scalar mode, and then for bit-slices, is given the same as its
copy, which nobody has compiled. -/
theorem recompilation_twice : ∃ now next : Deployment,
    now = Deployment.run Jit.standardHeap ⟨fun _ => sampleEngine, sampleState⟩
      [.setExpression 0 [115] twiceGraph (some 2) .scalar] ∧
    next = now.step Jit.standardHeap (.setExpression 1 [115] twiceGraph (some 2) .bitSliced) ∧
    next.engines 1 = ((now.engines 1).setExpression [115] Jit.standardHeap twiceGraph (some 5)
      .bitSliced ⟨fun _ => {}, now.compiled.pool⟩).1 :=
  ⟨_, _, rfl, rfl, (recompilation Jit.standardHeap _ _ [] 1 [115] twiceGraph 2 .bitSliced rfl rfl
    rfl).1 twiceGraph (· + 3) copies_twice fun _ => {}⟩

end Api
end ApexEngine
