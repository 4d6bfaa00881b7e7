import ApexEngine.Api.Recompilation
import ApexEngine.Jit.PoolReuse

/-!
# Building after a reset

A client that has reset its pool and builds an expression should have what it would have on a
fresh pool: the same expression, accepted by the same compilers, and bound to the same fields
(`Invisible`).  It has, exactly when nothing is left over in the nodes of the expression
(`poolReuse_iff`).

Otherwise nodes of earlier calls are part of it.  A leaf that was a sum before has the operands
of this sum below it, or what is in their nodes now, and an expression over one field may come
to need more fields than a kernel can have (`poolReuse_leaves`).
-/

namespace ApexEngine
namespace Api

open A64 (Word)
open Core (Name)
open Jit (ExecutionMode Graph NodeRef CompileState Mirrors SameExpression NothingLeft Refilled
  Thread ThreadCall BuilderCall)

/-- The fields that `set_expression` has bound for a schema, if it has a kernel. -/
def Engine.boundFields (e : Engine) (schemaName : Name) : Option Slots :=
  (e.exprLogic.lookup schemaName).map ExprCompiledLogic.fields

/-- Nobody can tell the expressions of two pools at a root apart: they are the same, the
compilers accept one when they accept the other, and `set_expression` binds the same fields,
whatever was compiled before. -/
structure Invisible (g g' : Graph) (root : NodeRef) : Prop where
  same : SameExpression g g' root
  accepted : ∀ mode heap heap' st st', (Jit.compile mode heap g (some root) st).1.isSome =
    (Jit.compile mode heap' g' (some root) st').1.isSome
  fields : ∀ (e : Engine) schemaName mode heap heap' st st',
    (e.setExpression schemaName heap g (some root) mode st).1.boundFields schemaName =
      (e.setExpression schemaName heap' g' (some root) mode st').1.boundFields schemaName

section Same

variable {g g' : Graph} {root : NodeRef}

/-- The same expressions are accepted. -/
theorem isSome_compile_same (h : SameExpression g g' root) (mode : ExecutionMode)
    (heap heap' : ℕ → Word) (st st' : CompileState) :
    (Jit.compile mode heap g (some root) st).1.isSome =
      (Jit.compile mode heap' g' (some root) st').1.isSome := by
  rw [Bool.eq_iff_iff, Jit.compile_isSome_iff, Jit.compile_isSome_iff]
  exact Jit.accepts_copy h.mirrors mode

/-- The same expressions are bound to the same fields. -/
theorem boundFields_same (h : SameExpression g g' root) (e : Engine) (schemaName : Name)
    (mode : ExecutionMode) (heap heap' : ℕ → Word) (st st' : CompileState) :
    (e.setExpression schemaName heap g (some root) mode st).1.boundFields schemaName =
      (e.setExpression schemaName heap' g' (some root) mode st').1.boundFields schemaName := by
  have haccepted := isSome_compile_same h mode heap heap' st st'
  cases hcompile : Jit.compile mode heap g (some root) st with
  | mk kernel c =>
    cases hcompile' : Jit.compile mode heap' g' (some root) st' with
    | mk kernel' c' =>
      rw [hcompile, hcompile'] at haccepted
      cases kernel with
      | none =>
        obtain rfl : kernel' = none := by simpa using haccepted.symm
        rw [setExpression_none e _ hcompile, setExpression_none e _ hcompile']
      | some code =>
        obtain ⟨code', rfl⟩ := Option.isSome_iff_exists.mp haccepted.symm
        have hslots : slotsOf schemaName e.registry g c.metas root =
            slotsOf schemaName e.registry g' c'.metas root :=
          slotsOf_copy h.mirrors e.registry hcompile' hcompile
        rw [setExpression_some e _ hcompile, setExpression_some e _ hcompile', Engine.boundFields,
          Engine.boundFields, AList.lookup_insert, AList.lookup_insert, Option.map_some,
          Option.map_some, hslots]

/-- To be the same expression is all there is to it. -/
theorem invisible_iff : Invisible g g' root ↔ SameExpression g g' root :=
  ⟨fun h => h.same, fun h => ⟨h, isSome_compile_same h, boundFields_same h⟩⟩

end Same

/-- **Where the reuse of a pool is invisible.**  After any builder calls, compilations and
resets, an expression that was built since the last reset is what the calls since then build
on a fresh pool exactly when, at this reset, the nodes that it has there had no pointers but
those that their new kinds use. -/
theorem poolReuse_iff (heap : ℕ → Word) (compiled : CompileState) (calls : List ThreadCall)
    {root : NodeRef} (hroot : some root ∈ (Thread.run heap compiled calls).session.results) :
    Invisible (Thread.run heap compiled calls).graph
        (Thread.run heap compiled (Thread.sinceReset calls)).graph root ↔
      NothingLeft (Thread.leftover heap compiled calls)
        (Thread.run heap compiled (Thread.sinceReset calls)).graph root :=
  invisible_iff.trans ((Jit.refilled_run heap compiled calls).sameExpression_iff hroot)

/-- The calls that build `GT(Load("a"), Const(5))`, compile it, and build
`GT(Load("b"), Const(7))` after a reset. -/
def rebuiltCalls : List ThreadCall :=
  [.build (.load (.ofString [97])), .build (.const 5), .build (.gt (some 0) (some 1)),
   .compile .bitSliced (some 2), .build .reset,
   .build (.load (.ofString [98])), .build (.const 7), .build (.gt (some 0) (some 1))]

/-- The second is what it is on a fresh pool: the kinds of its nodes are those of the first. -/
theorem poolReuse_iff_rebuilt :
    Invisible (Thread.run Jit.standardHeap sampleState rebuiltCalls).graph
      (Thread.run Jit.standardHeap sampleState (Thread.sinceReset rebuiltCalls)).graph 2 :=
  (poolReuse_iff Jit.standardHeap sampleState rebuiltCalls (by decide)).mpr (by decide)

/-- The calls that build a sum in each of the nodes 1 to 8, over the node before it, and then,
after a reset, `GT(Load("i"), Const(5))` in the nodes 8 to 10.  The nodes 0 to 7 are loads of
other fields. -/
def leavesCalls : List ThreadCall := List.map ThreadCall.build <|
  [BuilderCall.const 0] ++ (List.range 8).map (fun i => BuilderCall.add (some i) (some i)) ++
    [BuilderCall.reset] ++
    (List.range 9).map (fun i => BuilderCall.load (.ofString [(97 + i).toUInt8])) ++
    [BuilderCall.const 5, BuilderCall.gt (some 8) (some 9)]

/-- **An expression over one field that needs nine**: node 8 still points to node 7, and so on
down to node 0, and the compiler refuses the expression. -/
theorem poolReuse_leaves : ¬ ∀ heap compiled calls (root : NodeRef),
    some root ∈ (Thread.run heap compiled calls).session.results →
    Invisible (Thread.run heap compiled calls).graph
      (Thread.run heap compiled (Thread.sinceReset calls)).graph root := by
  intro h
  have hinvisible := h Jit.standardHeap sampleState leavesCalls 10 (by decide)
  have haccepted := hinvisible.accepted .bitSliced Jit.standardHeap Jit.standardHeap sampleState
    sampleState
  rw [Bool.eq_iff_iff, Jit.compile_isSome_iff, Jit.compile_isSome_iff] at haccepted
  exact absurd (haccepted.mpr (by decide)) (by decide)

end Api
end ApexEngine
