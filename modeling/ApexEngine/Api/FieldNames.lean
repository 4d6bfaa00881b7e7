import ApexEngine.Api.Slots
import ApexEngine.Jit.BuilderRuns

/-!
# From a name to its descriptor

The name of a field goes a long way: it is given to `Load` as a view, stored in the node as a
C string, compared with the names of the other leaves when the indices are assigned, and
looked up in the registry when the descriptors are collected.  Only the first step can change
it.  `Load` copies from where the view starts and does not look at where it ends, so a view
into a longer text is stored with what follows it, and a name of 64 bytes or more without its
end.  A name like this may be that of another field, or that of another leaf.

A leaf is bound to the field it was given exactly when its view is stored as it is, and its
slot exists and is found by `collect_fields` (`leafBound_iff`), whatever the other leaves are;
and two leaves share an index exactly when their stored names are one (`fieldIdx_eq_iff`).
The engine itself decides the last two conditions by the names it has stored; for expressions
of at most eight fields whose nodes have no pointers of earlier expressions they are given.
-/

namespace ApexEngine
namespace Api

open A64 (Word)
open Core (Name SchemaRegistry FieldDescriptor)
open Jit (ExecutionMode Graph NodeRef NodeMetas CompileState StringView BuilderCall Session)

/-! ## Names in the registry -/

/-- **What an engine finds under a name has this name.** -/
theorem named_run (slicer : Compute.BitSlicer) (buffers : ℕ → Compute.ColumnBuffer)
    (history : List Call) : ((Engine.new slicer buffers).run history).registry.Named := by
  refine Runs.run_inv_of_forall (I := fun e : Engine => e.registry.Named) (fun e c h => ?_)
    SchemaRegistry.named_empty history
  rw [Engine.registry_step]
  cases c with
  | registerSchema s fields stride => exact h.registerSchema s fields
  | setLogic => exact h
  | setExpression => exact h

/-! ## Leaves -/

/-- An expression that a run of builder calls has made. -/
structure Built (calls : List BuilderCall) (g : Graph) (root : NodeRef) : Prop where
  run : Session.Run calls
  result : some root ∈ (Session.run calls).results
  graph : ∃ hordered, g = (Session.run calls).pool.graph hordered

/-- Its leaves were given the names of registered fields. -/
structure NamesFields (registry : SchemaRegistry) (s : Name) (calls : List BuilderCall)
    (g : Graph) (root : NodeRef) : Prop extends Built calls g root where
  registered : ∀ n ∈ g.loadNodes root,
    (registry.getField s (Session.viewOf calls n).bytes).isSome

/-- A leaf is bound to the field it was given: the slot of its index has the descriptor of its
name. -/
def LeafBound (registry : SchemaRegistry) (s : Name) (view : NodeRef → StringView) (ms : NodeMetas)
    (fields : Slots) (n : NodeRef) : Prop :=
  ∃ i : ℕ, (ms n).fieldIdx = i ∧ fields.getD i none = registry.getField s (view n).bytes

/-- What a leaf needs to be bound: its name is stored as it is, it is among the first eight of
the expression, and some leaf that `collect_fields` meets has it. -/
structure LeafFound (view : NodeRef → StringView) (g : Graph) (root n : NodeRef) : Prop where
  whole : (view n).Whole
  visited : ∃ m ∈ g.visits root, g.kind m = .load ∧ (g.node m).fieldName = (g.node n).fieldName
  first : (g.fieldNames root).idxOf (g.node n).fieldName < 8

/-- The leaves of an expression are bound to the fields they were given, and different names
have different indices. -/
structure Faithful (registry : SchemaRegistry) (s : Name) (view : NodeRef → StringView)
    (g : Graph) (root : NodeRef) (ms : NodeMetas) (fields : Slots) : Prop where
  leaf : ∀ n ∈ g.loadNodes root, LeafBound registry s view ms fields n
  apart : ∀ m ∈ g.loadNodes root, ∀ n ∈ g.loadNodes root,
    (view m).bytes ≠ (view n).bytes → (ms m).fieldIdx ≠ (ms n).fieldIdx

section Leaves

variable {registry : SchemaRegistry} {s : Name} {mode : ExecutionMode} {heap : ℕ → Word}
  {g : Graph} {root m n : NodeRef} {st st' : CompileState} {code : List A64.Item}
  {calls : List BuilderCall} {view : NodeRef → StringView}

/-- The leaves of such an expression have stored what they were given. -/
theorem Built.stored (h : Built calls g root) (hn : n ∈ g.loadNodes root) :
    (g.node n).fieldName = Jit.storedName (Session.viewOf calls n) := by
  obtain ⟨hordered, rfl⟩ := h.graph
  obtain ⟨hmem, hkind⟩ := (Graph.mem_loadNodes _ root).mp hn
  have hle : n ≤ root := Graph.rank_le_of_reach _ ((Graph.mem_listing _ root).mp hmem)
  have hroot := (Session.wellFormed_run h.run).taken root h.result
  exact Session.stored_run calls n (Nat.lt_of_le_of_lt hle hroot) hkind

/-- **A leaf is bound to what it was given exactly when it is found under its name.** -/
theorem leafBound_iff (hcompile : Jit.compile mode heap g (some root) st = (some code, st'))
    (hnamed : registry.Named) (hn : n ∈ g.loadNodes root)
    (hstored : (g.node n).fieldName = Jit.storedName (view n))
    (hregistered : (registry.getField s (view n).bytes).isSome) :
    LeafBound registry s view st'.metas (slotsOf s registry g st'.metas root) n ↔
      LeafFound view g root n := by
  obtain ⟨d, hd⟩ := Option.isSome_iff_exists.mp hregistered
  have hidxOf := Jit.fieldIdx_of_compile hcompile hn
  constructor
  · rintro ⟨i, hidx, hslot⟩
    rw [hd] at hslot
    have hi := lt_of_slot hslot
    obtain ⟨hfield, hvisited⟩ := resolved_of_slot hcompile hn hidx hi hslot
    -- the descriptor has both names
    have hname : (g.node n).fieldName = (view n).bytes :=
      (hnamed s _ d hfield).symm.trans (hnamed s _ d hd)
    rw [hidx, Int.natCast_inj] at hidxOf
    exact ⟨(Jit.storedName_eq_bytes_iff _).mp (hstored.symm.trans hname), hvisited, hidxOf ▸ hi⟩
  · rintro ⟨hwhole, ⟨m, hm, hk, hname⟩, hfirst⟩
    refine ⟨_, hidxOf, ?_⟩
    have hidxm := Jit.fieldIdx_of_compile hcompile (mem_loadNodes_of_visited hm hk)
    rw [hname] at hidxm
    rw [slotsOf_getD hcompile hm hk hidxm hfirst, hname, hstored,
      (Jit.storedName_eq_bytes_iff _).mpr hwhole]

/-- **Leaves share an index exactly when they have stored one name.** -/
theorem fieldIdx_eq_iff (hcompile : Jit.compile mode heap g (some root) st = (some code, st'))
    (hm : m ∈ g.loadNodes root) (hn : n ∈ g.loadNodes root) :
    (st'.metas m).fieldIdx = (st'.metas n).fieldIdx ↔
      (g.node m).fieldName = (g.node n).fieldName := by
  refine ⟨fieldName_eq_of_fieldIdx hcompile hm hn, fun hname => ?_⟩
  rw [Jit.fieldIdx_of_compile hcompile hm, Jit.fieldIdx_of_compile hcompile hn, hname]

/-- All names are among the first eight when there are no more. -/
theorem fieldNames_le_iff (g : Graph) (root : NodeRef) : (g.fieldNames root).length ≤ 8 ↔
    ∀ n ∈ g.loadNodes root, (g.fieldNames root).idxOf (g.node n).fieldName < 8 := by
  constructor
  · intro hle n hn
    obtain ⟨hmem, hk⟩ := (g.mem_loadNodes root).mp hn
    exact (List.idxOf_lt_length_of_mem (Jit.Graph.name_mem_fieldNames hmem hk)).trans_le hle
  · intro h
    by_contra hlt
    obtain ⟨n, hn, hidx⟩ := Jit.exists_load_of_lt (show 8 < (g.fieldNames root).length by omega)
    have := h n hn
    omega

/-- **All leaves together**, when all names are registered. -/
theorem faithful_iff (hcompile : Jit.compile mode heap g (some root) st = (some code, st'))
    (hnamed : registry.Named)
    (hstored : ∀ n ∈ g.loadNodes root, (g.node n).fieldName = Jit.storedName (view n))
    (hregistered : ∀ n ∈ g.loadNodes root, (registry.getField s (view n).bytes).isSome) :
    Faithful registry s view g root st'.metas (slotsOf s registry g st'.metas root) ↔
      ∀ n ∈ g.loadNodes root, LeafFound view g root n := by
  have hleaf : ∀ n ∈ g.loadNodes root, _ ↔ _ := fun n hn =>
    leafBound_iff hcompile hnamed hn (hstored n hn) (hregistered n hn)
  refine ⟨fun h n hn => (hleaf n hn).mp (h.leaf n hn), fun h =>
    ⟨fun n hn => (hleaf n hn).mpr (h n hn), fun m hm n hn hne heq => hne ?_⟩⟩
  have hname := (fieldIdx_eq_iff hcompile hm hn).mp heq
  rwa [hstored m hm, hstored n hn, (Jit.storedName_eq_bytes_iff _).mpr (h m hm).whole,
    (Jit.storedName_eq_bytes_iff _).mpr (h n hn).whole] at hname

end Leaves

/-! ## What is installed -/

/-- **Field names resolve faithfully exactly when they are stored whole**, and have a slot that
`collect_fields` fills: for each leaf with a registered name, for each two leaves, and for all
leaves of an expression that names registered fields only.  The engine has any history, and so
has the thread that built the expression. -/
theorem names_faithful_iff (slicer : Compute.BitSlicer) (buffers : ℕ → Compute.ColumnBuffer)
    (history : List Call) (s : Name) {calls : List BuilderCall} {g : Graph} {root : NodeRef}
    (hbuilt : Built calls g root) {mode : ExecutionMode} {heap : ℕ → Word}
    {st st' : CompileState} {code : List A64.Item}
    (hcompile : Jit.compile mode heap g (some root) st = (some code, st')) :
    ∃ logic, (((Engine.new slicer buffers).run history).setExpression s heap g (some root) mode
        st).1.exprLogic.lookup s = some logic ∧ logic.kernel = code ∧
      (∀ n ∈ g.loadNodes root, (((Engine.new slicer buffers).run history).registry.getField s
          (Session.viewOf calls n).bytes).isSome →
        (LeafBound ((Engine.new slicer buffers).run history).registry s (Session.viewOf calls)
            st'.metas logic.fields n ↔ LeafFound (Session.viewOf calls) g root n)) ∧
      (∀ m ∈ g.loadNodes root, ∀ n ∈ g.loadNodes root,
        (st'.metas m).fieldIdx = (st'.metas n).fieldIdx ↔
          Jit.storedName (Session.viewOf calls m) = Jit.storedName (Session.viewOf calls n)) ∧
      (NamesFields ((Engine.new slicer buffers).run history).registry s calls g root →
        (Faithful ((Engine.new slicer buffers).run history).registry s (Session.viewOf calls) g root
            st'.metas logic.fields ↔
          (∀ n ∈ g.loadNodes root, (Session.viewOf calls n).Whole) ∧
          (∀ n ∈ g.loadNodes root, ∃ m ∈ g.visits root,
            g.kind m = .load ∧ (g.node m).fieldName = (g.node n).fieldName) ∧
          (g.fieldNames root).length ≤ 8)) := by
  have hnamed := named_run slicer buffers history
  rw [setExpression_some _ s hcompile]
  refine ⟨_, AList.lookup_insert _, rfl, fun n hn hreg => ?_, fun m hm n hn => ?_, fun hnames => ?_⟩
  · exact leafBound_iff hcompile hnamed hn (hbuilt.stored hn) hreg
  · rw [fieldIdx_eq_iff hcompile hm hn, hbuilt.stored hm, hbuilt.stored hn]
  · rw [faithful_iff hcompile hnamed (fun n hn => hbuilt.stored hn) hnames.registered,
      fieldNames_le_iff]
    exact ⟨fun h => ⟨fun n hn => (h n hn).whole, fun n hn => (h n hn).visited,
      fun n hn => (h n hn).first⟩, fun h n hn => ⟨h.1 n hn, h.2.1 n hn, h.2.2 n hn⟩⟩

/-- The calls that build `GT(Load(f), Const(5))`. -/
def thresholdCalls (f : StringView) : List BuilderCall :=
  [.load f, .const 5, .gt (some 0) (some 1)]

theorem built_threshold (f : StringView) :
    Built (thresholdCalls f) (Jit.thresholdGraph f 5) 2 where
  run := by
    simp only [thresholdCalls, Session.Run, Runs.Along]
    refine ⟨?_, ?_, ?_, trivial⟩ <;> exact of_decide_eq_true rfl
  result := List.mem_cons_self
  graph := ⟨Jit.ordered_thresholdPool f 5, rfl⟩

/-- The expression names a field when its view does. -/
theorem namesFields_threshold {registry : SchemaRegistry} {s : Name} {f : StringView}
    (hfield : (registry.getField s f.bytes).isSome) :
    NamesFields registry s (thresholdCalls f) (Jit.thresholdGraph f 5) 2 where
  toBuilt := built_threshold f
  registered n hn := by
    rw [Jit.loadNodes_threshold] at hn
    rw [List.mem_singleton.mp hn]
    exact hfield

/-- The names of `GT(Load("a"), Const(5))` on an engine that knows `a`. -/
theorem names_faithful_iff_threshold : ∃ st' logic,
    (((Engine.new .portable fun _ _ => 0).run
      [.registerSchema [115] [sampleField] 8]).setExpression [115] Jit.standardHeap
        (Jit.thresholdGraph (.ofString [97]) 5) (some 2) .scalar sampleState).1.exprLogic.lookup
      [115] = some logic ∧
    Faithful sampleEngine.registry [115] (Session.viewOf (thresholdCalls (.ofString [97])))
      (Jit.thresholdGraph (.ofString [97]) 5) 2 st' logic.fields := by
  have hnames : NamesFields ((Engine.new .portable fun _ _ => 0).run
      [.registerSchema [115] [sampleField] 8]).registry [115] (thresholdCalls (.ofString [97]))
      (Jit.thresholdGraph (.ofString [97]) 5) 2 := namesFields_threshold rfl
  obtain ⟨logic, hlogic, -, -, -, hiff⟩ := names_faithful_iff .portable (fun _ _ => 0)
    [.registerSchema [115] [sampleField] 8] [115] hnames.toBuilt
    (Jit.compile_scalar Jit.standardHeap _ 2 sampleState)
  refine ⟨_, logic, hlogic, (hiff hnames).mpr ⟨fun n hn => ?_, fun n hn => ?_, by decide⟩⟩
  · rw [Jit.loadNodes_threshold] at hn
    rw [List.mem_singleton.mp hn]
    exact StringView.whole_ofString (by decide) (by decide)
  · rw [Jit.loadNodes_threshold] at hn
    rw [List.mem_singleton.mp hn]
    exact ⟨0, by decide, rfl, rfl⟩

/-- The fields `a` and `ab`. -/
def prefixFields : List FieldDescriptor := [⟨[97], 0, 64, .uint64⟩, ⟨[97, 98], 8, 64, .uint64⟩]

/-- **A view into a longer text is stored with what follows it.**  `Load` of the first byte of
`"ab"` reads the field `ab`. -/
theorem names_not_faithful : ¬ ∀ (slicer : Compute.BitSlicer)
    (buffers : ℕ → Compute.ColumnBuffer) (history : List Call) (s : Name)
    (calls : List BuilderCall) (g : Graph) (root : NodeRef),
    NamesFields ((Engine.new slicer buffers).run history).registry s calls g root →
    ∀ (mode : ExecutionMode) (heap : ℕ → Word) (st st' : CompileState) (code : List A64.Item),
      Jit.compile mode heap g (some root) st = (some code, st') →
      ∃ logic, (((Engine.new slicer buffers).run history).setExpression s heap g (some root) mode
          st).1.exprLogic.lookup s = some logic ∧
        Faithful ((Engine.new slicer buffers).run history).registry s (Session.viewOf calls) g root
          st'.metas logic.fields := by
  intro h
  have hnames : NamesFields ((Engine.new .portable fun _ _ => 0).run
      [.registerSchema [115] prefixFields 16]).registry [115] (thresholdCalls ⟨[97], [98, 0]⟩)
      (Jit.thresholdGraph ⟨[97], [98, 0]⟩ 5) 2 := namesFields_threshold rfl
  have hcompile := Jit.compile_scalar Jit.standardHeap (Jit.thresholdGraph ⟨[97], [98, 0]⟩ 5) 2
    sampleState
  obtain ⟨logic, hlogic, hfaithful⟩ := h .portable (fun _ _ => 0) _ _ _ _ _ hnames _ _ _ _ _ hcompile
  rw [setExpression_some _ _ hcompile, AList.lookup_insert, Option.some.injEq] at hlogic
  subst hlogic
  have hleaf : 0 ∈ (Jit.thresholdGraph ⟨[97], [98, 0]⟩ 5).loadNodes 2 := by
    rw [Jit.loadNodes_threshold]
    exact List.mem_cons_self
  have hwhole := ((leafBound_iff hcompile (named_run .portable _ _) hleaf (hnames.stored hleaf)
    (hnames.registered 0 hleaf)).mp (hfaithful.leaf 0 hleaf)).whole
  rcases hwhole.ended with hlen | hend
  · exact absurd hlen (by decide)
  · exact absurd (hend 98 rfl) (by decide)

end Api
end ApexEngine
