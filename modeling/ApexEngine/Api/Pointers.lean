import ApexEngine.Api.Execution
import ApexEngine.Api.History
import ApexEngine.Core.Matches
import ApexEngine.Core.Ownership

/-!
# The engine with its pointers

`get_field` returns a pointer to a descriptor, and a logic that is installed keeps it.  `Engine`
has the descriptor in the pointer's place, which is right if what is pointed to is never changed,
never given back while the engine lives, and never used for something else.  Here the pointers
are there: a descriptor is a node at an address, a field map has the addresses of its nodes,
and a logic has addresses too.

Registering a schema allocates a node for every name that is new in the list.  When the schema
is known already, `emplace` has no use for the new map, and its nodes are given back
(`registerSchema_known`).  So memory is allocated and freed while other logics keep their
pointers, and an allocator may use a freed address for the next schema.

`Sees` says that an engine with pointers is an engine without, when its nodes contain what they
should: maps have the same keys, a pointer stands where the descriptor of its node stands.  Every
operation of the engine keeps it (`Sees.registerSchema_new`, `Sees.setLogic`,
`Sees.setExpression`), and reading through the pointers gives the same counts
(`Sees.execute_eq`).
-/

namespace ApexEngine
namespace Api
namespace Pointers

open A64 (Word Item)
open Core (Name StringMap FieldDescriptor)
open Compute (BitSlicer ColumnBuffer Data popcount gatherField)
open Jit (ExecutionMode Caller Graph Node NodeRef NodeMetas CompileState)
open Maps (Matches)
open Ownership (store free)

/-! ## The state -/

abbrev Addr := ℕ

/-- The nodes that there are, with what they contain. -/
abbrev Memory := Addr → Option FieldDescriptor

/-- `SchemaRegistry::FieldMap`, with the addresses of its nodes. -/
abbrev FieldMap := StringMap Addr

/-- `SchemaRegistry`. -/
structure Registry where
  schemas : StringMap FieldMap

/-- `ApexEngine::CompiledLogic`. -/
structure CompiledLogic where
  field : Addr
  kernel : List Item

/-- The pointers of the field slots. -/
abbrev Slots := List (Option Addr)

/-- `ApexEngine::ExprCompiledLogic`. -/
structure ExprCompiledLogic where
  kernel : List Item
  fields : Slots
  mode : ExecutionMode

/-- `ApexEngine`. -/
structure Engine where
  registry : Registry
  schemaMetadata : StringMap SchemaMetadata
  compiledLogic : StringMap CompiledLogic
  exprLogic : StringMap ExprCompiledLogic
  slicer : BitSlicer
  fieldBuffers : ℕ → ColumnBuffer

/-- `ApexEngine::ApexEngine`. -/
def Engine.new (slicer : BitSlicer) (fieldBuffers : ℕ → ColumnBuffer) : Engine :=
  ⟨⟨∅⟩, ∅, ∅, ∅, slicer, fieldBuffers⟩

/-- The nodes a registry gives back when it is destroyed. -/
def Registry.nodes (r : Registry) : List Addr :=
  r.schemas.entries.flatMap fun schema => schema.2.entries.map Sigma.snd

/-! ## Configuration -/

/-- `emplace` of a descriptor that would have its node at an address: nothing happens when
the name is there already. -/
def emplaceNode (s : FieldMap × List (Addr × FieldDescriptor)) (p : FieldDescriptor × Addr) :
    FieldMap × List (Addr × FieldDescriptor) :=
  if p.1.name ∈ s.1 then s else (s.1.insert p.1.name p.2, s.2 ++ [(p.2, p.1)])

/-- The loop of `SchemaRegistry::register_schema`: the map, and the nodes it has allocated at
the addresses the allocator has for them. -/
def fieldMap (fields : List FieldDescriptor) (nodes : List Addr) :
    FieldMap × List (Addr × FieldDescriptor) :=
  (fields.zip nodes).foldl emplaceNode (∅, [])

/-- `SchemaRegistry::get_field`. -/
def Registry.getField (r : Registry) (schemaName fieldName : Name) : Option Addr :=
  (r.schemas.lookup schemaName).bind fun m => m.lookup fieldName

section Configure

variable (e : Engine) (memory : Memory) (schemaName : Name)

/-- `ApexEngine::register_schema`.  The map of a schema that is known is destroyed with its
nodes. -/
def Engine.registerSchema (fields : List FieldDescriptor) (totalRowStride : ℕ)
    (nodes : List Addr) : Engine × Memory :=
  let built := fieldMap fields nodes
  let metadata := e.schemaMetadata.insert schemaName ⟨totalRowStride, fields⟩
  if schemaName ∈ e.registry.schemas then
    ({ e with schemaMetadata := metadata },
      free (store memory built.2) (built.2.map Prod.fst))
  else
    ({ e with
        registry := ⟨e.registry.schemas.insert schemaName built.1⟩
        schemaMetadata := metadata },
      store memory built.2)

/-- `ApexEngine::set_logic`. -/
def Engine.setLogic (fieldName : Name) (threshold : Word) : Engine :=
  match e.registry.getField schemaName fieldName with
  | none => e
  | some field =>
      { e with
        compiledLogic :=
          e.compiledLogic.insert schemaName ⟨field, Jit.compileComparison threshold⟩ }

/-- What `collect_fields` does at a node itself. -/
def bindNode (registry : Registry) (g : Graph) (ms : NodeMetas) (n : NodeRef)
    (fields : Slots) : Slots :=
  if g.kind n = .load ∧ 0 ≤ (ms n).fieldIdx ∧ (ms n).fieldIdx < 8 then
    match registry.getField schemaName (g.node n).fieldName with
    | some field => fields.set (ms n).fieldIdx.toNat (some field)
    | none => fields
  else fields

/-- The lambda `collect_fields`. -/
def collectFields (registry : Registry) (g : Graph) (ms : NodeMetas) : NodeRef → Slots → Slots :=
  g.fold fun n left right cond fields =>
    let fields := bindNode schemaName registry g ms n fields
    let fields := left.getD id fields
    let fields := right.getD id fields
    if g.kind n = .select then cond.getD id fields else fields

/-- Drop the trailing nulls. -/
def trim (fields : Slots) : Slots :=
  fields.take (Loop.forUp 0 8 1
    (fun i maxIdx => if (fields.getD i none).isSome then i + 1 else maxIdx) 0)

/-- `ApexEngine::set_expression`. -/
def Engine.setExpression (heap : ℕ → Word) (g : Graph) (exprRoot : Option NodeRef)
    (mode : ExecutionMode) (st : CompileState) : Engine × CompileState :=
  match Jit.compile mode heap g exprRoot st with
  | (none, st) => (e, st)
  | (some kernel, st) =>
      let fields := match exprRoot with
        | none => List.replicate 8 none
        | some root => collectFields schemaName e.registry g st.metas root (List.replicate 8 none)
      ({ e with exprLogic := e.exprLogic.insert schemaName ⟨kernel, trim fields, mode⟩ }, st)

end Configure

/-! ## Execution -/

section Execute

/-- Read the descriptors of the slots.  A pointer to no node is a fault. -/
def deref (memory : Memory) (fields : Slots) : Option Api.Slots :=
  fields.mapM fun slot =>
    match slot with
    | none => some none
    | some a => (memory a).map some

/-- The buffers and the slicer, which are all of the engine that a scan uses. -/
def Engine.bare (e : Engine) : Api.Engine := Api.Engine.new e.slicer e.fieldBuffers

/-- `ApexEngine::execute`, which reads the descriptors through its pointers. -/
def Engine.execute (e : Engine) (memory : Memory) (callers : ℕ → Caller) (data : Data)
    (order : IterationOrder) (rowCount : ℕ) : Option (Engine × ℕ) :=
  let scan chunk := (e.bare.scan chunk rowCount).map fun r =>
    ({ e with fieldBuffers := r.1.fieldBuffers }, r.2)
  match order.front e.exprLogic with
  | some (schemaName, logic) =>
      match e.schemaMetadata.lookup schemaName with
      | none => some (e, 0)
      | some schema =>
          (deref memory logic.fields).bind fun fields =>
            scan (Api.Engine.exprChunk callers data ⟨logic.kernel, fields, logic.mode⟩
              schema.rowStride rowCount)
  | none =>
      match order.front e.compiledLogic with
      | none => some (e, 0)
      | some (logicKey, logic) =>
          match e.schemaMetadata.lookup logicKey with
          | none => some (e, 0)
          | some schema =>
              (memory logic.field).bind fun field =>
                scan (Api.Engine.legacyChunk callers data ⟨field, logic.kernel⟩ schema.rowStride
                  rowCount)

/-- The number `execute` returns. -/
def Engine.count (e : Engine) (memory : Memory) (callers : ℕ → Caller) (data : Data)
    (order : IterationOrder) (rowCount : ℕ) : Option ℕ :=
  (e.execute memory callers data order rowCount).map Prod.snd

end Execute

/-! ## What an engine with pointers is -/

/-- A pointer to a node with a descriptor, among the nodes of the schemas. -/
def Points (owned : Name → List (Addr × FieldDescriptor)) (a : Addr) (d : FieldDescriptor) : Prop :=
  ∃ schemaName, (a, d) ∈ owned schemaName

/-- An engine with pointers is an engine without, when the schemas have their nodes. -/
structure Sees (owned : Name → List (Addr × FieldDescriptor)) (e : Engine) (v : Api.Engine) :
    Prop where
  schemas : Matches (fun s => Matches fun _ a d => (a, d) ∈ owned s) e.registry.schemas
    v.registry.schemas
  nodes : ∀ {s p}, p ∈ owned s → ∃ m f, e.registry.schemas.lookup s = some m ∧
    m.lookup f = some p.1
  schemaMetadata : e.schemaMetadata = v.schemaMetadata
  compiledLogic : Matches (fun _ (l : CompiledLogic) (l' : Api.CompiledLogic) =>
    Points owned l.field l'.field ∧ l.kernel = l'.kernel) e.compiledLogic v.compiledLogic
  exprLogic : Matches (fun _ (l : ExprCompiledLogic) (l' : Api.ExprCompiledLogic) =>
    l.kernel = l'.kernel ∧ List.Forall₂ (Option.Rel (Points owned)) l.fields l'.fields ∧
      l.mode = l'.mode) e.exprLogic v.exprLogic
  slicer : e.slicer = v.slicer
  fieldBuffers : e.fieldBuffers = v.fieldBuffers

section Registry

variable {owned : Name → List (Addr × FieldDescriptor)} {e : Engine} {v : Api.Engine}
  {memory : Memory} {schemaName : Name} {fields : List FieldDescriptor} {nodes : List Addr}

theorem Sees.new (slicer : BitSlicer) (fieldBuffers : ℕ → ColumnBuffer) :
    Sees (fun _ => []) (Engine.new slicer fieldBuffers) (Api.Engine.new slicer fieldBuffers) where
  schemas := .empty
  nodes h := absurd h List.not_mem_nil
  schemaMetadata := rfl
  compiledLogic := .empty
  exprLogic := .empty
  slicer := rfl
  fieldBuffers := rfl

/-- A lookup finds the address of the descriptor that the values have. -/
theorem Sees.getField (h : Sees owned e v) (s f : Name) :
    Option.Rel (Points owned) (e.registry.getField s f) (v.registry.getField s f) :=
  Maps.rel_bind (h.schemas.lookup s) fun _ _ hm =>
    Maps.rel_mono (hm.lookup f) fun _ _ had => ⟨s, had⟩

/-- **The loop of `register_schema`**: the map has the keys it has without nodes, its entries
are nodes with the descriptors, and there are no other nodes. -/
theorem fieldMap_spec (hlength : nodes.length = fields.length) (hnd : nodes.Nodup) :
    Matches (fun _ a d => (a, d) ∈ (fieldMap fields nodes).2) (fieldMap fields nodes).1
      (Core.SchemaRegistry.fieldMap fields) ∧
    (∀ p ∈ (fieldMap fields nodes).2, ∃ f, (fieldMap fields nodes).1.lookup f = some p.1) ∧
    ((fieldMap fields nodes).2.map Prod.fst).Nodup ∧
    ∀ p ∈ (fieldMap fields nodes).2, p.1 ∈ nodes := by
  -- the fields that are left, with the nodes for them
  have main : ∀ (fields : List FieldDescriptor) (rest : List Addr)
      (s : FieldMap × List (Addr × FieldDescriptor)) (m : Core.FieldMap),
      rest.length = fields.length → (s.2.map Prod.fst ++ rest).Nodup →
      Matches (fun _ a d => (a, d) ∈ s.2) s.1 m →
      (∀ p ∈ s.2, ∃ f, s.1.lookup f = some p.1) →
      Matches (fun _ a d => (a, d) ∈ ((fields.zip rest).foldl emplaceNode s).2)
        ((fields.zip rest).foldl emplaceNode s).1
        (fields.foldl (fun m f => Core.emplace m f.name f) m) ∧
      (∀ p ∈ ((fields.zip rest).foldl emplaceNode s).2,
        ∃ f, ((fields.zip rest).foldl emplaceNode s).1.lookup f = some p.1) ∧
      (((fields.zip rest).foldl emplaceNode s).2.map Prod.fst).Nodup ∧
      ∀ p ∈ ((fields.zip rest).foldl emplaceNode s).2, p.1 ∈ s.2.map Prod.fst ++ rest := by
    intro fields
    induction fields with
    | nil =>
      intro rest s m _ hnd hmatch hfound
      simp only [List.zip_nil_left, List.foldl_nil]
      exact ⟨hmatch, hfound, (List.nodup_append.mp hnd).1, fun p hp =>
        List.mem_append_left _ (List.mem_map_of_mem hp)⟩
    | cons field fields ih =>
      intro rest s m hlength hnd hmatch hfound
      obtain ⟨a, rest, rfl⟩ : ∃ a l, rest = a :: l :=
        List.exists_cons_of_length_eq_add_one hlength
      have hlength' : rest.length = fields.length := Nat.succ.inj hlength
      rw [List.zip_cons_cons, List.foldl_cons, List.foldl_cons, Core.emplace]
      by_cases hname : field.name ∈ s.1
      · have hs : emplaceNode s (field, a) = s := if_pos hname
        rw [hs, if_pos (hmatch.mem_iff.mp hname)]
        obtain ⟨h₁, h₂, h₃, h₄⟩ := ih rest s m hlength'
          (hnd.sublist (List.Sublist.append_left (List.sublist_cons_self a rest) _)) hmatch hfound
        exact ⟨h₁, h₂, h₃, fun p hp => by
          rcases List.mem_append.mp (h₄ p hp) with hmem | hmem
          · exact List.mem_append_left _ hmem
          · exact List.mem_append_right _ (List.mem_cons_of_mem a hmem)⟩
      · have hs : emplaceNode s (field, a) = (s.1.insert field.name a, s.2 ++ [(a, field)]) :=
          if_neg hname
        rw [hs, if_neg fun hmem => hname (hmatch.mem_iff.mpr hmem)]
        have hkeys : (s.2 ++ [(a, field)]).map Prod.fst ++ rest = s.2.map Prod.fst ++ a :: rest := by
          simp
        obtain ⟨h₁, h₂, h₃, h₄⟩ := ih rest (s.1.insert field.name a, s.2 ++ [(a, field)])
          (m.insert field.name field) hlength' (by rw [hkeys]; exact hnd)
          ((hmatch.mono fun _ _ _ => List.mem_append_left _).insert
            (List.mem_append_right _ List.mem_cons_self))
          (fun p hp => by
            rcases List.mem_append.mp hp with hp | hp
            · obtain ⟨f, hf⟩ := hfound p hp
              refine ⟨f, ?_⟩
              rw [AList.lookup_insert_ne]
              · exact hf
              · rintro rfl
                exact hname (AList.lookup_isSome.mp (by rw [hf]; rfl))
            · rw [List.mem_singleton.mp hp]
              exact ⟨field.name, AList.lookup_insert _⟩)
        exact ⟨h₁, h₂, h₃, fun p hp => hkeys ▸ h₄ p hp⟩
  have h := main fields nodes (∅, []) ∅ hlength (by simpa using hnd) .empty
    (fun p hp => absurd hp List.not_mem_nil)
  simpa [fieldMap, Core.SchemaRegistry.fieldMap] using h

/-- New nodes of a schema leave the pointers to the others. -/
theorem Points.allocate {l : List (Addr × FieldDescriptor)} {a : Addr} {d : FieldDescriptor}
    (h : Points owned a d) :
    Points (Function.update owned schemaName (owned schemaName ++ l)) a d := by
  obtain ⟨s, hs⟩ := h
  exact ⟨s, Ownership.mem_allocate.mpr (Or.inl hs)⟩

/-- **Registering a schema that is new** adds its nodes to those there are. -/
theorem Sees.registerSchema_new (h : Sees owned e v) (hnew : schemaName ∉ e.registry.schemas)
    (hlength : nodes.length = fields.length) (hnd : nodes.Nodup) (totalRowStride : ℕ) :
    (e.registerSchema memory schemaName fields totalRowStride nodes).2 =
      store memory (fieldMap fields nodes).2 ∧
    Sees (Function.update owned schemaName (owned schemaName ++ (fieldMap fields nodes).2))
      (e.registerSchema memory schemaName fields totalRowStride nodes).1
      (v.registerSchema schemaName fields totalRowStride) := by
  obtain ⟨hmatch, hfound, -, -⟩ := fieldMap_spec hlength hnd
  have hnew' : schemaName ∉ v.registry.schemas := fun hmem => hnew (h.schemas.mem_iff.mpr hmem)
  have hregister : e.registerSchema memory schemaName fields totalRowStride nodes =
      ({ e with
          registry := ⟨e.registry.schemas.insert schemaName (fieldMap fields nodes).1⟩
          schemaMetadata := e.schemaMetadata.insert schemaName ⟨totalRowStride, fields⟩ },
        store memory (fieldMap fields nodes).2) := if_neg hnew
  have hvalue : v.registry.registerSchema schemaName fields =
      ⟨v.registry.schemas.insert schemaName (Core.SchemaRegistry.fieldMap fields)⟩ := by
    rw [Core.SchemaRegistry.registerSchema, Core.emplace, if_neg hnew']
  rw [hregister, Api.Engine.registerSchema, hvalue]
  refine ⟨rfl, ?_, ?_, ?_, ?_, ?_, h.slicer, h.fieldBuffers⟩
  · refine Matches.insert (h.schemas.mono fun s m m' hm => hm.mono fun _ a d had => ?_)
      (hmatch.mono fun _ a d had => ?_)
    · exact Ownership.mem_allocate.mpr (Or.inl had)
    · exact Ownership.mem_allocate.mpr (Or.inr ⟨rfl, had⟩)
  · intro s p hp
    simp only
    rcases Ownership.mem_allocate.mp hp with hold | ⟨rfl, hbuilt⟩
    · obtain ⟨m, f, hm, hf⟩ := h.nodes hold
      refine ⟨m, f, ?_, hf⟩
      rw [AList.lookup_insert_ne]
      · exact hm
      · rintro rfl
        exact hnew (AList.lookup_isSome.mp (by rw [hm]; rfl))
    · obtain ⟨f, hf⟩ := hfound p hbuilt
      exact ⟨_, f, AList.lookup_insert _, hf⟩
  · simp only [h.schemaMetadata]
  · exact h.compiledLogic.mono fun _ _ _ hl => ⟨hl.1.allocate, hl.2⟩
  · exact h.exprLogic.mono fun _ _ _ hl =>
      ⟨hl.1, hl.2.1.imp fun _ _ hslot => Maps.rel_mono hslot fun _ _ => Points.allocate, hl.2.2⟩

/-- **Registering a schema that is known** leaves memory and all pointers as they are. -/
theorem Sees.registerSchema_known (h : Sees owned e v) (hknown : schemaName ∈ e.registry.schemas)
    (hlength : nodes.length = fields.length) (hnd : nodes.Nodup)
    (hfree : ∀ a ∈ nodes, memory a = none) (totalRowStride : ℕ) :
    (e.registerSchema memory schemaName fields totalRowStride nodes).2 = memory ∧
    Sees owned (e.registerSchema memory schemaName fields totalRowStride nodes).1
      (v.registerSchema schemaName fields totalRowStride) := by
  obtain ⟨-, -, -, hnodes⟩ := fieldMap_spec hlength hnd
  have hregister : e.registerSchema memory schemaName fields totalRowStride nodes =
      ({ e with schemaMetadata := e.schemaMetadata.insert schemaName ⟨totalRowStride, fields⟩ },
        free (store memory (fieldMap fields nodes).2) ((fieldMap fields nodes).2.map Prod.fst)) :=
    if_pos hknown
  have hvalue : v.registry.registerSchema schemaName fields = v.registry := by
    rw [Core.SchemaRegistry.registerSchema, Core.emplace, if_pos (h.schemas.mem_iff.mp hknown)]
  rw [hregister, Api.Engine.registerSchema, hvalue]
  refine ⟨?_, h.schemas, h.nodes, by simp only [h.schemaMetadata], h.compiledLogic, h.exprLogic,
    h.slicer, h.fieldBuffers⟩
  funext a
  show free (store memory (fieldMap fields nodes).2) ((fieldMap fields nodes).2.map Prod.fst) a =
    memory a
  by_cases ha : a ∈ (fieldMap fields nodes).2.map Prod.fst
  · obtain ⟨p, hp, rfl⟩ := List.mem_map.mp ha
    rw [Ownership.free_of_mem ha, hfree _ (hnodes p hp)]
  · rw [Ownership.free_of_notMem ha, Ownership.store_of_notMem ha]

end Registry

/-! ## Installing a logic -/

section Install

variable {owned : Name → List (Addr × FieldDescriptor)} {e : Engine} {v : Api.Engine}
  {fields : Slots} {fields' : Api.Slots}

theorem Sees.setLogic (h : Sees owned e v) (schemaName fieldName : Name) (threshold : Word) :
    Sees owned (e.setLogic schemaName fieldName threshold)
      (v.setLogic schemaName fieldName threshold) := by
  have hfield := h.getField schemaName fieldName
  unfold Engine.setLogic Api.Engine.setLogic
  generalize e.registry.getField schemaName fieldName = o,
    v.registry.getField schemaName fieldName = o' at hfield
  cases hfield with
  | none => exact h
  | some had => exact { h with compiledLogic := h.compiledLogic.insert ⟨had, rfl⟩ }

/-- Slots that stand for the same descriptors. -/
def SlotsMatch (owned : Name → List (Addr × FieldDescriptor)) (fields : Slots)
    (fields' : Api.Slots) : Prop :=
  List.Forall₂ (Option.Rel (Points owned)) fields fields'

theorem SlotsMatch.set (h : SlotsMatch owned fields fields') {a : Addr} {d : FieldDescriptor}
    (had : Points owned a d) (i : ℕ) :
    SlotsMatch owned (fields.set i (some a)) (fields'.set i (some d)) := by
  induction h generalizing i with
  | nil => exact .nil
  | cons hslot hrest ih =>
    cases i with
    | zero => exact .cons (.some had) hrest
    | succ i => exact .cons hslot (ih i)

theorem SlotsMatch.bindNode (h : Sees owned e v) (schemaName : Name) (g : Graph) (ms : NodeMetas)
    (n : NodeRef) (hfields : SlotsMatch owned fields fields') :
    SlotsMatch owned (Pointers.bindNode schemaName e.registry g ms n fields)
      (Api.bindNode schemaName v.registry g ms n fields') := by
  have hfield := h.getField schemaName (g.node n).fieldName
  unfold Pointers.bindNode Api.bindNode
  split
  · generalize e.registry.getField schemaName (g.node n).fieldName = o,
      v.registry.getField schemaName (g.node n).fieldName = o' at hfield
    cases hfield with
    | none => exact hfields
    | some had => exact hfields.set had _
  · exact hfields

/-- **The traversal collects matching slots.** -/
theorem SlotsMatch.collectFields (h : Sees owned e v) (schemaName : Name) (g : Graph)
    (ms : NodeMetas) (n : NodeRef) (hfields : SlotsMatch owned fields fields') :
    SlotsMatch owned (Pointers.collectFields schemaName e.registry g ms n fields)
      (Api.collectFields schemaName v.registry g ms n fields') := by
  induction n using g.induction generalizing fields fields' with
  | h n ih =>
    have hoperand : ∀ o : Option NodeRef, (∀ c, o = some c → c ∈ (g.node n).children) →
        ∀ {fields fields'}, SlotsMatch owned fields fields' →
          SlotsMatch owned
            ((o.map (Pointers.collectFields schemaName e.registry g ms)).getD id fields)
            ((o.map (Api.collectFields schemaName v.registry g ms)).getD id fields') := by
      intro o ho fields fields' hfields
      cases o with
      | none => exact hfields
      | some c => exact ih c (ho c rfl) hfields
    rw [Pointers.collectFields, Api.collectFields, g.fold_eq, g.fold_eq]
    have hnode := SlotsMatch.bindNode h schemaName g ms n hfields
    have hleft := hoperand (g.node n).left (fun c hc => Node.mem_children.mpr (Or.inl hc)) hnode
    have hright := hoperand (g.node n).right
      (fun c hc => Node.mem_children.mpr (Or.inr (Or.inl hc))) hleft
    have hcond := hoperand (g.node n).cond
      (fun c hc => Node.mem_children.mpr (Or.inr (Or.inr hc))) hright
    simp only
    split
    · exact hcond
    · exact hright

theorem SlotsMatch.isSome (h : SlotsMatch owned fields fields') (i : ℕ) :
    (fields.getD i none).isSome = (fields'.getD i none).isSome := by
  induction h generalizing i with
  | nil => rfl
  | cons hslot _ ih =>
    cases i with
    | zero => cases hslot <;> rfl
    | succ i => exact ih i

theorem SlotsMatch.trim (h : SlotsMatch owned fields fields') :
    SlotsMatch owned (Pointers.trim fields) (Api.trim fields') := by
  unfold Pointers.trim Api.trim
  simp only [h.isSome]
  exact List.forall₂_take _ h

theorem SlotsMatch.replicate (n : ℕ) :
    SlotsMatch owned (List.replicate n none) (List.replicate n none) := by
  induction n with
  | zero => exact .nil
  | succ n ih => exact .cons .none ih

theorem Sees.setExpression (h : Sees owned e v) (schemaName : Name) (heap : ℕ → Word) (g : Graph)
    (exprRoot : Option NodeRef) (mode : ExecutionMode) (st : CompileState) :
    Sees owned (e.setExpression schemaName heap g exprRoot mode st).1
      (v.setExpression schemaName heap g exprRoot mode st).1 := by
  unfold Engine.setExpression Api.Engine.setExpression
  cases Jit.compile mode heap g exprRoot st with
  | mk code st' =>
    cases code with
    | none => exact h
    | some kernel =>
      refine { h with exprLogic := h.exprLogic.insert ⟨rfl, SlotsMatch.trim ?_, rfl⟩ }
      cases exprRoot with
      | none => exact .replicate 8
      | some root => exact .collectFields h schemaName g _ root (.replicate 8)

end Install

/-! ## Executing through pointers -/

section Count

variable {owned : Name → List (Addr × FieldDescriptor)} {e : Engine} {v : Api.Engine}
  {memory : Memory}

/-- What a scan uses of an engine. -/
def forget (s : Api.Engine) : Api.Engine := Api.Engine.new s.slicer s.fieldBuffers

/-- A loop over a state that has a part of its own. -/
theorem accumulate_map {σ τ : Type} {F : σ → τ} {step : ℕ → σ → Option (σ × ℕ)}
    {step' : ℕ → τ → Option (τ × ℕ)}
    (hstep : ∀ i s, step' i (F s) = (step i s).map fun r => (F r.1, r.2)) (start stop inc : ℕ)
    (o : Option (σ × ℕ)) :
    Loop.forUp start stop inc (Loop.accumulate step') (o.map fun r => (F r.1, r.2)) =
      (Loop.forUp start stop inc (Loop.accumulate step) o).map fun r => (F r.1, r.2) := by
  unfold Loop.forUp
  refine List.foldl_hom (Option.map fun r : σ × ℕ => (F r.1, r.2)) fun o j => ?_
  cases o with
  | none => rfl
  | some r =>
    show Option.map _ (step' (start + j * inc) (F r.1)) = Option.map _ (Option.map _ _)
    rw [hstep]
    cases step (start + j * inc) r.1 <;> rfl

/-- **A scan does the same** on the part of the engine that it uses. -/
theorem scan_forget {chunk : ℕ → Api.Engine → Option (Api.Engine × ℕ)}
    (hchunk : ∀ row s, chunk row (forget s) = (chunk row s).map fun r => (forget r.1, r.2))
    (s : Api.Engine) (rowCount : ℕ) :
    (forget s).scan chunk rowCount = (s.scan chunk rowCount).map fun r => (forget r.1, r.2) := by
  have h := accumulate_map hchunk 0 rowCount 64 (some (s, 0))
  rwa [Option.map_some] at h

theorem exprChunk_forget (callers : ℕ → Caller) (data : Data) (logic : Api.ExprCompiledLogic)
    (rowStride rowCount row : ℕ) (s : Api.Engine) :
    Api.Engine.exprChunk callers data logic rowStride rowCount row (forget s) =
      (Api.Engine.exprChunk callers data logic rowStride rowCount row s).map
        fun r => (forget r.1, r.2) := by
  simp only [Api.Engine.exprChunk, Api.Engine.processChunkExpr, Option.map_map]
  rfl

theorem legacyChunk_forget (callers : ℕ → Caller) (data : Data) (logic : Api.CompiledLogic)
    (rowStride rowCount row : ℕ) (s : Api.Engine) :
    Api.Engine.legacyChunk callers data logic rowStride rowCount row (forget s) =
      (Api.Engine.legacyChunk callers data logic rowStride rowCount row s).map
        fun r => (forget r.1, r.2) := by
  simp only [Api.Engine.legacyChunk, Option.map_map]
  rfl

theorem Sees.bare (h : Sees owned e v) : e.bare = forget v := by
  rw [Engine.bare, forget, h.slicer, h.fieldBuffers]

/-- **The descriptors that are read** are those of the matching slots. -/
theorem SlotsMatch.deref {fields : Slots} {fields' : Api.Slots}
    (h : SlotsMatch owned fields fields')
    (hmemory : ∀ a d, Points owned a d → memory a = some d) :
    Pointers.deref memory fields = some fields' := by
  unfold Pointers.deref
  induction h with
  | nil => rfl
  | cons hslot _ ih =>
    rw [List.mapM_cons, ih]
    cases hslot with
    | none => rfl
    | some had => simp only [hmemory _ _ had, Option.map_some]; rfl

/-- The first entries of maps that match. -/
theorem rel_front {α β : Type} {R : Name → α → β → Prop} {m : StringMap α} {m' : StringMap β}
    (h : Matches R m m') (order : IterationOrder) :
    Option.Rel (fun p p' => p.1 = p'.1 ∧ R p.1 p.2 p'.2) (order.front m) (order.front m') := by
  unfold IterationOrder.front
  rw [h.keys]
  cases order.first m'.keys with
  | none => exact .none
  | some k =>
    simp only [Option.bind_some]
    have hrel := h.lookup k
    generalize AList.lookup k m = o, AList.lookup k m' = o' at hrel
    cases hrel with
    | none => exact .none
    | some hab => exact .some ⟨rfl, hab⟩

/-- **Executing through the pointers**: the engine counts what it counts without them, and has
its buffers left as they are left there. -/
theorem Sees.execute_eq (h : Sees owned e v) (hmemory : ∀ a d, Points owned a d → memory a = some d)
    (callers : ℕ → Caller) (data : Data) (order : IterationOrder) (rowCount : ℕ) :
    e.execute memory callers data order rowCount =
      (v.execute callers data order rowCount).map fun r =>
        ({ e with fieldBuffers := r.1.fieldBuffers }, r.2) := by
  have hsame : some (e, 0) = Option.map (fun r : Api.Engine × ℕ =>
      ({ e with fieldBuffers := r.1.fieldBuffers }, r.2)) (some (v, 0)) := by
    rw [Option.map_some, ← h.fieldBuffers]
  have hscan : ∀ {chunk : ℕ → Api.Engine → Option (Api.Engine × ℕ)},
      (∀ row s, chunk row (forget s) = (chunk row s).map fun r => (forget r.1, r.2)) →
      ((forget v).scan chunk rowCount).map (fun r : Api.Engine × ℕ =>
        (({ e with fieldBuffers := r.1.fieldBuffers } : Engine), r.2)) =
      (v.scan chunk rowCount).map fun r => ({ e with fieldBuffers := r.1.fieldBuffers }, r.2) := by
    intro chunk hchunk
    rw [scan_forget hchunk, Option.map_map]
    rfl
  unfold Engine.execute Api.Engine.execute
  rw [h.bare, ← h.schemaMetadata]
  have hexpr := rel_front h.exprLogic order
  generalize order.front e.exprLogic = o, order.front v.exprLogic = o' at hexpr
  cases hexpr with
  | @some p p' hlogic =>
    obtain ⟨name, logic⟩ := p
    obtain ⟨name', logic'⟩ := p'
    obtain ⟨rfl, hkernel, hfields, hmode⟩ := hlogic
    simp only
    cases hschema : e.schemaMetadata.lookup name with
    | none => exact hsame
    | some schema =>
      simp only
      rw [SlotsMatch.deref hfields hmemory, Option.bind_some, hkernel, hmode]
      exact hscan (exprChunk_forget callers data _ schema.rowStride rowCount)
  | none =>
    have hlegacy := rel_front h.compiledLogic order
    simp only
    generalize order.front e.compiledLogic = o, order.front v.compiledLogic = o' at hlegacy
    cases hlegacy with
    | none => exact hsame
    | @some p p' hlogic =>
      obtain ⟨name, logic⟩ := p
      obtain ⟨name', logic'⟩ := p'
      obtain ⟨rfl, hpoints, hkernel⟩ := hlogic
      simp only
      cases hschema : e.schemaMetadata.lookup name with
      | none => exact hsame
      | some schema =>
        simp only
        rw [hmemory _ _ hpoints, Option.bind_some, hkernel]
        exact hscan (legacyChunk_forget callers data _ schema.rowStride rowCount)

/-- Counting through the pointers is counting with the values. -/
theorem Sees.count (h : Sees owned e v) (hmemory : ∀ a d, Points owned a d → memory a = some d)
    (callers : ℕ → Caller) (data : Data) (order : IterationOrder) (rowCount : ℕ) :
    e.count memory callers data order rowCount = v.count callers data order rowCount := by
  rw [Engine.count, h.execute_eq hmemory, Option.map_map]
  rfl

/-- **Executing keeps the engines together.** -/
theorem Sees.execute (h : Sees owned e v) (hmemory : ∀ a d, Points owned a d → memory a = some d)
    (callers : ℕ → Caller) (data : Data) (order : IterationOrder) (rowCount : ℕ) :
    Option.Rel (fun r r' => Sees owned r.1 r'.1 ∧ r.2 = r'.2)
      (e.execute memory callers data order rowCount) (v.execute callers data order rowCount) := by
  rw [h.execute_eq hmemory]
  cases hexec : v.execute callers data order rowCount with
  | none => exact .none
  | some r =>
    obtain ⟨v', m⟩ := r
    obtain ⟨buffers, rfl⟩ := Api.execute_frame hexec
    exact .some ⟨{ h with fieldBuffers := rfl }, rfl⟩

end Count

end Pointers
end Api
end ApexEngine
