import ApexEngine.Api.Engine

/-!
# Which descriptor a field slot gets

The compilers number the fields of an expression in one traversal, and `set_expression`
finds their descriptors in another, which goes by the indices the first has left in the
nodes.  The second visits a node once for every path to it, which does no harm, and it
follows the condition of a selection only, while the analysis follows every pointer
there is.

The second traversal is a fold over the list of its visits (`collectFields_eq`).  All
LOAD nodes with an index have one name, so a slot gets what the registry has under this
name (`slot_eq`), or nothing when no LOAD with this index is visited.
`Binds` is what a kernel needs of the slots, and `binds_iff` says when it has it.
-/

namespace ApexEngine
namespace Jit
namespace Graph

variable (g : Graph)

/-- The visits of `collect_fields`, in their order. -/
def visits : NodeRef → List NodeRef :=
  g.fold fun n left right cond =>
    n :: (left.getD [] ++ right.getD [] ++ if g.kind n = .select then cond.getD [] else [])

theorem visits_eq (n : NodeRef) :
    g.visits n = n :: (((g.node n).left.map g.visits).getD [] ++
      ((g.node n).right.map g.visits).getD [] ++
      if g.kind n = .select then ((g.node n).cond.map g.visits).getD [] else []) :=
  g.fold_eq _ n

/-- Only nodes of the expression are visited. -/
theorem reach_of_mem_visits {n m : NodeRef} (h : m ∈ g.visits n) : g.Reach n m := by
  induction n using g.induction with
  | h n ih =>
    have hoperand : ∀ o : Option NodeRef, (∀ c, o = some c → c ∈ (g.node n).children) →
        m ∈ (o.map g.visits).getD [] → g.Reach n m := by
      intro o ho hmem
      cases o with
      | none => exact absurd hmem (by simp)
      | some c => exact .head (ho c rfl) (ih c (ho c rfl) hmem)
    rw [visits_eq, List.mem_cons, List.mem_append, List.mem_append] at h
    rcases h with rfl | (h | h) | h
    · exact .refl
    · exact hoperand _ (fun c hc => Node.mem_children.mpr (Or.inl hc)) h
    · exact hoperand _ (fun c hc => Node.mem_children.mpr (Or.inr (Or.inl hc))) h
    · split at h
      · exact hoperand _ (fun c hc => Node.mem_children.mpr (Or.inr (Or.inr hc))) h
      · exact absurd h (by simp)

end Graph
end Jit

namespace Api

open A64 (Word)
open Core (Name SchemaRegistry FieldDescriptor)
open Jit (ExecutionMode Graph Node NodeRef NodeMetas CompileState)

section Collect

variable {schemaName : Name} {registry : SchemaRegistry} {g : Graph} {ms : NodeMetas}

/-- **The traversal is a fold over its visits.** -/
theorem collectFields_eq (n : NodeRef) (fields : Slots) :
    collectFields schemaName registry g ms n fields =
      (g.visits n).foldl (fun fields m => bindNode schemaName registry g ms m fields) fields := by
  induction n using g.induction generalizing fields with
  | h n ih =>
    have hoperand : ∀ o : Option NodeRef, (∀ c, o = some c → c ∈ (g.node n).children) →
        ∀ fields : Slots, (o.map (collectFields schemaName registry g ms)).getD id fields =
          ((o.map g.visits).getD []).foldl
            (fun fields m => bindNode schemaName registry g ms m fields) fields := by
      intro o ho fields
      cases o with
      | none => rfl
      | some c => exact ih c (ho c rfl) fields
    rw [collectFields, g.fold_eq, g.visits_eq, List.foldl_cons, List.foldl_append,
      List.foldl_append]
    simp only
    have hleft := hoperand (g.node n).left fun c hc => Node.mem_children.mpr (Or.inl hc)
    have hright := hoperand (g.node n).right
      fun c hc => Node.mem_children.mpr (Or.inr (Or.inl hc))
    have hcond := hoperand (g.node n).cond
      fun c hc => Node.mem_children.mpr (Or.inr (Or.inr hc))
    rw [← hleft, ← hright]
    split
    · exact hcond _
    · rfl

/-! ## One slot -/

variable {visits : List NodeRef} {i : ℕ} {found : Option FieldDescriptor}

/-- The nodes of a list that are for slot `i` all find the same. -/
def Finds (schemaName : Name) (registry : SchemaRegistry) (g : Graph) (ms : NodeMetas)
    (visits : List NodeRef) (i : ℕ) (found : Option FieldDescriptor) : Prop :=
  ∀ m ∈ visits, g.kind m = .load → (ms m).fieldIdx = (i : ℕ) →
    registry.getField schemaName (g.node m).fieldName = found

theorem length_bindNode (n : NodeRef) (fields : Slots) :
    (bindNode schemaName registry g ms n fields).length = fields.length := by
  unfold bindNode
  split
  · split
    · exact List.length_set
    · rfl
  · rfl

theorem length_foldl_bindNode (fields : Slots) :
    (visits.foldl (fun fields m => bindNode schemaName registry g ms m fields) fields).length =
      fields.length := by
  induction visits generalizing fields with
  | nil => rfl
  | cons m visits ih => rw [List.foldl_cons, ih, length_bindNode]

/-- The slot of a field that is found. -/
theorem getD_bindNode_self {m : NodeRef} {fields : Slots} {field : FieldDescriptor}
    (hk : g.kind m = .load) (hidx : (ms m).fieldIdx = (i : ℕ)) (hi : i < 8)
    (hlen : i < fields.length)
    (hfield : registry.getField schemaName (g.node m).fieldName = some field) :
    (bindNode schemaName registry g ms m fields).getD i none = some field := by
  have hc : g.kind m = .load ∧ 0 ≤ (ms m).fieldIdx ∧ (ms m).fieldIdx < 8 := ⟨hk, by omega, by omega⟩
  rw [bindNode, if_pos hc, hfield]
  simp only [hidx, Int.toNat_natCast, List.getD_eq_getElem?_getD, List.getElem?_set_self hlen,
    Option.getD_some]

/-- Other slots stay as they are. -/
theorem getD_bindNode_of_ne {m : NodeRef} {fields : Slots}
    (h : g.kind m = .load → (ms m).fieldIdx ≠ (i : ℕ)) :
    (bindNode schemaName registry g ms m fields).getD i none = fields.getD i none := by
  unfold bindNode
  split
  · rename_i hc
    have hne : (ms m).fieldIdx.toNat ≠ i := fun heq => h hc.1 (by omega)
    cases registry.getField schemaName (g.node m).fieldName with
    | none => rfl
    | some field => simp only [List.getD_eq_getElem?_getD, List.getElem?_set_ne hne]
  · rfl

/-- A slot that has what its nodes find keeps it. -/
theorem getD_foldl_bindNode (hfind : Finds schemaName registry g ms visits i found) (hi : i < 8)
    {fields : Slots} (hlen : i < fields.length) (h : fields.getD i none = found) :
    (visits.foldl (fun fields m => bindNode schemaName registry g ms m fields) fields).getD i none =
      found := by
  induction visits generalizing fields with
  | nil => exact h
  | cons m visits ih =>
    rw [List.foldl_cons]
    refine ih (fun m' hm' => hfind m' (List.mem_cons_of_mem m hm'))
      (by rw [length_bindNode]; exact hlen) ?_
    by_cases hm : g.kind m = .load ∧ (ms m).fieldIdx = (i : ℕ)
    · have hfound := hfind m List.mem_cons_self hm.1 hm.2
      cases found with
      | none =>
        rw [bindNode, hfound]
        split <;> exact h
      | some field => exact getD_bindNode_self hm.1 hm.2 hi hlen hfound
    · rw [getD_bindNode_of_ne fun hk hidx => hm ⟨hk, hidx⟩]
      exact h

theorem getD_noSlots (i : ℕ) : noSlots.getD i none = none := by
  rw [noSlots, List.getD_eq_getElem?_getD, List.getElem?_replicate]
  split <;> rfl

/-- **The slot of a visited field** has what the registry has under its name. -/
theorem slot_eq {m : NodeRef} (hm : m ∈ visits) (hk : g.kind m = .load)
    (hidx : (ms m).fieldIdx = (i : ℕ)) (hi : i < 8)
    (hsame : ∀ m' ∈ visits, g.kind m' = .load → (ms m').fieldIdx = (i : ℕ) →
      (g.node m').fieldName = (g.node m).fieldName) :
    (visits.foldl (fun fields m => bindNode schemaName registry g ms m fields) noSlots).getD i none =
      registry.getField schemaName (g.node m).fieldName := by
  have hfind : Finds schemaName registry g ms visits i
      (registry.getField schemaName (g.node m).fieldName) := by
    intro m' hm' hk' hidx'
    rw [hsame m' hm' hk' hidx']
  cases hfield : registry.getField schemaName (g.node m).fieldName with
  | none =>
    rw [hfield] at hfind
    exact getD_foldl_bindNode hfind hi (by simp [noSlots, hi]) (getD_noSlots i)
  | some field =>
    obtain ⟨p, q, rfl⟩ := List.append_of_mem hm
    rw [hfield] at hfind
    rw [List.foldl_append, List.foldl_cons]
    have hlen : i < (p.foldl (fun fields m => bindNode schemaName registry g ms m fields)
        noSlots).length := by
      rw [length_foldl_bindNode]
      simpa [noSlots] using hi
    refine getD_foldl_bindNode (fun m' hm' => hfind m' ?_) hi ?_
      (getD_bindNode_self hk hidx hi hlen hfield)
    · exact List.mem_append_right p (List.mem_cons_of_mem m hm')
    · rw [length_bindNode]
      exact hlen

/-- **A slot whose field is not visited** is null. -/
theorem slot_eq_none (hi : i < 8)
    (h : ∀ m ∈ visits, g.kind m = .load → (ms m).fieldIdx ≠ (i : ℕ)) :
    (visits.foldl (fun fields m => bindNode schemaName registry g ms m fields) noSlots).getD i none =
      none :=
  getD_foldl_bindNode (fun m hm hk hidx => absurd hidx (h m hm hk)) hi (by simp [noSlots, hi])
    (getD_noSlots i)

end Collect

/-! ## Trimming -/

section Trim

variable {fields : Slots}

/-- Where `trim` cuts. -/
def maxIdx (fields : Slots) : ℕ :=
  Loop.forUp 0 8 1 (fun i maxIdx => if (fields.getD i none).isSome then i + 1 else maxIdx) 0

/-- The cut is right behind the last slot that is bound. -/
theorem maxIdx_spec (fields : Slots) : maxIdx fields ≤ 8 ∧
    (∀ i, i < 8 → (fields.getD i none).isSome → i < maxIdx fields) ∧
    ∀ i, i + 1 = maxIdx fields → (fields.getD i none).isSome := by
  refine Loop.forUp_inv_of_dvd (P := fun k m => m ≤ k ∧
    (∀ i, i < k → (fields.getD i none).isSome → i < m) ∧
    ∀ i, i + 1 = m → (fields.getD i none).isSome) Nat.one_pos (Nat.zero_le _) (Nat.one_dvd _)
    ⟨le_rfl, fun i hi => absurd hi (Nat.not_lt_zero i), fun i hi => absurd hi (by omega)⟩ ?_
  rintro k m - - ⟨hle, hall, hlast⟩
  split
  · rename_i hk
    refine ⟨le_rfl, fun i hi _ => hi, fun i hi => ?_⟩
    obtain rfl : i = k := by omega
    exact hk
  · rename_i hk
    refine ⟨by omega, fun i hi hsome => ?_, hlast⟩
    rcases Nat.lt_succ_iff_lt_or_eq.mp hi with hlt | rfl
    · exact hall i hlt hsome
    · exact absurd hsome hk

/-- Trimming changes no slot. -/
theorem getD_trim {i : ℕ} (hi : i < 8) : (trim fields).getD i none = fields.getD i none := by
  have hspec := (maxIdx_spec fields).2.1 i hi
  show (fields.take (maxIdx fields)).getD i none = _
  rw [List.getD_eq_getElem?_getD, List.getElem?_take]
  split
  · rw [← List.getD_eq_getElem?_getD]
  · rename_i hlt
    cases h : fields.getD i none with
    | none => rfl
    | some field => exact absurd (hspec (by rw [h]; rfl)) hlt

theorem length_trim (hlen : fields.length = 8) : (trim fields).length = maxIdx fields := by
  show (fields.take (maxIdx fields)).length = _
  rw [List.length_take, hlen]
  exact Nat.min_eq_left (maxIdx_spec fields).1

/-- Slots that are bound up to `k` and null from there on are cut at `k`. -/
theorem maxIdx_eq {k : ℕ} (hk : k ≤ 8) (hsome : ∀ i < k, (fields.getD i none).isSome)
    (hnone : ∀ i, k ≤ i → i < 8 → fields.getD i none = none) : maxIdx fields = k := by
  obtain ⟨hle, hall, hlast⟩ := maxIdx_spec fields
  rcases Nat.lt_trichotomy (maxIdx fields) k with hlt | heq | hgt
  · exact absurd (hall _ (by omega) (hsome _ hlt)) (Nat.lt_irrefl _)
  · exact heq
  · have hs := hlast (maxIdx fields - 1) (by omega)
    rw [hnone _ (by omega) (by omega)] at hs
    exact absurd hs (by simp)

end Trim

/-! ## The slots of an expression -/

section Slots

variable {schemaName : Name} {registry : SchemaRegistry} {mode : ExecutionMode} {heap : ℕ → Word}
  {g : Graph} {root : NodeRef} {st st' : CompileState} {code : List A64.Item}

/-- The fields `set_expression` installs. -/
def slotsOf (schemaName : Name) (registry : SchemaRegistry) (g : Graph) (ms : NodeMetas)
    (root : NodeRef) : Slots :=
  trim (collectFields schemaName registry g ms root noSlots)

/-- What a kernel needs of the slots: every field that its expression names has the slot
of its index, and in it the descriptor registered under the name. -/
def Binds (schemaName : Name) (registry : SchemaRegistry) (g : Graph) (root : NodeRef)
    (ms : NodeMetas) (fields : Slots) : Prop :=
  ∀ n ∈ g.loadNodes root, ∃ i field, (ms n).fieldIdx = (i : ℕ) ∧ i < min fields.length 8 ∧
    fields.getD i none = some field ∧
    registry.getField schemaName (g.node n).fieldName = some field

/-- The expression names registered fields, at most eight, and `collect_fields` meets all
of them. -/
structure Resolves (schemaName : Name) (registry : SchemaRegistry) (g : Graph) (root : NodeRef) :
    Prop where
  registered : ∀ n ∈ g.loadNodes root,
    (registry.getField schemaName (g.node n).fieldName).isSome
  visited : ∀ n ∈ g.loadNodes root, ∃ m ∈ g.visits root,
    g.kind m = .load ∧ (g.node m).fieldName = (g.node n).fieldName
  fields_le : (g.fieldNames root).length ≤ 8

instance : Decidable (Resolves schemaName registry g root) :=
  decidable_of_iff ((∀ n ∈ g.loadNodes root,
      (registry.getField schemaName (g.node n).fieldName).isSome) ∧
      (∀ n ∈ g.loadNodes root, ∃ m ∈ g.visits root,
        g.kind m = .load ∧ (g.node m).fieldName = (g.node n).fieldName) ∧
      (g.fieldNames root).length ≤ 8)
    ⟨fun h => ⟨h.1, h.2.1, h.2.2⟩, fun h => ⟨h.registered, h.visited, h.fields_le⟩⟩

/-- **What `set_expression` installs** when there is a kernel. -/
theorem setExpression_some (e : Engine) (schemaName : Name)
    (hcompile : Jit.compile mode heap g (some root) st = (some code, st')) :
    e.setExpression schemaName heap g (some root) mode st =
      ({ e with
          exprLogic := e.exprLogic.insert schemaName
            ⟨code, slotsOf schemaName e.registry g st'.metas root, mode⟩ }, st') := by
  rw [Engine.setExpression, hcompile]
  rfl

/-- Without a kernel nothing is installed. -/
theorem setExpression_none (e : Engine) (schemaName : Name) {exprRoot : Option NodeRef}
    (hcompile : Jit.compile mode heap g exprRoot st = (none, st')) :
    e.setExpression schemaName heap g exprRoot mode st = (e, st') := by
  rw [Engine.setExpression, hcompile]

theorem mem_loadNodes_of_visited {m : NodeRef} (hm : m ∈ g.visits root) (hk : g.kind m = .load) :
    m ∈ g.loadNodes root :=
  (g.mem_loadNodes root).mpr ⟨(g.mem_listing root).mpr (g.reach_of_mem_visits hm), hk⟩

/-- An expression of one field resolves when the field is registered. -/
theorem resolves_of_loadNodes {n : NodeRef} (hload : g.loadNodes root = [n])
    (hvisit : n ∈ g.visits root)
    (hfield : (registry.getField schemaName (g.node n).fieldName).isSome) :
    Resolves schemaName registry g root where
  registered m hm := by
    rw [hload] at hm
    rw [List.mem_singleton.mp hm]
    exact hfield
  visited m hm := by
    have hk := ((g.mem_loadNodes root).mp hm).2
    rw [hload] at hm
    rw [List.mem_singleton.mp hm] at hk ⊢
    exact ⟨n, hvisit, hk, rfl⟩
  fields_le := by
    by_contra hlt
    obtain ⟨m₀, hm₀, h₀⟩ := Jit.exists_load_of_lt (show 0 < (g.fieldNames root).length by omega)
    obtain ⟨m₁, hm₁, h₁⟩ := Jit.exists_load_of_lt (show 1 < (g.fieldNames root).length by omega)
    rw [hload] at hm₀ hm₁
    rw [List.mem_singleton.mp hm₀] at h₀
    rw [List.mem_singleton.mp hm₁, h₀] at h₁
    exact absurd h₁ (by omega)

/-- Nodes of one index have one name. -/
theorem fieldName_eq_of_fieldIdx
    (hcompile : Jit.compile mode heap g (some root) st = (some code, st')) {m n : NodeRef}
    (hm : m ∈ g.loadNodes root) (hn : n ∈ g.loadNodes root)
    (h : (st'.metas m).fieldIdx = (st'.metas n).fieldIdx) :
    (g.node m).fieldName = (g.node n).fieldName := by
  rw [Jit.fieldIdx_of_compile hcompile hm, Jit.fieldIdx_of_compile hcompile hn,
    Int.natCast_inj] at h
  obtain ⟨hmem, hk⟩ := (g.mem_loadNodes root).mp hm
  exact List.idxOf_inj (Jit.Graph.name_mem_fieldNames hmem hk) |>.mp h

/-- **What is installed in the slot of a visited field.** -/
theorem slotsOf_getD (hcompile : Jit.compile mode heap g (some root) st = (some code, st'))
    {m : NodeRef} (hm : m ∈ g.visits root) (hk : g.kind m = .load) {i : ℕ}
    (hidx : (st'.metas m).fieldIdx = (i : ℕ)) (hi : i < 8) :
    (slotsOf schemaName registry g st'.metas root).getD i none =
      registry.getField schemaName (g.node m).fieldName := by
  rw [slotsOf, getD_trim hi, collectFields_eq]
  refine slot_eq hm hk hidx hi fun m' hm' hk' hidx' => ?_
  exact fieldName_eq_of_fieldIdx hcompile (mem_loadNodes_of_visited hm' hk')
    (mem_loadNodes_of_visited hm hk) (hidx'.trans hidx.symm)

theorem length_collectFields (ms : NodeMetas) :
    (collectFields schemaName registry g ms root noSlots).length = 8 := by
  rw [collectFields_eq, length_foldl_bindNode]
  rfl

/-- A slot that is bound is not cut off. -/
theorem lt_length_slotsOf {ms : NodeMetas} {i : ℕ} (hi : i < 8)
    (h : ((slotsOf schemaName registry g ms root).getD i none).isSome) :
    i < (slotsOf schemaName registry g ms root).length := by
  rw [slotsOf, getD_trim hi] at h
  rw [slotsOf, length_trim (length_collectFields ms)]
  exact (maxIdx_spec _).2.1 i hi h

/-- A slot that is bound is one of the eight. -/
theorem lt_of_slot {ms : NodeMetas} {i : ℕ} {field : FieldDescriptor}
    (hslot : (slotsOf schemaName registry g ms root).getD i none = some field) : i < 8 := by
  by_contra hge
  have hlen : (slotsOf schemaName registry g ms root).length ≤ 8 := by
    rw [slotsOf, length_trim (length_collectFields ms)]
    exact (maxIdx_spec _).1
  rw [List.getD_eq_getElem?_getD, List.getElem?_eq_none (by omega)] at hslot
  exact absurd hslot (by simp)

/-- A slot that is bound is that of a visited field, and has what is registered for it. -/
theorem resolved_of_slot (hcompile : Jit.compile mode heap g (some root) st = (some code, st'))
    {n : NodeRef} (hn : n ∈ g.loadNodes root) {i : ℕ} (hidx : (st'.metas n).fieldIdx = (i : ℕ))
    (hi : i < 8) {field : FieldDescriptor}
    (hslot : (slotsOf schemaName registry g st'.metas root).getD i none = some field) :
    registry.getField schemaName (g.node n).fieldName = some field ∧
      ∃ m ∈ g.visits root, g.kind m = .load ∧ (g.node m).fieldName = (g.node n).fieldName := by
  have hvisited : ∃ m ∈ g.visits root, g.kind m = .load ∧ (st'.metas m).fieldIdx = (i : ℕ) := by
    by_contra hnot
    have hnone : (slotsOf schemaName registry g st'.metas root).getD i none = none := by
      rw [slotsOf, getD_trim hi, collectFields_eq]
      exact slot_eq_none hi fun m hm hk hidx' => hnot ⟨m, hm, hk, hidx'⟩
    rw [hslot] at hnone
    exact absurd hnone (by simp)
  obtain ⟨m, hm, hk, hidx'⟩ := hvisited
  have hname := fieldName_eq_of_fieldIdx hcompile (mem_loadNodes_of_visited hm hk) hn
    (hidx'.trans hidx.symm)
  rw [slotsOf_getD hcompile hm hk hidx' hi, hname] at hslot
  exact ⟨hslot, m, hm, hk, hname⟩

/-- **A kernel has what it needs exactly when its expression resolves.** -/
theorem binds_iff (hcompile : Jit.compile mode heap g (some root) st = (some code, st')) :
    Binds schemaName registry g root st'.metas (slotsOf schemaName registry g st'.metas root) ↔
      Resolves schemaName registry g root := by
  constructor
  · intro h
    refine ⟨fun n hn => ?_, fun n hn => ?_, ?_⟩
    · obtain ⟨i, field, -, -, -, hfield⟩ := h n hn
      rw [hfield]
      rfl
    · obtain ⟨i, field, hidx, hi, hslot, -⟩ := h n hn
      exact (resolved_of_slot hcompile hn hidx (by omega) hslot).2
    · by_contra hlt
      obtain ⟨n, hn, hidx⟩ := Jit.exists_load_of_lt (show 8 < (g.fieldNames root).length by omega)
      obtain ⟨i, field, hidx', hi, -⟩ := h n hn
      rw [Jit.fieldIdx_of_compile hcompile hn, Int.natCast_inj] at hidx'
      omega
  · rintro ⟨hreg, hvis, hle⟩ n hn
    obtain ⟨m, hm, hk, hname⟩ := hvis n hn
    obtain ⟨field, hfield⟩ := Option.isSome_iff_exists.mp (hreg n hn)
    obtain ⟨hmem, hkn⟩ := (g.mem_loadNodes root).mp hn
    have hidx := Jit.fieldIdx_of_compile hcompile hn
    have hidxm := Jit.fieldIdx_of_compile hcompile (mem_loadNodes_of_visited hm hk)
    rw [hname] at hidxm
    have hi : (g.fieldNames root).idxOf (g.node n).fieldName < 8 :=
      (List.idxOf_lt_length_of_mem (Jit.Graph.name_mem_fieldNames hmem hkn)).trans_le hle
    have hslot : (slotsOf schemaName registry g st'.metas root).getD _ none = _ :=
      slotsOf_getD hcompile hm hk hidxm hi
    rw [hname, hfield] at hslot
    exact ⟨_, field, hidx, Nat.lt_min.mpr ⟨lt_length_slotsOf hi (by rw [hslot]; rfl), hi⟩, hslot,
      hfield⟩

/-- **An expression that does not resolve** has a field whose slot is null, if it has no more
names than there are slots. -/
theorem exists_null_slot (hcompile : Jit.compile mode heap g (some root) st = (some code, st'))
    (hle : (g.fieldNames root).length ≤ 8) (hnot : ¬ Resolves schemaName registry g root) :
    ∃ n ∈ g.loadNodes root, ∃ i < 8, (st'.metas n).fieldIdx = (i : ℕ) ∧
      (slotsOf schemaName registry g st'.metas root).getD i none = none := by
  by_contra hnone
  have hslot : ∀ n ∈ g.loadNodes root,
      (registry.getField schemaName (g.node n).fieldName).isSome ∧
        ∃ m ∈ g.visits root, g.kind m = .load ∧ (g.node m).fieldName = (g.node n).fieldName := by
    intro n hn
    obtain ⟨hmem, hk⟩ := (g.mem_loadNodes root).mp hn
    have hidx := Jit.fieldIdx_of_compile hcompile hn
    have hi := (List.idxOf_lt_length_of_mem (Jit.Graph.name_mem_fieldNames hmem hk)).trans_le hle
    cases h : (slotsOf schemaName registry g st'.metas root).getD
        ((g.fieldNames root).idxOf (g.node n).fieldName) none with
    | none => exact absurd ⟨n, hn, _, hi, hidx, h⟩ hnone
    | some field =>
      obtain ⟨hfield, hvisited⟩ := resolved_of_slot hcompile hn hidx hi h
      exact ⟨by rw [hfield]; rfl, hvisited⟩
  exact hnot ⟨fun n hn => (hslot n hn).1, fun n hn => (hslot n hn).2, hle⟩

/-- **No slot of a resolved expression is null**, so a worker may dereference them all. -/
theorem slotsOf_isSome (hcompile : Jit.compile mode heap g (some root) st = (some code, st'))
    (hres : Resolves schemaName registry g root) :
    ∀ i < (slotsOf schemaName registry g st'.metas root).length,
      ((slotsOf schemaName registry g st'.metas root).getD i none).isSome := by
  have hbinds : Binds schemaName registry g root st'.metas
      (slotsOf schemaName registry g st'.metas root) := (binds_iff hcompile).mpr hres
  have hnames : ∀ i < (g.fieldNames root).length,
      ((slotsOf schemaName registry g st'.metas root).getD i none).isSome := by
    intro i hi
    obtain ⟨n, hn, hidx⟩ := Jit.exists_load_of_lt hi
    obtain ⟨i', field, hidx', -, hslot, -⟩ := hbinds n hn
    rw [Jit.fieldIdx_of_compile hcompile hn, hidx, Int.natCast_inj] at hidx'
    rw [hidx', hslot]
    rfl
  have hrest : ∀ i, (g.fieldNames root).length ≤ i → i < 8 →
      (slotsOf schemaName registry g st'.metas root).getD i none = none := by
    intro i hle hi
    rw [slotsOf, getD_trim hi, collectFields_eq]
    refine slot_eq_none hi fun m hm hk hidx => ?_
    have hmem := mem_loadNodes_of_visited hm hk
    obtain ⟨hlist, -⟩ := (g.mem_loadNodes root).mp hmem
    rw [Jit.fieldIdx_of_compile hcompile hmem, Int.natCast_inj] at hidx
    have := List.idxOf_lt_length_of_mem (Jit.Graph.name_mem_fieldNames hlist hk)
    omega
  have hlen : (slotsOf schemaName registry g st'.metas root).length =
      (g.fieldNames root).length := by
    rw [slotsOf, length_trim (length_collectFields _)]
    refine maxIdx_eq hres.fields_le (fun i hi => ?_) fun i hle hi => ?_
    · have := hnames i hi
      rwa [slotsOf, getD_trim (hi.trans_le hres.fields_le)] at this
    · have := hrest i hle hi
      rwa [slotsOf, getD_trim hi] at this
  intro i hi
  exact hnames i (by omega)

/-- An installed logic with the expression it was compiled from: the slots have what the
kernel reads, and none of them is null. -/
structure Installed (e : Engine) (schemaName : Name) (logic : ExprCompiledLogic) (g : Graph)
    (root : NodeRef) (compiled : CompileState) : Prop where
  kernel : ∃ heap st, Jit.compile logic.mode heap g (some root) st = (some logic.kernel, compiled)
  binds : Binds schemaName e.registry g root compiled.metas logic.fields
  bound : ∀ i < logic.fields.length, (logic.fields.getD i none).isSome

/-- The bound slots of a logic have room for the fields of its expression, so only the
nodes of a scalar expression are left to fit. -/
theorem Installed.fits {e : Engine} {logic : ExprCompiledLogic} {compiled : CompileState}
    (h : Installed e schemaName logic g root compiled)
    (hnodes : logic.mode = .scalar → (g.listing root).length ≤ 512) :
    Jit.Fits g logic.mode root := by
  obtain ⟨heap, st, hcompile⟩ := h.kernel
  refine fun hmode => ⟨?_, hnodes hmode⟩
  by_contra hlt
  obtain ⟨n, hn, hidx⟩ := Jit.exists_load_of_lt (show 8 < (g.fieldNames root).length by omega)
  obtain ⟨i, field, hidx', hi, -⟩ := h.binds n hn
  rw [Jit.fieldIdx_of_compile hcompile hn, Int.natCast_inj] at hidx'
  omega

/-- **`set_expression` installs a logic** for every expression that resolves and has a
kernel. -/
theorem installed_setExpression {e : Engine}
    (hcompile : Jit.compile mode heap g (some root) st = (some code, st'))
    (hres : Resolves schemaName e.registry g root) :
    Installed (e.setExpression schemaName heap g (some root) mode st).1 schemaName
      ⟨code, slotsOf schemaName e.registry g st'.metas root, mode⟩ g root st' := by
  rw [setExpression_some e schemaName hcompile]
  exact ⟨⟨heap, st, hcompile⟩, (binds_iff hcompile).mpr hres, slotsOf_isSome hcompile hres⟩

end Slots
end Api
end ApexEngine
