import ApexEngine.Jit.Analyzer
import ApexEngine.Machine.A64

/-!
# Field indices, constant planes, slots and carry registers

After the analysis the compilers give resources to the listed nodes, one loop for
each kind of resource.  A loop that runs out makes the compiler return null; what
it had already written into the nodes stays there, so a loop returns the metadata
in either case, under `Except.ok` or `Except.error`.

Each loop hands out numbers in list order.  The specifications say which number a
node gets by its position: of its name among the distinct names, of the node among
the arithmetic nodes, of the node among the adders.
-/

namespace ApexEngine
namespace Jit

open A64 (Word)
open Core (Name StringMap)

/-- Rewrite the metadata of one node. -/
def NodeMetas.modify (ms : NodeMetas) (n : NodeRef) (f : NodeMeta → NodeMeta) : NodeMetas :=
  Function.update ms n (f (ms n))

/-- Rewrite the metadata of listed nodes. -/
def NodeMetas.modifyAll (ms : NodeMetas) (l : List NodeRef) (f : NodeRef → NodeMeta → NodeMeta) :
    NodeMetas := fun n => if n ∈ l then f n (ms n) else ms n

theorem NodeMetas.modifyAll_nil (ms : NodeMetas) (f : NodeRef → NodeMeta → NodeMeta) :
    ms.modifyAll [] f = ms := by
  funext n
  simp [modifyAll]

/-- One node after another, each once. -/
theorem NodeMetas.modifyAll_cons (ms : NodeMetas) {n : NodeRef} {l : List NodeRef} (hn : n ∉ l)
    (f : NodeRef → NodeMeta → NodeMeta) :
    ms.modifyAll (n :: l) f = (ms.modify n (f n)).modifyAll l f := by
  funext m
  by_cases hm : m = n
  · subst hm
    simp [modifyAll, modify, hn]
  · simp [modifyAll, modify, hm]

theorem NodeMetas.modifyAll_congr {ms : NodeMetas} {l : List NodeRef}
    {f f' : NodeRef → NodeMeta → NodeMeta} (h : ∀ n ∈ l, f n = f' n) :
    ms.modifyAll l f = ms.modifyAll l f' := by
  funext m
  unfold modifyAll
  split
  · rename_i hm
    rw [h m hm]
  · rfl

/-! ## Field indices -/

/-- The loop that numbers the fields of the LOAD nodes by name.  `full` is the
test for the limit on distinct fields. -/
def assignFields (g : Graph) (full : ℕ → Bool) :
    List NodeRef → StringMap ℕ → NodeMetas → Except NodeMetas NodeMetas
  | [], _, ms => .ok ms
  | n :: ns, fieldToIdx, ms =>
      match fieldToIdx.lookup (g.node n).fieldName with
      | some i => assignFields g full ns fieldToIdx (ms.modify n fun m => { m with fieldIdx := i })
      | none =>
          if full fieldToIdx.entries.length then .error ms
          else
            assignFields g full ns
              (fieldToIdx.insert (g.node n).fieldName fieldToIdx.entries.length)
              (ms.modify n fun m => { m with fieldIdx := fieldToIdx.entries.length })

/-- Add the name of a node to a list of names if it is new. -/
def addName (g : Graph) (names : List Name) (n : NodeRef) : List Name :=
  if (g.node n).fieldName ∈ names then names else names ++ [(g.node n).fieldName]

/-- The distinct names of some nodes in order of first appearance, after given
ones. -/
def distinctNames (g : Graph) (names : List Name) (ns : List NodeRef) : List Name :=
  ns.foldl (addName g) names

section Fields

variable {g : Graph} {names : List Name}

theorem addName_extends (n : NodeRef) : names <+: addName g names n := by
  unfold addName
  split
  · exact List.prefix_rfl
  · exact List.prefix_append _ _

theorem name_mem_addName (n : NodeRef) : (g.node n).fieldName ∈ addName g names n := by
  unfold addName
  split
  · assumption
  · simp

theorem nodup_addName (h : names.Nodup) (n : NodeRef) : (addName g names n).Nodup := by
  unfold addName
  split
  · exact h
  · rename_i hn
    exact h.append (List.nodup_singleton _) (by simpa using hn)

theorem distinctNames_cons (n : NodeRef) (ns : List NodeRef) :
    distinctNames g names (n :: ns) = distinctNames g (addName g names n) ns := rfl

theorem distinctNames_extends (ns : List NodeRef) : names <+: distinctNames g names ns := by
  induction ns generalizing names with
  | nil => exact List.prefix_rfl
  | cons n ns ih => exact (addName_extends n).trans ih

theorem name_mem_distinctNames {n : NodeRef} {ns : List NodeRef} (hn : n ∈ ns) :
    (g.node n).fieldName ∈ distinctNames g names ns := by
  induction ns generalizing names with
  | nil => exact absurd hn (by simp)
  | cons m ns ih =>
    rcases List.mem_cons.mp hn with rfl | hn
    · exact (distinctNames_extends ns).subset (name_mem_addName n)
    · exact ih hn

/-- Only names of the nodes are added. -/
theorem mem_distinctNames {ns : List NodeRef} {x : Name} (hx : x ∈ distinctNames g names ns) :
    x ∈ names ∨ ∃ n ∈ ns, (g.node n).fieldName = x := by
  induction ns generalizing names with
  | nil => exact Or.inl hx
  | cons m ns ih =>
    rcases ih hx with hx | ⟨n, hn, hname⟩
    · unfold addName at hx
      split at hx
      · exact Or.inl hx
      · rcases List.mem_append.mp hx with hx | hx
        · exact Or.inl hx
        · exact Or.inr ⟨m, by simp, (List.mem_singleton.mp hx).symm⟩
    · exact Or.inr ⟨n, by simp [hn], hname⟩

theorem nodup_distinctNames (h : names.Nodup) (ns : List NodeRef) :
    (distinctNames g names ns).Nodup := by
  induction ns generalizing names with
  | nil => exact h
  | cons n ns ih => exact ih (nodup_addName h n)

/-- An index in a list is the index in a longer one. -/
theorem idxOf_of_extends {names names' : List Name} (h : names <+: names') {x : Name}
    (hx : x ∈ names) : names'.idxOf x = names.idxOf x := by
  obtain ⟨t, rfl⟩ := h
  exact List.idxOf_append_of_mem hx

/-- The map the loop keeps gives each name seen its position. -/
structure Numbering (m : StringMap ℕ) (names : List Name) : Prop where
  length_eq : m.entries.length = names.length
  lookup_eq : ∀ x, m.lookup x = if x ∈ names then some (names.idxOf x) else none

theorem Numbering.empty : Numbering ∅ [] := ⟨rfl, fun x => by simp⟩

theorem Numbering.insert {m : StringMap ℕ} (h : Numbering m names) {x : Name} (hx : x ∉ names) :
    Numbering (m.insert x m.entries.length) (names ++ [x]) where
  length_eq := by
    have hm : x ∉ m := by
      rw [← AList.lookup_eq_none, h.lookup_eq, if_neg hx]
    rw [AList.entries_insert_of_notMem hm, List.length_cons, h.length_eq, List.length_append,
      List.length_singleton]
  lookup_eq y := by
    by_cases hy : y = x
    · subst hy
      rw [AList.lookup_insert, if_pos (by simp), List.idxOf_append_of_notMem hx, h.length_eq]
      simp
    · rw [AList.lookup_insert_ne hy, h.lookup_eq]
      by_cases hmem : y ∈ names
      · rw [if_pos hmem, if_pos (List.mem_append_left _ hmem), List.idxOf_append_of_mem hmem]
      · rw [if_neg hmem, if_neg (by simp [hmem, hy])]

/-- **The numbering of the fields.**  When the loop is never full, every node gets
the position of its name among the distinct names. -/
theorem assignFields_ok (full : ℕ → Bool) {ns : List NodeRef} {m : StringMap ℕ} (ms : NodeMetas)
    (hnum : Numbering m names) (hnd : ns.Nodup)
    (hfull : ∀ k < (distinctNames g names ns).length, full k = false) :
    assignFields g full ns m ms = .ok (ms.modifyAll ns fun n x =>
      { x with fieldIdx := (distinctNames g names ns).idxOf (g.node n).fieldName }) := by
  induction ns generalizing m ms names with
  | nil => rw [assignFields, NodeMetas.modifyAll_nil]
  | cons n ns ih =>
    obtain ⟨hn, hnd⟩ := List.nodup_cons.mp hnd
    rw [distinctNames_cons] at hfull ⊢
    rw [NodeMetas.modifyAll_cons _ hn]
    have hidx : (distinctNames g (addName g names n) ns).idxOf (g.node n).fieldName =
        (addName g names n).idxOf (g.node n).fieldName :=
      idxOf_of_extends (distinctNames_extends ns) (name_mem_addName n)
    rw [assignFields, hnum.lookup_eq]
    by_cases hmem : (g.node n).fieldName ∈ names
    · have hadd : addName g names n = names := by rw [addName, if_pos hmem]
      rw [if_pos hmem, hidx, hadd]
      rw [hadd] at hfull
      exact ih _ hnum hnd hfull
    · have hadd : addName g names n = names ++ [(g.node n).fieldName] := by
        rw [addName, if_neg hmem]
      have hlen : full m.entries.length = false := by
        refine hfull _ ?_
        have := (@distinctNames_extends g (addName g names n) ns).length_le
        rw [hadd, List.length_append, List.length_singleton] at this
        rw [hadd, hnum.length_eq]
        omega
      have hpos : (addName g names n).idxOf (g.node n).fieldName = m.entries.length := by
        rw [hadd, List.idxOf_append_of_notMem hmem, hnum.length_eq]
        simp
      rw [if_neg hmem]
      simp only [hlen, Bool.false_eq_true, if_false]
      rw [hidx, hpos, ih _ (hadd ▸ hnum.insert hmem) hnd hfull]

/-- With more distinct names than the limit the loop gives up. -/
theorem assignFields_error {full : ℕ → Bool} {limit : ℕ} (hlimit : full limit = true)
    {ns : List NodeRef} {m : StringMap ℕ} (ms : NodeMetas) (hnum : Numbering m names)
    (hle : names.length ≤ limit) (hlt : limit < (distinctNames g names ns).length) :
    ∃ ms', assignFields g full ns m ms = .error ms' := by
  induction ns generalizing m ms names with
  | nil => exact absurd hle (Nat.not_le.mpr hlt)
  | cons n ns ih =>
    rw [distinctNames_cons] at hlt
    rw [assignFields, hnum.lookup_eq]
    by_cases hmem : (g.node n).fieldName ∈ names
    · rw [if_pos hmem]
      rw [addName, if_pos hmem] at hlt
      exact ih _ hnum hle hlt
    · rw [addName, if_neg hmem] at hlt
      rw [if_neg hmem]
      simp only
      by_cases hf : full m.entries.length = true
      · exact ⟨ms, by rw [if_pos hf]⟩
      · rw [if_neg hf]
        refine ih _ (hnum.insert hmem) ?_ hlt
        -- a length that is not full is not the limit
        have hne : names.length ≠ limit := fun h => hf (by rw [hnum.length_eq, h, hlimit])
        rw [List.length_append, List.length_singleton]
        omega

end Fields

/-! ## Constant planes -/

/-- The constants of `ConstPool::pools` with the addresses of their planes, in the
order of their creation. -/
abbrev ConstPool := List (Word × Word)

/-- `ConstPool::get_or_create`.  `heap k` is the address that the allocation of the
`k`-th array returns. -/
def ConstPool.getOrCreate (heap : ℕ → Word) (pool : ConstPool) (constValue : Word) :
    Word × ConstPool :=
  match pool.find? fun e => e.1 == constValue with
  | some e => (e.2, pool)
  | none => (heap pool.length, pool ++ [(constValue, heap pool.length)])

theorem ConstPool.getOrCreate_extends (heap : ℕ → Word) (pool : ConstPool) (v : Word) :
    pool <+: (pool.getOrCreate heap v).2 := by
  unfold getOrCreate
  split
  · exact List.prefix_rfl
  · exact List.prefix_append _ _

theorem ConstPool.getOrCreate_mem (heap : ℕ → Word) (pool : ConstPool) (v : Word) :
    (v, (pool.getOrCreate heap v).1) ∈ (pool.getOrCreate heap v).2 := by
  unfold getOrCreate
  split
  · rename_i e he
    have hmem := List.mem_of_find?_eq_some he
    have hv : e.1 = v := by simpa using List.find?_some he
    rw [← hv]
    exact hmem
  · simp

/-- The loop that slices the CONST nodes: the planes of each, the pool after it, and
the mark it leaves in the metadata. -/
def assignConsts (heap : ℕ → Word) (g : Graph) :
    List NodeRef → (NodeRef → Word) → ConstPool → NodeMetas →
      (NodeRef → Word) × ConstPool × NodeMetas
  | [], constBitPlanes, pool, ms => (constBitPlanes, pool, ms)
  | n :: ns, constBitPlanes, pool, ms =>
      assignConsts heap g ns
        (Function.update constBitPlanes n (pool.getOrCreate heap (g.node n).constValue).1)
        (pool.getOrCreate heap (g.node n).constValue).2
        (ms.modify n fun m => { m with fieldIdx := -2 })

section Consts

variable (heap : ℕ → Word) (g : Graph)

/-- Nodes that are not listed keep their planes. -/
theorem assignConsts_of_notMem {ns : List NodeRef} {k : NodeRef → Word} {pool : ConstPool}
    {ms : NodeMetas} {n : NodeRef} (hn : n ∉ ns) : (assignConsts heap g ns k pool ms).1 n = k n := by
  induction ns generalizing k pool ms with
  | nil => rfl
  | cons m ns ih =>
    rw [List.mem_cons, not_or] at hn
    rw [assignConsts, ih hn.2, Function.update_of_ne hn.1]

theorem assignConsts_extends (ns : List NodeRef) (k : NodeRef → Word) (pool : ConstPool)
    (ms : NodeMetas) : pool <+: (assignConsts heap g ns k pool ms).2.1 := by
  induction ns generalizing k pool ms with
  | nil => exact List.prefix_rfl
  | cons n ns ih => exact (pool.getOrCreate_extends heap _).trans (ih ..)

/-- **Every listed constant is in the pool under the address its node is given.** -/
theorem assignConsts_mem {ns : List NodeRef} (hnd : ns.Nodup) (k : NodeRef → Word)
    (pool : ConstPool) (ms : NodeMetas) {n : NodeRef} (hn : n ∈ ns) :
    ((g.node n).constValue, (assignConsts heap g ns k pool ms).1 n) ∈
      (assignConsts heap g ns k pool ms).2.1 := by
  induction ns generalizing k pool ms with
  | nil => exact absurd hn (by simp)
  | cons m ns ih =>
    obtain ⟨hm, hnd⟩ := List.nodup_cons.mp hnd
    rcases List.mem_cons.mp hn with rfl | hn
    · rw [assignConsts, assignConsts_of_notMem heap g hm, Function.update_self]
      exact (assignConsts_extends heap g ns _ _ _).subset (pool.getOrCreate_mem heap _)
    · exact ih hnd _ _ _ hn

theorem assignConsts_metas {ns : List NodeRef} (hnd : ns.Nodup) (k : NodeRef → Word)
    (pool : ConstPool) (ms : NodeMetas) :
    (assignConsts heap g ns k pool ms).2.2 =
      ms.modifyAll ns fun _ x => { x with fieldIdx := -2 } := by
  induction ns generalizing k pool ms with
  | nil => rw [NodeMetas.modifyAll_nil]; rfl
  | cons n ns ih =>
    obtain ⟨hn, hnd⟩ := List.nodup_cons.mp hnd
    rw [NodeMetas.modifyAll_cons _ hn, assignConsts, ih hnd]

/-- What the metadata contain has no part in the planes and the pool. -/
theorem assignConsts_of_metas (ns : List NodeRef) (k : NodeRef → Word) (pool : ConstPool)
    (ms ms' : NodeMetas) :
    (assignConsts heap g ns k pool ms).1 = (assignConsts heap g ns k pool ms').1 ∧
      (assignConsts heap g ns k pool ms).2.1 = (assignConsts heap g ns k pool ms').2.1 := by
  induction ns generalizing k pool ms ms' with
  | nil => exact ⟨rfl, rfl⟩
  | cons n ns ih =>
    rw [assignConsts, assignConsts]
    exact ih _ _ _ _

end Consts

/-! ## Scratchpad slots -/

/-- `ScratchpadManager`: which of the eight slots are in use. -/
structure ScratchpadManager where
  used : List Bool := List.replicate 8 false

namespace ScratchpadManager

/-- `ScratchpadManager::alloc_slot`: the first free slot, or `-1`. -/
def allocSlot (s : ScratchpadManager) : ℤ × ScratchpadManager :=
  match s.used.findIdx? fun u => !u with
  | some i => (i, ⟨s.used.set i true⟩)
  | none => (-1, s)

/-- The manager after `k` allocations. -/
def afterAllocs (k : ℕ) : ScratchpadManager :=
  ⟨List.replicate k true ++ List.replicate (8 - k) false⟩

theorem allocSlot_afterAllocs {k : ℕ} (hk : k < 8) :
    (afterAllocs k).allocSlot = ((k : ℤ), afterAllocs (k + 1)) := by
  have hrep : List.replicate (8 - k) false = false :: List.replicate (8 - (k + 1)) false := by
    rw [← List.replicate_succ]
    congr 1
    omega
  have hidx : (afterAllocs k).used.findIdx? (fun u => !u) = some k := by
    rw [afterAllocs, hrep, List.findIdx?_append, List.findIdx?_replicate]
    simp [List.findIdx?_cons]
  rw [allocSlot, hidx]
  simp only [afterAllocs, hrep]
  rw [List.set_append_right _ _ (by simp), List.replicate_succ', List.append_assoc]
  simp

theorem allocSlot_full : (afterAllocs 8).allocSlot = (-1, afterAllocs 8) := rfl

end ScratchpadManager

/-- The loop that allocates the slots. -/
def assignSlots : List NodeRef → ScratchpadManager → NodeMetas → Except NodeMetas NodeMetas
  | [], _, ms => .ok ms
  | n :: ns, mgr, ms =>
      let (slotId, mgr) := mgr.allocSlot
      let ms := ms.modify n fun m => { m with slotId := slotId }
      if slotId < 0 then .error ms else assignSlots ns mgr ms

/-- **Slots are given in list order.** -/
theorem assignSlots_ok {ns : List NodeRef} (k : ℕ) (ms : NodeMetas) (hnd : ns.Nodup)
    (hlen : k + ns.length ≤ 8) :
    assignSlots ns (.afterAllocs k) ms =
      .ok (ms.modifyAll ns fun n x => { x with slotId := (k + ns.idxOf n : ℕ) }) := by
  induction ns generalizing k ms with
  | nil => rw [assignSlots, NodeMetas.modifyAll_nil]
  | cons n ns ih =>
    obtain ⟨hn, hnd⟩ := List.nodup_cons.mp hnd
    rw [List.length_cons] at hlen
    rw [assignSlots, ScratchpadManager.allocSlot_afterAllocs (by omega)]
    simp only [show ¬ ((k : ℤ) < 0) by omega, if_false]
    rw [ih _ _ hnd (by omega), NodeMetas.modifyAll_cons _ hn]
    simp only [List.idxOf_cons_self, Nat.add_zero]
    congr 1
    refine NodeMetas.modifyAll_congr fun m hm => ?_
    have hne : n ≠ m := fun h => hn (h ▸ hm)
    funext x
    rw [List.idxOf_cons_ne _ hne]
    congr 2
    omega

theorem assignSlots_error {ns : List NodeRef} (k : ℕ) (ms : NodeMetas) (hk : k ≤ 8)
    (hlen : 8 < k + ns.length) : ∃ ms', assignSlots ns (.afterAllocs k) ms = .error ms' := by
  induction ns generalizing k ms with
  | nil => exact absurd hlen (by simpa using hk)
  | cons n ns ih =>
    rw [List.length_cons] at hlen
    rw [assignSlots]
    rcases Nat.lt_or_eq_of_le hk with hlt | rfl
    · rw [ScratchpadManager.allocSlot_afterAllocs hlt]
      simp only [show ¬ ((k : ℤ) < 0) by omega, if_false]
      exact ih _ _ hlt (by omega)
    · rw [ScratchpadManager.allocSlot_full]
      exact ⟨ms.modify n fun m => { m with slotId := -1 }, rfl⟩

/-! ## Carry registers -/

/-- The nodes that need a carry. -/
def NodeKind.isAdder : NodeKind → Bool
  | .add | .sub => true
  | _ => false

theorem NodeKind.isAdder_iff {k : NodeKind} : k.isAdder = true ↔ k = .add ∨ k = .sub := by
  cases k <;> simp [isAdder]

theorem NodeKind.resultKind_of_isAdder {k : NodeKind} (h : k.isAdder = true) :
    k.resultKind = .bitplane := by
  rcases isAdder_iff.mp h with rfl | rfl <;> rfl

/-- The loop that gives carry registers to the adders. -/
def assignCarries (g : Graph) : List NodeRef → ℕ → NodeMetas → Except NodeMetas NodeMetas
  | [], _, ms => .ok ms
  | n :: ns, carryRegIdx, ms =>
      if (g.kind n).isAdder then
        if 8 ≤ carryRegIdx then .error ms
        else
          assignCarries g ns (carryRegIdx + 1) (ms.modify n fun m => { m with carryReg := carryRegIdx })
      else assignCarries g ns carryRegIdx ms

/-- The adders of a list. -/
def adders (g : Graph) (ns : List NodeRef) : List NodeRef := ns.filter fun n => (g.kind n).isAdder

theorem mem_adders {g : Graph} {ns : List NodeRef} {n : NodeRef} :
    n ∈ adders g ns ↔ n ∈ ns ∧ (g.kind n).isAdder = true := List.mem_filter

/-- **Carry registers are given to the adders in list order.** -/
theorem assignCarries_ok (g : Graph) {ns : List NodeRef} (k : ℕ) (ms : NodeMetas)
    (hnd : ns.Nodup) (hlen : k + ns.length ≤ 8) :
    assignCarries g ns k ms = .ok (ms.modifyAll (adders g ns) fun n x =>
      { x with carryReg := (k + (adders g ns).idxOf n : ℕ) }) := by
  induction ns generalizing k ms with
  | nil => rw [assignCarries, adders, List.filter_nil, NodeMetas.modifyAll_nil]
  | cons n ns ih =>
    obtain ⟨hn, hnd⟩ := List.nodup_cons.mp hnd
    rw [List.length_cons] at hlen
    rw [assignCarries]
    by_cases hk : (g.kind n).isAdder = true
    · have hn' : n ∉ adders g ns := fun h => hn (mem_adders.mp h).1
      have hadd : adders g (n :: ns) = n :: adders g ns := List.filter_cons_of_pos hk
      rw [if_pos hk, if_neg (by omega), ih _ _ hnd (by omega), hadd, NodeMetas.modifyAll_cons _ hn']
      simp only [List.idxOf_cons_self, Nat.add_zero]
      congr 1
      refine NodeMetas.modifyAll_congr fun m hm => ?_
      have hne : n ≠ m := fun h => hn' (h ▸ hm)
      funext x
      rw [List.idxOf_cons_ne _ hne]
      congr 2
      omega
    · have hadd : adders g (n :: ns) = adders g ns := List.filter_cons_of_neg hk
      rw [if_neg hk, ih _ _ hnd (by omega), hadd]

end Jit
end ApexEngine
