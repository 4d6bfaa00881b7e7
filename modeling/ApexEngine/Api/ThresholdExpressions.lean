import ApexEngine.Api.Written
import ApexEngine.Jit.NullSlots
import ApexEngine.Jit.Trichotomy

/-!
# Thresholds and the expression compilers

`set_logic(schema, f, T)` and `set_expression(schema, GT(Load(f), Const(T)), mode)` ask the same
of three code generators.  The expression is any node of any pool that the builder functions
have made for it, with whatever earlier expressions have left in the pointers of its three nodes
(`Graph.HasTerm`).

A kernel of either mode that runs decides the comparison as the threshold kernel does, for every
threshold (`Resolves.decides`).  What can go wrong is around the kernels.  `builder::Load` stores
at most 63 bytes of a name and none from a zero byte on, so the node may name no field, or
another one.  And the analysis follows the left-over pointers: what it finds there may be more
than the bit-sliced compiler has room for, and then nothing is installed, or a field that
`collect_fields` does not find or does not visit, and then the scalar kernel loads through a
null pointer (`count_eq_none_of_not_resolves`).

The three agree exactly when nothing of this happens (`thresholdsAgree_iff`).  In a pool that is
used for the first time nothing is left over, and only the name matters.
-/

namespace ApexEngine
namespace Api

open A64 (Word)
open Core (Name FieldDescriptor)
open Compute (Data ShowsFields Answers memcpy8 bytesAt memcpy8_bytesAt)
open Jit (ExecutionMode Caller CompileState StringView BuilderCall Session Graph NodeRef Term)

/-! ## Thresholds at two offsets -/

section Offsets

variable {field field' : FieldDescriptor} {T : Word}

/-- Different offsets are told apart by one row, unless no word exceeds the threshold. -/
theorem exists_exceeds_ne (hT : T ≠ BitVec.allOnes 64)
    (hne : field'.offset ≠ field.offset) :
    ∃ data, exceeds T field data ≠ exceeds T field' data := by
  have hlt : T.toNat + 1 < 2 ^ 64 := by
    have := mt BitVec.eq_of_toNat_eq hT
    rw [BitVec.toNat_allOnes] at this
    omega
  have hword : ∀ a k, k ≠ 0 → (T < memcpy8 (bytesAt a (T.toNat + 1)) a) ∧
      ¬ T < memcpy8 (bytesAt a (T.toNat + 1)) (a + k) := by
    intro a k hk
    have hself : memcpy8 (bytesAt a (T.toNat + 1)) a = BitVec.ofNat 64 (T.toNat + 1) := by
      have := memcpy8_bytesAt (a := a) hlt 0
      rwa [pow_zero, Nat.div_one] at this
    have hdiv : (T.toNat + 1) / 256 ^ k < T.toNat + 1 :=
      Nat.div_lt_self (Nat.succ_pos _) (Nat.one_lt_pow hk (by omega))
    rw [hself, memcpy8_bytesAt hlt]
    simp only [BitVec.lt_def, BitVec.toNat_ofNat]
    rw [Nat.mod_eq_of_lt hlt, Nat.mod_eq_of_lt (hdiv.trans hlt)]
    omega
  rcases Nat.lt_trichotomy field.offset.toNat field'.offset.toNat with h | h | h
  · obtain ⟨k, hk⟩ := Nat.exists_eq_add_of_lt h
    obtain ⟨hyes, hno⟩ := hword field.offset.toNat (k + 1) (Nat.succ_ne_zero k)
    rw [← Nat.add_assoc, ← hk] at hno
    exact ⟨_, by rw [exceeds, exceeds, decide_eq_true hyes, decide_eq_false hno]; decide⟩
  · exact absurd (BitVec.eq_of_toNat_eq h.symm) hne
  · obtain ⟨k, hk⟩ := Nat.exists_eq_add_of_lt h
    obtain ⟨hyes, hno⟩ := hword field'.offset.toNat (k + 1) (Nat.succ_ne_zero k)
    rw [← Nat.add_assoc, ← hk] at hno
    exact ⟨_, by rw [exceeds, exceeds, decide_eq_true hyes, decide_eq_false hno]; decide⟩

/-- When the offset is the same, or no word exceeds the threshold, the same rows match. -/
theorem exceeds_congr (h : field'.offset = field.offset ∨ T = BitVec.allOnes 64) :
    exceeds T field' = exceeds T field := by
  funext data
  rcases h with h | rfl
  · rw [exceeds, exceeds, h]
  · rw [exceeds_allOnes, exceeds_allOnes]

/-- Only then, as one row shows. -/
theorem offset_eq_of_countP (stride : ℕ) (h : ∀ data : Data,
      (List.range 1).countP (fun i => exceeds T field (datasetRow data stride i)) =
        (List.range 1).countP fun i => exceeds T field' (datasetRow data stride i)) :
    field'.offset = field.offset ∨ T = BitVec.allOnes 64 := by
  by_contra hnot
  obtain ⟨hoffset, hT⟩ := not_or.mp hnot
  obtain ⟨data, hdata⟩ := exists_exceeds_ne hT hoffset
  have hrow : datasetRow data stride 0 = data :=
    funext fun a => by rw [datasetRow, Nat.zero_mul, Nat.zero_add]
  have hcount := h data
  simp only [List.range_one, List.countP_singleton, hrow] at hcount
  apply hdata
  cases hf : exceeds T field data <;> cases hf' : exceeds T field' data <;>
    simp [hf, hf'] at hcount ⊢

end Offsets

/-! ## The expression -/

/-- What the builder is called for: `GT(Load(v), Const(T))`. -/
def thresholdTerm (v : StringView) (T : Word) : Term .bitmask :=
  .compare .gt (.load v) (.const T)

section Expression

variable {e : Engine} {s : Name} {schema : SchemaMetadata} {v : StringView}
  {field field' : FieldDescriptor} {T : Word} {g : Graph} {root : NodeRef}
  {heap : ℕ → Word} {st : CompileState} {callers : ℕ → Caller} {order : IterationOrder}

/-- **Nodes of the builder**: whatever a thread has built before, a result of the calls for the
expression is a node of it, in a graph with room in a scratchpad. -/
theorem hasTerm_build {calls : List BuilderCall} (hrun : Session.Run calls)
    (hroot : ((thresholdTerm v T).build (Session.run calls)).1 = some root) :
    ∃ more, ((thresholdTerm v T).build (Session.run calls)).2 = Session.run (calls ++ more) ∧
      ∀ hordered : (Session.run (calls ++ more)).pool.Ordered,
        ((Session.run (calls ++ more)).pool.graph hordered).HasTerm (thresholdTerm v T) root ∧
        (((Session.run (calls ++ more)).pool.graph hordered).listing root).length ≤ 512 := by
  obtain ⟨r, more, hbuild, hb⟩ := Session.buildable (thresholdTerm v T) calls hrun
  rw [hbuild] at hroot ⊢
  obtain rfl : r = some root := hroot
  have hlt := (Session.wellFormed_run hb.run).taken root hb.mem
  refine ⟨more, rfl, fun hordered => ⟨(hb.spells root rfl).hasTerm hordered hlt, ?_⟩⟩
  exact (Jit.NodePool.length_listing_le hordered (hlt.trans_le (Session.nextIdx_le _))).trans
    (by decide)

/-- The nodes of a pool that has built nothing else. -/
theorem hasTerm_threshold (v : StringView) (T : Word) :
    (Jit.thresholdGraph v T).HasTerm (thresholdTerm v T) 2 :=
  ⟨0, 1, ⟨_, rfl, rfl⟩, ⟨_, rfl, rfl⟩, ⟨_, rfl, rfl⟩⟩

theorem builds_of_hasTerm (h : g.HasTerm (thresholdTerm v T) root) :
    ∃ l c, g.Builds .gt root l c ∧ g.kind l = .load ∧ (g.node l).fieldName = Jit.storedName v ∧
      g.kind c = .const ∧ (g.node c).constValue = T := by
  obtain ⟨l, c, hgt, hl, hc⟩ := h
  obtain ⟨hk, hleft, hright⟩ := hgt.compare
  obtain ⟨hlk, hname⟩ := Jit.Node.MadeBy.load hl
  obtain ⟨hck, hvalue⟩ := Jit.Node.MadeBy.const hc
  exact ⟨l, c, .gt hk hleft hright, hlk, hname, hck, hvalue⟩

/-- The name in its first node leads to a field, when the expression resolves. -/
theorem Resolves.getField (hres : Resolves s e.registry g root)
    (hterm : g.HasTerm (thresholdTerm v T) root) :
    ∃ field', e.registry.getField s (Jit.storedName v) = some field' := by
  obtain ⟨l, c, ⟨-, hl, -⟩, hlk, hname, -⟩ := builds_of_hasTerm hterm
  have hlisted := Graph.mem_listing_left (g.root_mem_listing root) hl
  rw [← hname]
  exact Option.isSome_iff_exists.mp
    (hres.registered l ((g.mem_loadNodes root).mpr ⟨hlisted, hlk⟩))

/-- **A kernel of the expression** decides what the threshold does, at the offset of the field
that the node names, in either mode. -/
theorem Resolves.decides (hres : Resolves s e.registry g root)
    (hterm : g.HasTerm (thresholdTerm v T) root) (hnodes : (g.listing root).length ≤ 512)
    (harith : (g.arithmeticNodes root).length ≤ 8) (mode : ExecutionMode)
    (hpool : ∀ row, (Jit.compile mode heap g (some root) st).2.pool ⊆ (callers row).pool)
    (hfield : e.registry.getField s (Jit.storedName v) = some field') :
    ∃ logic, (e.setExpression s heap g (some root) mode st).1 =
        { e with exprLogic := e.exprLogic.insert s logic } ∧
      Decides callers logic (exceeds T field') := by
  obtain ⟨l, c, hbuilds, hlk, hname, hck, hvalue⟩ := builds_of_hasTerm hterm
  obtain ⟨code, hcode⟩ := Option.isSome_iff_exists.mp
    ((Jit.compile_isSome_iff mode heap g root st).mpr fun _ => ⟨hres.fields_le, harith⟩)
  obtain ⟨st', hcompile⟩ : ∃ st', Jit.compile mode heap g (some root) st = (some code, st') :=
    ⟨_, Prod.ext hcode rfl⟩
  rw [hcompile] at hpool
  rw [setExpression_some e s hcompile]
  refine ⟨_, rfl, fun row bytes => ?_⟩
  refine (answers_of_compile hcompile (fun _ => ⟨hres.fields_le, hnodes⟩) (hpool row)
    ((binds_iff hcompile).mpr hres) bytes).mono (fun S hzero => ?_) ?_
  · rw [hzero]
    exact Jit.keeps_zero _ _ _ _
  · rintro m S ⟨rfl, -⟩ r hr
    rw [hbuilds.kernelMask_getLsbD (.load hlk) (.const hck) _ _ _ _ _ hr,
      decide_eq_true (Or.inr (by decide)), Bool.and_true, Graph.value_eq, Graph.value_eq,
      Graph.valueStep, Graph.valueStep, hlk, hck]
    simp only [rowOf, hname, hfield, hvalue, Option.map_some, Option.getD_some]
    rfl

/-- **Where the expression does not resolve** the scalar kernel faults on the first row. -/
theorem count_eq_none_of_not_resolves (he : Configured e s schema)
    (hnodes : (g.listing root).length ≤ 512) (hle : (g.fieldNames root).length ≤ 8)
    (hnot : ¬ Resolves s e.registry g root) (heap : ℕ → Word) (st : CompileState)
    (callers : ℕ → Caller) (order : IterationOrder) (data : Data) :
    (e.setExpression s heap g (some root) .scalar st).1.count callers data order 1 = none := by
  have hcompile := Jit.compile_scalar heap g root st
  obtain ⟨n, hn, i, hi, hidx, hslot⟩ := exists_null_slot hcompile hle hnot
  obtain ⟨hlisted, hk⟩ := (g.mem_loadNodes root).mp hn
  rw [setExpression_some e s hcompile]
  refine count_eq_none (e := { e with exprLogic := e.exprLogic.insert s _ })
    (he.front_insert _ order) he.schema data Nat.one_pos ?_
  intro planes scratch hshows
  have hnull := hshows i hi
  rw [hslot] at hnull
  exact Jit.callExpr_scalarCode_null (callers 0) scratch hnodes hlisted hk hidx hi hnull

/-- Without left-over pointers there is one name and no arithmetic. -/
theorem resolves_of_tidy (hterm : g.HasTerm (thresholdTerm v T) root) (ht : g.Tidy root)
    (hfield : (e.registry.getField s (Jit.storedName v)).isSome) :
    Resolves s e.registry g root ∧ (g.arithmeticNodes root).length ≤ 8 := by
  have hviews : (thresholdTerm v T).views.map Jit.storedName = [Jit.storedName v] := rfl
  have hkinds : (thresholdTerm v T).kinds.countP Jit.NodeKind.isArithmetic = 0 := rfl
  refine ⟨⟨fun n hn => ?_, fun n hn => ?_, ?_⟩, ?_⟩
  · have hname := hterm.name_mem ht hn
    rw [hviews, List.mem_singleton] at hname
    rwa [hname]
  · obtain ⟨hlisted, hk⟩ := (g.mem_loadNodes root).mp hn
    exact ⟨n, (Graph.mem_visits ht).mpr ((g.mem_listing root).mp hlisted), hk, rfl⟩
  · have hle := hterm.length_fieldNames_le ht
    rw [hviews] at hle
    exact hle.trans (by simp)
  · have hle := hterm.length_arithmeticNodes_le ht
    omega

end Expression

/-! ## The three engines -/

/-- The three engines agree: expressions are installed, the counts are the same, and so are the
masks of the kernels for any 64 rows.  Each compiler is entered in a state of its own. -/
structure ThresholdsAgree (callers : ℕ → Caller) (order : IterationOrder) (e : Engine) (s : Name)
    (v : StringView) (T : Word) (g : Graph) (root : NodeRef) (heap : ExecutionMode → ℕ → Word)
    (st : ExecutionMode → CompileState) : Prop where
  installed : ∀ mode, ∃ logic,
    (e.setExpression s (heap mode) g (some root) mode (st mode)).1.exprLogic.lookup s = some logic
  counts : ∀ data n, ∃ total, (e.setLogic s v.bytes T).count callers data order n = some total ∧
    ∀ mode, (e.setExpression s (heap mode) g (some root) mode (st mode)).1.count callers data order
      n = some total
  masks : ∀ row, ∀ bytes : ℕ → Data, ∀ threshold,
    (e.setLogic s v.bytes T).compiledLogic.lookup s = some threshold →
    ∀ planes, Jit.ShowsColumn .bitSliced planes
      (fun r => memcpy8 (bytes r) threshold.field.offset.toNat) →
    ∃ m, (callers row).callThreshold threshold.kernel planes = some m ∧
      ∀ mode logic,
        (e.setExpression s (heap mode) g (some root) mode (st mode)).1.exprLogic.lookup s =
          some logic →
        Answers (callers row) logic.kernel logic.mode logic.fields
          (fun field r => memcpy8 (bytes r) field.offset.toNat) (· = fun _ => 0)
          fun m' _ => m' = m

section Agree

variable {e : Engine} {s : Name} {schema : SchemaMetadata} {v : StringView}
  {field field' : FieldDescriptor} {T : Word} {g : Graph} {root : NodeRef}
  {heap : ExecutionMode → ℕ → Word} {st : ExecutionMode → CompileState} {callers : ℕ → Caller}
  {order : IterationOrder}

/-- Logic that is installed was accepted. -/
theorem ThresholdsAgree.accepts (h : ThresholdsAgree callers order e s v T g root heap st)
    (he : Configured e s schema) :
    (g.fieldNames root).length ≤ 8 ∧ (g.arithmeticNodes root).length ≤ 8 := by
  obtain ⟨logic, hlogic⟩ := h.installed .bitSliced
  refine (Jit.compile_isSome_iff .bitSliced (heap .bitSliced) g root (st .bitSliced)).mp ?_ rfl
  cases hcompile : Jit.compile .bitSliced (heap .bitSliced) g (some root) (st .bitSliced) with
  | mk code st' =>
    cases code with
    | some code => rfl
    | none =>
      rw [setExpression_none e s hcompile, he.exprLogic] at hlogic
      exact absurd hlogic (by simp)

/-- The scalar kernel runs, so the expression resolves. -/
theorem ThresholdsAgree.resolves (h : ThresholdsAgree callers order e s v T g root heap st)
    (he : Configured e s schema) (hnodes : (g.listing root).length ≤ 512) :
    Resolves s e.registry g root := by
  by_contra hnot
  obtain ⟨total, -, htotal⟩ := h.counts (fun _ => 0) 1
  have hnone := count_eq_none_of_not_resolves he hnodes (h.accepts he).1 hnot (heap .scalar)
    (st .scalar) callers order fun _ => 0
  rw [htotal .scalar] at hnone
  exact absurd hnone (by simp)

/-- Expressions that resolve agree when the node names the offset of the field. -/
theorem thresholdsAgree_of_resolves (he : Configured e s schema)
    (hfield : e.registry.getField s v.bytes = some field)
    (hterm : g.HasTerm (thresholdTerm v T) root) (hnodes : (g.listing root).length ≤ 512)
    (hpool : ∀ mode row, (Jit.compile mode (heap mode) g (some root) (st mode)).2.pool ⊆
      (callers row).pool)
    (hres : Resolves s e.registry g root) (harith : (g.arithmeticNodes root).length ≤ 8)
    (hfield' : e.registry.getField s (Jit.storedName v) = some field')
    (hsame : field'.offset = field.offset ∨ T = BitVec.allOnes 64) :
    ThresholdsAgree callers order e s v T g root heap st := by
  have hexceeds := exceeds_congr hsame
  have hdecides := fun mode => hres.decides hterm hnodes harith mode (hpool mode) hfield'
  constructor
  · intro mode
    obtain ⟨logic, hengine, -⟩ := hdecides mode
    rw [hengine]
    exact ⟨logic, AList.lookup_insert _⟩
  · refine fun data n => ⟨_, count_setLogic he hfield callers order data n, fun mode => ?_⟩
    obtain ⟨logic, hengine, hdecides⟩ := hdecides mode
    rw [hengine, he.count_insert hdecides, exceeds_zero, hexceeds]
    simp
  · intro row bytes threshold hthreshold planes hplanes
    rw [setLogic_some hfield] at hthreshold
    obtain rfl := Option.some.inj ((AList.lookup_insert _).symm.trans hthreshold)
    obtain ⟨m, hm, hlanes⟩ := callThreshold_lanes (callers row) T hplanes
    refine ⟨m, hm, fun mode logic hlogic => ?_⟩
    obtain ⟨logic', hengine, hdecides⟩ := hdecides mode
    rw [hengine] at hlogic
    obtain rfl := Option.some.inj ((AList.lookup_insert _).symm.trans hlogic)
    refine (hdecides row bytes).mono (fun _ h => h) fun m' _ hm' => ?_
    ext r hr
    have hlane : m'.getLsbD r = m.getLsbD r := by rw [hm' r hr, hlanes r hr, hexceeds, exceeds]
    simpa only [← BitVec.getLsbD_eq_getElem] using hlane

/-- **The specialised kernel refines the general compilers** exactly when every listed field is
registered and visited, the bit-sliced compiler accepts the expression, and the name that
`builder::Load` has stored leads to a field at the same offset; or to any field, when the
threshold is the greatest word, which none exceeds.  For nodes without left-over pointers only
the name matters. -/
theorem thresholdsAgree_iff (he : Configured e s schema)
    (hfield : e.registry.getField s v.bytes = some field)
    (hterm : g.HasTerm (thresholdTerm v T) root) (hnodes : (g.listing root).length ≤ 512)
    (hpool : ∀ mode row, (Jit.compile mode (heap mode) g (some root) (st mode)).2.pool ⊆
      (callers row).pool) :
    (ThresholdsAgree callers order e s v T g root heap st ↔
      Resolves s e.registry g root ∧ (g.arithmeticNodes root).length ≤ 8 ∧
        ∃ field', e.registry.getField s (Jit.storedName v) = some field' ∧
          (field'.offset = field.offset ∨ T = BitVec.allOnes 64)) ∧
    (g.Tidy root → (ThresholdsAgree callers order e s v T g root heap st ↔
      ∃ field', e.registry.getField s (Jit.storedName v) = some field' ∧
        (field'.offset = field.offset ∨ T = BitVec.allOnes 64))) := by
  have hiff : ThresholdsAgree callers order e s v T g root heap st ↔
      Resolves s e.registry g root ∧ (g.arithmeticNodes root).length ≤ 8 ∧
        ∃ field', e.registry.getField s (Jit.storedName v) = some field' ∧
          (field'.offset = field.offset ∨ T = BitVec.allOnes 64) := by
    constructor
    · intro h
      have hres := h.resolves he hnodes
      have harith := (h.accepts he).2
      obtain ⟨field', hfield'⟩ := hres.getField hterm
      refine ⟨hres, harith, field', hfield', offset_eq_of_countP schema.rowStride fun data => ?_⟩
      obtain ⟨total, hlegacy, hexpr⟩ := h.counts data 1
      obtain ⟨logic, hengine, hdecides⟩ :=
        hres.decides hterm hnodes harith .scalar (hpool .scalar) hfield'
      have hcount := hexpr .scalar
      rw [hengine, he.count_insert hdecides, exceeds_zero] at hcount
      rw [count_setLogic he hfield] at hlegacy
      have heq := hlegacy.trans hcount.symm
      simp only [Bool.false_eq_true, if_false, Nat.add_zero] at heq
      exact Option.some.inj heq
    · rintro ⟨hres, harith, field', hfield', hsame⟩
      exact thresholdsAgree_of_resolves he hfield hterm hnodes hpool hres harith hfield' hsame
  refine ⟨hiff, fun ht => hiff.trans ⟨fun h => h.2.2, ?_⟩⟩
  rintro ⟨field', hfield', hsame⟩
  obtain ⟨hres, harith⟩ := resolves_of_tidy (e := e) (s := s) hterm ht (by rw [hfield']; rfl)
  exact ⟨hres, harith, field', hfield', hsame⟩

/-- `GT(Load("a"), Const(5))` on the small engine. -/
theorem thresholdsAgree_iff_sample :
    ThresholdsAgree (fun _ => Caller.standard [5] (by decide)) .latest sampleEngine [115]
      (.ofString [97]) 5 (Jit.thresholdGraph (.ofString [97]) 5) 2 (fun _ => Jit.standardHeap)
      fun _ => sampleState :=
  ((thresholdsAgree_iff (configured_new _ _ _ _ _) rfl
    (hasTerm_threshold _ _) (by decide)
    fun mode _ => pool_threshold _ mode).2 written_threshold.tidy).mpr ⟨sampleField, rfl, Or.inl rfl⟩

/-- **A name of 64 bytes** is cut off by `builder::Load`.  `set_logic` finds its field; the
scalar kernel gets no plane for it. -/
theorem thresholdsAgree_truncated : ¬ ∀ (callers : ℕ → Caller) (order : IterationOrder) (e : Engine)
    (s : Name) (schema : SchemaMetadata) (v : StringView) (field : FieldDescriptor) (T : Word)
    (g : Graph) (root : NodeRef) (heap : ExecutionMode → ℕ → Word)
    (st : ExecutionMode → CompileState),
    Configured e s schema → e.registry.getField s v.bytes = some field →
    g.HasTerm (thresholdTerm v T) root → (g.listing root).length ≤ 512 →
    (∀ mode row, (Jit.compile mode (heap mode) g (some root) (st mode)).2.pool ⊆
      (callers row).pool) →
    ThresholdsAgree callers order e s v T g root heap st := by
  intro h
  let name : Name := List.replicate 64 97
  let e : Engine := (Engine.new .portable fun _ _ => 0).registerSchema [115] [⟨name, 0, 64, .uint64⟩] 8
  have he : Configured e [115] ⟨8, [⟨name, 0, 64, .uint64⟩]⟩ := configured_new _ _ _ _ _
  have hagree := h (fun _ => Caller.standard [5] (by decide)) .latest e [115] _ (.ofString name)
    ⟨name, 0, 64, .uint64⟩ 5 (Jit.thresholdGraph (.ofString name) 5) 2 (fun _ => Jit.standardHeap)
    (fun _ => sampleState) he rfl
    (hasTerm_threshold _ _) (by decide)
    fun mode _ => pool_threshold _ mode
  have hregistered := (hagree.resolves he (by decide)).registered 0 List.mem_cons_self
  exact absurd hregistered (by decide)

end Agree
end Api
end ApexEngine
