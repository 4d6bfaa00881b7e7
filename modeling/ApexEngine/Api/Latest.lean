import ApexEngine.Api.History
import ApexEngine.Api.Threshold

/-!
# Which logic is executed

`execute` looks for an expression first and falls back to the thresholds.  So what can be
executed of a history are its expressions, or when there is none its thresholds
(`Engine.effective`), and `execute` evaluates the entry that the map of these begins with
(`selected_of_history`), with the stride under which its schema was registered last.

The entry is the logic that was installed last for its schema, but `unordered_map` does not
say which schema comes first.  In every order of the maps it is the logic of the last call
exactly when this logic is of the kind that is looked for and all of that kind are of one
schema (`execute_latest`).  Of two schemas with an expression each, `begin()` may lead to
the one that was not asked for (`execute_latest_begin`).
-/

namespace ApexEngine
namespace Api

open A64 (Word)
open Core (Name StringMap)
open Compute (Data)
open Jit (Caller CompileState thresholdGraph)

/-! ## The first entry of a map -/

namespace IterationOrder

/-- The order that begins with a key if it is there. -/
def preferring (k : Name) : IterationOrder where
  first keys := (keys.find? fun j => decide (j = k)).or keys.head?
  first_mem h := (Option.or_eq_some_iff.mp h).elim List.mem_of_find?_eq_some fun h =>
    List.mem_of_mem_head? h.2
  first_isSome h := by rw [Option.isSome_or, List.isSome_head?.mpr h, Bool.or_true]

theorem front_preferring {α : Type} {m : StringMap α} {k : Name} {v : α}
    (h : m.lookup k = some v) : (preferring k).front m = some (k, v) := by
  have hk : k ∈ m.keys := AList.mem_keys.mp (AList.lookup_isSome.mp (by rw [h]; rfl))
  have hfirst : (m.keys.find? fun j => decide (j = k)).or m.keys.head? = some k := by
    cases hfind : m.keys.find? fun j => decide (j = k) with
    | none => exact absurd (List.find?_eq_none.mp hfind k hk) (by simp)
    | some j =>
      have hjk : j = k := by simpa using List.find?_some hfind
      rw [hjk, Option.some_or]
  rw [front, show (preferring k).first m.keys = some k from hfirst, Option.bind_some, h,
    Option.map_some]

/-- The entry of a map with the same keys and values made of the others'. -/
theorem front_map {α β : Type} (order : IterationOrder) (f : α → β) {m : StringMap α}
    {m' : StringMap β} (hkeys : m'.keys = m.keys)
    (hlookup : ∀ k, m'.lookup k = (m.lookup k).map f) :
    order.front m' = (order.front m).map fun p => (p.1, f p.2) := by
  unfold front
  rw [hkeys]
  cases order.first m.keys with
  | none => rfl
  | some k =>
    rw [Option.bind_some, Option.bind_some, hlookup]
    cases m.lookup k <;> rfl

end IterationOrder

section Front

variable {α : Type} (order : IterationOrder) {ps : List (Name × α)}

theorem front_assignAll_eq_none_iff :
    order.front (Runs.assignAll (∅ : StringMap α) ps) = none ↔ ps = [] := by
  rw [IterationOrder.front_eq_none_iff]
  constructor
  · intro h
    by_contra hne
    obtain ⟨p, hp⟩ := List.exists_mem_of_ne_nil ps hne
    have hmem : p.1 ∈ Runs.assignAll (∅ : StringMap α) ps :=
      Runs.mem_assignAll.mpr (Or.inr ⟨p, hp, rfl⟩)
    rw [h] at hmem
    exact absurd hmem (AList.notMem_empty p.1)
  · rintro rfl
    rfl

theorem lookup_assignAll_empty (s : Name) :
    (Runs.assignAll (∅ : StringMap α) ps).lookup s = Runs.lastFor ps s := by
  rw [Runs.lookup_assignAll, AList.lookup_empty, Option.or_none]

/-- An entry is there as soon as something is assigned, and it was assigned last under
its name. -/
theorem front_assignAll (hne : ps ≠ []) : ∃ s v, Runs.lastFor ps s = some v ∧
    order.front (Runs.assignAll (∅ : StringMap α) ps) = some (s, v) := by
  cases h : order.front (Runs.assignAll (∅ : StringMap α) ps) with
  | none => exact absurd ((front_assignAll_eq_none_iff order).mp h) hne
  | some q =>
    obtain ⟨s, v⟩ := q
    exact ⟨s, v, by rw [← lookup_assignAll_empty]; exact order.lookup_of_front h, rfl⟩

/-- When only one name is assigned to, it is the entry assigned last. -/
theorem front_assignAll_of_only {s : Name} {v : α} (hlast : Runs.lastFor ps s = some v)
    (honly : ∀ p ∈ ps, p.1 = s) :
    order.front (Runs.assignAll (∅ : StringMap α) ps) = some (s, v) := by
  refine order.front_eq_of_keys ?_ fun k hk => ?_
  · rw [lookup_assignAll_empty, hlast]
  · rcases Runs.mem_assignAll.mp hk with hk | ⟨p, hp, rfl⟩
    · exact absurd hk (AList.notMem_empty k)
    · exact honly p hp

/-- **Every order begins with one entry** exactly when there is no name but its own. -/
theorem forall_front_assignAll_iff {s : Name} {v : α} (hlast : Runs.lastFor ps s = some v) :
    (∀ order : IterationOrder,
        order.front (Runs.assignAll (∅ : StringMap α) ps) = some (s, v)) ↔
      ∀ p ∈ ps, p.1 = s := by
  constructor
  · intro h p hp
    -- the order that prefers the name of `p` begins with an entry of that name
    have hmem : p.1 ∈ Runs.assignAll (∅ : StringMap α) ps :=
      Runs.mem_assignAll.mpr (Or.inr ⟨p, hp, rfl⟩)
    obtain ⟨v', hv'⟩ := Option.isSome_iff_exists.mp (AList.lookup_isSome.mpr hmem)
    have hfront := IterationOrder.front_preferring hv'
    rw [h] at hfront
    exact (congrArg Prod.fst (Option.some.inj hfront)).symm
  · exact fun h order => front_assignAll_of_only order hlast h

end Front

/-! ## Evaluating a logic -/

namespace Engine

/-- Evaluate a logic on a buffer with the stride of a schema.  Nothing matches when the
schema is not known. -/
def evaluate (e : Engine) (callers : ℕ → Caller) (data : Data) (rowCount : ℕ)
    (schema : Option SchemaMetadata) (logic : Logic) : Option (Engine × ℕ) :=
  match schema, logic with
  | none, _ => some (e, 0)
  | some schema, .threshold logic =>
      e.scan (legacyChunk callers data logic schema.rowStride rowCount) rowCount
  | some schema, .expression logic =>
      e.scan (exprChunk callers data logic schema.rowStride rowCount) rowCount

/-- The logic `execute` picks, with its schema: `begin()` of the expressions, or of the
thresholds when there is no expression. -/
def selected (e : Engine) (order : IterationOrder) : Option (Name × Logic) :=
  match order.front e.exprLogic with
  | some (s, logic) => some (s, .expression logic)
  | none => (order.front e.compiledLogic).map fun p => (p.1, .threshold p.2)

/-- The logics of a history that can be executed: its expressions, or when there is none
its thresholds. -/
def effective (e : Engine) (calls : List Call) : List (Name × Logic) :=
  if e.expressions calls = [] then (e.thresholds calls).map fun p => (p.1, .threshold p.2)
  else (e.expressions calls).map fun p => (p.1, .expression p.2)

variable {e : Engine} {calls : List Call}

/-- **`execute` evaluates the logic it picks.** -/
theorem execute_eq_evaluate (e : Engine) (callers : ℕ → Caller) (data : Data)
    (order : IterationOrder) (n : ℕ) :
    e.execute callers data order n =
      (e.selected order).elim (some (e, 0)) fun p =>
        e.evaluate callers data n (e.schemaMetadata.lookup p.1) p.2 := by
  unfold execute selected
  cases order.front e.exprLogic with
  | some p =>
    dsimp only [Option.elim_some]
    cases e.schemaMetadata.lookup p.1 <;> rfl
  | none =>
    cases order.front e.compiledLogic with
    | none => rfl
    | some p =>
      dsimp only [Option.map_some, Option.elim_some]
      cases e.schemaMetadata.lookup p.1 <;> rfl

/-- Without expressions every logic that is installed is a threshold. -/
theorem effective_of_nil (h : e.expressions calls = []) :
    e.effective calls = e.installed calls := by
  have hnone : ∀ p ∈ e.installed calls, p.2.asExpression = none := fun p hp => by
    simpa using List.filterMap_eq_nil_iff.mp h p hp
  rw [effective, if_pos h, thresholds]
  generalize e.installed calls = ps at hnone
  induction ps with
  | nil => rfl
  | cons p ps ih =>
    obtain ⟨s, logic⟩ := p
    cases logic with
    | threshold logic =>
      exact congrArg (_ :: ·) (ih fun p hp => hnone p (List.mem_cons_of_mem _ hp))
    | expression logic => exact absurd (hnone _ List.mem_cons_self) (by simp [Logic.asExpression])

/-- With expressions it is these that can be executed. -/
theorem effective_of_ne_nil (h : e.expressions calls ≠ []) :
    e.effective calls = (e.installed calls).filter fun p => p.2.asExpression.isSome := by
  rw [effective, if_neg h, expressions]
  generalize e.installed calls = ps
  induction ps with
  | nil => rfl
  | cons p ps ih =>
    obtain ⟨s, logic⟩ := p
    cases logic with
    | threshold logic => exact ih
    | expression logic => exact congrArg (_ :: ·) ih

/-- Whether the logic installed last is among those that can be executed. -/
theorem lastFor_effective_iff {s : Name} {logic : Logic}
    (hlast : (e.installed calls).getLast? = some (s, logic)) :
    Runs.lastFor (e.effective calls) s = some logic ↔
      logic.asExpression.isSome ∨ e.expressions calls = [] := by
  obtain ⟨init, hinit⟩ := List.getLast?_eq_some_iff.mp hlast
  by_cases hnil : e.expressions calls = []
  · rw [effective_of_nil hnil, Runs.lastFor_of_getLast? hlast]
    exact ⟨fun _ => Or.inr hnil, fun _ => rfl⟩
  · rw [effective_of_ne_nil hnil]
    constructor
    · intro h
      have hmem := List.mem_filter.mp (Runs.mem_of_lastFor h)
      exact Or.inl hmem.2
    · intro h
      have hexpr : logic.asExpression.isSome := h.resolve_right hnil
      have hself : [(s, logic)].filter (fun p => p.2.asExpression.isSome) = [(s, logic)] :=
        List.filter_eq_self.mpr fun p hp => by rw [List.mem_singleton.mp hp]; exact hexpr
      refine Runs.lastFor_of_getLast? ?_
      rw [hinit, List.filter_append, hself, List.getLast?_concat]

end Engine

section Latest

variable (slicer : Compute.BitSlicer) (buffers : ℕ → Compute.ColumnBuffer) (calls : List Call)

/-- Changing the values that are assigned changes no key. -/
theorem keys_assignAll_map {α β : Type} (f : α → β) (ps : List (Name × α)) :
    (Runs.assignAll (∅ : StringMap β) (ps.map fun p => (p.1, f p.2))).keys =
      (Runs.assignAll (∅ : StringMap α) ps).keys := by
  induction ps using List.reverseRecOn with
  | nil => rfl
  | append_singleton ps p ih =>
    rw [List.map_append, List.map_singleton, Runs.assignAll_snoc, Runs.assignAll_snoc,
      AList.keys_insert, AList.keys_insert, ih]

theorem front_assignAll_map {α β : Type} (order : IterationOrder) (f : α → β)
    (ps : List (Name × α)) :
    order.front (Runs.assignAll (∅ : StringMap β) (ps.map fun p => (p.1, f p.2))) =
      (order.front (Runs.assignAll (∅ : StringMap α) ps)).map fun p => (p.1, f p.2) :=
  order.front_map f (keys_assignAll_map f ps) fun k => by
    rw [lookup_assignAll_empty, lookup_assignAll_empty, Runs.lastFor_map]

/-- **What is picked after a history** is the first entry of what can be executed. -/
theorem selected_of_history (order : IterationOrder) :
    ((Engine.new slicer buffers).run calls).selected order =
      order.front (Runs.assignAll ∅ ((Engine.new slicer buffers).effective calls)) := by
  have hexpr : ((Engine.new slicer buffers).run calls).exprLogic =
      Runs.assignAll ∅ ((Engine.new slicer buffers).expressions calls) := Engine.exprLogic_run _ _
  have hcompiled : ((Engine.new slicer buffers).run calls).compiledLogic =
      Runs.assignAll ∅ ((Engine.new slicer buffers).thresholds calls) :=
    Engine.compiledLogic_run _ _
  rw [Engine.selected, hexpr, hcompiled, Engine.effective]
  split_ifs with hnil
  · rw [(front_assignAll_eq_none_iff order).mpr hnil, front_assignAll_map]
  · obtain ⟨s, logic, -, hfront⟩ := front_assignAll order hnil
    rw [front_assignAll_map, hfront]
    rfl

/-- **Which logic is executed**, after any history of calls and in whatever order maps
iterate.  It is the last one of its schema among the expressions, or among the
thresholds when there is no expression, and it is evaluated with the stride its schema
was last registered with; when these are all of one schema, it is the last of them.  It
is in every order the logic of the last call that installed one exactly when this is an
expression, or there is none, and all of its kind are of its schema. -/
theorem execute_latest (callers : ℕ → Caller) (order : IterationOrder) (data : Data) (n : ℕ) :
    let start := Engine.new slicer buffers
    (start.effective calls = [] →
        (start.run calls).execute callers data order n = some (start.run calls, 0)) ∧
      (start.effective calls ≠ [] → ∃ s logic,
        Runs.lastFor (start.effective calls) s = some logic ∧
        (start.run calls).execute callers data order n =
          (start.run calls).evaluate callers data n
            (Runs.lastFor (start.registered calls) s) logic) ∧
      (∀ s logic, (start.effective calls).getLast? = some (s, logic) →
        (∀ p ∈ start.effective calls, p.1 = s) →
        (start.run calls).execute callers data order n =
          (start.run calls).evaluate callers data n
            (Runs.lastFor (start.registered calls) s) logic) ∧
      (start.run calls).execute callers data order n =
        ((start.run calls).selected order).elim (some (start.run calls, 0)) (fun p =>
          (start.run calls).evaluate callers data n
            (Runs.lastFor (start.registered calls) p.1) p.2) ∧
      ∀ s logic, (start.installed calls).getLast? = some (s, logic) →
        ((∀ order, (start.run calls).selected order = some (s, logic)) ↔
          (logic.asExpression.isSome ∨ start.expressions calls = []) ∧
            ∀ p ∈ start.effective calls, p.1 = s) := by
  intro start
  have hexec : (start.run calls).execute callers data order n =
      ((start.run calls).selected order).elim (some (start.run calls, 0)) fun p =>
        (start.run calls).evaluate callers data n
          (Runs.lastFor (start.registered calls) p.1) p.2 := by
    rw [Engine.execute_eq_evaluate]
    congr 1
    funext p
    rw [Engine.schemaMetadata_of_history]
  have hselected : ∀ order, (start.run calls).selected order =
      order.front (Runs.assignAll ∅ (start.effective calls)) :=
    selected_of_history slicer buffers calls
  refine ⟨fun hnil => ?_, fun hne => ?_, fun s logic hlast honly => ?_, hexec,
    fun s logic hlast => ?_⟩
  · rw [hexec, hselected, (front_assignAll_eq_none_iff order).mpr hnil]
    rfl
  · obtain ⟨s, logic, hlast, hfront⟩ := front_assignAll order hne
    refine ⟨s, logic, hlast, ?_⟩
    rw [hexec, hselected, hfront]
    rfl
  · rw [hexec, hselected,
      front_assignAll_of_only order (Runs.lastFor_of_getLast? hlast) honly]
    rfl
  · simp only [hselected]
    constructor
    · intro h
      -- what every order begins with is an entry of the map
      have hlookup := IterationOrder.latest.lookup_of_front (h .latest)
      rw [lookup_assignAll_empty] at hlookup
      exact ⟨(Engine.lastFor_effective_iff hlast).mp hlookup,
        (forall_front_assignAll_iff hlookup).mp h⟩
    · rintro ⟨hkind, honly⟩
      exact (forall_front_assignAll_iff ((Engine.lastFor_effective_iff hlast).mpr hkind)).mpr
        honly

/-- What installing `GT(Load(v), Const(T))` does when its field is found. -/
theorem exists_installs_threshold (e : Engine) (s : Name) (v : Jit.StringView) (T : Word)
    {field : Core.FieldDescriptor}
    (hfield : e.registry.getField s (Jit.storedName v) = some field) (callers : ℕ → Caller) :
    let call : Call :=
      .setExpression s Jit.standardHeap (thresholdGraph v T) (some 2) .scalar sampleState
    ∃ logic, e.installs call = some (s, .expression logic) ∧
      e.step call = { e with exprLogic := e.exprLogic.insert s logic } ∧
      Decides callers logic (exceeds T field) := by
  intro call
  have hcompile := Jit.compile_scalar Jit.standardHeap (thresholdGraph v T) 2 sampleState
  have hstep := congrArg Prod.fst (setExpression_some e s hcompile)
  have hpool : ∀ row, (Jit.compile .scalar Jit.standardHeap (thresholdGraph v T) (some 2)
      sampleState).2.pool ⊆ (callers row).pool := fun _ => List.nil_subset _
  obtain ⟨logic, hlogic, -, hdecides⟩ := installed_threshold .scalar hpool hfield
  rw [hstep, AList.lookup_insert] at hlogic
  obtain rfl := Option.some.inj hlogic
  refine ⟨_, ?_, hstep, hdecides⟩
  simp only [call, Engine.installs, Option.bind_some, hcompile, Option.map_some]

/-- **`begin()` may be another schema's.**  The expression `a > 5` is installed for a schema
`"t"`, one that never holds for a schema `"s"`, and `a > 5` for `"t"` once more.  In a map that
begins with `"s"` it is the second that is executed, and a row of sevens is not counted. -/
theorem execute_latest_begin : ¬ ∀ (slicer : Compute.BitSlicer)
    (buffers : ℕ → Compute.ColumnBuffer) (calls : List Call) (callers : ℕ → Caller)
    (order : IterationOrder) (data : Data) (n : ℕ) (s : Name) (logic : Logic),
    (Engine.new slicer buffers).thresholds calls = [] →
    ((Engine.new slicer buffers).installed calls).getLast? = some (s, logic) →
    ((Engine.new slicer buffers).run calls).execute callers data order n =
      ((Engine.new slicer buffers).run calls).evaluate callers data n
        (Runs.lastFor ((Engine.new slicer buffers).registered calls) s) logic := by
  intro h
  let callers : ℕ → Caller := fun _ => Caller.standard [] (by decide)
  let install (s : Name) (T : Word) : Call := .setExpression s Jit.standardHeap
    (thresholdGraph (.ofString [97]) T) (some 2) .scalar sampleState
  let calls : List Call := [.registerSchema [116] [sampleField] 8,
    .registerSchema [115] [sampleField] 8, install [116] 5, install [115] (BitVec.allOnes 64),
    install [116] 5]
  let e : Engine := ((Engine.new .portable fun _ _ => 0).registerSchema [116] [sampleField]
    8).registerSchema [115] [sampleField] 8
  have hfield : e.registry.getField [116] [97] = some sampleField := rfl
  have hfield' : e.registry.getField [115] [97] = some sampleField := rfl
  obtain ⟨first, hinstalls₁, hstep₁, -⟩ :=
    exists_installs_threshold e [116] (.ofString [97]) 5 hfield callers
  obtain ⟨other, hinstalls₂, hstep₂, hother⟩ :=
    exists_installs_threshold { e with exprLogic := e.exprLogic.insert [116] first } [115]
      (.ofString [97]) (BitVec.allOnes 64) hfield' callers
  obtain ⟨last, hinstalls₃, hstep₃, hlast⟩ := exists_installs_threshold
    { e with exprLogic := (e.exprLogic.insert [116] first).insert [115] other } [116]
      (.ofString [97]) 5 hfield callers
  have hinstalled : (Engine.new .portable fun _ _ => 0).installed calls =
      [([116], .expression first), ([115], .expression other), ([116], .expression last)] := by
    show (e.installs (install [116] 5)).toList ++
      (((e.step (install [116] 5)).installs (install [115] (BitVec.allOnes 64))).toList ++
        ((((e.step (install [116] 5)).step (install [115] (BitVec.allOnes 64))).installs
          (install [116] 5)).toList ++ [])) = _
    rw [hinstalls₁, hstep₁, hinstalls₂, hstep₂, hinstalls₃]
    rfl
  have hrun : (Engine.new .portable fun _ _ => 0).run calls =
      { e with exprLogic :=
          ((e.exprLogic.insert [116] first).insert [115] other).insert [116] last } := by
    show (((e.step (install [116] 5)).step (install [115] (BitVec.allOnes 64))).step
      (install [116] 5)) = _
    rw [hstep₁, hstep₂, hstep₃]
  have hregistered : Runs.lastFor ((Engine.new .portable fun _ _ => 0).registered calls) [116] =
      some ⟨8, [sampleField]⟩ := by
    rw [← Engine.schemaMetadata_of_history, hrun]
    rfl
  have hthresholds : (Engine.new .portable fun _ _ => 0).thresholds calls = [] := by
    rw [Engine.thresholds, hinstalled]
    rfl
  have hexec := h .portable (fun _ _ => 0) calls callers (.preferring [115]) (fun _ => 7) 1 [116]
    (.expression last) hthresholds (by rw [hinstalled]; rfl)
  rw [hrun, hregistered] at hexec
  generalize hmap : ((e.exprLogic.insert [116] first).insert [115] other).insert [116] last = map
    at hexec
  have hlast_front : (IterationOrder.preferring [116]).front map = some ([116], last) :=
    IterationOrder.front_preferring (by rw [← hmap, AList.lookup_insert])
  have hother_front : (IterationOrder.preferring [115]).front map = some ([115], other) :=
    IterationOrder.front_preferring (by
      rw [← hmap, AList.lookup_insert_ne (by decide), AList.lookup_insert])
  -- what the last call asked for is what a map that begins with `"t"` leads to
  have hlast_exec : Engine.execute { e with exprLogic := map } callers (fun _ => 7)
      (.preferring [116]) 1 = Engine.evaluate { e with exprLogic := map } callers (fun _ => 7) 1
        (some ⟨8, [sampleField]⟩) (.expression last) := by
    rw [Engine.execute_eq_evaluate, Engine.selected, hlast_front]
    rfl
  have hcount : Engine.count { e with exprLogic := map } callers (fun _ => 7) (.preferring [115]) 1 =
      Engine.count { e with exprLogic := map } callers (fun _ => 7) (.preferring [116]) 1 := by
    rw [Engine.count, Engine.count, hexec, hlast_exec]
  have hschema : e.schemaMetadata.lookup [115] = some ⟨8, [sampleField]⟩ := rfl
  have hschema' : e.schemaMetadata.lookup [116] = some ⟨8, [sampleField]⟩ := rfl
  rw [count_eq (e := { e with exprLogic := map }) hother_front hschema hother,
    count_eq (e := { e with exprLogic := map }) hlast_front hschema' hlast] at hcount
  simp only [exceeds_allOnes, exceeds_zero] at hcount
  exact absurd (Option.some.inj hcount) (by decide)

end Latest
end Api
end ApexEngine
