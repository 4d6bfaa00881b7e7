import ApexEngine.Api.Pointers

/-!
# Engines in one memory

The engines of a process have their nodes in one memory.  They are created and destroyed, by
handle, and each is configured by its calls and executes; the allocator answers with any
addresses that are free, also with those of nodes and of engines that are gone.

What is proved is that nobody notices (`engines_in_memory`).  An engine counts what the engine
without pointers counts that has had the same calls since it was created, whatever has happened
to the other engines.  No pointer dangles, every node belongs to one engine that lives, and
when all engines are destroyed there is no node left.

The invariant (`Sound`) is a ledger of the nodes by engine and schema, and that every engine
sees its own nodes.
-/

namespace ApexEngine
namespace Api
namespace Pointers

open A64 (Word)
open Core (Name StringMap FieldDescriptor)
open Compute (BitSlicer ColumnBuffer Data)
open Jit (Caller)
open Ownership (Ledger store free addresses leave)

/-! ## The process -/

/-- The descriptors a call has nodes for. -/
def fieldsOf : Call → List FieldDescriptor
  | .registerSchema _ fields _ => fields
  | _ => []

/-- A call that configures an engine, with the addresses the allocator has for its nodes. -/
def Engine.call (e : Engine) (memory : Memory) (nodes : List Addr) : Call → Engine × Memory
  | .registerSchema schemaName fields totalRowStride =>
      e.registerSchema memory schemaName fields totalRowStride nodes
  | .setLogic schemaName fieldName threshold => (e.setLogic schemaName fieldName threshold, memory)
  | .setExpression schemaName heap g exprRoot mode st =>
      ((e.setExpression schemaName heap g exprRoot mode st).1, memory)

/-- The nodes of a process, and its engines by handle. -/
structure Space where
  memory : Memory
  engines : ℕ → Option Engine

/-- What is done: `apex_create`, `apex_destroy`, a call that configures an engine, or an
execution. -/
inductive Action where
  | create (handle : ℕ) (slicer : BitSlicer) (fieldBuffers : ℕ → ColumnBuffer)
  | destroy (handle : ℕ)
  | call (handle : ℕ) (c : Call) (nodes : List Addr)
  | execute (handle : ℕ) (callers : ℕ → Caller) (data : Data) (order : IterationOrder)
      (rowCount : ℕ)

namespace Space

def initial : Space := ⟨fun _ => none, fun _ => none⟩

def step (s : Space) : Action → Space
  | .create handle slicer fieldBuffers =>
      { s with engines := Function.update s.engines handle (some (.new slicer fieldBuffers)) }
  | .destroy handle =>
      match s.engines handle with
      | none => s
      | some e => ⟨free s.memory e.registry.nodes, Function.update s.engines handle none⟩
  | .call handle c nodes =>
      match s.engines handle with
      | none => s
      | some e =>
          let r := e.call s.memory nodes c
          ⟨r.2, Function.update s.engines handle (some r.1)⟩
  | .execute handle callers data order rowCount =>
      match s.engines handle with
      | none => s
      | some e =>
          match e.execute s.memory callers data order rowCount with
          | none => s
          | some r => { s with engines := Function.update s.engines handle (some r.1) }

/-- What can happen: an engine is created where there is none, the client uses handles of
engines that live, and the allocator answers with different addresses that are free. -/
def Possible (s : Space) : Action → Prop
  | .create handle _ _ => s.engines handle = none
  | .destroy handle => (s.engines handle).isSome
  | .call handle c nodes => (s.engines handle).isSome ∧ nodes.length = (fieldsOf c).length ∧
      nodes.Nodup ∧ ∀ a ∈ nodes, s.memory a = none
  | .execute handle _ _ _ _ => (s.engines handle).isSome

end Space

/-- What is left of an engine that executes.  One that faults is left as it was. -/
def afterExecute (v : Api.Engine) (callers : ℕ → Caller) (data : Data) (order : IterationOrder)
    (rowCount : ℕ) : Api.Engine :=
  ((v.execute callers data order rowCount).map Prod.fst).getD v

/-- What an action makes of the engine without pointers that has handle `h`. -/
def Action.on (h : ℕ) (o : Option Api.Engine) : Action → Option Api.Engine
  | .create handle slicer fieldBuffers =>
      if handle = h then some (Api.Engine.new slicer fieldBuffers) else o
  | .destroy handle => if handle = h then none else o
  | .call handle c _ => if handle = h then o.map fun e => e.step c else o
  | .execute handle callers data order rowCount =>
      if handle = h then o.map fun e => afterExecute e callers data order rowCount else o

/-- The engine without pointers that has handle `h`: the calls with this handle since the
engine was created. -/
def engineOf (h : ℕ) (as : List Action) : Option Api.Engine := as.foldl (Action.on h) none

/-- The pointers an engine keeps. -/
def Engine.pointers (e : Engine) : List Addr :=
  e.compiledLogic.entries.map (fun p => p.2.field) ++
    e.exprLogic.entries.flatMap fun p => p.2.fields.filterMap id

/-! ## What holds of a process -/

/-- An engine with pointers and one without, or neither. -/
inductive Seen (owned : Name → List (Addr × FieldDescriptor)) :
    Option Engine → Option Api.Engine → Prop
  | none (h : ∀ schemaName, owned schemaName = []) : Seen owned none none
  | some {e v} (h : Sees owned e v) : Seen owned (some e) (some v)

/-- **The invariant**: the nodes by engine and schema, and who they belong to. -/
structure Sound (s : Space) (vs : ℕ → Option Api.Engine)
    (owned : ℕ × Name → List (Addr × FieldDescriptor)) : Prop where
  ledger : Ledger s.memory owned
  covered : ∀ a, (s.memory a).isSome → ∃ t p, p ∈ owned t ∧ p.1 = a
  seen : ∀ h, Seen (fun schemaName => owned (h, schemaName)) (s.engines h) (vs h)

section Sound

variable {s : Space} {vs : ℕ → Option Api.Engine} {owned : ℕ × Name → List (Addr × FieldDescriptor)}
  {e : Engine} {v : Api.Engine} {h : ℕ}

theorem sound_initial : Sound .initial (fun _ => none) fun _ => [] where
  ledger := .empty fun _ => rfl
  covered a ha := absurd ha (by simp [Space.initial])
  seen _ := .none fun _ => rfl

theorem Sound.sees (hs : Sound s vs owned) (he : s.engines h = some e) :
    ∃ v, vs h = some v ∧ Sees (fun schemaName => owned (h, schemaName)) e v := by
  have hseen := hs.seen h
  rw [he] at hseen
  generalize vs h = o at hseen
  cases hseen with
  | some hsees => exact ⟨_, rfl, hsees⟩

/-- An engine reads what it should. -/
theorem Sound.reads (hs : Sound s vs owned) {a : Addr} {d : FieldDescriptor}
    (had : Points (fun schemaName => owned (h, schemaName)) a d) : s.memory a = some d := by
  obtain ⟨schemaName, hmem⟩ := had
  exact hs.ledger.holds hmem

/-- The nodes of a registry are those that are owned. -/
theorem Sees.mem_nodes {owned : Name → List (Addr × FieldDescriptor)} (hsees : Sees owned e v)
    {a : Addr} : a ∈ e.registry.nodes ↔
      ∃ schemaName ∈ e.registry.schemas, ∃ p ∈ owned schemaName, p.1 = a := by
  simp only [Registry.nodes, List.mem_flatMap, List.mem_map]
  constructor
  · rintro ⟨⟨schemaName, m⟩, hm, ⟨f, a'⟩, hf, rfl⟩
    have hlookup := AList.mem_lookup_iff.mpr hm
    obtain ⟨m', -, hmatch⟩ := hsees.schemas.exists_of_lookup hlookup
    obtain ⟨d, -, hd⟩ := hmatch.exists_of_lookup (AList.mem_lookup_iff.mpr hf)
    exact ⟨schemaName, AList.lookup_isSome.mp (by rw [hlookup]; rfl), _, hd, rfl⟩
  · rintro ⟨schemaName, -, p, hp, rfl⟩
    obtain ⟨m, f, hm, hf⟩ := hsees.nodes hp
    exact ⟨⟨schemaName, m⟩, AList.mem_lookup_iff.mp hm, ⟨f, p.1⟩, AList.mem_lookup_iff.mp hf, rfl⟩

/-- The pointers an engine keeps are to its nodes. -/
theorem Sees.points_of_pointer {owned : Name → List (Addr × FieldDescriptor)}
    (hsees : Sees owned e v) {a : Addr} (ha : a ∈ e.pointers) : ∃ d, Points owned a d := by
  rcases List.mem_append.mp ha with ha | ha
  · obtain ⟨p, hp, rfl⟩ := List.mem_map.mp ha
    obtain ⟨l, -, hl⟩ := hsees.compiledLogic.exists_of_lookup (AList.mem_lookup_iff.mpr hp)
    exact ⟨_, hl.1⟩
  · obtain ⟨p, hp, ha⟩ := List.mem_flatMap.mp ha
    obtain ⟨l, -, -, hslots, -⟩ := hsees.exprLogic.exists_of_lookup (AList.mem_lookup_iff.mpr hp)
    have hslot : some a ∈ p.2.fields := by
      obtain ⟨o, ho, rfl⟩ := List.mem_filterMap.mp ha
      exact ho
    generalize p.2.fields = slots, l.fields = slots' at hslots hslot
    induction hslots with
    | nil => exact absurd hslot List.not_mem_nil
    | cons hrel _ ih =>
      rcases List.mem_cons.mp hslot with rfl | hslot
      · cases hrel with
        | some had => exact ⟨_, had⟩
      · exact ih hslot

/-- A node that is pointed to is a node of the registry. -/
theorem Sees.mem_nodes_of_points {owned : Name → List (Addr × FieldDescriptor)}
    (hsees : Sees owned e v) {a : Addr} {d : FieldDescriptor} (had : Points owned a d) :
    a ∈ e.registry.nodes := by
  obtain ⟨schemaName, hmem⟩ := had
  obtain ⟨m, f, hm, -⟩ := hsees.nodes hmem
  exact hsees.mem_nodes.mpr
    ⟨schemaName, AList.lookup_isSome.mp (by rw [hm]; rfl), _, hmem, rfl⟩

/-- **The nodes there are** belong to engines that live. -/
theorem Sound.isSome_memory_iff (hs : Sound s vs owned) {a : Addr} :
    (s.memory a).isSome ↔ ∃ h e, s.engines h = some e ∧ a ∈ e.registry.nodes := by
  constructor
  · intro ha
    obtain ⟨⟨h, n⟩, p, hp, rfl⟩ := hs.covered a ha
    cases he : s.engines h with
    | none =>
      have hseen := hs.seen h
      rw [he] at hseen
      generalize vs h = o at hseen
      cases hseen with
      | none hnil =>
        rw [hnil n] at hp
        exact absurd hp List.not_mem_nil
    | some e =>
      obtain ⟨v, -, hsees⟩ := hs.sees he
      exact ⟨h, e, he, hsees.mem_nodes_of_points ⟨n, hp⟩⟩
  · rintro ⟨h, e, he, ha⟩
    obtain ⟨v, -, hsees⟩ := hs.sees he
    obtain ⟨n, -, p, hp, rfl⟩ := hsees.mem_nodes.mp ha
    rw [hs.ledger.holds hp]
    rfl

/-! ## One action -/

/-- Another engine in the place of one. -/
theorem Sound.seen_update (hs : Sound s vs owned)
    {owned' : ℕ × Name → List (Addr × FieldDescriptor)} {o : Option Engine} {o' : Option Api.Engine}
    (hsame : ∀ h' schemaName, h' ≠ h → owned' (h', schemaName) = owned (h', schemaName))
    (hnew : Seen (fun schemaName => owned' (h, schemaName)) o o') (h' : ℕ) :
    Seen (fun schemaName => owned' (h', schemaName)) (Function.update s.engines h o h')
      (if h = h' then o' else vs h') := by
  by_cases hne : h' = h
  · subst hne
    rw [Function.update_self, if_pos rfl]
    exact hnew
  · rw [Function.update_of_ne hne, if_neg (Ne.symm hne)]
    have hold := hs.seen h'
    rwa [show (fun schemaName => owned (h', schemaName)) = fun schemaName => owned' (h', schemaName)
      from funext fun schemaName => (hsame h' schemaName hne).symm] at hold

theorem Sound.create (hs : Sound s vs owned) (hpossible : s.engines h = none) (slicer : BitSlicer)
    (fieldBuffers : ℕ → ColumnBuffer) :
    Sound (s.step (.create h slicer fieldBuffers))
      (fun h' => (Action.create h slicer fieldBuffers).on h' (vs h')) owned where
  ledger := hs.ledger
  covered := hs.covered
  seen := by
    refine hs.seen_update (fun _ _ _ => rfl) (.some ?_)
    have hseen := hs.seen h
    rw [hpossible] at hseen
    generalize vs h = o at hseen
    cases hseen with
    | none hnil =>
      rw [show (fun schemaName => owned (h, schemaName)) = fun _ => [] from funext hnil]
      exact .new slicer fieldBuffers

/-- **Destroying an engine** takes its nodes from memory and no others. -/
theorem Sound.destroy (hs : Sound s vs owned) (he : s.engines h = some e) :
    Sound (s.step (.destroy h)) (fun h' => (Action.destroy h).on h' (vs h'))
      (leave owned (e.registry.schemas.keys.map fun schemaName => (h, schemaName))) := by
  obtain ⟨v, -, hsees⟩ := hs.sees he
  have hmem : ∀ a, a ∈ e.registry.nodes ↔
      a ∈ addresses owned (e.registry.schemas.keys.map fun schemaName => (h, schemaName)) := by
    intro a
    rw [hsees.mem_nodes, Ownership.mem_addresses]
    constructor
    · rintro ⟨schemaName, hs, p, hp, rfl⟩
      exact ⟨_, List.mem_map_of_mem (AList.mem_keys.mp hs), p, hp, rfl⟩
    · rintro ⟨t, ht, p, hp, rfl⟩
      obtain ⟨schemaName, hs, rfl⟩ := List.mem_map.mp ht
      exact ⟨schemaName, AList.mem_keys.mpr hs, p, hp, rfl⟩
  have hfree : free s.memory e.registry.nodes = free s.memory
      (addresses owned (e.registry.schemas.keys.map fun schemaName => (h, schemaName))) := by
    funext a
    simp only [free, hmem a]
  have hstep : s.step (.destroy h) =
      ⟨free s.memory e.registry.nodes, Function.update s.engines h none⟩ := by
    simp only [Space.step, he]
  rw [hstep, hfree]
  refine ⟨hs.ledger.leave _, fun a ha => ?_, hs.seen_update (fun h' schemaName hne => ?_)
    (.none fun schemaName => ?_)⟩
  · change (free s.memory (addresses owned _) a).isSome at ha
    by_cases hgone : a ∈ addresses owned
      (e.registry.schemas.keys.map fun schemaName => (h, schemaName))
    · rw [Ownership.free_of_mem hgone] at ha
      exact absurd ha (by simp)
    · rw [Ownership.free_of_notMem hgone] at ha
      obtain ⟨t, p, hp, rfl⟩ := hs.covered a ha
      obtain ⟨t', hp'⟩ := Ownership.exists_owner_leave ⟨t, hp⟩ hgone
      exact ⟨t', p, hp', rfl⟩
  · refine if_neg fun ht => hne ?_
    obtain ⟨schemaName', -, heq⟩ := List.mem_map.mp ht
    exact (Prod.mk.inj heq).1.symm
  · -- a schema without an entry has no nodes
    by_contra hnil
    obtain ⟨p, hp⟩ := List.exists_mem_of_ne_nil _ hnil
    obtain ⟨hnot, hp⟩ := Ownership.mem_leave.mp hp
    obtain ⟨m, f, hm, -⟩ := hsees.nodes hp
    have hkey : schemaName ∈ e.registry.schemas := AList.lookup_isSome.mp (by rw [hm]; rfl)
    exact hnot (List.mem_map_of_mem (AList.mem_keys.mp hkey))

/-- **A call** changes its engine only. -/
theorem Sound.call (hs : Sound s vs owned) (he : s.engines h = some e) {c : Call}
    {nodes : List Addr} (hlength : nodes.length = (fieldsOf c).length) (hnd : nodes.Nodup)
    (hfree : ∀ a ∈ nodes, s.memory a = none) :
    ∃ owned', Sound (s.step (.call h c nodes)) (fun h' => (Action.call h c nodes).on h' (vs h'))
      owned' := by
  obtain ⟨v, hv, hsees⟩ := hs.sees he
  have hstep : s.step (.call h c nodes) =
      ⟨(e.call s.memory nodes c).2, Function.update s.engines h (some (e.call s.memory nodes c).1)⟩ := by
    simp only [Space.step, he]
  have hvalue : (fun h' => (Action.call h c nodes).on h' (vs h')) =
      fun h' => if h = h' then some (v.step c) else vs h' := by
    funext h'
    simp only [Action.on]
    split
    · rename_i heq
      rw [← heq, hv, Option.map_some]
    · rfl
  rw [hstep, hvalue]
  -- a call that leaves memory alone
  have hquiet : (e.call s.memory nodes c).2 = s.memory →
      Sees (fun schemaName => owned (h, schemaName)) (e.call s.memory nodes c).1 (v.step c) →
      ∃ owned', Sound ⟨(e.call s.memory nodes c).2,
        Function.update s.engines h (some (e.call s.memory nodes c).1)⟩
        (fun h' => if h = h' then some (v.step c) else vs h') owned' := by
    intro hmemory hsees'
    refine ⟨owned, ?_, ?_, hs.seen_update (fun _ _ _ => rfl) (.some hsees')⟩
    · rw [hmemory]
      exact hs.ledger
    · rw [hmemory]
      exact hs.covered
  cases c with
  | setLogic schemaName fieldName threshold =>
    exact hquiet rfl (hsees.setLogic schemaName fieldName threshold)
  | setExpression schemaName heap g exprRoot mode st =>
    exact hquiet rfl (hsees.setExpression schemaName heap g exprRoot mode st)
  | registerSchema schemaName fields totalRowStride =>
    change nodes.length = fields.length at hlength
    by_cases hknown : schemaName ∈ e.registry.schemas
    · obtain ⟨hmemory, hsees'⟩ := hsees.registerSchema_known hknown hlength hnd hfree
        totalRowStride
      exact hquiet hmemory hsees'
    · obtain ⟨hmemory, hsees'⟩ : (e.registerSchema s.memory schemaName fields totalRowStride
          nodes).2 = _ ∧ _ := hsees.registerSchema_new hknown hlength hnd totalRowStride
      obtain ⟨-, -, hnodup, hmem⟩ := fieldMap_spec hlength hnd
      refine ⟨Function.update owned (h, schemaName)
        (owned (h, schemaName) ++ (fieldMap fields nodes).2), ?_, fun a ha => ?_,
        hs.seen_update (fun h' schemaName' hne => ?_) (.some ?_)⟩
      · show Ledger (e.registerSchema s.memory schemaName fields totalRowStride nodes).2 _
        rw [hmemory]
        exact hs.ledger.allocate _ hnodup fun p hp => hfree _ (hmem p hp)
      · change ((e.registerSchema s.memory schemaName fields totalRowStride nodes).2 a).isSome at ha
        rw [hmemory] at ha
        by_cases hbuilt : a ∈ (fieldMap fields nodes).2.map Prod.fst
        · obtain ⟨p, hp, rfl⟩ := List.mem_map.mp hbuilt
          exact ⟨(h, schemaName), p, Ownership.mem_allocate.mpr (Or.inr ⟨rfl, hp⟩), rfl⟩
        · rw [Ownership.store_of_notMem hbuilt] at ha
          obtain ⟨t, p, hp, rfl⟩ := hs.covered a ha
          exact ⟨t, p, Ownership.mem_allocate.mpr (Or.inl hp), rfl⟩
      · exact Function.update_of_ne (fun heq => hne (Prod.mk.inj heq).1) _ _
      · have howned : (fun schemaName' => Function.update owned (h, schemaName)
            (owned (h, schemaName) ++ (fieldMap fields nodes).2) (h, schemaName')) =
            Function.update (fun schemaName' => owned (h, schemaName')) schemaName
              (owned (h, schemaName) ++ (fieldMap fields nodes).2) := by
          funext schemaName'
          by_cases heq : schemaName' = schemaName
          · rw [heq, Function.update_self, Function.update_self]
          · rw [Function.update_of_ne heq, Function.update_of_ne fun h' => heq (Prod.mk.inj h').2]
        rw [howned]
        exact hsees'

/-- **An execution** changes the buffers of its engine only. -/
theorem Sound.execute (hs : Sound s vs owned) (he : s.engines h = some e) (callers : ℕ → Caller)
    (data : Data) (order : IterationOrder) (rowCount : ℕ) :
    Sound (s.step (.execute h callers data order rowCount))
      (fun h' => (Action.execute h callers data order rowCount).on h' (vs h')) owned := by
  obtain ⟨v, hv, hsees⟩ := hs.sees he
  have hvalue : (fun h' => (Action.execute h callers data order rowCount).on h' (vs h')) =
      fun h' => if h = h' then some (afterExecute v callers data order rowCount) else vs h' := by
    funext h'
    simp only [Action.on]
    split
    · rename_i heq
      rw [← heq, hv, Option.map_some]
    · rfl
  rw [hvalue]
  have hexec := hsees.execute (fun a d had => hs.reads had) callers data order rowCount
  simp only [Space.step, he, afterExecute]
  generalize e.execute s.memory callers data order rowCount = o,
    v.execute callers data order rowCount = o' at hexec
  cases hexec with
  | none =>
    refine ⟨hs.ledger, hs.covered, fun h' => ?_⟩
    have hseen := hs.seen_update (h := h) (fun _ _ _ => rfl) (.some hsees) h'
    rwa [← he, Function.update_eq_self] at hseen
  | some hr =>
    exact ⟨hs.ledger, hs.covered, hs.seen_update (fun _ _ _ => rfl) (.some hr.1)⟩

/-- **Every action keeps the invariant.** -/
theorem Sound.step (hs : Sound s vs owned) {a : Action} (hpossible : s.Possible a) :
    ∃ owned', Sound (s.step a) (fun h => a.on h (vs h)) owned' := by
  cases a with
  | create h slicer fieldBuffers => exact ⟨owned, hs.create hpossible slicer fieldBuffers⟩
  | destroy h =>
    obtain ⟨e, he⟩ := Option.isSome_iff_exists.mp hpossible
    exact ⟨_, hs.destroy he⟩
  | call h c nodes =>
    obtain ⟨hlives, hlength, hnd, hfree⟩ := hpossible
    obtain ⟨e, he⟩ := Option.isSome_iff_exists.mp hlives
    exact hs.call he hlength hnd hfree
  | execute h callers data order rowCount =>
    obtain ⟨e, he⟩ := Option.isSome_iff_exists.mp hpossible
    exact ⟨_, hs.execute he callers data order rowCount⟩

end Sound

/-! ## Runs -/

/-- So it holds after every run. -/
theorem sound_run {as : List Action} (h : Runs.Along Space.step Space.Possible .initial as) :
    ∃ owned, Sound (Runs.run Space.step .initial as) (fun h => engineOf h as) owned := by
  have main : ∀ (as : List Action) (s : Space) (vs : ℕ → Option Api.Engine)
      (owned : ℕ × Name → List (Addr × FieldDescriptor)), Sound s vs owned →
      Runs.Along Space.step Space.Possible s as →
      ∃ owned', Sound (Runs.run Space.step s as) (fun h => as.foldl (Action.on h) (vs h)) owned' := by
    intro as
    induction as with
    | nil => exact fun s vs owned hs _ => ⟨owned, hs⟩
    | cons a as ih =>
      intro s vs owned hs halong
      obtain ⟨owned₁, hs₁⟩ := hs.step halong.1
      exact ih _ _ _ hs₁ halong.2
  exact main as _ _ _ sound_initial h

/-- **Engines in one memory.**  In every run of engines being created, configured, executed and
destroyed, whatever addresses the allocator uses: there is an engine with pointers where there is one
without; it counts what that counts; the pointers it keeps are to nodes of its own registry,
which are there; two engines have no node in common; and the nodes that there are belong to
engines that live. -/
theorem engines_in_memory {as : List Action}
    (h : Runs.Along Space.step Space.Possible .initial as) {s : Space}
    (hs : s = Runs.run Space.step .initial as) :
    (∀ h, (s.engines h).isSome = (engineOf h as).isSome) ∧
    (∀ h e v, s.engines h = some e → engineOf h as = some v → ∀ callers data order rowCount,
      e.count s.memory callers data order rowCount = v.count callers data order rowCount) ∧
    (∀ h e, s.engines h = some e → ∀ a ∈ e.pointers,
      (s.memory a).isSome ∧ a ∈ e.registry.nodes) ∧
    (∀ h h' e e' a, s.engines h = some e → s.engines h' = some e' → a ∈ e.registry.nodes →
      a ∈ e'.registry.nodes → h = h') ∧
    ∀ a, (s.memory a).isSome ↔ ∃ h e, s.engines h = some e ∧ a ∈ e.registry.nodes := by
  obtain ⟨owned, hsound⟩ := sound_run h
  rw [← hs] at hsound
  refine ⟨fun h => ?_, fun h e v he hv callers data order rowCount => ?_, fun h e he a ha => ?_,
    fun h h' e e' a he he' ha ha' => ?_, fun a => hsound.isSome_memory_iff⟩
  · have hseen := hsound.seen h
    generalize s.engines h = o, engineOf h as = o' at hseen
    cases hseen <;> rfl
  · obtain ⟨v', hv', hsees⟩ := hsound.sees he
    obtain rfl := Option.some.inj (hv.symm.trans hv')
    exact hsees.count (fun a d had => hsound.reads had) callers data order rowCount
  · obtain ⟨v, -, hsees⟩ := hsound.sees he
    obtain ⟨d, had⟩ := hsees.points_of_pointer ha
    exact ⟨by rw [hsound.reads had]; rfl, hsees.mem_nodes_of_points had⟩
  · obtain ⟨v, -, hsees⟩ := hsound.sees he
    obtain ⟨v', -, hsees'⟩ := hsound.sees he'
    obtain ⟨n, -, p, hp, rfl⟩ := hsees.mem_nodes.mp ha
    obtain ⟨n', -, p', hp', heq⟩ := hsees'.mem_nodes.mp ha'
    exact (Prod.mk.inj (hsound.ledger.apart hp hp' heq.symm)).1

/-- A schema is registered twice around a threshold; the allocator uses the address 10 for its
field, and 11 for the field of the map that is dropped. -/
def sampleActions : List Action :=
  [.create 1 .portable fun _ _ => 0,
    .call 1 (.registerSchema [115] [sampleField] 8) [10],
    .call 1 (.setLogic [115] [97] 5) [],
    .call 1 (.registerSchema [115] [sampleField] 16) [11]]

/-- The pointer of the threshold is still good. -/
theorem engines_in_memory_sample : ∃ e,
    (Runs.run Space.step .initial sampleActions).engines 1 = some e ∧ e.pointers = [10] ∧
      ∀ a ∈ e.pointers, ((Runs.run Space.step .initial sampleActions).memory a).isSome := by
  have halong : Runs.Along Space.step Space.Possible .initial sampleActions := by
    refine ⟨rfl, ⟨rfl, rfl, by simp, ?_⟩, ⟨rfl, rfl, by simp, by simp⟩, ⟨rfl, rfl, by simp, ?_⟩,
      trivial⟩
    · intro a ha
      rw [List.mem_singleton.mp ha]
      rfl
    · intro a ha
      rw [List.mem_singleton.mp ha]
      rfl
  refine ⟨_, rfl, rfl, fun a ha => ?_⟩
  exact ((engines_in_memory halong rfl).2.2.1 1 _ rfl a ha).1

end Pointers
end Api
end ApexEngine
