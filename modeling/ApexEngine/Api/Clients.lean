import ApexEngine.Api.CApi
import ApexEngine.Api.Space
import ApexEngine.Core.Vectors

/-!
# Clients of the C interface

Programs do not call the C interface themselves.  In Java, in Python and in C++ there is a class
whose objects have a handle each: the constructor creates an engine, the methods pass the handle
on and turn a result of -1 into an exception, and the object gives the engine back, in Java when
`destroy` is called, otherwise when it dies itself.  After that the handle is zero, or nobody has
it any more.

The field names of a client are copied into a vector of strings, and what the interface is given
are pointers into this vector, so they are good only if the vector has not moved when the
interface reads them.  It has not, because it has reserved room for all of them before
(`readDescriptors_marshal`).

A handle is an address, and the C interface cannot know whether there is still an engine.  What
is proved of every run of client objects is that the question does not come up
(`clients_refine`): everything they return or throw is what objects return that have their
engines as values, without handles and without memory; no two objects share an engine, and every
engine there is belongs to an object that was not destroyed.
-/

namespace ApexEngine
namespace Api
namespace Clients

open A64 (Word)
open Core (Name FieldDescriptor)
open Compute (BitSlicer ColumnBuffer Data)
open Jit (Caller Graph NodeRef CompileState)
open Pointers (Addr Space Sound)
open Vectors (Place Vec)

/-! ## Field names -/

/-- The bytes before the zero byte, as `c_str()` gives them to the interface. -/
def cString (s : Name) : Name := s.takeWhile (· ≠ 0)

/-- A field as a client describes it. -/
structure ClientField where
  name : Name
  offset : Word
  bitWidth : Word
  dataType : BitVec 32

/-- The descriptor the interface should see. -/
def ClientField.descriptor (f : ClientField) : CFieldDescriptor :=
  ⟨some (cString f.name), f.offset, f.bitWidth, f.dataType⟩

/-- An `apex_field_descriptor_t` whose name is a pointer. -/
structure RawDescriptor where
  name : Place
  offset : Word
  bitWidth : Word
  dataType : BitVec 32

/-- One round of the loop: the name is pushed, and the descriptor points to it. -/
def marshalField (grow : ℕ → ℕ) (r : Vec Name × List RawDescriptor) (f : ClientField) :
    Vec Name × List RawDescriptor :=
  let names := r.1.push grow f.name
  (names, r.2 ++ [⟨names.back, f.offset, f.bitWidth, f.dataType⟩])

/-- The names and the descriptors of `nativeRegisterSchema`, and of `register_schema` in Python.
There is room for all the names. -/
def marshal (grow : ℕ → ℕ) (fields : List ClientField) : Vec Name × List RawDescriptor :=
  fields.foldl (marshalField grow) (Vec.reserve fields.length, [])

/-- What the interface reads of a descriptor. -/
def readDescriptor (names : Vec Name) (d : RawDescriptor) : Option CFieldDescriptor :=
  (names.read d.name).map fun s => ⟨some (cString s), d.offset, d.bitWidth, d.dataType⟩

/-- What it reads of all of them. -/
def readDescriptors (r : Vec Name × List RawDescriptor) : Option (List CFieldDescriptor) :=
  r.2.mapM (readDescriptor r.1)

section Marshal

variable {grow : ℕ → ℕ} {fields done : List ClientField} {r : Vec Name × List RawDescriptor}

/-- The loop after some fields, with room for the others: every descriptor that was made reads
what it should. -/
structure Marshalled (total : ℕ) (done : List ClientField) (r : Vec Name × List RawDescriptor) :
    Prop where
  length : r.1.elems.length = done.length
  capacity : r.1.capacity = total
  reads : List.Forall₂ (fun d (f : ClientField) => readDescriptor r.1 d = some f.descriptor) r.2 done

/-- One more field is marshalled, and the descriptors before it still read their names. -/
theorem Marshalled.step {total : ℕ} (h : Marshalled total done r) (hroom : done.length < total)
    (f : ClientField) : Marshalled total (done ++ [f]) (marshalField grow r f) := by
  have hlt : r.1.elems.length < r.1.capacity := by
    rw [h.length, h.capacity]
    exact hroom
  refine ⟨?_, (Vec.capacity_push hlt).trans h.capacity, List.rel_append ?_ (.cons ?_ .nil)⟩
  · show (r.1.push grow f.name).elems.length = _
    rw [Vec.elems_push, List.length_append, h.length, List.length_append]
    rfl
  · refine h.reads.imp fun d f' hd => ?_
    obtain ⟨s, hs, hd⟩ := Option.map_eq_some_iff.mp hd
    show Option.map _ ((r.1.push grow f.name).read d.name) = _
    rw [Vec.read_push hlt hs, Option.map_some, hd]
  · show Option.map _ ((r.1.push grow f.name).read (r.1.push grow f.name).back) = _
    rw [Vec.read_back, Option.map_some]
    rfl

/-- **The interface reads the fields of the client**, through pointers into a vector that has
not moved. -/
theorem readDescriptors_marshal (grow : ℕ → ℕ) (fields : List ClientField) :
    readDescriptors (marshal grow fields) = some (fields.map ClientField.descriptor) := by
  have hloop : ∀ (rest done : List ClientField) (r : Vec Name × List RawDescriptor),
      Marshalled (done.length + rest.length) done r →
      Marshalled (done.length + rest.length) (done ++ rest) (rest.foldl (marshalField grow) r) := by
    intro rest
    induction rest with
    | nil =>
      intro done r h
      rwa [List.append_nil]
    | cons f rest ih =>
      intro done r h
      have hnext := ih (done ++ [f]) (marshalField grow r f)
      rw [List.length_append, List.length_singleton, Nat.add_assoc, Nat.add_comm 1,
        List.append_assoc] at hnext
      exact hnext (h.step (by simp) f)
  have h := hloop fields [] (Vec.reserve fields.length, []) ⟨rfl, (Nat.zero_add _).symm, .nil⟩
  rw [List.nil_append] at h
  have hmap : ∀ {ds : List RawDescriptor} {fs : List ClientField} {names : Vec Name},
      List.Forall₂ (fun d (f : ClientField) => readDescriptor names d = some f.descriptor) ds fs →
      ds.mapM (readDescriptor names) = some (fs.map ClientField.descriptor) := by
    intro ds fs names hreads
    induction hreads with
    | nil => rfl
    | cons hd _ ih =>
      rw [List.mapM_cons, hd, ih]
      rfl
  exact hmap h.reads

/-- Without room the second name moves the first: the first pointer reads nothing. -/
example : readDescriptors ([⟨[97], 0, 64, 0⟩, ⟨[98], 8, 64, 0⟩].foldl (marshalField fun n => n + 1)
    (Vec.reserve 0, [])) = none := rfl

end Marshal

/-- `data()` of a vector: null when there is nothing in it and nothing was reserved. -/
def dataOf {α : Type} (v : List α) : Option (List α) := if v.isEmpty then none else some v

/-! ## Objects -/

/-- What a method does: it returns, with a number or without, it throws, the process faults in
the kernel, or a handle is used that is the address of no engine, and then anything can happen. -/
inductive Outcome where
  | done
  | returned (result : Word)
  | threw (message : String)
  | faulted
  | undefined

/-- A use of an object.  In Java and in Python a schema has fields with names, in C++ it has
descriptors.  Java has `direct` buffers and others; elsewhere all are direct. -/
inductive Use where
  | registerSchema (schemaName : Name) (fields : List ClientField) (stride : Word)
      (nodes : List Addr)
  | registerDescriptors (schemaName : Name) (fields : Option (List CFieldDescriptor))
      (stride : Word) (nodes : List Addr)
  | setLogic (schemaName : Name) (heap : ℕ → Word) (g : Graph) (irRoot : Option NodeRef) (mode : ℤ)
      (st : CompileState) (added : Bool)
  | execute (direct : Bool) (data : Option Data) (callers : ℕ → Caller) (order : IterationOrder)
      (count : ℕ)
  | destroy

/-- A step of a client: it constructs an object, for which `apex_create` returns a handle or
zero, or it uses one. -/
inductive Step where
  | construct (o : ℕ) (handle : ℕ) (slicer : BitSlicer) (fieldBuffers : ℕ → ColumnBuffer)
  | use (o : ℕ) (u : Use)

/-- Throw when the result of a call is not zero. -/
def check (message : String) (result : ℤ) : Outcome :=
  if result ≠ 0 then .threw message else .done

/-- Throw when the result of an execution is -1. -/
def checkCount (result : Word) : Outcome :=
  if result = -1 then .threw "Execution failed" else .returned result

/-! ## The C interface on handles -/

/-- What a call of the C interface comes to. -/
inductive Native (α : Type) where
  | returns (space : Space) (result : α)
  | faulted
  | undefined

section Native

variable (space : Space) (handle : ℕ)

/-- `apex_destroy`. -/
def apexDestroy : Native Unit :=
  if handle = 0 then .returns space ()
  else if (space.engines handle).isNone then .undefined
  else .returns (space.step (.destroy handle)) ()

/-- `apex_register_schema`. -/
def apexRegisterSchema (schemaName : Name) (fields : Option (List CFieldDescriptor)) (stride : Word)
    (nodes : List Addr) : Native ℤ :=
  match fields with
  | none => .returns space (-1)
  | some fields =>
      if handle = 0 then .returns space (-1)
      else
        match fields.mapM CFieldDescriptor.narrow with
        | none => .returns space (-1)
        | some cppFields =>
            if (space.engines handle).isNone then .undefined
            else .returns (space.step (.call handle
              (.registerSchema schemaName cppFields stride.toNat) nodes)) 0

/-- `apex_set_logic`. -/
def apexSetLogic (schemaName : Name) (heap : ℕ → Word) (g : Graph) (irRoot : Option NodeRef)
    (mode : ℤ) (st : CompileState) (added : Bool) : Native ℤ :=
  match irRoot with
  | none => .returns space (-1)
  | some root =>
      if handle = 0 then .returns space (-1)
      else if (space.engines handle).isNone then .undefined
      else if added then .returns (space.step (.call handle
        (.setExpression schemaName heap g (some root) (execMode mode) st) [])) 0
      else .returns space 0

/-- `apex_execute`. -/
def apexExecute (data : Option Data) (callers : ℕ → Caller) (order : IterationOrder) (count : ℕ) :
    Native Word :=
  match data with
  | none => .returns space (-1)
  | some data =>
      if handle = 0 then .returns space (-1)
      else
        match space.engines handle with
        | none => .undefined
        | some e =>
            match e.count space.memory callers data order count with
            | none => .faulted
            | some m =>
                .returns (space.step (.execute handle callers data order count)) (BitVec.ofNat 64 m)

end Native

/-! ## Objects with handles -/

/-- A process: its memory with its engines, and the handles of its objects. -/
structure Process where
  space : Space
  handles : ℕ → Option ℕ

/-- What a method makes of the result of a call. -/
def Native.outcome {α : Type} (p : Process) (result : α → Outcome) : Native α → Process × Outcome
  | .returns space a => ({ p with space := space }, result a)
  | .faulted => (p, .faulted)
  | .undefined => (p, .undefined)

namespace Process

def initial : Process := ⟨.initial, fun _ => none⟩

/-- A use of an object with a handle.  An object that is destroyed has the handle zero. -/
def use (p : Process) (o handle : ℕ) : Use → Process × Outcome
  | .registerSchema schemaName fields stride nodes =>
      match readDescriptors (marshal (fun n => 2 * n) fields) with
      | none => (p, .undefined)
      | some cFields =>
          (apexRegisterSchema p.space handle (cString schemaName) (dataOf cFields) stride
            nodes).outcome p (check "Failed to register schema")
  | .registerDescriptors schemaName fields stride nodes =>
      (apexRegisterSchema p.space handle (cString schemaName) fields stride nodes).outcome p
        (check "Failed to register schema")
  | .setLogic schemaName heap g irRoot mode st added =>
      (apexSetLogic p.space handle (cString schemaName) heap g irRoot mode st added).outcome p
        (check "Failed to set logic")
  | .execute direct data callers order count =>
      if direct then (apexExecute p.space handle data callers order count).outcome p checkCount
      else (p, .threw "Data buffer must be a direct ByteBuffer for zero-copy JIT ingestion")
  | .destroy =>
      let r := (apexDestroy p.space handle).outcome p fun _ => .done
      ({ r.1 with handles := Function.update r.1.handles o (some 0) }, r.2)

/-- A step of a client.  An object whose constructor throws does not come to be. -/
def step (p : Process) : Step → Process × Outcome
  | .construct o handle slicer fieldBuffers =>
      if handle = 0 then (p, .threw "Failed to create Apex Engine")
      else (⟨p.space.step (.create handle slicer fieldBuffers),
        Function.update p.handles o (some handle)⟩, .done)
  | .use o u =>
      match p.handles o with
      | none => (p, .undefined)
      | some handle => p.use o handle u

/-- The allocator has different addresses that are free, one for each field. -/
def Allocates (p : Process) (nodes : List Addr) (fields : ℕ) : Prop :=
  nodes.length = fields ∧ nodes.Nodup ∧ ∀ a ∈ nodes, p.space.memory a = none

/-- What can happen: an object is constructed once, with a handle that is no engine's, and used
after that. -/
def Possible (p : Process) : Step → Prop
  | .construct o handle _ _ => p.handles o = none ∧ p.space.engines handle = none
  | .use o u => (p.handles o).isSome ∧
      match u with
      | .registerSchema _ fields _ nodes => p.Allocates nodes fields.length
      | .registerDescriptors _ fields _ nodes => p.Allocates nodes (fields.getD []).length
      | _ => True

end Process

/-! ## Objects with engines -/

/-- What a use makes of an object that has an engine, or none because it is destroyed. -/
def useEngine (e : Option Api.Engine) : Use → Option Api.Engine × Outcome
  | .registerSchema schemaName fields stride _ =>
      let r := Api.apexRegisterSchema e (some (cString schemaName))
        (dataOf (fields.map ClientField.descriptor)) stride
      (r.2, check "Failed to register schema" r.1)
  | .registerDescriptors schemaName fields stride _ =>
      let r := Api.apexRegisterSchema e (some (cString schemaName)) fields stride
      (r.2, check "Failed to register schema" r.1)
  | .setLogic schemaName heap g irRoot mode st added =>
      let r := Api.apexSetLogic e (some (cString schemaName)) heap g irRoot mode st added
      (r.2.1, check "Failed to set logic" r.1)
  | .execute direct data callers order count =>
      if direct then
        match e, data with
        | some v, some data =>
            match v.execute callers data order count with
            | none => (some v, .faulted)
            | some (v, m) => (some v, checkCount (BitVec.ofNat 64 m))
        | e, _ => (e, checkCount (-1))
      else (e, .threw "Data buffer must be a direct ByteBuffer for zero-copy JIT ingestion")
  | .destroy => (none, .done)

/-- The objects of a process, by their engines. -/
abbrev Objects := ℕ → Option (Option Api.Engine)

/-- A step of a client, on objects. -/
def Objects.step (objects : Objects) : Step → Objects × Outcome
  | .construct o handle slicer fieldBuffers =>
      if handle = 0 then (objects, .threw "Failed to create Apex Engine")
      else (Function.update objects o (some (some (Api.Engine.new slicer fieldBuffers))), .done)
  | .use o u =>
      match objects o with
      | none => (objects, .undefined)
      | some e =>
          let r := useEngine e u
          (Function.update objects o (some r.1), r.2)

/-! ## What holds of a process -/

/-- **The invariant.**  Behind a handle that is not zero there is an engine, the one of the
object; it is behind no other, and every engine is behind one. -/
structure Agree (p : Process) (objects : Objects) (vs : ℕ → Option Api.Engine)
    (owned : ℕ × Name → List (Addr × FieldDescriptor)) : Prop where
  sound : Sound p.space vs owned
  null : vs 0 = none
  object : ∀ o, objects o = (p.handles o).map vs
  live : ∀ o k, p.handles o = some k → k ≠ 0 → (vs k).isSome
  apart : ∀ o o' k, p.handles o = some k → p.handles o' = some k → k ≠ 0 → o = o'
  reached : ∀ k, (vs k).isSome → ∃ o, p.handles o = some k

section Agree

variable {p : Process} {objects : Objects} {vs : ℕ → Option Api.Engine}
  {owned : ℕ × Name → List (Addr × FieldDescriptor)} {o k : ℕ} {v : Api.Engine}

theorem agree_initial : Agree .initial (fun _ => none) (fun _ => none) fun _ => [] where
  sound := Pointers.sound_initial
  null := rfl
  object _ := rfl
  live _ _ h := absurd h (by simp [Process.initial])
  apart _ _ _ h := absurd h (by simp [Process.initial])
  reached _ h := absurd h (by simp)

/-- The engine behind a handle is that of its object. -/
theorem Agree.engine (h : Agree p objects vs owned) (ho : p.handles o = some k) (hk : k ≠ 0) :
    ∃ v e, vs k = some v ∧ p.space.engines k = some e ∧
      Pointers.Sees (fun schemaName => owned (k, schemaName)) e v := by
  obtain ⟨v, hv⟩ := Option.isSome_iff_exists.mp (h.live o k ho hk)
  have hseen := h.sound.seen k
  rw [hv] at hseen
  generalize p.space.engines k = x at hseen
  cases hseen with
  | some hsees => exact ⟨v, _, hv, rfl, hsees⟩

/-- One object has another handle, or another engine behind it. -/
theorem Agree.replace (h : Agree p objects vs owned) {space' : Space}
    {vs' : ℕ → Option Api.Engine} {owned' : ℕ × Name → List (Addr × FieldDescriptor)}
    (hsound : Sound space' vs' owned') (o k' : ℕ) (hnull : vs' 0 = none)
    (hlive : k' ≠ 0 → (vs' k').isSome)
    (hothers : ∀ o' j, o' ≠ o → p.handles o' = some j → j ≠ 0 → vs' j = vs j ∧ j ≠ k')
    (hreached : ∀ j, (vs' j).isSome → j = k' ∨ ∃ o' ≠ o, p.handles o' = some j) :
    Agree ⟨space', Function.update p.handles o (some k')⟩
      (Function.update objects o (some (vs' k'))) vs' owned' := by
  have hhandle : ∀ {o' j}, Function.update p.handles o (some k') o' = some j → j ≠ 0 →
      o' = o ∧ j = k' ∨ o' ≠ o ∧ p.handles o' = some j ∧ vs' j = vs j ∧ j ≠ k' := by
    intro o' j ho' hj
    by_cases heq : o' = o
    · rw [heq, Function.update_self] at ho'
      exact Or.inl ⟨heq, (Option.some.inj ho').symm⟩
    · rw [Function.update_of_ne heq] at ho'
      exact Or.inr ⟨heq, ho', hothers o' j heq ho' hj⟩
  refine ⟨hsound, hnull, fun o' => ?_, fun o' j ho' hj => ?_, fun o₁ o₂ j ho₁ ho₂ hj => ?_,
    fun j hj => ?_⟩
  · show Function.update objects o _ o' = (Function.update p.handles o _ o').map vs'
    by_cases heq : o' = o
    · rw [heq, Function.update_self, Function.update_self, Option.map_some]
    · rw [Function.update_of_ne heq, Function.update_of_ne heq, h.object o']
      cases ho' : p.handles o' with
      | none => rfl
      | some j =>
        by_cases hj : j = 0
        · rw [hj, Option.map_some, Option.map_some, h.null, hnull]
        · rw [Option.map_some, Option.map_some, (hothers o' j heq ho' hj).1]
  · rcases hhandle ho' hj with ⟨-, rfl⟩ | ⟨-, hold, hsame, -⟩
    · exact hlive hj
    · rw [hsame]
      exact h.live o' j hold hj
  · rcases hhandle ho₁ hj with ⟨rfl, rfl⟩ | ⟨-, hold₁, -, hne₁⟩
    · rcases hhandle ho₂ hj with ⟨rfl, -⟩ | ⟨-, -, -, hne₂⟩
      · rfl
      · exact absurd rfl hne₂
    · rcases hhandle ho₂ hj with ⟨-, rfl⟩ | ⟨-, hold₂, -, -⟩
      · exact absurd rfl hne₁
      · exact h.apart o₁ o₂ j hold₁ hold₂ hj
  · rcases hreached j hj with rfl | ⟨o', hne, ho'⟩
    · exact ⟨o, Function.update_self ..⟩
    · exact ⟨o', (Function.update_of_ne hne _ _).trans ho'⟩

/-- Other objects have other handles. -/
theorem Agree.other (h : Agree p objects vs owned) (ho : p.handles o = some k) {o' j : ℕ}
    (hne : o' ≠ o) (ho' : p.handles o' = some j) (hj : j ≠ 0) : j ≠ k := by
  rintro rfl
  exact hne (h.apart o' o j ho' ho hj)

/-- Who has an engine that is not this one. -/
theorem Agree.reached_other (h : Agree p objects vs owned) (ho : p.handles o = some k) {j : ℕ}
    (hne : j ≠ k) (hj : (vs j).isSome) : ∃ o' ≠ o, p.handles o' = some j := by
  obtain ⟨o', ho'⟩ := h.reached j hj
  refine ⟨o', ?_, ho'⟩
  rintro rfl
  exact hne (Option.some.inj (ho'.symm.trans ho))

/-- An engine does something, and its object with it. -/
theorem Agree.act (h : Agree p objects vs owned) (ho : p.handles o = some k) (hk : k ≠ 0)
    {a : Pointers.Action} (hpossible : p.space.Possible a) (hother : ∀ k' x, k' ≠ k → a.on k' x = x)
    (hlive : a.on k (vs k) = some v) :
    ∃ vs' owned', Agree { p with space := p.space.step a }
      (Function.update objects o (some (some v))) vs' owned' := by
  obtain ⟨owned', hsound⟩ := h.sound.step hpossible
  have hagree := h.replace hsound o k ((hother 0 _ hk.symm).trans h.null)
    (fun _ => by rw [hlive]; rfl)
    (fun o' j hne ho' hj =>
      have hjk := h.other ho hne ho' hj
      ⟨hother j _ hjk, hjk⟩)
    (fun j hj => by
      by_cases heq : j = k
      · exact Or.inl heq
      · rw [hother j _ heq] at hj
        exact Or.inr (h.reached_other ho heq hj))
  rw [hlive, ← ho, Function.update_eq_self] at hagree
  exact ⟨_, owned', hagree⟩

theorem Agree.same {e : Option Api.Engine} (h : Agree p objects vs owned) (ho : objects o = some e) :
    Agree p (Function.update objects o (some e)) vs owned := by
  rw [← ho, Function.update_eq_self]
  exact h

/-- As many descriptors as there were. -/
theorem length_narrow {fields : List CFieldDescriptor} {cppFields : List FieldDescriptor}
    (h : fields.mapM CFieldDescriptor.narrow = some cppFields) :
    cppFields.length = fields.length := by
  induction fields generalizing cppFields with
  | nil =>
    obtain rfl := Option.some.inj h
    rfl
  | cons d fields ih =>
    rw [List.mapM_cons] at h
    obtain ⟨d', -, h⟩ := Option.bind_eq_some_iff.mp h
    obtain ⟨rest, hrest, h⟩ := Option.bind_eq_some_iff.mp h
    obtain rfl := Option.some.inj h
    rw [List.length_cons, List.length_cons, ih hrest]

/-- What a use of an object should come to. -/
def Refines (r : Process × Outcome) (objects : Objects) (o : ℕ)
    (r' : Option Api.Engine × Outcome) : Prop :=
  (∃ vs owned, Agree r.1 (Function.update objects o (some r'.1)) vs owned) ∧ r.2 = r'.2

theorem Agree.refines_same {e : Option Api.Engine} {outcome : Outcome}
    (h : Agree p objects vs owned) (ho : objects o = some e) :
    Refines (p, outcome) objects o (e, outcome) :=
  ⟨⟨vs, owned, h.same ho⟩, rfl⟩

/-- **`apex_register_schema`** does to the engine behind a handle what it does to a value. -/
theorem Agree.registerSchema (h : Agree p objects vs owned) (ho : p.handles o = some k)
    (schemaName : Name) (fields : Option (List CFieldDescriptor)) (stride : Word)
    {nodes : List Addr} (hnodes : p.Allocates nodes (fields.getD []).length)
    (result : ℤ → Outcome) :
    Refines ((apexRegisterSchema p.space k schemaName fields stride nodes).outcome p result) objects o
      ((Api.apexRegisterSchema (vs k) (some schemaName) fields stride).2,
        result (Api.apexRegisterSchema (vs k) (some schemaName) fields stride).1) := by
  have hobject : objects o = some (vs k) := by rw [h.object, ho, Option.map_some]
  cases fields with
  | none =>
    have hvalue : Api.apexRegisterSchema (vs k) (some schemaName) none stride = (-1, vs k) := by
      cases vs k <;> rfl
    rw [hvalue]
    exact h.refines_same hobject
  | some fields =>
    by_cases hk : k = 0
    · subst hk
      rw [h.null] at hobject ⊢
      exact h.refines_same hobject
    · obtain ⟨v, e, hv, he, -⟩ := h.engine ho hk
      rw [hv] at hobject ⊢
      simp only [apexRegisterSchema, Api.apexRegisterSchema, if_neg hk]
      cases hnarrow : fields.mapM CFieldDescriptor.narrow with
      | none => exact h.refines_same hobject
      | some cppFields =>
        have hpossible : p.space.Possible (.call k
            (.registerSchema schemaName cppFields stride.toNat) nodes) := by
          refine ⟨by rw [he]; rfl, ?_, hnodes.2⟩
          rw [hnodes.1]
          exact (length_narrow hnarrow).symm
        simp only [he, Option.isNone_some, Bool.false_eq_true, if_false]
        refine ⟨h.act ho hk hpossible (fun k' x hne => if_neg hne.symm) ?_, rfl⟩
        rw [hv]
        exact if_pos rfl

/-- So does `apex_set_logic`. -/
theorem Agree.setLogic (h : Agree p objects vs owned) (ho : p.handles o = some k)
    (schemaName : Name) (heap : ℕ → Word) (g : Graph) (irRoot : Option NodeRef) (mode : ℤ)
    (st : CompileState) (added : Bool) (result : ℤ → Outcome) :
    Refines ((apexSetLogic p.space k schemaName heap g irRoot mode st added).outcome p result)
      objects o
      ((Api.apexSetLogic (vs k) (some schemaName) heap g irRoot mode st added).2.1,
        result (Api.apexSetLogic (vs k) (some schemaName) heap g irRoot mode st added).1) := by
  have hobject : objects o = some (vs k) := by rw [h.object, ho, Option.map_some]
  cases irRoot with
  | none =>
    have hvalue : Api.apexSetLogic (vs k) (some schemaName) heap g none mode st added =
        (-1, vs k, st) := by
      cases vs k <;> rfl
    rw [hvalue]
    exact h.refines_same hobject
  | some root =>
    by_cases hk : k = 0
    · subst hk
      rw [h.null] at hobject ⊢
      exact h.refines_same hobject
    · obtain ⟨v, e, hv, he, -⟩ := h.engine ho hk
      rw [hv] at hobject ⊢
      simp only [apexSetLogic, Api.apexSetLogic, if_neg hk, he, Option.isNone_some,
        Bool.false_eq_true, if_false]
      cases added with
      | false => exact h.refines_same hobject
      | true =>
        have hpossible : p.space.Possible (.call k
            (.setExpression schemaName heap g (some root) (execMode mode) st) []) :=
          ⟨by rw [he]; rfl, rfl, .nil, fun a ha => absurd ha List.not_mem_nil⟩
        refine ⟨h.act ho hk hpossible (fun k' x hne => if_neg hne.symm) ?_, rfl⟩
        rw [hv]
        exact if_pos rfl

/-- And `apex_execute` counts what it counts for a value. -/
theorem Agree.execute (h : Agree p objects vs owned) (ho : p.handles o = some k)
    (data : Option Data) (callers : ℕ → Caller) (order : IterationOrder) (count : ℕ) :
    Refines ((apexExecute p.space k data callers order count).outcome p checkCount) objects o
      (useEngine (vs k) (.execute true data callers order count)) := by
  have hobject : objects o = some (vs k) := by rw [h.object, ho, Option.map_some]
  cases data with
  | none =>
    have hvalue : useEngine (vs k) (.execute true none callers order count) =
        (vs k, checkCount (-1)) := by
      cases vs k <;> rfl
    rw [hvalue]
    exact h.refines_same hobject
  | some data =>
    by_cases hk : k = 0
    · subst hk
      rw [h.null] at hobject ⊢
      exact h.refines_same hobject
    · obtain ⟨v, e, hv, he, hsees⟩ := h.engine ho hk
      rw [hv] at hobject ⊢
      have hcount := hsees.count (fun a d had => h.sound.reads had) callers data order count
      simp only [apexExecute, useEngine, if_neg hk, he, hcount, Api.Engine.count, if_true]
      cases hexec : v.execute callers data order count with
      | none => exact h.refines_same hobject
      | some r =>
        have hpossible : p.space.Possible (.execute k callers data order count) := by
          show (p.space.engines k).isSome
          rw [he]
          rfl
        refine ⟨h.act ho hk hpossible (fun k' x hne => if_neg hne.symm) ?_, rfl⟩
        rw [hv]
        refine (if_pos rfl).trans ?_
        rw [Option.map_some, Pointers.afterExecute, hexec]
        rfl

/-- **`apex_destroy`**, after which the object has no handle. -/
theorem Agree.destroy (h : Agree p objects vs owned) (ho : p.handles o = some k) :
    Refines (p.use o k .destroy) objects o (none, .done) := by
  by_cases hk : k = 0
  · subst hk
    have huse : p.use o 0 .destroy = (p, .done) := by
      show (({ p with handles := Function.update p.handles o (some 0) } : Process), _) = _
      rw [← ho, Function.update_eq_self]
      rfl
    rw [huse]
    refine h.refines_same ?_
    rw [h.object, ho, Option.map_some, h.null]
  · obtain ⟨v, e, hv, he, -⟩ := h.engine ho hk
    have huse : p.use o k .destroy =
        (⟨p.space.step (.destroy k), Function.update p.handles o (some 0)⟩, .done) := by
      simp only [Process.use, apexDestroy, if_neg hk, he, Option.isNone_some, Bool.false_eq_true,
        if_false, Native.outcome]
    have hpossible : p.space.Possible (.destroy k) := by
      show (p.space.engines k).isSome
      rw [he]
      rfl
    obtain ⟨owned', hsound⟩ := h.sound.step hpossible
    have hvs : ∀ j, j ≠ k → (Pointers.Action.destroy k).on j (vs j) = vs j := fun j hne =>
      if_neg hne.symm
    have hnull := (hvs 0 (Ne.symm hk)).trans h.null
    have hagree := h.replace hsound o 0 hnull (fun hzero => absurd rfl hzero)
      (fun o' j hne ho' hj => ⟨hvs j (h.other ho hne ho' hj), hj⟩)
      (fun j hj => by
        have hne : j ≠ k := by
          rintro rfl
          exact absurd hj (by simp [Pointers.Action.on])
        rw [hvs j hne] at hj
        exact Or.inr (h.reached_other ho hne hj))
    rw [hnull] at hagree
    rw [huse]
    exact ⟨⟨_, owned', hagree⟩, rfl⟩

/-- **A constructor** gives its object an engine, or throws and leaves it without one. -/
theorem Agree.construct (h : Agree p objects vs owned) (ho : p.handles o = none)
    (hfree : p.space.engines k = none) (slicer : BitSlicer) (fieldBuffers : ℕ → ColumnBuffer) :
    (∃ vs' owned', Agree (p.step (.construct o k slicer fieldBuffers)).1
      (objects.step (.construct o k slicer fieldBuffers)).1 vs' owned') ∧
    (p.step (.construct o k slicer fieldBuffers)).2 =
      (objects.step (.construct o k slicer fieldBuffers)).2 := by
  by_cases hk : k = 0
  · simp only [Process.step, Objects.step, if_pos hk]
    exact ⟨⟨vs, owned, h⟩, trivial⟩
  · simp only [Process.step, Objects.step, if_neg hk]
    have hpossible : p.space.Possible (.create k slicer fieldBuffers) := hfree
    obtain ⟨owned', hsound⟩ := h.sound.step hpossible
    have hnew : (Pointers.Action.create k slicer fieldBuffers).on k (vs k) =
        some (Api.Engine.new slicer fieldBuffers) := if_pos rfl
    have hvs : ∀ j, j ≠ k → (Pointers.Action.create k slicer fieldBuffers).on j (vs j) = vs j :=
      fun j hne => if_neg hne.symm
    -- nobody has the handle yet
    have hnobody : vs k = none := by
      have hseen := h.sound.seen k
      rw [hfree] at hseen
      generalize vs k = x at hseen
      cases hseen
      rfl
    have hother : ∀ o' j, p.handles o' = some j → j ≠ 0 → j ≠ k := by
      rintro o' j ho' hj rfl
      have hsome := h.live o' j ho' hj
      rw [hnobody] at hsome
      exact absurd hsome (by simp)
    have hagree := h.replace hsound o k ((hvs 0 (Ne.symm hk)).trans h.null)
      (fun _ => by rw [hnew]; rfl)
      (fun o' j _ ho' hj => ⟨hvs j (hother o' j ho' hj), hother o' j ho' hj⟩)
      (fun j hj => by
        by_cases heq : j = k
        · exact Or.inl heq
        · rw [hvs j heq] at hj
          obtain ⟨o', ho'⟩ := h.reached j hj
          refine Or.inr ⟨o', ?_, ho'⟩
          rintro rfl
          rw [ho] at ho'
          exact absurd ho' (by simp))
    rw [hnew] at hagree
    exact ⟨⟨_, owned', hagree⟩, trivial⟩

/-- No use of an object is undefined. -/
theorem useEngine_ne_undefined (e : Option Api.Engine) (u : Use) :
    (useEngine e u).2 ≠ .undefined := by
  have hcheck : ∀ message result, check message result ≠ .undefined := by
    intro message result
    unfold check
    split <;> simp
  have hcount : ∀ result, checkCount result ≠ .undefined := by
    intro result
    unfold checkCount
    split <;> simp
  cases u with
  | registerSchema | registerDescriptors | setLogic => exact hcheck _ _
  | destroy => simp [useEngine]
  | execute direct data callers order count =>
    cases direct with
    | false => simp [useEngine]
    | true =>
      cases e with
      | none => exact hcount (-1)
      | some v =>
        cases data with
        | none => exact hcount (-1)
        | some data =>
          simp only [useEngine, if_true]
          cases v.execute callers data order count with
          | none => simp
          | some r => exact hcount _

/-- **Every step keeps the invariant**, and both levels have the same outcome. -/
theorem Agree.step (h : Agree p objects vs owned) {a : Step} (hpossible : p.Possible a) :
    (∃ vs' owned', Agree (p.step a).1 (objects.step a).1 vs' owned') ∧
      (p.step a).2 = (objects.step a).2 ∧ (p.step a).2 ≠ .undefined := by
  cases a with
  | construct o handle slicer fieldBuffers =>
    obtain ⟨hagree, houtcome⟩ := h.construct hpossible.1 hpossible.2 slicer fieldBuffers
    refine ⟨hagree, houtcome, ?_⟩
    simp only [Process.step]
    split <;> simp
  | use o u =>
    obtain ⟨hhandle, hu⟩ := hpossible
    obtain ⟨k, ho⟩ := Option.isSome_iff_exists.mp hhandle
    have hobject : objects o = some (vs k) := by rw [h.object, ho, Option.map_some]
    have huse : Refines (p.use o k u) objects o (useEngine (vs k) u) := by
      cases u with
      | registerSchema schemaName fields stride nodes =>
        simp only [Process.use, readDescriptors_marshal]
        refine h.registerSchema ho _ _ stride ?_ _
        have hlength : ((dataOf (fields.map ClientField.descriptor)).getD []).length =
            fields.length := by
          cases fields <;> simp [dataOf]
        rw [hlength]
        exact hu
      | registerDescriptors schemaName fields stride nodes =>
        exact h.registerSchema ho _ fields stride hu _
      | setLogic schemaName heap g irRoot mode st added =>
        exact h.setLogic ho _ heap g irRoot mode st added _
      | execute direct data callers order count =>
        cases direct with
        | false => exact h.refines_same hobject
        | true => exact h.execute ho data callers order count
      | destroy => exact h.destroy ho
    simp only [Process.step, Objects.step, ho, hobject]
    refine ⟨huse.1, huse.2, ?_⟩
    rw [huse.2]
    exact useEngine_ne_undefined _ _

end Agree

/-! ## Runs -/

/-- The outcomes of a run. -/
def Process.outcomes (p : Process) (as : List Step) : List Outcome :=
  Runs.emitted (fun p a => (Process.step p a).1) (fun p a => some (Process.step p a).2) p as

/-- The process after a run. -/
def Process.run (p : Process) (as : List Step) : Process :=
  Runs.run (fun p a => (Process.step p a).1) p as

/-- What happens in a run is possible. -/
def Process.Runs (p : Process) (as : List Step) : Prop :=
  Runs.Along (fun p a => (Process.step p a).1) Process.Possible p as

/-- The outcomes of a run of objects. -/
def Objects.outcomes (objects : Objects) (as : List Step) : List Outcome :=
  Runs.emitted (fun objects a => (Objects.step objects a).1)
    (fun objects a => some (Objects.step objects a).2) objects as

/-- The objects after a run. -/
def Objects.run (objects : Objects) (as : List Step) : Objects :=
  Runs.run (fun objects a => (Objects.step objects a).1) objects as

/-- **A run keeps the invariant**, with the same outcomes on both levels. -/
theorem Agree.run {as : List Step} : ∀ {p : Process} {objects : Objects}
    {vs : ℕ → Option Api.Engine} {owned : ℕ × Name → List (Addr × FieldDescriptor)},
    Agree p objects vs owned → p.Runs as →
    (∃ vs' owned', Agree (p.run as) (objects.run as) vs' owned') ∧
      p.outcomes as = objects.outcomes as ∧ .undefined ∉ p.outcomes as := by
  induction as with
  | nil => exact fun h _ => ⟨⟨_, _, h⟩, rfl, List.not_mem_nil⟩
  | cons a as ih =>
    intro p objects vs owned h hrun
    obtain ⟨⟨vs', owned', hnext⟩, houtcome, hdefined⟩ := h.step hrun.1
    obtain ⟨hend, houtcomes, hrest⟩ := ih hnext hrun.2
    have hcons : p.outcomes (a :: as) = (p.step a).2 :: (p.step a).1.outcomes as := rfl
    refine ⟨hend, ?_, ?_⟩
    · rw [hcons, houtcome, houtcomes]
      rfl
    · rw [hcons, List.mem_cons]
      rintro (heq | hmem)
      · exact hdefined heq.symm
      · exact hrest hmem

/-- **Objects with handles are objects with engines.**  In every run of objects being constructed,
used and destroyed, whatever addresses the allocator uses, also those of engines and of nodes
that are gone: what the objects return or throw is what they would with engines as values, and
no handle is used that has no engine.  After the run no two objects have one engine; the engines
there are belong to objects that were not destroyed; and so do the nodes. -/
theorem clients_refine {as : List Step} (h : Process.initial.Runs as) {p : Process}
    (hp : p = Process.initial.run as) :
    Process.initial.outcomes as = Objects.outcomes (fun _ => none) as ∧
    .undefined ∉ Process.initial.outcomes as ∧
    (∀ o o' k, p.handles o = some k → p.handles o' = some k → k ≠ 0 → o = o') ∧
    (∀ k, (p.space.engines k).isSome ↔ k ≠ 0 ∧ ∃ o, p.handles o = some k) ∧
    (∀ o, (p.handles o = some 0 ↔ Objects.run (fun _ => none) as o = some none)) ∧
    ∀ a, (p.space.memory a).isSome ↔
      ∃ o k e, p.handles o = some k ∧ p.space.engines k = some e ∧ a ∈ e.registry.nodes := by
  obtain ⟨⟨vs, owned, hagree⟩, houtcomes, hdefined⟩ := agree_initial.run h
  rw [← hp] at hagree
  have hengine : ∀ k, (p.space.engines k).isSome = (vs k).isSome := fun k => by
    have hseen := hagree.sound.seen k
    generalize p.space.engines k = x, vs k = x' at hseen
    cases hseen <;> rfl
  have hiff : ∀ k, (p.space.engines k).isSome ↔ k ≠ 0 ∧ ∃ o, p.handles o = some k := by
    intro k
    rw [hengine]
    constructor
    · intro hk
      refine ⟨?_, hagree.reached k hk⟩
      rintro rfl
      rw [hagree.null] at hk
      exact absurd hk (by simp)
    · rintro ⟨hk, o, ho⟩
      exact hagree.live o k ho hk
  refine ⟨houtcomes, hdefined, hagree.apart, hiff, fun o => ?_, fun a => ?_⟩
  · rw [hagree.object o]
    cases ho : p.handles o with
    | none => simp
    | some k =>
      rw [Option.map_some, Option.some_inj, Option.some_inj]
      constructor
      · rintro rfl
        exact hagree.null
      · intro hnone
        by_contra hk
        have hlive := hagree.live o k ho hk
        rw [hnone] at hlive
        exact absurd hlive (by simp)
  · rw [hagree.sound.isSome_memory_iff]
    constructor
    · rintro ⟨k, e, he, ha⟩
      obtain ⟨-, o, ho⟩ := (hiff k).mp (by rw [he]; rfl)
      exact ⟨o, k, e, ho, he, ha⟩
    · rintro ⟨o, k, e, -, he, ha⟩
      exact ⟨k, e, he, ha⟩

/-- An object is destroyed and used again, while another one has its handle and its node. -/
def sampleSteps : List Step :=
  [.construct 1 7 .portable fun _ _ => 0,
    .use 1 (.registerSchema [115] [⟨[97], 0, 64, 0⟩] 8 [10]),
    .use 1 .destroy,
    .construct 2 7 .portable fun _ _ => 0,
    .use 2 (.registerSchema [115] [⟨[97], 0, 64, 0⟩] 8 [10]),
    .use 1 (.registerSchema [115] [⟨[97], 0, 64, 0⟩] 8 [11])]

/-- The last of the sample steps registers a schema through a closed handle, and throws. -/
theorem clients_refine_sample : Process.initial.outcomes sampleSteps =
    [.done, .done, .done, .done, .done, .threw "Failed to register schema"] := by
  have hnodes : ∀ {p : Process} {a : Addr}, p.space.memory a = none → p.Allocates [a] 1 := by
    intro p a ha
    refine ⟨rfl, List.nodup_singleton a, fun b hb => ?_⟩
    rw [List.mem_singleton.mp hb]
    exact ha
  have halong : Process.initial.Runs sampleSteps :=
    ⟨⟨rfl, rfl⟩, ⟨rfl, hnodes rfl⟩, ⟨rfl, trivial⟩, ⟨rfl, rfl⟩, ⟨rfl, hnodes rfl⟩,
      ⟨rfl, hnodes rfl⟩, trivial⟩
  rw [(clients_refine halong rfl).1]
  rfl

end Clients
end Api
end ApexEngine
