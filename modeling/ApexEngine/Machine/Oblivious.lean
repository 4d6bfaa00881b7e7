import ApexEngine.Machine.Writing

/-!
# What a run shows from outside

Whoever does not see the registers and the memory of a program may still see which
instructions it fetches and which addresses it touches: caches and clocks tell.  `events`
lists both for a run, in the order in which they happen.

Code is *oblivious* from a set of machines when it shows the same list from all of them, so
that the list tells nothing about what the machines differ in.  As for `Writing`, the notion
is built along the text, one block after the other (`Oblivious`), and then for stretches of
code with branches and loops (`LeadsObliviously`).  A branch is taken or not in all runs
alike when the flags it tests are, and an address is the same when the registers it is made
of are; so what a proof needs is the values of a few registers, and no value that is loaded
from data.
-/

namespace A64

variable {code : List Item}

/-! ## Listing events -/

/-- What shows of a run: the position an instruction is fetched from, and an access. -/
inductive Event where
  | fetch (pc : ℕ)
  | touch (a : Access)
  deriving DecidableEq, Repr

/-- The events of one step. -/
def stepEvents (code : List Item) (s : State) : List Event :=
  .fetch s.pc :: (stepAccesses code s).map .touch

/-- The events of a run, as far as the fuel goes.  The last is the fetch of the `ret`. -/
def events (code : List Item) : ℕ → State → List Event
  | 0, _ => []
  | fuel + 1, s => stepEvents code s ++ ((step code s).map (events code fuel)).getD []

/-- The accesses of a block, instruction by instruction. -/
def accessLists : List Instr → Cpu → List (List Access)
  | [], _ => []
  | i :: is, c => i.accesses c :: ((i.exec c).map (accessLists is)).getD []

/-- The events of a block at a position, from its accesses. -/
def blockEvents : ℕ → List (List Access) → List Event
  | _, [] => []
  | p, as :: rest => .fetch p :: as.map .touch ++ blockEvents (p + 1) rest

theorem accessLists_cons {i : Instr} {c d : Cpu} (h : i.exec c = some d) (is : List Instr) :
    accessLists (i :: is) c = i.accesses c :: accessLists is d := by
  rw [accessLists, h, Option.map_some, Option.getD_some]

theorem accessLists_append {is : List Instr} {c d : Cpu} (h : execs is c = some d)
    (js : List Instr) : accessLists (is ++ js) c = accessLists is c ++ accessLists js d := by
  induction is generalizing c with
  | nil =>
    obtain rfl : c = d := Option.some.inj h
    rfl
  | cons i is ih =>
    rw [execs_cons] at h
    obtain ⟨e, he, hrest⟩ := Option.bind_eq_some_iff.mp h
    rw [List.cons_append, accessLists_cons he, accessLists_cons he, ih hrest, List.cons_append]

/-- A block without loads and stores. -/
theorem accessLists_plain {is : List Instr} (h : ∀ i ∈ is, i.isPlain = true) (c : Cpu) :
    accessLists is c = is.map fun _ => [] := by
  induction is generalizing c with
  | nil => rfl
  | cons i is ih =>
    obtain ⟨d, hd, -, hacc⟩ := exec_plain (h i List.mem_cons_self) c
    rw [accessLists_cons hd, hacc, List.map_cons, ih fun j hj => h j (List.mem_cons_of_mem i hj)]

/-- A single instruction has its accesses, whether it faults or not. -/
theorem accessLists_singleton (i : Instr) (c : Cpu) : accessLists [i] c = [i.accesses c] := by
  rw [accessLists]
  cases i.exec c <;> rfl

theorem accessLists_ldr {r : Reg} {m : Addr} {v : Word} {c : Cpu}
    (hload : c.mem.load (m.resolve c).1 = some v) (is : List Instr) :
    accessLists (.ldr r m :: is) c =
      [.read (m.resolve c).1] :: accessLists is ((m.resolve c).2.set r v) := by
  refine accessLists_cons (d := (m.resolve c).2.set r v) ?_ is
  show Option.map _ (c.mem.load (m.resolve c).1) = _
  rw [hload]
  rfl

/-- The steps of a run and those after them. -/
theorem events_of_steps {n : ℕ} {s t : State} (h : Steps code n s t) (fuel : ℕ) :
    events code (n + fuel) s = events code n s ++ events code fuel t := by
  induction h with
  | refl => rw [Nat.zero_add, events, List.nil_append]
  | @head n _ _ _ hs _ ih =>
    rw [show n + 1 + fuel = n + fuel + 1 by omega, events, events, hs]
    simp only [Option.map_some, Option.getD_some, ih, List.append_assoc]

/-- **A block shows its accesses** and the positions it stands at. -/
theorem events_block {p : ℕ} {is : List Instr} {c d : Cpu} (h : At code p (is.map .instr))
    (hd : execs is c = some d) :
    events code is.length ⟨p, c⟩ = blockEvents p (accessLists is c) := by
  induction is generalizing p c with
  | nil => rfl
  | cons i is ih =>
    rw [execs_cons] at hd
    obtain ⟨e, he, hrest⟩ := Option.bind_eq_some_iff.mp hd
    rw [List.map_cons] at h
    have hstep : step code ⟨p, c⟩ = some ⟨p + 1, e⟩ := by simp [step, h.head, he]
    have haccess : stepAccesses code ⟨p, c⟩ = i.accesses c := by simp [stepAccesses, h.head]
    rw [List.length_cons, events, stepEvents, hstep, haccess, accessLists_cons he, Option.map_some,
      Option.getD_some, ih h.tail hrest, blockEvents]

/-- A step that is no instruction shows its fetch. -/
theorem events_quiet {i : Item} {s t : State} (hi : code[s.pc]? = some i)
    (hquiet : ∀ j, i ≠ .instr j) (hstep : step code s = some t) :
    events code 1 s = [.fetch s.pc] := by
  have haccess : stepAccesses code s = [] := by
    rw [stepAccesses, hi]
    cases i with
    | instr j => exact absurd rfl (hquiet j)
    | _ => rfl
  rw [events, stepEvents, haccess, hstep]
  rfl

/-- A run that is at a `ret` fetches it, and has no other event. -/
theorem events_ret {p : ℕ} {r : Reg} {is : List Item} (h : At code p (.ret r :: is)) (fuel : ℕ)
    (c : Cpu) : events code (fuel + 1) ⟨p, c⟩ = [.fetch p] := by
  simp [events, stepEvents, stepAccesses, step, h.head]

/-! ## Blocks -/

/-- A block runs through from every machine with `P`, with the same accesses from all of
them, and leaves a machine with `Q`. -/
def Oblivious (P : Cpu → Prop) (is : List Instr) (Q : Cpu → Prop) : Prop :=
  ∃ L, ∀ c, P c → ∃ d, execs is c = some d ∧ accessLists is c = L ∧ Q d

namespace Oblivious

variable {is js : List Instr} {P P' Q Q' R : Cpu → Prop}

theorem nil (h : ∀ c, P c → Q c) : Oblivious P [] Q := ⟨[], fun c hc => ⟨c, rfl, rfl, h c hc⟩⟩

theorem mono (h : Oblivious P is Q) (hP : ∀ c, P' c → P c) (hQ : ∀ c, Q c → Q' c) :
    Oblivious P' is Q' := by
  obtain ⟨L, hL⟩ := h
  refine ⟨L, fun c hc => ?_⟩
  obtain ⟨d, hd, hacc, hQd⟩ := hL c (hP c hc)
  exact ⟨d, hd, hacc, hQ d hQd⟩

theorem append (h : Oblivious P is Q) (k : Oblivious Q js R) : Oblivious P (is ++ js) R := by
  obtain ⟨L, hL⟩ := h
  obtain ⟨M, hM⟩ := k
  refine ⟨L ++ M, fun c hc => ?_⟩
  obtain ⟨d, hd, hacc, hQ⟩ := hL c hc
  obtain ⟨e, he, hacc', hR⟩ := hM d hQ
  exact ⟨e, by rw [execs_append, hd, Option.bind_some, he],
    by rw [accessLists_append hd, hacc, hacc'], hR⟩

/-- **It is enough to compare any two runs.** -/
theorem of_eq (hex : ∀ c, P c → ∃ d, execs is c = some d ∧ Q d)
    (heq : ∀ c c', P c → P c' → accessLists is c = accessLists is c') : Oblivious P is Q := by
  by_cases hne : ∃ c, P c
  · obtain ⟨c₁, hc₁⟩ := hne
    refine ⟨accessLists is c₁, fun c hc => ?_⟩
    obtain ⟨d, hd, hQ⟩ := hex c hc
    exact ⟨d, hd, heq c c₁ hc hc₁, hQ⟩
  · exact ⟨[], fun c hc => absurd ⟨c, hc⟩ hne⟩

/-- **A block without loads and stores.** -/
theorem plain (hplain : ∀ i ∈ is, i.isPlain = true)
    (hex : ∀ c, P c → ∃ d, execs is c = some d ∧ Q d) : Oblivious P is Q :=
  .of_eq hex fun c c' _ _ => by rw [accessLists_plain hplain, accessLists_plain hplain]

/-- The same block again and again. -/
theorem flatMap {α : Type*} {l : List α} {f : α → List Instr}
    (h : ∀ x ∈ l, Oblivious P (f x) P) : Oblivious P (l.flatMap f) P := by
  induction l with
  | nil => exact nil fun _ hc => hc
  | cons x l ih =>
    rw [List.flatMap_cons]
    exact (h x List.mem_cons_self).append (ih fun y hy => h y (List.mem_cons_of_mem x hy))

end Oblivious

/-! ## Frames -/

/-- An instruction that leaves the stack pointer alone, or pushes or pops a pair of other
registers. -/
def Instr.framesOnly : Instr → Bool
  | .stp _ _ (.pre .sp _) => true
  | .ldp a b (.post .sp _) => decide (a ≠ .sp ∧ b ≠ .sp)
  | i => i.isPlain && decide (Reg.sp ∉ i.targets)

/-- One instruction of a frame: where it goes, and where it leaves the stack pointer, is
given by the stack pointer. -/
theorem exec_framesOnly {i : Instr} (hi : i.framesOnly = true) {c c' d d' : Cpu}
    (hsp : c.get .sp = c'.get .sp) (hd : i.exec c = some d) (hd' : i.exec c' = some d') :
    i.accesses c = i.accesses c' ∧ d.get .sp = d'.get .sp := by
  by_cases hplain : i.isPlain = true ∧ Reg.sp ∉ i.targets
  · obtain ⟨-, -, -, hacc⟩ := exec_plain hplain.1 c
    obtain ⟨-, -, -, hacc'⟩ := exec_plain hplain.1 c'
    rw [hacc, hacc', exec_get hd hplain.2, exec_get hd' hplain.2]
    exact ⟨rfl, hsp⟩
  · unfold Instr.framesOnly at hi
    split at hi
    · rename_i a b imm
      obtain ⟨μ, -, h⟩ := Option.bind_eq_some_iff.mp hd
      obtain ⟨μ₁, -, rfl⟩ := Option.map_eq_some_iff.mp h
      obtain ⟨ν, -, h'⟩ := Option.bind_eq_some_iff.mp hd'
      obtain ⟨ν₁, -, rfl⟩ := Option.map_eq_some_iff.mp h'
      have hbase : (Addr.pre .sp imm).resolve c = (c.get .sp + imm, c.set .sp (c.get .sp + imm)) :=
        rfl
      have hbase' : (Addr.pre .sp imm).resolve c' =
          (c.get .sp + imm, c'.set .sp (c.get .sp + imm)) := by rw [Addr.resolve, hsp]
      simp only [Instr.accesses, hbase, hbase', Cpu.get_with_mem,
        Cpu.get_set_self _ _ (show Reg.sp ≠ .xzr by decide), hsp, and_self]
    · rename_i a b imm
      obtain ⟨hasp, hbsp⟩ := of_decide_eq_true hi
      obtain ⟨v, -, h⟩ := Option.bind_eq_some_iff.mp hd
      obtain ⟨v₁, -, rfl⟩ := Option.map_eq_some_iff.mp h
      obtain ⟨w, -, h'⟩ := Option.bind_eq_some_iff.mp hd'
      obtain ⟨w₁, -, rfl⟩ := Option.map_eq_some_iff.mp h'
      have hbase : (Addr.post .sp imm).resolve c = (c.get .sp, c.set .sp (c.get .sp + imm)) := rfl
      have hbase' : (Addr.post .sp imm).resolve c' = (c.get .sp, c'.set .sp (c.get .sp + imm)) := by
        rw [Addr.resolve, hsp]
      simp only [Instr.accesses, hbase, hbase', Cpu.get_set_of_ne _ _ hasp.symm,
        Cpu.get_set_of_ne _ _ hbsp.symm, Cpu.get_set_self _ _ (show Reg.sp ≠ .xzr by decide), hsp,
        and_self]
    · rw [Bool.and_eq_true, decide_eq_true_eq] at hi
      exact absurd hi hplain

/-- **What saves and restores registers** goes where the stack pointer says. -/
theorem accessLists_framesOnly {is : List Instr} (h : ∀ i ∈ is, i.framesOnly = true)
    {c c' d d' : Cpu} (hsp : c.get .sp = c'.get .sp) (hd : execs is c = some d)
    (hd' : execs is c' = some d') : accessLists is c = accessLists is c' := by
  induction is generalizing c c' with
  | nil => rfl
  | cons i is ih =>
    rw [execs_cons] at hd hd'
    obtain ⟨e, he, hrest⟩ := Option.bind_eq_some_iff.mp hd
    obtain ⟨e', he', hrest'⟩ := Option.bind_eq_some_iff.mp hd'
    obtain ⟨hacc, hsp'⟩ := exec_framesOnly (h i List.mem_cons_self) hsp he he'
    rw [accessLists_cons he, accessLists_cons he', hacc,
      ih (fun j hj => h j (List.mem_cons_of_mem i hj)) hsp' hrest hrest']

/-! ## Stretches of code -/

/-- From every machine with `P` at position `p` the code arrives at position `q` with `Q`, in
the same number of steps from all of them and with the same events. -/
def LeadsObliviously (code : List Item) (p q : ℕ) (P Q : Cpu → Prop) : Prop :=
  ∃ n L, ∀ c, P c → ∃ d, Steps code n ⟨p, c⟩ ⟨q, d⟩ ∧ events code n ⟨p, c⟩ = L ∧ Q d

namespace LeadsObliviously

variable {p q r : ℕ} {P P' Q R : Cpu → Prop}

theorem trans (h : LeadsObliviously code p q P Q) (k : LeadsObliviously code q r Q R) :
    LeadsObliviously code p r P R := by
  obtain ⟨m, L, hL⟩ := h
  obtain ⟨n, M, hM⟩ := k
  refine ⟨m + n, L ++ M, fun c hc => ?_⟩
  obtain ⟨d, hd, hev, hQ⟩ := hL c hc
  obtain ⟨e, he, hev', hR⟩ := hM d hQ
  exact ⟨e, hd.trans he, by rw [events_of_steps hd, hev, hev'], hR⟩

theorem block {is : List Instr} (h : At code p (is.map .instr)) (hex : Oblivious P is Q) :
    LeadsObliviously code p (p + is.length) P Q := by
  obtain ⟨L, hL⟩ := hex
  refine ⟨is.length, blockEvents p L, fun c hc => ?_⟩
  obtain ⟨d, hd, hacc, hQ⟩ := hL c hc
  exact ⟨d, steps_block h hd, by rw [events_block h hd, hacc], hQ⟩

/-- One item that is no instruction. -/
theorem item {i : Item} {is : List Item} (h : At code p (i :: is)) (hquiet : ∀ j, i ≠ .instr j)
    (hstep : ∀ c, P c → step code ⟨p, c⟩ = some ⟨q, c⟩) : LeadsObliviously code p q P P := by
  refine ⟨1, [.fetch p], fun c hc => ⟨c, .single (hstep c hc), ?_, hc⟩⟩
  exact events_quiet h.head hquiet (hstep c hc)

theorem mono (h : LeadsObliviously code p q P Q) (hP : ∀ c, P' c → P c) :
    LeadsObliviously code p q P' Q := by
  obtain ⟨n, L, hL⟩ := h
  exact ⟨n, L, fun c hc => hL c (hP c hc)⟩

theorem post (h : LeadsObliviously code p q P Q) (hQ : ∀ c, Q c → R c) :
    LeadsObliviously code p q P R := by
  obtain ⟨n, L, hL⟩ := h
  refine ⟨n, L, fun c hc => ?_⟩
  obtain ⟨d, hd, hev, hQd⟩ := hL c hc
  exact ⟨d, hd, hev, hQ d hQd⟩

end LeadsObliviously

section Loop

variable {p head exit : ℕ} {test body : List Instr} {cond : Cond}

/-- From the head of a loop to its conditional branch, and on to where it goes. -/
theorem leadsObliviously_test {q : ℕ} {P Q : Cpu → Prop} {taken : Bool}
    (h : At code p (loopItems head exit test cond body))
    (htest : Oblivious P test fun c => cond.holds c.flags = taken ∧ Q c)
    (hgo : ∀ c, cond.holds c.flags = taken →
      step code ⟨p + 1 + test.length, c⟩ = some ⟨q, c⟩) :
    LeadsObliviously code p q P Q := by
  rw [loopItems] at h
  have hlabel : At code p [Item.label head] := h.left.left.left.left
  have ht := h.left.left.left.right
  have hb := h.left.left.right
  simp only [List.length_append, List.length_singleton, List.length_map] at ht hb
  rw [← Nat.add_assoc] at hb
  have h₁ : LeadsObliviously code p (p + 1) P P := .item hlabel (by simp) fun c _ => by
    simp [step, hlabel.head]
  exact ((h₁.trans (.block ht htest)).trans
    (.item hb (by simp) fun c hc => hgo c hc.1)).post fun c hc => hc.2

/-- **The loop rule.**  The invariant is indexed by the number of iterations done. -/
theorem leadsObliviously_loop {I J : ℕ → Cpu → Prop} {Q : Cpu → Prop} (N : ℕ)
    (hnd : (labels code).Nodup) (h : At code p (loopItems head exit test cond body))
    (htest : ∀ k < N, Oblivious (I k) test fun c => cond.holds c.flags = false ∧ J k c)
    (hbody : ∀ k < N, Oblivious (J k) body (I (k + 1)))
    (hexit : Oblivious (I N) test fun c => cond.holds c.flags = true ∧ Q c) :
    LeadsObliviously code p (p + (loopItems head exit test cond body).length) (I 0) Q := by
  have hloop := h
  rw [loopItems] at h
  have hlabel : At code p [Item.label head] := h.left.left.left.left
  have hb := h.left.left.right
  have hbod := h.left.right
  have hback := h.right
  simp only [List.length_append, List.length_singleton, List.length_map] at hb hbod hback
  have hbpos := hb.head
  rw [← Nat.add_assoc] at hbpos
  rw [show p + (1 + test.length + 1) = p + 1 + test.length + 1 by omega] at hbod
  rw [show p + (1 + test.length + 1 + body.length) = p + 1 + test.length + 1 + body.length by
    omega] at hback
  have hiter : ∀ k < N, LeadsObliviously code p p (I k) (I (k + 1)) := by
    intro k hk
    have h₁ := leadsObliviously_test (q := p + 1 + test.length + 1) hloop (htest k hk) fun c hc => by
      simp [step, hbpos, hc]
    have h₂ := h₁.trans (.block hbod (hbody k hk))
    exact h₂.trans (.item hback (by simp) fun c _ => by
      simp [step, hback.head, labelPos_of_at hnd hlabel])
  have hleave : LeadsObliviously code p (p + (loopItems head exit test cond body).length) (I N) Q := by
    rw [length_loopItems]
    have h₁ := leadsObliviously_test (q := p + 1 + test.length + 1 + body.length + 1) hloop hexit
      fun c hc => by simp [step, hbpos, hc, labelPos_of_at hnd hback.tail]
    refine h₁.trans (.item hback.tail (by simp) fun c _ => ?_)
    simp only [step, hback.tail.head]
    rw [show p + 1 + test.length + 1 + body.length + 1 + 1 = p + (test.length + body.length + 4) by
      omega]
  -- induction on the number of iterations left
  have main : ∀ r k, k + r = N →
      LeadsObliviously code p (p + (loopItems head exit test cond body).length) (I k) Q := by
    intro r
    induction r with
    | zero =>
      intro k hk
      obtain rfl : k = N := by omega
      exact hleave
    | succ r ih =>
      intro k hk
      exact (hiter k (by omega)).trans (ih (k + 1) (by omega))
  exact main N 0 (by omega)

end Loop

/-! ## Whole runs -/

/-- As many steps as there is fuel lead to no result. -/
theorem run_eq_none_of_steps {n : ℕ} {s t : State} (h : Steps code n s t) {fuel : ℕ}
    (hfuel : fuel ≤ n) : run code fuel s = none := by
  induction h generalizing fuel with
  | refl =>
    obtain rfl : fuel = 0 := Nat.le_zero.mp hfuel
    rfl
  | head hs _ ih =>
    cases fuel with
    | zero => rfl
    | succ fuel => rw [run_succ_of_step hs, ih (Nat.le_of_succ_le_succ hfuel)]

/-- **Oblivious code shows one list**, whatever machine with `P` it is run from, if the fuel
suffices for one of the runs to return. -/
theorem events_eq_of_leads {p fuel : ℕ} {r : Reg} {is : List Item} {P Q : Cpu → Prop}
    (h : LeadsObliviously code 0 p P Q) (hret : At code p (.ret r :: is)) {c c' : Cpu} (hc : P c)
    (hc' : P c') (hruns : (run code fuel ⟨0, c⟩).isSome) :
    events code fuel ⟨0, c⟩ = events code fuel ⟨0, c'⟩ := by
  obtain ⟨n, L, hL⟩ := h
  obtain ⟨d, hd, hev, -⟩ := hL c hc
  obtain ⟨d', hd', hev', -⟩ := hL c' hc'
  have hfuel : n < fuel := by
    by_contra hnot
    rw [run_eq_none_of_steps hd (by omega)] at hruns
    exact absurd hruns (by simp)
  obtain ⟨k, rfl⟩ : ∃ k, fuel = n + (k + 1) := ⟨fuel - n - 1, by omega⟩
  rw [events_of_steps hd, events_of_steps hd', hev, hev', events_ret hret, events_ret hret]

end A64
