import ApexEngine.Machine.Run

/-!
# The memory accesses of a run

What a program reads and writes on its way is not visible in the memory it leaves: a word
may be read twice, or be overwritten with itself.  So the accesses are listed, those of a
straight-line block (`accesses`) and those of a run (`trace`), in the order they happen and
with an access of a pair of registers as two.

A block in a program contributes its list (`trace_block`), and the list of a run is made of
the lists of its parts (`trace_of_steps`).
-/

namespace A64

variable {code : List Item}

/-! ## Listing accesses -/

/-- One access to a doubleword. -/
inductive Access where
  | read (a : Word)
  | write (a : Word)
  deriving DecidableEq, Repr

/-- The accesses of an instruction. -/
def Instr.accesses (i : Instr) (c : Cpu) : List Access :=
  match i with
  | .ldr _ m => [.read (m.resolve c).1]
  | .str _ m => [.write (m.resolve c).1]
  | .stp _ _ m => [.write (m.resolve c).1, .write ((m.resolve c).1 + 8)]
  | .ldp _ _ m => [.read (m.resolve c).1, .read ((m.resolve c).1 + 8)]
  | _ => []

/-- The accesses of a block, up to the instruction that faults. -/
def accesses : List Instr → Cpu → List Access
  | [], _ => []
  | i :: is, c => i.accesses c ++ ((i.exec c).map (accesses is)).getD []

/-- The accesses of one step. -/
def stepAccesses (code : List Item) (s : State) : List Access :=
  match code[s.pc]? with
  | some (.instr i) => i.accesses s.cpu
  | _ => []

/-- The accesses of a run, as far as the fuel goes. -/
def trace (code : List Item) : ℕ → State → List Access
  | 0, _ => []
  | fuel + 1, s => stepAccesses code s ++ ((step code s).map (trace code fuel)).getD []

theorem accesses_cons {i : Instr} {c d : Cpu} (h : i.exec c = some d) (is : List Instr) :
    accesses (i :: is) c = i.accesses c ++ accesses is d := by
  rw [accesses, h, Option.map_some, Option.getD_some]

theorem accesses_append {is : List Instr} {c d : Cpu} (h : execs is c = some d)
    (js : List Instr) : accesses (is ++ js) c = accesses is c ++ accesses js d := by
  induction is generalizing c with
  | nil =>
    obtain rfl : c = d := Option.some.inj h
    rfl
  | cons i is ih =>
    rw [execs_cons] at h
    obtain ⟨e, he, hrest⟩ := Option.bind_eq_some_iff.mp h
    rw [List.cons_append, accesses_cons he, accesses_cons he, ih hrest, List.append_assoc]

/-- The steps of a run and those after them. -/
theorem trace_of_steps {n : ℕ} {s t : State} (h : Steps code n s t) (fuel : ℕ) :
    trace code (n + fuel) s = trace code n s ++ trace code fuel t := by
  induction h with
  | refl => rw [Nat.zero_add, trace, List.nil_append]
  | @head n _ _ _ hs _ ih =>
    rw [show n + 1 + fuel = n + fuel + 1 by omega, trace, trace, hs]
    simp only [Option.map_some, Option.getD_some, ih, List.append_assoc]

/-- **A block contributes its accesses.** -/
theorem trace_block {p : ℕ} {is : List Instr} {c c' : Cpu} (h : At code p (is.map .instr))
    (hc : execs is c = some c') : trace code is.length ⟨p, c⟩ = accesses is c := by
  induction is generalizing p c with
  | nil => rfl
  | cons i is ih =>
    rw [execs_cons] at hc
    obtain ⟨d, hd, hrest⟩ := Option.bind_eq_some_iff.mp hc
    rw [List.map_cons] at h
    have hstep : step code ⟨p, c⟩ = some ⟨p + 1, d⟩ := by simp [step, h.head, hd]
    have haccess : stepAccesses code ⟨p, c⟩ = i.accesses c := by simp [stepAccesses, h.head]
    rw [List.length_cons, trace, hstep, haccess, accesses_cons hd, Option.map_some,
      Option.getD_some, ih h.tail hrest]

/-- Nothing happens after a `ret`. -/
theorem trace_ret {p : ℕ} {r : Reg} {is : List Item} (h : At code p (.ret r :: is)) (fuel : ℕ)
    (c : Cpu) : trace code fuel ⟨p, c⟩ = [] := by
  cases fuel with
  | zero => rfl
  | succ fuel => simp [trace, stepAccesses, step, h.head]

/-- The accesses of a block followed by a `ret`. -/
theorem trace_block_ret {is : List Instr} {r : Reg} {c c' : Cpu} (h : execs is c = some c')
    {fuel : ℕ} (hfuel : is.length ≤ fuel) :
    trace (is.map .instr ++ [.ret r]) fuel ⟨0, c⟩ = accesses is c := by
  have hat := at_self (is.map Item.instr ++ [.ret r])
  have hret : At (is.map Item.instr ++ [.ret r]) (0 + is.length) [.ret r] := by
    simpa using hat.right
  obtain ⟨rest, rfl⟩ := Nat.exists_eq_add_of_le hfuel
  rw [trace_of_steps (steps_block hat.left h), trace_block hat.left h, trace_ret hret,
    List.append_nil]

end A64
