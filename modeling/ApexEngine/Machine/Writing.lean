import ApexEngine.Machine.Trace

/-!
# Where a program writes

`Writing W is c Q` says that a block runs through from `c`, writes only where `W` allows and
leaves a machine with `Q`.  It is built along the text of the block, one instruction or one
block after the other, and says nothing about the values that are computed: what a proof
needs of them is the addresses of loads and stores, and these come from a few registers that
the block leaves alone (`execs_get`).  Stretches of code with loops are built from blocks in
the same way (`LeadsWriting`), with the rules of `Leads`.

What a block does to memory follows from where it writes: memory stays mapped where it was
and is the same elsewhere (`Kept`, `Writing.kept`).
-/

namespace A64

variable {code : List Item} {W V : Word → Prop}

/-! ## Memory that is kept -/

/-- Memory that was written within `W` only: mapped where it was, and the same elsewhere. -/
structure Kept (W : Word → Prop) (m m' : Memory) : Prop where
  mapped : ∀ a, (m' a).isSome = (m a).isSome
  same : ∀ a, ¬ W a → m' a = m a

namespace Kept

variable {m m' m'' : Memory} {a v : Word}

theorem refl (W : Word → Prop) (m : Memory) : Kept W m m := ⟨fun _ => rfl, fun _ _ => rfl⟩

theorem trans (h : Kept W m m') (k : Kept W m' m'') : Kept W m m'' where
  mapped a := (k.mapped a).trans (h.mapped a)
  same a ha := (k.same a ha).trans (h.same a ha)

theorem mono (h : Kept W m m') (hsub : ∀ a, W a → V a) : Kept V m m' :=
  ⟨h.mapped, fun a ha => h.same a fun hW => ha (hsub a hW)⟩

/-- A store where it is allowed. -/
theorem of_store (hs : m.store a v = some m') (ha : W a) : Kept W m m' := by
  rw [Memory.store] at hs
  split at hs
  · rename_i hmap
    obtain rfl := Option.some.inj hs
    refine ⟨fun b => ?_, fun b hb => Function.update_of_ne (by rintro rfl; exact hb ha) _ _⟩
    by_cases hba : b = a
    · rw [hba, Function.update_self, hmap.2]
      rfl
    · rw [Function.update_of_ne hba]
  · exact absurd hs (by simp)

/-- What could be loaded can be loaded. -/
theorem load_isSome (h : Kept W m m') (hl : (m.load a).isSome) : (m'.load a).isSome := by
  unfold Memory.load at hl ⊢
  split
  · rename_i ha
    rw [if_pos ha] at hl
    rw [h.mapped a]
    exact hl
  · rename_i ha
    rw [if_neg ha] at hl
    exact hl

/-- What is not written is loaded as before. -/
theorem load_eq (h : Kept W m m') (ha : ¬ W a) : m'.load a = m.load a := by
  rw [Memory.load, Memory.load, h.same a ha]

end Kept

/-- Where a word can be loaded one can be stored. -/
theorem Memory.exists_store {m : Memory} {a : Word} (h : (m.load a).isSome) (v : Word) :
    ∃ m', m.store a v = some m' := by
  unfold Memory.load at h
  split at h
  · rename_i ha
    exact ⟨_, if_pos ⟨ha, h⟩⟩
  · exact absurd h (by simp)

/-- A stored word is loaded. -/
theorem Memory.load_store {m m' : Memory} {a v : Word} (h : m.store a v = some m') :
    m'.load a = some v := by
  unfold Memory.store at h
  split at h
  · rename_i ha
    rw [← Option.some.inj h, Memory.load, if_pos ha.1, Function.update_self]
  · exact absurd h (by simp)

/-- The other words are loaded as before. -/
theorem Memory.load_store_of_ne {m m' : Memory} {a b v : Word} (h : m.store a v = some m')
    (hb : b ≠ a) : m'.load b = m.load b :=
  (Kept.of_store (W := fun x => x = a) h rfl).load_eq hb

/-! ## Registers that are left alone -/

/-- The register an addressing mode writes back. -/
def Addr.targets : Addr → List Reg
  | .pre base _ | .post base _ => [base]
  | _ => []

/-- The registers an instruction writes. -/
def Instr.targets : Instr → List Reg
  | .mov d _ | .mvn d _ | .movz d _ _ | .movk d _ _ | .bin _ d _ _ | .cset d _ => [d]
  | .cmp _ _ => []
  | .ldr d m => d :: m.targets
  | .str _ m | .stp _ _ m => m.targets
  | .ldp a b m => a :: b :: m.targets

theorem resolve_get {m : Addr} {c : Cpu} {r : Reg} (hr : r ∉ m.targets) :
    (m.resolve c).2.get r = c.get r := by
  cases m with
  | offset base imm | index base idx shift => rfl
  | pre base imm | post base imm => exact Cpu.get_set_of_ne _ _ (by simpa [Addr.targets] using hr)

theorem exec_get {i : Instr} {c d : Cpu} (h : i.exec c = some d) {r : Reg} (hr : r ∉ i.targets) :
    d.get r = c.get r := by
  cases i with
  | mov e o | mvn e s | movz e imm shift | movk e imm shift | bin op e a b | cset e cond =>
    obtain rfl := Option.some.inj h
    exact Cpu.get_set_of_ne _ _ (by simpa [Instr.targets] using hr)
  | cmp a b =>
    obtain rfl := Option.some.inj h
    rfl
  | ldr e m =>
    simp only [Instr.targets, List.mem_cons, not_or] at hr
    obtain ⟨v, -, rfl⟩ := Option.map_eq_some_iff.mp h
    exact (Cpu.get_set_of_ne _ _ hr.1).trans (resolve_get hr.2)
  | str s m =>
    obtain ⟨μ, -, rfl⟩ := Option.map_eq_some_iff.mp h
    exact resolve_get hr
  | stp a b m =>
    obtain ⟨μ, -, h⟩ := Option.bind_eq_some_iff.mp h
    obtain ⟨μ', -, rfl⟩ := Option.map_eq_some_iff.mp h
    exact resolve_get hr
  | ldp a b m =>
    simp only [Instr.targets, List.mem_cons, not_or] at hr
    obtain ⟨v, -, h⟩ := Option.bind_eq_some_iff.mp h
    obtain ⟨v', -, rfl⟩ := Option.map_eq_some_iff.mp h
    exact (Cpu.get_set_of_ne _ _ hr.2.1).trans
      ((Cpu.get_set_of_ne _ _ hr.1).trans (resolve_get hr.2.2))

/-- **What no instruction of a block writes stays.** -/
theorem execs_get {is : List Instr} {c d : Cpu} (h : execs is c = some d) {r : Reg}
    (hr : ∀ i ∈ is, r ∉ i.targets) : d.get r = c.get r := by
  induction is generalizing c with
  | nil => rw [Option.some.inj h]
  | cons i is ih =>
    rw [execs_cons] at h
    obtain ⟨e, he, hrest⟩ := Option.bind_eq_some_iff.mp h
    rw [ih hrest fun j hj => hr j (List.mem_cons_of_mem i hj), exec_get he (hr i List.mem_cons_self)]

/-! ## Blocks -/

/-- A block runs through, writes within `W` and leaves a machine with `Q`. -/
def Writing (W : Word → Prop) (is : List Instr) (c : Cpu) (Q : Cpu → Prop) : Prop :=
  ∃ d, execs is c = some d ∧ (∀ a, Access.write a ∈ accesses is c → W a) ∧ Q d

namespace Writing

variable {is js : List Instr} {c d : Cpu} {P Q : Cpu → Prop}

theorem nil (h : Q c) : Writing W [] c Q := ⟨c, rfl, fun _ ha => absurd ha (by simp [accesses]), h⟩

theorem mono (h : Writing W is c P) (k : ∀ d, P d → Q d) : Writing W is c Q := by
  obtain ⟨d, hd, hw, hP⟩ := h
  exact ⟨d, hd, hw, k d hP⟩

theorem widen (h : Writing W is c Q) (hsub : ∀ a, W a → V a) : Writing V is c Q := by
  obtain ⟨d, hd, hw, hQ⟩ := h
  exact ⟨d, hd, fun a ha => hsub a (hw a ha), hQ⟩

theorem append (h : Writing W is c P) (k : ∀ d, P d → Writing W js d Q) :
    Writing W (is ++ js) c Q := by
  obtain ⟨d, hd, hw, hP⟩ := h
  obtain ⟨e, he, hw', hQ⟩ := k d hP
  refine ⟨e, ?_, fun a ha => ?_, hQ⟩
  · rw [execs_append, hd, Option.bind_some, he]
  · rw [accesses_append hd, List.mem_append] at ha
    exact ha.elim (hw a) (hw' a)

/-- An instruction writes where it says, and the rest of the block follows. -/
theorem cons {i : Instr} (hi : i.exec c = some d) (hw : ∀ a, .write a ∈ i.accesses c → W a)
    (h : Writing W is d Q) : Writing W (i :: is) c Q := by
  obtain ⟨e, he, hw', hQ⟩ := h
  refine ⟨e, ?_, fun a ha => ?_, hQ⟩
  · rw [execs_cons, hi, Option.bind_some, he]
  · rw [accesses_cons hi, List.mem_append] at ha
    exact ha.elim (hw a) (hw' a)

/-- A load from a mapped address. -/
theorem ldr {e : Reg} {m : Addr} {v : Word} (hload : c.mem.load (m.resolve c).1 = some v)
    (h : Writing W is ((m.resolve c).2.set e v) Q) : Writing W (.ldr e m :: is) c Q := by
  refine cons (d := (m.resolve c).2.set e v) ?_ (fun a ha => ?_) h
  · show Option.map _ (c.mem.load (m.resolve c).1) = _
    rw [hload]
    rfl
  · exact absurd (List.mem_singleton.mp ha) (by simp)

/-- A store to a mapped address. -/
theorem str {s : Reg} {m : Addr} {μ : Memory} (hW : W (m.resolve c).1)
    (hstore : c.mem.store (m.resolve c).1 (c.get s) = some μ)
    (h : Writing W is { (m.resolve c).2 with mem := μ } Q) : Writing W (.str s m :: is) c Q := by
  refine cons (d := { (m.resolve c).2 with mem := μ }) ?_ (fun a ha => ?_) h
  · show Option.map _ (c.mem.store (m.resolve c).1 (c.get s)) = _
    rw [hstore]
    rfl
  · rw [Access.write.inj (List.mem_singleton.mp ha)]
    exact hW

/-- A store of a pair writes its two words. -/
theorem stp {s t : Reg} {m : Addr} {μ μ' : Memory} (hW : W (m.resolve c).1)
    (hW' : W ((m.resolve c).1 + 8)) (hstore : c.mem.store (m.resolve c).1 (c.get s) = some μ)
    (hstore' : μ.store ((m.resolve c).1 + 8) (c.get t) = some μ')
    (h : Writing W is { (m.resolve c).2 with mem := μ' } Q) : Writing W (.stp s t m :: is) c Q := by
  refine cons (d := { (m.resolve c).2 with mem := μ' }) ?_ (fun a ha => ?_) h
  · show Option.bind (c.mem.store (m.resolve c).1 (c.get s)) (fun ν =>
      Option.map _ (ν.store ((m.resolve c).1 + 8) (c.get t))) = _
    rw [hstore, Option.bind_some, hstore']
    rfl
  · rcases List.mem_cons.mp ha with ha | ha
    · rw [Access.write.inj ha]
      exact hW
    · rw [Access.write.inj (List.mem_singleton.mp ha)]
      exact hW'

/-- A load of a pair writes nothing. -/
theorem ldp {e f : Reg} {m : Addr} {v v' : Word} (hload : c.mem.load (m.resolve c).1 = some v)
    (hload' : c.mem.load ((m.resolve c).1 + 8) = some v')
    (h : Writing W is (((m.resolve c).2.set e v).set f v') Q) :
    Writing W (.ldp e f m :: is) c Q := by
  refine cons (d := ((m.resolve c).2.set e v).set f v') ?_ (fun a ha => ?_) h
  · show Option.bind (c.mem.load (m.resolve c).1) (fun v =>
      Option.map _ (c.mem.load ((m.resolve c).1 + 8))) = _
    rw [hload, Option.bind_some, hload']
    rfl
  · exact absurd ha (by simp [Instr.accesses])

/-- The same block again and again. -/
theorem flatMap {α : Type*} {l : List α} {f : α → List Instr}
    (h : ∀ x ∈ l, ∀ c, P c → Writing W (f x) c P) (hc : P c) : Writing W (l.flatMap f) c P := by
  induction l generalizing c with
  | nil => exact nil hc
  | cons x l ih =>
    rw [List.flatMap_cons]
    exact (h x List.mem_cons_self c hc).append fun d hd =>
      ih (fun y hy => h y (List.mem_cons_of_mem x hy)) hd

end Writing

/-- Whether an instruction stores. -/
def Instr.isStore : Instr → Bool
  | .str _ _ | .stp _ _ _ => true
  | _ => false

theorem accesses_of_not_isStore {i : Instr} (hi : i.isStore = false) (c : Cpu) (a : Word) :
    .write a ∉ i.accesses c := by
  cases i with
  | str s m | stp s t m => exact absurd hi (by simp [Instr.isStore])
  | _ => simp [Instr.accesses]

/-- What does not store leaves memory as it is. -/
theorem exec_mem {i : Instr} {c d : Cpu} (h : i.exec c = some d) (hi : i.isStore = false) :
    d.mem = c.mem := by
  cases i with
  | str s m | stp s t m => exact absurd hi (by simp [Instr.isStore])
  | mov e o | mvn e s | movz e imm shift | movk e imm shift | bin op e a b | cset e cond
  | cmp a b =>
    obtain rfl := Option.some.inj h
    rfl
  | ldr e m =>
    obtain ⟨v, -, rfl⟩ := Option.map_eq_some_iff.mp h
    cases m <;> rfl
  | ldp a b m =>
    obtain ⟨v, -, h⟩ := Option.bind_eq_some_iff.mp h
    obtain ⟨v', -, rfl⟩ := Option.map_eq_some_iff.mp h
    cases m <;> rfl

/-- **A block without stores** leaves memory as it is. -/
theorem execs_mem {is : List Instr} {c d : Cpu} (h : execs is c = some d)
    (hstore : ∀ i ∈ is, i.isStore = false) : d.mem = c.mem := by
  induction is generalizing c with
  | nil => rw [Option.some.inj h]
  | cons i is ih =>
    rw [execs_cons] at h
    obtain ⟨e, he, hrest⟩ := Option.bind_eq_some_iff.mp h
    rw [ih hrest fun j hj => hstore j (List.mem_cons_of_mem i hj),
      exec_mem he (hstore i List.mem_cons_self)]

/-- An instruction that neither loads nor stores. -/
def Instr.isPlain : Instr → Bool
  | .ldr _ _ | .str _ _ | .stp _ _ _ | .ldp _ _ _ => false
  | _ => true

theorem exec_plain {i : Instr} (hi : i.isPlain = true) (c : Cpu) :
    ∃ d, i.exec c = some d ∧ d.mem = c.mem ∧ i.accesses c = [] := by
  cases i with
  | ldr d m | str s m | stp a b m | ldp a b m => exact absurd hi (by simp [Instr.isPlain])
  | _ => exact ⟨_, rfl, rfl, rfl⟩

namespace Writing

variable {is : List Instr} {c : Cpu} {Q : Cpu → Prop}

/-- A block without stores that is known to run through. -/
theorem of_execs {d : Cpu} (h : execs is c = some d) (hstore : ∀ i ∈ is, i.isStore = false)
    (hQ : Q d) : Writing W is c Q := by
  induction is generalizing c with
  | nil =>
    rw [← Option.some.inj h] at hQ
    exact nil hQ
  | cons i is ih =>
    rw [execs_cons] at h
    obtain ⟨e, he, hrest⟩ := Option.bind_eq_some_iff.mp h
    refine cons he (fun a ha => ?_) (ih hrest fun j hj => hstore j (List.mem_cons_of_mem i hj))
    exact absurd ha (accesses_of_not_isStore (hstore i List.mem_cons_self) c a)

/-- **A block without loads and stores** always runs through. -/
theorem plain (h : ∀ i ∈ is, i.isPlain = true) (c : Cpu) :
    Writing W is c fun d => d.mem = c.mem := by
  induction is generalizing c with
  | nil => exact nil rfl
  | cons i is ih =>
    obtain ⟨e, he, hmem, hacc⟩ := exec_plain (h i List.mem_cons_self) c
    refine cons he (fun a ha => ?_) ((ih (fun j hj => h j (List.mem_cons_of_mem i hj)) e).mono
      fun d hd => hd.trans hmem)
    rw [hacc] at ha
    exact absurd ha List.not_mem_nil

/-- What a block does not write to stays. -/
theorem get (h : Writing W is c Q) :
    Writing W is c fun d => Q d ∧ ∀ r, (∀ i ∈ is, r ∉ i.targets) → d.get r = c.get r := by
  obtain ⟨d, hd, hw, hQ⟩ := h
  exact ⟨d, hd, hw, hQ, fun r hr => execs_get hd hr⟩

end Writing

/-- A single instruction leaves memory as it is where it does not write. -/
theorem exec_kept {i : Instr} {c d : Cpu} (h : i.exec c = some d)
    (hw : ∀ a, .write a ∈ i.accesses c → W a) : Kept W c.mem d.mem := by
  cases i with
  | mov e o | mvn e s | movz e imm shift | movk e imm shift | bin op e a b | cset e cond
  | cmp a b =>
    obtain rfl := Option.some.inj h
    exact .refl W _
  | ldr e m =>
    obtain ⟨v, -, rfl⟩ := Option.map_eq_some_iff.mp h
    cases m <;> exact .refl W _
  | str s m =>
    obtain ⟨μ, hμ, rfl⟩ := Option.map_eq_some_iff.mp h
    exact .of_store hμ (hw _ List.mem_cons_self)
  | stp a b m =>
    obtain ⟨μ, hμ, h⟩ := Option.bind_eq_some_iff.mp h
    obtain ⟨μ', hμ', rfl⟩ := Option.map_eq_some_iff.mp h
    exact (Kept.of_store hμ (hw _ List.mem_cons_self)).trans
      (.of_store hμ' (hw _ (List.mem_cons_of_mem _ List.mem_cons_self)))
  | ldp a b m =>
    obtain ⟨v, -, h⟩ := Option.bind_eq_some_iff.mp h
    obtain ⟨v', -, rfl⟩ := Option.map_eq_some_iff.mp h
    cases m <;> exact .refl W _

/-- **A block keeps memory where it does not write.** -/
theorem Writing.kept {is : List Instr} {c : Cpu} {Q : Cpu → Prop} (h : Writing W is c Q) :
    Writing W is c fun d => Q d ∧ Kept W c.mem d.mem := by
  obtain ⟨d, hd, hw, hQ⟩ := h
  refine ⟨d, hd, hw, hQ, ?_⟩
  clear hQ
  induction is generalizing c with
  | nil =>
    rw [Option.some.inj hd]
    exact .refl W _
  | cons i is ih =>
    rw [execs_cons] at hd
    obtain ⟨e, he, hrest⟩ := Option.bind_eq_some_iff.mp hd
    rw [accesses_cons he] at hw
    exact (exec_kept he fun a ha => hw a (List.mem_append_left _ ha)).trans
      (ih hrest fun a ha => hw a (List.mem_append_right _ ha))

/-! ## Stretches of code -/

/-- From any machine with `P` at position `p` the code arrives at position `q` with `Q`, in at
most `n` steps that write within `W`. -/
def LeadsWriting (W : Word → Prop) (code : List Item) (p q n : ℕ) (P Q : Cpu → Prop) : Prop :=
  ∀ c, P c → ∃ k ≤ n, ∃ d, Steps code k ⟨p, c⟩ ⟨q, d⟩ ∧
    (∀ a, Access.write a ∈ trace code k ⟨p, c⟩ → W a) ∧ Q d

theorem LeadsWriting.trans {p q r m n : ℕ} {P Q R : Cpu → Prop}
    (h : LeadsWriting W code p q m P Q) (k : LeadsWriting W code q r n Q R) :
    LeadsWriting W code p r (m + n) P R := by
  intro c hc
  obtain ⟨i, hi, d, hd, hw, hQ⟩ := h c hc
  obtain ⟨j, hj, e, he, hw', hR⟩ := k d hQ
  refine ⟨i + j, by omega, e, hd.trans he, fun a ha => ?_, hR⟩
  rw [trace_of_steps hd, List.mem_append] at ha
  exact ha.elim (hw a) (hw' a)

theorem LeadsWriting.mono {p q n : ℕ} {P Q : Cpu → Prop} (h : LeadsWriting W code p q n P Q)
    (hsub : ∀ a, W a → V a) : LeadsWriting V code p q n P Q := by
  intro c hc
  obtain ⟨i, hi, d, hd, hw, hQ⟩ := h c hc
  exact ⟨i, hi, d, hd, fun a ha => hsub a (hw a ha), hQ⟩

theorem leadsWriting_block {p : ℕ} {is : List Instr} {P Q : Cpu → Prop}
    (h : At code p (is.map .instr)) (hex : ∀ c, P c → Writing W is c Q) :
    LeadsWriting W code p (p + is.length) is.length P Q := by
  intro c hc
  obtain ⟨d, hd, hw, hQ⟩ := hex c hc
  refine ⟨is.length, le_rfl, d, steps_block h hd, fun a ha => hw a ?_, hQ⟩
  rwa [trace_block h hd] at ha

section Loop

variable {p head exit : ℕ} {test body : List Instr} {cond : Cond}

/-- A step that is no instruction has no access. -/
theorem trace_quiet {i : Item} {s t : State} (hi : code[s.pc]? = some i)
    (hquiet : ∀ j, i ≠ .instr j) (hstep : step code s = some t) (n : ℕ) :
    trace code (1 + n) s = trace code n t := by
  have haccess : stepAccesses code s = [] := by
    rw [stepAccesses, hi]
    cases i with
    | instr j => exact absurd rfl (hquiet j)
    | _ => rfl
  rw [Nat.add_comm, trace, haccess, hstep, Option.map_some, Option.getD_some, List.nil_append]

/-- The accesses from the head of a loop to behind its conditional branch. -/
theorem trace_loop_test {c c₁ : Cpu} (h : At code p (loopItems head exit test cond body))
    (htest : execs test c = some c₁) {t : State}
    (hbranch : step code ⟨p + 1 + test.length, c₁⟩ = some t) (n : ℕ) :
    trace code (test.length + 2 + n) ⟨p, c⟩ = accesses test c ++ trace code n t := by
  rw [loopItems] at h
  have hlabel : At code p [Item.label head] := h.left.left.left.left
  have ht := h.left.left.left.right
  have hb := h.left.left.right
  simp only [List.length_append, List.length_singleton, List.length_map] at ht hb
  have hbpos := hb.head
  rw [← Nat.add_assoc] at hbpos
  have s1 : step code ⟨p, c⟩ = some ⟨p + 1, c⟩ := by simp [step, hlabel.head]
  rw [show test.length + 2 + n = 1 + (test.length + (1 + n)) by omega,
    trace_quiet hlabel.head (by simp) s1, trace_of_steps (steps_block ht htest),
    trace_block ht htest, trace_quiet hbpos (by simp) hbranch]

/-- The accesses of an iteration are those of its test and its body. -/
theorem trace_loop_iter {c c₁ c₂ : Cpu} (hnd : (labels code).Nodup)
    (h : At code p (loopItems head exit test cond body)) (htest : execs test c = some c₁)
    (hstay : cond.holds c₁.flags = false) (hbody : execs body c₁ = some c₂) :
    trace code (test.length + body.length + 3) ⟨p, c⟩ = accesses test c ++ accesses body c₁ := by
  obtain ⟨-, hbod⟩ := steps_loop_enter h htest hstay
  have hloop := h
  rw [loopItems] at h
  have hlabel : At code p [Item.label head] := h.left.left.left.left
  have hb := h.left.left.right
  have hback := h.right
  simp only [List.length_append, List.length_singleton, List.length_map] at hb hback
  have hbpos := hb.head
  rw [← Nat.add_assoc] at hbpos
  have hbackpos := hback.head
  rw [show p + (1 + test.length + 1 + body.length) = p + test.length + 2 + body.length by
    omega] at hbackpos
  have hbranch : step code ⟨p + 1 + test.length, c₁⟩ = some ⟨p + test.length + 2, c₁⟩ := by
    rw [show p + test.length + 2 = p + 1 + test.length + 1 by omega]
    simp [step, hbpos, hstay]
  have hlast : step code ⟨p + test.length + 2 + body.length, c₂⟩ = some ⟨p, c₂⟩ := by
    simp [step, hbackpos, labelPos_of_at hnd hlabel]
  rw [show test.length + body.length + 3 = test.length + 2 + (body.length + (1 + 0)) by omega,
    trace_loop_test hloop htest hbranch, trace_of_steps (steps_block hbod hbody),
    trace_block hbod hbody, trace_quiet hbackpos (by simp) hlast, trace, List.append_nil]

/-- The accesses on the way out of a loop. -/
theorem trace_loop_exit {c c₁ : Cpu} (hnd : (labels code).Nodup)
    (h : At code p (loopItems head exit test cond body)) (htest : execs test c = some c₁)
    (hleave : cond.holds c₁.flags = true) :
    trace code (test.length + 3) ⟨p, c⟩ = accesses test c := by
  have hloop := h
  rw [loopItems] at h
  have hb := h.left.left.right
  have hback := h.right.tail
  simp only [List.length_append, List.length_singleton, List.length_map] at hb hback
  have hbpos := hb.head
  rw [← Nat.add_assoc] at hbpos
  have hbranch : step code ⟨p + 1 + test.length, c₁⟩ =
      some ⟨p + (1 + test.length + 1 + body.length) + 1, c₁⟩ := by
    simp [step, hbpos, hleave, labelPos_of_at hnd hback]
  have hexit : step code ⟨p + (1 + test.length + 1 + body.length) + 1, c₁⟩ =
      some ⟨p + (1 + test.length + 1 + body.length) + 1 + 1, c₁⟩ := by
    simp [step, hback.head]
  rw [show test.length + 3 = test.length + 2 + (1 + 0) by omega,
    trace_loop_test hloop htest hbranch, trace_quiet hback.head (by simp) hexit, trace,
    List.append_nil]

/-- **The loop rule**: what every iteration writes and keeps, the loop writes and keeps. -/
theorem leadsWriting_loop {I : ℕ → Cpu → Prop} {Q : Cpu → Prop} (N : ℕ)
    (hnd : (labels code).Nodup) (h : At code p (loopItems head exit test cond body))
    (hiter : ∀ k < N, ∀ c, I k c → Writing W test c fun c₁ =>
      cond.holds c₁.flags = false ∧ Writing W body c₁ (I (k + 1)))
    (hexit : ∀ c, I N c → Writing W test c fun c₁ => cond.holds c₁.flags = true ∧ Q c₁) :
    LeadsWriting W code p (p + (loopItems head exit test cond body).length)
      ((N + 1) * (loopItems head exit test cond body).length) (I 0) Q := by
  set len := (loopItems head exit test cond body).length with hlen
  have hlen' : len = test.length + body.length + 4 := length_loopItems ..
  -- induction on the number of iterations left
  have main : ∀ r k, k + r = N → ∀ c, I k c → ∃ j ≤ (r + 1) * len, ∃ d,
      Steps code j ⟨p, c⟩ ⟨p + len, d⟩ ∧ (∀ a, .write a ∈ trace code j ⟨p, c⟩ → W a) ∧ Q d := by
    intro r
    induction r with
    | zero =>
      intro k hk c hc
      obtain rfl : k = N := by omega
      obtain ⟨c₁, htest, hw, hleave, hQ⟩ := hexit c hc
      refine ⟨_, by rw [hlen']; omega, c₁, steps_loop_exit hnd h htest hleave, fun a ha => ?_, hQ⟩
      rw [trace_loop_exit hnd h htest hleave] at ha
      exact hw a ha
    | succ r ih =>
      intro k hk c hc
      obtain ⟨c₁, htest, hw, hstay, c₂, hbody, hw₂, hnext⟩ := hiter k (by omega) c hc
      obtain ⟨j, hj, d, hsteps, hw₃, hQ⟩ := ih (k + 1) (by omega) c₂ hnext
      have hiteration := steps_loop_iter hnd h htest hstay hbody
      refine ⟨_, ?_, d, hiteration.trans hsteps, fun a ha => ?_, hQ⟩
      · rw [Nat.succ_mul]
        omega
      · rw [trace_of_steps hiteration, trace_loop_iter hnd h htest hstay hbody, List.mem_append,
          List.mem_append] at ha
        exact ha.elim (fun ha => ha.elim (hw a) (hw₂ a)) (hw₃ a)
  intro c hc
  exact main N 0 (by omega) c hc

end Loop

/-- **Code that leads to a `ret` returns**, having written where it may. -/
theorem run_of_leadsWriting {p n fuel : ℕ} {r : Reg} {is : List Item} {P Q : Cpu → Prop}
    (h : LeadsWriting W code 0 p n P Q) (hret : At code p (.ret r :: is)) (hfuel : n < fuel)
    {c : Cpu} (hc : P c) :
    ∃ d, run code fuel ⟨0, c⟩ = some (d.get r, d) ∧
      (∀ a, .write a ∈ trace code fuel ⟨0, c⟩ → W a) ∧ Q d := by
  obtain ⟨k, hk, d, hsteps, hw, hQ⟩ := h c hc
  refine ⟨d, ?_, fun a ha => ?_, hQ⟩
  · rw [show fuel = k + (fuel - k - 1 + 1) by omega, run_of_steps hsteps, run, hret.head]
  · rw [show fuel = k + (fuel - k) by omega, trace_of_steps hsteps, trace_ret hret,
      List.append_nil] at ha
    exact hw a ha

end A64
