import ApexEngine.Machine.A64
import Mathlib.Tactic.Ring
import Mathlib.Tactic.Linarith

/-!
# Reasoning about runs

Three rules are enough for code made of straight-line blocks and counted loops:
a block leads from its first position to the one after it, two stretches of code
compose, and a loop with an invariant leads from its head label past its exit
label.  They are stated for `Leads`, which also counts steps: `run` takes fuel,
so a program is only known to return when the number of its steps is bounded.

`At code p items` says that `items` stand at position `p` of `code`.  It splits
along `++`, so a proof follows the text of the program.
-/

namespace A64

variable {code : List Item}

/-! ## Placing code -/

/-- The items stand in the program at a position. -/
def At (code : List Item) (p : ℕ) (items : List Item) : Prop :=
  ∃ pre post, code = pre ++ items ++ post ∧ pre.length = p

theorem at_self (code : List Item) : At code 0 code := ⟨[], [], by simp, rfl⟩

theorem At.left {p : ℕ} {a b : List Item} (h : At code p (a ++ b)) : At code p a := by
  obtain ⟨pre, post, rfl, hp⟩ := h
  exact ⟨pre, b ++ post, by simp, hp⟩

theorem At.right {p : ℕ} {a b : List Item} (h : At code p (a ++ b)) :
    At code (p + a.length) b := by
  obtain ⟨pre, post, rfl, rfl⟩ := h
  exact ⟨pre ++ a, post, by simp, by simp⟩

theorem At.head {p : ℕ} {i : Item} {is : List Item} (h : At code p (i :: is)) :
    code[p]? = some i := by
  obtain ⟨pre, post, rfl, rfl⟩ := h
  simp

theorem At.tail {p : ℕ} {i : Item} {is : List Item} (h : At code p (i :: is)) :
    At code (p + 1) is := by
  obtain ⟨pre, post, rfl, rfl⟩ := h
  exact ⟨pre ++ [i], post, by simp, by simp⟩

/-- Where the parts of a program stand that consists of a block, a loop, a block and a `ret`. -/
structure OneLoop (code : List Item) (entry : List Instr) (loop : List Item) (tail : List Instr)
    (r : Reg) : Prop where
  atEntry : At code 0 (entry.map .instr)
  atLoop : At code (0 + entry.length) loop
  atTail : At code (0 + entry.length + loop.length) (tail.map .instr)
  atRet : At code (0 + entry.length + loop.length + tail.length) [.ret r]
  length : code.length = entry.length + loop.length + tail.length + 1

theorem oneLoop (entry : List Instr) (loop : List Item) (tail : List Instr) (r : Reg) :
    OneLoop (entry.map .instr ++ loop ++ tail.map .instr ++ [.ret r]) entry loop tail r := by
  have hat := at_self (entry.map Item.instr ++ loop ++ tail.map .instr ++ [.ret r])
  have hloop := hat.left.left.right
  have htail := hat.left.right
  have hret := hat.right
  simp only [List.length_append, List.length_map, ← Nat.add_assoc] at hloop htail hret
  exact ⟨hat.left.left.left, hloop, htail, hret, by
    simp only [List.length_append, List.length_map, List.length_singleton]⟩

/-- The same for two loops with a block between them. -/
structure TwoLoops (code : List Item) (entry : List Instr) (first : List Item)
    (between : List Instr) (second : List Item) (tail : List Instr) (r : Reg) : Prop where
  atEntry : At code 0 (entry.map .instr)
  atFirst : At code (0 + entry.length) first
  atBetween : At code (0 + entry.length + first.length) (between.map .instr)
  atSecond : At code (0 + entry.length + first.length + between.length) second
  atTail : At code (0 + entry.length + first.length + between.length + second.length)
    (tail.map .instr)
  atRet : At code (0 + entry.length + first.length + between.length + second.length + tail.length)
    [.ret r]
  length : code.length =
    entry.length + first.length + between.length + second.length + tail.length + 1

theorem twoLoops (entry : List Instr) (first : List Item) (between : List Instr)
    (second : List Item) (tail : List Instr) (r : Reg) :
    TwoLoops (entry.map .instr ++ first ++ between.map .instr ++ second ++ tail.map .instr ++
      [.ret r]) entry first between second tail r := by
  have hat := at_self (entry.map Item.instr ++ first ++ between.map .instr ++ second ++
    tail.map .instr ++ [.ret r])
  have hfirst := hat.left.left.left.left.right
  have hbetween := hat.left.left.left.right
  have hsecond := hat.left.left.right
  have htail := hat.left.right
  have hret := hat.right
  simp only [List.length_append, List.length_map, ← Nat.add_assoc] at hbetween hsecond htail hret
  rw [List.length_map] at hfirst
  exact ⟨hat.left.left.left.left.left, hfirst, hbetween, hsecond, htail, hret, by
    simp only [List.length_append, List.length_map, List.length_singleton]⟩

/-! ## Labels -/

/-- The labels a program binds, in order. -/
def labels (code : List Item) : List ℕ :=
  code.filterMap fun
    | .label l => some l
    | _ => none

@[simp] theorem labels_append (a b : List Item) : labels (a ++ b) = labels a ++ labels b := by
  simp [labels]

@[simp] theorem labels_nil : labels [] = [] := rfl

@[simp] theorem labels_label (l : ℕ) (is : List Item) :
    labels (.label l :: is) = l :: labels is := by simp [labels]

@[simp] theorem labels_instr (i : Instr) (is : List Item) :
    labels (.instr i :: is) = labels is := by simp [labels]

@[simp] theorem labels_b (l : ℕ) (is : List Item) : labels (.b l :: is) = labels is := by
  simp [labels]

@[simp] theorem labels_bcond (c : Cond) (l : ℕ) (is : List Item) :
    labels (.bcond c l :: is) = labels is := by simp [labels]

@[simp] theorem labels_ret (r : Reg) (is : List Item) : labels (.ret r :: is) = labels is := by
  simp [labels]

@[simp] theorem labels_map_instr (is : List Instr) : labels (is.map .instr) = [] := by
  induction is with
  | nil => rfl
  | cons i is ih => simpa using ih

theorem label_mem_iff {l : ℕ} {is : List Item} : Item.label l ∈ is ↔ l ∈ labels is := by
  rw [labels, List.mem_filterMap]
  constructor
  · exact fun h => ⟨_, h, rfl⟩
  · rintro ⟨i, hi, hl⟩
    cases i with
    | label m =>
      have hm : m = l := by simpa using hl
      rwa [← hm]
    | instr _ => simp at hl
    | b _ => simp at hl
    | bcond _ _ => simp at hl
    | ret _ => simp at hl

/-- When no label is bound twice, a label's position is wherever it stands. -/
theorem labelPos_of_at {p l : ℕ} {is : List Item} (hnd : (labels code).Nodup)
    (h : At code p (.label l :: is)) : labelPos code l = some p := by
  obtain ⟨pre, post, rfl, rfl⟩ := h
  have hpre : Item.label l ∉ pre := by
    rw [label_mem_iff]
    intro hmem
    rw [List.append_assoc, labels_append, List.nodup_append] at hnd
    exact hnd.2.2 l hmem l (by simp) rfl
  rw [labelPos, List.append_assoc, List.findIdx?_append,
    List.findIdx?_eq_none_iff.mpr (by
      intro x hx
      have : x ≠ Item.label l := fun hxl => hpre (hxl ▸ hx)
      simpa using this)]
  simp [List.findIdx?_cons]

/-! ## Steps -/

/-- The second state is that after exactly `n` steps. -/
inductive Steps (code : List Item) : ℕ → State → State → Prop where
  | refl (s : State) : Steps code 0 s s
  | head {n : ℕ} {s t u : State} : step code s = some t → Steps code n t u →
      Steps code (n + 1) s u

theorem Steps.single {s t : State} (h : step code s = some t) : Steps code 1 s t :=
  .head h (.refl t)

theorem Steps.trans {m n : ℕ} {s t u : State} (h : Steps code m s t) (k : Steps code n t u) :
    Steps code (m + n) s u := by
  induction h with
  | refl => simpa using k
  | @head m _ _ _ hs _ ih =>
    have := Steps.head hs (ih k)
    rwa [show m + 1 + n = m + n + 1 by omega]

/-- A state that steps is not at a `ret`, so `run` goes through it. -/
theorem run_succ_of_step {s t : State} (h : step code s = some t) (fuel : ℕ) :
    run code (fuel + 1) s = run code fuel t := by
  rw [run]
  split
  · rename_i r hr
    rw [step, hr] at h
    exact absurd h (by simp)
  · rw [h]
    rfl

theorem run_of_steps {n : ℕ} {s t : State} (h : Steps code n s t) (fuel : ℕ) :
    run code (n + fuel) s = run code fuel t := by
  induction h with
  | refl => simp
  | @head n _ _ _ hs _ ih =>
    rw [show n + 1 + fuel = n + fuel + 1 by omega, run_succ_of_step hs, ih]

/-- A run that comes to an item which faults returns nothing, whatever the fuel. -/
theorem run_eq_none_of_fault {n : ℕ} {s t : State} (h : Steps code n s t) {i : Instr}
    (hi : code[t.pc]? = some (.instr i)) (hf : i.exec t.cpu = none) (fuel : ℕ) :
    run code fuel s = none := by
  induction h generalizing fuel with
  | refl s =>
    cases fuel with
    | zero => rfl
    | succ fuel => simp [run, step, hi, hf]
  | head hs _ ih =>
    cases fuel with
    | zero => rfl
    | succ fuel => rw [run_succ_of_step hs, ih hi hf]

/-! ## Blocks -/

theorem execs_append (is js : List Instr) (c : Cpu) :
    execs (is ++ js) c = (execs is c).bind (execs js) := by
  induction is generalizing c with
  | nil => rfl
  | cons i is ih =>
    simp only [List.cons_append, execs]
    cases i.exec c with
    | none => rfl
    | some c' => exact ih c'

@[simp] theorem execs_nil (c : Cpu) : execs [] c = some c := rfl

theorem execs_cons (i : Instr) (is : List Instr) (c : Cpu) :
    execs (i :: is) c = (i.exec c).bind (execs is) := rfl

/-! An instruction at the head of a block, by its form: those that touch memory
have the load or the store as a hypothesis. -/

section Head

variable (is : List Instr) (c : Cpu)

theorem execs_mov (d : Reg) (o : Operand) :
    execs (.mov d o :: is) c = execs is (c.set d (c.operand o)) := rfl

theorem execs_bin (op : BinOp) (d a : Reg) (b : Operand) :
    execs (.bin op d a b :: is) c = execs is (c.set d (op.eval (c.get a) (c.operand b))) := rfl

theorem execs_ldr {d : Reg} {m : Addr} {v : Word} (h : c.mem.load (m.resolve c).1 = some v) :
    execs (.ldr d m :: is) c = execs is ((m.resolve c).2.set d v) := by
  show Option.bind (Option.map _ (c.mem.load (m.resolve c).1)) _ = _
  rw [h]
  rfl

theorem execs_str {s : Reg} {m : Addr} {μ : Memory}
    (h : c.mem.store (m.resolve c).1 (c.get s) = some μ) :
    execs (.str s m :: is) c = execs is { (m.resolve c).2 with mem := μ } := by
  show Option.bind (Option.map _ (c.mem.store (m.resolve c).1 (c.get s))) _ = _
  rw [h]
  rfl

theorem execs_stp {a b : Reg} {m : Addr} {μ μ' : Memory}
    (h : c.mem.store (m.resolve c).1 (c.get a) = some μ)
    (h' : μ.store ((m.resolve c).1 + 8) (c.get b) = some μ') :
    execs (.stp a b m :: is) c = execs is { (m.resolve c).2 with mem := μ' } := by
  show Option.bind (Option.bind (c.mem.store (m.resolve c).1 (c.get a)) fun ν =>
    Option.map _ (ν.store ((m.resolve c).1 + 8) (c.get b))) _ = _
  rw [h, Option.bind_some, h']
  rfl

theorem execs_ldp {a b : Reg} {m : Addr} {v v' : Word}
    (h : c.mem.load (m.resolve c).1 = some v) (h' : c.mem.load ((m.resolve c).1 + 8) = some v') :
    execs (.ldp a b m :: is) c = execs is (((m.resolve c).2.set a v).set b v') := by
  show Option.bind (Option.bind (c.mem.load (m.resolve c).1) fun v =>
    Option.map _ (c.mem.load ((m.resolve c).1 + 8))) _ = _
  rw [h, Option.bind_some, h']
  rfl

end Head

/-- A block runs in as many steps as it has instructions. -/
theorem steps_block {p : ℕ} {is : List Instr} {c c' : Cpu} (h : At code p (is.map .instr))
    (hc : execs is c = some c') : Steps code is.length ⟨p, c⟩ ⟨p + is.length, c'⟩ := by
  induction is generalizing p c with
  | nil =>
    have : c = c' := by simpa using hc
    rw [this]
    exact .refl _
  | cons i is ih =>
    rw [execs_cons] at hc
    obtain ⟨d, hd, hrest⟩ := Option.bind_eq_some_iff.mp hc
    have hstep : step code ⟨p, c⟩ = some ⟨p + 1, d⟩ := by
      rw [List.map_cons] at h
      simp [step, h.head, hd]
    have htail := ih h.tail hrest
    rw [List.length_cons, show p + (is.length + 1) = p + 1 + is.length by omega]
    exact .head hstep htail

/-! ## Frames -/

/-- Only the listed registers may differ between two machines, and the flags. -/
structure Frame (rs : List Reg) (c c' : Cpu) : Prop where
  mem : c'.mem = c.mem
  get : ∀ r, r ∉ rs → c'.get r = c.get r

namespace Frame

variable {rs ss : List Reg} {c d e : Cpu}

theorem refl (rs : List Reg) (c : Cpu) : Frame rs c c := ⟨rfl, fun _ _ => rfl⟩

theorem trans (h : Frame rs c d) (k : Frame ss d e) : Frame (rs ++ ss) c e where
  mem := k.mem.trans h.mem
  get r hr := by
    rw [List.mem_append, not_or] at hr
    rw [k.get r hr.2, h.get r hr.1]

theorem mono (h : Frame rs c d) (hsub : rs ⊆ ss) : Frame ss c d :=
  ⟨h.mem, fun r hr => h.get r fun hmem => hr (hsub hmem)⟩

/-- A frame holds after a listed register is written. -/
theorem set {r : Reg} (hr : r ∈ rs) (h : Frame rs c d) (v : Word) : Frame rs c (d.set r v) where
  mem := h.mem
  get s hs := by
    have hne : s ≠ r := fun hsr => hs (hsr.symm ▸ hr)
    rw [Cpu.get_set_of_ne d v hne, h.get s hs]

/-- The flags are not framed. -/
theorem with_flags (h : Frame rs c d) (f : Flags) : Frame rs c { d with flags := f } :=
  ⟨h.mem, h.get⟩

end Frame

/-! ## Stretches of code -/

/-- From any machine satisfying `P` at position `p`, the code arrives at position
`q` with a machine satisfying `Q`, in at most `n` steps. -/
def Leads (code : List Item) (p q n : ℕ) (P Q : Cpu → Prop) : Prop :=
  ∀ c, P c → ∃ k ≤ n, ∃ c', Steps code k ⟨p, c⟩ ⟨q, c'⟩ ∧ Q c'

theorem Leads.trans {p q r m n : ℕ} {P Q R : Cpu → Prop} (h : Leads code p q m P Q)
    (k : Leads code q r n Q R) : Leads code p r (m + n) P R := by
  intro c hc
  obtain ⟨i, hi, d, hd, hQ⟩ := h c hc
  obtain ⟨j, hj, e, he, hR⟩ := k d hQ
  exact ⟨i + j, by omega, e, hd.trans he, hR⟩

theorem leads_block {p : ℕ} {is : List Instr} {P Q : Cpu → Prop}
    (h : At code p (is.map .instr)) (hex : ∀ c, P c → ∃ c', execs is c = some c' ∧ Q c') :
    Leads code p (p + is.length) is.length P Q := by
  intro c hc
  obtain ⟨c', hc', hQ⟩ := hex c hc
  exact ⟨is.length, le_rfl, c', steps_block h hc', hQ⟩

/-- **A block that faults** ends the run without a result. -/
theorem run_eq_none_of_block {n p : ℕ} {s : State} {is : List Instr} {c : Cpu}
    (hsteps : Steps code n s ⟨p, c⟩) (hat : At code p (is.map .instr)) (hnone : execs is c = none)
    (fuel : ℕ) : run code fuel s = none := by
  induction is generalizing n p c with
  | nil => exact absurd hnone (by simp)
  | cons i is ih =>
    rw [execs_cons] at hnone
    rw [List.map_cons] at hat
    cases hexec : i.exec c with
    | none => exact run_eq_none_of_fault hsteps hat.head hexec fuel
    | some d =>
      rw [hexec, Option.bind_some] at hnone
      have hstep : step code ⟨p, c⟩ = some ⟨p + 1, d⟩ := by simp [step, hat.head, hexec]
      exact ih (hsteps.trans (.single hstep)) hat.tail hnone

/-- The text of a loop: a head label, a test, a conditional exit, a body and the
branch back. -/
def loopItems (head exit : ℕ) (test : List Instr) (cond : Cond) (body : List Instr) :
    List Item :=
  [.label head] ++ test.map .instr ++ [.bcond cond exit] ++ body.map .instr ++
    [.b head, .label exit]

@[simp] theorem labels_loopItems (head exit : ℕ) (test : List Instr) (cond : Cond)
    (body : List Instr) : labels (loopItems head exit test cond body) = [head, exit] := by
  simp [loopItems]

theorem length_loopItems (head exit : ℕ) (test : List Instr) (cond : Cond)
    (body : List Instr) :
    (loopItems head exit test cond body).length = test.length + body.length + 4 := by
  simp [loopItems]
  omega

section Loop

variable {p head exit : ℕ} {test body : List Instr} {cond : Cond}

/-- Entering the body: the test fails to exit. -/
theorem steps_loop_enter {c c₁ : Cpu}
    (h : At code p (loopItems head exit test cond body)) (htest : execs test c = some c₁)
    (hstay : cond.holds c₁.flags = false) :
    Steps code (test.length + 2) ⟨p, c⟩ ⟨p + test.length + 2, c₁⟩ ∧
      At code (p + test.length + 2) (body.map .instr) := by
  rw [loopItems] at h
  have hlabel : At code p [Item.label head] := h.left.left.left.left
  have ht := h.left.left.left.right
  have hb := h.left.left.right
  have hbod := h.left.right
  simp only [List.length_append, List.length_singleton, List.length_map] at ht hb hbod
  have s1 : Steps code 1 ⟨p, c⟩ ⟨p + 1, c⟩ := .single (by simp [step, hlabel.head])
  have s2 := steps_block ht htest
  have s3 : Steps code 1 ⟨p + 1 + test.length, c₁⟩ ⟨p + 1 + test.length + 1, c₁⟩ :=
    .single (by
      have := hb.head
      rw [← Nat.add_assoc] at this
      simp [step, this, hstay])
  have hpos : p + 1 + test.length + 1 = p + test.length + 2 := by omega
  have hlen : 1 + test.length + 1 = test.length + 2 := by omega
  rw [hpos] at s3
  have hsteps := (s1.trans s2).trans s3
  rw [hlen] at hsteps
  rw [hlen, ← Nat.add_assoc] at hbod
  exact ⟨hsteps, hbod⟩

/-- One iteration: the test fails to exit and the body runs. -/
theorem steps_loop_iter {c c₁ c₂ : Cpu} (hnd : (labels code).Nodup)
    (h : At code p (loopItems head exit test cond body)) (htest : execs test c = some c₁)
    (hstay : cond.holds c₁.flags = false) (hbody : execs body c₁ = some c₂) :
    Steps code (test.length + body.length + 3) ⟨p, c⟩ ⟨p, c₂⟩ := by
  obtain ⟨s1, hbod⟩ := steps_loop_enter h htest hstay
  have s2 := steps_block hbod hbody
  rw [loopItems] at h
  have hlabel : At code p [Item.label head] := h.left.left.left.left
  have hback := h.right
  simp only [List.length_append, List.length_singleton, List.length_map] at hback
  have s3 : Steps code 1 ⟨p + test.length + 2 + body.length, c₂⟩ ⟨p, c₂⟩ :=
    .single (by
      have := hback.head
      rw [show p + (1 + test.length + 1 + body.length) = p + test.length + 2 + body.length by
        omega] at this
      simp [step, this, labelPos_of_at hnd hlabel])
  have := (s1.trans s2).trans s3
  rwa [show test.length + 2 + body.length + 1 = test.length + body.length + 3 by omega] at this

/-- Leaving the loop: the test takes the exit. -/
theorem steps_loop_exit {c c₁ : Cpu} (hnd : (labels code).Nodup)
    (h : At code p (loopItems head exit test cond body)) (htest : execs test c = some c₁)
    (hleave : cond.holds c₁.flags = true) :
    Steps code (test.length + 3) ⟨p, c⟩
      ⟨p + (loopItems head exit test cond body).length, c₁⟩ := by
  rw [length_loopItems]
  rw [loopItems] at h
  have hlabel : At code p [Item.label head] := h.left.left.left.left
  have ht := h.left.left.left.right
  have hb := h.left.left.right
  have hback := h.right.tail
  simp only [List.length_append, List.length_singleton, List.length_map] at ht hb hback
  have hexit : At code (p + (test.length + body.length + 3)) [Item.label exit] := by
    rwa [show p + (test.length + body.length + 3) =
      p + (1 + test.length + 1 + body.length) + 1 by omega]
  have s1 : Steps code 1 ⟨p, c⟩ ⟨p + 1, c⟩ := .single (by simp [step, hlabel.head])
  have s2 := steps_block ht htest
  have s3 : Steps code 1 ⟨p + 1 + test.length, c₁⟩
      ⟨p + (test.length + body.length + 3), c₁⟩ :=
    .single (by
      have := hb.head
      rw [← Nat.add_assoc] at this
      simp [step, this, hleave, labelPos_of_at hnd hexit])
  have s4 : Steps code 1 ⟨p + (test.length + body.length + 3), c₁⟩
      ⟨p + (test.length + body.length + 4), c₁⟩ := .single (by
        simp only [step, hexit.head]
        rw [show p + (test.length + body.length + 3) + 1 =
          p + (test.length + body.length + 4) by omega])
  have := ((s1.trans s2).trans s3).trans s4
  rwa [show 1 + test.length + 1 + 1 = test.length + 3 by omega] at this

/-- A body that faults in the first iteration. -/
theorem run_eq_none_of_body {n : ℕ} {s : State} {c c₁ : Cpu} (hsteps : Steps code n s ⟨p, c⟩)
    (h : At code p (loopItems head exit test cond body)) (htest : execs test c = some c₁)
    (hstay : cond.holds c₁.flags = false) (hbody : execs body c₁ = none) (fuel : ℕ) :
    run code fuel s = none := by
  obtain ⟨henter, hbod⟩ := steps_loop_enter h htest hstay
  exact run_eq_none_of_block (hsteps.trans henter) hbod hbody fuel

/-- **The loop rule.**  The invariant is indexed by the number of iterations done;
the test stays in the loop exactly below `N`. -/
theorem leads_loop {I : ℕ → Cpu → Prop} {Q : Cpu → Prop} (N : ℕ)
    (hnd : (labels code).Nodup) (h : At code p (loopItems head exit test cond body))
    (hiter : ∀ k < N, ∀ c, I k c → ∃ c₁, execs test c = some c₁ ∧
      cond.holds c₁.flags = false ∧ ∃ c₂, execs body c₁ = some c₂ ∧ I (k + 1) c₂)
    (hexit : ∀ c, I N c → ∃ c₁, execs test c = some c₁ ∧ cond.holds c₁.flags = true ∧ Q c₁) :
    Leads code p (p + (loopItems head exit test cond body).length)
      ((N + 1) * (loopItems head exit test cond body).length) (I 0) Q := by
  set len := (loopItems head exit test cond body).length with hlen
  have hlen' : len = test.length + body.length + 4 := length_loopItems ..
  -- induction on the number of iterations left
  have main : ∀ r k, k + r = N → ∀ c, I k c →
      ∃ j ≤ (r + 1) * len, ∃ c', Steps code j ⟨p, c⟩ ⟨p + len, c'⟩ ∧ Q c' := by
    intro r
    induction r with
    | zero =>
      intro k hk c hc
      obtain rfl : k = N := by omega
      obtain ⟨c₁, htest, hleave, hQ⟩ := hexit c hc
      exact ⟨_, by rw [hlen']; omega, c₁, steps_loop_exit hnd h htest hleave, hQ⟩
    | succ r ih =>
      intro k hk c hc
      obtain ⟨c₁, htest, hstay, c₂, hbody, hnext⟩ := hiter k (by omega) c hc
      obtain ⟨j, hj, c', hsteps, hQ⟩ := ih (k + 1) (by omega) c₂ hnext
      refine ⟨_, ?_, c', (steps_loop_iter hnd h htest hstay hbody).trans hsteps, hQ⟩
      rw [Nat.succ_mul]
      omega
  intro c hc
  exact main N 0 (by omega) c hc

end Loop

/-! ## Whole runs -/

/-- Steps to a `ret` and the `ret`, given more fuel than there are steps. -/
theorem run_of_steps_ret {p n fuel : ℕ} {r : Reg} {is : List Item} {c c' : Cpu}
    (h : Steps code n ⟨0, c⟩ ⟨p, c'⟩) (hret : At code p (.ret r :: is)) (hfuel : n < fuel) :
    run code fuel ⟨0, c⟩ = some (c'.get r, c') := by
  rw [show fuel = n + (fuel - n - 1 + 1) by omega, run_of_steps h, run, hret.head]

/-- Code that leads to a `ret` returns, given more fuel than it takes steps. -/
theorem run_of_leads {p n fuel : ℕ} {r : Reg} {is : List Item} {P Q : Cpu → Prop}
    (h : Leads code 0 p n P Q) (hret : At code p (.ret r :: is)) (hfuel : n < fuel) {c : Cpu}
    (hc : P c) : ∃ c', run code fuel ⟨0, c⟩ = some (c'.get r, c') ∧ Q c' := by
  obtain ⟨k, hk, c', hsteps, hQ⟩ := h c hc
  exact ⟨c', run_of_steps_ret hsteps hret (by omega), hQ⟩

/-- A block followed by a `ret`. -/
theorem run_block_ret {is : List Instr} {r : Reg} {c c' : Cpu} (h : execs is c = some c')
    {fuel : ℕ} (hfuel : is.length < fuel) :
    run (is.map .instr ++ [.ret r]) fuel ⟨0, c⟩ = some (c'.get r, c') := by
  have hat := at_self (is.map Item.instr ++ [.ret r])
  have hret : At (is.map Item.instr ++ [.ret r]) (0 + is.length) [.ret r] := by
    simpa using hat.right
  have hleads := leads_block hat.left fun d (hd : d = c) =>
    ⟨c', by rw [hd]; exact h, (rfl : c' = c')⟩
  obtain ⟨d, hrun, hd⟩ := run_of_leads hleads hret hfuel rfl
  rw [hrun, hd]

end A64
