import ApexEngine.Machine.Writing
import Mathlib.Data.List.Induction

/-!
# Registers saved on the stack

A function that uses callee-saved registers pushes them in pairs when it is entered and pops
them in the opposite order before it returns.  The words below the stack pointer are counted
from the top (`below`), so a pair that is saved has the same two cells whatever is pushed
after it, and `Saved` says that these cells have what the registers had at entry.

Pushing adds a pair (`Pushed.push`), writes nothing but the cells of the frame and leaves the
other registers alone.  Popping gives the registers back (`pops`), as long as the frame still
has them: what runs in between must not write there.
-/

namespace A64

/-- The cell `i` words below an address. -/
def below (top : Word) (i : ℕ) : Word := top - BitVec.ofNat 64 (8 * i)

theorem below_zero (top : Word) : below top 0 = top := BitVec.sub_zero top

theorem below_add (top : Word) (i j : ℕ) :
    below top (i + j) + BitVec.ofNat 64 (8 * j) = below top i := by
  rw [below, below, Nat.mul_add, BitVec.ofNat_add, BitVec.sub_eq_add_neg, BitVec.sub_eq_add_neg,
    BitVec.neg_add, BitVec.sub_eq_add_neg, ← BitVec.add_assoc, BitVec.add_assoc,
    BitVec.add_left_neg, BitVec.add_zero]

theorem below_push (top : Word) (i : ℕ) : below top i + (-16) = below top (i + 2) := by
  rw [← below_add top i 2, BitVec.add_assoc,
    show BitVec.ofNat 64 (8 * 2) + (-16) = BitVec.ofNat 64 0 by decide, BitVec.add_zero]

theorem below_inj {top : Word} {i j : ℕ} (hi : i < 2 ^ 61) (hj : j < 2 ^ 61)
    (h : below top i = below top j) : i = j := by
  have heq : BitVec.ofNat 64 (8 * i) = BitVec.ofNat 64 (8 * j) := by
    rw [below, below, BitVec.sub_eq_add_neg, BitVec.sub_eq_add_neg] at h
    exact BitVec.neg_inj.mp ((BitVec.add_right_inj _).mp h)
  have := congrArg BitVec.toNat heq
  simp only [BitVec.toNat_ofNat] at this
  omega

/-- The frame: the first `n` words below an address. -/
def InFrame (top : Word) (n : ℕ) (a : Word) : Prop := ∃ i, 1 ≤ i ∧ i ≤ n ∧ a = below top i

/-- Push a pair of registers. -/
def push (p : Reg × Reg) : Instr := .stp p.1 p.2 (.pre .sp (-16))

/-- Pop a pair of registers. -/
def pop (p : Reg × Reg) : Instr := .ldp p.1 p.2 (.post .sp 16)

/-- The pairs are in memory below `top`, with the values they have in `c`. -/
def Saved (top : Word) (ps : List (Reg × Reg)) (c : Cpu) (m : Memory) : Prop :=
  ∀ j p, ps[j]? = some p → m.load (below top (2 * j + 2)) = some (c.get p.1) ∧
    m.load (below top (2 * j + 1)) = some (c.get p.2)

/-- The machine `c` after the pairs have been pushed, entered as `c₀`, in a frame of `n`
words. -/
structure Pushed (n : ℕ) (c₀ : Cpu) (ps : List (Reg × Reg)) (c : Cpu) : Prop where
  sp : c.get .sp = below (c₀.get .sp) (2 * ps.length)
  saved : Saved (c₀.get .sp) ps c₀ c.mem
  kept : Kept (InFrame (c₀.get .sp) n) c₀.mem c.mem

section Push

variable {n : ℕ} {c₀ c : Cpu} {ps : List (Reg × Reg)} {a b : Reg}

theorem Pushed.enter (n : ℕ) (c₀ : Cpu) : Pushed n c₀ [] c₀ where
  sp := (below_zero _).symm
  saved j p hp := absurd hp (by simp)
  kept := .refl _ _

/-- **A push adds a pair.** -/
theorem Pushed.push (h : Pushed n c₀ ps c) (hn : 2 * ps.length + 2 ≤ n) (hsmall : n < 2 ^ 60)
    (hmapped : ∀ i, 1 ≤ i → i ≤ n → (c₀.mem.load (below (c₀.get .sp) i)).isSome)
    (ha : c.get a = c₀.get a) (hb : c.get b = c₀.get b) :
    Writing (InFrame (c₀.get .sp) n) [A64.push (a, b)] c fun d =>
      Pushed n c₀ (ps ++ [(a, b)]) d ∧ ∀ r, r ≠ .sp → d.get r = c.get r := by
  set k := ps.length with hk
  set top := c₀.get .sp with htop
  have hbase : c.get .sp + (-16) = below top (2 * k + 2) := by rw [h.sp, below_push]
  have hnext : below top (2 * k + 2) + 8 = below top (2 * k + 1) := below_add top (2 * k + 1) 1
  have hres : (Addr.pre .sp (-16)).resolve c =
      (below top (2 * k + 2), c.set .sp (below top (2 * k + 2))) := by rw [Addr.resolve, hbase]
  obtain ⟨μ, hμ⟩ := Memory.exists_store
    (h.kept.load_isSome (hmapped (2 * k + 2) (by omega) hn)) (c.get a)
  have hfirst : InFrame top n (below top (2 * k + 2)) := ⟨_, by omega, hn, rfl⟩
  have hsecond : InFrame top n (below top (2 * k + 1)) := ⟨_, by omega, by omega, rfl⟩
  have hkept := h.kept.trans (.of_store hμ hfirst)
  obtain ⟨μ', hμ'⟩ := Memory.exists_store
    (hkept.load_isSome (hmapped (2 * k + 1) (by omega) (by omega))) (c.get b)
  refine Writing.stp (by rw [hres]; exact hfirst)
    (by rw [hres, hnext]; exact hsecond) (by rw [hres]; exact hμ) (by rw [hres, hnext]; exact hμ')
    (Writing.nil ⟨⟨?_, fun j p hp => ?_, hkept.trans (.of_store hμ' hsecond)⟩, fun r hr => ?_⟩)
  · rw [Cpu.get_with_mem, hres, Cpu.get_set_self _ _ (by decide), List.length_append,
      List.length_singleton, Nat.mul_add]
  · have hold : ∀ i, 1 ≤ i → i ≤ 2 * k → μ'.load (below top i) = c.mem.load (below top i) := by
      intro i h1 hi
      have hne : ∀ j, 2 * k < j → j ≤ n → below top i ≠ below top j := fun j hj hjn heq =>
        absurd (below_inj (by omega) (by omega) heq) (by omega)
      rw [Memory.load_store_of_ne hμ' (hne _ (by omega) (by omega)),
        Memory.load_store_of_ne hμ (hne _ (by omega) hn)]
    have hlast : below top (2 * k + 2) ≠ below top (2 * k + 1) := fun heq =>
      absurd (below_inj (by omega) (by omega) heq) (by omega)
    rcases Nat.lt_trichotomy j k with hj | rfl | hj
    · rw [List.getElem?_append_left hj] at hp
      rw [hold _ (by omega) (by omega), hold _ (by omega) (by omega)]
      exact h.saved j p hp
    · rw [hk, List.getElem?_concat_length] at hp
      obtain rfl := Option.some.inj hp
      rw [Memory.load_store_of_ne hμ' hlast, Memory.load_store hμ, Memory.load_store hμ', ha, hb]
      exact ⟨rfl, rfl⟩
    · rw [List.getElem?_eq_none (by rw [List.length_append, List.length_singleton]; omega)] at hp
      exact absurd hp (by simp)
  · rw [Cpu.get_with_mem, hres, Cpu.get_set_of_ne _ _ hr]

/-- The registers of some pairs. -/
def registers (ps : List (Reg × Reg)) : List Reg := ps.flatMap fun p => [p.1, p.2]

/-- **Several pairs are pushed** one below the other. -/
theorem Pushed.pushes (h : Pushed n c₀ ps c) {qs : List (Reg × Reg)}
    (hn : 2 * (ps.length + qs.length) ≤ n) (hsmall : n < 2 ^ 60)
    (hmapped : ∀ i, 1 ≤ i → i ≤ n → (c₀.mem.load (below (c₀.get .sp) i)).isSome)
    (hsp : Reg.sp ∉ registers qs) (hget : ∀ r ∈ registers qs, c.get r = c₀.get r) :
    Writing (InFrame (c₀.get .sp) n) (qs.map A64.push) c fun d =>
      Pushed n c₀ (ps ++ qs) d ∧ ∀ r, r ≠ .sp → d.get r = c.get r := by
  induction qs generalizing ps c with
  | nil =>
    rw [List.append_nil]
    exact .nil ⟨h, fun _ _ => rfl⟩
  | cons q qs ih =>
    have hregs : registers (q :: qs) = [q.1, q.2] ++ registers qs := List.flatMap_cons
    rw [hregs, List.mem_append, not_or] at hsp
    rw [hregs] at hget
    rw [List.length_cons] at hn
    rw [List.map_cons, ← List.singleton_append]
    refine (h.push (by omega) hsmall hmapped (hget _ (by simp)) (hget _ (by simp))).append ?_
    rintro d ⟨hd, hsame⟩
    refine (ih hd (by rw [List.length_append, List.length_singleton]; omega) hsp.2
      fun r hr => ?_).mono ?_
    · rw [hsame r (fun heq => hsp.2 (heq ▸ hr)), hget r (List.mem_append_right _ hr)]
    · rintro e ⟨he, hsame'⟩
      rw [List.append_assoc, List.singleton_append] at he
      exact ⟨he, fun r hr => (hsame' r hr).trans (hsame r hr)⟩

/-- **Popping gives the registers back.** -/
theorem pops {W : Word → Prop} {top : Word} (hsp : c.get .sp = below top (2 * ps.length))
    (hsaved : Saved top ps c₀ c.mem) (hnd : (Reg.sp :: registers ps).Nodup)
    (hz : Reg.xzr ∉ registers ps) :
    Writing W (ps.reverse.map pop) c fun d => d.get .sp = top ∧ d.mem = c.mem ∧
      (∀ r ∈ registers ps, d.get r = c₀.get r) ∧
      ∀ r, r ∉ Reg.sp :: registers ps → d.get r = c.get r := by
  induction ps using List.reverseRecOn generalizing c with
  | nil =>
    refine .nil ⟨hsp.trans (below_zero top), rfl, fun r hr => absurd hr (by simp [registers]), ?_⟩
    exact fun r _ => rfl
  | append_singleton ps p ih =>
    have hregs : registers (ps ++ [p]) = registers ps ++ [p.1, p.2] := by
      simp [registers]
    rw [hregs] at hnd hz ⊢
    obtain ⟨hspnot, hnd'⟩ := List.nodup_cons.mp hnd
    obtain ⟨hndps, hndp, hapart⟩ := List.nodup_append.mp hnd'
    simp only [List.mem_append, List.mem_cons, List.not_mem_nil, or_false, not_or] at hspnot hz
    have hne : p.1 ≠ p.2 := fun heq => by simp [heq] at hndp
    rw [List.length_append, List.length_singleton, Nat.mul_add] at hsp
    obtain ⟨hload, hload'⟩ := hsaved ps.length p List.getElem?_concat_length
    set d := ((c.set .sp (c.get .sp + 16)).set p.1 (c₀.get p.1)).set p.2 (c₀.get p.2) with hd
    have hdsp : d.get .sp = below top (2 * ps.length) := by
      rw [hd, Cpu.get_set_of_ne _ _ hspnot.2.2, Cpu.get_set_of_ne _ _ hspnot.2.1,
        Cpu.get_set_self _ _ (by decide), hsp]
      exact below_add top (2 * ps.length) 2
    have hdsaved : Saved top ps c₀ d.mem := fun j q hq => by
      refine hsaved j q ?_
      rw [List.getElem?_append_left (List.getElem?_eq_some_iff.mp hq).1]
      exact hq
    rw [List.reverse_append, List.reverse_singleton, List.singleton_append, List.map_cons]
    have hfirst : c.mem.load ((Addr.post .sp 16).resolve c).1 = some (c₀.get p.1) := by
      rw [Addr.resolve, hsp]
      exact hload
    have hsecond : c.mem.load (((Addr.post .sp 16).resolve c).1 + 8) = some (c₀.get p.2) := by
      rw [Addr.resolve, hsp]
      exact (congrArg c.mem.load (below_add top (2 * ps.length + 1) 1)).trans hload'
    refine Writing.ldp hfirst hsecond
      ((ih hdsp hdsaved (List.nodup_cons.mpr ⟨hspnot.1, hndps⟩) hz.1).mono ?_)
    rintro e ⟨hesp, hemem, hrestored, hother⟩
    have hnot : ∀ r, r = p.1 ∨ r = p.2 → r ∉ Reg.sp :: registers ps := by
      intro r hr hmem
      rcases List.mem_cons.mp hmem with rfl | hmem
      · exact hr.elim hspnot.2.1 hspnot.2.2
      · exact hapart r hmem r (by simpa using hr) rfl
    refine ⟨hesp, hemem, fun r hr => ?_, fun r hr => ?_⟩
    · rcases List.mem_append.mp hr with hr | hr
      · exact hrestored r hr
      · simp only [List.mem_cons, List.not_mem_nil, or_false] at hr
        rw [hother r (hnot r hr)]
        rcases hr with rfl | rfl
        · rw [hd, Cpu.get_set_of_ne _ _ hne, Cpu.get_set_self _ _ fun heq => hz.2.1 heq.symm]
        · rw [hd, Cpu.get_set_self _ _ fun heq => hz.2.2 heq.symm]
    · simp only [List.mem_cons, List.mem_append, List.not_mem_nil, or_false, not_or] at hr
      rw [hother r (by simpa using ⟨hr.1, hr.2.1⟩), hd, Cpu.get_set_of_ne _ _ hr.2.2.2,
        Cpu.get_set_of_ne _ _ hr.2.2.1, Cpu.get_set_of_ne _ _ hr.1]

end Push

end A64
