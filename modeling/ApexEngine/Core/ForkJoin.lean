import ApexEngine.Core.MainThread
import Mathlib.Algebra.BigOperators.Group.Finset.Piecewise
import Mathlib.Algebra.Order.BigOperators.Group.Finset
import Mathlib.Tactic.Ring

/-!
# Fork and join

A program starts a thread for each of its tasks, joins them in order, and puts together what
they have left in an array of results.  The threads share a heap, from which each takes one
object and which it gives back, and the array, in which each has a slot.  Allocation may fail,
and a thread that gets no object leaves its slot as it was.  A thread may not start, and then
the program is terminated.  What the main thread does before the last join is that of
`MainThread`.

The threads take their steps in any order (`Step`).  What is proved is for every order:

* a worker does on its object what it would do alone (`Program.alone`), so what it leaves in
  its slot depends on nothing but its task (`Inv.worker`);
* **no two threads are ever about to access the same location** (`Reaches.no_race`);
* **when the program returns**, its result is put together from the workers that had an
  object, each with what it computes alone, and nothing is left on the heap
  (`Reaches.returned`);
* **every order comes to an end** when each worker does alone: there is a bound on the steps
  (`Reaches.le_bound`), and a program that cannot go on has returned or was terminated
  (`Reaches.progress`).

All of it follows from what holds in a state (`Inv`), and that is kept by every step because a
move of a worker changes its own phase, its own slot and the object it holds (`Move`).
-/

namespace ForkJoin

open MainThread (Thread Life)

variable {L O R A : Type}

/-! ## Programs -/

/-- What a worker does next, given its locals and its object. -/
inductive Next (L O R : Type) where
  | more (l : L) (o : O)
  | finish (r : R)
  | fault

/-- A program with its tasks.  There may be more slots than tasks. -/
structure Program (L O R A : Type) where
  tasks : ℕ
  slots : ℕ
  start : ℕ → L
  fresh : O
  next : ℕ → L → O → Next L O R
  zero : R
  init : A
  combine : A → R → A

/-- Where a worker is. -/
inductive Phase (L R : Type) where
  | unborn
  | born
  | clearing (a : ℕ)
  | working (a : ℕ) (l : L)
  | leaving (r : R)
  | exited (allocated : Bool)

/-- A worker starts with nothing done. -/
def Phase.life (L R : Type) : Life (Phase L R) where
  unborn := .unborn
  start _ := .born
  exited p := ∃ b, p = .exited b
  start_ne _ := by simp

/-- Where the main thread is after the last join: it puts the results together. -/
inductive Summing (A : Type) where
  | adding (t : ℕ) (acc : A)
  | returned (acc : A)

abbrev Main (A : Type) := MainThread.Main (Summing A)

abbrev Main.adding (t : ℕ) (acc : A) : Main A := .joined (.adding t acc)

abbrev Main.returned (acc : A) : Main A := .joined (.returned acc)

structure State (L O R A : Type) where
  main : Main A
  phase : ℕ → Phase L R
  heap : ℕ → Option O
  results : ℕ → R

/-- A location that is shared. -/
inductive Loc where
  | object (a : ℕ)
  | result (t : ℕ)

inductive Access where
  | read (l : Loc)
  | write (l : Loc)

def Access.loc : Access → Loc
  | .read l => l
  | .write l => l

/-- The address of the object a worker holds. -/
def Phase.address : Phase L R → Option ℕ
  | .clearing a => some a
  | .working a _ => some a
  | _ => none

/-- The steps of the main thread after the last join. -/
def Summing.steps (slots : ℕ) : Summing A → ℕ
  | .adding t _ => t
  | .returned _ => slots + 1

/-- A move of worker `t`: the phase, the heap and its slot before and after. -/
inductive Move (P : Program L O R A) (t : ℕ) : List Access → Phase L R → (ℕ → Option O) → R →
    Phase L R → (ℕ → Option O) → R → Prop
  | allocate {heap r a} (o : O) (hfree : heap a = none) :
      Move P t [] .born heap r (.clearing a) (Function.update heap a (some o)) r
  | noMemory {heap r} : Move P t [.write (.result t)] .born heap r (.exited false) heap P.zero
  | clear {heap r a} : Move P t [.write (.object a)] (.clearing a) heap r
      (.working a (P.start t)) (Function.update heap a (some P.fresh)) r
  | work {heap r a l o l' o'} (hobject : heap a = some o) (hnext : P.next t l o = .more l' o') :
      Move P t [.read (.object a), .write (.object a)] (.working a l) heap r
        (.working a l') (Function.update heap a (some o')) r
  | free {heap r a l o r'} (hobject : heap a = some o) (hnext : P.next t l o = .finish r') :
      Move P t [.write (.object a)] (.working a l) heap r (.leaving r')
        (Function.update heap a none) r
  | report {heap r r'} :
      Move P t [.write (.result t)] (.leaving r') heap r (.exited true) heap r'

/-- A step of a thread, with what it accesses. -/
inductive Step (P : Program L O R A) :
    Thread → List Access → State L O R A → State L O R A → Prop
  | main {s m φ}
      (hstep : MainThread.Step P.tasks (Phase.life L R) s.main s.phase m φ) :
      Step P .main [] s { s with main := m, phase := φ }
  | joined {s} (hmain : s.main = .joining P.tasks) :
      Step P .main [] s { s with main := .adding 0 P.init }
  | add {s t acc} (hmain : s.main = .adding t acc) (ht : t < P.slots) :
      Step P .main [.read (.result t)] s
        { s with main := .adding (t + 1) (P.combine acc (s.results t)) }
  | finish {s acc} (hmain : s.main = .adding P.slots acc) :
      Step P .main [] s { s with main := .returned acc }
  | worker {s t as p h r} (hlive : s.main.isTerminated = false)
      (hmove : Move P t as (s.phase t) s.heap (s.results t) p h r) :
      Step P (.worker t) as s
        { s with
          phase := Function.update s.phase t p
          heap := h
          results := Function.update s.results t r }

namespace Program

variable (P : Program L O R A)

def initial : State L O R A := ⟨.forking 0, fun _ => .unborn, fun _ => none, fun _ => P.zero⟩

/-- What worker `t` has after `k` steps on a fresh object that nobody else touches. -/
def alone (t : ℕ) : ℕ → Option (L × O)
  | 0 => some (P.start t, P.fresh)
  | k + 1 => (alone t k).bind fun s =>
      match P.next t s.1 s.2 with
      | .more l o => some (l, o)
      | _ => none

/-- Alone, worker `t` finishes after `k` steps with `r`. -/
def Ends (t k : ℕ) (r : R) : Prop := ∃ l o, P.alone t k = some (l, o) ∧ P.next t l o = .finish r

/-- The result of a run, when the slots contain `f`. -/
def total (f : ℕ → R) (n : ℕ) : A := (List.range n).foldl (fun acc t => P.combine acc (f t)) P.init

end Program

/-- A state that some order of steps leads to, with their number. -/
inductive Reaches (P : Program L O R A) : ℕ → State L O R A → Prop
  | start : Reaches P 0 P.initial
  | step {n s i as s'} (h : Reaches P n s) (hstep : Step P i as s s') : Reaches P (n + 1) s'

/-! ## A worker alone -/

section Alone

variable {P : Program L O R A} {t k j : ℕ} {l : L} {o : O} {r : R}

theorem alone_succ {l' : L} {o' : O} (h : P.alone t k = some (l, o))
    (hnext : P.next t l o = .more l' o') : P.alone t (k + 1) = some (l', o') := by
  rw [Program.alone, h, Option.bind_some, hnext]

/-- A worker that is at no place goes nowhere. -/
theorem alone_none (h : P.alone t k = none) (hj : k ≤ j) : P.alone t j = none := by
  obtain ⟨i, rfl⟩ := Nat.exists_eq_add_of_le hj
  clear hj
  induction i with
  | zero => exact h
  | succ i ih =>
    rw [← Nat.add_assoc, Program.alone, ih]
    rfl

/-- Nothing comes after the end. -/
theorem Program.Ends.alone_eq_none (h : P.Ends t k r) (hj : k < j) : P.alone t j = none := by
  obtain ⟨l, o, halone, hnext⟩ := h
  refine alone_none (k := k + 1) ?_ hj
  rw [Program.alone, halone, Option.bind_some, hnext]

theorem Program.Ends.le (h : P.Ends t k r) (halone : P.alone t j = some (l, o)) : j ≤ k := by
  by_contra hlt
  rw [h.alone_eq_none (by omega)] at halone
  exact absurd halone (by simp)

/-- **A worker that ends, ends once.** -/
theorem Program.Ends.unique {r' : R} (h : P.Ends t k r) (h' : P.Ends t j r') : k = j ∧ r = r' := by
  obtain ⟨l, o, halone, hnext⟩ := h
  obtain ⟨l', o', halone', hnext'⟩ := h'
  obtain rfl : k = j := Nat.le_antisymm (Program.Ends.le ⟨l', o', halone', hnext'⟩ halone)
    (Program.Ends.le ⟨l, o, halone, hnext⟩ halone')
  obtain ⟨rfl, rfl⟩ := Prod.mk.inj (Option.some.inj (halone.symm.trans halone'))
  exact ⟨rfl, Next.finish.inj (hnext.symm.trans hnext')⟩

/-- On the way to its end a worker goes on. -/
theorem Program.Ends.next (h : P.Ends t k r) (halone : P.alone t j = some (l, o)) :
    (∃ l' o', P.next t l o = .more l' o') ∨ ∃ r', P.next t l o = .finish r' := by
  rcases Nat.lt_or_eq_of_le (h.le halone) with hlt | rfl
  · left
    cases hnext : P.next t l o with
    | more l' o' => exact ⟨l', o', rfl⟩
    | finish r' =>
      obtain ⟨rfl, -⟩ := h.unique ⟨l, o, halone, hnext⟩
      exact absurd hlt (Nat.lt_irrefl _)
    | fault =>
      -- nothing comes after a fault, but the end does
      obtain ⟨l', o', hend, -⟩ := h
      have hnone : P.alone t (j + 1) = none := by
        rw [Program.alone, halone, Option.bind_some, hnext]
      rw [alone_none hnone hlt] at hend
      exact absurd hend (by simp)
  · right
    obtain ⟨l', o', halone', hnext⟩ := h
    obtain ⟨rfl, rfl⟩ := Prod.mk.inj (Option.some.inj (halone.symm.trans halone'))
    exact ⟨r, hnext⟩

end Alone

/-! ## What holds of a worker -/

/-- Worker `t` after `d` steps of its own: it has done on its object what it does alone. -/
def Sound (P : Program L O R A) (t d : ℕ) (p : Phase L R) (heap : ℕ → Option O) (r : R) : Prop :=
  match p with
  | .unborn => d = 0 ∧ r = P.zero
  | .born => d = 0 ∧ r = P.zero
  | .clearing a => d = 1 ∧ r = P.zero ∧ (heap a).isSome
  | .working a l => ∃ k o, d = k + 2 ∧ r = P.zero ∧ heap a = some o ∧ P.alone t k = some (l, o)
  | .leaving r' => ∃ k, d = k + 3 ∧ r = P.zero ∧ P.Ends t k r'
  | .exited true => ∃ k, d = k + 4 ∧ P.Ends t k r
  | .exited false => d = 1 ∧ r = P.zero

section Move

variable {P : Program L O R A} {t d : ℕ} {as : List Access} {p p' : Phase L R}
  {heap heap' : ℕ → Option O} {r r' : R}

/-- The object a worker holds is there. -/
theorem Sound.isSome {a : ℕ} (h : Sound P t d p heap r) (ha : p.address = some a) :
    (heap a).isSome := by
  cases p with
  | clearing b =>
    obtain rfl := Option.some.inj ha
    exact h.2.2
  | working b l =>
    obtain rfl := Option.some.inj ha
    obtain ⟨k, o, -, -, ho, -⟩ := h
    rw [ho]
    rfl
  | _ => exact absurd ha (by simp [Phase.address])

/-- Other objects do not matter. -/
theorem Sound.frame (h : Sound P t d p heap r) (hsame : ∀ a, p.address = some a → heap' a = heap a) :
    Sound P t d p heap' r := by
  cases p with
  | clearing a => exact ⟨h.1, h.2.1, (hsame a rfl).symm ▸ h.2.2⟩
  | working a l =>
    obtain ⟨k, o, hd, hr, ho, halone⟩ := h
    exact ⟨k, o, hd, hr, (hsame a rfl).trans ho, halone⟩
  | exited b => cases b <;> exact h
  | unborn | born | leaving r' => exact h

/-- **A move keeps a worker sound.** -/
theorem Move.sound (hm : Move P t as p heap r p' heap' r') (h : Sound P t d p heap r) :
    Sound P t (d + 1) p' heap' r' := by
  cases hm with
  | allocate o hfree => exact ⟨by rw [h.1], h.2, by rw [Function.update_self]; rfl⟩
  | noMemory => exact ⟨by rw [h.1], rfl⟩
  | clear => exact ⟨0, P.fresh, by rw [h.1], h.2.1, Function.update_self .., rfl⟩
  | work hobject hnext =>
    obtain ⟨k, o, hd, hr, ho, halone⟩ := h
    obtain rfl := Option.some.inj (hobject.symm.trans ho)
    exact ⟨k + 1, _, by omega, hr, Function.update_self .., alone_succ halone hnext⟩
  | free hobject hnext =>
    obtain ⟨k, o, hd, hr, ho, halone⟩ := h
    obtain rfl := Option.some.inj (hobject.symm.trans ho)
    exact ⟨k, by omega, hr, _, _, halone, hnext⟩
  | report =>
    obtain ⟨k, hd, -, hends⟩ := h
    exact ⟨k, by omega, hends⟩

/-- Who moves is running, before and after or not any more. -/
theorem Move.running (hm : Move P t as p heap r p' heap' r') :
    p ≠ .unborn ∧ (∀ b, p ≠ .exited b) ∧ p' ≠ .unborn := by
  cases hm <;> simp

/-- A move changes the heap where the worker has its object, before or after. -/
theorem Move.heap_eq (hm : Move P t as p heap r p' heap' r') {a : ℕ} (ha : p.address ≠ some a)
    (ha' : p'.address ≠ some a) : heap' a = heap a := by
  cases hm with
  | noMemory | report => rfl
  | allocate o hfree => exact Function.update_of_ne (fun heq => ha' (congrArg some heq.symm)) ..
  | clear | work | free => exact Function.update_of_ne (fun heq => ha (congrArg some heq.symm)) ..

/-- A new object was free before. -/
theorem Move.address (hm : Move P t as p heap r p' heap' r') {a : ℕ} (ha : p'.address = some a) :
    p.address = some a ∨ heap a = none := by
  cases hm with
  | allocate o hfree =>
    obtain rfl := Option.some.inj ha
    exact Or.inr hfree
  | clear | work => exact Or.inl ha
  | noMemory | free | report => exact absurd ha (by simp [Phase.address])

/-- An object that is given up is free. -/
theorem Move.freed (hm : Move P t as p heap r p' heap' r') {a : ℕ} (ha : p.address = some a)
    (ha' : p'.address ≠ some a) : heap' a = none := by
  cases hm with
  | free =>
    obtain rfl := Option.some.inj ha
    exact Function.update_self ..
  | clear | work => exact absurd ha ha'
  | allocate | noMemory | report => exact absurd ha (by simp [Phase.address])

/-- What a worker accesses is its object or its slot. -/
theorem Move.access (hm : Move P t as p heap r p' heap' r') {x : Access} (hx : x ∈ as) :
    (∃ a, p.address = some a ∧ x.loc = .object a) ∨ x.loc = .result t := by
  cases hm with
  | allocate => exact absurd hx List.not_mem_nil
  | noMemory | report =>
    rw [List.mem_singleton.mp hx]
    exact Or.inr rfl
  | clear | free =>
    rw [List.mem_singleton.mp hx]
    exact Or.inl ⟨_, rfl, rfl⟩
  | work =>
    rcases List.mem_pair.mp hx with rfl | rfl <;> exact Or.inl ⟨_, rfl, rfl⟩

end Move

/-! ## What holds of a state -/

/-- What the main thread has put together. -/
def Summed (P : Program L O R A) (results : ℕ → R) : Summing A → Prop
  | .adding t acc => t ≤ P.slots ∧ acc = P.total results t
  | .returned acc => acc = P.total results P.slots

/-- **The invariant**, with the steps that every worker has taken. -/
structure Inv (P : Program L O R A) (d : ℕ → ℕ) (s : State L O R A) : Prop where
  main : MainThread.Sound P.tasks (Phase.life L R) (Summed P s.results) s.main s.phase
  worker : ∀ t, Sound P t (d t) (s.phase t) s.heap (s.results t)
  own : ∀ t u a, (s.phase t).address = some a → (s.phase u).address = some a → t = u
  held : ∀ a, (s.heap a).isSome → ∃ t, (s.phase t).address = some a

section Inv

variable {P : Program L O R A} {d : ℕ → ℕ} {s s' : State L O R A} {t : ℕ}

theorem inv_initial : Inv P (fun _ => 0) P.initial where
  main := MainThread.sound_initial
  worker t := ⟨rfl, rfl⟩
  own t u a ht := absurd ht (by simp [Program.initial, Phase.address])
  held a ha := absurd ha (by simp [Program.initial])

theorem Move.not_exited {as : List Access} {p q : Phase L R} {heap heap' : ℕ → Option O} {r r' : R}
    (hm : Move P t as p heap r q heap' r') : ¬ (Phase.life L R).exited p := by
  rintro ⟨b, hb⟩
  exact hm.running.2.1 b hb

/-- No other worker has the object of one that moves, before or after. -/
theorem Inv.apart (h : Inv P d s) {as : List Access} {p : Phase L R} {heap : ℕ → Option O} {r : R}
    (hm : Move P t as (s.phase t) s.heap (s.results t) p heap r) {u a : ℕ} (hne : u ≠ t)
    (hu : (s.phase u).address = some a) : (s.phase t).address ≠ some a ∧ p.address ≠ some a := by
  refine ⟨fun ht => hne (h.own u t a hu ht), fun hp => ?_⟩
  rcases hm.address hp with ht | hfree
  · exact hne (h.own u t a hu ht)
  · have hsome := (h.worker u).isSome hu
    rw [hfree] at hsome
    exact absurd hsome (by simp)

/-- **A move of a worker** keeps the invariant, and is a step of its own. -/
theorem Inv.worker_step (h : Inv P d s) {as : List Access} {p : Phase L R}
    {heap : ℕ → Option O} {r : R} (hm : Move P t as (s.phase t) s.heap (s.results t) p heap r) :
    Inv P (Function.update d t (d t + 1)) { s with
      phase := Function.update s.phase t p, heap := heap
      results := Function.update s.results t r } where
  main := h.main.thread hm.running.1 hm.not_exited hm.running.2.2
  worker u := by
    by_cases hut : u = t
    · subst hut
      simp only [Function.update_self]
      exact hm.sound (h.worker u)
    · simp only [Function.update_of_ne hut]
      exact (h.worker u).frame fun a ha =>
        hm.heap_eq (h.apart hm hut ha).1 (h.apart hm hut ha).2
  own u v a hu hv := by
    by_cases hut : u = t
    · by_cases hvt : v = t
      · rw [hut, hvt]
      · subst hut
        simp only [Function.update_self, Function.update_of_ne hvt] at hu hv
        exact absurd hu (h.apart hm hvt hv).2
    · by_cases hvt : v = t
      · subst hvt
        simp only [Function.update_self, Function.update_of_ne hut] at hu hv
        exact absurd hv (h.apart hm hut hu).2
      · simp only [Function.update_of_ne hut, Function.update_of_ne hvt] at hu hv
        exact h.own u v a hu hv
  held a ha := by
    by_cases hp : p.address = some a
    · exact ⟨t, by simp only [Function.update_self, hp]⟩
    · -- the object was there before, and is not what the worker has given up
      have hfreed : (s.phase t).address ≠ some a := fun ht => by
        change (heap a).isSome at ha
        rw [hm.freed ht hp] at ha
        exact absurd ha (by simp)
      obtain ⟨u, hu⟩ := h.held a (hm.heap_eq hfreed hp ▸ ha)
      have hut : u ≠ t := by
        rintro rfl
        exact hfreed hu
      exact ⟨u, by simp only [Function.update_of_ne hut, hu]⟩

/-- A step of the main thread before the last join. -/
theorem Inv.main_step (h : Inv P d s) {m : Main A} {φ : ℕ → Phase L R}
    (hstep : MainThread.Step P.tasks (Phase.life L R) s.main s.phase m φ) :
    Inv P d { s with main := m, phase := φ } := by
  have haddress : ∀ u, (φ u).address = (s.phase u).address :=
    hstep.forall h.main (K := fun u p => p.address = (s.phase u).address) (fun _ => rfl)
      fun u hu => hu
  refine ⟨(hstep.sound h.main (Summing.steps P.slots)).1, fun u => ?_, fun u v a hu hv => ?_,
    fun a ha => ?_⟩
  · exact hstep.forall h.main (K := fun u p => Sound P u (d u) p s.heap (s.results u)) h.worker
      (fun u hu => hu) u
  · simp only [haddress] at hu hv
    exact h.own u v a hu hv
  · obtain ⟨u, hu⟩ := h.held a ha
    exact ⟨u, (haddress u).trans hu⟩

/-- A step of the main thread after the last join. -/
theorem Inv.end_step (h : Inv P d s) {b : Summing A}
    (hm : MainThread.Sound P.tasks (Phase.life L R) (Summed P s.results) (.joined b) s.phase) :
    Inv P d { s with main := .joined b } :=
  ⟨hm, h.worker, h.own, h.held⟩

/-- The steps of all threads. -/
def State.steps (P : Program L O R A) (d : ℕ → ℕ) (s : State L O R A) : ℕ :=
  s.main.steps P.tasks (Summing.steps P.slots) + ∑ t ∈ Finset.range P.tasks, d t

/-- **Every step keeps the invariant**, and is counted. -/
theorem Inv.step (h : Inv P d s) {i : Thread} {as : List Access} (hstep : Step P i as s s') :
    ∃ d', Inv P d' s' ∧ s'.steps P d' = s.steps P d + 1 := by
  cases hstep with
  | main hstep =>
    refine ⟨d, h.main_step hstep, ?_⟩
    simp only [State.steps, (hstep.sound h.main (Summing.steps P.slots)).2]
    ring
  | joined hm =>
    refine ⟨d, h.end_step ((hm ▸ h.main).join ⟨Nat.zero_le _, rfl⟩), ?_⟩
    simp only [State.steps, hm, MainThread.Main.steps, Summing.steps]
    ring
  | @add _ t acc hm ht =>
    have hmain := h.main
    rw [hm] at hmain
    obtain ⟨-, hacc⟩ := hmain.atEnd
    refine ⟨d, h.end_step (hmain.goOn ⟨Nat.succ_le_of_lt ht, ?_⟩), ?_⟩
    · rw [hacc]
      simp only [Program.total, List.range_succ, List.foldl_append, List.foldl_cons,
        List.foldl_nil]
    · simp only [State.steps, hm, MainThread.Main.steps, Summing.steps]
      ring
  | finish hm =>
    have hmain := h.main
    rw [hm] at hmain
    refine ⟨d, h.end_step (hmain.goOn hmain.atEnd.2), ?_⟩
    simp only [State.steps, hm, MainThread.Main.steps, Summing.steps]
    ring
  | @worker _ t _ _ _ _ hlive hmove =>
    refine ⟨_, h.worker_step hmove, ?_⟩
    have hlt := Finset.mem_range.mpr (h.main.lt hmove.running.1)
    simp only [State.steps]
    rw [Finset.sum_update_of_mem hlt, Nat.add_assoc, ← Finset.add_sum_erase _ d hlt,
      Finset.sdiff_singleton_eq_erase]
    ring

end Inv

/-! ## Every order of steps -/

namespace Reaches

variable {P : Program L O R A} {n : ℕ} {s : State L O R A}

/-- **The invariant holds in every state that is reached.** -/
theorem inv (h : Reaches P n s) : ∃ d, Inv P d s ∧ n = s.steps P d := by
  induction h with
  | start =>
    refine ⟨fun _ => 0, inv_initial, ?_⟩
    simp [State.steps, Program.initial, MainThread.Main.steps]
  | step _ hstep ih =>
    obtain ⟨d, hinv, hn⟩ := ih
    obtain ⟨d', hinv', hcount⟩ := hinv.step hstep
    exact ⟨d', hinv', by rw [hcount, ← hn]⟩

/-- **No races.**  Two threads are never about to access the same location. -/
theorem no_race (h : Reaches P n s) {i j : Thread} (hij : i ≠ j) {as bs : List Access}
    {s₁ s₂ : State L O R A} (hi : Step P i as s s₁) (hj : Step P j bs s s₂) :
    ∀ x ∈ as, ∀ y ∈ bs, x.loc ≠ y.loc := by
  obtain ⟨d, hinv, -⟩ := h.inv
  -- when the main thread reads a result, no worker can move
  have hmainWorker : ∀ {t : ℕ} {as bs : List Access} {s₁ s₂ : State L O R A},
      Step P .main as s s₁ → Step P (.worker t) bs s s₂ → as = [] := by
    intro t as bs s₁ s₂ hi hj
    cases hi with
    | add hm ht =>
      cases hj with
      | worker hlive hmove =>
        exact absurd hm (hinv.main.ne_joined hmove.running.1 hmove.not_exited _)
    | _ => rfl
  cases i with
  | main =>
    cases j with
    | main => exact absurd rfl hij
    | worker u =>
      rw [hmainWorker hi hj]
      exact fun x hx => absurd hx List.not_mem_nil
  | worker t =>
    cases j with
    | main =>
      rw [hmainWorker hj hi]
      exact fun x _ y hy => absurd hy List.not_mem_nil
    | worker u =>
      have htu : t ≠ u := fun heq => hij (congrArg Thread.worker heq)
      cases hi with
      | worker _ hmove =>
        cases hj with
        | worker _ hmove' =>
          intro x hx y hy heq
          rcases hmove.access hx with ⟨a, ha, hxa⟩ | hxt
          · rcases hmove'.access hy with ⟨b, hb, hyb⟩ | hyu
            · rw [hxa, hyb] at heq
              obtain rfl := Loc.object.inj heq
              exact htu (hinv.own t u a ha hb)
            · rw [hxa, hyu] at heq
              exact Loc.noConfusion heq
          · rcases hmove'.access hy with ⟨b, hb, hyb⟩ | hyu
            · rw [hxt, hyb] at heq
              exact Loc.noConfusion heq
            · rw [hxt, hyu] at heq
              exact htu (Loc.result.inj heq)

/-- **When the program has returned**, every worker has exited, those that had an object with
what they compute alone, the result is put together from them, and the heap is empty. -/
theorem returned (h : Reaches P n s) {acc : A} (hret : s.main = .returned acc) :
    ∃ (allocated : ℕ → Bool) (f : ℕ → R),
      (∀ t < P.tasks, s.phase t = .exited (allocated t)) ∧
      (∀ t < P.tasks, allocated t = true → ∃ k, P.Ends t k (f t)) ∧
      (∀ t, (t < P.tasks → allocated t = false) → f t = P.zero) ∧
      acc = P.total f P.slots ∧ ∀ a, s.heap a = none := by
  obtain ⟨d, hinv, -⟩ := h.inv
  have hmain := hinv.main
  rw [hret] at hmain
  have hexited : ∀ t < P.tasks, ∃ b, s.phase t = .exited b := hmain.exited
  choose! allocated hallocated using hexited
  have hunborn : ∀ t, P.tasks ≤ t → s.phase t = .unborn := fun t ht => (hmain.forked t).mpr ht
  refine ⟨allocated, s.results, hallocated, fun t ht htrue => ?_, fun t hfalse => ?_, hmain.atEnd,
    fun a => ?_⟩
  · have hsound := hinv.worker t
    rw [hallocated t ht, htrue] at hsound
    obtain ⟨k, -, hends⟩ := hsound
    exact ⟨k, hends⟩
  · have hsound := hinv.worker t
    rcases Nat.lt_or_ge t P.tasks with ht | ht
    · rw [hallocated t ht, hfalse ht] at hsound
      exact hsound.2
    · rw [hunborn t ht] at hsound
      exact hsound.2
  · by_contra hsome
    obtain ⟨t, ht⟩ := hinv.held a (Option.isSome_iff_ne_none.mpr hsome)
    rcases Nat.lt_or_ge t P.tasks with hlt | hle
    · rw [hallocated t hlt] at ht
      exact absurd ht (by simp [Phase.address])
    · rw [hunborn t hle] at ht
      exact absurd ht (by simp [Phase.address])

/-- The steps of a worker that ends alone after `k` steps. -/
theorem sound_le {t d k : ℕ} {p : Phase L R} {heap : ℕ → Option O} {r r' : R}
    (h : Sound P t d p heap r) (hends : P.Ends t k r') : d ≤ k + 4 := by
  cases p with
  | unborn | born | clearing a =>
    have hd := h.1
    omega
  | working a l =>
    obtain ⟨j, o, hd, -, -, halone⟩ := h
    have hle := hends.le halone
    omega
  | leaving r'' =>
    obtain ⟨j, hd, -, hj⟩ := h
    obtain ⟨rfl, -⟩ := hends.unique hj
    omega
  | exited b =>
    cases b with
    | false =>
      have hd := h.1
      omega
    | true =>
      obtain ⟨j, hd, hj⟩ := h
      obtain ⟨rfl, -⟩ := hends.unique hj
      omega

/-- **The number of steps is bounded**, whatever their order, when every worker ends alone. -/
theorem le_bound (h : Reaches P n s) {k : ℕ → ℕ} {r : ℕ → R}
    (hends : ∀ t < P.tasks, P.Ends t (k t) (r t)) :
    n ≤ 2 * P.tasks + P.slots + 3 + ∑ t ∈ Finset.range P.tasks, (k t + 4) := by
  obtain ⟨d, hinv, rfl⟩ := h.inv
  have hsumming : ∀ b, Summed P s.results b → b.steps P.slots ≤ P.slots + 1 := by
    rintro (⟨t, acc⟩ | acc) hb
    · exact hb.1.trans (Nat.le_succ _)
    · exact le_rfl
  have hmain : s.main.steps P.tasks (Summing.steps P.slots) ≤ 2 * P.tasks + P.slots + 3 :=
    (hinv.main.steps_le hsumming).trans (by omega)
  refine Nat.add_le_add hmain (Finset.sum_le_sum fun t ht => ?_)
  exact sound_le (hinv.worker t) (hends t (Finset.mem_range.mp ht))

/-- **A program that cannot go on** has returned or was terminated, when every worker ends
alone. -/
theorem progress (h : Reaches P n s) (hends : ∀ t < P.tasks, ∃ k r, P.Ends t k r) :
    (∃ i as s', Step P i as s s') ∨ (∃ acc, s.main = .returned acc) ∨
      ∃ t, s.main = .terminated t := by
  obtain ⟨d, hinv, -⟩ := h.inv
  rcases hinv.main.progress with ⟨m, φ, hstep⟩ | hjoin | ⟨b, hb⟩ | hterm | ⟨t, ht, hm, hborn, hruns⟩
  · exact Or.inl ⟨_, _, _, .main hstep⟩
  · exact Or.inl ⟨_, _, _, .joined hjoin⟩
  · cases b with
    | returned acc => exact Or.inr (Or.inl ⟨acc, hb⟩)
    | adding t acc =>
      have hmain := hinv.main
      rw [hb] at hmain
      rcases Nat.lt_or_eq_of_le hmain.atEnd.1 with ht | rfl
      · exact Or.inl ⟨_, _, _, .add hb ht⟩
      · exact Or.inl ⟨_, _, _, .finish hb⟩
  · exact Or.inr (Or.inr hterm)
  · -- the worker that is waited for can go on
    left
    have hlive : s.main.isTerminated = false := by rw [hm]; rfl
    have hmove : ∀ {q as p heap r}, s.phase t = q → Move P t as q s.heap (s.results t) p heap r →
        ∃ i as s', Step P i as s s' := by
      rintro q as p heap r rfl hm
      exact ⟨_, _, _, .worker hlive hm⟩
    have hsound := hinv.worker t
    cases hphase : s.phase t with
    | unborn => exact absurd hphase hborn
    | exited b => exact absurd ⟨b, hphase⟩ hruns
    | born => exact hmove hphase .noMemory
    | clearing a => exact hmove hphase .clear
    | leaving r => exact hmove hphase .report
    | working a l =>
      rw [hphase] at hsound
      obtain ⟨k, o, -, -, hobject, halone⟩ := hsound
      obtain ⟨k', r, hr⟩ := hends t ht
      rcases hr.next halone with ⟨l', o', hnext⟩ | ⟨r', hnext⟩
      · exact hmove hphase (.work hobject hnext)
      · exact hmove hphase (.free hobject hnext)

end Reaches

end ForkJoin
