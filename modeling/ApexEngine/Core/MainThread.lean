import Mathlib.Algebra.Order.Group.Nat
import Mathlib.Logic.Function.Basic
import Mathlib.Tactic.Ring

/-!
# A main thread that starts threads and joins them

Two programs of this development start threads and wait for all of them, and differ in what the
threads do and in what the main thread does when the last one has exited.  What they share is
here: the main thread starts `n` threads one after the other, is terminated when one of them does
not start, and joins them in order (`Step`).

What the threads are is left open, but for the phase in which a thread is when it has not been
started, the one in which it starts, and those in which it has exited (`Life`).  What the main
thread does in the end is a type of its own (`Main.joined`).

The invariant (`Sound`) says which threads have been started, which have exited, and something
that the programs choose of the end.  A step of the main thread keeps it (`Step.sound`), a thread
that moves keeps it (`Sound.thread`), and a main thread that cannot go on is at its end, was
terminated, or waits for a thread that runs (`Sound.progress`).
-/

namespace MainThread

variable {Φ B : Type}

inductive Thread where
  | main
  | worker (t : ℕ)

/-- Where the main thread is. -/
inductive Main (B : Type) where
  | forking (t : ℕ)
  | joining (t : ℕ)
  | joined (b : B)
  | terminated (t : ℕ)

/-- The threads that have been started. -/
def Main.forked (n : ℕ) : Main B → ℕ
  | .forking t => t
  | .terminated t => t
  | _ => n

/-- The steps of the main thread so far, with those after the last join. -/
def Main.steps (n : ℕ) (after : B → ℕ) : Main B → ℕ
  | .forking t => t
  | .terminated t => t + 1
  | .joining t => n + 1 + t
  | .joined b => n + 1 + n + 1 + after b

def Main.isTerminated : Main B → Bool
  | .terminated _ => true
  | _ => false

/-- The phases of a thread that the main thread knows of. -/
structure Life (Φ : Type) where
  unborn : Φ
  start : ℕ → Φ
  exited : Φ → Prop
  start_ne : ∀ t, start t ≠ unborn

/-- A step of the main thread before the last join. -/
inductive Step (n : ℕ) (life : Life Φ) : Main B → (ℕ → Φ) → Main B → (ℕ → Φ) → Prop
  | fork {t φ} (ht : t < n) :
      Step n life (.forking t) φ (.forking (t + 1)) (Function.update φ t (life.start t))
  | noThread {t φ} (ht : t < n) : Step n life (.forking t) φ (.terminated t) φ
  | forked {φ} : Step n life (.forking n) φ (.joining 0) φ
  | join {t φ} (ht : t < n) (hexited : life.exited (φ t)) :
      Step n life (.joining t) φ (.joining (t + 1)) φ

/-- What the main thread has waited for, and what holds of its end. -/
def Waited (n : ℕ) (life : Life Φ) (C : B → Prop) (φ : ℕ → Φ) : Main B → Prop
  | .forking t => t ≤ n
  | .terminated t => t < n
  | .joining t => t ≤ n ∧ ∀ u < t, life.exited (φ u)
  | .joined b => (∀ u < n, life.exited (φ u)) ∧ C b

/-- **The invariant** of the main thread and the phases of the threads. -/
structure Sound (n : ℕ) (life : Life Φ) (C : B → Prop) (m : Main B) (φ : ℕ → Φ) : Prop where
  waited : Waited n life C φ m
  forked : ∀ t, φ t = life.unborn ↔ m.forked n ≤ t

section Sound

variable {n t : ℕ} {life : Life Φ} {C C' : B → Prop} {m m' : Main B} {φ φ' : ℕ → Φ} {p : Φ} {b : B}

theorem sound_initial : Sound n life C (.forking 0) fun _ => life.unborn where
  waited := Nat.zero_le n
  forked t := iff_of_true rfl (Nat.zero_le t)

/-- A thread that is there has been started. -/
theorem Sound.lt_forked (h : Sound n life C m φ) (hborn : φ t ≠ life.unborn) : t < m.forked n := by
  by_contra hle
  exact hborn ((h.forked t).mpr (Nat.le_of_not_lt hle))

theorem Sound.forked_le (h : Sound n life C m φ) : m.forked n ≤ n := by
  have hwaited := h.waited
  cases m with
  | forking u => exact hwaited
  | terminated u => exact Nat.le_of_lt hwaited
  | joining u | joined b => exact le_rfl

theorem Sound.lt (h : Sound n life C m φ) (hborn : φ t ≠ life.unborn) : t < n :=
  (h.lt_forked hborn).trans_le h.forked_le

/-- In the end all threads have exited. -/
theorem Sound.exited (h : Sound n life C (.joined b) φ) : ∀ u < n, life.exited (φ u) := h.waited.1

theorem Sound.atEnd (h : Sound n life C (.joined b) φ) : C b := h.waited.2

/-- While a thread runs, the main thread is not at its end. -/
theorem Sound.ne_joined (h : Sound n life C m φ) (hborn : φ t ≠ life.unborn)
    (hexited : ¬ life.exited (φ t)) (b : B) : m ≠ .joined b := by
  rintro rfl
  exact hexited (h.exited t (h.lt hborn))

/-- **A thread that moves** leaves the main thread alone. -/
theorem Sound.thread (h : Sound n life C m φ) (hborn : φ t ≠ life.unborn)
    (hexited : ¬ life.exited (φ t)) (hp : p ≠ life.unborn) :
    Sound n life C' m (Function.update φ t p) where
  waited := by
    have hwaited := h.waited
    cases m with
    | forking u | terminated u => exact hwaited
    | joining u =>
      refine ⟨hwaited.1, fun v hv => ?_⟩
      have hne : v ≠ t := by
        rintro rfl
        exact hexited (hwaited.2 v hv)
      rw [Function.update_of_ne hne]
      exact hwaited.2 v hv
    | joined b => exact absurd rfl (h.ne_joined hborn hexited b)
  forked u := by
    by_cases hut : u = t
    · subst hut
      rw [Function.update_self]
      exact iff_of_false hp (Nat.not_le_of_lt (h.lt_forked hborn))
    · rw [Function.update_of_ne hut]
      exact h.forked u

/-- The main thread comes to its end. -/
theorem Sound.join (h : Sound n life C (.joining n) φ) (hb : C' b) :
    Sound n life C' (.joined b) φ :=
  ⟨⟨h.waited.2, hb⟩, h.forked⟩

/-- At its end the main thread goes on alone. -/
theorem Sound.goOn {b' : B} (h : Sound n life C (.joined b) φ) (hb : C' b') :
    Sound n life C' (.joined b') φ :=
  ⟨⟨h.exited, hb⟩, h.forked⟩

/-- The thread that is started next has not been started. -/
theorem Sound.next_unborn (h : Sound n life C (.forking t) φ) : φ t = life.unborn :=
  (h.forked t).mpr le_rfl

/-- **A step of the main thread keeps the invariant**, and is counted. -/
theorem Step.sound (hstep : Step n life m φ m' φ') (h : Sound n life C m φ) (after : B → ℕ) :
    Sound n life C m' φ' ∧ m'.steps n after = m.steps n after + 1 := by
  have hforked := h.forked
  cases hstep with
  | @fork t _ ht =>
    refine ⟨⟨Nat.succ_le_of_lt ht, fun u => ?_⟩, rfl⟩
    by_cases hut : u = t
    · subst hut
      rw [Function.update_self]
      exact iff_of_false (life.start_ne u) (Nat.not_succ_le_self u)
    · rw [Function.update_of_ne hut, hforked u]
      simp only [Main.forked]
      omega
  | noThread ht => exact ⟨⟨ht, hforked⟩, rfl⟩
  | forked => exact ⟨⟨⟨Nat.zero_le n, fun u hu => absurd hu (Nat.not_lt_zero u)⟩, hforked⟩, rfl⟩
  | @join t _ ht hexited =>
    refine ⟨⟨⟨Nat.succ_le_of_lt ht, fun u hu => ?_⟩, hforked⟩, rfl⟩
    rcases Nat.lt_succ_iff_lt_or_eq.mp hu with hlt | rfl
    · exact h.waited.2 u hlt
    · exact hexited

/-- What holds of all threads holds after a step of the main thread, if it holds of a thread that
starts. -/
theorem Step.forall (hstep : Step n life m φ m' φ') (h : Sound n life C m φ)
    {K : ℕ → Φ → Prop} (hK : ∀ t, K t (φ t)) (hstart : ∀ t, K t life.unborn → K t (life.start t)) :
    ∀ t, K t (φ' t) := by
  intro u
  cases hstep with
  | @fork t _ ht =>
    by_cases hut : u = t
    · subst hut
      rw [Function.update_self]
      exact hstart u (h.next_unborn ▸ hK u)
    · rw [Function.update_of_ne hut]
      exact hK u
  | noThread | forked | join => exact hK u

/-- The main thread has taken as many steps as there are threads to start and to join, and those
after the last join. -/
theorem Sound.steps_le (h : Sound n life C m φ) {after : B → ℕ} {k : ℕ}
    (hafter : ∀ b, C b → after b ≤ k) : m.steps n after ≤ 2 * n + 2 + k := by
  have hwaited := h.waited
  cases m with
  | forking t | terminated t =>
    simp only [Waited] at hwaited
    simp only [Main.steps]
    omega
  | joining t =>
    have hle := hwaited.1
    simp only [Main.steps]
    omega
  | joined b =>
    have hle := hafter b hwaited.2
    simp only [Main.steps]
    omega

/-- **A main thread that cannot go on** is at the last join or at its end, was terminated, or
waits for a thread that runs. -/
theorem Sound.progress (h : Sound n life C m φ) :
    (∃ m' φ', Step n life m φ m' φ') ∨ m = .joining n ∨ (∃ b, m = .joined b) ∨
      (∃ t, m = .terminated t) ∨
      ∃ t < n, m = .joining t ∧ φ t ≠ life.unborn ∧ ¬ life.exited (φ t) := by
  have hwaited := h.waited
  cases m with
  | joined b => exact Or.inr (Or.inr (Or.inl ⟨b, rfl⟩))
  | terminated t => exact Or.inr (Or.inr (Or.inr (Or.inl ⟨t, rfl⟩)))
  | forking t =>
    rcases Nat.lt_or_eq_of_le hwaited with ht | rfl
    · exact Or.inl ⟨_, _, .fork ht⟩
    · exact Or.inl ⟨_, _, .forked⟩
  | joining t =>
    rcases Nat.lt_or_eq_of_le hwaited.1 with ht | rfl
    · by_cases hexited : life.exited (φ t)
      · exact Or.inl ⟨_, _, .join ht hexited⟩
      · have hborn : φ t ≠ life.unborn := fun hunborn =>
          Nat.not_le_of_lt ht ((h.forked t).mp hunborn)
        exact Or.inr (Or.inr (Or.inr (Or.inr ⟨t, ht, rfl, hborn, hexited⟩)))
    · exact Or.inr (Or.inl rfl)

end Sound

end MainThread
