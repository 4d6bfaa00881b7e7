import ApexEngine.Core.MainThread
import Mathlib.Algebra.BigOperators.Group.Finset.Basic
import Mathlib.Algebra.BigOperators.Group.Multiset.Basic
import Mathlib.Algebra.BigOperators.Ring.Finset
import Mathlib.Algebra.BigOperators.Pi
import Mathlib.Algebra.Order.BigOperators.Group.Finset
import Mathlib.Data.Multiset.Filter
import Mathlib.Data.Multiset.Range

/-!
# Chunks from a shared counter

Work is not divided beforehand here.  The chunks are numbered, and a thread takes the next one
from an atomic counter, works on it with its own locals, and comes back for another; when the
counter is past the last chunk it adds what it has found to a shared total and publishes the
items it has kept, each in a slot whose number it takes from a second counter.  The main thread
starts the threads, joins them (`MainThread`), and reads the total and the slots.

The counters and the total are changed by atomic additions, which are one step each.  The slots
are not atomic.  The counters count modulo a size, like machine words.

For chunks that contribute what they contribute whoever works on them (`Independent`), it is
proved of every order of steps:

* no two threads work on one chunk, and **no two threads are ever about to access the same
  slot** (`Reaches.no_race`);
* **when the program returns**, the total is the sum over all chunks, and the slots contain the
  items of all chunks in some order (`Reaches.returned`);
* **every order comes to an end** (`Reaches.le_bound`), and a program that cannot go on has
  returned or was terminated because a thread did not start (`Reaches.progress`).

The invariant keeps an account for every thread: the chunks it has taken, what it has added,
the items it has claimed a slot for, whether it has gone past the end, and its steps.  A move
books the same change to the account of its thread and to the shared state (`Move.sound`), so
the accounts always add up to what is shared (`Inv`).
-/

namespace Stealing

open MainThread (Thread Life)

variable {L I A : Type}

/-! ## Programs -/

/-- The threads and the chunks, and what a thread does on a chunk: it changes its locals, from
which in the end an amount and some items are taken. -/
structure Program (L I A : Type) where
  threads : ℕ
  chunks : ℕ
  slots : ℕ
  size : ℕ
  start : ℕ → L
  work : ℕ → L → Option L
  amount : L → A
  items : L → List I
  blank : I

/-- Where a thread is. -/
inductive Phase (L I : Type) where
  | unborn
  | fetching (l : L)
  | working (c : ℕ) (l : L)
  | merging (l : L)
  | publishing (items : List I)
  | storing (k : ℕ) (i : I) (rest : List I)
  | exited

/-- The main thread has returned when it has read the slots after the last join. -/
abbrev Main := MainThread.Main Unit

abbrev Main.returned : Main := .joined ()

/-- What the threads share. -/
structure Shared (I A : Type) where
  counter : ℕ
  total : A
  index : ℕ
  slot : ℕ → I

structure State (L I A : Type) where
  main : Main
  phase : ℕ → Phase L I
  shared : Shared I A

/-- A thread starts by asking for a chunk. -/
def Program.life (P : Program L I A) : Life (Phase L I) where
  unborn := .unborn
  start t := .fetching (P.start t)
  exited p := p = .exited
  start_ne _ := by simp

section Steps

variable [AddCommMonoid A] (P : Program L I A)

/-- A move of a thread, with the slots it accesses. -/
inductive Move : List ℕ → Phase L I → Shared I A → Phase L I → Shared I A → Prop
  | take {l σ} (hc : σ.counter < P.chunks) : Move [] (.fetching l) σ (.working σ.counter l)
      { σ with counter := (σ.counter + 1) % P.size }
  | stop {l σ} (hc : P.chunks ≤ σ.counter) : Move [] (.fetching l) σ (.merging l)
      { σ with counter := (σ.counter + 1) % P.size }
  | work {c l l' σ} (hwork : P.work c l = some l') : Move [] (.working c l) σ (.fetching l') σ
  | merge {l σ} : Move [] (.merging l) σ (.publishing (P.items l))
      { σ with total := σ.total + P.amount l }
  | claim {i rest σ} : Move [] (.publishing (i :: rest)) σ (.storing σ.index i rest)
      { σ with index := (σ.index + 1) % P.size }
  | store {k i rest σ} (hk : k < P.slots) : Move [k] (.storing k i rest) σ (.publishing rest)
      { σ with slot := Function.update σ.slot k i }
  | discard {k i rest σ} (hk : P.slots ≤ k) : Move [] (.storing k i rest) σ (.publishing rest) σ
  | leave {σ} : Move [] (.publishing []) σ .exited σ

/-- A step of a thread, with the slots it accesses. -/
inductive Step : Thread → List ℕ → State L I A → State L I A → Prop
  | main {s m φ} (hstep : MainThread.Step P.threads P.life s.main s.phase m φ) :
      Step .main [] s { s with main := m, phase := φ }
  | finish {s} (hmain : s.main = .joining P.threads) :
      Step .main (List.range P.slots) s { s with main := .returned }
  | worker {s t as p σ} (hlive : s.main.isTerminated = false)
      (hmove : Move P as (s.phase t) s.shared p σ) :
      Step (.worker t) as s { s with phase := Function.update s.phase t p, shared := σ }

def Program.initial : State L I A := ⟨.forking 0, fun _ => .unborn, ⟨0, 0, 0, fun _ => P.blank⟩⟩

/-- A state that some order of steps leads to, with their number. -/
inductive Reaches : ℕ → State L I A → Prop
  | start : Reaches 0 P.initial
  | step {n s i as s'} (h : Reaches n s) (hstep : Step P i as s s') : Reaches (n + 1) s'

/-- What a chunk contributes does not depend on who works on it and after what: an amount, and
perhaps an item. -/
structure Independent (w : ℕ → A) (f : ℕ → Option I) : Prop where
  amount_start : ∀ t, P.amount (P.start t) = 0
  items_start : ∀ t, P.items (P.start t) = []
  amount_work : ∀ {c l l'}, c < P.chunks → P.work c l = some l' → P.amount l' = P.amount l + w c
  items_work : ∀ {c l l'}, c < P.chunks → P.work c l = some l' →
    P.items l' = P.items l ++ (f c).toList

end Steps

/-! ## Accounts -/

/-- The account of a thread: the chunks it has taken, what it has added to the total, the items
it has claimed a slot for, whether it has gone past the end, its steps. -/
abbrev Account (I A : Type) := Multiset ℕ × A × Multiset I × ℕ × ℕ

section Accounts

variable [AddCommMonoid A] {P : Program L I A} {w : ℕ → A} {f : ℕ → Option I}

/-- The account of a thread in a phase.  What it has taken is a list `T`, and the locals are
those that the chunks of `T` lead to. -/
def Sound (P : Program L I A) (w : ℕ → A) (f : ℕ → Option I) (claims : List I) (counter : ℕ)
    (p : Phase L I) (a : Account I A) : Prop :=
  match p with
  | .unborn => a = 0
  | .fetching l => ∃ T : List ℕ, a = (↑T, 0, 0, 0, 2 * T.length) ∧
      P.amount l = (T.map w).sum ∧ P.items l = T.filterMap f
  | .working c l => ∃ T : List ℕ, a = (↑(T ++ [c]), 0, 0, 0, 2 * T.length + 1) ∧ c < P.chunks ∧
      P.amount l = (T.map w).sum ∧ P.items l = T.filterMap f
  | .merging l => ∃ T : List ℕ, a = (↑T, 0, 0, 1, 2 * T.length + 1) ∧ P.chunks ≤ counter ∧
      P.amount l = (T.map w).sum ∧ P.items l = T.filterMap f
  | .publishing rest => ∃ (T : List ℕ) (S : List I),
      a = (↑T, (T.map w).sum, ↑S, 1, 2 * T.length + 2 + 2 * S.length) ∧ P.chunks ≤ counter ∧
      T.filterMap f = S ++ rest
  | .storing k i rest => ∃ (T : List ℕ) (S : List I),
      a = (↑T, (T.map w).sum, ↑(S ++ [i]), 1, 2 * T.length + 2 + 2 * S.length + 1) ∧
      P.chunks ≤ counter ∧ T.filterMap f = S ++ [i] ++ rest ∧ claims[k]? = some i
  | .exited => ∃ T : List ℕ, a = (↑T, (T.map w).sum, ↑(T.filterMap f), 1,
      2 * T.length + 2 + 2 * (T.filterMap f).length + 1) ∧ P.chunks ≤ counter

/-- The change a move makes to the account of its thread and to what is shared. -/
structure Effect (P : Program L I A) (σ σ' : Shared I A) (δ : Account I A) (new : List I) :
    Prop where
  taken : Multiset.range (min σ'.counter P.chunks) = Multiset.range (min σ.counter P.chunks) + δ.1
  added : σ'.total = σ.total + δ.2.1
  claimed : (new : Multiset I) = δ.2.2.1
  stopped : ∀ n, σ.counter ≤ P.chunks + n → σ'.counter ≤ P.chunks + (n + δ.2.2.2.1)
  steps : δ.2.2.2.2 = 1
  index : σ'.index = σ.index + new.length
  counter : σ.counter ≤ σ'.counter

/-- A move that changes nothing that is counted but its own steps. -/
theorem Effect.quiet {σ σ' : Shared I A} (hcounter : σ'.counter = σ.counter)
    (htotal : σ'.total = σ.total) (hindex : σ'.index = σ.index) :
    Effect P σ σ' (0, 0, 0, 0, 1) [] where
  taken := by rw [hcounter, add_zero]
  added := by rw [htotal, add_zero]
  claimed := rfl
  stopped n h := by rw [hcounter]; exact h
  steps := rfl
  index := hindex
  counter := hcounter.ge

/-- **A move books the same change to the account of its thread and to the shared state.** -/
theorem Move.sound (hP : Independent P w f) {as : List ℕ} {p p' : Phase L I} {σ σ' : Shared I A}
    (hm : Move P as p σ p' σ') {claims : List I} {a : Account I A}
    (h : Sound P w f claims σ.counter p a) (hcounter : σ.counter + 1 < P.size)
    (hindex : σ.index + 1 < P.size) (hclaims : σ.index = claims.length) :
    ∃ δ new, Effect P σ σ' δ new ∧ Sound P w f (claims ++ new) σ'.counter p' (a + δ) := by
  cases hm with
  | take hc =>
    obtain ⟨T, rfl, hamount, hitems⟩ := h
    refine ⟨({σ.counter}, 0, 0, 0, 1), [], ?_, T, ?_, hc, hamount, hitems⟩
    · rw [Nat.mod_eq_of_lt hcounter]
      refine ⟨?_, (add_zero _).symm, rfl, fun n hn => ?_, rfl, rfl, Nat.le_succ _⟩
      · rw [Nat.min_eq_left (Nat.succ_le_of_lt hc), Nat.min_eq_left hc.le, Multiset.range_succ,
          ← Multiset.singleton_add, add_comm]
      · show σ.counter + 1 ≤ _
        omega
    · simp [← Multiset.coe_add]
  | stop hc =>
    obtain ⟨T, rfl, hamount, hitems⟩ := h
    refine ⟨(0, 0, 0, 1, 1), [], ?_, T, ?_, ?_, hamount, hitems⟩
    · rw [Nat.mod_eq_of_lt hcounter]
      refine ⟨?_, (add_zero _).symm, rfl, fun n hn => ?_, rfl, rfl, Nat.le_succ _⟩
      · rw [Nat.min_eq_right (hc.trans (Nat.le_succ _)), Nat.min_eq_right hc, add_zero]
      · show σ.counter + 1 ≤ P.chunks + (n + 1)
        omega
    · simp
    · show P.chunks ≤ (σ.counter + 1) % P.size
      rw [Nat.mod_eq_of_lt hcounter]
      exact hc.trans (Nat.le_succ _)
  | @work c l l' _ hwork =>
    obtain ⟨T, rfl, hc, hamount, hitems⟩ := h
    refine ⟨(0, 0, 0, 0, 1), [], .quiet rfl rfl rfl, T ++ [c], ?_, ?_, ?_⟩
    · simp [Nat.mul_add]
    · rw [hP.amount_work hc hwork, hamount, List.map_append, List.sum_append]
      simp
    · rw [hP.items_work hc hwork, hitems, List.filterMap_append]
      cases hf : f c <;> simp [hf]
  | @merge l =>
    obtain ⟨T, rfl, hc, hamount, hitems⟩ := h
    refine ⟨(0, P.amount l, 0, 0, 1), [], ?_, T, [], ?_, hc, hitems.symm⟩
    · exact ⟨(add_zero _).symm, rfl, rfl, fun n hn => hn, rfl, rfl, le_rfl⟩
    · simp [hamount]
  | @claim i rest =>
    obtain ⟨T, S, rfl, hc, hsplit⟩ := h
    refine ⟨(0, 0, {i}, 0, 1), [i], ?_, T, S, ?_, hc, ?_, ?_⟩
    · refine ⟨(add_zero _).symm, (add_zero _).symm, rfl, fun n hn => hn, rfl, ?_, le_rfl⟩
      exact Nat.mod_eq_of_lt hindex
    · simp [← Multiset.coe_add]
    · rw [hsplit, List.append_assoc]
      rfl
    · rw [hclaims, List.getElem?_concat_length]
  | store hk =>
    obtain ⟨T, S, rfl, hc, hsplit, -⟩ := h
    refine ⟨(0, 0, 0, 0, 1), [], .quiet rfl rfl rfl, T, S ++ [_], ?_, hc, hsplit⟩
    simp
    omega
  | discard hk =>
    obtain ⟨T, S, rfl, hc, hsplit, -⟩ := h
    refine ⟨(0, 0, 0, 0, 1), [], .quiet rfl rfl rfl, T, S ++ [_], ?_, hc, hsplit⟩
    simp
    omega
  | leave =>
    obtain ⟨T, S, rfl, hc, hsplit⟩ := h
    rw [List.append_nil] at hsplit
    refine ⟨(0, 0, 0, 0, 1), [], .quiet rfl rfl rfl, T, ?_, hc⟩
    simp [hsplit]

/-- What has been claimed comes from chunks that have been taken, one item from each at most. -/
theorem Sound.card_le {claims : List I} {counter : ℕ} {p : Phase L I} {a : Account I A}
    (h : Sound P w f claims counter p a) : a.2.2.1.card ≤ a.1.card := by
  have hle : ∀ (T : List ℕ) (S rest : List I), T.filterMap f = S ++ rest → S.length ≤ T.length := by
    intro T S rest hsplit
    have hlen := List.length_filterMap_le f T
    rw [hsplit, List.length_append] at hlen
    omega
  cases p with
  | unborn => rw [show a = 0 from h]; rfl
  | fetching l =>
    obtain ⟨T, rfl, -⟩ := h
    exact Nat.zero_le _
  | working c l =>
    obtain ⟨T, rfl, -⟩ := h
    exact Nat.zero_le _
  | merging l =>
    obtain ⟨T, rfl, -⟩ := h
    exact Nat.zero_le _
  | publishing rest =>
    obtain ⟨T, S, rfl, -, hsplit⟩ := h
    exact hle T S rest hsplit
  | storing k i rest =>
    obtain ⟨T, S, rfl, -, hsplit, -⟩ := h
    exact hle T (S ++ [i]) rest hsplit
  | exited =>
    obtain ⟨T, rfl, -⟩ := h
    exact List.length_filterMap_le f T

/-- The steps of a thread, by what it has taken. -/
theorem Sound.steps_le {claims : List I} {counter : ℕ} {p : Phase L I} {a : Account I A}
    (h : Sound P w f claims counter p a) : a.2.2.2.2 ≤ 4 * a.1.card + 3 := by
  have hcard := h.card_le
  cases p with
  | unborn => rw [show a = 0 from h]; exact Nat.zero_le _
  | fetching l =>
    obtain ⟨T, rfl, -⟩ := h
    simp
    omega
  | working c l =>
    obtain ⟨T, rfl, -⟩ := h
    simp
    omega
  | merging l =>
    obtain ⟨T, rfl, -⟩ := h
    simp
    omega
  | publishing rest =>
    obtain ⟨T, S, rfl, -⟩ := h
    simp at hcard ⊢
    omega
  | storing k i rest =>
    obtain ⟨T, S, rfl, -⟩ := h
    simp at hcard ⊢
    omega
  | exited =>
    obtain ⟨T, rfl, -⟩ := h
    simp at hcard ⊢
    omega

/-- A thread goes past the end once. -/
theorem Sound.stopped_le {claims : List I} {counter : ℕ} {p : Phase L I} {a : Account I A}
    (h : Sound P w f claims counter p a) : a.2.2.2.1 ≤ 1 := by
  cases p with
  | unborn => rw [show a = 0 from h]; exact Nat.zero_le _
  | fetching l =>
    obtain ⟨T, rfl, -⟩ := h
    exact Nat.zero_le _
  | working c l =>
    obtain ⟨T, rfl, -⟩ := h
    exact Nat.zero_le _
  | merging l =>
    obtain ⟨T, rfl, -⟩ := h
    exact le_rfl
  | publishing rest | storing k i rest =>
    obtain ⟨T, S, rfl, -⟩ := h
    exact le_rfl
  | exited =>
    obtain ⟨T, rfl, -⟩ := h
    exact le_rfl

/-- An account stays sound when claims are added and the counter grows. -/
theorem Sound.mono {claims : List I} {counter counter' : ℕ} {p : Phase L I} {a : Account I A}
    (h : Sound P w f claims counter p a) (hle : counter ≤ counter') (new : List I) :
    Sound P w f (claims ++ new) counter' p a := by
  cases p with
  | unborn | fetching l | working c l => exact h
  | merging l =>
    obtain ⟨T, ha, hc, h⟩ := h
    exact ⟨T, ha, hc.trans hle, h⟩
  | publishing rest =>
    obtain ⟨T, S, ha, hc, h⟩ := h
    exact ⟨T, S, ha, hc.trans hle, h⟩
  | storing k i rest =>
    obtain ⟨T, S, ha, hc, h, hk⟩ := h
    refine ⟨T, S, ha, hc.trans hle, h, ?_⟩
    obtain ⟨hlt, -⟩ := List.getElem?_eq_some_iff.mp hk
    rwa [List.getElem?_append_left hlt]
  | exited =>
    obtain ⟨T, ha, hc⟩ := h
    exact ⟨T, ha, hc.trans hle⟩

end Accounts

/-! ## Slots -/

/-- The slot a thread is about to write. -/
def Phase.storingTo : Phase L I → Option ℕ
  | .storing k _ _ => some k
  | _ => none

section Slots

variable [AddCommMonoid A] {P : Program L I A} {as : List ℕ} {p p' : Phase L I} {σ σ' : Shared I A}

/-- A thread that moves has been started and has not exited. -/
theorem Move.running (hm : Move P as p σ p' σ') : p ≠ .unborn ∧ p ≠ .exited ∧ p' ≠ .unborn := by
  cases hm <;> simp

/-- A slot that is about to be written is the next one, or was so before. -/
theorem Move.storingTo (hm : Move P as p σ p' σ') {k : ℕ} (hk : p'.storingTo = some k) :
    k = σ.index := by
  cases hm with
  | claim => exact (Option.some.inj hk).symm
  | _ => exact absurd hk (by simp [Phase.storingTo])

/-- The second counter counts the slots that somebody was about to write. -/
theorem Move.index (hm : Move P as p σ p' σ') (hindex : σ.index + 1 < P.size) :
    σ'.index = σ.index ∨ σ'.index = σ.index + 1 ∧ p'.storingTo = some σ.index := by
  cases hm with
  | claim => exact Or.inr ⟨Nat.mod_eq_of_lt hindex, rfl⟩
  | _ => exact Or.inl rfl

/-- A thread accesses the slot it is about to write. -/
theorem Move.access (hm : Move P as p σ p' σ') {k : ℕ} (hk : k ∈ as) : p.storingTo = some k := by
  cases hm with
  | store => rw [List.mem_singleton.mp hk]; rfl
  | _ => exact absurd hk List.not_mem_nil

/-- Other slots stay as they are. -/
theorem Move.slot_eq (hm : Move P as p σ p' σ') {k : ℕ} (hk : p.storingTo ≠ some k) :
    σ'.slot k = σ.slot k := by
  cases hm with
  | store => exact Function.update_of_ne (fun heq => hk (congrArg some heq.symm)) ..
  | _ => rfl

/-- What is written is what was claimed. -/
theorem Move.slot_stored (hm : Move P as p σ p' σ') {k : ℕ} (hk : p.storingTo = some k)
    (hslots : k < P.slots) : ∃ i rest, p = .storing k i rest ∧ σ'.slot k = i := by
  cases hm with
  | store =>
    obtain rfl := Option.some.inj hk
    exact ⟨_, _, rfl, Function.update_self ..⟩
  | discard hle =>
    obtain rfl := Option.some.inj hk
    exact absurd hslots (Nat.not_lt_of_le hle)
  | _ => exact absurd hk (by simp [Phase.storingTo])

end Slots

/-! ## What holds of a state -/

section Inv

variable [AddCommMonoid A] {P : Program L I A} {w : ℕ → A} {f : ℕ → Option I}

/-- **The invariant**: the accounts of the threads add up to what they share, and a slot that
nobody is about to write contains what was claimed for it. -/
structure Inv (P : Program L I A) (w : ℕ → A) (f : ℕ → Option I) (account : ℕ → Account I A)
    (claims : List I) (s : State L I A) : Prop where
  main : MainThread.Sound P.threads P.life (fun _ => True) s.main s.phase
  worker : ∀ t, Sound P w f claims s.shared.counter (s.phase t) (account t)
  taken : (∑ t ∈ Finset.range P.threads, account t).1 =
    Multiset.range (min s.shared.counter P.chunks)
  added : s.shared.total = (∑ t ∈ Finset.range P.threads, account t).2.1
  claimed : (claims : Multiset I) = (∑ t ∈ Finset.range P.threads, account t).2.2.1
  counter : s.shared.counter ≤ P.chunks + (∑ t ∈ Finset.range P.threads, account t).2.2.2.1
  index : s.shared.index = claims.length
  own : ∀ t u k, (s.phase t).storingTo = some k → (s.phase u).storingTo = some k → t = u
  slots : ∀ k < P.slots, (∀ t, (s.phase t).storingTo ≠ some k) →
    s.shared.slot k = claims[k]?.getD P.blank

variable {account : ℕ → Account I A} {claims : List I} {s s' : State L I A} {t : ℕ}

theorem inv_initial : Inv P w f (fun _ => 0) [] P.initial where
  main := MainThread.sound_initial
  worker t := rfl
  taken := by simp [Program.initial]
  added := by simp [Program.initial]
  claimed := by simp
  counter := Nat.zero_le _
  index := rfl
  own t u k ht := absurd ht (by simp [Program.initial, Phase.storingTo])
  slots k _ _ := rfl

/-- The counter stops where all threads have gone past the end. -/
theorem Inv.counter_le (h : Inv P w f account claims s) :
    s.shared.counter ≤ P.chunks + P.threads := by
  refine h.counter.trans (Nat.add_le_add_left ?_ _)
  rw [Prod.snd_sum, Prod.snd_sum, Prod.snd_sum, Prod.fst_sum]
  calc ∑ t ∈ Finset.range P.threads, (account t).2.2.2.1
      ≤ ∑ t ∈ Finset.range P.threads, 1 := Finset.sum_le_sum fun t _ => (h.worker t).stopped_le
    _ = P.threads := by simp

/-- The chunks that have been taken. -/
theorem Inv.sum_card (h : Inv P w f account claims s) :
    ∑ t ∈ Finset.range P.threads, (account t).1.card = min s.shared.counter P.chunks := by
  have hcard := congrArg Multiset.card h.taken
  rwa [Multiset.card_range, Prod.fst_sum, Multiset.card_sum] at hcard

/-- There are not more items than chunks. -/
theorem Inv.index_le (h : Inv P w f account claims s) : s.shared.index ≤ P.chunks := by
  have hclaims := congrArg Multiset.card h.claimed
  rw [Multiset.coe_card, Prod.snd_sum, Prod.snd_sum, Prod.fst_sum, Multiset.card_sum] at hclaims
  rw [h.index, hclaims]
  calc ∑ t ∈ Finset.range P.threads, (account t).2.2.1.card
      ≤ ∑ t ∈ Finset.range P.threads, (account t).1.card :=
        Finset.sum_le_sum fun t _ => (h.worker t).card_le
    _ = min s.shared.counter P.chunks := h.sum_card
    _ ≤ P.chunks := Nat.min_le_right _ _

/-- One account changes, and the sum with it. -/
theorem sum_update_add {M : Type} [AddCommMonoid M] (g : ℕ → M) {n : ℕ} (ht : t < n) (δ : M) :
    ∑ u ∈ Finset.range n, Function.update g t (g t + δ) u = ∑ u ∈ Finset.range n, g u + δ := by
  rw [Finset.sum_update_of_mem (Finset.mem_range.mpr ht),
    ← Finset.add_sum_erase _ g (Finset.mem_range.mpr ht), Finset.sdiff_singleton_eq_erase]
  exact add_right_comm _ _ _

/-- A slot that is claimed has a number below that of the next one. -/
theorem Inv.storingTo_lt (h : Inv P w f account claims s) {u k : ℕ}
    (hk : (s.phase u).storingTo = some k) : k < s.shared.index := by
  have hw := h.worker u
  cases hphase : s.phase u with
  | storing k' i rest =>
    rw [hphase] at hk hw
    obtain rfl := Option.some.inj hk
    obtain ⟨T, S, -, -, -, hclaim⟩ := hw
    obtain ⟨hlt, -⟩ := List.getElem?_eq_some_iff.mp hclaim
    rwa [h.index]
  | _ =>
    rw [hphase] at hk
    exact absurd hk (by simp [Phase.storingTo])

/-- The slots that threads are about to write stay apart. -/
theorem Inv.own_step (h : Inv P w f account claims s) {as : List ℕ} {p : Phase L I}
    {σ : Shared I A} (hm : Move P as (s.phase t) s.shared p σ) {u v k : ℕ}
    (hu : (Function.update s.phase t p u).storingTo = some k)
    (hv : (Function.update s.phase t p v).storingTo = some k) : u = v := by
  -- a slot that is claimed now has not been claimed before
  have hnew : ∀ v, (s.phase v).storingTo = some k → p.storingTo ≠ some k := by
    intro v hv hp
    have hlt := h.storingTo_lt hv
    rw [hm.storingTo hp] at hlt
    exact absurd hlt (Nat.lt_irrefl _)
  by_cases hut : u = t
  · by_cases hvt : v = t
    · rw [hut, hvt]
    · subst hut
      simp only [Function.update_self, Function.update_of_ne hvt] at hu hv
      exact absurd hu (hnew v hv)
  · by_cases hvt : v = t
    · subst hvt
      simp only [Function.update_self, Function.update_of_ne hut] at hu hv
      exact absurd hv (hnew u hu)
    · simp only [Function.update_of_ne hut, Function.update_of_ne hvt] at hu hv
      exact h.own u v k hu hv

/-- A slot that was written just now contains what was claimed for it. -/
theorem Inv.slot_written (h : Inv P w f account claims s) {as : List ℕ} {p : Phase L I}
    {σ : Shared I A} (hm : Move P as (s.phase t) s.shared p σ) {k : ℕ} (hk : k < P.slots)
    (hwas : (s.phase t).storingTo = some k) : claims[k]? = some (σ.slot k) := by
  obtain ⟨i, rest, hphase, hslot⟩ := hm.slot_stored hwas hk
  have hw := h.worker t
  rw [hphase] at hw
  obtain ⟨T, S, -, -, -, hclaim⟩ := hw
  rw [hclaim, hslot]

/-- A slot that nobody is about to write contains what was claimed for it. -/
theorem Inv.slots_step (h : Inv P w f account claims s) {as : List ℕ} {p : Phase L I}
    {σ : Shared I A} (hm : Move P as (s.phase t) s.shared p σ) {δ : Account I A} {new : List I}
    (heffect : Effect P s.shared σ δ new) (hindex : s.shared.index + 1 < P.size) {k : ℕ}
    (hk : k < P.slots) (hnobody : ∀ u, (Function.update s.phase t p u).storingTo ≠ some k) :
    σ.slot k = (claims ++ new)[k]?.getD P.blank := by
  by_cases hwas : (s.phase t).storingTo = some k
  · have hclaim := h.slot_written hm hk hwas
    obtain ⟨hlen, -⟩ := List.getElem?_eq_some_iff.mp hclaim
    rw [List.getElem?_append_left hlen, hclaim]
    rfl
  · have hbefore : ∀ u, (s.phase u).storingTo ≠ some k := by
      intro u
      by_cases hut : u = t
      · rwa [hut]
      · have hu := hnobody u
        rwa [Function.update_of_ne hut] at hu
    rw [hm.slot_eq hwas, h.slots k hk hbefore]
    rcases Nat.lt_or_ge k claims.length with hlen | hlen
    · rw [List.getElem?_append_left hlen]
    · -- a slot that is claimed now is about to be written
      have hnew : (claims ++ new).length ≤ k := by
        rw [List.length_append, ← h.index, ← heffect.index]
        rw [← h.index] at hlen
        rcases hm.index hindex with heq | ⟨heq, hto⟩
        · omega
        · have hne : s.shared.index ≠ k := by
            rintro rfl
            have ht := hnobody t
            rw [Function.update_self] at ht
            exact ht hto
          omega
      rw [List.getElem?_eq_none hlen, List.getElem?_eq_none hnew]

/-- **A move of a thread** keeps the invariant, and books one step. -/
theorem Inv.worker_step (hP : Independent P w f) (hsize : P.chunks + P.threads + 1 < P.size)
    (h : Inv P w f account claims s) {as : List ℕ} {p : Phase L I} {σ : Shared I A}
    (hm : Move P as (s.phase t) s.shared p σ) :
    ∃ δ new, δ.2.2.2.2 = 1 ∧
      Inv P w f (Function.update account t (account t + δ)) (claims ++ new)
        { s with phase := Function.update s.phase t p, shared := σ } := by
  have hlt := h.main.lt hm.running.1
  have hcounter := h.counter_le
  have hindex := h.index_le
  obtain ⟨δ, new, heffect, hsound⟩ :=
    hm.sound hP (h.worker t) (by omega) (by omega) h.index
  have hsum := sum_update_add account hlt δ
  refine ⟨δ, new, heffect.steps, ?_⟩
  exact {
    main := h.main.thread hm.running.1 hm.running.2.1 hm.running.2.2
    worker := fun u => by
      by_cases hut : u = t
      · subst hut
        simp only [Function.update_self]
        exact hsound
      · simp only [Function.update_of_ne hut]
        exact (h.worker u).mono heffect.counter new
    taken := by rw [hsum, Prod.fst_add, h.taken, heffect.taken]
    added := by rw [hsum, Prod.snd_add, Prod.fst_add, ← h.added, ← heffect.added]
    claimed := by
      rw [hsum, Prod.snd_add, Prod.snd_add, Prod.fst_add, ← h.claimed, ← heffect.claimed,
        Multiset.coe_add]
    counter := by
      rw [hsum]
      exact heffect.stopped _ h.counter
    index := by
      rw [List.length_append, ← h.index]
      exact heffect.index
    own := fun u v k hu hv => h.own_step hm hu hv
    slots := fun k hk hnobody => h.slots_step hm heffect (by omega) hk hnobody }

/-- A step of the main thread before the last join. -/
theorem Inv.main_step (hP : Independent P w f) (h : Inv P w f account claims s) {m : Main}
    {φ : ℕ → Phase L I} (hstep : MainThread.Step P.threads P.life s.main s.phase m φ) :
    Inv P w f account claims { s with main := m, phase := φ } := by
  have hto : ∀ u, (φ u).storingTo = (s.phase u).storingTo :=
    hstep.forall h.main (K := fun u p => p.storingTo = (s.phase u).storingTo) (fun _ => rfl)
      fun u hu => hu
  refine ⟨(hstep.sound h.main fun _ => 0).1, fun u => ?_, h.taken, h.added, h.claimed, h.counter,
    h.index, fun u v k hu hv => ?_, fun k hk hnobody => ?_⟩
  · refine hstep.forall h.main (K := fun u p => Sound P w f claims s.shared.counter p (account u))
      h.worker (fun u hu => ?_) u
    rw [show account u = 0 from hu]
    exact ⟨[], rfl, hP.amount_start u, hP.items_start u⟩
  · simp only [hto] at hu hv
    exact h.own u v k hu hv
  · simp only [hto] at hnobody
    exact h.slots k hk hnobody

/-- The main thread returns, and nothing else changes. -/
theorem Inv.finish_step (h : Inv P w f account claims s) (hm : s.main = .joining P.threads) :
    Inv P w f account claims { s with main := .returned } :=
  ⟨(hm ▸ h.main).join trivial, h.worker, h.taken, h.added, h.claimed, h.counter, h.index, h.own,
    h.slots⟩

/-- The steps of all threads. -/
def State.steps (P : Program L I A) (account : ℕ → Account I A) (s : State L I A) : ℕ :=
  s.main.steps P.threads (fun _ => 0) + ∑ t ∈ Finset.range P.threads, (account t).2.2.2.2

/-- **Every step keeps the invariant**, and is counted. -/
theorem Inv.step (hP : Independent P w f) (hsize : P.chunks + P.threads + 1 < P.size)
    (h : Inv P w f account claims s) {i : Thread} {as : List ℕ} (hstep : Step P i as s s') :
    ∃ account' claims', Inv P w f account' claims' s' ∧
      s'.steps P account' = s.steps P account + 1 := by
  cases hstep with
  | main hstep =>
    refine ⟨account, claims, h.main_step hP hstep, ?_⟩
    simp only [State.steps, (hstep.sound h.main fun _ => 0).2]
    omega
  | finish hm =>
    refine ⟨account, claims, h.finish_step hm, ?_⟩
    simp only [State.steps, hm, MainThread.Main.steps]
    omega
  | @worker _ t _ _ _ hlive hmove =>
    obtain ⟨δ, new, hone, hinv⟩ := h.worker_step hP hsize hmove
    refine ⟨_, _, hinv, ?_⟩
    have hsum := congrArg (fun a => a.2.2.2.2) (sum_update_add account (h.main.lt hmove.running.1) δ)
    simp only [Prod.snd_add, Prod.snd_sum, hone] at hsum
    simp only [State.steps]
    rw [hsum, Nat.add_assoc]

end Inv

/-! ## Every order of steps -/

/-- What the chunks contribute, put together from those who worked on them. -/
theorem sum_map_sum [AddCommMonoid A] (w : ℕ → A) (m : ℕ → Multiset ℕ) (s : Finset ℕ) :
    ∑ t ∈ s, ((m t).map w).sum = ((∑ t ∈ s, m t).map w).sum :=
  (map_sum (Multiset.sumAddMonoidHom.comp (Multiset.mapAddMonoidHom w)) m s).symm

theorem sum_filterMap (f : ℕ → Option I) (m : ℕ → Multiset ℕ) (n : ℕ) :
    ∑ t ∈ Finset.range n, (m t).filterMap f = (∑ t ∈ Finset.range n, m t).filterMap f := by
  induction n with
  | zero => rfl
  | succ n ih => rw [Finset.sum_range_succ, Finset.sum_range_succ, ih, Multiset.filterMap_add]

namespace Reaches

variable [AddCommMonoid A] {P : Program L I A} {w : ℕ → A} {f : ℕ → Option I} {n : ℕ}
  {s : State L I A}

/-- **The invariant holds in every state that is reached.** -/
theorem inv (hP : Independent P w f) (hsize : P.chunks + P.threads + 1 < P.size)
    (h : Reaches P n s) : ∃ account claims, Inv P w f account claims s ∧
      n = s.steps P account := by
  induction h with
  | start =>
    refine ⟨fun _ => 0, [], inv_initial, ?_⟩
    simp [State.steps, Program.initial, MainThread.Main.steps]
  | step _ hstep ih =>
    obtain ⟨account, claims, hinv, hn⟩ := ih
    obtain ⟨account', claims', hinv', hcount⟩ := hinv.step hP hsize hstep
    exact ⟨account', claims', hinv', by rw [hcount, ← hn]⟩

/-- **No races.**  Two threads are never about to access the same slot. -/
theorem no_race (hP : Independent P w f) (hsize : P.chunks + P.threads + 1 < P.size)
    (h : Reaches P n s) {i j : Thread} (hij : i ≠ j) {as bs : List ℕ} {s₁ s₂ : State L I A}
    (hi : Step P i as s s₁) (hj : Step P j bs s s₂) : ∀ k ∈ as, k ∉ bs := by
  obtain ⟨account, claims, hinv, -⟩ := h.inv hP hsize
  -- when the main thread reads the slots, no thread can move
  have hmainWorker : ∀ {t : ℕ} {as bs : List ℕ} {s₁ s₂ : State L I A},
      Step P .main as s s₁ → Step P (.worker t) bs s s₂ → as = [] := by
    intro t as bs s₁ s₂ hi hj
    cases hi with
    | finish hm =>
      cases hj with
      | worker hlive hmove =>
        have hmain := hinv.main
        rw [hm] at hmain
        exact absurd (hmain.waited.2 t (hmain.lt hmove.running.1)) hmove.running.2.1
    | _ => rfl
  cases i with
  | main =>
    cases j with
    | main => exact absurd rfl hij
    | worker u =>
      rw [hmainWorker hi hj]
      exact fun k hk => absurd hk List.not_mem_nil
  | worker t =>
    cases j with
    | main =>
      rw [hmainWorker hj hi]
      exact fun k _ => List.not_mem_nil
    | worker u =>
      cases hi with
      | worker _ hmove =>
        cases hj with
        | worker _ hmove' =>
          intro k hk hk'
          exact hij (congrArg Thread.worker (hinv.own t u k (hmove.access hk) (hmove'.access hk')))

/-- **No two threads work on one chunk.** -/
theorem working_apart (hP : Independent P w f) (hsize : P.chunks + P.threads + 1 < P.size)
    (h : Reaches P n s) {t u c : ℕ} {l l' : L} (ht : s.phase t = .working c l)
    (hu : s.phase u = .working c l') : t = u := by
  obtain ⟨account, claims, hinv, -⟩ := h.inv hP hsize
  have hmem : ∀ {t : ℕ} {l : L}, s.phase t = .working c l →
      t ∈ Finset.range P.threads ∧ c ∈ (account t).1 := by
    intro t l ht
    have hborn : s.phase t ≠ .unborn := by rw [ht]; simp
    have hw := hinv.worker t
    rw [ht] at hw
    obtain ⟨T, ha, -⟩ := hw
    refine ⟨Finset.mem_range.mpr (hinv.main.lt hborn), ?_⟩
    rw [ha]
    simp
  by_contra hne
  obtain ⟨htmem, htc⟩ := hmem ht
  obtain ⟨humem, huc⟩ := hmem hu
  -- it would be there twice in the sum, which is a range
  have hsum := congrArg (Multiset.count c) hinv.taken
  rw [Prod.fst_sum, Multiset.count_sum'] at hsum
  have hone := Multiset.nodup_iff_count_le_one.mp
    (Multiset.nodup_range (min s.shared.counter P.chunks)) c
  have htwo : Multiset.count c (account t).1 + Multiset.count c (account u).1 ≤
      ∑ v ∈ Finset.range P.threads, Multiset.count c (account v).1 := by
    rw [← Finset.add_sum_erase _ _ htmem,
      ← Finset.add_sum_erase _ _ (Finset.mem_erase.mpr ⟨fun heq => hne heq.symm, humem⟩)]
    omega
  have htpos := Multiset.count_pos.mpr htc
  have hupos := Multiset.count_pos.mpr huc
  omega

/-- **When the program has returned**, the total is the sum over all chunks, and the slots have
the items of all chunks in some order. -/
theorem returned (hP : Independent P w f) (hsize : P.chunks + P.threads + 1 < P.size)
    (hthreads : 0 < P.threads) (h : Reaches P n s) (hret : s.main = .returned) :
    s.shared.total = ((List.range P.chunks).map w).sum ∧
    ∃ claims : List I, claims.Perm ((List.range P.chunks).filterMap f) ∧
      ∀ k < P.slots, s.shared.slot k = claims[k]?.getD P.blank := by
  obtain ⟨account, claims, hinv, -⟩ := h.inv hP hsize
  have hmain := hinv.main
  rw [hret] at hmain
  have hexited : ∀ t ∈ Finset.range P.threads, (account t).2.1 = ((account t).1.map w).sum ∧
      (account t).2.2.1 = (account t).1.filterMap f ∧ P.chunks ≤ s.shared.counter := by
    intro t ht
    have hw := hinv.worker t
    rw [show s.phase t = .exited from hmain.exited t (Finset.mem_range.mp ht)] at hw
    obtain ⟨T, ha, hc⟩ := hw
    rw [ha]
    exact ⟨by simp, by simp, hc⟩
  have hpast := (hexited 0 (Finset.mem_range.mpr hthreads)).2.2
  have htaken := hinv.taken
  rw [Nat.min_eq_right hpast, Prod.fst_sum] at htaken
  refine ⟨?_, claims, ?_, fun k hk => hinv.slots k hk fun t => ?_⟩
  · rw [hinv.added, Prod.snd_sum, Prod.fst_sum,
      Finset.sum_congr rfl fun t ht => (hexited t ht).1, sum_map_sum, htaken,
      ← Multiset.coe_range, Multiset.map_coe, Multiset.sum_coe]
  · rw [← Multiset.coe_eq_coe, hinv.claimed, Prod.snd_sum, Prod.snd_sum, Prod.fst_sum,
      Finset.sum_congr rfl fun t ht => (hexited t ht).2.1, sum_filterMap, htaken,
      ← Multiset.coe_range, Multiset.filterMap_coe]
  · rcases Nat.lt_or_ge t P.threads with ht | ht
    · rw [show s.phase t = .exited from hmain.exited t ht]
      simp [Phase.storingTo]
    · rw [show s.phase t = .unborn from (hmain.forked t).mpr ht]
      simp [Phase.storingTo]

/-- **The number of steps is bounded**, whatever their order. -/
theorem le_bound (hP : Independent P w f) (hsize : P.chunks + P.threads + 1 < P.size)
    (h : Reaches P n s) : n ≤ 5 * P.threads + 4 * P.chunks + 2 := by
  obtain ⟨account, claims, hinv, rfl⟩ := h.inv hP hsize
  have hmain : s.main.steps P.threads (fun _ => 0) ≤ 2 * P.threads + 2 :=
    hinv.main.steps_le fun _ _ => le_rfl
  have hworkers : ∑ t ∈ Finset.range P.threads, (account t).2.2.2.2 ≤
      4 * P.chunks + 3 * P.threads := by
    calc ∑ t ∈ Finset.range P.threads, (account t).2.2.2.2
        ≤ ∑ t ∈ Finset.range P.threads, (4 * (account t).1.card + 3) :=
          Finset.sum_le_sum fun t _ => (hinv.worker t).steps_le
      _ = 4 * min s.shared.counter P.chunks + 3 * P.threads := by
          rw [Finset.sum_add_distrib, ← Finset.mul_sum, hinv.sum_card]
          simp [Nat.mul_comm]
      _ ≤ 4 * P.chunks + 3 * P.threads := by omega
  simp only [State.steps]
  omega

/-- **A program that cannot go on** has returned or was terminated, when the work on every chunk
gives a result. -/
theorem progress (hP : Independent P w f) (hsize : P.chunks + P.threads + 1 < P.size)
    (hwork : ∀ c < P.chunks, ∀ l, (P.work c l).isSome) (h : Reaches P n s) :
    (∃ i as s', Step P i as s s') ∨ s.main = .returned ∨ ∃ t, s.main = .terminated t := by
  obtain ⟨account, claims, hinv, -⟩ := h.inv hP hsize
  rcases hinv.main.progress with ⟨m, φ, hstep⟩ | hjoin | ⟨_, hret⟩ | hterm | ⟨t, -, hm, hborn, hruns⟩
  · exact Or.inl ⟨_, _, _, .main hstep⟩
  · exact Or.inl ⟨_, _, _, .finish hjoin⟩
  · exact Or.inr (Or.inl hret)
  · exact Or.inr (Or.inr hterm)
  · -- the thread that is waited for can go on
    left
    have hlive : s.main.isTerminated = false := by rw [hm]; rfl
    have hmove : ∀ {q as p σ}, s.phase t = q → Move P as q s.shared p σ →
        ∃ i as s', Step P i as s s' := by
      rintro q as p σ rfl hm
      exact ⟨_, _, _, .worker hlive hm⟩
    cases hphase : s.phase t with
    | unborn => exact absurd hphase hborn
    | exited => exact absurd hphase hruns
    | fetching l =>
      rcases Nat.lt_or_ge s.shared.counter P.chunks with hc | hc
      · exact hmove hphase (.take hc)
      · exact hmove hphase (.stop hc)
    | working c l =>
      have hw := hinv.worker t
      rw [hphase] at hw
      obtain ⟨T, -, hc, -⟩ := hw
      obtain ⟨l', hl'⟩ := Option.isSome_iff_exists.mp (hwork c hc l)
      exact hmove hphase (.work hl')
    | merging l => exact hmove hphase .merge
    | publishing items =>
      cases items with
      | nil => exact hmove hphase .leave
      | cons i rest => exact hmove hphase .claim
    | storing k i rest =>
      rcases Nat.lt_or_ge k P.slots with hk | hk
      · exact hmove hphase (.store hk)
      · exact hmove hphase (.discard hk)

end Reaches

end Stealing
