import Mathlib.Data.List.Nodup
import Mathlib.Logic.Function.Basic

/-!
# Objects and their owners

Objects lie at addresses of a memory.  Each has one owner, who allocates it and who gives
everything it owns back at once, when it leaves.  Others may hold a reference: an
address, and what they expect to find there.  Nobody counts references and nobody is
asked before an owner leaves.

`Ledger` is what allocating and leaving keep: an owned object is in memory with its
content, and no address has two owners.  A reference to an owned object is therefore
good, and it stays good as long as its address is not given back
(`exists_owner_leave`).
-/

namespace ApexEngine
namespace Ownership

variable {α β τ : Type}

/-! ## Memory -/

section Memory

variable [DecidableEq α]

/-- Put objects into memory. -/
def store (m : α → Option β) (l : List (α × β)) : α → Option β :=
  l.foldl (fun m e => Function.update m e.1 (some e.2)) m

/-- Give addresses back. -/
def free (m : α → Option β) (as : List α) : α → Option β := fun a => if a ∈ as then none else m a

variable {m : α → Option β} {l : List (α × β)} {as : List α} {a : α}

theorem store_of_notMem (ha : a ∉ l.map Prod.fst) : store m l a = m a := by
  induction l generalizing m with
  | nil => rfl
  | cons e l ih =>
    rw [List.map_cons, List.mem_cons, not_or] at ha
    have hrest : store (Function.update m e.1 (some e.2)) l a =
        Function.update m e.1 (some e.2) a := ih ha.2
    rw [store, List.foldl_cons]
    exact hrest.trans (Function.update_of_ne ha.1 _ _)

/-- Objects at different addresses are all there. -/
theorem store_of_mem (hnd : (l.map Prod.fst).Nodup) {e : α × β} (he : e ∈ l) :
    store m l e.1 = some e.2 := by
  induction l generalizing m with
  | nil => exact absurd he (by simp)
  | cons e' l ih =>
    obtain ⟨hhead, htail⟩ := List.nodup_cons.mp hnd
    rcases List.mem_cons.mp he with rfl | he
    · have hrest := @store_of_notMem _ _ _ (Function.update m e.1 (some e.2)) _ _ hhead
      rw [store, List.foldl_cons]
      exact hrest.trans (Function.update_self _ _ _)
    · exact ih htail he

theorem free_of_mem (ha : a ∈ as) : free m as a = none := if_pos ha

theorem free_of_notMem (ha : a ∉ as) : free m as a = m a := if_neg ha

end Memory

/-! ## Owners -/

/-- The addresses some owners give back. -/
def addresses (owned : τ → List (α × β)) (ts : List τ) : List α :=
  ts.flatMap fun t => (owned t).map Prod.fst

/-- What is owned when some owners have left. -/
def leave [DecidableEq τ] (owned : τ → List (α × β)) (ts : List τ) : τ → List (α × β) :=
  fun t => if t ∈ ts then [] else owned t

/-- What is owned is there, and owned once. -/
structure Ledger (m : α → Option β) (owned : τ → List (α × β)) : Prop where
  holds : ∀ {t e}, e ∈ owned t → m e.1 = some e.2
  apart : ∀ {t t' e e'}, e ∈ owned t → e' ∈ owned t' → e.1 = e'.1 → t = t'

section Owners

variable {m : α → Option β} {owned : τ → List (α × β)} {l : List (α × β)} {ts : List τ} {e : α × β}

theorem mem_addresses {a : α} :
    a ∈ addresses owned ts ↔ ∃ t ∈ ts, ∃ e ∈ owned t, e.1 = a := by
  simp only [addresses, List.mem_flatMap, List.mem_map]

/-- Owners of nothing give nothing back. -/
theorem addresses_eq_nil (h : ∀ t ∈ ts, owned t = []) : addresses owned ts = [] := by
  rw [addresses, List.flatMap_eq_nil_iff]
  intro t ht
  rw [h t ht, List.map_nil]

theorem Ledger.empty (h : ∀ t, owned t = []) : Ledger m owned where
  holds {t e} he := by
    rw [h t] at he
    exact absurd he (by simp)
  apart {t _ e _} he := by
    rw [h t] at he
    exact absurd he (by simp)

variable [DecidableEq τ]

theorem mem_leave {t : τ} : e ∈ leave owned ts t ↔ t ∉ ts ∧ e ∈ owned t := by
  unfold leave
  by_cases ht : t ∈ ts
  · simp [ht]
  · simp [ht]

/-- An owner has what it had and what it allocates. -/
theorem mem_allocate {t t' : τ} :
    e ∈ Function.update owned t (owned t ++ l) t' ↔ e ∈ owned t' ∨ t' = t ∧ e ∈ l := by
  by_cases ht : t' = t
  · subst ht
    rw [Function.update_self, List.mem_append]
    simp
  · rw [Function.update_of_ne ht]
    simp [ht]

/-- What is owned and not given back is still owned. -/
theorem exists_owner_leave (he : ∃ t, e ∈ owned t) (ha : e.1 ∉ addresses owned ts) :
    ∃ t, e ∈ Ownership.leave owned ts t := by
  obtain ⟨t, he⟩ := he
  exact ⟨t, mem_leave.mpr ⟨fun ht => ha (mem_addresses.mpr ⟨t, ht, e, he, rfl⟩), he⟩⟩

variable [DecidableEq α]

/-- **Allocation** at different addresses that are free. -/
theorem Ledger.allocate (h : Ledger m owned) (t : τ) (hnd : (l.map Prod.fst).Nodup)
    (hfree : ∀ e ∈ l, m e.1 = none) :
    Ledger (store m l) (Function.update owned t (owned t ++ l)) := by
  -- an address that is owned is not free, so it is not among the new ones
  have hold : ∀ {t e}, e ∈ owned t → e.1 ∉ l.map Prod.fst := by
    intro t e he hmem
    obtain ⟨e', he', heq⟩ := List.mem_map.mp hmem
    have hnone := hfree e' he'
    rw [heq, h.holds he] at hnone
    exact absurd hnone (by simp)
  constructor
  · intro t' e he
    rcases mem_allocate.mp he with he | ⟨-, he⟩
    · rw [store_of_notMem (hold he), h.holds he]
    · exact store_of_mem hnd he
  · intro t₁ t₂ e₁ e₂ he₁ he₂ heq
    rcases mem_allocate.mp he₁ with h₁ | ⟨rfl, h₁⟩ <;> rcases mem_allocate.mp he₂ with h₂ | ⟨rfl, h₂⟩
    · exact h.apart h₁ h₂ heq
    · exact absurd (heq ▸ List.mem_map_of_mem h₂) (hold h₁)
    · exact absurd (heq ▸ List.mem_map_of_mem h₁) (hold h₂)
    · rfl

/-- **Leaving** takes from memory what was owned, and nothing else. -/
theorem Ledger.leave (h : Ledger m owned) (ts : List τ) :
    Ledger (free m (addresses owned ts)) (Ownership.leave owned ts) where
  holds {t e} he := by
    obtain ⟨ht, he⟩ := mem_leave.mp he
    rw [free_of_notMem, h.holds he]
    intro hmem
    obtain ⟨t', ht', e', he', heq⟩ := mem_addresses.mp hmem
    obtain rfl := h.apart he' he heq
    exact ht ht'
  apart he he' heq := h.apart (mem_leave.mp he).2 (mem_leave.mp he').2 heq

end Owners
end Ownership
end ApexEngine
