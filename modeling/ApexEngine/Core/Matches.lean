import Mathlib.Data.List.AList
import Mathlib.Data.Option.Basic

/-!
# Maps with related entries

Two maps match when they have the same keys, in the same order, and at each key entries that
are related; the relation may depend on the key.  Lookups then give related results
(`Matches.lookup`), and assigning related entries to one key keeps maps matching
(`Matches.insert`).
-/

namespace ApexEngine
namespace Maps

variable {κ α β : Type} [DecidableEq κ] {R S : κ → α → β → Prop} {m : AList fun _ : κ => α}
  {m' : AList fun _ : κ => β} {k : κ} {a : α} {b : β}

/-- The same keys, and related entries. -/
structure Matches (R : κ → α → β → Prop) (m : AList fun _ : κ => α) (m' : AList fun _ : κ => β) :
    Prop where
  keys : m.keys = m'.keys
  lookup : ∀ k, Option.Rel (R k) (m.lookup k) (m'.lookup k)

/-- Related results of related results. -/
theorem rel_bind {γ δ : Type} {Q : α → β → Prop} {T : γ → δ → Prop} {o : Option α} {o' : Option β}
    {f : α → Option γ} {g : β → Option δ} (h : Option.Rel Q o o')
    (hfg : ∀ a b, Q a b → Option.Rel T (f a) (g b)) : Option.Rel T (o.bind f) (o'.bind g) := by
  cases h with
  | none => exact .none
  | some hab => exact hfg _ _ hab

theorem rel_mono {Q T : α → β → Prop} {o : Option α} {o' : Option β} (h : Option.Rel Q o o')
    (hQT : ∀ a b, Q a b → T a b) : Option.Rel T o o' := by
  cases h with
  | none => exact .none
  | some hab => exact .some (hQT _ _ hab)

namespace Matches

theorem empty : Matches R (∅ : AList fun _ : κ => α) (∅ : AList fun _ : κ => β) :=
  ⟨rfl, fun _ => .none⟩

theorem mono (h : Matches R m m') (hRS : ∀ k a b, R k a b → S k a b) : Matches S m m' :=
  ⟨h.keys, fun k => rel_mono (h.lookup k) (hRS k)⟩

theorem mem_iff (h : Matches R m m') : k ∈ m ↔ k ∈ m' := by
  rw [AList.mem_keys, AList.mem_keys, h.keys]

/-- An entry of the first map has its partner. -/
theorem exists_of_lookup (h : Matches R m m') (ha : m.lookup k = some a) :
    ∃ b, m'.lookup k = some b ∧ R k a b := by
  have hrel := h.lookup k
  rw [ha] at hrel
  cases hb : m'.lookup k with
  | none =>
    rw [hb] at hrel
    exact nomatch hrel
  | some b =>
    rw [hb] at hrel
    cases hrel with
    | some hab => exact ⟨b, rfl, hab⟩

/-- **An assignment** on both sides keeps them together. -/
theorem insert (h : Matches R m m') (hab : R k a b) : Matches R (m.insert k a) (m'.insert k b) where
  keys := by rw [AList.keys_insert, AList.keys_insert, h.keys]
  lookup k' := by
    by_cases hk : k' = k
    · subst hk
      rw [AList.lookup_insert, AList.lookup_insert]
      exact .some hab
    · rw [AList.lookup_insert_ne hk, AList.lookup_insert_ne hk]
      exact h.lookup k'

end Matches
end Maps
end ApexEngine
