import ApexEngine.Jit.Analyzer
import Mathlib.Data.List.Perm.Subperm
import Mathlib.Data.List.TakeWhile

/-!
# The expression builder

Clients build expressions in a thread-local pool of 128 nodes.  A builder function
takes the next node of the pool and writes the fields its kind needs; the others stay
as they are, which after a reset of the pool is as an earlier expression left them.

`Load` copies the field name with `strncpy`, at most 63 bytes of it and none from the
first zero byte on, and it does not look at where the view ends.  So what a node stores is
not always the name it was given (`storedName_eq_bytes_iff`).

The nodes of a pool are an expression graph as long as every node points to nodes
taken before it (`NodePool.Ordered`), and building keeps it so.  The result kinds the
functions write are left out: the analysis overwrites them before anything reads
them.
-/

namespace ApexEngine
namespace Jit

open A64 (Word)
open Core (Name)

/-! ## Field names -/

/-- A `std::string_view`: its bytes, and those that follow them in memory. -/
structure StringView where
  bytes : Name
  after : List UInt8
  deriving DecidableEq, Repr

/-- The view of a string that ends with a zero byte. -/
def StringView.ofString (s : Name) : StringView := ⟨s, [0]⟩

/-- The C string in `field_name` after `strncpy(field_name, data, 63)`. -/
def storedName (v : StringView) : Name := ((v.bytes ++ v.after).take 63).takeWhile (· ≠ 0)

/-- A view whose name is stored as it is: it fits and has no zero byte, and unless it fills
the array it is followed by a zero byte. -/
structure StringView.Whole (v : StringView) : Prop where
  length_le : v.bytes.length ≤ 63
  no_zero : 0 ∉ v.bytes
  ended : v.bytes.length = 63 ∨ ∀ b ∈ v.after.head?, b = 0

/-- A string that fits and has no zero byte in it is whole. -/
theorem StringView.whole_ofString {s : Name} (hlen : s.length ≤ 63) (hzero : 0 ∉ s) :
    (StringView.ofString s).Whole :=
  ⟨hlen, hzero, Or.inr fun _ hb => (Option.some.inj hb).symm⟩

/-- What is stored for a name that fits: the name, and what follows it. -/
theorem storedName_of_fits {v : StringView} (hlen : v.bytes.length ≤ 63) (hzero : 0 ∉ v.bytes) :
    storedName v = v.bytes ++ (v.after.take (63 - v.bytes.length)).takeWhile (· ≠ 0) := by
  have hall : ∀ x ∈ v.bytes, decide (x ≠ 0) = true := fun x hx =>
    decide_eq_true fun h0 => hzero (h0 ▸ hx)
  rw [storedName, List.take_append, List.take_of_length_le hlen,
    List.takeWhile_append_of_pos hall]

/-- **A name is stored as it is exactly when its view is whole.** -/
theorem storedName_eq_bytes_iff (v : StringView) : storedName v = v.bytes ↔ v.Whole := by
  constructor
  · intro h
    have hlen : (storedName v).length ≤ ((v.bytes ++ v.after).take 63).length :=
      (List.takeWhile_prefix _).length_le
    rw [h] at hlen
    have hle : v.bytes.length ≤ 63 := hlen.trans (List.length_take_le _ _)
    have hzero : 0 ∉ v.bytes := fun hmem => by
      rw [← h] at hmem
      simpa using List.mem_takeWhile_imp hmem
    refine ⟨hle, hzero, or_iff_not_imp_left.mpr fun hne b hb => ?_⟩
    rw [storedName_of_fits hle hzero, List.append_right_eq_self] at h
    obtain ⟨rest, hrest⟩ := List.head?_eq_some_iff.mp hb
    obtain ⟨k, hk⟩ : ∃ k, 63 - v.bytes.length = k + 1 := ⟨62 - v.bytes.length, by omega⟩
    rw [hrest, hk, List.take_succ_cons] at h
    by_contra hb0
    rw [List.takeWhile_cons, if_pos (decide_eq_true hb0)] at h
    exact List.cons_ne_nil _ _ h
  · rintro ⟨hlen, hzero, hend⟩
    rw [storedName_of_fits hlen hzero, List.append_right_eq_self]
    rcases hend with heq | hend
    · rw [heq, Nat.sub_self, List.take_zero, List.takeWhile_nil]
    · cases hafter : v.after with
      | nil => simp
      | cons b rest =>
        rw [hafter] at hend
        obtain rfl := hend b rfl
        cases 63 - v.bytes.length <;> simp

/-- A name in a string of its own is stored as it is exactly when it fits and has no zero
byte. -/
theorem storedName_eq_iff (s : Name) :
    storedName (.ofString s) = s ↔ s.length ≤ 63 ∧ 0 ∉ s :=
  (storedName_eq_bytes_iff (.ofString s)).trans
    ⟨fun h => ⟨h.length_le, h.no_zero⟩, fun h => ⟨h.1, h.2, Or.inr (by simp [StringView.ofString])⟩⟩

/-! ## The pool -/

/-- `builder::NodePool`. -/
structure NodePool where
  storage : NodeRef → Node
  nextIdx : ℕ

namespace NodePool

/-- `MAX_NODES`. -/
def maxNodes : ℕ := 128

/-- The pool of a thread that has built nothing. -/
def fresh : NodePool := ⟨fun _ => { kind := .load }, 0⟩

/-- `NodePool::alloc`. -/
def alloc (p : NodePool) : Option NodeRef × NodePool :=
  if maxNodes ≤ p.nextIdx then (none, p) else (some p.nextIdx, { p with nextIdx := p.nextIdx + 1 })

/-- `NodePool::reset`. -/
def reset (p : NodePool) : NodePool := { p with nextIdx := 0 }

/-- What every builder function does: take a node and write some fields of it. -/
def build (p : NodePool) (write : Node → Node) : Option NodeRef × NodePool :=
  match p.alloc with
  | (none, p) => (none, p)
  | (some n, p) => (some n, { p with storage := Function.update p.storage n (write (p.storage n)) })

/-- The node taken while there is one. -/
theorem build_of_lt {p : NodePool} (h : p.nextIdx < maxNodes) (write : Node → Node) :
    p.build write = (some p.nextIdx,
      ⟨Function.update p.storage p.nextIdx (write (p.storage p.nextIdx)), p.nextIdx + 1⟩) := by
  simp only [build, alloc, Nat.not_le.mpr h, if_false]

/-- Nothing is written when the pool is used up. -/
theorem build_of_le {p : NodePool} (h : maxNodes ≤ p.nextIdx) (write : Node → Node) :
    p.build write = (none, p) := by
  simp only [build, alloc, h, if_true]

/-- `builder::Load`. -/
def load (p : NodePool) (fieldName : StringView) : Option NodeRef × NodePool :=
  p.build fun n => { n with kind := .load, fieldName := storedName fieldName }

/-- `builder::Const`. -/
def const (p : NodePool) (value : Word) : Option NodeRef × NodePool :=
  p.build fun n => { n with kind := .const, constValue := value }

/-- The functions of two operands. -/
def binary (p : NodePool) (kind : NodeKind) (a b : Option NodeRef) : Option NodeRef × NodePool :=
  p.build fun n => { n with kind := kind, left := a, right := b }

/-- `builder::Add`. -/
def add (p : NodePool) (a b : Option NodeRef) : Option NodeRef × NodePool := p.binary .add a b

/-- `builder::Sub`. -/
def sub (p : NodePool) (a b : Option NodeRef) : Option NodeRef × NodePool := p.binary .sub a b

/-- `builder::GT`. -/
def gt (p : NodePool) (a b : Option NodeRef) : Option NodeRef × NodePool := p.binary .gt a b

/-- `builder::LT`, which builds a greater-than with its operands exchanged. -/
def lt (p : NodePool) (a b : Option NodeRef) : Option NodeRef × NodePool := p.gt b a

/-- `builder::EQ`. -/
def eq (p : NodePool) (a b : Option NodeRef) : Option NodeRef × NodePool := p.binary .eq a b

/-- `builder::And`. -/
def and (p : NodePool) (a b : Option NodeRef) : Option NodeRef × NodePool := p.binary .and a b

/-- `builder::Or`. -/
def or (p : NodePool) (a b : Option NodeRef) : Option NodeRef × NodePool := p.binary .or a b

/-- `builder::Not`. -/
def not (p : NodePool) (a : Option NodeRef) : Option NodeRef × NodePool :=
  p.build fun n => { n with kind := .not, left := a }

/-- `builder::Select`. -/
def select (p : NodePool) (cond a b : Option NodeRef) : Option NodeRef × NodePool :=
  p.build fun n => { n with kind := .select, cond := cond, left := a, right := b }

/-- `builder::LSL`. -/
def lsl (p : NodePool) (a : Option NodeRef) (shift : ℤ) : Option NodeRef × NodePool :=
  p.build fun n => { n with kind := .lsl, left := a, shiftAmount := shift }

/-- `builder::LSR`. -/
def lsr (p : NodePool) (a : Option NodeRef) (shift : ℤ) : Option NodeRef × NodePool :=
  p.build fun n => { n with kind := .lsr, left := a, shiftAmount := shift }

/-! ## The graph of a pool -/

/-- Every node points to nodes of lower index. -/
def Ordered (p : NodePool) : Prop := ∀ i, ∀ c ∈ (p.storage i).children, c < i

theorem ordered_fresh : fresh.Ordered := fun i c hc => absurd hc (by simp [fresh, Node.children])

/-- The nodes of an ordered pool. -/
def graph (p : NodePool) (h : p.Ordered) : Graph := ⟨p.storage, id, h⟩

/-- **Building keeps the order** when what is written points to nodes taken before. -/
theorem ordered_build {p : NodePool} (h : p.Ordered) {write : Node → Node}
    (hwrite : ∀ c ∈ (write (p.storage p.nextIdx)).children, c < p.nextIdx) :
    (p.build write).2.Ordered := by
  rcases Nat.lt_or_ge p.nextIdx maxNodes with hlt | hle
  · rw [build_of_lt hlt]
    intro i c hc
    by_cases hi : i = p.nextIdx
    · subst hi
      simp only [Function.update_self] at hc
      exact hwrite c hc
    · simp only [Function.update_of_ne hi] at hc
      exact h i c hc
  · rw [build_of_le hle]
    exact h

/-- A leaf keeps the pointers that were left in its node, and these are in order. -/
theorem ordered_load {p : NodePool} (h : p.Ordered) (f : StringView) : (p.load f).2.Ordered :=
  ordered_build h fun c hc => h p.nextIdx c hc

theorem ordered_const {p : NodePool} (h : p.Ordered) (value : Word) : (p.const value).2.Ordered :=
  ordered_build h fun c hc => h p.nextIdx c hc

/-- A node over operands taken before. -/
theorem ordered_binary {p : NodePool} (h : p.Ordered) (kind : NodeKind) {a b : Option NodeRef}
    (ha : ∀ n, a = some n → n < p.nextIdx) (hb : ∀ n, b = some n → n < p.nextIdx) :
    (p.binary kind a b).2.Ordered := by
  refine ordered_build h fun c hc => ?_
  rcases Node.mem_children.mp hc with hc | hc | hc
  · exact ha c hc
  · exact hb c hc
  · exact h p.nextIdx c (Node.mem_children.mpr (Or.inr (Or.inr hc)))

/-- A negation keeps the pointers to other operands that were left in its node. -/
theorem ordered_not {p : NodePool} (h : p.Ordered) {a : Option NodeRef}
    (ha : ∀ n, a = some n → n < p.nextIdx) : (p.not a).2.Ordered := by
  refine ordered_build h fun c hc => ?_
  rcases Node.mem_children.mp hc with hc | hc | hc
  · exact ha c hc
  · exact h p.nextIdx c (Node.mem_children.mpr (Or.inr (Or.inl hc)))
  · exact h p.nextIdx c (Node.mem_children.mpr (Or.inr (Or.inr hc)))

/-- A reset leaves the nodes as they are. -/
theorem ordered_reset {p : NodePool} (h : p.Ordered) : p.reset.Ordered := h

/-- **An expression has no more nodes than a pool.** -/
theorem length_listing_le {p : NodePool} (h : p.Ordered) {root : NodeRef}
    (hroot : root < maxNodes) : ((p.graph h).listing root).length ≤ maxNodes := by
  have hsub : (p.graph h).listing root ⊆ List.range maxNodes := by
    intro n hn
    have hrank : n ≤ root := (p.graph h).rank_le_of_reach (((p.graph h).mem_listing root).mp hn)
    exact List.mem_range.mpr (Nat.lt_of_le_of_lt hrank hroot)
  have hlen := (((p.graph h).nodup_listing root).subperm hsub).length_le
  rwa [List.length_range] at hlen

end NodePool
end Jit
end ApexEngine
