import ApexEngine.Api.Threshold
import Mathlib.Algebra.Order.BigOperators.Group.List
import Mathlib.Algebra.Order.Group.Nat

/-!
# Declared widths

A field is declared with a width, and a gather copies eight bytes whatever the width is.
So the bytes behind a narrow field, which belong to other fields or to no field, are read
as the upper bits of its value.

`Noninterfering` says that what a logic counts depends on the bytes that its fields
declare and on no others: for all strides, numbers of rows and pairs of datasets.  What is
counted is a sum over blocks of rows, so it is enough to look at one block, and in it to
show one row (`noninterfering_iff`).  For logics that decide each row by itself it is
enough to look at single rows (`undisturbed_iff`), and for those that shift the word of a
row into the mask, at the bits of single words (`undisturbed_shifted_iff`).

A row with zeros in the place of the bytes that are not declared (`declared`) shows
whether a function of rows looks at these.  Whether a word reaches a limit does not depend on
them exactly when each of them is one of the zero bytes at the end of the limit
(`dependsOnDeclared_atLeast_iff`).
-/

namespace ApexEngine
namespace Api

open A64 (Word)
open Core (Name FieldDescriptor)
open Compute (Data blockRow memcpy8 memcpy8_congr)
open Jit (Caller)

/-! ## Bytes of rows -/

section Bytes

variable (fields : List FieldDescriptor)

/-- The bytes of a row that belong to one of the fields. -/
def Declares (a : ℕ) : Prop :=
  ∃ f ∈ fields, f.offset.toNat ≤ a ∧ a < f.offset.toNat + f.bitWidth.toNat / 8

/-- Rows with the same declared bytes. -/
def SameDeclared (x y : Data) : Prop := ∀ a, Declares fields a → x a = y a

instance (a : ℕ) : Decidable (Declares fields a) :=
  inferInstanceAs (Decidable (∃ f ∈ fields, f.offset.toNat ≤ a ∧
    a < f.offset.toNat + f.bitWidth.toNat / 8))

/-- The declared bytes of a row, with zeros in the place of the others. -/
def declared (bytes : Data) : Data := fun a => if Declares fields a then bytes a else 0

/-- What can be told of a row from its declared bytes. -/
def DependsOnDeclared {α : Type*} (f : Data → α) : Prop :=
  ∀ bytes, f (declared fields bytes) = f bytes

/-- Rows with the same bytes where the fields are read. -/
def SameRead (x y : Data) : Prop :=
  ∀ f ∈ fields, ∀ k < 8, x (f.offset.toNat + k) = y (f.offset.toNat + k)

/-- **Noninterference**: on datasets with the same declared bytes in every row the same
number is counted. -/
def Noninterfering (count : ℕ → Data → ℕ → Option ℕ) : Prop :=
  ∀ rowStride n data data',
    (∀ i < n, SameDeclared fields (datasetRow data rowStride i) (datasetRow data' rowStride i)) →
    count rowStride data n = count rowStride data' n

/-- No block of up to 64 rows is counted otherwise when one of its rows is replaced by one
with the same declared bytes. -/
def Undisturbed (hits : (ℕ → Data) → ℕ) : Prop :=
  ∀ n ≤ 64, ∀ block : ℕ → Data, (∀ r, n ≤ r → block r = fun _ => 0) → ∀ j < n, ∀ x,
    SameDeclared fields (block j) x → hits (Function.update block j x) = hits block

/-- The eight bytes read of each field are declared, by this field or by others. -/
def AllDeclared : Prop :=
  ∀ f ∈ fields, ∀ k < 8, Declares fields (f.offset.toNat + k)

/-- A stride with room for the fields. -/
def roomyStride : ℕ :=
  (fields.map fun f => f.offset.toNat + 8 + f.bitWidth.toNat).sum + 1

variable {fields}

theorem sameDeclared_declared (bytes : Data) : SameDeclared fields (declared fields bytes) bytes :=
  fun _ ha => if_pos ha

/-- It is the same for all rows with the same declared bytes. -/
theorem dependsOnDeclared_iff {α : Type*} {f : Data → α} :
    DependsOnDeclared fields f ↔ ∀ x y, SameDeclared fields x y → f x = f y := by
  constructor
  · intro h x y hxy
    have hdeclared : declared fields x = declared fields y := by
      funext a
      by_cases ha : Declares fields a
      · rw [declared, declared, if_pos ha, if_pos ha, hxy a ha]
      · rw [declared, declared, if_neg ha, if_neg ha]
    rw [← h x, hdeclared, h y]
  · exact fun h bytes => h _ _ (sameDeclared_declared bytes)

theorem lt_roomyStride {f : FieldDescriptor} (hf : f ∈ fields) :
    f.offset.toNat + 8 + f.bitWidth.toNat < roomyStride fields :=
  Nat.lt_succ_of_le (List.le_sum_of_mem (List.mem_map_of_mem hf))

theorem lt_roomyStride_of_declares {a : ℕ} (h : Declares fields a) : a < roomyStride fields := by
  obtain ⟨f, hf, -, hlt⟩ := h
  have := lt_roomyStride hf
  omega

/-- Rows one after another, at a stride. -/
def packed (rowStride : ℕ) (block : ℕ → Data) : Data := fun a => block (a / rowStride) (a % rowStride)

theorem datasetRow_packed {rowStride a : ℕ} (ha : a < rowStride) (block : ℕ → Data) (i : ℕ) :
    datasetRow (packed rowStride block) rowStride i a = block i a := by
  have hdiv : (i * rowStride + a) / rowStride = i := by
    rw [Nat.mul_comm, Nat.mul_add_div (by omega), Nat.div_eq_of_lt ha, Nat.add_zero]
  have hmod : (i * rowStride + a) % rowStride = a := by
    rw [Nat.mul_comm, Nat.mul_add_mod, Nat.mod_eq_of_lt ha]
  rw [datasetRow, packed, hdiv, hmod]

end Bytes

/-! ## Numbers and their bytes -/

section Numbers

variable {fields : List FieldDescriptor} {o k B : ℕ}

/-- The bytes of a word from one on are the word without those below. -/
theorem memcpy8_div (bytes : Data) {j : ℕ} : (memcpy8 bytes o).toNat / 256 ^ j =
    Nat.ofDigits 256 (((List.range 8).map fun k => (bytes (o + k)).toNat).drop j) := by
  have hbyte : ∀ l ∈ (List.range 8).map fun k => (bytes (o + k)).toNat, l < 256 := by
    intro l hl
    obtain ⟨k, -, rfl⟩ := List.mem_map.mp hl
    exact (bytes (o + k)).toNat_lt
  have hlt := Nat.ofDigits_lt_base_pow_length (by omega) hbyte
  rw [List.length_map, List.length_range, show 256 ^ 8 = 2 ^ 64 from rfl] at hlt
  rw [memcpy8, BitVec.toNat_ofNat, Nat.mod_eq_of_lt hlt,
    Nat.ofDigits_div_pow_eq_ofDigits_drop _ (by omega) _ hbyte]

/-- A byte of a word and those above it. -/
theorem memcpy8_div_succ (bytes : Data) {j : ℕ} (hj : j < 8) :
    (memcpy8 bytes o).toNat / 256 ^ j =
      (bytes (o + j)).toNat + 256 * ((memcpy8 bytes o).toNat / 256 ^ (j + 1)) := by
  have hlt : j < ((List.range 8).map fun k => (bytes (o + k)).toNat).length := by simpa using hj
  rw [memcpy8_div, memcpy8_div, List.drop_eq_getElem_cons hlt, Nat.ofDigits_cons]
  simp

/-- Numbers that differ in one byte only, which is not declared, as rows. -/
theorem sameDeclared_bytesAt {u v : ℕ} (hk : ¬ Declares fields (o + k))
    (hlow : u % 256 ^ k = v % 256 ^ k) (hhigh : u / 256 ^ (k + 1) = v / 256 ^ (k + 1)) :
    SameDeclared fields (Compute.bytesAt o u) (Compute.bytesAt o v) := by
  intro a ha
  rw [Compute.bytesAt, Compute.bytesAt]
  split
  · rfl
  · next hle =>
    obtain ⟨j, rfl⟩ := Nat.exists_eq_add_of_le (Nat.not_lt.mp hle)
    rw [Nat.add_sub_cancel_left]
    congr 1
    rcases Nat.lt_trichotomy j k with hlt | rfl | hgt
    · have hbyte : ∀ x : ℕ, x / 256 ^ j % 256 = x % 256 ^ k / 256 ^ j % 256 := by
        intro x
        have hpow : 256 ^ k = 256 ^ j * 256 ^ (k - j) := by
          rw [← pow_add]
          congr 1
          omega
        rw [hpow, Nat.mod_mul_right_div_self, Nat.mod_mod_of_dvd _ (dvd_pow_self 256 (by omega))]
      rw [hbyte u, hbyte v, hlow]
    · exact absurd ha hk
    · obtain ⟨d, rfl⟩ := Nat.exists_eq_add_of_lt hgt
      rw [show k + d + 1 = k + 1 + d by omega, pow_add, ← Nat.div_div_eq_div_mul,
        ← Nat.div_div_eq_div_mul, hhigh]

/-- On the two sides of a limit that is no multiple of a byte's range there are numbers that
differ in this byte only. -/
theorem exists_across {P : ℕ} (hP : 0 < P) (h : ¬ P * 256 ∣ B) :
    ∃ u v, u < B ∧ B ≤ v ∧ u % P = v % P ∧ u / (P * 256) = v / (P * 256) := by
  have hB : P * (B / P) + B % P = B := Nat.div_add_mod B P
  have hlt := Nat.mod_lt B hP
  have hdiv : ∀ a r, r < P → (P * a + r) / P = a := fun a r hr => by
    rw [Nat.mul_add_div hP, Nat.div_eq_of_lt hr, Nat.add_zero]
  have hmod : ∀ a r, (P * a + r) % P = r % P := fun a r => Nat.mul_add_mod _ _ _
  simp only [← Nat.div_div_eq_div_mul]
  generalize B / P = a at *
  generalize B % P = r at *
  subst hB
  by_cases hbyte : a % 256 = 0
  · -- the byte can be one more in the number before
    have hr : r ≠ 0 := by
      rintro rfl
      exact h (by rw [Nat.add_zero]; exact Nat.mul_dvd_mul_left P (Nat.dvd_of_mod_eq_zero hbyte))
    refine ⟨P * a + (r - 1), P * (a + 1) + (r - 1), by omega, by rw [Nat.mul_succ]; omega, ?_, ?_⟩
    · rw [hmod, hmod]
    · rw [hdiv _ _ (by omega), hdiv _ _ (by omega)]
      omega
  · -- the byte of the limit can be zero
    refine ⟨P * (a - a % 256) + r, P * a + r, ?_, le_rfl, ?_, ?_⟩
    · exact Nat.add_lt_add_right
        ((Nat.mul_lt_mul_left hP).mpr (Nat.sub_lt_self (by omega) (Nat.mod_le a 256))) r
    · rw [hmod, hmod]
    · rw [hdiv _ _ hlt, hdiv _ _ hlt]
      omega

/-- Words with the same declared bytes are on one side of a limit, when each of the other
bytes is one of the zero bytes at its end. -/
theorem atLeast_of_sameDeclared (h : ∀ k < 8, Declares fields (o + k) ∨ 256 ^ (k + 1) ∣ B)
    {x y : Data} (hxy : SameDeclared fields x y) (hx : B ≤ (memcpy8 x o).toNat) :
    B ≤ (memcpy8 y o).toNat := by
  by_contra hy
  -- from the top down the words have the same bytes
  have hsame : ∀ j ≤ 8, (memcpy8 x o).toNat / 256 ^ j = (memcpy8 y o).toNat / 256 ^ j := by
    intro j hj
    induction hj using Nat.decreasingInduction with
    | self =>
      rw [show 256 ^ 8 = 2 ^ 64 from rfl, Nat.div_eq_of_lt (memcpy8 x o).isLt,
        Nat.div_eq_of_lt (memcpy8 y o).isLt]
    | of_succ j hj ih =>
      rcases h j hj with hdeclared | ⟨m, rfl⟩
      · rw [memcpy8_div_succ x hj, memcpy8_div_succ y hj, ih, hxy _ hdeclared]
      · have hpos : 0 < 256 ^ (j + 1) := Nat.pow_pos (by omega)
        have hle : m ≤ (memcpy8 x o).toNat / 256 ^ (j + 1) := by
          rwa [Nat.le_div_iff_mul_le hpos, Nat.mul_comm]
        have hlt : (memcpy8 y o).toNat / 256 ^ (j + 1) < m := by
          rw [Nat.div_lt_iff_lt_mul hpos, Nat.mul_comm]
          exact Nat.lt_of_not_le hy
        omega
  have := hsame 0 (by omega)
  simp only [pow_zero, Nat.div_one] at this
  omega

/-- **When the declared bytes tell whether a word reaches a limit**: when each byte that is
not declared is one of the zero bytes at the end of the limit. -/
theorem dependsOnDeclared_atLeast_iff (hB : B ≤ 2 ^ 64) :
    DependsOnDeclared fields (fun bytes => decide (B ≤ (memcpy8 bytes o).toNat)) ↔
      ∀ k < 8, Declares fields (o + k) ∨ 256 ^ (k + 1) ∣ B := by
  rw [dependsOnDeclared_iff]
  constructor
  · intro h k hk
    by_contra hnot
    obtain ⟨hundeclared, hdvd⟩ := not_or.mp hnot
    rw [pow_succ] at hdvd
    obtain ⟨u, v, hu, hv, hlow, hhigh⟩ := exists_across (Nat.pow_pos (by omega)) hdvd
    rw [← pow_succ] at hhigh
    have hpow : 256 ^ (k + 1) ∣ 2 ^ 64 := pow_dvd_pow 256 (by omega : k + 1 ≤ 8)
    have hv64 : v < 2 ^ 64 := by
      have := Nat.div_le_div_right (c := 256 ^ (k + 1)) hu.le
      obtain ⟨m, hm⟩ := hpow
      have hpos : 0 < 256 ^ (k + 1) := Nat.pow_pos (by omega)
      rw [hm, Nat.mul_comm, ← Nat.div_lt_iff_lt_mul hpos, ← hhigh, Nat.div_lt_iff_lt_mul hpos,
        Nat.mul_comm, ← hm]
      omega
    have hword : ∀ w < 2 ^ 64, (memcpy8 (Compute.bytesAt o w) o).toNat = w := by
      intro w hw
      have := Compute.memcpy8_bytesAt (a := o) hw 0
      rw [Nat.add_zero, pow_zero, Nat.div_one] at this
      rw [this, BitVec.toNat_ofNat, Nat.mod_eq_of_lt hw]
    have heq := h _ _ (sameDeclared_bytesAt hundeclared hlow hhigh)
    rw [hword u (by omega), hword v hv64, decide_eq_decide] at heq
    omega
  · intro h x y hxy
    rw [decide_eq_decide]
    exact ⟨atLeast_of_sameDeclared h hxy,
      atLeast_of_sameDeclared h fun a ha => (hxy a ha).symm⟩

end Numbers

/-! ## From datasets to one row of one block -/

section Blocks

variable {fields : List FieldDescriptor} {hits : (ℕ → Data) → ℕ}

/-- Replacing the rows of a block one by one. -/
theorem Undisturbed.block_eq (h : Undisturbed fields hits) {n : ℕ} (hn : n ≤ 64) {x y : ℕ → Data}
    (hx : ∀ r, n ≤ r → x r = fun _ => 0) (hy : ∀ r, n ≤ r → y r = fun _ => 0)
    (hsame : ∀ r < n, SameDeclared fields (x r) (y r)) : hits x = hits y := by
  have hmix : ∀ k ≤ n, hits (fun r => if r < k then y r else x r) = hits x := by
    intro k hk
    induction k with
    | zero => simp
    | succ k ih =>
      have hnext : (fun r => if r < k + 1 then y r else x r) =
          Function.update (fun r => if r < k then y r else x r) k (y k) := by
        funext r
        by_cases hr : r = k
        · subst hr
          rw [Function.update_self, if_pos (Nat.lt_succ_self r)]
        · rw [Function.update_of_ne hr]
          exact if_congr (by omega) rfl rfl
      rw [hnext, ← ih (by omega)]
      refine h n hn _ (fun r hr => ?_) k (by omega) (y k) ?_
      · rw [if_neg (by omega), hx r hr]
      · rw [if_neg (Nat.lt_irrefl k)]
        exact hsame k (by omega)
  have hlast : (fun r => if r < n then y r else x r) = y := by
    funext r
    split
    · rfl
    · rw [hx r (by omega), hy r (by omega)]
  rw [← hmix n le_rfl, hlast]

/-- **Noninterference is about one row of one block**, for every count that adds up what it
has for the blocks and reads the bytes of the fields only. -/
theorem noninterfering_iff {count : ℕ → Data → ℕ → Option ℕ}
    (hcount : ∀ rowStride data n, count rowStride data n =
      some (Blocks.blockSum 64 n fun start _ =>
        hits (blockRow data (start * rowStride) rowStride (min 64 (n - start)))))
    (hread : ∀ block block' : ℕ → Data,
      (∀ r < 64, SameRead fields (block r) (block' r)) → hits block = hits block') :
    Noninterfering fields count ↔ Undisturbed fields hits := by
  constructor
  · intro h n hn block hzero j hj x hx
    -- the block as a dataset, at a stride at which no two rows share a byte
    have hone : ∀ block : ℕ → Data, (∀ r, n ≤ r → block r = fun _ => 0) →
        count (roomyStride fields) (packed (roomyStride fields) block) n = some (hits block) := by
      intro block hzero
      rw [hcount, Blocks.blockSum_of_le (by omega) hn]
      refine congrArg some (hread _ _ fun r _ f hf k hk => ?_)
      have hroom := lt_roomyStride hf
      rw [blockRow_eq, Nat.sub_zero, Nat.min_eq_right hn, Nat.zero_add]
      split
      · exact datasetRow_packed (by omega) block r
      · rw [hzero r (by omega)]
    have hzero' : ∀ r, n ≤ r → Function.update block j x r = fun _ => 0 := fun r hr => by
      rw [Function.update_of_ne (by omega), hzero r hr]
    have heq := h (roomyStride fields) n (packed (roomyStride fields) (Function.update block j x))
      (packed (roomyStride fields) block) fun i hi a ha => ?_
    · rw [hone _ hzero', hone _ hzero] at heq
      exact Option.some.inj heq
    · rw [datasetRow_packed (lt_roomyStride_of_declares ha),
        datasetRow_packed (lt_roomyStride_of_declares ha)]
      by_cases hij : i = j
      · subst hij
        rw [Function.update_self]
        exact (hx a ha).symm
      · rw [Function.update_of_ne hij]
  · intro h rowStride n data data' hsame
    rw [hcount, hcount]
    refine congrArg some (Blocks.blockSum_congr (by omega) fun c hc => ?_)
    have hbeyond : ∀ data : Data, ∀ r, min 64 (n - c * 64) ≤ r →
        blockRow data (c * 64 * rowStride) rowStride (min 64 (n - c * 64)) r = fun _ => 0 := by
      intro data r hr
      rw [blockRow_eq, if_neg (by omega)]
    refine h.block_eq (Nat.min_le_left _ _) (hbeyond data) (hbeyond data') fun r hr => ?_
    rw [blockRow_eq, blockRow_eq, if_pos hr, if_pos hr]
    exact hsame (c * 64 + r) (by omega)

/-- Counts that differ in the predicate on one element differ there. -/
theorem eq_of_countP_eq {l : List ℕ} (hl : l.Nodup) {r : ℕ} (hr : r ∈ l) {p q : ℕ → Bool}
    (hne : ∀ i ∈ l, i ≠ r → p i = q i) (h : l.countP p = l.countP q) : p r = q r := by
  obtain ⟨s, t, rfl⟩ := List.append_of_mem hr
  have hs : ∀ i ∈ s ++ t, p i = q i := by
    intro i hi
    refine hne i (List.mem_append.mpr ((List.mem_append.mp hi).imp_right fun h => .tail _ h)) ?_
    rintro rfl
    exact (List.nodup_middle.mp hl).notMem hi
  rw [List.countP_append, List.countP_append, List.countP_cons, List.countP_cons,
    List.countP_congr fun i hi => by rw [hs i (List.mem_append_left t hi)],
    List.countP_congr (l := t) fun i hi => by rw [hs i (List.mem_append_right s hi)]] at h
  cases hp : p r <;> cases hq : q r <;> simp [hp, hq] at h ⊢

/-- **Where rows are decided one by one** it is enough to look at single rows. -/
theorem undisturbed_iff {verdict : ℕ → Data → Bool}
    (hhits : ∀ block, hits block = (List.range 64).countP fun r => verdict r (block r)) :
    Undisturbed fields hits ↔
      ∀ r < 64, ∀ x y, SameDeclared fields x y → verdict r x = verdict r y := by
  constructor
  · intro h r hr x y hxy
    have hswap := h 64 le_rfl (Function.update (fun _ _ => 0) r x)
      (fun i hi => Function.update_of_ne (by omega) _ _) r hr y
      (by rw [Function.update_self]; exact hxy)
    rw [hhits, hhits] at hswap
    have heq := eq_of_countP_eq List.nodup_range (List.mem_range.mpr hr) (fun i _ hi => by
      rw [Function.update_of_ne hi]) hswap
    rw [Function.update_self, Function.update_self] at heq
    exact heq.symm
  · intro h n hn block _ j hj x hx
    rw [hhits, hhits]
    refine List.countP_congr fun i _ => ?_
    by_cases hij : i = j
    · subst hij
      rw [Function.update_self, h i (by omega) _ _ hx]
    · rw [Function.update_of_ne hij]

/-- Bits below which none is always set, up to one that is or to the end of a mask. -/
theorem exists_first_set (bit : Data → ℕ → Bool) : ∃ D ≤ 64,
    (∀ d < D, ∃ z, bit z d = false) ∧ (D < 64 → ∀ z, bit z D = true) := by
  by_cases hset : ∃ d < 64, ∀ z, bit z d = true
  · classical
    refine ⟨Nat.find hset, (Nat.find_spec hset).1.le, fun d hd => ?_,
      fun _ => (Nat.find_spec hset).2⟩
    have := Nat.find_min hset hd
    simp only [not_and, not_forall, Bool.not_eq_true] at this
    exact this (hd.trans (Nat.find_spec hset).1)
  · refine ⟨64, le_rfl, fun d hd => ?_, fun h => absurd h (by omega)⟩
    simp only [not_exists, not_and, not_forall, Bool.not_eq_true] at hset
    exact hset d hd

/-- Bits that no row before has to cover are those of declared bytes. -/
theorem Undisturbed.bit_eq (h : Undisturbed fields hits) {bit : Data → ℕ → Bool}
    (hhits : ∀ block, hits block =
      (List.range 64).countP fun r => decide (∃ k ≤ r, bit (block (r - k)) k = true))
    {D : ℕ} (hD : D ≤ 64) (hbelow : ∀ d < D, ∃ z, bit z d = false)
    (habove : D < 64 → ∀ z, bit z D = true) {k : ℕ} (hk : k < D) {x y : Data}
    (hxy : SameDeclared fields x y) : bit x k = bit y k := by
  choose! z hz using hbelow
  induction k using Nat.strong_induction_on with
  | h k ih =>
    -- a block in which the last bit that is not covered is that of this row only
    let block : Data → ℕ → Data := fun w =>
      Function.update (fun r => if r < 64 then z (D - 1 - r) else fun _ => 0) (D - 1 - k) w
    have hself : ∀ w, block w (D - 1 - k) = w := fun w => Function.update_self _ _ _
    have hother : ∀ w {r}, r ≠ D - 1 - k → block w r = if r < 64 then z (D - 1 - r) else fun _ => 0 :=
      fun w r hr => Function.update_of_ne hr _ _
    have hswap : hits (block y) = hits (block x) := by
      have hreplace := h 64 le_rfl (block x) (fun r hr => by
        rw [hother x (by omega), if_neg (by omega)]) (D - 1 - k) (by omega) y (by rwa [hself])
      rwa [show Function.update (block x) (D - 1 - k) y = block y from
        Function.update_idem _ _ _] at hreplace
    have hlast : ∀ w, decide (∃ i ≤ D - 1, bit (block w (D - 1 - i)) i = true) = bit w k := by
      intro w
      rw [Bool.eq_iff_iff, decide_eq_true_iff]
      constructor
      · rintro ⟨i, hi, hbit⟩
        by_cases hik : i = k
        · subst hik
          rwa [hself] at hbit
        · rw [hother w (by omega), if_pos (by omega), Nat.sub_sub_self hi, hz i (by omega)] at hbit
          exact absurd hbit (by simp)
      · exact fun hbit => ⟨k, by omega, by rwa [hself]⟩
    have hbefore : ∀ q < D, q ≠ D - 1 → ∀ i ≤ q, bit (block y (q - i)) i = bit (block x (q - i)) i := by
      intro q hq hne i hi
      by_cases hrow : q - i = D - 1 - k
      · rw [hrow, hself, hself, ih i (by omega) (by omega)]
      · rw [hother y hrow, hother x hrow]
    rw [hhits, hhits] at hswap
    have heq := eq_of_countP_eq List.nodup_range (List.mem_range.mpr (by omega : D - 1 < 64))
      (fun q hq hne => ?_) hswap
    · rw [hlast, hlast] at heq
      exact heq.symm
    · rw [decide_eq_decide]
      by_cases hqD : q < D
      · exact exists_congr fun i => and_congr_right fun hi => by rw [hbefore q hqD hne i hi]
      · have hq64 := List.mem_range.mp hq
        have hcovered : ∀ block : ℕ → Data, ∃ i ≤ q, bit (block (q - i)) i = true :=
          fun block => ⟨D, by omega, habove (by omega) _⟩
        exact ⟨fun _ => hcovered _, fun _ => hcovered _⟩

/-- **Where the bits of a row reach into the rows after it**, as those of a word that is
shifted into the mask: a bit does no harm that depends on declared bytes only, or that is
covered from a row before, whatever this row is. -/
theorem undisturbed_shifted_iff {bit : Data → ℕ → Bool}
    (hhits : ∀ block, hits block =
      (List.range 64).countP fun r => decide (∃ k ≤ r, bit (block (r - k)) k = true)) :
    Undisturbed fields hits ↔ ∀ k < 64, (∃ d ≤ k, ∀ bytes, bit bytes d = true) ∨
      DependsOnDeclared fields fun bytes => bit bytes k := by
  simp only [dependsOnDeclared_iff]
  constructor
  · intro h k hk
    obtain ⟨D, hD, hbelow, habove⟩ := exists_first_set bit
    by_cases hkD : k < D
    · exact Or.inr fun x y hxy => h.bit_eq hhits hD hbelow habove hkD hxy
    · exact Or.inl ⟨D, by omega, habove (by omega)⟩
  · intro h n _ block _ j _ x hx
    rw [hhits, hhits]
    refine List.countP_congr fun r hr => ?_
    rw [decide_eq_true_iff, decide_eq_true_iff]
    by_cases hset : ∃ d ≤ r, ∀ bytes, bit bytes d = true
    · obtain ⟨d, hd, hset⟩ := hset
      exact ⟨fun _ => ⟨d, hd, hset _⟩, fun _ => ⟨d, hd, hset _⟩⟩
    · refine exists_congr fun k => and_congr_right fun hk => ?_
      have hr64 := List.mem_range.mp hr
      have hsame := (h k (by omega)).resolve_left fun ⟨d, hd, hall⟩ => hset ⟨d, by omega, hall⟩
      by_cases hrow : r - k = j
      · rw [hrow, Function.update_self, hsame _ _ hx]
      · rw [Function.update_of_ne hrow]

/-- **Fields whose eight bytes are all declared** are not disturbed. -/
theorem undisturbed_of_declares (hread : ∀ block block' : ℕ → Data,
      (∀ r < 64, SameRead fields (block r) (block' r)) → hits block = hits block')
    (h : AllDeclared fields) : Undisturbed fields hits := by
  intro n _ block _ j _ x hx
  refine hread _ _ fun r _ f hf k hk => ?_
  by_cases hrj : r = j
  · subst hrj
    rw [Function.update_self]
    exact (hx _ (h f hf k hk)).symm
  · rw [Function.update_of_ne hrj]

end Blocks

/-- The engine with other rows for a schema. -/
def Engine.restride (e : Engine) (name : Name) (schema : SchemaMetadata) : Engine :=
  { e with schemaMetadata := e.schemaMetadata.insert name schema }

/-- That is what registering a schema again does. -/
theorem registerSchema_of_mem {e : Engine} {name : Name} (h : name ∈ e.registry.schemas)
    (fields : List FieldDescriptor) (rowStride : ℕ) :
    e.registerSchema name fields rowStride = e.restride name ⟨rowStride, fields⟩ := by
  have hregistry : e.registry.registerSchema name fields = e.registry := by
    rw [Core.SchemaRegistry.registerSchema, Core.emplace, if_pos h]
  rw [Engine.registerSchema, hregistry, Engine.restride]

/-! ## Thresholds -/

section Threshold

variable {field : FieldDescriptor} {T : Word}

/-- The rows of a block that exceed a threshold. -/
def thresholdHits (T : Word) (field : FieldDescriptor) (block : ℕ → Data) : ℕ :=
  (List.range 64).countP fun r => exceeds T field (block r)

theorem thresholdHits_congr {block block' : ℕ → Data}
    (h : ∀ r < 64, SameRead [field] (block r) (block' r)) :
    thresholdHits T field block = thresholdHits T field block' := by
  refine List.countP_congr fun r hr => ?_
  rw [exceeds, exceeds, memcpy8_congr (h r (List.mem_range.mp hr) field List.mem_cons_self)]

/-- What executing a threshold counts, block by block. -/
theorem count_threshold_blocks {callers : ℕ → Caller} {order : IterationOrder} {e : Engine}
    {name : Name} (hexpr : e.exprLogic = ∅)
    (hfront : order.front e.compiledLogic = some (name, ⟨field, Jit.compileComparison T⟩))
    (fields : List FieldDescriptor) (rowStride : ℕ) (data : Data) (n : ℕ) :
    (e.restride name ⟨rowStride, fields⟩).count callers data order n =
      some (Blocks.blockSum 64 n fun start _ => thresholdHits T field
        (blockRow data (start * rowStride) rowStride (min 64 (n - start)))) := by
  have hcount := @count_of_threshold callers order (e.restride name ⟨rowStride, fields⟩) name field T
    ⟨rowStride, fields⟩ hexpr hfront (AList.lookup_insert _) data n
  have hblocks := blockSum_blockCount (exceeds T field) data rowStride n
  rw [exceeds_zero] at hblocks
  rw [hcount]
  exact congrArg some hblocks.symm

/-- A number exceeds a threshold when it is at least the next number. -/
theorem exceeds_eq (bytes : Data) :
    exceeds T field bytes = decide (T.toNat + 1 ≤ (memcpy8 bytes field.offset.toNat).toNat) := by
  rw [exceeds, decide_eq_decide, BitVec.lt_def, Nat.succ_le_iff]

/-- **Which thresholds look at declared bytes only**: those of fields declared with eight
bytes, and the threshold that nothing exceeds. -/
theorem dependsOnDeclared_exceeds_iff : DependsOnDeclared [field] (exceeds T field) ↔
    64 ≤ field.bitWidth.toNat ∨ T = BitVec.allOnes 64 := by
  have hlimit : T.toNat + 1 ≤ 2 ^ 64 := T.isLt
  have hbyte : ∀ k < 8, Declares [field] (field.offset.toNat + k) ↔ k < field.bitWidth.toNat / 8 := by
    intro k hk
    constructor
    · rintro ⟨f, hf, -, hlt⟩
      rw [List.mem_singleton.mp hf] at hlt
      omega
    · intro hlt
      exact ⟨field, List.mem_cons_self, by omega, by omega⟩
  rw [show exceeds T field = fun bytes => decide (T.toNat + 1 ≤
      (memcpy8 bytes field.offset.toNat).toNat) from funext exceeds_eq,
    dependsOnDeclared_atLeast_iff hlimit]
  constructor
  · intro h
    rcases h 7 (by omega) with hdeclared | hdvd
    · rw [hbyte 7 (by omega)] at hdeclared
      omega
    · -- a number up to `2 ^ 64` that eight zero bytes end
      refine Or.inr (BitVec.eq_of_toNat_eq ?_)
      have := Nat.le_of_dvd (Nat.succ_pos _) hdvd
      rw [BitVec.toNat_allOnes]
      omega
  · rintro (hwidth | rfl) k hk
    · rw [hbyte k hk]
      omega
    · exact Or.inr (pow_dvd_pow 256 (by omega : k + 1 ≤ 8))

/-- A threshold is undisturbed exactly then. -/
theorem undisturbed_thresholdHits_iff : Undisturbed [field] (thresholdHits T field) ↔
    64 ≤ field.bitWidth.toNat ∨ T = BitVec.allOnes 64 := by
  rw [@undisturbed_iff [field] (thresholdHits T field) (fun _ => exceeds T field) fun _ => rfl,
    ← dependsOnDeclared_exceeds_iff, dependsOnDeclared_iff]
  exact ⟨fun h => h 0 (by omega), fun h _ _ => h⟩

end Threshold
end Api
end ApexEngine
