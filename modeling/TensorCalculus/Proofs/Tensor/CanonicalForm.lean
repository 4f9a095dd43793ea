import TensorCalculus.CommandLine.Report
import TensorCalculus.Proofs.Tensor.Classes

/-! The canonical form of an index. Ordering the slot pairs round after round comes to an end; an
array with the declared symmetry takes at an index the value it takes at the canonical one, up to
the sign; and the canonical index is in order. -/
namespace TensorCalculus

variable {rank j i : Nat} {result : Sign × IndexVector} {index : IndexVector}

open List Layout SlotPair

namespace Sign

variable {R : Type*} [AddGroup R]

def scale : Sign → R → R
  | plus, v => v
  | minus, v => -v
  | zero, _ => 0

theorem scale_along (odd : Bool) (v : R) : (plus.along odd).scale v = if odd then -v else v := by
  cases odd <;> rfl

theorem scale_along_scale_along (odd odd' : Bool) (v : R) :
    (plus.along odd').scale ((plus.along odd).scale v) = (plus.along (odd ^^ odd')).scale v := by
  cases odd <;> cases odd' <;> simp [along, flip, scale]

end Sign

namespace SlotPair

variable {ps : List SlotPair} {p : SlotPair} {sign : Sign} {x : IndexVector}

def within (rank : Nat) (ps : List SlotPair) : List SlotPair :=
  ps.filter (·.second < rank)

theorem mem_within : p ∈ within rank ps ↔ p ∈ ps ∧ p.second < rank := by
  simp [within]

theorem inside_within (hps : ∀ p ∈ ps, p.first < p.second) (rank : Nat) :
    Inside (within rank ps) rank := by
  intro p hp
  rw [mem_within] at hp
  exact ⟨hps p hp.1, hp.2⟩

theorem order_of_length_le (h : x.length ≤ p.second) (sign : Sign) :
    p.order sign x = some (sign, x) := by
  rw [order, getElem?_eq_none h]
  split
  · next hnone => cases hnone
  · rfl

theorem orderAll_within (ps : List SlotPair) (sign : Sign) (hx : x.length = rank) :
    orderAll (within rank ps) sign x = orderAll ps sign x := by
  induction ps generalizing sign x with
  | nil => rfl
  | cons p ps ih =>
    by_cases hp : p.second < rank
    · rw [within, filter_cons_of_pos (by simpa using hp), orderAll, orderAll]
      split
      · next horder => exact ih _ ((order_perm horder).length_eq.trans hx)
      · rfl
    · rw [within, filter_cons_of_neg (by simpa using hp), orderAll, order_of_length_le (by omega)]
      exact ih sign hx

theorem settle_within (rounds : Nat) (sign : Sign) (hx : x.length = rank) :
    settle (within rank ps) rounds sign x = settle ps rounds sign x := by
  induction rounds generalizing sign x with
  | zero => rfl
  | succ rounds ih =>
    have hlength := (orderAll_perm ps sign x).length_eq.trans hx
    rw [settle, settle, orderAll_within ps sign hx, ih _ hlength]

end SlotPair

namespace Symmetry

variable {s : Symmetry} {x : IndexVector}

theorem canonicalize_reduces_within (hs : s.Ordered) (x : IndexVector) :
    SlotPair.Reduces (within x.length (s.exchanges x.length)) x (s.canonicalize x) := by
  by_cases hperm : s = permutation
  · subst hperm
    have hall : within x.length (permutation.exchanges x.length) = allPairs x.length := by
      refine filter_eq_self.mpr fun p hp => ?_
      exact decide_eq_true (mem_allPairs.mp hp).2.1
    rw [hall]
    exact permutation_reduces x
  · rw [slotPairs_eq_exchanges hperm]
    have hsame : (pairs (within x.length s.slotPairs)).canonicalize x = s.canonicalize x := by
      rw [canonicalize, canonicalize, if_neg (by simp), if_neg hperm]
      exact settle_within _ _ rfl
    rw [← hsame]
    exact canonicalize_reduces (s := pairs _) (inside_within hs _)

/-- Each declared exchange that lies inside the rank keeps the array or changes its sign. -/
def Governs {R : Type*} [AddGroup R] (s : Symmetry) (rank dimension : Nat) (A : IndexVector → R) :
    Prop :=
  ∀ p ∈ s.exchanges rank, p.second < rank → ∀ x ∈ indices rank dimension,
    A (p.exchange x) = if p.antisymmetric then -A x else A x

end Symmetry

namespace SlotPair

variable {R : Type*} [AddGroup R] {ps : List SlotPair} {odd : Bool} {x y : IndexVector}
  {A : IndexVector → R} {dimension : Nat}

section

variable (h : Related ps odd x y) (hps : Inside ps x.length)
include h hps

theorem Related.mem_indices (hx : x ∈ indices rank dimension) :
    y ∈ indices rank dimension := by
  have hperm := h.perm hps
  rw [Layout.mem_indices] at hx ⊢
  exact ⟨hperm.length_eq.trans hx.1, fun i hi => hx.2 i (hperm.mem_iff.mp hi)⟩

theorem Related.value (hA : ∀ p ∈ ps, ∀ z ∈ indices x.length dimension,
      A (p.exchange z) = if p.antisymmetric then -A z else A z)
    (hx : x ∈ indices x.length dimension) : A y = (Sign.plus.along odd).scale (A x) := by
  induction h with
  | refl => rfl
  | exchange hrelated hp ih =>
    rw [hA _ hp _ (hrelated.mem_indices hps hx), ← Sign.scale_along, ih hps hA hx,
      Sign.scale_along_scale_along]

end

theorem Repeats.value_eq_zero [IsAddTorsionFree R] (h : Repeats ps y) (hps : Inside ps y.length)
    (hA : ∀ p ∈ ps, A (p.exchange y) = if p.antisymmetric then -A y else A y) : A y = 0 := by
  obtain ⟨p, hp, hanti, heq⟩ := h
  have hfixed : p.exchange y = y := by
    obtain ⟨hslots, hlength⟩ := hps p hp
    refine IndexVector.ext_getD (length_exchange ..) fun k => ?_
    rw [exchange, IndexVector.getD_exchange (hslots.trans hlength) hlength, Equiv.swap_apply_def]
    split
    · next hk => rw [hk, heq]
    · split
      · next hk => rw [hk, heq]
      · rfl
  have hneg := hA p hp
  rw [hfixed, if_pos hanti] at hneg
  exact self_eq_neg.mp hneg

theorem Reduces.value [IsAddTorsionFree R] (h : Reduces ps x result) (hps : Inside ps x.length)
    (hA : ∀ p ∈ ps, ∀ z ∈ indices x.length dimension,
      A (p.exchange z) = if p.antisymmetric then -A z else A z)
    (hx : x ∈ indices x.length dimension) : A x = result.1.scale (A result.2) := by
  cases h with
  | @vanishing odd y hrelated hrepeats z =>
    have hy := hrelated.mem_indices hps hx
    have hzero := hrepeats.value_eq_zero (by rw [hrelated.length_eq]; exact hps)
      fun p hp => hA p hp y hy
    have hvalue := hrelated.value hps hA hx
    rw [hzero] at hvalue
    cases odd with
    | false => exact hvalue.symm
    | true => exact neg_eq_zero.mp hvalue.symm
  | @settled odd y hrelated hsettled =>
    rw [hrelated.value hps hA hx, Sign.scale_along_scale_along, Bool.xor_self]
    rfl

theorem Reduces.settled_of_ne_zero (h : Reduces ps x result) (hsign : result.1 ≠ .zero) :
    Settled ps result.2 := by
  cases h with
  | vanishing => exact absurd rfl hsign
  | settled _ hy => exact hy

end SlotPair

namespace Symmetry

variable {s : Symmetry} {x : IndexVector}

theorem Governs.value {R : Type*} [AddGroup R] [IsAddTorsionFree R] {dimension : Nat}
    {A : IndexVector → R} (hA : s.Governs x.length dimension A) (hs : s.Ordered)
    (hx : x ∈ indices x.length dimension) :
    A x = (s.canonicalize x).1.scale (A (s.canonicalize x).2) := by
  have hexchanges : ∀ p ∈ s.exchanges x.length, p.first < p.second := by
    intro p hp
    by_cases hperm : s = permutation
    · subst hperm
      exact (mem_allPairs.mp hp).1
    · rw [slotPairs_eq_exchanges hperm] at hp
      exact hs p hp
  refine (canonicalize_reduces_within hs x).value (inside_within hexchanges _) ?_ hx
  intro p hp
  rw [mem_within] at hp
  exact hA p hp.1 hp.2

/-- A canonical index is in order at every pair inside it, and strictly so at the antisymmetric
ones. -/
theorem canonicalize_in_order (hs : s.Ordered) (h : (s.canonicalize x).1 ≠ .zero) {p : SlotPair}
    (hp : p ∈ s.exchanges x.length) (hinside : p.second < x.length) :
    if p.antisymmetric then
      (s.canonicalize x).2.getD p.first 0 < (s.canonicalize x).2.getD p.second 0
    else (s.canonicalize x).2.getD p.first 0 ≤ (s.canonicalize x).2.getD p.second 0 := by
  obtain ⟨hle, hne⟩ := (canonicalize_reduces_within hs x).settled_of_ne_zero h p
    (mem_within.mpr ⟨hp, hinside⟩)
  split
  · next hanti => exact Nat.lt_of_le_of_ne hle (hne hanti)
  · exact hle

theorem canonicalize_pairwise (h : (permutation.canonicalize x).1 ≠ .zero) :
    (permutation.canonicalize x).2.Pairwise (· < ·) := by
  have hlength := (permutation.canonicalize_perm x).length_eq
  refine pairwise_iff_getElem.mpr fun i j hi hj hij => ?_
  have horder := canonicalize_in_order (s := permutation) (p := ⟨i, j, true⟩) (forall_mem_nil _)
    h (mem_allPairs.mpr ⟨hij, hlength ▸ hj, rfl⟩) (hlength ▸ hj)
  rw [if_pos rfl, getD_eq_getElem _ _ hi, getD_eq_getElem _ _ hj] at horder
  exact horder

end Symmetry

namespace Layout

variable {dimension : Nat}

theorem pairwise_indices (rank dimension : Nat) : (indices rank dimension).Pairwise (· < ·) := by
  induction rank with
  | zero => exact pairwise_singleton ..
  | succ rank ih =>
    rw [indices, pairwise_flatMap]
    refine ⟨fun i _ => ?_, pairwise_lt_range.imp fun {i j} hij => ?_⟩
    · rw [pairwise_map]
      exact ih.imp fun h => List.Lex.cons h
    · intro x hx y hy
      obtain ⟨x, -, rfl⟩ := mem_map.mp hx
      obtain ⟨y, -, rfl⟩ := mem_map.mp hy
      exact List.Lex.rel hij

theorem offsetFrom_lt_of_lt {x y : IndexVector} (h : x < y) (hlength : x.length = y.length)
    (hx : ∀ i ∈ x, i < dimension) (a : Nat) :
    offsetFrom dimension a x < offsetFrom dimension a y := by
  have hlex : List.Lex (· < ·) x y := h
  clear h
  induction hlex generalizing a with
  | nil => cases hlength
  | @cons i x y _ ih =>
    rw [forall_mem_cons] at hx
    exact ih (Nat.succ.inj hlength) hx.2 _
  | @rel i x j y hij =>
    rw [forall_mem_cons] at hx
    have hless := offsetFrom_lt (Nat.add_lt_add_left hij (a * dimension)) hx.2
    rw [offsetFrom, offsetFrom, offsetFrom_eq dimension (a * dimension + j), ← Nat.succ.inj hlength]
    omega

theorem countP_indices_succ (p : IndexVector → Bool) :
    (indices (rank + 1) dimension).countP p =
      ((List.range dimension).map fun i =>
        (indices rank dimension).countP fun x => p (i :: x)).sum := by
  rw [indices, countP_flatMap]
  congr 1
  refine map_congr_left fun i _ => ?_
  rw [Function.comp_apply, countP_map]
  rfl

theorem sum_map_mul_countP {c : Nat} (q : Nat → Bool) (xs : List Nat) :
    (xs.map fun i => if q i then c else 0).sum = c * xs.countP q := by
  induction xs with
  | nil => rfl
  | cons i xs ih =>
    rw [map_cons, sum_cons, ih, countP_cons]
    split
    · rw [Nat.mul_add, Nat.mul_one, Nat.add_comm]
    · rw [Nat.zero_add, Nat.add_zero]

theorem countP_entry (q : Nat → Bool) (hj : j < rank) :
    (indices rank dimension).countP (fun x => q (x.getD j 0)) =
      dimension ^ (rank - 1) * (List.range dimension).countP q := by
  induction rank generalizing j with
  | zero => exact absurd hj (Nat.not_lt_zero j)
  | succ rank ih =>
    rw [countP_indices_succ, Nat.add_sub_cancel]
    cases j with
    | zero =>
      rw [← sum_map_mul_countP]
      congr 1
      refine map_congr_left fun i _ => ?_
      rw [← length_indices rank dimension]
      simp only [getD_cons_zero]
      cases q i with
      | false => exact congrFun countP_false _
      | true => exact congrFun countP_true _
    | succ j =>
      simp only [getD_cons_succ]
      rw [ih (Nat.lt_of_succ_lt_succ hj), map_const', sum_replicate_nat,
        length_range, ← Nat.mul_assoc, ← Nat.pow_succ',
        show (rank - 1).succ = rank by omega]

theorem countP_entries (q : Nat → Nat → Bool) (hij : i < j) (hj : j < rank) :
    (indices rank dimension).countP (fun x => q (x.getD i 0) (x.getD j 0)) =
      dimension ^ (rank - 2) *
        ((List.range dimension).map fun a => (List.range dimension).countP (q a)).sum := by
  induction rank generalizing i j with
  | zero => exact absurd hj (Nat.not_lt_zero j)
  | succ rank ih =>
    obtain ⟨j, rfl⟩ := Nat.exists_eq_succ_of_ne_zero (Nat.ne_zero_of_lt hij)
    rw [countP_indices_succ]
    cases i with
    | zero =>
      simp only [getD_cons_zero, getD_cons_succ]
      rw [← sum_map_mul_left]
      congr 1
      refine map_congr_left fun a _ => ?_
      exact countP_entry (q a) (Nat.lt_of_succ_lt_succ hj)
    | succ i =>
      simp only [getD_cons_succ]
      rw [ih (Nat.lt_of_succ_lt_succ hij) (Nat.lt_of_succ_lt_succ hj), map_const',
        sum_replicate_nat, length_range, ← Nat.mul_assoc, ← Nat.pow_succ',
        show (rank - 2).succ = rank + 1 - 2 by omega]

end Layout

section Entries

theorem countP_le_range (n a : Nat) : (List.range n).countP (a ≤ ·) = n - a := by
  induction n with
  | zero => exact (Nat.zero_sub a).symm
  | succ n ih =>
    simp only [range_succ, countP_append, ih, countP_singleton, decide_eq_true_eq]
    split <;> omega

theorem countP_lt_range (n a : Nat) : (List.range n).countP (a < ·) = n - 1 - a := by
  rw [Nat.sub_right_comm, Nat.sub_sub]
  exact countP_le_range n (a + 1)

theorem sum_range_sub (n : Nat) : 2 * ((List.range n).map (n - ·)).sum = n * (n + 1) := by
  induction n with
  | zero => rfl
  | succ n ih =>
    rw [range_succ_eq_map, map_cons, sum_cons, map_map, Nat.mul_add]
    simp only [Function.comp_def, Nat.succ_eq_add_one, Nat.add_sub_add_right, Nat.sub_zero]
    rw [ih]
    ring

theorem sum_countP_le (n : Nat) :
    ((List.range n).map fun a => (List.range n).countP (a ≤ ·)).sum = n * (n + 1) / 2 := by
  simp only [countP_le_range]
  have hdouble := sum_range_sub n
  omega

theorem sum_countP_lt (n : Nat) :
    ((List.range n).map fun a => (List.range n).countP (a < ·)).sum = n * (n - 1) / 2 := by
  simp only [countP_lt_range]
  cases n with
  | zero => rfl
  | succ n =>
    have hdouble := sum_range_sub n
    rw [range_succ, map_append, sum_append, map_singleton, sum_singleton,
      Nat.add_sub_cancel, Nat.sub_self, Nat.mul_comm]
    omega

end Entries

namespace Symmetry

variable {dimension : Nat} {x : IndexVector}

theorem isCanonical_none (x : IndexVector) : none.isCanonical x := by
  have hsettled : SlotPair.Settled none.slotPairs x := forall_mem_nil _
  unfold isCanonical
  rw [canonicalize_of_settled (by decide) hsettled]
  simp

theorem isCanonical_pair (hij : i < j) (hj : j < x.length) (antisymmetric : Bool) :
    (pairs [⟨i, j, antisymmetric⟩]).isCanonical x ↔
      if antisymmetric then x.getD i 0 < x.getD j 0 else x.getD i 0 ≤ x.getD j 0 := by
  have hs : (pairs [⟨i, j, antisymmetric⟩]).Ordered := forall_mem_singleton.mpr hij
  constructor
  · intro h
    obtain ⟨hsign, hcanonical⟩ := canonicalize_of_isCanonical h
    have horder := canonicalize_in_order hs hsign (mem_singleton_self _) hj
    rwa [hcanonical] at horder
  · intro h
    have hsettled : SlotPair.Settled [⟨i, j, antisymmetric⟩] x := by
      refine forall_mem_singleton.mpr ?_
      cases antisymmetric with
      | false => exact ⟨h, nofun⟩
      | true => exact ⟨Nat.le_of_lt h, fun _ => Nat.ne_of_lt h⟩
    unfold isCanonical
    rw [canonicalize_of_settled (s := pairs _) nofun hsettled]
    simp

theorem isCanonical_permutation : permutation.isCanonical x ↔ x.Pairwise (· < ·) := by
  constructor
  · intro h
    obtain ⟨hsign, hcanonical⟩ := canonicalize_of_isCanonical h
    have hstrict := canonicalize_pairwise hsign
    rwa [hcanonical] at hstrict
  · intro h
    have hsorted : x.Pairwise (· ≤ ·) := h.imp Nat.le_of_lt
    have hnodup : x.Nodup := h.imp Nat.ne_of_lt
    have hcanonical : permutation.canonicalize x = (.plus, x) := by
      rw [canonicalize, if_pos rfl, mergeSort_of_pairwise (hsorted.imp decide_eq_true), parity,
        if_pos hnodup, inversions_eq_zero hsorted]
      rfl
    unfold isCanonical
    rw [hcanonical]
    simp

theorem length_distinctIndices_none (rank dimension : Nat) :
    (none.distinctIndices rank dimension).length = dimension ^ rank := by
  rw [distinctIndices, filter_eq_self.mpr fun x _ => isCanonical_none x, length_indices]

theorem length_distinctIndices_pair (hij : i < j) (hj : j < rank) (antisymmetric : Bool) :
    ((pairs [⟨i, j, antisymmetric⟩]).distinctIndices rank dimension).length =
      dimension ^ (rank - 2) *
        (if antisymmetric then dimension * (dimension - 1) / 2
          else dimension * (dimension + 1) / 2) := by
  have hcanonical : ∀ x ∈ indices rank dimension,
      (pairs [⟨i, j, antisymmetric⟩]).isCanonical x ↔
        (if antisymmetric then decide (x.getD i 0 < x.getD j 0)
          else decide (x.getD i 0 ≤ x.getD j 0)) := by
    intro x hx
    rw [isCanonical_pair hij ((mem_indices.mp hx).1 ▸ hj)]
    cases antisymmetric <;> simp
  rw [distinctIndices, ← countP_eq_length_filter, countP_congr hcanonical]
  cases antisymmetric with
  | false => exact (countP_entries (· ≤ ·) hij hj).trans (by rw [sum_countP_le]; rfl)
  | true => exact (countP_entries (· < ·) hij hj).trans (by rw [sum_countP_lt]; rfl)

theorem length_distinctIndices_permutation (rank dimension : Nat) :
    (permutation.distinctIndices rank dimension).length = dimension.choose rank := by
  have hperm : (permutation.distinctIndices rank dimension).Perm
      ((List.range dimension).sublistsLen rank) := by
    refine (perm_ext_iff_of_nodup ((nodup_indices rank dimension).filter _)
      (nodup_sublistsLen rank nodup_range)).mpr fun x => ?_
    rw [mem_filter, isCanonical_permutation, mem_indices, mem_sublistsLen]
    constructor
    · rintro ⟨⟨hlength, hentries⟩, hstrict⟩
      have hsubset : x ⊆ List.range dimension := fun i hi => mem_range.mpr (hentries i hi)
      exact ⟨sublist_of_subperm_of_pairwise
        (subperm_of_subset (hstrict.imp Nat.ne_of_lt) hsubset) (hstrict.imp Nat.le_of_lt)
        (pairwise_lt_range.imp Nat.le_of_lt), hlength⟩
    · rintro ⟨hsublist, hlength⟩
      exact ⟨⟨hlength, fun i hi => mem_range.mp (hsublist.subset hi)⟩,
        pairwise_lt_range.sublist hsublist⟩
  rw [hperm.length_eq, length_sublistsLen, length_range]

/-- The independent components come in row-major order, and there are as many of them as each kind
of symmetry leaves. -/
theorem distinctIndices_law (rank dimension : Nat) :
    (∀ s : Symmetry, (s.distinctIndices rank dimension).Pairwise fun x y =>
      x < y ∧ Layout.offsetFrom dimension 0 x < Layout.offsetFrom dimension 0 y) ∧
    (none.distinctIndices rank dimension).length = dimension ^ rank ∧
    (∀ i j, i < j → j < rank →
      ((pairs [⟨i, j, false⟩]).distinctIndices rank dimension).length =
        dimension ^ (rank - 2) * (dimension * (dimension + 1) / 2) ∧
      ((pairs [⟨i, j, true⟩]).distinctIndices rank dimension).length =
        dimension ^ (rank - 2) * (dimension * (dimension - 1) / 2)) ∧
    (permutation.distinctIndices rank dimension).length = dimension.choose rank := by
  refine ⟨fun s => ?_, length_distinctIndices_none rank dimension, fun i j hij hj =>
    ⟨length_distinctIndices_pair hij hj false, length_distinctIndices_pair hij hj true⟩,
    length_distinctIndices_permutation rank dimension⟩
  refine ((pairwise_indices rank dimension).filter _).imp_of_mem fun {x y} hx hy hlt => ?_
  have hx := mem_indices.mp (List.mem_of_mem_filter hx)
  have hy := mem_indices.mp (List.mem_of_mem_filter hy)
  exact ⟨hlt, offsetFrom_lt_of_lt hlt (hx.1.trans hy.1.symm) hx.2 0⟩

/-- Rank three in four dimensions. -/
theorem distinctIndices_law_three_four :
    ((pairs [⟨0, 2, true⟩]).distinctIndices 3 4).length = 24 ∧
      ((pairs [⟨1, 2, false⟩]).distinctIndices 3 4).length = 40 ∧
      (permutation.distinctIndices 3 4).length = 4 :=
  ⟨((distinctIndices_law 3 4).2.2.1 0 2 (by decide) (by decide)).2,
    ((distinctIndices_law 3 4).2.2.1 1 2 (by decide) (by decide)).1,
    (distinctIndices_law 3 4).2.2.2⟩

end Symmetry

/-! One layout for all uses of a component array. The indices are listed in the order of their
positions, reading and writing by index agree with the list, and nested brackets and nested arrays
have each component at the path of its index. -/

open Option

namespace Layout

variable {dimension : Nat} {k : Nat}

theorem offset?_eq_none (h : index ∉ indices rank dimension) :
    offset? rank dimension index = none := by
  rw [mem_indices] at h
  rw [offset?, if_neg]
  simpa using h

end Layout

/-- Nested lists with texts at the ends. -/
inductive Nested where
  | entry (text : String)
  | list (items : List Nested)

namespace Nested

mutual

/-- Lists stand in brackets, with commas between the items. -/
def text : Nested → String
  | entry text => text
  | list items => "[" ++ ", ".intercalate (texts items) ++ "]"

def texts : List Nested → List String
  | [] => []
  | x :: xs => x.text :: texts xs

end

end Nested

namespace Tensor

variable {t : Tensor} {β γ : Type} {leaf : Expr → β} {node : List β → β}
  {item? : β → Nat → Option β}

section Nested

end Nested

theorem Full.get?_set_apply (ht : t.Full) (h : index ∈ indices t.rank t.dimension) (e : Expr)
    (other : IndexVector) :
    (t.set index e).get? other = if other = index then some e else t.get? other := by
  by_cases hother : other ∈ indices t.rank t.dimension
  · rw [get?_set ht h hother]
    simp only [eq_comm]
  · rw [if_neg (fun heq : other = index => hother (heq ▸ h)), get?, get?, rank_set, dimension_set,
      offset?_eq_none hother]
    rfl

theorem set_of_not_mem (h : index ∉ indices t.rank t.dimension) (e : Expr) :
    t.set index e = t := by
  rw [set, offset?_eq_none h]

end Tensor

end TensorCalculus
