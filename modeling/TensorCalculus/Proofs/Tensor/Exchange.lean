import Mathlib.Algebra.Group.Nat.Defs
import Mathlib.Data.List.Basic
import Mathlib.Data.List.Flatten
import Mathlib.Data.List.GetD
import Mathlib.GroupTheory.Perm.Sign
import Mathlib.Tactic.Ring
import TensorCalculus.Proofs.Text.Slice
import TensorCalculus.Tensor.Matrix

/-! Components by position and by symmetry. Different index vectors have different positions,
a canonical index is its own canonical index, and filling in the aliases gives every
component what follows for it from its canonical one. -/
namespace TensorCalculus

open List Layout SlotPair

variable {rank dimension : Nat} {index other : IndexVector} {t : Tensor} {sign : Sign}
  {p : SlotPair} {naming : ComponentNaming} {name : String} {sign' : Sign} {odd : Bool}

namespace Layout

theorem mem_indices :
    index ∈ indices rank dimension ↔ index.length = rank ∧ ∀ i ∈ index, i < dimension := by
  induction rank generalizing index with
  | zero =>
    rw [indices, mem_singleton, length_eq_zero_iff]
    constructor
    · rintro rfl
      exact ⟨rfl, nofun⟩
    · exact And.left
  | succ rank ih =>
    cases index with
    | nil => simp [indices]
    | cons i index =>
      simp only [indices, mem_flatMap, mem_range, mem_map, List.cons.injEq,
        length_cons, Nat.add_right_cancel_iff, forall_mem_cons]
      constructor
      · rintro ⟨j, hj, rest, hrest, rfl, rfl⟩
        exact ⟨(ih.mp hrest).1, hj, (ih.mp hrest).2⟩
      · rintro ⟨hlength, hi, hrest⟩
        exact ⟨i, hi, index, ih.mpr ⟨hlength, hrest⟩, rfl, rfl⟩

theorem offsetFrom_injective {is js : IndexVector} {a b : Nat} (hlength : is.length = js.length)
    (his : ∀ i ∈ is, i < dimension) (hjs : ∀ j ∈ js, j < dimension)
    (h : offsetFrom dimension a is = offsetFrom dimension b js) : a = b ∧ is = js := by
  induction is generalizing js a b with
  | nil =>
    cases js with
    | nil => exact ⟨h, rfl⟩
    | cons j js => cases hlength
  | cons i is ih =>
    cases js with
    | nil => cases hlength
    | cons j js =>
      rw [forall_mem_cons] at his hjs
      obtain ⟨hdigit, rfl⟩ := ih (Nat.succ.inj hlength) his.2 hjs.2 h
      have hdiv (c k : Nat) (hk : k < dimension) : (c * dimension + k) / dimension = c := by
        rw [Nat.mul_comm, Nat.mul_add_div (by omega), Nat.div_eq_of_lt hk, Nat.add_zero]
      have hab : a = b := by
        rw [← hdiv a i his.1, hdigit, hdiv b j hjs.1]
      subst hab
      exact ⟨rfl, by rw [Nat.add_left_cancel hdigit]⟩

theorem offsetFrom_lt {a b : Nat} (ha : a < b) (h : ∀ i ∈ index, i < dimension) :
    offsetFrom dimension a index < b * dimension ^ index.length := by
  induction index generalizing a b with
  | nil => simpa [offsetFrom] using ha
  | cons i index ih =>
    rw [forall_mem_cons] at h
    have hstep : a * dimension + i < b * dimension := by
      have : (a + 1) * dimension ≤ b * dimension := Nat.mul_le_mul_right dimension ha
      rw [Nat.succ_mul] at this
      omega
    rw [offsetFrom, length_cons, Nat.pow_succ', ← Nat.mul_assoc]
    exact ih hstep h.2

theorem offset?_eq_some (h : index ∈ indices rank dimension) :
    offset? rank dimension index = some (offsetFrom dimension 0 index) := by
  rw [mem_indices] at h
  unfold offset?
  rw [if_pos]
  simpa using h

end Layout

namespace Tensor

def Full (t : Tensor) : Prop :=
  t.components.size = t.dimension ^ t.rank

theorem full_zeros (rank dimension : Nat) : (zeros rank dimension).Full :=
  Array.size_replicate

theorem full_scalar (e : Expr) : (scalar e).Full := rfl

@[simp] theorem rank_set (t : Tensor) (index : IndexVector) (e : Expr) :
    (t.set index e).rank = t.rank := by
  unfold set
  split <;> rfl

@[simp] theorem dimension_set (t : Tensor) (index : IndexVector) (e : Expr) :
    (t.set index e).dimension = t.dimension := by
  unfold set
  split <;> rfl

theorem Full.set (h : t.Full) (index : IndexVector) (e : Expr) : (t.set index e).Full := by
  unfold Full
  rw [rank_set, dimension_set, ← h]
  unfold Tensor.set
  split
  · exact Array.size_setIfInBounds
  · rfl

theorem Full.offset_lt (ht : t.Full) (h : index ∈ indices t.rank t.dimension) :
    offsetFrom t.dimension 0 index < t.components.size := by
  rw [mem_indices] at h
  rw [ht, ← h.1, ← Nat.one_mul (t.dimension ^ index.length)]
  exact offsetFrom_lt Nat.one_pos h.2

theorem get?_set (ht : t.Full) {e : Expr} (hindex : index ∈ indices t.rank t.dimension)
    (hother : other ∈ indices t.rank t.dimension) :
    (t.set index e).get? other = if index = other then some e else t.get? other := by
  have hi := mem_indices.mp hindex
  have hj := mem_indices.mp hother
  unfold get?
  rw [rank_set, dimension_set, offset?_eq_some hother]
  unfold set
  rw [offset?_eq_some hindex]
  change (t.components.setIfInBounds (offsetFrom t.dimension 0 index)
    e)[offsetFrom t.dimension 0 other]? =
      if index = other then some e else t.components[offsetFrom t.dimension 0 other]?
  rw [Array.getElem?_setIfInBounds]
  by_cases h : index = other
  · subst h
    rw [if_pos rfl, if_pos (ht.offset_lt hindex), if_pos rfl]
  · rw [if_neg h, if_neg]
    intro hoffset
    exact h (offsetFrom_injective (hi.1.trans hj.1.symm) hi.2 hj.2 hoffset).2

end Tensor

namespace SlotPair

variable {ps : List SlotPair}

theorem order_perm {index' : IndexVector} (h : p.order sign index = some (sign', index')) :
    index'.Perm index := by
  unfold order at h
  split at h
  · next a b ha hb =>
    obtain ⟨hfirst, rfl⟩ := List.getElem?_eq_some_iff.mp ha
    obtain ⟨hsecond, rfl⟩ := List.getElem?_eq_some_iff.mp hb
    split at h
    · cases h
    · split at h
      · cases h
        exact set_set_perm hfirst hsecond
      · cases h
        exact .refl _
  · cases h
    exact .refl _

theorem orderAll_perm (ps : List SlotPair) (sign : Sign) (index : IndexVector) :
    (orderAll ps sign index).2.Perm index := by
  induction ps generalizing sign index with
  | nil => exact .refl _
  | cons p ps ih =>
    rw [orderAll]
    split
    · next h => exact (ih _ _).trans (order_perm h)
    · exact .refl _

theorem settle_perm (rounds : Nat) (sign : Sign) (index : IndexVector) :
    (settle ps rounds sign index).2.Perm index := by
  induction rounds generalizing sign index with
  | zero => exact .refl _
  | succ rounds ih =>
    rw [settle]
    split
    · exact orderAll_perm ps sign index
    · exact (ih _ _).trans (orderAll_perm ps sign index)

theorem order_fixed (hp : p.first < p.second) (h : p.order sign index = some (sign', index))
    (other : Sign) : p.order other index = some (other, index) := by
  unfold order at h ⊢
  split at h
  · next a b ha hb =>
    split at h
    · cases h
    · next hne =>
      split at h
      · next hlt =>
        have hless := inversions_exchange_lt index _ _ ha hb hp hlt
        rw [(Prod.mk.inj (Option.some.inj h)).2] at hless
        exact absurd hless (Nat.lt_irrefl _)
      · next hle => rw [if_neg hne, if_neg hle]
  · rfl

theorem orderAll_fixed (hps : ∀ p ∈ ps, p.first < p.second)
    (hsign : (orderAll ps sign index).1 ≠ .zero) (h : (orderAll ps sign index).2 = index)
    (other : Sign) : orderAll ps other index = (other, index) := by
  induction ps generalizing sign with
  | nil => rfl
  | cons p ps ih =>
    rw [forall_mem_cons] at hps
    rw [orderAll] at hsign h
    split at h
    · next sign' index' hp =>
      rw [hp] at hsign
      -- a move would leave fewer inversions than the index has that comes out
      obtain rfl : index' = index := by
        rcases order_eq_or_inversions_lt hps.1 hp with heq | hless
        · exact (Prod.mk.inj heq).2
        · rcases orderAll_eq_or_inversions_lt hps.2 sign' index' with hz | hs | hl
          · exact absurd hz hsign
          · rw [hs] at h
            exact h
          · rw [h] at hl
            omega
      rw [orderAll, order_fixed hps.1 hp other]
      exact ih hps.2 hsign h
    · next hp =>
      rw [hp] at hsign
      exact absurd rfl hsign

end SlotPair

theorem inversions_eq_zero {xs : List Nat} (h : xs.Pairwise (· ≤ ·)) : inversions xs = 0 := by
  induction h with
  | nil => rfl
  | cons hx _ ih =>
    rw [inversions, ih, countP_eq_zero.mpr]
    intro y hy
    have := hx y hy
    simp only [decide_eq_true_eq]
    omega

namespace Symmetry

def Ordered (s : Symmetry) : Prop :=
  ∀ p ∈ s.slotPairs, p.first < p.second

theorem ordered_metric : metric.Ordered := by
  intro p hp
  obtain rfl := mem_singleton.mp hp
  exact Nat.zero_lt_one

variable {s : Symmetry}

theorem canonicalize_perm (s : Symmetry) (index : IndexVector) :
    (s.canonicalize index).2.Perm index := by
  unfold canonicalize
  split
  · exact mergeSort_perm _ _
  · exact settle_perm _ _ _

theorem canonicalize_mem_indices (s : Symmetry) (h : index ∈ indices rank dimension) :
    (s.canonicalize index).2 ∈ indices rank dimension := by
  have hperm := canonicalize_perm s index
  rw [mem_indices] at h ⊢
  exact ⟨hperm.length_eq.trans h.1, fun i hi => h.2 i (hperm.mem_iff.mp hi)⟩

section

variable (hs : s.Ordered) (h : (s.canonicalize index).1 ≠ .zero)
include hs h

theorem canonicalize_canonical :
    s.canonicalize (s.canonicalize index).2 = (.plus, (s.canonicalize index).2) := by
  by_cases hperm : s = permutation
  · have hsorted : index.mergeSort.Pairwise fun a b => (decide (a ≤ b)) = true :=
      List.pairwise_mergeSort (fun a b c hab hbc => by simp at *; omega)
        (fun a b => by simp; omega) index
    have hnodup : index.mergeSort.Nodup := by
      rw [(mergeSort_perm index _).nodup_iff]
      unfold canonicalize at h
      rw [if_pos hperm, parity] at h
      refine Decidable.byContradiction fun hdup => h ?_
      rw [if_neg hdup]
    have hle : index.mergeSort.Pairwise (· ≤ ·) := hsorted.imp fun h => of_decide_eq_true h
    unfold canonicalize
    rw [if_pos hperm, if_pos hperm]
    dsimp only
    rw [mergeSort_of_pairwise hsorted, parity, if_pos hnodup, inversions_eq_zero hle]
    rfl
  · rcases orderAll_canonicalize hperm hs index with hz | hfixed
    · exact absurd hz h
    have hplus := orderAll_fixed hs (by rw [hfixed]; exact h) (by rw [hfixed]) .plus
    generalize (s.canonicalize index).2 = canonical at hplus
    unfold canonicalize
    rw [if_neg hperm]
    obtain ⟨n, hn⟩ := Nat.exists_eq_succ_of_ne_zero
      (Nat.ne_of_gt (orderings_pos canonical.length))
    rw [hn, settle, hplus]
    simp

theorem isCanonical_canonical : s.isCanonical (s.canonicalize index).2 := by
  unfold isCanonical
  rw [canonicalize_canonical hs h]
  simp

end

end Symmetry

namespace Tensor

variable {s : Symmetry}

theorem isSome_get? (ht : t.Full) (h : index ∈ indices t.rank t.dimension) :
    (t.get? index).isSome:= by
  unfold get?
  rw [offset?_eq_some h]
  change (t.components[offsetFrom t.dimension 0 index]?).isSome
  rw [Array.getElem?_eq_getElem (ht.offset_lt h)]
  rfl

/-- What follows for a component from its canonical one. -/
def alias? (s : Symmetry) (t : Tensor) (index : IndexVector) : Option Expr :=
  if (s.canonicalize index).1 = .zero then some .zero
  else (t.get? (s.canonicalize index).2).map (s.canonicalize index).1.apply

theorem alias?_canonical (hs : s.Ordered) (t : Tensor) (h : (s.canonicalize index).1 ≠ .zero) :
    alias? s t (s.canonicalize index).2 = t.get? (s.canonicalize index).2 := by
  unfold alias?
  rw [Symmetry.canonicalize_canonical hs h, if_neg nofun]
  exact Option.map_id'

theorem fillAlias_shape (t : Tensor) (index : IndexVector) :
    (t.fillAlias s index).rank = t.rank ∧ (t.fillAlias s index).dimension = t.dimension ∧
      (t.Full → (t.fillAlias s index).Full) := by
  unfold fillAlias
  dsimp only
  split
  · exact ⟨rank_set .., dimension_set .., fun h => h.set _ _⟩
  · split
    · exact ⟨rfl, rfl, id⟩
    · split
      · exact ⟨rank_set .., dimension_set .., fun h => h.set _ _⟩
      · exact ⟨rfl, rfl, id⟩

section

variable (hs : s.Ordered) (ht : t.Full) (hindex : index ∈ indices t.rank t.dimension)
  (hother : other ∈ indices t.rank t.dimension)
include hs ht hindex hother

theorem get?_fillAlias :
    (t.fillAlias s index).get? other =
      if index = other then alias? s t index else t.get? other := by
  unfold fillAlias
  dsimp only
  by_cases hz : (s.canonicalize index).1 = .zero
  · rw [if_pos (beq_iff_eq.mpr hz), get?_set ht hindex hother, alias?, if_pos hz]
  rw [if_neg (fun h => hz (beq_iff_eq.mp h))]
  by_cases hcanonical : (s.canonicalize index).2 = index
  · rw [if_pos (beq_iff_eq.mpr hcanonical)]
    split
    · next heq =>
      have := alias?_canonical hs t hz
      rw [hcanonical] at this
      rw [this, heq]
    · rfl
  · rw [if_neg (fun h => hcanonical (beq_iff_eq.mp h))]
    have hsome := isSome_get? ht (s.canonicalize_mem_indices hindex)
    obtain ⟨e, he⟩ := Option.isSome_iff_exists.mp hsome
    rw [he]
    dsimp only
    rw [get?_set ht hindex hother, alias?, if_neg hz, he]
    rfl

theorem alias?_fillAlias : alias? s (t.fillAlias s index) other = alias? s t other := by
  by_cases hz : (s.canonicalize other).1 = .zero
  · rw [alias?, alias?, if_pos hz, if_pos hz]
  rw [alias?, alias?, if_neg hz, if_neg hz,
    get?_fillAlias hs ht hindex (s.canonicalize_mem_indices hother)]
  split
  · next heq => rw [heq, alias?_canonical hs t hz]
  · rfl

end

theorem get?_foldl_fillAlias (hs : s.Ordered) (indices : List IndexVector) (ht : t.Full)
    (hindices : ∀ index ∈ indices, index ∈ Layout.indices t.rank t.dimension)
    (hother : other ∈ Layout.indices t.rank t.dimension) :
    (indices.foldl (fillAlias s) t).get? other =
      if other ∈ indices then alias? s t other else t.get? other := by
  induction indices generalizing t with
  | nil => rfl
  | cons index indices ih =>
    rw [forall_mem_cons] at hindices
    obtain ⟨hrank, hdimension, hfull⟩ := fillAlias_shape (s := s) t index
    rw [foldl_cons, ih (hfull ht) (by rw [hrank, hdimension]; exact hindices.2)
      (by rw [hrank, hdimension]; exact hother), alias?_fillAlias hs ht hindices.1 hother,
      get?_fillAlias hs ht hindices.1 hother]
    by_cases hmem : other ∈ indices
    · rw [if_pos hmem, if_pos (mem_cons_of_mem _ hmem)]
    · rw [if_neg hmem]
      by_cases heq : index = other
      · rw [if_pos heq, heq, if_pos mem_cons_self]
      · rw [if_neg heq, if_neg]
        intro h
        exact (mem_cons.mp h).elim (fun h => heq h.symm) hmem

theorem get?_fillAliases (hs : s.Ordered) (ht : t.Full)
    (h : index ∈ indices t.rank t.dimension) :
    (t.fillAliases s).get? index = alias? s t index := by
  rw [fillAliases, get?_foldl_fillAlias hs _ ht (fun _ h => h) h, if_pos h]

theorem mem_components_symbolic (hs : s.Ordered) (hrank : rank ≠ 0) {c : Expr}
    (hc : c ∈ (symbolic name rank dimension s naming).components) :
    c = .zero ∨ ∃ sign, ∃ index ∈ s.distinctIndices rank dimension,
      c = Sign.apply sign (.sym (componentName name index dimension naming)) := by
  unfold symbolic at hc
  rw [if_neg hrank, ofFn, mem_toArray] at hc
  obtain ⟨index, hindex, rfl⟩ := mem_map.mp hc
  by_cases hz : (s.canonicalize index).1 = .zero
  · refine .inl ?_
    change (s.canonicalize index).1.apply _ = _
    rw [hz]
    rfl
  · refine .inr ⟨(s.canonicalize index).1, (s.canonicalize index).2, ?_, rfl⟩
    exact mem_filter.mpr
      ⟨s.canonicalize_mem_indices hindex, Symmetry.isCanonical_canonical hs hz⟩

end Tensor

namespace Layout

theorem length_indices (rank dimension : Nat) :
    (indices rank dimension).length = dimension ^ rank := by
  induction rank with
  | zero => rfl
  | succ rank ih =>
    simp only [indices, length_flatMap, length_map, ih, map_const', sum_replicate_nat, length_range]
    rw [Nat.pow_succ, Nat.mul_comm]

theorem offsetFrom_eq (dimension acc : Nat) (index : IndexVector) :
    offsetFrom dimension acc index = acc * dimension ^ index.length + offsetFrom dimension 0 index := by
  induction index generalizing acc with
  | nil => simp [offsetFrom]
  | cons i is ih =>
    rw [offsetFrom, offsetFrom, ih (acc * dimension + i), ih (0 * dimension + i), length_cons,
      Nat.pow_succ]
    ring

theorem isSome_componentCount? {rank dimension : Nat} (hrank : rank ≤ 20) (hpos : 0 < dimension) :
    (componentCount? rank dimension).isSome ↔ dimension ^ rank ≤ maxComponents := by
  rw [componentCount?, if_neg (by omega)]
  by_cases hone : dimension ≤ 1
  · obtain rfl : dimension = 1 := by omega
    rw [if_pos hone, Nat.one_pow]
    simp [maxComponents]
  · rw [if_neg hone, if_neg (by omega)]
    change (if dimension ^ rank ≤ maxComponents then some (dimension ^ rank) else none).isSome ↔ _
    split
    · next h => simp [h]
    · next h => simp [h]

theorem getElem?_flatMap {α β : Type} {f : α → List β} {length : Nat} {xs : List α}
    (h : ∀ x ∈ xs, (f x).length = length) {i j : Nat} (hj : j < length) {x : α}
    (hx : xs[i]? = some x) : (xs.flatMap f)[i * length + j]? = (f x)[j]? := by
  induction xs generalizing i with
  | nil => simp at hx
  | cons y ys ih =>
    rw [forall_mem_cons] at h
    rw [flatMap_cons]
    cases i with
    | zero =>
      obtain rfl : y = x := by simpa using hx
      rw [Nat.zero_mul, Nat.zero_add, getElem?_append_left (by rw [h.1]; exact hj)]
    | succ i =>
      rw [getElem?_cons_succ] at hx
      rw [getElem?_append_right (by rw [h.1, Nat.succ_mul]; omega), h.1, ← ih h.2 hx, Nat.succ_mul]
      congr 1
      omega

theorem getElem?_indices {rank dimension : Nat} {index : IndexVector}
    (h : index ∈ indices rank dimension) :
    (indices rank dimension)[offsetFrom dimension 0 index]? = some index := by
  induction rank generalizing index with
  | zero =>
    obtain rfl := mem_singleton.mp h
    rfl
  | succ rank ih =>
    obtain ⟨i, hi, hrest⟩ := mem_flatMap.mp h
    obtain ⟨is, his, rfl⟩ := mem_map.mp hrest
    have hlength : is.length = rank := (mem_indices.mp his).1
    have hlt : offsetFrom dimension 0 is < dimension ^ rank := by
      have := List.getElem?_eq_some_iff.mp (ih his)
      rw [← length_indices]
      exact this.1
    rw [offsetFrom, offsetFrom_eq, hlength, Nat.zero_mul, Nat.zero_add, indices,
      getElem?_flatMap (fun x _ => by rw [length_map, length_indices]) hlt
        (getElem?_range (mem_range.mp hi)), getElem?_map, ih his]
    rfl

end Layout

namespace Tensor

section OfFn

variable {f : IndexVector → Expr}

theorem full_ofFn (rank dimension : Nat) (f : IndexVector → Expr) : (ofFn rank dimension f).Full := by
  unfold Full ofFn
  rw [size_toArray, length_map, length_indices]

theorem get?_ofFn (h : index ∈ indices rank dimension) :
    (ofFn rank dimension f).get? index = some (f index) := by
  change (offset? rank dimension index).bind
    (((indices rank dimension).map f).toArray[·]?) = _
  rw [offset?_eq_some h, Option.bind_some, getElem?_toArray, getElem?_map,
    getElem?_indices h]
  rfl

theorem get_ofFn (h : index ∈ indices rank dimension) :
    (ofFn rank dimension f).get index = f index := by
  rw [get, get?_ofFn h]
  rfl

theorem entries_ofFn (rank dimension : Nat) (f : IndexVector → Expr) :
    (ofFn rank dimension f).entries =
      (indices rank dimension).map fun index => (index, f index) := by
  change (indices rank dimension).zip ((indices rank dimension).map f) = _
  exact map_prod_left_eq_zip.symm

end OfFn

theorem foldl_set {g : IndexVector → Expr} (indices : List IndexVector) {t : Tensor} (ht : t.Full)
    (hindices : ∀ index ∈ indices, index ∈ Layout.indices t.rank t.dimension) :
    let u := indices.foldl (fun t index => t.set index (g index)) t
    u.Full ∧ u.rank = t.rank ∧ u.dimension = t.dimension ∧
      ∀ index ∈ Layout.indices t.rank t.dimension,
        u.get? index = if index ∈ indices then some (g index) else t.get? index := by
  induction indices generalizing t with
  | nil => exact ⟨ht, rfl, rfl, fun index _ => rfl⟩
  | cons first indices ih =>
    rw [forall_mem_cons] at hindices
    obtain ⟨hfull, hrank, hdimension, hget⟩ := ih (ht.set first (g first))
      (by rw [rank_set, dimension_set]; exact hindices.2)
    rw [rank_set] at hrank hget
    rw [dimension_set] at hdimension hget
    refine ⟨hfull, hrank, hdimension, fun index hindex => ?_⟩
    rw [foldl_cons, hget index hindex, get?_set ht hindices.1 hindex]
    by_cases hmem : index ∈ indices
    · rw [if_pos hmem, if_pos (mem_cons_of_mem _ hmem)]
    · rw [if_neg hmem]
      by_cases heq : first = index
      · rw [if_pos heq, heq, if_pos mem_cons_self]
      · rw [if_neg heq, if_neg]
        intro h
        exact (mem_cons.mp h).elim (fun h => heq h.symm) hmem

end Tensor

/-! Components that follow from one another by exchanging the entries of slot pairs. Ordering the
pairs of an index leads to a related index that is in order at every pair, or it meets equal
entries at an antisymmetric pair on the way. -/

def Sign.along (odd : Bool) (sign : Sign) : Sign :=
  if odd then sign.flip else sign

namespace Sign

theorem along_along (odd odd' : Bool) (sign : Sign) :
    along odd (along odd' sign) = along (odd' ^^ odd) sign := by
  cases odd <;> cases odd' <;> cases sign <;> rfl

theorem along_eq_zero : along odd sign = .zero ↔ sign = .zero := by
  cases odd <;> cases sign <;> decide

theorem along_injective {odd' : Bool} (hsign : sign ≠ .zero) (h : along odd sign = along odd' sign) :
    odd = odd' := by
  cases odd <;> cases odd' <;> cases sign <;> simp_all [along, flip]

end Sign

namespace IndexVector

def exchange (i j : Nat) (x : IndexVector) : IndexVector :=
  (x.set i (x.getD j 0)).set j (x.getD i 0)

variable {x y : IndexVector} {i j k : Nat}

@[simp] theorem length_exchange (i j : Nat) (x : IndexVector) :
    (exchange i j x).length = x.length := by
  simp [exchange]

theorem getD_exchange (hi : i < x.length) (hj : j < x.length) (k : Nat) :
    (exchange i j x).getD k 0 = x.getD (Equiv.swap i j k) 0 := by
  simp only [exchange, getD_eq_getElem?_getD, getElem?_set, length_set, Equiv.swap_apply_def]
  grind

theorem ext_getD (hlength : x.length = y.length) (h : ∀ k, x.getD k 0 = y.getD k 0) : x = y := by
  refine ext_getElem hlength fun k hx hy => ?_
  simpa [hx, hy] using h k

section

variable (hi : i < x.length) (hj : j < x.length)
include hi hj

theorem exchange_exchange : exchange i j (exchange i j x) = x := by
  refine ext_getD (by simp) fun k => ?_
  rw [getD_exchange (by simpa) (by simpa), getD_exchange hi hj, Equiv.swap_apply_self]

theorem exchange_comm : exchange j i x = exchange i j x := by
  refine ext_getD (by simp) fun k => ?_
  rw [getD_exchange hj hi, getD_exchange hi hj, Equiv.swap_comm]

theorem exchange_conjugate (hk : k < x.length) (hki : k ≠ i) (hkj : k ≠ j) (hij : i ≠ j) :
    exchange i k (exchange k j (exchange i k x)) = exchange i j x := by
  refine ext_getD (by simp) fun m => ?_
  rw [getD_exchange (by simpa) (by simpa), getD_exchange (by simpa) (by simpa),
    getD_exchange hi hk, getD_exchange hi hj]
  congr 1
  simp only [Equiv.swap_apply_def]
  grind

theorem exchange_braid (hk : k < x.length) (hij : i ≠ j) (hik : i ≠ k) (hjk : j ≠ k) :
    exchange i j (exchange i k (exchange i j x)) = exchange i k (exchange i j (exchange i k x)) := by
  refine ext_getD (by simp) fun m => ?_
  repeat rw [getD_exchange (by simpa) (by simpa)]
  congr 1
  simp only [Equiv.swap_apply_def]
  grind

end

end IndexVector

namespace SlotPair

def exchange (p : SlotPair) (x : IndexVector) : IndexVector :=
  IndexVector.exchange p.first p.second x

/-- The pairs name an earlier and a later slot of an index of the rank. -/
def Inside (ps : List SlotPair) (rank : Nat) : Prop :=
  ∀ p ∈ ps, p.first < p.second ∧ p.second < rank

/-- What exchanging the entries of some pairs makes of an index; `odd` tells whether the
component changes its sign. -/
inductive Related (ps : List SlotPair) : Bool → IndexVector → IndexVector → Prop
  | refl (x : IndexVector) : Related ps false x x
  | exchange {odd : Bool} {x y : IndexVector} {p : SlotPair} (h : Related ps odd x y) (hp : p ∈ ps) :
    Related ps (odd ^^ p.antisymmetric) x (p.exchange y)

/-- In order at every pair, and strictly so at the antisymmetric ones. -/
def Settled (ps : List SlotPair) (x : IndexVector) : Prop :=
  ∀ p ∈ ps, x.getD p.first 0 ≤ x.getD p.second 0 ∧
    (p.antisymmetric → x.getD p.first 0 ≠ x.getD p.second 0)

def Repeats (ps : List SlotPair) (x : IndexVector) : Prop :=
  ∃ p ∈ ps, p.antisymmetric ∧ x.getD p.first 0 = x.getD p.second 0

variable {ps : List SlotPair} {odd' : Bool} {x y z : IndexVector}

@[simp] theorem length_exchange (p : SlotPair) (x : IndexVector) :
    (p.exchange x).length = x.length :=
  IndexVector.length_exchange ..

theorem Related.length_eq (h : Related ps odd x y) : y.length = x.length := by
  induction h with
  | refl => rfl
  | exchange _ _ ih => rw [length_exchange, ih]

theorem Related.single (hp : p ∈ ps) (x : IndexVector) :
    Related ps p.antisymmetric x (p.exchange x) := by
  simpa using (Related.refl x).exchange hp

theorem Related.trans (h : Related ps odd x y) (h' : Related ps odd' y z) :
    Related ps (odd ^^ odd') x z := by
  induction h' with
  | refl => simpa using h
  | exchange _ hp ih => simpa [Bool.xor_assoc] using (ih h).exchange hp

theorem Related.symm (h : Related ps odd x y) (hps : Inside ps x.length) : Related ps odd y x := by
  induction h with
  | refl => exact .refl _
  | @exchange odd x y p h hp ih =>
    have hback := Related.single hp (p.exchange y)
    have hlength := h.length_eq
    have hpair := hps p hp
    rw [SlotPair.exchange, SlotPair.exchange,
      IndexVector.exchange_exchange (by omega) (by omega)] at hback
    rw [Bool.xor_comm]
    exact hback.trans (ih hps)

/-- What ordering the pairs of an index may come to: a related index with the sign of the way
there, or the sign zero after a related index with a repetition. -/
def Leads (ps : List SlotPair) (sign : Sign) (x : IndexVector) (result : Sign × IndexVector) : Prop :=
  (result.1 = .zero ∧ ∃ odd y, Related ps odd x y ∧ Repeats ps y) ∨
    ∃ odd, result.1 = sign.along odd ∧ Related ps odd x result.2

theorem Leads.trans {result : Sign × IndexVector} (h : Related ps odd x y)
    (h' : Leads ps (sign.along odd) y result) : Leads ps sign x result := by
  rcases h' with ⟨hz, odd', z, hz', hrepeats⟩ | ⟨odd', hsign, hrelated⟩
  · exact .inl ⟨hz, _, z, h.trans hz', hrepeats⟩
  · exact .inr ⟨_, hsign.trans (Sign.along_along ..), h.trans hrelated⟩

theorem order_leads {ps : List SlotPair} {p : SlotPair} (hp : p ∈ ps) (sign : Sign)
    (x : IndexVector) :
    (p.order sign x = none ∧ Repeats ps x) ∨
      ∃ odd y, p.order sign x = some (sign.along odd, y) ∧ Related ps odd x y := by
  unfold order
  split
  · next a b ha hb =>
    have hfirst : x.getD p.first 0 = a := by simp [ha]
    have hsecond : x.getD p.second 0 = b := by simp [hb]
    split
    · next h =>
      simp only [Bool.and_eq_true, beq_iff_eq] at h
      exact .inl ⟨rfl, p, hp, h.1, by rw [hfirst, hsecond, h.2]⟩
    · refine .inr ?_
      split
      · refine ⟨p.antisymmetric, p.exchange x, ?_, .single hp x⟩
        rw [exchange, IndexVector.exchange, hfirst, hsecond]
        rfl
      · exact ⟨false, x, rfl, .refl x⟩
  · exact .inr ⟨false, x, rfl, .refl x⟩

theorem orderAll_leads {qs : List SlotPair} (hqs : qs ⊆ ps) (sign : Sign) (x : IndexVector) :
    Leads ps sign x (orderAll qs sign x) := by
  induction qs generalizing sign x with
  | nil => exact .inr ⟨false, rfl, .refl x⟩
  | cons q qs ih =>
    rw [cons_subset] at hqs
    rw [orderAll]
    rcases order_leads hqs.1 sign x with ⟨hnone, hrepeats⟩ | ⟨odd, y, hsome, hrelated⟩
    · rw [hnone]
      exact .inl ⟨rfl, false, x, .refl x, hrepeats⟩
    · rw [hsome]
      exact .trans hrelated (ih hqs.2 _ _)

theorem settle_leads (rounds : Nat) (sign : Sign) (x : IndexVector) :
    Leads ps sign x (settle ps rounds sign x) := by
  induction rounds generalizing sign x with
  | zero => exact .inr ⟨false, rfl, .refl x⟩
  | succ rounds ih =>
    rw [settle]
    have hround := orderAll_leads (List.Subset.refl ps) sign x
    split
    · exact hround
    · next h =>
      rcases hround with ⟨hz, -⟩ | ⟨odd, hsign, hrelated⟩
      · simp [hz] at h
      · rw [hsign]
        exact .trans hrelated (ih _ _)

theorem orderAll_cons_fixed (hps : ∀ q ∈ p :: ps, q.first < q.second) (hsign : sign ≠ .zero)
    (h : orderAll (p :: ps) sign x = (sign, x)) :
    p.order sign x = some (sign, x) ∧ orderAll ps sign x = (sign, x) := by
  rw [forall_mem_cons] at hps
  rw [orderAll] at h
  split at h
  · next sign' x' hp =>
    rcases order_eq_or_inversions_lt hps.1 hp with heq | hless
    · cases heq
      exact ⟨hp, h⟩
    -- a move would leave fewer inversions than the index has that comes out
    · rcases orderAll_eq_or_inversions_lt hps.2 sign' x' with hz | hs | hl
      · rw [h] at hz
        exact absurd hz hsign
      · rw [hs] at h
        cases h
        exact absurd hless (Nat.lt_irrefl _)
      · rw [h] at hl
        exact absurd hless (Nat.lt_asymm hl)
  · cases h
    exact absurd rfl hsign

theorem of_order_fixed (hp : p.first < p.second) (hlength : p.second < x.length)
    (h : p.order sign x = some (sign, x)) :
    x.getD p.first 0 ≤ x.getD p.second 0 ∧
      (p.antisymmetric → x.getD p.first 0 ≠ x.getD p.second 0) := by
  have hfirst : x[p.first]? = some (x.getD p.first 0) := by
    simp [getElem?_eq_getElem (show p.first < x.length by omega)]
  have hsecond : x[p.second]? = some (x.getD p.second 0) := by
    simp [getElem?_eq_getElem hlength]
  rw [order, hfirst, hsecond] at h
  dsimp only at h
  split at h
  · cases h
  · next hne =>
    split at h
    · next hlt =>
      have hless := inversions_exchange_lt x _ _ hfirst hsecond hp hlt
      rw [(Prod.mk.inj (Option.some.inj h)).2] at hless
      exact absurd hless (Nat.lt_irrefl _)
    · next hle =>
      refine ⟨Nat.le_of_not_lt hle, fun ha heq => hne ?_⟩
      rw [ha, heq, Bool.true_and, beq_self_eq_true]

theorem settled_of_orderAll (hps : Inside ps x.length) (hsign : sign ≠ .zero)
    (h : orderAll ps sign x = (sign, x)) : Settled ps x := by
  induction ps with
  | nil => exact forall_mem_nil _
  | cons p ps ih =>
    obtain ⟨hp, hrest⟩ := orderAll_cons_fixed (fun q hq => (hps q hq).1) hsign h
    rw [Inside, forall_mem_cons] at hps
    exact forall_mem_cons.mpr ⟨of_order_fixed hps.1.1 hps.1.2 hp, ih hps.2 hrest⟩

theorem order_of_settled (h : Settled [p] x) (sign : Sign) : p.order sign x = some (sign, x) := by
  obtain ⟨hle, hne⟩ := h p (mem_singleton_self p)
  unfold order
  split
  · next a b ha hb =>
    simp only [getD_eq_getElem?_getD, ha, hb, Option.getD_some] at hle hne
    rw [if_neg, if_neg (Nat.not_lt.mpr hle)]
    simpa using hne
  · rfl

theorem orderAll_append_of_settled (h : Settled ps x) (qs : List SlotPair) (sign : Sign) :
    orderAll (ps ++ qs) sign x = orderAll qs sign x := by
  induction ps with
  | nil => rfl
  | cons p ps ih =>
    rw [Settled, forall_mem_cons] at h
    rw [cons_append, orderAll, order_of_settled (forall_mem_singleton.mpr h.1)]
    exact ih h.2

theorem orderAll_of_settled (h : Settled ps x) (sign : Sign) : orderAll ps sign x = (sign, x) := by
  have hnil := orderAll_append_of_settled h [] sign
  rwa [append_nil] at hnil

/-- What the canonical form of an index is, in terms of related indices: in order, with the sign
of the way there, or zero if a related index has a repetition. -/
inductive Reduces (ps : List SlotPair) (x : IndexVector) : Sign × IndexVector → Prop
  | vanishing {odd : Bool} {y : IndexVector} (h : Related ps odd x y) (hy : Repeats ps y)
      (z : IndexVector) : Reduces ps x (.zero, z)
  | settled {odd : Bool} {y : IndexVector} (h : Related ps odd x y) (hy : Settled ps y) :
    Reduces ps x (Sign.plus.along odd, y)

end SlotPair

section Sorting

def allPairs (rank : Nat) : List SlotPair :=
  (List.range rank).flatMap fun j => (List.range j).map fun i => ⟨i, j, true⟩

theorem mem_allPairs {rank : Nat} :
    p ∈ allPairs rank ↔ p.first < p.second ∧ p.second < rank ∧ p.antisymmetric := by
  obtain ⟨i, j, anti⟩ := p
  simp only [allPairs, mem_flatMap, mem_range, mem_map, mk.injEq]
  grind

theorem inversions_append_cons_cons {a b : Nat} (hab : b < a) (u v : List Nat) :
    inversions (u ++ a :: b :: v) = inversions (u ++ b :: a :: v) + 1 := by
  induction u with
  | nil =>
    simp only [nil_append, inversions, countP_cons, decide_eq_true_eq]
    rw [if_pos hab, if_neg (Nat.lt_asymm hab)]
    omega
  | cons c u ih =>
    have hcount : (u ++ a :: b :: v).countP (· < c) = (u ++ b :: a :: v).countP (· < c) :=
      ((List.Perm.swap b a v).append_left u).countP_eq _
    simp only [cons_append, inversions, ih, hcount]
    omega

theorem exchange_append_cons_cons (a b : Nat) (u v : List Nat) :
    IndexVector.exchange u.length (u.length + 1) (u ++ a :: b :: v) = u ++ b :: a :: v := by
  induction u with
  | nil => simp [IndexVector.exchange]
  | cons c u ih => simp [IndexVector.exchange]

theorem sorted_or_descent (x : List Nat) :
    x.Pairwise (· ≤ ·) ∨ ∃ u a b v, x = u ++ a :: b :: v ∧ b < a := by
  rw [← isChain_iff_pairwise]
  induction x with
  | nil => exact .inl .nil
  | cons a x ih =>
    rcases ih with hsorted | ⟨u, c, d, v, rfl, hlt⟩
    · cases x with
      | nil => exact .inl (.singleton a)
      | cons b x =>
        by_cases hab : a ≤ b
        · exact .inl (.cons_cons hab hsorted)
        · exact .inr ⟨[], a, b, x, rfl, by omega⟩
    · exact .inr ⟨a :: u, c, d, v, rfl, hlt⟩

theorem pairwise_mergeSort (x : List Nat) : x.mergeSort.Pairwise (· ≤ ·) :=
  (List.pairwise_mergeSort (fun a b c hab hbc => by simp at *; omega)
    (fun a b => by simp; omega) x).imp fun h => of_decide_eq_true h

theorem mergeSort_eq_of_perm {x y : List Nat} (h : x.Perm y) : x.mergeSort = y.mergeSort :=
  List.Perm.eq_of_pairwise (fun _ _ _ _ => Nat.le_antisymm) (pairwise_mergeSort x)
    (pairwise_mergeSort y)
    (((mergeSort_perm x _).trans h).trans (mergeSort_perm y _).symm)

theorem related_mergeSort (x : IndexVector) :
    SlotPair.Related (allPairs x.length) (inversions x % 2 = 1) x x.mergeSort := by
  induction hn : inversions x generalizing x with
  | zero =>
    rcases sorted_or_descent x with hsorted | ⟨u, a, b, v, rfl, hlt⟩
    · rw [mergeSort_of_pairwise (hsorted.imp fun h => decide_eq_true h)]
      exact .refl x
    · rw [inversions_append_cons_cons hlt] at hn
      omega
  | succ n ih =>
    rcases sorted_or_descent x with hsorted | ⟨u, a, b, v, rfl, hlt⟩
    · rw [inversions_eq_zero hsorted] at hn
      omega
    · rw [inversions_append_cons_cons hlt] at hn
      have hrest := ih (u ++ b :: a :: v) (by omega)
      have hlength : (u ++ b :: a :: v).length = (u ++ a :: b :: v).length := by simp
      have hpair : (⟨u.length, u.length + 1, true⟩ : SlotPair) ∈
          allPairs (u ++ a :: b :: v).length := by
        rw [mem_allPairs]
        simp
      have hfirst := SlotPair.Related.single hpair (u ++ a :: b :: v)
      rw [exchange, exchange_append_cons_cons] at hfirst
      rw [hlength, mergeSort_eq_of_perm ((List.Perm.swap a b v).append_left u)] at hrest
      have hparity : decide ((n + 1) % 2 = 1) = (true ^^ decide (n % 2 = 1)) := by
        rcases Nat.mod_two_eq_zero_or_one n with h | h <;> simp [Nat.add_mod, h]
      rw [hparity]
      exact hfirst.trans hrest

end Sorting

namespace Symmetry

variable {s : Symmetry} {x : IndexVector}

theorem canonicalize_of_settled (hs : s ≠ permutation) (h : SlotPair.Settled s.slotPairs x) :
    s.canonicalize x = (.plus, x) := by
  obtain ⟨n, hn⟩ := Nat.exists_eq_succ_of_ne_zero (Nat.ne_of_gt (orderings_pos x.length))
  rw [canonicalize, if_neg hs, hn, settle, orderAll_of_settled h]
  simp

/-- The pairs of slots whose exchange keeps a tensor of the rank up to sign. -/
def exchanges (s : Symmetry) (rank : Nat) : List SlotPair :=
  match s with
  | permutation => allPairs rank
  | s => s.slotPairs

theorem slotPairs_eq_exchanges (hs : s ≠ permutation) (rank : Nat) :
    s.exchanges rank = s.slotPairs := by
  cases s <;> first | rfl | exact absurd rfl hs

theorem permutation_reduces (x : IndexVector) :
    SlotPair.Reduces (allPairs x.length) x (permutation.canonicalize x) := by
  change SlotPair.Reduces _ _ (parity x, x.mergeSort)
  by_cases h : x.Nodup
  · have hsign : parity x = Sign.plus.along (decide (inversions x % 2 = 1)) := by
      rw [parity, if_pos h]
      rcases Nat.mod_two_eq_zero_or_one (inversions x) with h | h <;> simp [h, Sign.along, Sign.flip]
    rw [hsign]
    refine .settled (related_mergeSort x) fun p hp => ?_
    obtain ⟨hslots, hlength, -⟩ := mem_allPairs.mp hp
    have hstrict : x.mergeSort.Pairwise (· < ·) :=
      ((pairwise_mergeSort x).and ((mergeSort_perm x _).nodup_iff.mpr h)).imp
        fun hab => Nat.lt_of_le_of_ne hab.1 hab.2
    rw [← (mergeSort_perm x _).length_eq] at hlength
    have hlt := pairwise_iff_getElem.mp hstrict _ _ (hslots.trans hlength) hlength hslots
    rw [getD_eq_getElem _ _ (hslots.trans hlength), getD_eq_getElem _ _ hlength]
    exact ⟨Nat.le_of_lt hlt, fun _ => Nat.ne_of_lt hlt⟩
  · rw [parity, if_neg h]
    rw [List.Nodup, pairwise_iff_getElem] at h
    push Not at h
    obtain ⟨i, j, hi, hj, hij, heq⟩ := h
    refine .vanishing (.refl x) ⟨⟨i, j, true⟩, mem_allPairs.mpr ⟨hij, hj, rfl⟩, rfl, ?_⟩ _
    rw [getD_eq_getElem _ _ hi, getD_eq_getElem _ _ hj, heq]

theorem canonicalize_reduces (hs : SlotPair.Inside (s.exchanges x.length) x.length) :
    SlotPair.Reduces (s.exchanges x.length) x (s.canonicalize x) := by
  by_cases hperm : s = permutation
  · subst hperm
    exact permutation_reduces x
  rw [slotPairs_eq_exchanges hperm] at hs ⊢
  have hleads : SlotPair.Leads s.slotPairs .plus x (s.canonicalize x) := by
    rw [canonicalize, if_neg hperm]
    exact settle_leads ..
  have hfixed := orderAll_canonicalize hperm (fun p hp => (hs p hp).1) x
  generalize s.canonicalize x = result at hleads hfixed
  obtain ⟨sign, y⟩ := result
  rcases hleads with ⟨rfl, odd, z, hrelated, hrepeats⟩ | ⟨odd, rfl, hrelated⟩
  · exact .vanishing hrelated hrepeats y
  · refine .settled hrelated ?_
    have hsign : Sign.plus.along odd ≠ .zero := by simp [Sign.along_eq_zero]
    rw [← hrelated.length_eq] at hs
    exact settled_of_orderAll hs hsign (hfixed.resolve_left hsign)

end Symmetry

/-! The slots of repeated derivatives. They come after those of the tensor itself and commute
with each other only, so that one more of them keeps different components apart. -/

namespace SlotPair

def neighbours (first tail : Nat) : List SlotPair :=
  (List.range (tail - 1)).map fun i => ⟨first + i, first + i + 1, false⟩

theorem neighbours_succ {first tail : Nat} (h : 0 < tail) : neighbours first (tail + 1) =
    neighbours first tail ++ [⟨first + tail - 1, first + tail, false⟩] := by
  obtain ⟨n, rfl⟩ := Nat.exists_eq_succ_of_ne_zero h.ne'
  simp only [neighbours, Nat.succ_eq_add_one, Nat.add_sub_cancel, range_succ, map_append,
    map_cons, map_nil, ← Nat.add_assoc]

/-- The pair lies behind the first slots, and exchanging its entries changes no sign. -/
structure Behind (p : SlotPair) (first : Nat) : Prop where
  first_le : first ≤ p.first
  ordered : p.first < p.second
  symmetric : p.antisymmetric = false

theorem behind_neighbours (first tail : Nat) : ∀ p ∈ neighbours first tail, p.Behind first := by
  intro p hp
  obtain ⟨i, -, rfl⟩ := mem_map.mp hp
  exact ⟨Nat.le_add_right .., Nat.lt_succ_self _, rfl⟩

theorem inside_neighbours (first tail : Nat) : Inside (neighbours first tail) (first + tail) := by
  intro p hp
  obtain ⟨i, hi, rfl⟩ := mem_map.mp hp
  rw [mem_range] at hi
  exact ⟨Nat.lt_succ_self _, show first + i + 1 < first + tail by omega⟩

variable {ps qs : List SlotPair} {front back : IndexVector}

theorem order_behind (hp : p.Behind front.length) (sign : Sign) (back : IndexVector) :
    ∃ back', back'.Perm back ∧ p.order sign (front ++ back) = some (sign, front ++ back') := by
  have hfirst := hp.first_le
  have hsecond : front.length ≤ p.second := Nat.le_trans hfirst (Nat.le_of_lt hp.ordered)
  obtain ⟨back', horder⟩ :
      ∃ back', p.order sign (front ++ back) = some (sign, front ++ back') := by
    unfold order
    rw [hp.symmetric]
    split
    · rw [if_neg (by simp)]
      split
      · rw [set_append_right _ _ hfirst, set_append_right _ _ hsecond]
        exact ⟨_, rfl⟩
      · exact ⟨back, rfl⟩
    · exact ⟨back, rfl⟩
  exact ⟨back', (perm_append_left_iff front).mp (order_perm horder), horder⟩

theorem orderAll_behind (hqs : ∀ q ∈ qs, q.Behind front.length) (sign : Sign) (back : IndexVector) :
    ∃ back', back'.Perm back ∧ orderAll qs sign (front ++ back) = (sign, front ++ back') := by
  induction qs generalizing back with
  | nil => exact ⟨back, .refl _, rfl⟩
  | cons q qs ih =>
    rw [forall_mem_cons] at hqs
    obtain ⟨mid, hmid, horder⟩ := order_behind hqs.1 sign back
    obtain ⟨back', hback, hall⟩ := ih hqs.2 mid
    rw [orderAll, horder]
    exact ⟨back', hback.trans hmid, hall⟩

theorem settled_append_iff (hps : Inside ps front.length) (back : IndexVector) :
    Settled ps (front ++ back) ↔ Settled ps front := by
  refine forall₂_congr fun p hp => ?_
  obtain ⟨hfirst, hsecond⟩ := hps p hp
  rw [getD_append _ _ _ _ (Nat.lt_trans hfirst hsecond), getD_append _ _ _ _ hsecond]

/-- Where the pairs of the first slots are in order, only the others move. -/
theorem settle_behind (hps : Inside ps front.length) (hsettled : Settled ps front)
    (hqs : ∀ q ∈ qs, q.Behind front.length) (rounds : Nat) (sign : Sign) (back : IndexVector) :
    ∃ back', back'.Perm back ∧
      settle (ps ++ qs) rounds sign (front ++ back) = (sign, front ++ back') := by
  induction rounds generalizing back with
  | zero => exact ⟨back, .refl _, rfl⟩
  | succ rounds ih =>
    obtain ⟨mid, hmid, hround⟩ := orderAll_behind hqs sign back
    rw [← orderAll_append_of_settled ((settled_append_iff hps back).mpr hsettled)] at hround
    rw [settle, hround]
    dsimp only
    split
    · exact ⟨mid, hmid, rfl⟩
    · obtain ⟨back', hback, hrest⟩ := ih mid
      exact ⟨back', hback.trans hmid, hrest⟩

theorem pairwise_of_settled (h : Settled (neighbours front.length back.length) (front ++ back)) :
    back.Pairwise (· ≤ ·) := by
  rw [← isChain_iff_pairwise, isChain_iff_getElem]
  intro i hi
  have hpair := (h ⟨front.length + i, front.length + i + 1, false⟩
    (mem_map.mpr ⟨i, mem_range.mpr (by omega), rfl⟩)).1
  rwa [Nat.add_assoc, getD_append_right _ _ _ _ (Nat.le_add_right ..),
    getD_append_right _ _ _ _ (Nat.le_add_right ..), Nat.add_sub_cancel_left,
    Nat.add_sub_cancel_left, getD_eq_getElem _ _ (by omega),
    getD_eq_getElem _ _ hi] at hpair

end SlotPair

namespace Symmetry

open SlotPair

variable {s : Symmetry} {first tail : Nat} {x y : IndexVector}

/-- The last slots commute with each other, and no pair joins one of them to the first ones. -/
def Commutes (s : Symmetry) (first tail : Nat) : Prop :=
  ∃ ps, Inside ps first ∧ s.slotPairs = ps ++ neighbours first tail

theorem Commutes.inside (h : s.Commutes first tail) : Inside s.slotPairs (first + tail) := by
  obtain ⟨ps, hps, hs⟩ := h
  rw [hs, Inside, forall_mem_append]
  exact ⟨fun p hp => ⟨(hps p hp).1, Nat.lt_add_right tail (hps p hp).2⟩, inside_neighbours _ _⟩

theorem settled_of_isCanonical (hs : Inside s.slotPairs x.length) (h : s.isCanonical x) :
    Settled s.slotPairs x := by
  by_cases hperm : s = permutation
  · rw [hperm]
    exact forall_mem_nil _
  obtain ⟨hsign, hx⟩ : (s.canonicalize x).1 ≠ .zero ∧ (s.canonicalize x).2 = x := by
    simpa [isCanonical] using h
  have hfixed := (orderAll_canonicalize hperm (fun p hp => (hs p hp).1) x).resolve_left hsign
  generalize s.canonicalize x = result at hsign hx hfixed
  obtain ⟨sign, index⟩ := result
  obtain rfl : index = x := hx
  exact settled_of_orderAll hs hsign hfixed

theorem Commutes.pairwise_drop (h : s.Commutes first tail) (hlength : x.length = first + tail)
    (hx : s.isCanonical x) : (x.drop first).Pairwise (· ≤ ·) := by
  have hsettled := settled_of_isCanonical (hlength ▸ h.inside) hx
  obtain ⟨ps, -, hs⟩ := h
  rw [hs, Settled, forall_mem_append] at hsettled
  have hlast : Settled (neighbours (x.take first).length (x.drop first).length)
      (x.take first ++ x.drop first) := by
    rw [length_take, length_drop, hlength, Nat.min_eq_left (Nat.le_add_right ..),
      Nat.add_sub_cancel_left, take_append_drop]
    exact hsettled.2
  exact pairwise_of_settled hlast

/-- The symmetry `d` has the pairs of `s` and one more slot, which commutes with the last ones. -/
structure Lengthens (s d : Symmetry) (first tail : Nat) : Prop where
  ne_permutation : d ≠ permutation
  exists_pairs : ∃ ps, Inside ps first ∧ s.slotPairs = ps ++ neighbours first tail ∧
    d.slotPairs = ps ++ neighbours first (tail + 1)

variable {d : Symmetry} (h : Lengthens s d first tail)
include h

theorem Lengthens.canonicalize (hlength : x.length = first + tail) (hx : s.isCanonical x)
    (k : Nat) : ∃ back, back.Perm (x.drop first ++ [k]) ∧
      d.canonicalize (x ++ [k]) = (.plus, x.take first ++ back) := by
  obtain ⟨ps, hps, hs, hd⟩ := h.exists_pairs
  have hsettled := settled_of_isCanonical (hlength ▸ Commutes.inside ⟨ps, hps, hs⟩) hx
  have hfront : (x.take first).length = first := by
    rw [length_take]
    omega
  have hinside : Inside ps (x.take first).length := hfront.symm ▸ hps
  rw [hs, Settled, forall_mem_append] at hsettled
  have hps' : Settled ps (x.take first) := by
    rw [← settled_append_iff hinside (x.drop first), take_append_drop]
    exact hsettled.1
  have hbehind : ∀ q ∈ neighbours first (tail + 1), q.Behind (x.take first).length := by
    rw [hfront]
    exact behind_neighbours first (tail + 1)
  have hsplit : x ++ [k] = x.take first ++ (x.drop first ++ [k]) := by
    rw [← append_assoc, take_append_drop]
  rw [Symmetry.canonicalize, if_neg h.ne_permutation, hd, hsplit]
  exact settle_behind hinside hps' hbehind _ _ _

theorem Lengthens.injective (hx : x.length = first + tail) (hxs : s.isCanonical x)
    (hy : y.length = first + tail) (hys : s.isCanonical y) {k : Nat}
    (heq : (d.canonicalize (x ++ [k])).2 = (d.canonicalize (y ++ [k])).2) : x = y := by
  obtain ⟨ps, hps, hs, -⟩ := h.exists_pairs
  have hcommutes : s.Commutes first tail := ⟨ps, hps, hs⟩
  obtain ⟨back, hback, hcx⟩ := h.canonicalize hx hxs k
  obtain ⟨back', hback', hcy⟩ := h.canonicalize hy hys k
  rw [hcx, hcy] at heq
  obtain ⟨hfront, hrest⟩ := append_inj heq (by rw [length_take, length_take, hx, hy])
  have hperm : (x.drop first).Perm (y.drop first) :=
    (perm_append_right_iff [k]).mp (hback.symm.trans (hrest ▸ hback'))
  have hdrop := hperm.eq_of_pairwise (fun _ _ _ _ => Nat.le_antisymm)
    (hcommutes.pairwise_drop hx hxs) (hcommutes.pairwise_drop hy hys)
  rw [← take_append_drop first x, hfront, hdrop, take_append_drop]

theorem Lengthens.isCanonical_of_canonicalize {index y : IndexVector}
    (hy : d.canonicalize index = (.plus, y)) : d.isCanonical y := by
  obtain ⟨ps, hps, -, hd⟩ := h.exists_pairs
  have hordered : d.Ordered := fun p hp => (Commutes.inside ⟨ps, hps, hd⟩ p hp).1
  have hcanonical : (d.canonicalize index).1 ≠ .zero → d.isCanonical (d.canonicalize index).2 :=
    isCanonical_canonical hordered
  rw [hy] at hcanonical
  exact hcanonical Sign.noConfusion

section

variable {d' : Symmetry} (h' : Lengthens d d' first (tail + 1)) (hlength : x.length = first + tail)
  (hx : s.isCanonical x) (j k : Nat)
include h' hlength hx

theorem Lengthens.canonicalize_twice :
    ∃ back, back.Perm (x.drop first ++ [j] ++ [k]) ∧ back.Pairwise (· ≤ ·) ∧
      d'.canonicalize ((d.canonicalize (x ++ [j])).2 ++ [k]) = (.plus, x.take first ++ back) := by
  obtain ⟨mid, hmid, hone⟩ := h.canonicalize hlength hx j
  have hfront : (x.take first).length = first := by
    rw [length_take]
    omega
  have hmidLength : mid.length = tail + 1 := by
    rw [hmid.length_eq, length_append, length_drop, length_singleton]
    omega
  have hlength' : (x.take first ++ mid).length = first + (tail + 1) := by
    rw [length_append, hfront, hmidLength]
  obtain ⟨back, hback, htwo⟩ := h'.canonicalize hlength' (h.isCanonical_of_canonicalize hone) k
  rw [take_left' hfront] at htwo
  rw [drop_left' hfront] at hback
  refine ⟨back, hback.trans (hmid.append_right [k]), ?_, by rw [hone]; exact htwo⟩
  obtain ⟨ps, hps, -, hd'⟩ := h'.exists_pairs
  have hsorted := Commutes.pairwise_drop ⟨ps, hps, hd'⟩ (by
    rw [length_append, hfront, hback.length_eq, length_append, hmidLength]
    rfl) (h'.isCanonical_of_canonicalize htwo)
  rwa [drop_left' hfront] at hsorted

theorem Lengthens.canonicalize_comm :
    d'.canonicalize ((d.canonicalize (x ++ [j])).2 ++ [k]) =
      d'.canonicalize ((d.canonicalize (x ++ [k])).2 ++ [j]) := by
  obtain ⟨back, hback, hsorted, hjk⟩ := h.canonicalize_twice h' hlength hx j k
  obtain ⟨back', hback', hsorted', hkj⟩ := h.canonicalize_twice h' hlength hx k j
  have hperm : back.Perm back' := by
    refine hback.trans (.trans ?_ hback'.symm)
    rw [append_assoc, append_assoc]
    exact (List.Perm.swap k j []).append_left _
  rw [hjk, hkj, hperm.eq_of_pairwise (fun _ _ _ _ => Nat.le_antisymm) hsorted hsorted']

end

end Symmetry

section Naming

theorem toString_injective : Function.Injective fun n : Nat => (toString n).toList := by
  intro m n h
  dsimp only at h
  rw [← foldl_toString m, h, foldl_toString]

theorem length_toString {n : Nat} (h : n < 10) : (toString n).toList.length = 1 := by
  rw [toList_toString, Nat.toDigits_of_lt_base h]
  rfl

theorem nil_intercalate (xss : List (List Char)) : [].intercalate xss = xss.flatten := by
  induction xss with
  | nil => rfl
  | cons xs xss ih =>
    cases xss with
    | nil => simp
    | cons ys xss =>
      rw [intercalate_cons_cons, ih, append_nil]
      rfl

theorem componentName_injective {rank dimension : Nat} {x y : IndexVector}
    (hx : x ∈ indices rank dimension) (hy : y ∈ indices rank dimension)
    (h : componentName name x dimension naming = componentName name y dimension naming) :
    x = y := by
  rw [mem_indices] at hx hy
  unfold componentName at h
  dsimp only at h
  rw [String.append_right_inj, ← String.toList_inj, String.toList_intercalate,
    String.toList_intercalate, map_map, map_map] at h
  apply map_injective_iff.mpr toString_injective
  split at h
  · -- the numbers have one digit each
    next hshort =>
    have hdimension : dimension ≤ 10 := by simpa using (Bool.and_eq_true_iff.mp hshort).2
    have hlengths {z : IndexVector} (hz : ∀ i ∈ z, i < dimension) :
        (z.map fun n => (toString n).toList).map List.length = List.replicate z.length 1 := by
      rw [map_map, eq_replicate_iff]
      refine ⟨length_map _, fun n hn => ?_⟩
      obtain ⟨i, hi, rfl⟩ := mem_map.mp hn
      exact length_toString (Nat.lt_of_lt_of_le (hz i hi) hdimension)
    rw [eq_iff_flatten_eq, hlengths hx.2, hlengths hy.2, hx.1, hy.1]
    exact ⟨by rwa [String.toList_empty, nil_intercalate, nil_intercalate] at h, rfl⟩
  · by_cases hrank : rank = 0
    · rw [hrank, length_eq_zero_iff] at hx hy
      rw [hx.1, hy.1]
    have hsplit {z : IndexVector} (hz : z.length = rank) :
        (['_'].intercalate (z.map fun n => (toString n).toList)).splitOn '_' =
          z.map fun n => (toString n).toList := by
      refine splitOn_intercalate '_' (fun part hpart hmem => ?_) fun hnil => ?_
      · obtain ⟨n, -, rfl⟩ := mem_map.mp hpart
        exact absurd (isDigit_of_mem_toString hmem) (by decide)
      · rw [map_eq_nil_iff] at hnil
        rw [hnil] at hz
        exact hrank hz.symm
    rw [← hsplit hx.1, ← hsplit hy.1]
    exact congrArg (List.splitOn '_') h

end Naming

end TensorCalculus
