import TensorCalculus.Proofs.Tensor.CanonicalForm

/-! The determinant of the transposed matrix. An arrangement and the one that undoes it have the
same cells up to the exchange of rows and columns, and the same number of inversions. -/
namespace TensorCalculus

variable {p : List Nat}

open List Layout

section Arrangements

variable {n : Nat} {xs : List Nat}

theorem mem_arrangements (h : p.Perm xs) (hlength : xs.length = n) : p ∈ arrangements n xs := by
  induction n generalizing xs p with
  | zero =>
    rw [length_eq_zero_iff.mp hlength] at h
    rw [h.eq_nil]
    exact mem_singleton_self _
  | succ n ih =>
    cases p with
    | nil => rw [← h.length_eq] at hlength; cases hlength
    | cons x p =>
      have hx : x ∈ xs := h.mem_iff.mp mem_cons_self
      have hrest := ih (cons_perm_iff_perm_erase.mp h).2
        (by rw [length_erase_of_mem hx, hlength]; rfl)
      exact mem_flatMap.mpr ⟨x, hx, mem_map_of_mem hrest⟩

theorem mem_permutations : p ∈ permutations n ↔ p.Perm (List.range n) :=
  ⟨perm_of_mem_permutations, fun h => mem_arrangements h length_range⟩

theorem pairwise_arrangements (n : Nat) (h : xs.Pairwise (· < ·)) :
    (arrangements n xs).Pairwise (· < ·) := by
  induction n generalizing xs with
  | zero => exact pairwise_singleton ..
  | succ n ih =>
    rw [arrangements, pairwise_flatMap]
    refine ⟨fun x _ => ?_, h.imp fun {x y} hxy => ?_⟩
    · rw [pairwise_map]
      exact (ih (h.sublist erase_sublist)).imp fun h => List.Lex.cons h
    · intro p hp q hq
      obtain ⟨p, -, rfl⟩ := mem_map.mp hp
      obtain ⟨q, -, rfl⟩ := mem_map.mp hq
      exact List.Lex.rel hxy

theorem pairwise_permutations (n : Nat) : (permutations n).Pairwise (· < ·) :=
  pairwise_arrangements n pairwise_lt_range

theorem nodup_permutations (n : Nat) : (permutations n).Nodup :=
  (pairwise_permutations n).imp fun h => ne_of_lt h

theorem nodup_of_mem_permutations (h : p ∈ permutations n) : p.Nodup :=
  (mem_permutations.mp h).nodup_iff.mpr nodup_range

def placesOf (p : List Nat) : List Nat :=
  (List.range p.length).map p.idxOf

theorem length_of_mem_permutations (h : p ∈ permutations n) : p.length = n :=
  (mem_permutations.mp h).length_eq.trans length_range

theorem zipIdx_eq_map_idxOf (h : p.Nodup) : p.zipIdx = p.map fun x => (x, p.idxOf x) := by
  apply ext_getElem
  · simp
  · intro i hi _
    rw [length_zipIdx] at hi
    simp [h.idxOf_getElem i hi]

section

variable (h : p ∈ permutations n)
include h

theorem zipIdx_placesOf : ((placesOf p).zipIdx.map Prod.swap).Perm p.zipIdx := by
  have hplaces : (placesOf p).zipIdx.map Prod.swap = (List.range n).map fun x => (x, p.idxOf x) := by
    rw [placesOf, length_of_mem_permutations h]
    apply ext_getElem <;> simp
  rw [hplaces, zipIdx_eq_map_idxOf (nodup_of_mem_permutations h)]
  exact (mem_permutations.mp h).symm.map _

theorem placesOf_mem : placesOf p ∈ permutations n := by
  have hplaces := (zipIdx_placesOf h).map Prod.snd
  rw [map_map, zipIdx_map_snd, length_of_mem_permutations h] at hplaces
  refine mem_permutations.mpr (.trans (.of_eq ?_) (hplaces.trans (.of_eq ?_)))
  · exact (zipIdx_map_fst 0 (placesOf p)).symm
  · exact range_eq_range'.symm

theorem placesOf_placesOf : placesOf (placesOf p) = p := by
  have hlength := length_of_mem_permutations h
  have hnodup := nodup_of_mem_permutations (placesOf_mem h)
  have hplaces := length_of_mem_permutations (placesOf_mem h)
  apply ext_getElem
  · simp [placesOf]
  · intro i hi hi'
    have hentry : p[i] < p.length := by
      rw [hlength]
      exact mem_range.mp ((mem_permutations.mp h).mem_iff.mp (getElem_mem hi'))
    have hat : (placesOf p)[p[i]]? = some i := by
      simp [placesOf, hentry, (nodup_of_mem_permutations h).idxOf_getElem i hi']
    obtain ⟨hlt, heq⟩ := List.getElem?_eq_some_iff.mp hat
    have hidx := hnodup.idxOf_getElem _ hlt
    rw [heq] at hidx
    simp only [placesOf, getElem_map, getElem_range] at hidx ⊢
    exact hidx

end

theorem permutations_map_placesOf (n : Nat) :
    ((permutations n).map placesOf).Perm (permutations n) := by
  refine (perm_ext_iff_of_nodup ?_ (nodup_permutations n)).mpr fun p => ?_
  · refine (nodup_permutations n).map_on fun p hp q hq heq => ?_
    rw [← placesOf_placesOf hp, heq, placesOf_placesOf hq]
  · rw [mem_map]
    constructor
    · rintro ⟨q, hq, rfl⟩
      exact placesOf_mem hq
    · intro hp
      exact ⟨placesOf p, placesOf_mem hp, placesOf_placesOf hp⟩

end Arrangements

section Crossings

/-- How many pairs of cells are in one order by their rows and in the other by their columns. -/
def crossings (cells : List (Nat × Nat)) : Nat :=
  (cells.map fun a => cells.countP fun b => a.2 < b.2 ∧ b.1 < a.1).sum

theorem crossings_perm {cells cells' : List (Nat × Nat)} (h : cells.Perm cells') :
    crossings cells = crossings cells' := by
  unfold crossings
  have hcount (a : Nat × Nat) := h.countP_eq fun b => decide (a.2 < b.2 ∧ b.1 < a.1)
  rw [map_congr_left fun a _ => hcount a]
  exact (h.map _).sum_eq

theorem sum_map_ite_eq_countP {α : Type} (p : α → Bool) (xs : List α) :
    (xs.map fun x => if p x then 1 else 0).sum = xs.countP p := by
  induction xs with
  | nil => rfl
  | cons x xs ih => rw [map_cons, sum_cons, ih, countP_cons, Nat.add_comm]

theorem sum_countP_comm {α β : Type} (r : α → β → Bool) (xs : List α) (ys : List β) :
    (xs.map fun x => ys.countP (r x)).sum = (ys.map fun y => xs.countP (r · y)).sum := by
  induction ys with
  | nil => simp
  | cons y ys ih =>
    simp only [countP_cons, map_cons, sum_cons, sum_map_add, ih, sum_map_ite_eq_countP]
    exact Nat.add_comm _ _

theorem crossings_map_swap (cells : List (Nat × Nat)) :
    crossings (cells.map Prod.swap) = crossings cells := by
  unfold crossings
  rw [sum_countP_comm (fun a b : Nat × Nat => decide (a.2 < b.2 ∧ b.1 < a.1)) cells, map_map]
  congr 1
  apply map_congr_left
  intro a _
  rw [Function.comp_apply, countP_map]
  apply countP_congr
  intro b _
  simp [and_comm]

theorem crossings_zipIdx (p : List Nat) (row : Nat) : crossings (p.zipIdx row) = inversions p := by
  induction p generalizing row with
  | nil => rfl
  | cons x p ih =>
    have hlater (b : Nat × Nat) (hb : b ∈ p.zipIdx (row + 1)) : row < b.2 :=
      le_snd_of_mem_zipIdx hb
    have hhead : ((x, row) :: p.zipIdx (row + 1)).countP (fun b => row < b.2 ∧ b.1 < x) =
        p.countP (· < x) := by
      rw [countP_cons, if_neg (by simp), Nat.add_zero]
      conv => rhs; rw [← zipIdx_map_fst (row + 1) p, countP_map]
      apply countP_congr
      intro b hb
      simp [hlater b hb]
    have hrest (a : Nat × Nat) (ha : a ∈ p.zipIdx (row + 1)) :
        ((x, row) :: p.zipIdx (row + 1)).countP (fun b => a.2 < b.2 ∧ b.1 < a.1) =
          (p.zipIdx (row + 1)).countP (fun b => a.2 < b.2 ∧ b.1 < a.1) := by
      have := hlater a ha
      rw [countP_cons, if_neg (by simp; omega), Nat.add_zero]
    rw [inversions, ← ih (row + 1), crossings, zipIdx_cons, map_cons, sum_cons, hhead,
      map_congr_left hrest]
    rfl

theorem inversions_placesOf {n : Nat} (h : p ∈ permutations n) :
    inversions (placesOf p) = inversions p := by
  rw [← crossings_zipIdx p 0, ← crossings_perm (zipIdx_placesOf h), crossings_map_swap,
    crossings_zipIdx]

theorem parity_placesOf {n : Nat} (h : p ∈ permutations n) : parity (placesOf p) = parity p := by
  rw [parity, parity, inversions_placesOf h, if_pos (nodup_of_mem_permutations (placesOf_mem h)),
    if_pos (nodup_of_mem_permutations h)]

end Crossings

namespace Tensor

def cells (t : Tensor) (p : List Nat) : List Expr :=
  p.zipIdx.map fun cell => t.get [cell.2, cell.1]

theorem determinant_eq (t : Tensor) : t.determinant =
    .sum ((permutations t.dimension).map fun p => (parity p).apply (.product (t.cells p))) := rfl

/-- No product and no sum of the Leibniz formula leaves the range of the numbers. -/
structure DeterminantInRange (t : Tensor) : Prop where
  products : ∀ p ∈ permutations t.dimension, Expr.FactorsExact (t.cells p)
  sums : Expr.SumExact ((permutations t.dimension).map fun p => (parity p).apply (.product (t.cells p)))

/-- The same where only the products without a factor zero are bounded. -/
structure DeterminantExact (t : Tensor) : Prop where
  products : ∀ p ∈ permutations t.dimension,
    ¬ (Expr.factorLists (t.cells p)).any Expr.isZero → Expr.FactorsExact (t.cells p)
  sums : Expr.SumExact ((permutations t.dimension).map fun p => (parity p).apply (.product (t.cells p)))

instance : DecidablePred DeterminantExact := fun _ =>
  decidable_of_iff (_ ∧ _) ⟨fun h => ⟨h.1, h.2⟩, fun h => ⟨h.products, h.sums⟩⟩

theorem DeterminantInRange.exact {t : Tensor} (h : t.DeterminantInRange) : t.DeterminantExact :=
  ⟨fun p hp _ => h.products p hp, h.sums⟩

structure Transposed (t u : Tensor) : Prop where
  dimension : u.dimension = t.dimension
  get : ∀ i < t.dimension, ∀ j < t.dimension, u.get [i, j] = t.get [j, i]

def transpose (t : Tensor) : Tensor :=
  ofFn 2 t.dimension fun
    | [i, j] => t.get [j, i]
    | _ => .zero

variable {t u : Tensor}

theorem transposed_transpose (t : Tensor) : Transposed t t.transpose where
  dimension := rfl
  get i hi j hj := get_ofFn (mem_indices.mpr ⟨rfl, by simp [hi, hj]⟩)

theorem Transposed.cells (h : Transposed t u) (hp : p ∈ permutations t.dimension) :
    (u.cells p).Perm (t.cells (placesOf p)) := by
  have hget (cell : Nat × Nat) (hcell : cell ∈ p.zipIdx) :
      u.get [cell.2, cell.1] = t.get [cell.1, cell.2] := by
    have hrow := snd_lt_of_mem_zipIdx hcell
    have hcolumn : cell.1 ∈ p := by
      have := mem_map_of_mem (f := Prod.fst) hcell
      rwa [zipIdx_map_fst] at this
    rw [length_of_mem_permutations hp, Nat.add_zero] at hrow
    exact h.get _ hrow _ (mem_range.mp ((mem_permutations.mp hp).mem_iff.mp hcolumn))
  have hcells := ((zipIdx_placesOf hp).map fun cell => t.get [cell.1, cell.2]).symm
  rw [map_map] at hcells
  exact (List.Perm.of_eq (map_congr_left hget)).trans hcells

theorem Transposed.determinant (h : Transposed t u) (ht : t.DeterminantExact)
    (hu : u.DeterminantExact) : u.determinant = t.determinant := by
  have hterm (p : List Nat) (hp : p ∈ permutations t.dimension) :
      (parity p).apply (.product (u.cells p)) =
        (parity (placesOf p)).apply (.product (t.cells (placesOf p))) := by
    rw [parity_placesOf hp, Expr.product_perm_of_zero (h.cells hp) (hu.products p (h.dimension ▸ hp))
      (ht.products _ (placesOf_mem hp))]
  have hsums := hu.sums
  rw [determinant_eq, determinant_eq]
  rw [h.dimension] at hsums ⊢
  rw [map_congr_left hterm] at hsums ⊢
  refine Expr.sum_perm ?_ hsums ht.sums
  have hterms := (permutations_map_placesOf t.dimension).map fun p =>
    (parity p).apply (.product (t.cells p))
  rwa [map_map] at hterms

end Tensor

/-! Tensors whose components agree with the canonical ones. Filling in the aliases leaves such a
tensor as it is. Symbols, the Levi-Civita symbol, the Kronecker delta and the inverse of a
symmetric matrix are of this kind without it. -/

variable {index : IndexVector} {n : Nat}

namespace Symmetry

theorem canonicalize_nil (s : Symmetry) : s.canonicalize [] = (.plus, []) := by
  have hall (ps : List SlotPair) : SlotPair.orderAll ps .plus [] = (.plus, []) := by
    induction ps with
    | nil => rfl
    | cons p ps ih => exact ih
  unfold canonicalize
  split
  · rw [mergeSort_nil]
    rfl
  · change SlotPair.settle _ 1 _ _ = _
    simp [SlotPair.settle, hall]

end Symmetry

namespace Tensor

/-- Each component is what follows for it from its canonical one. -/
def Balanced (s : Symmetry) (t : Tensor) : Prop :=
  ∀ index ∈ indices t.rank t.dimension, t.get? index = alias? s t index

variable {s : Symmetry} {t : Tensor}

theorem set_of_get? {e : Expr} (h : t.get? index = some e) : t.set index e = t := by
  unfold get? at h
  obtain ⟨offset, hoffset, he⟩ := Option.bind_eq_some_iff.mp h
  obtain ⟨hlt, rfl⟩ := Array.getElem?_eq_some_iff.mp he
  unfold set
  rw [hoffset]
  simp [Array.setIfInBounds, hlt]

theorem fillAlias_of_get? (h : t.get? index = alias? s t index) : t.fillAlias s index = t := by
  unfold fillAlias
  dsimp only
  by_cases hz : (s.canonicalize index).1 = .zero
  · rw [alias?, if_pos hz] at h
    rw [if_pos (beq_iff_eq.mpr hz), set_of_get? h]
  · rw [alias?, if_neg hz] at h
    rw [if_neg (by simpa using hz)]
    split
    · rfl
    · split
      · next e he => exact set_of_get? (h.trans (by rw [he]; rfl))
      · rfl

theorem Balanced.fillAliases (h : Balanced s t) : t.fillAliases s = t := by
  have hfold (indices : List IndexVector) (hindices : indices ⊆ Layout.indices t.rank t.dimension) :
      indices.foldl (fillAlias s) t = t := by
    induction indices with
    | nil => rfl
    | cons index indices ih =>
      rw [cons_subset] at hindices
      rw [foldl_cons, fillAlias_of_get? (h index hindices.1), ih hindices.2]
  exact hfold _ fun _ => id

theorem alias?_fillAliases (hs : s.Ordered) (ht : t.Full)
    (h : index ∈ indices t.rank t.dimension) :
    alias? s (t.fillAliases s) index = alias? s t index := by
  by_cases hz : (s.canonicalize index).1 = .zero
  · rw [alias?, alias?, if_pos hz, if_pos hz]
  · rw [alias?, alias?, if_neg hz, if_neg hz,
      get?_fillAliases hs ht (s.canonicalize_mem_indices h), alias?_canonical hs t hz]

theorem balanced_fillAliases (hs : s.Ordered) (ht : t.Full) : Balanced s (t.fillAliases s) := by
  intro index hindex
  obtain ⟨hrank, hdimension, -⟩ := t.fillAliases_shape s
  rw [hrank, hdimension] at hindex
  rw [get?_fillAliases hs ht hindex, alias?_fillAliases hs ht hindex]

/-- Filling in the aliases reads the canonical components only and leaves them as they are, so
that to fill them in again changes nothing. -/
theorem fillAliases_spec (hs : s.Ordered) (ht : t.Full) :
    (∀ index ∈ Layout.indices t.rank t.dimension,
      ∃ e, t.get? (s.canonicalize index).2 = some e ∧
        (t.fillAliases s).get? index =
          some (if (s.canonicalize index).1 = .zero then .zero
            else (s.canonicalize index).1.apply e)) ∧
    (∀ index ∈ s.distinctIndices t.rank t.dimension,
      (t.fillAliases s).get? index = t.get? index) ∧
    (t.fillAliases s).fillAliases s = t.fillAliases s := by
  refine ⟨fun index hindex => ?_, fun index hindex => ?_, (balanced_fillAliases hs ht).fillAliases⟩
  · obtain ⟨e, he⟩ :=
      Option.isSome_iff_exists.mp (isSome_get? ht (s.canonicalize_mem_indices hindex))
    refine ⟨e, he, ?_⟩
    rw [get?_fillAliases hs ht hindex, alias?]
    split
    · rfl
    · rw [he, Option.map_some]
  · obtain ⟨hinside, hcanonical⟩ := List.mem_filter.mp hindex
    simp only [Symmetry.isCanonical, Bool.and_eq_true, bne_iff_ne, beq_iff_eq] at hcanonical
    have halias := alias?_canonical hs t hcanonical.1
    rw [hcanonical.2] at halias
    rw [get?_fillAliases hs ht hinside, halias]

/-- The lower half of an antisymmetric matrix is overwritten, and so is its diagonal. -/
theorem fillAliases_spec_antisymmetric :
    let s := Symmetry.pairs [⟨0, 1, true⟩]
    let t : Tensor := ⟨2, 2, #[.sym "a", .sym "b", .sym "c", .sym "d"]⟩
    (t.fillAliases s).get? [1, 0] = some (Expr.neg (.sym "b")) ∧
      (t.fillAliases s).get? [0, 1] = some (.sym "b") := by
  intro s t
  have hs : s.Ordered := by simp [s, Symmetry.Ordered, Symmetry.slotPairs]
  have ht : t.Full := rfl
  obtain ⟨hfilled, hkept, -⟩ := fillAliases_spec hs ht
  obtain ⟨e, he, hget⟩ := hfilled [1, 0] (by decide)
  obtain rfl : .sym "b" = e := Option.some.inj he
  exact ⟨hget, hkept [0, 1] (by decide)⟩

theorem get?_map (f : Expr → Expr) (index : IndexVector) :
    (t.map f).get? index = (t.get? index).map f := by
  unfold get? map
  cases offset? t.rank t.dimension index with
  | none => rfl
  | some offset => exact Array.getElem?_map ..

theorem Balanced.map (h : Balanced s t) {f : Expr → Expr} (hzero : f .zero = .zero)
    (hneg : ∀ index ∈ indices t.rank t.dimension, (s.canonicalize index).1 = .minus →
      ∀ x ∈ t.get? (s.canonicalize index).2, f x.neg = (f x).neg) : Balanced s (t.map f) := by
  intro index hindex
  rw [get?_map, h index hindex, alias?, alias?, get?_map]
  cases hsign : (s.canonicalize index).1 with
  | zero => rw [if_pos rfl, if_pos rfl, Option.map_some, hzero]
  | plus =>
    rw [if_neg (by decide), if_neg (by decide), Option.map_map, Option.map_map]
    rfl
  | minus =>
    rw [if_neg (by decide), if_neg (by decide), Option.map_map, Option.map_map]
    exact Option.map_congr (hneg index hindex hsign)

theorem balanced_of_rank_zero (h : t.rank = 0) (s : Symmetry) : Balanced s t := by
  intro index hindex
  rw [h] at hindex
  obtain rfl := mem_singleton.mp hindex
  rw [alias?, s.canonicalize_nil, if_neg (by decide)]
  exact Option.map_id'.symm

theorem get?_zeros {rank dimension : Nat} (h : index ∈ indices rank dimension) :
    (zeros rank dimension).get? index = some .zero:= by
  have hlt : offsetFrom dimension 0 index < (zeros rank dimension).components.size :=
    (full_zeros rank dimension).offset_lt h
  change (offset? rank dimension index).bind ((zeros rank dimension).components[·]?) = _
  rw [offset?_eq_some h, Option.bind_some, Array.getElem?_eq_getElem hlt]
  exact congrArg some (Array.getElem_replicate ..)

theorem balanced_symbolic (hs : s.Ordered) (name : String) (rank dimension : Nat)
    (naming : ComponentNaming) : Balanced s (symbolic name rank dimension s naming) := by
  unfold symbolic
  split
  · exact balanced_of_rank_zero rfl s
  · intro index hindex
    have hindex : index ∈ indices rank dimension := hindex
    rw [get?_ofFn hindex, alias?]
    dsimp only
    by_cases hz : (s.canonicalize index).1 = .zero
    · rw [if_pos hz, hz]
      rfl
    · rw [if_neg hz, get?_ofFn (s.canonicalize_mem_indices hindex),
        Symmetry.canonicalize_canonical hs hz]
      rfl

section Matrices

theorem mem_indices_two (h : index ∈ indices 2 n) :
    ∃ i j, index = [i, j] ∧ i < n ∧ j < n := by
  obtain ⟨hlength, hlt⟩ := mem_indices.mp h
  obtain ⟨i, j, rfl⟩ := length_eq_two.mp hlength
  exact ⟨i, j, rfl, hlt i (by simp), hlt j (by simp)⟩

theorem balanced_metric_iff (hrank : t.rank = 2) : Balanced .metric t ↔
    ∀ i < t.dimension, ∀ j < t.dimension, t.get? [i, j] = t.get? [j, i] := by
  have halias (i j : Nat) : alias? .metric t [i, j] = t.get? [min i j, max i j] := by
    rw [alias?, Symmetry.canonicalize_metric, if_neg Sign.noConfusion]
    exact Option.map_id'
  constructor
  · intro h i hi j hj
    have hmem {a b : Nat} (ha : a < t.dimension) (hb : b < t.dimension) :
        [a, b] ∈ indices t.rank t.dimension := by
      rw [hrank]
      exact mem_indices.mpr ⟨rfl, by simp [ha, hb]⟩
    rw [h _ (hmem hi hj), h _ (hmem hj hi), halias, halias, Nat.min_comm, Nat.max_comm]
  · intro h index hindex
    rw [hrank] at hindex
    obtain ⟨i, j, rfl, hi, hj⟩ := mem_indices_two hindex
    rw [halias]
    rcases Nat.le_total i j with hle | hle
    · rw [Nat.min_eq_left hle, Nat.max_eq_right hle]
    · rw [Nat.min_eq_right hle, Nat.max_eq_left hle, h i hi j hj]

theorem get?_kronecker {i j : Nat} (hi : i < n) (hj : j < n) :
    (kronecker n).get? [i, j] = some (if i = j then .one else .zero) := by
  have hmem : [i, j] ∈ indices 2 n := mem_indices.mpr ⟨rfl, by simp [hi, hj]⟩
  obtain ⟨-, -, -, hget⟩ := foldl_set (g := fun _ => .one) ((List.range n).map fun i => [i, i])
    (full_zeros 2 n) fun _ => mem_indices_diagonal
  have hdiagonal : [i, j] ∈ (List.range n).map (fun i => [i, i]) ↔ i = j := by
    simp only [mem_map, mem_range, List.cons.injEq, and_true]
    constructor
    · rintro ⟨k, -, rfl, rfl⟩
      rfl
    · rintro rfl
      exact ⟨i, hi, rfl, rfl⟩
  rw [kronecker_eq, hget _ hmem, get?_zeros hmem]
  by_cases h : i = j
  · rw [if_pos (hdiagonal.mpr h), if_pos h]
  · rw [if_neg (mt hdiagonal.mp h), if_neg h]

theorem balanced_kronecker (n : Nat) : Balanced .kronecker (kronecker n) := by
  obtain ⟨hrank, hdimension, -⟩ := kronecker_shape n
  refine (balanced_metric_iff hrank).mpr fun i hi j hj => ?_
  rw [hdimension] at hi hj
  rw [get?_kronecker hi hj, get?_kronecker hj hi]
  simp only [eq_comm]

theorem Balanced.get_comm (h : Balanced .metric t) (hrank : t.rank = 2) {i j : Nat}
    (hi : i < t.dimension) (hj : j < t.dimension) : t.get [i, j] = t.get [j, i] := by
  rw [get, get, (balanced_metric_iff hrank).mp h i hi j hj]

/-- No minor of the matrix leaves the range of the numbers. -/
def InverseInRange (t : Tensor) : Prop :=
  ∀ row < t.dimension, ∀ column < t.dimension, (t.minor row column).DeterminantInRange

def InverseExact (t : Tensor) : Prop :=
  ∀ row < t.dimension, ∀ column < t.dimension, (t.minor row column).DeterminantExact

instance : DecidablePred InverseExact := fun t =>
  inferInstanceAs (Decidable (∀ row < t.dimension, ∀ column < t.dimension, _))

theorem InverseInRange.exact (h : t.InverseInRange) : t.InverseExact :=
  fun row hrow column hcolumn => (h row hrow column hcolumn).exact

section

variable (h : Balanced .metric t) (hrank : t.rank = 2)
include h hrank

theorem transposed_minor {row column : Nat} (hrow : row < t.dimension)
    (hcolumn : column < t.dimension) :
    Transposed (t.minor row column) (t.minor column row) where
  dimension := rfl
  get i hi j hj := by
    have hi : i < t.dimension - 1 := hi
    have hj : j < t.dimension - 1 := hj
    have hmem {a b : Nat} (ha : a < t.dimension - 1) (hb : b < t.dimension - 1) :
        [a, b] ∈ indices 2 (t.dimension - 1) :=
      mem_indices.mpr ⟨rfl, by simp [ha, hb]⟩
    rw [Tensor.minor, Tensor.minor, get_ofFn (hmem hi hj), get_ofFn (hmem hj hi)]
    refine h.get_comm hrank ?_ ?_
    · split <;> omega
    · split <;> omega

theorem cofactor_comm (hexact : t.InverseExact) {row column : Nat} (hrow : row < t.dimension)
    (hcolumn : column < t.dimension) : t.cofactor row column = t.cofactor column row := by
  unfold cofactor
  dsimp only
  rw [(transposed_minor h hrank hrow hcolumn).determinant (hexact row hrow column hcolumn)
    (hexact column hcolumn row hrow), Nat.add_comm row column]

theorem balanced_inverse (hexact : t.InverseExact) : Balanced .metric t.inverse.1 := by
  refine (balanced_metric_iff rfl).mpr fun i hi j hj => ?_
  have hmem {a b : Nat} (ha : a < t.dimension) (hb : b < t.dimension) :
      [a, b] ∈ indices 2 t.dimension :=
    mem_indices.mpr ⟨rfl, by simp [ha, hb]⟩
  have hi : i < t.dimension := hi
  have hj : j < t.dimension := hj
  unfold Tensor.inverse
  dsimp only
  rw [get?_ofFn (hmem hi hj), get?_ofFn (hmem hj hi)]
  dsimp only
  rw [cofactor_comm h hrank hexact hj hi]

end

/-- As long as the determinants stay in the range of the numbers, transposing a matrix keeps its
determinant, and a matrix that is stored symmetric has an inverse that is stored symmetric. Both are
equations of expressions, not only of their values. -/
theorem inverse_stored_symmetric (hrank : t.rank = 2) :
    (t.DeterminantExact → t.transpose.DeterminantExact → t.transpose.determinant = t.determinant) ∧
    (t.InverseExact →
      (∀ i < t.dimension, ∀ j < t.dimension, t.get? [i, j] = t.get? [j, i]) →
      ∀ i < t.dimension, ∀ j < t.dimension, t.inverse.1.get? [i, j] = t.inverse.1.get? [j, i]) := by
  refine ⟨t.transposed_transpose.determinant, fun hexact hsymmetric => ?_⟩
  have hbalanced := balanced_inverse ((balanced_metric_iff hrank).mpr hsymmetric) hrank hexact
  exact (balanced_metric_iff rfl).mp hbalanced

theorem inverse_stored_symmetric_space :
    let x : Expr := .sym "x"
    let t : Tensor := ⟨2, 3, #[.num 3, x, .zero, .zero, .num 3, x, x, .zero, .num 3]⟩
    let g : Tensor := ⟨2, 3, #[.zero, .num 2, x, .num 2, .zero, .zero, x, .zero, .one]⟩
    (t.DeterminantExact ∧ t.transpose.DeterminantExact ∧ g.InverseExact) ∧
      t.transpose.determinant = t.determinant ∧
      g.inverse.1.get? [1, 2] = g.inverse.1.get? [2, 1] := by
  intro x t g
  have ht : t.DeterminantExact ∧ t.transpose.DeterminantExact := by decide_cbv
  have hg : g.InverseExact := by decide_cbv
  have hsymmetric : ∀ i < 3, ∀ j < 3, g.get? [i, j] = g.get? [j, i] := by decide
  refine ⟨⟨ht.1, ht.2, hg⟩, (inverse_stored_symmetric rfl).1 ht.1 ht.2, ?_⟩
  exact (inverse_stored_symmetric rfl).2 hg hsymmetric 1 (by decide) 2 (by decide)

end Matrices

theorem get?_leviCivita (h : index ∈ indices n n) :
    (leviCivita n).get? index = some ((parity index).apply .one) := by
  have hindices : ∀ p ∈ permutations n, p ∈ indices n n := by
    intro p hp
    refine mem_indices.mpr ⟨length_of_mem_permutations hp, fun i hi => ?_⟩
    exact mem_range.mp ((mem_permutations.mp hp).mem_iff.mp hi)
  obtain ⟨-, -, -, hget⟩ := foldl_set (g := fun p => (parity p).apply .one)
    (permutations n) (full_zeros n n) hindices
  rw [leviCivita, hget index h, get?_zeros h]
  split
  · rfl
  · next hother =>
    -- an index without repetition would be an arrangement
    have hdup : ¬ index.Nodup := by
      intro hnodup
      obtain ⟨hlength, hlt⟩ := mem_indices.mp h
      have hsub : index.Subperm (List.range n) :=
        subperm_of_subset hnodup fun i hi => mem_range.mpr (hlt i hi)
      exact hother (mem_permutations.mpr (hsub.perm_of_length_le (by simp [hlength])))
    rw [parity, if_neg hdup]
    rfl

theorem balanced_leviCivita (n : Nat) : Balanced .permutation (leviCivita n) := by
  intro index hindex
  obtain ⟨hrank, hdimension, -⟩ := leviCivita_shape n
  rw [hrank, hdimension] at hindex
  have hcanonical := Symmetry.canonicalize_mem_indices .permutation hindex
  have hsign (index : IndexVector) : parity index = (Symmetry.permutation.canonicalize index).1 := rfl
  rw [get?_leviCivita hindex, alias?, get?_leviCivita hcanonical, hsign, hsign]
  by_cases hz : (Symmetry.permutation.canonicalize index).1 = .zero
  · rw [if_pos hz, hz]
    rfl
  · rw [if_neg hz, Symmetry.canonicalize_canonical (fun p hp => by cases hp) hz]
    rfl

end Tensor

/-! The arrangements of the numbers below `n` and the symbol that has their signs as components. -/

/-- The pairs of slots whose entries are in the wrong order. -/
def inverted (p : List Nat) : Finset (Nat × Nat) :=
  {c ∈ Finset.range p.length ×ˢ Finset.range p.length | c.1 < c.2 ∧ p.getD c.2 0 < p.getD c.1 0}

namespace Tensor

end Tensor

end TensorCalculus
