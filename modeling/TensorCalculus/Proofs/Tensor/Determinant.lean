import Mathlib.LinearAlgebra.Matrix.NonsingularInverse
import TensorCalculus.Proofs.Scalar.Soundness
import TensorCalculus.Proofs.Tensor.Exchange
import TensorCalculus.Session.Document

/-! Determinant and inverse of a matrix of expressions, at the valuations where the entries
are defined. -/
namespace TensorCalculus

open List Layout

variable {n : Nat} {xs p : List Nat} {index : IndexVector} {j dimension : Nat}

theorem perm_of_mem_arrangements (h : p ∈ arrangements n xs) (hlength : xs.length = n) : p.Perm xs := by
  induction n generalizing xs p with
  | zero =>
    obtain rfl := mem_singleton.mp h
    rw [length_eq_zero_iff.mp hlength]
  | succ n ih =>
    obtain ⟨x, hx, hp⟩ := mem_flatMap.mp h
    obtain ⟨q, hq, rfl⟩ := mem_map.mp hp
    have hperm := ih hq (by rw [length_erase_of_mem hx, hlength]; rfl)
    exact (hperm.cons x).trans (perm_cons_erase hx).symm

theorem perm_of_mem_permutations (h : p ∈ permutations n) : p.Perm (List.range n) :=
  perm_of_mem_arrangements h length_range

theorem factor_parity (h : p.Nodup) : (parity p).factor = (-1) ^ inversions p := by
  rw [parity, if_pos h]
  split
  · next heven => rw [Sign.factor, Even.neg_one_pow (Nat.even_iff.mpr heven)]
  · next hodd => rw [Sign.factor, Odd.neg_one_pow (Nat.odd_iff.mpr (by omega))]

theorem countP_lt_getElem (h : xs.Pairwise (· < ·)) (hj : j < xs.length) :
    xs.countP (· < xs[j]) = j := by
  have hsplit : xs = xs.take j ++ xs[j] :: xs.drop (j + 1) := by simp
  have hafter : ∀ x ∈ xs.drop (j + 1), ¬ x < xs[j] := by
    intro x hx
    obtain ⟨k, hk, rfl⟩ := mem_iff_getElem.mp hx
    rw [getElem_drop]
    have := pairwise_iff_getElem.mp h j (j + 1 + k) hj
      (by rw [length_drop] at hk; omega) (by omega)
    omega
  have hbefore : ∀ x ∈ xs.take j, x < xs[j] := by
    intro x hx
    obtain ⟨k, hk, rfl⟩ := mem_iff_getElem.mp hx
    rw [getElem_take]
    rw [length_take] at hk
    exact pairwise_iff_getElem.mp h k j (by omega) hj (by omega)
  generalize hx : xs[j] = x at *
  rw [hsplit, countP_append, countP_cons, countP_eq_length.mpr (by simpa using hbefore),
    countP_eq_zero.mpr (by simpa using hafter)]
  simp [length_take]
  omega

/-- The sum over some arrangements of columns, for the rows from `row` on. -/
def leibnizSum (m : Nat → Nat → Rat) (row : Nat) (arrangements : List (List Nat)) : Rat :=
  (arrangements.map fun p =>
    (-1) ^ inversions p * ((p.zipIdx row).map fun (column, row) => m row column).prod).sum

section

variable (m : Nat → Nat → Rat) (row : Nat)

theorem leibnizSum_append (ps qs : List (List Nat)) :
    leibnizSum m row (ps ++ qs) = leibnizSum m row ps + leibnizSum m row qs := by
  rw [leibnizSum, map_append, sum_append]
  rfl

theorem leibnizSum_flatMap (xs : List Nat) (f : Nat → List (List Nat)) :
    leibnizSum m row (xs.flatMap f) = (xs.map fun x => leibnizSum m row (f x)).sum := by
  induction xs with
  | nil => rfl
  | cons x xs ih => rw [flatMap_cons, leibnizSum_append, ih, map_cons, sum_cons]

theorem leibnizSum_cons {x : Nat} {ps : List (List Nat)} (h : ∀ p ∈ ps, p.countP (· < x) = j) :
    leibnizSum m row (ps.map (x :: ·)) = (-1) ^ j * m row x * leibnizSum m (row + 1) ps := by
  unfold leibnizSum
  rw [map_map, ← sum_map_mul_left]
  congr 1
  apply map_congr_left
  intro p hp
  rw [Function.comp_apply, inversions, h p hp, zipIdx_cons, map_cons, prod_cons, pow_add]
  ring

end

theorem sum_map_eq_sum_getD (hlength : xs.length = n) (f : Nat → Rat) :
    (xs.map f).sum = ∑ j : Fin n, f (xs.getD j 0) := by
  subst hlength
  rw [← sum_ofFn]
  congr 1
  apply ext_getElem
  · simp
  · intro k _ _
    simp [getD_eq_getElem?_getD]

theorem val_succAbove (j : Fin (n + 1)) (k : Fin n) :
    (j.succAbove k : Nat) = if (k : Nat) < j then (k : Nat) else k + 1 := by
  split
  · next hlt => rw [Fin.succAbove_of_castSucc_lt _ _ (Fin.lt_def.mpr hlt), Fin.val_castSucc]
  · next hge =>
    rw [Fin.succAbove_of_le_castSucc _ _ (Fin.le_def.mpr (by simpa using hge)), Fin.val_succ]

theorem getD_erase (hlength : xs.length = n + 1) (hsorted : xs.Pairwise (· < ·)) (j : Fin (n + 1))
    (k : Fin n) : (xs.erase (xs.getD j 0)).getD k 0 = xs.getD (j.succAbove k) 0 := by
  have hj : (j : Nat) < xs.length := by omega
  have hnodup : xs.Nodup := hsorted.imp Nat.ne_of_lt
  have herase : xs.erase (xs.getD j 0) = xs.eraseIdx j := by
    rw [getD_eq_getElem _ _ hj, hnodup.erase_getElem]
  rw [herase, getD_eq_getElem?_getD, getD_eq_getElem?_getD, getElem?_eraseIdx, val_succAbove]
  split
  · rfl
  · rfl

theorem leibnizSum_arrangements (m : Nat → Nat → Rat) (row : Nat) (hlength : xs.length = n)
    (hsorted : xs.Pairwise (· < ·)) :
    leibnizSum m row (arrangements n xs) =
      (Matrix.of fun i j : Fin n => m (row + i) (xs.getD j 0)).det := by
  induction n generalizing row xs with
  | zero =>
    rw [Matrix.det_fin_zero]
    simp [arrangements, leibnizSum, inversions]
  | succ n ih =>
    rw [arrangements, leibnizSum_flatMap, sum_map_eq_sum_getD hlength, Matrix.det_succ_row_zero]
    apply Finset.sum_congr rfl
    intro j _
    have hj : (j : Nat) < xs.length := by omega
    have hmem : xs.getD j 0 ∈ xs := by
      rw [getD_eq_getElem _ _ hj]
      exact getElem_mem hj
    have herased : (xs.erase (xs.getD j 0)).length = n := by
      rw [length_erase_of_mem hmem, hlength]
      rfl
    have hcount : ∀ p ∈ arrangements n (xs.erase (xs.getD j 0)), p.countP (· < xs.getD j 0) = j := by
      intro p hp
      rw [(perm_of_mem_arrangements hp herased).countP_eq, countP_erase, if_neg (by simp),
        getD_eq_getElem _ _ hj, Nat.sub_zero, countP_lt_getElem hsorted hj]
    rw [leibnizSum_cons m row hcount, ih (row + 1) herased (hsorted.sublist erase_sublist)]
    congr 2
    ext i k
    rw [Matrix.submatrix_apply, Matrix.of_apply, Matrix.of_apply, getD_erase hlength hsorted,
      Fin.val_succ, Nat.add_assoc, Nat.add_comm 1]

theorem leibnizSum_permutations (m : Nat → Nat → Rat) (n : Nat) :
    leibnizSum m 0 (permutations n) = (Matrix.of fun i j : Fin n => m i j).det := by
  rw [permutations, leibnizSum_arrangements m 0 length_range pairwise_lt_range]
  congr 1
  ext i j
  rw [Matrix.of_apply, Matrix.of_apply, Nat.zero_add, getD_eq_getElem _ _ (by simp), getElem_range]

namespace Tensor

structure HasMatrix (σ : Valuation) (t : Tensor) {n : Nat} (m : Matrix (Fin n) (Fin n) Rat) :
    Prop where
  dimension : t.dimension = n
  value : ∀ i j : Fin n, (t.get [i, j]).HasValue σ (m i j)

variable {σ : Valuation} {t : Tensor} {m : Matrix (Fin n) (Fin n) Rat}

theorem HasMatrix.determinant (h : t.HasMatrix σ m) : t.determinant.HasValue σ m.det := by
  let entry (i j : Nat) : Rat := if h : i < n ∧ j < n then m ⟨i, h.1⟩ ⟨j, h.2⟩ else 0
  have hentry {i j : Nat} (hi : i < n) (hj : j < n) : (t.get [i, j]).HasValue σ (entry i j) := by
    simp only [entry, hi, hj, and_self, dite_true]
    exact h.value ⟨i, hi⟩ ⟨j, hj⟩
  have hdet : m.det = leibnizSum entry 0 (permutations n) := by
    rw [leibnizSum_permutations]
    congr 1
    ext i j
    simp [entry]
  rw [hdet, Tensor.determinant, h.dimension]
  apply Expr.HasValue.sum
  apply Expr.HasValue.map
  intro p hp
  have hperm := perm_of_mem_permutations hp
  rw [← factor_parity (hperm.nodup_iff.mpr nodup_range)]
  apply Expr.HasValue.sign
  apply Expr.HasValue.product
  apply Expr.HasValue.map
  rintro ⟨column, row⟩ hcell
  have hcolumn : column ∈ p := by
    have := mem_map_of_mem (f := Prod.fst) hcell
    rwa [zipIdx_map_fst] at this
  have hrow := snd_lt_of_mem_zipIdx hcell
  rw [hperm.length_eq, length_range] at hrow
  exact hentry (by omega) (mem_range.mp (hperm.mem_iff.mp hcolumn))

theorem HasMatrix.minor {m : Matrix (Fin (n + 1)) (Fin (n + 1)) Rat} (h : t.HasMatrix σ m)
    (i j : Fin (n + 1)) : (t.minor i j).HasMatrix σ (m.submatrix i.succAbove j.succAbove) := by
  have hdimension : t.dimension - 1 = n := by rw [h.dimension, Nat.add_sub_cancel]
  refine ⟨hdimension, fun k l => ?_⟩
  have hmem : [(k : Nat), (l : Nat)] ∈ indices 2 (t.dimension - 1) :=
    mem_indices.mpr ⟨rfl, by simp [hdimension]⟩
  rw [Tensor.minor, get_ofFn hmem]
  dsimp only
  rw [← val_succAbove, ← val_succAbove]
  exact h.value _ _

theorem HasMatrix.cofactor (h : t.HasMatrix σ m) (i j : Fin n) :
    (t.cofactor i j).HasValue σ (m.adjugate j i) := by
  cases n with
  | zero => exact i.elim0
  | succ n =>
    have hunsigned : (if t.dimension = 1 then .one else (t.minor i j).determinant).HasValue σ
        (m.submatrix i.succAbove j.succAbove).det := by
      split
      · next hone =>
        obtain rfl : n = 0 := by
          have := h.dimension.symm.trans hone
          omega
        rw [Matrix.det_fin_zero]
        exact .num 1
      · exact (h.minor i j).determinant
    rw [Matrix.adjugate_fin_succ_eq_det_submatrix]
    unfold Tensor.cofactor
    dsimp only
    split
    · next heven =>
      rw [Even.neg_one_pow (Nat.even_iff.mpr heven), one_mul]
      exact hunsigned
    · next hodd =>
      rw [Odd.neg_one_pow (Nat.odd_iff.mpr (by omega)), neg_one_mul]
      exact hunsigned.neg

theorem HasMatrix.inverse {n : Nat} {m : Matrix (Fin n) (Fin n) Rat} (h : t.HasMatrix σ m)
    (hdet : m.det ≠ 0) : t.inverse.1.HasMatrix σ m⁻¹ := by
  refine ⟨h.dimension, fun i j => ?_⟩
  have hmem : [(i : Nat), (j : Nat)] ∈ indices 2 t.dimension :=
    mem_indices.mpr ⟨rfl, by simp [h.dimension]⟩
  have hvalue : m⁻¹ i j = [m.adjugate i j, m.det⁻¹].prod := by
    rw [Matrix.inv_def, Ring.inverse_eq_inv', Matrix.smul_apply, smul_eq_mul, prod_cons,
      prod_singleton, mul_comm]
  rw [Tensor.inverse, hvalue]
  dsimp only
  rw [get_ofFn hmem]
  exact .product (.cons (h.cofactor j i) (.cons (h.determinant.inverse hdet) .nil))

open Expr

def valueMatrix (σ : Valuation) (t : Tensor) (n : Nat) : Matrix (Fin n) (Fin n) Rat :=
  .of fun i j => (t.get [i, j]).value σ

theorem get_mem_components (ht : t.Full) (h : index ∈ indices t.rank t.dimension) :
    t.get index ∈ t.components := by
  obtain ⟨e, he⟩ := Option.isSome_iff_exists.mp (isSome_get? ht h)
  rw [get, he, Option.getD_some]
  obtain ⟨offset, -, hoffset⟩ := Option.bind_eq_some_iff.mp he
  exact Array.mem_of_getElem? hoffset

theorem HasMatrix.valueMatrix_eq (h : t.HasMatrix σ m) : t.valueMatrix σ n = m := by
  ext i j
  exact (h.value i j).value_eq

theorem hasMatrix_valueMatrix (hrank : t.rank = 2) (hn : t.dimension = n) (ht : t.Full)
    (h : ∀ e ∈ t.components, RationalFragment e ∧ e.Defined σ) :
    t.HasMatrix σ (t.valueMatrix σ n) := by
  refine ⟨hn, fun i j => ?_⟩
  have hindex : [(i : Nat), (j : Nat)] ∈ indices t.rank t.dimension :=
    mem_indices.mpr ⟨by simp [hrank], by simp [hn]⟩
  have hentry := h _ (get_mem_components ht hindex)
  exact (hentry.1.regular_of_defined hentry.2).hasValue

/-- Determinant and inverse have the values of the determinant and of the inverse, at every valuation
where the components are defined and the determinant is not zero. -/
theorem inverse_has_inverse_values (hrank : t.rank = 2) (hn : t.dimension = n) (ht : t.Full)
    (h : ∀ e ∈ t.components, RationalFragment e ∧ e.Defined σ)
    (hdet : (t.valueMatrix σ n).det ≠ 0) :
    (t.determinant.Defined σ ∧ t.determinant.value σ = (t.valueMatrix σ n).det) ∧
    (t.inverse.2.Defined σ ∧ t.inverse.2.value σ = (t.valueMatrix σ n).det) ∧
    (t.inverse.1.rank = 2 ∧ t.inverse.1.dimension = n ∧ t.inverse.1.Full) ∧
    (∀ i j : Fin n, (t.inverse.1.get [i, j]).Defined σ) ∧
    t.valueMatrix σ n * t.inverse.1.valueMatrix σ n = 1 := by
  have hmatrix := hasMatrix_valueMatrix hrank hn ht h
  have hdeterminant := hmatrix.determinant
  have hinverse := hmatrix.inverse hdet
  refine ⟨⟨hdeterminant.defined, hdeterminant.value_eq⟩,
    ⟨hdeterminant.defined, hdeterminant.value_eq⟩,
    ⟨rfl, hn, full_ofFn _ _ _⟩, fun i j => (hinverse.value i j).defined, ?_⟩
  rw [hinverse.valueMatrix_eq, Matrix.mul_nonsing_inv]
  exact isUnit_iff_ne_zero.mpr hdet

theorem inverse_has_inverse_values_reciprocal :
    let x := sym "x"
    let t : Tensor := ⟨2, 3, #[x, one, zero, zero, pow x (integer (-1)), integer 2, one, zero, one]⟩
    let σ : Valuation := fun _ => 2
    (t.valueMatrix σ 3).det = 3 ∧ t.determinant.value σ = 3 ∧
      t.valueMatrix σ 3 * t.inverse.1.valueMatrix σ 3 = 1 := by
  intro x t σ
  have hpow : RationalFragment (pow x (integer (-1))) := by
    rw [show pow x (integer (-1)) = power x (integer (-1)) by cbv]
    exact .power (-1) (.sym "x")
  have hnum (q : Number) : RationalFragment (num q) ∧ (num q).Defined σ := ⟨.num q, trivial⟩
  have hentries : ∀ e ∈ t.components, RationalFragment e ∧ e.Defined σ := by
    have hx : RationalFragment x ∧ x.Defined σ := ⟨.sym "x", trivial⟩
    have hinverse : RationalFragment (pow x (integer (-1))) ∧ (pow x (integer (-1))).Defined σ :=
      ⟨hpow, by norm_num [x, σ, Defined, integer]⟩
    simpa [t] using ⟨hx, hnum 1, hnum 0, hinverse, hnum 2, hnum 1, hnum 0, hnum 1⟩
  have hdet : (t.valueMatrix σ 3).det = 3 := by
    have hget (i j : Fin 3) : t.valueMatrix σ 3 i j = (t.get [i, j]).value σ := rfl
    have hpow : (t.get [1, 1]).value σ = 1 / 2 := by
      change (pow x (integer (-1))).value σ = _
      norm_num [x, σ]
    rw [Matrix.det_fin_three]
    simp only [hget]
    change 2 * (t.get [1, 1]).value σ * 1 - 2 * 2 * 0 - 1 * 0 * 1 + 1 * 2 * 1 + 0 * 0 * 0 -
      0 * (t.get [1, 1]).value σ * 1 = 3
    rw [hpow]
    norm_num
  obtain ⟨⟨-, hvalue⟩, -, -, -, hproduct⟩ :=
    inverse_has_inverse_values (t := t) rfl rfl rfl hentries (by rw [hdet]; norm_num)
  exact ⟨hdet, hvalue.trans hdet, hproduct⟩

/-! The shapes of values. An entry of some rank and dimension has a value of that rank with all
components, and no operation on the components changes that. -/

theorem fillAliases_shape (symmetry : Symmetry) (t : Tensor) :
    (t.fillAliases symmetry).rank = t.rank ∧ (t.fillAliases symmetry).dimension = t.dimension ∧
      (t.Full → (t.fillAliases symmetry).Full) := by
  unfold fillAliases
  generalize indices t.rank t.dimension = indices
  induction indices generalizing t with
  | nil => exact ⟨rfl, rfl, id⟩
  | cons index indices ih =>
    obtain ⟨hrank, hdimension, hfull⟩ := fillAlias_shape (s := symmetry) t index
    obtain ⟨hrank', hdimension', hfull'⟩ := ih (t.fillAlias symmetry index)
    exact ⟨hrank'.trans hrank, hdimension'.trans hdimension, fun h => hfull' (hfull h)⟩

theorem Full.map {t : Tensor} (h : t.Full) (f : Expr → Expr) : (t.map f).Full := by
  unfold Full Tensor.map
  rw [Array.size_map]
  exact h

theorem leviCivita_shape (n : Nat) :
    (leviCivita n).rank = n ∧ (leviCivita n).dimension = n ∧ (leviCivita n).Full := by
  have hindices : ∀ p ∈ permutations n, p ∈ indices (zeros n n).rank (zeros n n).dimension := by
    intro p hp
    have hperm := perm_of_mem_permutations hp
    refine mem_indices.mpr ⟨hperm.length_eq.trans length_range, fun i hi => ?_⟩
    exact mem_range.mp (hperm.mem_iff.mp hi)
  obtain ⟨hfull, hrank, hdimension, _⟩ := foldl_set (g := fun p => (parity p).apply .one)
    (permutations n) (full_zeros n n) hindices
  exact ⟨hrank, hdimension, hfull⟩

theorem kronecker_eq (n : Nat) : kronecker n =
    ((List.range n).map fun i => [i, i]).foldl (fun t index => t.set index .one) (zeros 2 n) := by
  rw [foldl_map]
  rfl

theorem mem_indices_diagonal {n : Nat} (h : index ∈ (List.range n).map fun i => [i, i]) :
    index ∈ indices 2 n := by
  obtain ⟨i, hi, rfl⟩ := mem_map.mp h
  exact mem_indices.mpr ⟨rfl, by simpa using mem_range.mp hi⟩

theorem kronecker_shape (n : Nat) :
    (kronecker n).rank = 2 ∧ (kronecker n).dimension = n ∧ (kronecker n).Full := by
  obtain ⟨hfull, hrank, hdimension, _⟩ := foldl_set (g := fun _ => .one)
    ((List.range n).map fun i => [i, i]) (full_zeros 2 n) fun _ => mem_indices_diagonal
  rw [kronecker_eq]
  exact ⟨hrank, hdimension, hfull⟩

end Tensor

namespace Entry

/-- A tensor has the rank of an entry and all components, and the dimension of the entry if
that has indices. -/
structure Fits (e : Entry) (t : Tensor) : Prop where
  rank : t.rank = e.rank
  full : t.Full
  dimension : 0 < e.rank → t.dimension = e.dimension

def Shaped (e : Entry) : Prop :=
  e.Fits e.value

variable {e : Entry} {t : Tensor}

namespace Fits

section

variable (h : e.Fits t)
include h

theorem size : t.components.size = e.dimension ^ e.rank := by
  rw [h.full, h.rank]
  rcases Nat.eq_zero_or_pos e.rank with hzero | hpos
  · rw [hzero, Nat.pow_zero, Nat.pow_zero]
  · rw [h.dimension hpos]

theorem indices : indices t.rank t.dimension = indices e.rank e.dimension := by
  rw [h.rank]
  rcases Nat.eq_zero_or_pos e.rank with hzero | hpos
  · rw [hzero]
    rfl
  · rw [h.dimension hpos]

theorem set (index : IndexVector) (x : Expr) : e.Fits (t.set index x) where
  rank := (t.rank_set index x).trans h.rank
  full := h.full.set index x
  dimension hpos := (t.dimension_set index x).trans (h.dimension hpos)

theorem fillAliases (symmetry : Symmetry) : e.Fits (t.fillAliases symmetry) := by
  obtain ⟨hrank, hdimension, hfull⟩ := t.fillAliases_shape symmetry
  exact ⟨hrank.trans h.rank, hfull h.full, fun hpos => hdimension.trans (h.dimension hpos)⟩

theorem map (f : Expr → Expr) : e.Fits (t.map f) :=
  ⟨h.rank, h.full.map f, h.dimension⟩

end

theorem congr {e' : Entry} (h : e.Fits t) (hrank : e'.rank = e.rank)
    (hdimension : 0 < e.rank → e'.dimension = e.dimension) : e'.Fits t where
  rank := h.rank.trans hrank.symm
  full := h.full
  dimension hpos := by
    rw [hrank] at hpos
    exact (h.dimension hpos).trans (hdimension hpos).symm

end Fits

theorem fits_scalar (h : e.rank = 0) (x : Expr) : e.Fits (.scalar x) :=
  ⟨h.symm, Tensor.full_scalar x, fun hpos => absurd h hpos.ne'⟩

theorem fits_ofFn (f : IndexVector → Expr) : e.Fits (.ofFn e.rank e.dimension f) :=
  ⟨rfl, Tensor.full_ofFn _ _ _, fun _ => rfl⟩

theorem fits_symbolic (name : String) (symmetry : Symmetry) (naming : ComponentNaming) :
    e.Fits (.symbolic name e.rank e.dimension symmetry naming) := by
  unfold Tensor.symbolic
  split
  · next hrank => exact fits_scalar hrank _
  · exact fits_ofFn _

theorem fits_blank : e.Fits (if e.rank = 0 then .scalar .zero else .zeros e.rank e.dimension) := by
  split
  · next hrank => exact fits_scalar hrank _
  · exact ⟨rfl, Tensor.full_zeros _ _, fun _ => rfl⟩

theorem shaped_freeScalar (name : String) (dimension : Nat) : (freeScalar name dimension).Shaped :=
  fits_scalar rfl _

theorem Shaped.withId (h : e.Shaped) (id : Nat) : { e with id }.Shaped :=
  ⟨h.rank, h.full, h.dimension⟩

end Entry

namespace Session

theorem shaped_derivativeEntry (owner : Entry) (n : Nat) (naming : ComponentNaming) :
    (derivativeEntry owner n naming).Shaped := by
  have hrank : (derivativeEntry owner n naming).rank = owner.rank + 1 := by
    simp [derivativeEntry, Entry.rank]
  have hvalue : (derivativeEntry owner n naming).value = .symbolic (derivativeName owner)
      (derivativeEntry owner n naming).rank n (derivativeEntry owner n naming).symmetry naming := by
    rw [hrank]
    rfl
  unfold Entry.Shaped
  rw [hvalue]
  exact Entry.fits_symbolic _ _ _

theorem shaped_determinantEntry (base : String) (dimension : Nat) (value : Expr) :
    (determinantEntry base dimension value).Shaped :=
  Entry.fits_scalar rfl _

theorem shaped_inverse {base : String} {height : Height} {matrix : Tensor}
    (h : matrix.dimension = dimension) (origin : Origin) :
    (metricEntry base height dimension matrix.inverse.1 origin).Shaped := by
  subst h
  exact Entry.fits_ofFn (e := metricEntry base height matrix.dimension matrix.inverse.1 origin) _

theorem rank_eq_of_symmetryFault? {name : String} {rank : Nat} {symmetry : Symmetry}
    (h : symmetryFault? name rank dimension symmetry = none) :
    (symmetry = .permutation → rank = dimension) ∧
      (symmetry = .kronecker ∨ symmetry = .metric → rank = 2) := by
  constructor
  · rintro rfl
    by_contra hne
    simp [symmetryFault?, hne] at h
  · rintro (rfl | rfl) <;>
    · by_contra hne
      simp [symmetryFault?, hne] at h

theorem fits_declaredValue {e : Entry}
    (hfault : symmetryFault? e.name e.rank e.dimension e.symmetry = none)
    {kept : Option Tensor} (hkept : ∀ t ∈ kept, e.Fits t) (naming : ComponentNaming) :
    e.Fits (declaredValue e.name e.rank e.dimension e.symmetry naming kept) := by
  have hranks := rank_eq_of_symmetryFault? hfault
  unfold declaredValue
  split
  · next hpermutation =>
    obtain ⟨hrank, hdimension, hfull⟩ := Tensor.leviCivita_shape e.dimension
    exact ⟨hrank.trans (hranks.1 hpermutation).symm, hfull, fun _ => hdimension⟩
  · next hkronecker =>
    obtain ⟨hrank, hdimension, hfull⟩ := Tensor.kronecker_shape e.dimension
    exact ⟨hrank.trans (hranks.2 (.inl hkronecker)).symm, hfull, fun _ => hdimension⟩
  · exact (hkept _ rfl).fillAliases _
  · exact Entry.fits_symbolic _ _ _

end Session

end TensorCalculus
