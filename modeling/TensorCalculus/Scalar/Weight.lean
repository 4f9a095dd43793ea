import TensorCalculus.Scalar.Sum

/-! Sums and products of a size over a list, and what gathering numbers and collecting equal
keys does to them. -/
namespace TensorCalculus

variable {xs : List α} {v : Number → Nat}

open List Number

def total (f : α → Nat) : List α → Nat
  | [] => 0
  | x :: xs => f x + total f xs

def totalProduct (f : α → Nat) : List α → Nat
  | [] => 1
  | x :: xs => f x * totalProduct f xs

section

variable (f : α → Nat)

theorem total_append (xs ys : List α) : total f (xs ++ ys) = total f xs + total f ys := by
  induction xs with
  | nil => simp [total]
  | cons x xs ih => simp [total, ih, Nat.add_assoc]

theorem totalProduct_append (xs ys : List α) :
    totalProduct f (xs ++ ys) = totalProduct f xs * totalProduct f ys := by
  induction xs with
  | nil => simp [totalProduct]
  | cons x xs ih => simp [totalProduct, ih, Nat.mul_assoc]

theorem total_perm {ys : List α} (h : xs.Perm ys) : total f xs = total f ys := by
  induction h with
  | nil => rfl
  | cons x _ ih => simp [total, ih]
  | swap x y xs => simp [total, Nat.add_left_comm]
  | trans _ _ ih₁ ih₂ => rw [ih₁, ih₂]

theorem totalProduct_perm {ys : List α} (h : xs.Perm ys) :
    totalProduct f xs = totalProduct f ys := by
  induction h with
  | nil => rfl
  | cons x _ ih => simp [totalProduct, ih]
  | swap x y xs => simp [totalProduct, Nat.mul_left_comm]
  | trans _ _ ih₁ ih₂ => rw [ih₁, ih₂]

end

theorem total_map (f : β → Nat) (g : α → β) (xs : List α) :
    total f (xs.map g) = total (fun x => f (g x)) xs := by
  induction xs with
  | nil => rfl
  | cons x xs ih => simp [total, ih]

theorem totalProduct_map (f : β → Nat) (g : α → β) (xs : List α) :
    totalProduct f (xs.map g) = totalProduct (fun x => f (g x)) xs := by
  induction xs with
  | nil => rfl
  | cons x xs ih => simp [totalProduct, ih]

theorem total_flatten (f : α → Nat) (ls : List (List α)) :
    total f ls.flatten = total (total f) ls := by
  induction ls with
  | nil => rfl
  | cons l ls ih => simp [total, total_append, ih]

theorem totalProduct_flatten (f : α → Nat) (ls : List (List α)) :
    totalProduct f ls.flatten = totalProduct (totalProduct f) ls := by
  induction ls with
  | nil => rfl
  | cons l ls ih => simp [totalProduct, totalProduct_append, ih]

section

variable {f g : α → Nat} (h : ∀ x ∈ xs, f x ≤ g x)
include h

theorem total_le : total f xs ≤ total g xs := by
  induction xs with
  | nil => simp [total]
  | cons x xs ih =>
    exact Nat.add_le_add (h x (by simp)) (ih fun y hy => h y (mem_cons_of_mem x hy))

theorem totalProduct_le : totalProduct f xs ≤ totalProduct g xs := by
  induction xs with
  | nil => simp [totalProduct]
  | cons x xs ih =>
    exact Nat.mul_le_mul (h x (by simp)) (ih fun y hy => h y (mem_cons_of_mem x hy))

end

theorem le_total (f : α → Nat) {x : α} (h : x ∈ xs) : f x ≤ total f xs := by
  induction h with
  | head => exact Nat.le_add_right ..
  | tail _ _ ih => exact Nat.le_trans ih (Nat.le_add_left ..)

theorem totalProduct_pos {f : α → Nat} (h : ∀ x ∈ xs, 1 ≤ f x) : 1 ≤ totalProduct f xs := by
  induction xs with
  | nil => simp [totalProduct]
  | cons x xs ih =>
    exact Nat.mul_pos (h x (by simp)) (ih fun y hy => h y (mem_cons_of_mem x hy))

theorem le_totalProduct {f : α → Nat} {x : α} (h : ∀ y ∈ xs, 1 ≤ f y) (hx : x ∈ xs) :
    f x ≤ totalProduct f xs := by
  induction hx with
  | head xs =>
    exact Nat.le_mul_of_pos_right _
      (totalProduct_pos fun y hy => h y (mem_cons_of_mem x hy))
  | tail y _ ih =>
    exact Nat.le_trans (ih fun z hz => h z (mem_cons_of_mem y hz))
      (Nat.le_mul_of_pos_left _ (h y (by simp)))

namespace Number

/-- A cost that is not charged for 0. -/
def charge (v : Number → Nat) (q : Number) : Nat :=
  if q == 0 then 0 else v q

theorem charge_le (v : Number → Nat) (q : Number) : charge v q ≤ v q := by
  simp only [charge]; split <;> omega

theorem charge_add_le (hv : ∀ a q, v (a + q) ≤ v a + v q) (a q : Number) :
    charge v (a + q) ≤ charge v a + v q := by
  by_cases ha : a = 0
  · subst ha
    rw [Rat.zero_add]
    exact Nat.le_trans (charge_le v q) (Nat.le_add_left ..)
  · have h : charge v a = v a := by simp [charge, ha]
    rw [h]
    exact Nat.le_trans (charge_le v _) (hv a q)

/-- Adding numbers up does not raise a subadditive cost. -/
theorem total_gather_add? (hv : ∀ a q, v (a + q) ≤ v a + v q) (acc : Number) (qs : List Number) :
    charge v (gather add? acc qs).1 + total v (gather add? acc qs).2 ≤
      charge v acc + total v qs := by
  induction qs generalizing acc with
  | nil => simp [gather, total]
  | cons q qs ih =>
    cases hr : add? acc q with
    | some r =>
      simp only [gather, hr, total]
      have := ih r
      have := add?_eq_some hr ▸ charge_add_le hv acc q
      omega
    | none =>
      have := ih acc
      simp only [gather, hr, total]
      omega

theorem length_gather_le (op : Number → Number → Option Number) (acc : Number) (qs : List Number) :
    (gather op acc qs).2.length ≤ qs.length := by
  induction qs generalizing acc with
  | nil => simp [gather]
  | cons q qs ih =>
    simp only [gather]
    split
    · exact Nat.le_succ_of_le (ih _)
    · simpa using ih acc

/-- Multiplying numbers does not raise a cost that is submultiplicative. -/
theorem totalProduct_gather_mul? (hv : ∀ a q, v (a * q) ≤ v a * v q) (acc : Number)
    (qs : List Number) :
    v (gather mul? acc qs).1 * totalProduct v (gather mul? acc qs).2 ≤
      v acc * totalProduct v qs := by
  induction qs generalizing acc with
  | nil => simp [gather, totalProduct]
  | cons q qs ih =>
    cases hr : mul? acc q with
    | some r =>
      simp only [gather, hr]
      refine Nat.le_trans (ih r) ?_
      rw [mul?_eq_some hr, totalProduct, ← Nat.mul_assoc]
      exact Nat.mul_le_mul_right _ (hv acc q)
    | none =>
      simp only [gather, hr, totalProduct]
      rw [Nat.mul_left_comm, Nat.mul_left_comm (v acc)]
      exact Nat.mul_le_mul_left _ (ih acc)

theorem inRange_gather_mul? {acc : Number} (h : inRange acc) (qs : List Number) :
    inRange (gather mul? acc qs).1 ∧ ∀ q ∈ (gather mul? acc qs).2, q ≠ 1 := by
  induction qs generalizing acc with
  | nil => simp [gather, h]
  | cons q qs ih =>
    cases hr : mul? acc q with
    | some r =>
      simp only [gather, hr]
      exact ih (inRange_of_mul? hr)
    | none =>
      simp only [gather, hr]
      refine ⟨(ih h).1, fun p hp => ?_⟩
      rcases mem_cons.mp hp with rfl | hp
      · rintro rfl
        rw [mul?, Rat.mul_one, if_pos h] at hr
        contradiction
      · exact (ih h).2 p hp

end Number

namespace Expr

theorem runs_ne_nil {pairs : List (Expr × α)} {g : Expr × List α} (h : g ∈ runs pairs) :
    g.2 ≠ [] := by
  induction pairs generalizing g with
  | nil => simp [runs] at h
  | cons p pairs ih =>
    simp only [runs] at h
    split at h
    · simp at h; simp [h]
    · next k' vs groups heq =>
      split at h
      · rcases mem_cons.mp h with rfl | h
        · simp
        · exact ih (heq ▸ mem_cons_of_mem _ h)
      · rcases mem_cons.mp h with rfl | h
        · simp
        · exact ih (heq ▸ h)

section

variable (f : Expr → α → Nat) (pairs : List (Expr × α))

theorem total_runs :
    total (fun g => total (f g.1) g.2) (runs pairs) = total (fun p => f p.1 p.2) pairs := by
  induction pairs with
  | nil => rfl
  | cons p pairs ih =>
    simp only [runs, total, ← ih]
    split
    · next h => simp [total, h]
    · next k' vs groups h =>
      split
      · next hk => subst hk; simp [total, h, Nat.add_assoc]
      · simp [total, h]

theorem totalProduct_runs :
    totalProduct (fun g => totalProduct (f g.1) g.2) (runs pairs) =
      totalProduct (fun p => f p.1 p.2) pairs := by
  induction pairs with
  | nil => rfl
  | cons p pairs ih =>
    simp only [runs, totalProduct, ← ih]
    split
    · next h => simp [totalProduct, h]
    · next k' vs groups h =>
      split
      · next hk => subst hk; simp [totalProduct, h, Nat.mul_assoc]
      · simp [totalProduct, h]

theorem total_collect :
    total (fun g => total (f g.1) g.2) (collect pairs) = total (fun p => f p.1 p.2) pairs := by
  rw [collect, total_runs]
  exact total_perm _ (mergeSort_perm ..)

theorem totalProduct_collect :
    totalProduct (fun g => totalProduct (f g.1) g.2) (collect pairs) =
      totalProduct (fun p => f p.1 p.2) pairs := by
  rw [collect, totalProduct_runs]
  exact totalProduct_perm _ (mergeSort_perm ..)

end

/-- Splitting a list of expressions into the numbers and the others. -/
theorem total_numbers_others (f : Expr → Nat) (es : List Expr) :
    total (fun q => f (num q)) (es.filterMap number?) + total f (es.filter (!·.isNumber)) =
      total f es := by
  induction es with
  | nil => rfl
  | cons e es ih =>
    cases h : e.isNumber with
    | true =>
      obtain ⟨q, rfl⟩ := exists_eq_num h
      simp [total, ← ih, Nat.add_assoc]
    | false =>
      simp [total, ← ih, h, number?_eq_none h, Nat.add_left_comm]

theorem totalProduct_numbers_others (f : Expr → Nat) (es : List Expr) :
    totalProduct (fun q => f (num q)) (es.filterMap number?) *
      totalProduct f (es.filter (!·.isNumber)) = totalProduct f es := by
  induction es with
  | nil => rfl
  | cons e es ih =>
    cases h : e.isNumber with
    | true =>
      obtain ⟨q, rfl⟩ := exists_eq_num h
      simp [totalProduct, ← ih, Nat.mul_assoc]
    | false =>
      simp [totalProduct, ← ih, h, number?_eq_none h, Nat.mul_left_comm]

end Expr

/-! Bounds of a weight and a bulk together, and lists that are bounded member by member. -/

variable {ys : List β} {m : Expr → Nat} {es : List Expr} {e : Expr}

/-- At most the weight `W`, and where the weight is reached, at most the bulk `Z`. -/
structure Within (w z W Z : Nat) : Prop where
  weight_le : w ≤ W
  bulk_le : w = W → z ≤ Z

namespace Within

theorem mono {w z W Z W' Z' : Nat} (h : Within w z W Z) (hW : W ≤ W') (hZ : W = W' → Z ≤ Z') :
    Within w z W' Z' where
  weight_le := Nat.le_trans h.weight_le hW
  bulk_le e := by
    have := h.weight_le
    exact Nat.le_trans (h.bulk_le (by omega)) (hZ (by omega))

end Within

/-- Two lists of the same length whose members are related one by one. -/
def Pointwise (P : α → β → Prop) : List α → List β → Prop
  | [], [] => True
  | x :: xs, y :: ys => P x y ∧ Pointwise P xs ys
  | _, _ => False

theorem pointwise_iff_mapM {f : α → Option β} :
    Pointwise (fun x y => f x = some y) xs ys ↔ xs.mapM f = some ys := by
  induction xs generalizing ys with
  | nil => cases ys <;> simp [Pointwise]
  | cons x xs ih =>
    simp only [List.mapM_cons, bind, Option.bind_eq_some_iff, pure]
    cases ys with
    | nil => simp [Pointwise]
    | cons y ys => simp [Pointwise, ih]

theorem Pointwise.imp {P Q : α → β → Prop} (h : ∀ x ∈ xs, ∀ y, P x y → Q x y)
    (hP : Pointwise P xs ys) : Pointwise Q xs ys := by
  induction xs generalizing ys with
  | nil => cases ys <;> exact hP
  | cons x xs ih =>
    cases ys with
    | nil => exact hP
    | cons y ys =>
      exact ⟨h x (by simp) y hP.1, ih (fun z hz => h z (List.mem_cons_of_mem x hz)) hP.2⟩

theorem pointwise_map_left {P : β → γ → Prop} {g : α → β} {ys : List γ} :
    Pointwise P (xs.map g) ys ↔ Pointwise (fun x y => P (g x) y) xs ys := by
  induction xs generalizing ys with
  | nil => cases ys <;> exact Iff.rfl
  | cons x xs ih =>
    cases ys with
    | nil => exact Iff.rfl
    | cons y ys => exact and_congr_right fun _ => ih

theorem Pointwise.exists_of_mem {R : α → β → Prop} (h : Pointwise R xs ys) {y : β} (hy : y ∈ ys) :
    ∃ x ∈ xs, R x y := by
  induction xs generalizing ys with
  | nil => cases ys <;> simp_all [Pointwise]
  | cons x xs ih =>
    cases ys with
    | nil => cases hy
    | cons z ys =>
      cases hy with
      | head => exact ⟨x, by simp, h.1⟩
      | tail _ hy =>
        obtain ⟨w, hw, hR⟩ := ih h.2 hy
        exact ⟨w, List.mem_cons_of_mem x hw, hR⟩

theorem Pointwise.map {P : α → β → Prop} {g : α → β} (xs : List α) (h : ∀ x ∈ xs, P x (g x)) :
    Pointwise P xs (xs.map g) := by
  induction xs with
  | nil => trivial
  | cons x xs ih => exact ⟨h x (by simp), ih fun z hz => h z (List.mem_cons_of_mem x hz)⟩

section

variable {w z : β → Nat} {W Z : α → Nat}

/-- Factors within given sizes have a product within the product of the weights and the sum
of the bulks. -/
theorem Pointwise.within (hw : ∀ y, 1 ≤ w y)
    (h : Pointwise (fun x y => Within (w y) (z y) (W x) (Z x)) xs ys) :
    Within (totalProduct w ys) (total z ys) (totalProduct W xs) (total Z xs) := by
  induction xs generalizing ys with
  | nil =>
    cases ys with
    | nil => exact ⟨Nat.le_refl _, fun _ => Nat.le_refl _⟩
    | cons => exact h.elim
  | cons x xs ih =>
    cases ys with
    | nil => exact h.elim
    | cons y ys =>
      obtain ⟨hy, hys⟩ := h
      have hys := ih hys
      refine ⟨Nat.mul_le_mul hy.weight_le hys.weight_le, fun e => ?_⟩
      simp only [totalProduct] at e
      have hpos : 1 ≤ totalProduct w ys := totalProduct_pos fun y _ => hw y
      have hy' : w y = W x := by
        refine Nat.le_antisymm hy.weight_le (Nat.le_of_not_lt fun hlt => ?_)
        have h₁ := Nat.mul_lt_mul_of_pos_right hlt hpos
        have h₂ := Nat.mul_le_mul_left (W x) hys.weight_le
        omega
      have hys' : totalProduct w ys = totalProduct W xs := by
        rw [hy'] at e
        exact Nat.eq_of_mul_eq_mul_left (hy' ▸ hw y) e
      exact Nat.add_le_add (hy.bulk_le hy') (hys.bulk_le hys')

theorem Pointwise.total_within (h : Pointwise (fun x y => Within (w y) (z y) (W x) (Z x)) xs ys) :
    Within (total w ys) (total z ys) (total W xs) (total Z xs) := by
  induction xs generalizing ys with
  | nil =>
    cases ys with
    | nil => exact ⟨Nat.le_refl _, fun _ => Nat.le_refl _⟩
    | cons => exact h.elim
  | cons x xs ih =>
    cases ys with
    | nil => exact h.elim
    | cons y ys =>
      obtain ⟨⟨hy, hy'⟩, hys⟩ := h
      obtain ⟨hys, hys'⟩ := ih hys
      simp only [total]
      exact ⟨by omega, fun e => Nat.add_le_add (hy' (by omega)) (hys' (by omega))⟩

end

/-! Two sizes of expressions that simplification does not raise. The weight of a product is
at most the product of the weights, the weight of a sum at most the sum, and the weight of
a power the power. Where the weight stays the same the bulk goes down: it counts what is
still to be multiplied out. -/

namespace Expr

/-- A size of terms that collecting like terms does not raise. -/
structure IsTermSize (m : Expr → Nat) : Prop where
  num_add : ∀ a q, m (num (a + q)) ≤ m (num a) + m (num q)
  scale_add : ∀ r a q, m (scale (a + q) r) ≤ m (scale a r) + m (scale q r)
  scale_split : ∀ t : Expr, !t.isNumber → m (scale t.splitCoefficient.2 t.splitCoefficient.1) ≤ m t

namespace IsTermSize

theorem total_of_nonzero (m : Expr → Nat) (f : Number → Expr) (q : Number) :
    total m (if q == 0 then [] else [f q]) = charge (fun q => m (f q)) q := by
  simp only [charge]
  split <;> simp [total]

theorem total_likeTerms_le (hm : IsTermSize m) (r : Expr) (qs : List Number) :
    total m (likeTerms r qs) ≤ total (fun q => m (scale q r)) qs := by
  cases qs with
  | nil => simp [likeTerms, total]
  | cons q qs =>
    have h := total_gather_add? (v := fun q => m (scale q r)) (hm.scale_add r) q qs
    have hq := charge_le (fun q => m (scale q r)) q
    simp only [likeTerms, total_append, total_map, total, total_of_nonzero m (scale · r)]
    omega

theorem total_constantTerms_le (hm : IsTermSize m) (qs : List Number) :
    total m (constantTerms qs) ≤ total (fun q => m (num q)) qs := by
  have h := total_gather_add? (v := fun q => m (num q)) hm.num_add 0 qs
  have h₀ : charge (fun q => m (num q)) 0 = 0 := by simp [charge]
  simp only [constantTerms, total_append, total_map, total_of_nonzero m num]
  omega

theorem total_sumTerms_le (hm : IsTermSize m) (es : List Expr) :
    total m (sumTerms es) ≤ total m (termLists es) := by
  simp only [sumTerms, total_append, total_flatten, total_map]
  rw [← total_perm m (List.reverse_perm (termLists es)),
    ← total_numbers_others m (termLists es).reverse, Nat.add_comm]
  refine Nat.add_le_add (hm.total_constantTerms_le _) ?_
  refine Nat.le_trans (total_le fun g _ => hm.total_likeTerms_le g.1 g.2) ?_
  rw [total_collect fun r q => m (scale q r), total_map]
  exact total_le fun t ht => hm.scale_split t (by simpa using (List.mem_filter.mp ht).2)

end IsTermSize

mutual

def weight : Expr → Nat
  | num q => if q == 1 then 1 else 2
  | sym _ => 2
  | fn _ a => Nat.pow 2 a.weight
  | pow b e => Nat.pow (max 2 b.weight) e.weight
  | mul fs => max 2 (weightProduct fs)
  | add ts => max 2 (weightSum ts)

def weightProduct : List Expr → Nat
  | [] => 1
  | f :: fs => f.weight * weightProduct fs

def weightSum : List Expr → Nat
  | [] => 0
  | t :: ts => t.weight + weightSum ts

end

mutual

def bulk : Expr → Nat
  | num _ => 0
  | sym _ => 1
  | fn _ _ => 1
  | pow b e => b.bulk * (1 + (e.bulk + if e.isProduct || e.isSum then 0 else 1))
  | mul fs => 1 + factorBulk fs
  | add ts => max 1 (termBulk ts)

def factorBulk : List Expr → Nat
  | [] => 0
  | f :: fs => f.bulk + factorBulk fs

def termBulk : List Expr → Nat
  | [] => 0
  | t :: ts => t.bulk + (if t.isProduct then 0 else 1) + termBulk ts

end

/-- The bulk of an expression as a term of a sum. -/
def bulkInSum (t : Expr) : Nat :=
  t.bulk + if t.isProduct then 0 else 1

/-- The bulk of an expression as an exponent. -/
def bulkAbove (e : Expr) : Nat :=
  e.bulk + if e.isProduct || e.isSum then 0 else 1

theorem weightProduct_eq (fs : List Expr) : weightProduct fs = totalProduct weight fs := by
  induction fs with
  | nil => rfl
  | cons f fs ih => simp [weightProduct, totalProduct, ih]

theorem weightSum_eq (ts : List Expr) : weightSum ts = total weight ts := by
  induction ts with
  | nil => rfl
  | cons t ts ih => simp [weightSum, total, ih]

theorem factorBulk_eq (fs : List Expr) : factorBulk fs = total bulk fs := by
  induction fs with
  | nil => rfl
  | cons f fs ih => simp [factorBulk, total, ih]

theorem termBulk_eq (ts : List Expr) : termBulk ts = total bulkInSum ts := by
  induction ts with
  | nil => rfl
  | cons t ts ih => simp [termBulk, total, bulkInSum, ih]

theorem weight_mul (fs : List Expr) : (mul fs).weight = max 2 (totalProduct weight fs) := by
  rw [weight, weightProduct_eq]

theorem weight_add (ts : List Expr) : (add ts).weight = max 2 (total weight ts) := by
  rw [weight, weightSum_eq]

theorem bulk_mul (fs : List Expr) : (mul fs).bulk = 1 + total bulk fs := by
  rw [bulk, factorBulk_eq]

theorem bulk_add (ts : List Expr) : (add ts).bulk = max 1 (total bulkInSum ts) := by
  rw [bulk, termBulk_eq]

theorem bulk_pow (b e : Expr) : (pow b e).bulk = b.bulk * (1 + e.bulkAbove) := by
  rw [bulk, bulkAbove]

theorem weight_pos (e : Expr) : 1 ≤ e.weight := by
  cases e with
  | num q => simp only [weight]; split <;> omega
  | sym _ => simp [weight]
  | fn _ a => exact Nat.pow_pos (by omega)
  | pow b e => exact Nat.pow_pos (by omega)
  | mul fs | add fs => simp only [weight]; omega

/-- Only the number 1 weighs 1. -/
theorem two_le_weight (h : e ≠ one) : 2 ≤ e.weight := by
  have two_le_pow {a n : Nat} (ha : 2 ≤ a) (hn : 1 ≤ n) : 2 ≤ Nat.pow a n :=
    Nat.le_trans ha (Nat.le_self_pow (by omega) a)
  cases e with
  | num q =>
    simp only [weight, beq_iff_eq]
    split
    · next hq => exact absurd (congrArg num hq) h
    · omega
  | sym _ => simp [weight]
  | fn _ a => exact two_le_pow (by omega) a.weight_pos
  | pow b e => exact two_le_pow (by omega) e.weight_pos
  | mul fs | add fs => simp only [weight]; omega

theorem weight_num_le (q : Number) : (num q).weight ≤ 2 := by
  simp only [weight]; split <;> omega

theorem weight_one : one.weight = 1 := by
  simp [one, weight]

theorem weight_num_mul_le (a q : Number) :
    (num (a * q)).weight ≤ (num a).weight * (num q).weight := by
  by_cases ha : a = 1
  · subst ha
    rw [Rat.one_mul]
    exact Nat.le_mul_of_pos_left _ (weight_pos _)
  · have h₁ := weight_num_le (a * q)
    have h₂ : 2 ≤ (num a).weight := two_le_weight fun h => ha (num.inj h)
    exact Nat.le_trans h₁ (Nat.le_trans h₂ (Nat.le_mul_of_pos_right _ (weight_pos _)))

theorem bulk_le_bulkAbove (e : Expr) : e.bulk ≤ e.bulkAbove := by
  simp only [bulkAbove]; omega

theorem bulkAbove_pos (e : Expr) : 1 ≤ e.bulkAbove := by
  cases e with
  | mul fs => exact Nat.le_add_right ..
  | add ts => exact Nat.le_max_left ..
  | _ => exact Nat.le_add_left ..

theorem bulkAbove_le_bulkInSum (e : Expr) : e.bulkAbove ≤ e.bulkInSum := by
  cases e <;> simp [bulkAbove, bulkInSum, isProduct, isSum]

theorem bulkInSum_le (e : Expr) : e.bulkInSum ≤ e.bulk + 1 := by
  simp only [bulkInSum]; split <;> omega

theorem bulkInSum_num (q : Number) : (num q).bulkInSum = 1 := by
  simp [bulkInSum, bulk, isProduct]

theorem bulkAbove_num (q : Number) : (num q).bulkAbove = 1 := by
  simp [bulkAbove, bulk, isProduct, isSum]

theorem weight_scale_bounds (q : Number) (r : Expr) :
    r.weight ≤ (scale q r).weight ∧ (scale q r).weight ≤ 2 * r.weight := by
  have hr := r.weight_pos
  have hproduct (n : Nat) :=
    And.intro (Nat.mul_le_mul_right n (num q).weight_pos) (Nat.mul_le_mul_right n (weight_num_le q))
  simp only [scale]
  split
  · omega
  · split
    · next fs =>
      have := hproduct (totalProduct weight fs)
      simp only [weight_mul, totalProduct]
      omega
    · have := hproduct r.weight
      simp only [weight_mul, totalProduct, Nat.mul_one]
      omega

theorem isTermSize_weight : IsTermSize weight where
  num_add a q := by
    have := weight_num_le (a + q)
    have := (num a).weight_pos
    have := (num q).weight_pos
    omega
  scale_add r a q := by
    have := weight_scale_bounds (a + q) r
    have := weight_scale_bounds a r
    have := weight_scale_bounds q r
    omega
  scale_split t ht := by
    fun_cases splitCoefficient t
    · simp at ht
    · next q e =>
      have := (num q).weight_pos
      simp only [scale]
      split
      · have := Nat.mul_le_mul_right e.weight (num q).weight_pos
        simp only [weight_mul, totalProduct, Nat.mul_one]
        omega
      · split
        · next fs =>
          have := Nat.mul_le_mul_left (num q).weight
            (Nat.le_max_right 2 (totalProduct weight fs))
          simp only [weight_mul, totalProduct, Nat.mul_one]
          omega
        · exact Nat.le_refl _
    · next q fs _ =>
      simp only [scale]
      split
      · have := Nat.mul_le_mul_right (totalProduct weight fs) (num q).weight_pos
        simp only [weight_mul, totalProduct]
        omega
      · exact Nat.le_refl _
    · exact Nat.le_refl _

theorem bulk_num (q : Number) : (num q).bulk = 0 := by
  rw [bulk]

theorem bulkInSum_mul (fs : List Expr) : (mul fs).bulkInSum = 1 + total bulk fs := by
  simp [bulkInSum, bulk_mul, isProduct]

theorem bulkInSum_of_ne_mul (h : ∀ fs, e = mul fs → False) : e.bulkInSum = 1 + e.bulk := by
  cases e <;> simp_all [bulkInSum, isProduct, Nat.add_comm]

theorem bulkInSum_scale (q : Number) (r : Expr) : (scale q r).bulkInSum = r.bulkInSum := by
  simp only [scale]
  split
  · rfl
  · split
    · simp [bulkInSum_mul, total, bulk_num]
    · next h => simp [bulkInSum_mul, bulkInSum_of_ne_mul h, total, bulk_num]

theorem isTermSize_bulkInSum : IsTermSize bulkInSum where
  num_add a q := by simp [bulkInSum_num]
  scale_add r a q := by simp [bulkInSum_scale]
  scale_split t ht := by
    rw [bulkInSum_scale]
    fun_cases splitCoefficient t
    · simp at ht
    · next q e =>
      have := bulkInSum_le e
      simp only [bulkInSum_mul, total, bulk_num]
      omega
    · simp [bulkInSum_mul, total, bulk_num]
    · exact Nat.le_refl _

mutual

theorem total_weight_terms_le : ∀ e : Expr, total weight e.terms ≤ e.weight
  | add ts => by
    have := total_weight_termLists_le ts
    rw [terms, weight_add]
    omega
  | num _ | sym _ | fn _ _ | pow _ _ | mul _ => by simp [terms, total]

theorem total_weight_termLists_le : ∀ ts : List Expr, total weight (termLists ts) ≤ total weight ts
  | [] => by simp [termLists, total]
  | t :: ts => by
    have := total_weight_terms_le t
    have := total_weight_termLists_le ts
    rw [termLists, total_append, total]
    omega

end

mutual

theorem total_bulk_terms_le : ∀ e : Expr, total bulkInSum e.terms ≤ e.bulkAbove
  | add ts => by
    have := total_bulk_termLists_le ts
    simp only [terms, bulkAbove, bulk_add, isSum]
    omega
  | num _ | sym _ | fn _ _ | pow _ _ | mul _ => by
    simp [terms, total, bulkInSum, bulkAbove, isSum, isProduct]

theorem total_bulk_termLists_le : ∀ ts : List Expr,
    total bulkInSum (termLists ts) ≤ total bulkInSum ts
  | [] => by simp [termLists, total]
  | t :: ts => by
    have := total_bulk_terms_le t
    have := bulkAbove_le_bulkInSum t
    have := total_bulk_termLists_le ts
    rw [termLists, total_append, total]
    omega

end

theorem total_bulk_termLists_le_above : ∀ es : List Expr,
    total bulkInSum (termLists es) ≤ total bulkAbove es
  | [] => by simp [termLists, total]
  | e :: es => by
    have := total_bulk_terms_le e
    have := total_bulk_termLists_le_above es
    rw [termLists, total_append, total]
    omega

mutual

theorem totalProduct_factors_le : ∀ e : Expr, totalProduct weight e.factors ≤ e.weight
  | mul fs => by
    have := totalProduct_factorLists_le fs
    rw [factors, weight_mul]
    omega
  | num _ | sym _ | fn _ _ | pow _ _ | add _ => by simp [factors, totalProduct]

theorem totalProduct_factorLists_le : ∀ fs : List Expr,
    totalProduct weight (factorLists fs) ≤ totalProduct weight fs
  | [] => by simp [factorLists, totalProduct]
  | f :: fs => by
    rw [factorLists, totalProduct_append, totalProduct]
    exact Nat.mul_le_mul (totalProduct_factors_le f) (totalProduct_factorLists_le fs)

end

mutual

/-- Opening a product takes one from its bulk. -/
theorem total_bulk_factors_lt : ∀ e : Expr, 1 + total bulk e.factors ≤ e.bulkInSum
  | mul fs => by
    have := total_bulk_factorLists_le fs
    simp only [factors, bulkInSum, bulk_mul, isProduct]
    simp
    omega
  | num _ | sym _ | fn _ _ | pow _ _ | add _ => by
    simp [factors, total, bulkInSum, isProduct, Nat.add_comm]

theorem total_bulk_factorLists_le : ∀ fs : List Expr, total bulk (factorLists fs) ≤ total bulk fs
  | [] => by simp [factorLists, total]
  | f :: fs => by
    have := total_bulk_factors_lt f
    have := bulkInSum_le f
    have := total_bulk_factorLists_le fs
    rw [factorLists, total_append, total]
    omega

end

theorem weight_addNode_le (ts : List Expr) : (addNode ts).weight ≤ max 2 (total weight ts) := by
  fun_cases addNode ts
  · exact Nat.le_max_left ..
  · exact Nat.le_max_right ..
  · exact Nat.le_of_eq (by rw [weight_add, total_perm weight (List.mergeSort_perm ..)])

theorem bulkAbove_addNode_le (ts : List Expr) :
    (addNode ts).bulkAbove ≤ max 1 (total bulkInSum ts) := by
  fun_cases addNode ts
  · exact Nat.le_max_left ..
  · next t => exact Nat.le_trans (bulkAbove_le_bulkInSum t) (Nat.le_max_right ..)
  · rw [bulkAbove, bulk_add, total_perm bulkInSum (List.mergeSort_perm ..)]
    simp [isSum]

theorem weight_sum_le_max (es : List Expr) : (sum es).weight ≤ max 2 (total weight es) := by
  have := weight_addNode_le (sumTerms es)
  have := isTermSize_weight.total_sumTerms_le es
  have := total_weight_termLists_le es
  rw [sum]
  omega

theorem sum_one : sum [one] = one := by
  decide +kernel

theorem weight_sum_le (h : es ≠ []) : (sum es).weight ≤ total weight es := by
  match es with
  | [e] =>
    by_cases he : e = one
    · rw [he, sum_one]; simp [total]
    · have := weight_sum_le_max [e]
      have := two_le_weight he
      simp only [total] at *
      omega
  | e :: f :: es =>
    have := weight_sum_le_max (e :: f :: es)
    have := e.weight_pos
    have := f.weight_pos
    simp only [total] at *
    omega

theorem bulkAbove_sum_le (h : es ≠ []) : (sum es).bulkAbove ≤ total bulkAbove es := by
  have h₁ := bulkAbove_addNode_le (sumTerms es)
  have h₂ := isTermSize_bulkInSum.total_sumTerms_le es
  have h₃ := total_bulk_termLists_le_above es
  have h₄ : 1 ≤ total bulkAbove es := by
    cases es with
    | nil => exact absurd rfl h
    | cons e es =>
      have := e.bulkAbove_pos
      rw [total]
      omega
  rw [sum]
  omega

end Expr

end TensorCalculus
