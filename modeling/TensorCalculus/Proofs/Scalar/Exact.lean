import Mathlib.Algebra.BigOperators.Group.List.Basic
import Mathlib.Algebra.Order.Field.Rat
import Mathlib.Data.List.Perm.Basic
import Mathlib.Data.Rat.Lemmas
import Mathlib.Tactic.Linarith
import TensorCalculus.Scalar.Product

/-! Terms and factors up to order. Collecting equal keys only rearranges the pairs, and
gathering numbers keeps their sum or product. -/
namespace TensorCalculus

variable {qs : List Number} {q acc : Number}

open List Number

namespace Number

theorem gather_add?_eq (acc : Number) (qs : List Number) :
    (gather add? acc qs).1 + (gather add? acc qs).2.sum = acc + qs.sum := by
  induction qs generalizing acc with
  | nil => rfl
  | cons q qs ih =>
    cases hr : add? acc q with
    | some r =>
      simp only [gather, hr, sum_cons]
      rw [ih r, add?_eq_some hr, Rat.add_assoc]
    | none =>
      simp only [gather, hr, sum_cons]
      rw [Rat.add_comm q, ← Rat.add_assoc, ih acc, Rat.add_assoc, Rat.add_comm q]

theorem gather_mul?_eq (acc : Number) (qs : List Number) :
    (gather mul? acc qs).1 * (gather mul? acc qs).2.prod = acc * qs.prod := by
  induction qs generalizing acc with
  | nil => rfl
  | cons q qs ih =>
    cases hr : mul? acc q with
    | some r =>
      simp only [gather, hr, prod_cons]
      rw [ih r, mul?_eq_some hr, Rat.mul_assoc]
    | none =>
      simp only [gather, hr, prod_cons]
      rw [Rat.mul_comm q, ← Rat.mul_assoc, ih acc, Rat.mul_assoc, Rat.mul_comm q]

end Number

namespace Expr

theorem flatMap_runs (pairs : List (Expr × α)) :
    ((runs pairs).flatMap fun g => g.2.map (Prod.mk g.1)) = pairs := by
  induction pairs with
  | nil => rfl
  | cons p pairs ih =>
    obtain ⟨k, v⟩ := p
    simp only [runs]
    split
    · next h => rw [h] at ih; simp [← ih]
    · next k' vs groups h =>
      rw [h] at ih
      split
      · next hk => subst hk; simpa using ih
      · simpa using ih

theorem flatMap_collect_perm (pairs : List (Expr × α)) :
    ((collect pairs).flatMap fun g => g.2.map (Prod.mk g.1)).Perm pairs := by
  rw [collect, flatMap_runs]
  exact mergeSort_perm ..

section

variable {pairs : List (Expr × α)} {g : Expr × List α} (hg : g ∈ collect pairs)
include hg

theorem mem_of_mem_collect {v : α} (hv : v ∈ g.2) : (g.1, v) ∈ pairs := by
  rw [← (flatMap_collect_perm pairs).mem_iff, mem_flatMap]
  exact ⟨g, hg, mem_map_of_mem hv⟩

theorem exists_mem_of_mem_collect : ∃ v, (g.1, v) ∈ pairs := by
  obtain ⟨v, hv⟩ := exists_mem_of_ne_nil _ (runs_ne_nil hg)
  exact ⟨v, mem_of_mem_collect hg hv⟩

end

theorem numbers_append_others_perm (es : List Expr) :
    ((es.filterMap number?).map num ++ es.filter (!·.isNumber)).Perm es := by
  induction es with
  | nil => exact .nil
  | cons e es ih =>
    cases h : e.isNumber with
    | true =>
      obtain ⟨q, rfl⟩ := exists_eq_num h
      simpa using ih.cons (num q)
    | false =>
      simp only [filterMap_cons, number?_eq_none h, filter_cons, h]
      exact perm_middle.trans (ih.cons e)

end Expr

/-! The orders on expressions are linear. A sorted list is therefore determined by its
members, in whatever order they were given, and so are the nodes of sums and products. -/

theorem Number.compare_eq_lt {a b : Number} : compare a b = .lt ↔ a < b := by
  rw [compare, Int.compare_eq_lt, Rat.lt_iff]

namespace Expr

mutual

theorem compare_swap : ∀ a b : Expr, compare a b = (compare b a).swap
  | num a, num b => by simp only [compare, compare]; exact Std.OrientedOrd.eq_swap
  | sym a, sym b => by simp only [compare]; exact Std.OrientedOrd.eq_swap
  | fn f a, fn g b => by
    simp only [compare]
    rw [Ordering.swap_then, ← compare_swap a b, ← Std.OrientedOrd.eq_swap (α := Nat)]
  | pow a e, pow b f => by
    simp only [compare]
    rw [Ordering.swap_then, ← compare_swap a b, ← compare_swap e f]
  | mul as, mul bs => by simp only [compare]; exact compareLists_swap as bs
  | add as, add bs => by simp only [compare]; exact compareLists_swap as bs
  | num _, sym _ | num _, fn _ _ | num _, pow _ _ | num _, mul _ | num _, add _ => rfl
  | sym _, num _ | sym _, fn _ _ | sym _, pow _ _ | sym _, mul _ | sym _, add _ => rfl
  | fn _ _, num _ | fn _ _, sym _ | fn _ _, pow _ _ | fn _ _, mul _ | fn _ _, add _ => rfl
  | pow _ _, num _ | pow _ _, sym _ | pow _ _, fn _ _ | pow _ _, mul _ | pow _ _, add _ => rfl
  | mul _, num _ | mul _, sym _ | mul _, fn _ _ | mul _, pow _ _ | mul _, add _ => rfl
  | add _, num _ | add _, sym _ | add _, fn _ _ | add _, pow _ _ | add _, mul _ => rfl

theorem compareLists_swap : ∀ as bs : List Expr, compareLists as bs = (compareLists bs as).swap
  | [], [] | [], _ :: _ | _ :: _, [] => rfl
  | a :: as, b :: bs => by
    simp only [compareLists]
    rw [Ordering.swap_then, ← compare_swap a b, ← compareLists_swap as bs]

end

theorem then_eq_lt {o p : Ordering} : o.then p = .lt ↔ o = .lt ∨ o = .eq ∧ p = .lt := by
  cases o <;> simp

theorem then_lt_trans {o₁ o₂ o₃ p₁ p₂ p₃ : Ordering} (h₁ : o₁.then p₁ = .lt) (h₂ : o₂.then p₂ = .lt)
    (hlt : o₁ = .lt → o₂ = .lt → o₃ = .lt) (hleft : o₁ = .eq → o₃ = o₂)
    (hright : o₂ = .eq → o₃ = o₁) (hrest : p₁ = .lt → p₂ = .lt → p₃ = .lt) : o₃.then p₃ = .lt := by
  rw [then_eq_lt] at *
  rcases h₁ with h₁ | ⟨h₁, h₁'⟩
  · rcases h₂ with h₂ | ⟨h₂, -⟩
    · exact .inl (hlt h₁ h₂)
    · exact .inl ((hright h₂).trans h₁)
  · rcases h₂ with h₂ | ⟨h₂, h₂'⟩
    · exact .inl ((hleft h₁).trans h₂)
    · exact .inr ⟨(hright h₂).trans h₁, hrest h₁' h₂'⟩

theorem compare_of_kind_ne {a b : Expr} (h : a.kind ≠ b.kind) :
    compare a b = Ord.compare a.kind b.kind := by
  cases a <;> cases b <;> first | rfl | exact absurd rfl h

theorem kind_le_of_compare {a b : Expr} (h : compare a b = .lt) : a.kind ≤ b.kind := by
  by_cases hkind : a.kind = b.kind
  · exact hkind.le
  · rw [compare_of_kind_ne hkind, Nat.compare_eq_lt] at h
    exact h.le

mutual

theorem compare_lt_trans (a b c : Expr) (hab : compare a b = .lt) (hbc : compare b c = .lt) :
    compare a c = .lt := by
  have hle := kind_le_of_compare hab
  have hle' := kind_le_of_compare hbc
  by_cases hkind : a.kind = c.kind
  · obtain ⟨hb, hc⟩ : a.kind = b.kind ∧ b.kind = c.kind := by omega
    cases a <;> cases b <;> try (simp [kind] at hb; done)
    all_goals cases c <;> try (simp [kind] at hc; done)
    case num.num.num =>
      simp only [compare, compare_eq_lt] at *
      exact lt_trans hab hbc
    case sym.sym.sym =>
      simp only [compare] at *
      exact Std.TransCmp.lt_trans hab hbc
    case fn.fn.fn f a g b h c =>
      simp only [compare] at *
      refine then_lt_trans hab hbc Std.TransCmp.lt_trans ?_ ?_ (compare_lt_trans a b c)
      · intro heq
        rw [Nat.compare_eq_eq.mp heq]
      · intro heq
        rw [Nat.compare_eq_eq.mp heq]
    case pow.pow.pow a e b f c g =>
      simp only [compare] at *
      refine then_lt_trans hab hbc (compare_lt_trans a b c) ?_ ?_ (compare_lt_trans e f g)
      · intro heq
        rw [eq_of_compare heq]
      · intro heq
        rw [eq_of_compare heq]
    case mul.mul.mul as bs cs =>
      simp only [compare] at *
      exact compareLists_lt_trans as bs cs hab hbc
    case add.add.add as bs cs =>
      simp only [compare] at *
      exact compareLists_lt_trans as bs cs hab hbc
  · rw [compare_of_kind_ne hkind, Nat.compare_eq_lt]
    omega

theorem compareLists_lt_trans (as bs cs : List Expr) (hab : compareLists as bs = .lt)
    (hbc : compareLists bs cs = .lt) : compareLists as cs = .lt := by
  match as, bs, cs with
  | [], _ :: _, _ :: _ => rfl
  | a :: as, b :: bs, c :: cs =>
    simp only [compareLists] at *
    refine then_lt_trans hab hbc (compare_lt_trans a b c) ?_ ?_ (compareLists_lt_trans as bs cs)
    · intro heq
      rw [eq_of_compare heq]
    · intro heq
      rw [eq_of_compare heq]

end

instance : Std.TransCmp compare where
  eq_swap := compare_swap _ _
  isLE_trans {a b c} hab hbc := by
    rw [Ordering.isLE_iff_eq_lt_or_eq_eq] at *
    rcases hab with hab | hab
    · rcases hbc with hbc | hbc
      · exact .inl (compare_lt_trans a b c hab hbc)
      · exact .inl (eq_of_compare hbc ▸ hab)
    · rwa [eq_of_compare hab]

theorem transCmp_key_then {α κ : Type} (keyCompare : κ → κ → Ordering) (cmp : α → α → Ordering)
    [Std.TransCmp keyCompare] [Std.TransCmp cmp] (key : α → κ) :
    Std.TransCmp fun a b => (keyCompare (key a) (key b)).then (cmp a b) :=
  have : Std.TransCmp fun a b => keyCompare (key a) (key b) :=
    { eq_swap := Std.OrientedCmp.eq_swap, isLE_trans := Std.TransCmp.isLE_trans }
  inferInstanceAs (Std.TransCmp (compareLex (fun a b => keyCompare (key a) (key b)) cmp))

theorem atomCompare_eq (a b : Expr) : atomCompare a b =
    (Ord.compare (if a.kind = 1 then 0 else 1) (if b.kind = 1 then 0 else 1)).then
      (compare a b) := by
  cases a <;> cases b <;> rfl

instance : Std.TransCmp atomCompare := by
  rw [funext₂ atomCompare_eq]
  exact transCmp_key_then Ord.compare compare fun e : Expr => if e.kind = 1 then 0 else 1

instance : Std.TransCmp factorCompare :=
  transCmp_key_then atomCompare compare base

theorem atomCompareLists_eq (as bs : List Expr) :
    atomCompareLists as bs = List.compareLex atomCompare as bs := by
  induction as generalizing bs with
  | nil => cases bs <;> rfl
  | cons a as ih =>
    cases bs with
    | nil => rfl
    | cons b bs => rw [atomCompareLists, List.compareLex_cons_cons, ih]

theorem termCompare_eq (a b : Expr) : termCompare a b =
    (Ord.compare (if a.kind = 0 then 1 else 0) (if b.kind = 0 then 1 else 0)).then
      ((List.compareLex atomCompare a.bases b.bases).then (compare a b)) := by
  rw [← atomCompareLists_eq]
  cases a <;> cases b
  case num.num a b =>
    -- The bases of two numbers are compared as the numbers are.
    change Number.compare a b = ((Number.compare a b).then .eq).then (Number.compare a b)
    cases Number.compare a b <;> rfl
  all_goals rfl

instance : Std.TransCmp termCompare := by
  have := transCmp_key_then (List.compareLex atomCompare) compare bases
  rw [funext₂ termCompare_eq]
  exact transCmp_key_then Ord.compare (fun a b => (List.compareLex atomCompare a.bases b.bases).then
    (compare a b)) fun e : Expr => if e.kind = 0 then 1 else 0

instance : Std.LawfulEqCmp compare where
  eq_of_compare := eq_of_compare

instance : Std.LawfulEqCmp factorCompare where
  eq_of_compare h := eq_of_compare (Ordering.then_eq_eq.mp h).2

instance : Std.LawfulEqCmp termCompare where
  eq_of_compare {a b} h := by
    rw [termCompare_eq, Ordering.then_eq_eq, Ordering.then_eq_eq] at h
    exact eq_of_compare h.2.2

/-- The comparison of a linear order. -/
structure IsLinear {α : Type} (cmp : α → α → Ordering) : Prop where
  total : ∀ a b, (cmp a b).isLE ∨ (cmp b a).isLE
  antisymm : ∀ a b, (cmp a b).isLE → (cmp b a).isLE → a = b
  trans : ∀ a b c, (cmp a b).isLE → (cmp b c).isLE → (cmp a c).isLE
  eq_iff : ∀ a b, cmp a b = .eq ↔ a = b
  swap : ∀ a b, cmp b a = (cmp a b).swap

section Sorting

variable {α : Type} {cmp : α → α → Ordering} {xs ys : List α}

theorem IsLinear.eq_of_perm (hcmp : IsLinear cmp) (h : xs.Perm ys)
    (hxs : xs.Pairwise fun a b => (cmp a b).isLE) (hys : ys.Pairwise fun a b => (cmp a b).isLE) :
    xs = ys :=
  List.Perm.eq_of_pairwise (fun a b _ _ => hcmp.antisymm a b) hxs hys h

variable [Std.TransCmp cmp]

theorem isLE_total (a b : α) : (cmp a b).isLE ∨ (cmp b a).isLE := by
  have hswap : cmp b a = (cmp a b).swap := Std.OrientedCmp.eq_swap
  rw [hswap]
  cases cmp a b <;> simp

theorem pairwise_mergeSort_isLE (xs : List α) :
    (xs.mergeSort fun a b => (cmp a b).isLE).Pairwise fun a b => (cmp a b).isLE := by
  apply List.pairwise_mergeSort
  · intro a b c
    exact Std.TransCmp.isLE_trans
  · intro a b
    simpa using isLE_total a b

variable [Std.LawfulEqCmp cmp]

theorem isLinear : IsLinear cmp where
  total := isLE_total
  antisymm _ _ hab hba := Std.LawfulEqCmp.eq_of_compare (Std.OrientedCmp.isLE_antisymm hab hba)
  trans _ _ _ := Std.TransCmp.isLE_trans
  eq_iff _ _ := Std.LawfulEqCmp.compare_eq_iff_eq
  swap _ _ := Std.OrientedCmp.eq_swap

theorem mergeSort_eq_of_perm (h : xs.Perm ys) :
    (xs.mergeSort fun a b => (cmp a b).isLE) = ys.mergeSort fun a b => (cmp a b).isLE :=
  isLinear.eq_of_perm ((List.mergeSort_perm ..).trans (h.trans (List.mergeSort_perm ..).symm))
    (pairwise_mergeSort_isLE xs) (pairwise_mergeSort_isLE ys)

/-- What is made of two operands or more after sorting them does not depend on their order. -/
theorem eq_of_sorts {β : Type} {make node : List α → β} (hmake : ∀ a b rest, make (a :: b :: rest) =
      node ((a :: b :: rest).mergeSort fun a b => (cmp a b).isLE)) (h : xs.Perm ys) :
    make xs = make ys := by
  match xs, ys, h with
  | [], ys, h => rw [List.nil_perm.mp h]
  | [x], ys, h => rw [← List.singleton_perm.mp h]
  | x :: x' :: xs, [], h => exact absurd h.length_eq (by simp)
  | x :: x' :: xs, [y], h => exact absurd h.length_eq (by simp)
  | x :: x' :: xs, y :: y' :: ys, h => rw [hmake, hmake, mergeSort_eq_of_perm h]

end Sorting

variable {es es' : List Expr}

theorem addNode_perm (h : es.Perm es') : addNode es = addNode es' :=
  eq_of_sorts (fun _ _ _ => rfl) h

theorem mulNode_perm (h : es.Perm es') : mulNode q es = mulNode q es' :=
  @eq_of_sorts _ factorCompare _ _ _ _ _ _
    (fun sorted => mul (if q == 1 then sorted else num q :: sorted)) (fun _ _ _ => rfl) h

/-- The three orders are linear, so that any operands have one sorted arrangement, and the nodes of
sums and products are the same however their operands were arranged. -/
theorem orders_lawful :
    (∀ cmp ∈ [compare, termCompare, factorCompare], IsLinear cmp ∧
      ∀ es es' : List Expr, es.Perm es' → es.Pairwise (fun a b => (cmp a b).isLE) →
        es'.Pairwise (fun a b => (cmp a b).isLE) → es = es') ∧
    ∀ es es' : List Expr, es.Perm es' →
      addNode es = addNode es' ∧ ∀ q, mulNode q es = mulNode q es' := by
  constructor
  · intro cmp hcmp
    have hlinear : IsLinear cmp := by
      simp only [List.mem_cons, List.not_mem_nil, or_false] at hcmp
      rcases hcmp with rfl | rfl | rfl <;> exact isLinear
    exact ⟨hlinear, fun es es' => hlinear.eq_of_perm⟩
  · intro es es' h
    exact ⟨addNode_perm h, fun q => mulNode_perm h⟩

theorem orders_lawful_symbols :
    [sym "y", sym "x"].Perm [sym "x", sym "y"] ∧
      addNode [sym "y", sym "x"] = addNode [sym "x", sym "y"] :=
  have h : [sym "y", sym "x"].Perm [sym "x", sym "y"] := .swap ..
  ⟨h, (orders_lawful.2 _ _ h).1⟩

variable {α : Type}

def valuesAt (k : Expr) (pairs : List (Expr × α)) : List α :=
  (pairs.filter (·.1 = k)).map Prod.snd

@[simp] theorem valuesAt_nil (k : Expr) : valuesAt k ([] : List (Expr × α)) = [] := rfl

theorem valuesAt_append (k : Expr) (ps qs : List (Expr × α)) :
    valuesAt k (ps ++ qs) = valuesAt k ps ++ valuesAt k qs := by
  rw [valuesAt, filter_append, map_append, valuesAt, valuesAt]

theorem valuesAt_perm (k : Expr) {ps qs : List (Expr × α)} (h : ps.Perm qs) :
    (valuesAt k ps).Perm (valuesAt k qs) :=
  (h.filter _).map _

theorem valuesAt_eq_nil {k : Expr} {pairs : List (Expr × α)} :
    valuesAt k pairs = [] ↔ ∀ p ∈ pairs, p.1 ≠ k := by
  simp [valuesAt]

section

variable {pairs : List (Expr × α)}

theorem valuesAt_of_nodup (h : (pairs.map Prod.fst).Nodup) {p : Expr × α} (hp : p ∈ pairs) :
    valuesAt p.1 pairs = [p.2] := by
  induction pairs with
  | nil => cases hp
  | cons q pairs ih =>
    rw [map_cons, nodup_cons] at h
    rw [valuesAt, filter_cons]
    rcases mem_cons.mp hp with rfl | hp
    · have hnil : valuesAt p.1 pairs = [] :=
        valuesAt_eq_nil.mpr fun q hq heq => h.1 (heq ▸ mem_map_of_mem hq)
      rw [if_pos (by simp), map_cons]
      exact congrArg (p.2 :: ·) hnil
    · have hne : q.1 ≠ p.1 := fun heq => h.1 (heq ▸ mem_map_of_mem hp)
      rw [if_neg (by simpa using hne)]
      exact ih h.2 hp

theorem exists_mem_of_mem_runs {g : Expr × List α} (hg : g ∈ runs pairs) :
    ∃ v, (g.1, v) ∈ pairs := by
  obtain ⟨v, hv⟩ := exists_mem_of_ne_nil _ (runs_ne_nil hg)
  refine ⟨v, ?_⟩
  rw [← flatMap_runs pairs, mem_flatMap]
  exact ⟨g, hg, mem_map_of_mem hv⟩

theorem pairwise_runs (h : pairs.Pairwise fun p q => (compare p.1 q.1).isLE) :
    (runs pairs).Pairwise fun g g' => compare g.1 g'.1 = .lt := by
  induction pairs with
  | nil => exact .nil
  | cons p pairs ih =>
    rw [pairwise_cons] at h
    have hle (g : Expr × List α) (hg : g ∈ runs pairs) : (compare p.1 g.1).isLE := by
      obtain ⟨v, hv⟩ := exists_mem_of_mem_runs hg
      exact h.1 _ hv
    have ih := ih h.2
    simp only [runs]
    split
    · exact pairwise_singleton ..
    · next k' vs groups hruns =>
      rw [hruns] at ih hle
      have hgroups := (pairwise_cons.mp ih).1
      split
      · next heq =>
        rw [pairwise_cons]
        refine ⟨fun g hg => ?_, (pairwise_cons.mp ih).2⟩
        rw [heq]
        exact hgroups g hg
      · next hne =>
        have hlt : compare p.1 k' = .lt := by
          have hle := hle _ mem_cons_self
          rw [Ordering.isLE_iff_eq_lt_or_eq_eq] at hle
          exact hle.resolve_right (mt eq_of_compare hne)
        rw [pairwise_cons, forall_mem_cons]
        exact ⟨⟨hlt, fun g hg => Std.TransCmp.lt_trans hlt (hgroups g hg)⟩, ih⟩

end

@[simp] theorem collect_nil : collect ([] : List (Expr × α)) = [] := by
  rw [collect, mergeSort_nil, runs]

theorem pairwise_collect (pairs : List (Expr × α)) :
    (collect pairs).Pairwise fun g g' => compare g.1 g'.1 = .lt := by
  have : Std.TransCmp fun p q : Expr × α => compare p.1 q.1 :=
    { eq_swap := Std.OrientedCmp.eq_swap, isLE_trans := Std.TransCmp.isLE_trans }
  apply pairwise_runs
  apply pairwise_mergeSort_isLE

theorem ne_of_compare_lt {a b : Expr} (h : compare a b = .lt) : a ≠ b := by
  rintro rfl
  rw [compare_self] at h
  cases h

theorem nodup_keys_collect (pairs : List (Expr × α)) : ((collect pairs).map Prod.fst).Nodup := by
  rw [nodup_iff_pairwise_ne, pairwise_map]
  exact (pairwise_collect pairs).imp ne_of_compare_lt

theorem mem_keys_collect {pairs : List (Expr × α)} {k : Expr} :
    k ∈ (collect pairs).map Prod.fst ↔ k ∈ pairs.map Prod.fst := by
  rw [mem_map, mem_map]
  constructor
  · rintro ⟨g, hg, rfl⟩
    obtain ⟨v, hv⟩ := exists_mem_of_mem_collect hg
    exact ⟨_, hv, rfl⟩
  · rintro ⟨p, hp, rfl⟩
    rw [← (flatMap_collect_perm pairs).mem_iff, mem_flatMap] at hp
    obtain ⟨g, hg, hp⟩ := hp
    obtain ⟨v, _, rfl⟩ := mem_map.mp hp
    exact ⟨g, hg, rfl⟩

theorem valuesAt_flatMap {groups : List (Expr × List α)} (h : (groups.map Prod.fst).Nodup)
    {g : Expr × List α} (hg : g ∈ groups) :
    valuesAt g.1 (groups.flatMap fun g => g.2.map (Prod.mk g.1)) = g.2 := by
  have hsame (g : Expr × List α) : valuesAt g.1 (g.2.map (Prod.mk g.1)) = g.2 := by
    simp [valuesAt, filter_map, Function.comp_def]
  have hother {k : Expr} {g : Expr × List α} (hne : g.1 ≠ k) :
      valuesAt k (g.2.map (Prod.mk g.1)) = [] := by
    simp [valuesAt_eq_nil, hne]
  induction groups with
  | nil => cases hg
  | cons g' groups ih =>
    rw [map_cons, nodup_cons] at h
    rw [flatMap_cons, valuesAt_append]
    rcases mem_cons.mp hg with rfl | hg
    · rw [hsame, valuesAt_eq_nil.mpr, append_nil]
      intro p hp heq
      obtain ⟨g', hg', hp⟩ := mem_flatMap.mp hp
      obtain ⟨v, _, rfl⟩ := mem_map.mp hp
      exact h.1 (heq ▸ mem_map_of_mem hg')
    · have hne : g'.1 ≠ g.1 := fun heq => h.1 (heq ▸ mem_map_of_mem hg)
      rw [hother hne, nil_append]
      exact ih h.2 hg

theorem perm_valuesAt_of_mem_collect {pairs : List (Expr × α)} {g : Expr × List α}
    (hg : g ∈ collect pairs) : g.2.Perm (valuesAt g.1 pairs) := by
  have h := valuesAt_perm g.1 (flatMap_collect_perm pairs)
  rwa [valuesAt_flatMap (nodup_keys_collect pairs) hg] at h

theorem map_collect_of_nodup {β : Type} {F : Expr × List α → β} {pairs : List (Expr × α)}
    (h : (pairs.map Prod.fst).Nodup) :
    ((collect pairs).map F).Perm (pairs.map fun p => F (p.1, [p.2])) := by
  have hsingle (g : Expr × List α) (hg : g ∈ collect pairs) : ∃ v, g.2 = [v] := by
    obtain ⟨v, hv⟩ := exists_mem_of_mem_collect hg
    have hvalues := perm_valuesAt_of_mem_collect hg
    rw [valuesAt_of_nodup h hv, perm_singleton] at hvalues
    exact ⟨v, hvalues⟩
  have hmap : (collect pairs).map F =
      ((collect pairs).flatMap fun g => g.2.map (Prod.mk g.1)).map fun p => F (p.1, [p.2]) := by
    generalize collect pairs = groups at hsingle
    induction groups with
    | nil => rfl
    | cons g groups ih =>
      rw [forall_mem_cons] at hsingle
      obtain ⟨k, vs⟩ := g
      obtain ⟨v, rfl⟩ : ∃ v, vs = [v] := hsingle.1
      rw [map_cons, ih hsingle.2]
      simp
  rw [hmap]
  exact (flatMap_collect_perm pairs).map _

theorem eq_of_pairwise_lt {β : Type} {key : β → Expr} {xs ys : List β}
    (hxs : xs.Pairwise fun a b => compare (key a) (key b) = .lt)
    (hys : ys.Pairwise fun a b => compare (key a) (key b) = .lt) (h : ∀ a, a ∈ xs ↔ a ∈ ys) :
    xs = ys := by
  have hnodup {zs : List β} (hzs : zs.Pairwise fun a b => compare (key a) (key b) = .lt) :
      zs.Nodup := hzs.imp fun hlt heq => ne_of_compare_lt hlt (congrArg key heq)
  refine List.Perm.eq_of_pairwise (fun a b _ _ hab hba => ?_) hxs hys
    ((perm_ext_iff_of_nodup (hnodup hxs) (hnodup hys)).mpr h)
  have hswap := compare_swap (key a) (key b)
  rw [hab, hba] at hswap
  cases hswap

theorem keys_collect_perm {pairs pairs' : List (Expr × α)} (h : pairs.Perm pairs') :
    (collect pairs).map Prod.fst = (collect pairs').map Prod.fst := by
  have hsorted (ps : List (Expr × α)) :
      ((collect ps).map Prod.fst).Pairwise fun a b => compare (id a) (id b) = .lt :=
    pairwise_map.mpr (pairwise_collect ps)
  refine eq_of_pairwise_lt (hsorted pairs) (hsorted pairs') fun k => ?_
  rw [mem_keys_collect, mem_keys_collect, (h.map Prod.fst).mem_iff]

theorem map_collect_perm {β : Type} {F : Expr × List α → β} {pairs pairs' : List (Expr × α)}
    (h : pairs.Perm pairs') (hF : ∀ g ∈ collect pairs, ∀ g' ∈ collect pairs', g.1 = g'.1 →
      g.2.Perm g'.2 → F g = F g') : (collect pairs).map F = (collect pairs').map F := by
  have hsame (g : Expr × List α) (hg : g ∈ collect pairs) (g' : Expr × List α)
      (hg' : g' ∈ collect pairs') (hkey : g.1 = g'.1) : F g = F g' := by
    apply hF g hg g' hg' hkey
    calc g.2.Perm (valuesAt g.1 pairs) := perm_valuesAt_of_mem_collect hg
      _ = valuesAt g'.1 pairs := by rw [hkey]
      List.Perm _ (valuesAt g'.1 pairs') := valuesAt_perm _ h
      List.Perm _ g'.2 := (perm_valuesAt_of_mem_collect hg').symm
  have hkeys := keys_collect_perm h
  generalize collect pairs = groups, collect pairs' = groups' at hsame hkeys
  induction groups generalizing groups' with
  | nil =>
    rw [map_nil, nil_eq, map_eq_nil_iff] at hkeys
    rw [hkeys]
  | cons g groups ih =>
    cases groups' with
    | nil => cases hkeys
    | cons g' groups' =>
      rw [map_cons, map_cons, List.cons.injEq] at hkeys
      rw [map_cons, map_cons, hsame g (by simp) g' (by simp) hkeys.1]
      congr 1
      apply ih _ _ hkeys.2
      intro g hg g' hg'
      exact hsame g (mem_cons_of_mem _ hg) g' (mem_cons_of_mem _ hg')

end Expr

/-! Sums in which no addition of coefficients leaves the range. Such a sum is determined by the
total coefficient of each term and the total of the numbers. -/

namespace Number

def Gathers (op : Number → Number → Option Number) (acc : Number) (qs : List Number) : Prop :=
  (gather op acc qs).2 = []

instance (op : Number → Number → Option Number) (acc : Number) (qs : List Number) :
    Decidable (Gathers op acc qs) :=
  inferInstanceAs (Decidable (_ = _))

theorem Gathers.add_eq (h : Gathers add? acc qs) : (gather add? acc qs).1 = acc + qs.sum := by
  have heq := gather_add?_eq acc qs
  rwa [h, List.sum_nil, Rat.add_zero] at heq

theorem Gathers.mul_eq (h : Gathers mul? acc qs) : (gather mul? acc qs).1 = acc * qs.prod := by
  have heq := gather_mul?_eq acc qs
  rwa [h, List.prod_nil, Rat.mul_one] at heq

def Adds : List Number → Prop
  | [] => True
  | q :: qs => Gathers add? q qs

instance : DecidablePred Adds
  | [] => inferInstanceAs (Decidable True)
  | q :: qs => inferInstanceAs (Decidable (Gathers add? q qs))

theorem fits_of_mul {n k : Int} (hk : 1 ≤ k) (h : fits (n * k)) : fits n := by
  simp only [fits, Bool.and_eq_true, decide_eq_true_eq] at *
  rcases Int.le_total 0 n with hn | hn <;> constructor <;> nlinarith

theorem num_mul_div {den : Nat} (h : q.den ∣ den) :
    ((q.num * (den / q.den : Nat) : Int) : Rat) = q * den := by
  obtain ⟨m, rfl⟩ := h
  rw [Nat.mul_div_cancel_left m q.den_pos]
  push_cast
  rw [← mul_assoc, Rat.mul_den_eq_num]

theorem inRange_add? {a b c : Number} (h : add? a b = some c) : inRange c := by
  rw [add?_eq_some h]
  simp only [add?] at h
  split at h
  · next hfits =>
    simp only [Bool.and_eq_true] at hfits
    obtain ⟨⟨⟨hden, -⟩, -⟩, hsum⟩ := hfits
    have hdvd := Rat.add_den_dvd_lcm a b
    obtain ⟨k, hk⟩ := hdvd
    have hpos : 0 < a.den.lcm b.den := Nat.lcm_pos a.den_pos b.den_pos
    have hle : 1 ≤ k := by
      rcases Nat.eq_zero_or_pos k with rfl | hk' <;> omega
    have hnum : (a + b).num * k =
        a.num * (a.den.lcm b.den / a.den : Nat) + b.num * (a.den.lcm b.den / b.den : Nat) := by
      have h := num_mul_div (q := a + b) ⟨k, hk⟩
      have ha := num_mul_div (Nat.dvd_lcm_left a.den b.den)
      have hb := num_mul_div (Nat.dvd_lcm_right a.den b.den)
      rw [add_mul, ← ha, ← hb, hk, Nat.mul_div_cancel_left k (a + b).den_pos, ← hk] at h
      exact_mod_cast h
    rw [inRange, Bool.and_eq_true]
    constructor
    · apply fits_of_mul (k := k) (by omega)
      rwa [hnum]
    · apply fits_of_mul (k := k) (by omega)
      rw [hk] at hden
      exact_mod_cast hden
  · cases h

theorem inRange_gather_add? (h : inRange acc) (qs : List Number) :
    inRange (gather add? acc qs).1 := by
  induction qs generalizing acc with
  | nil => exact h
  | cons q qs ih =>
    cases hr : add? acc q with
    | some r =>
      simp only [gather, hr]
      exact ih (inRange_add? hr)
    | none =>
      simp only [gather, hr]
      exact ih h

theorem add?_zero (h : inRange q) : add? 0 q = some q := by
  simp_all [add?, inRange, fits]

theorem Adds.inRange_sum (h : Adds qs) (hqs : ∀ q ∈ qs, inRange q) : inRange qs.sum := by
  cases qs with
  | nil => decide
  | cons q qs =>
    rw [List.sum_cons, ← Gathers.add_eq h]
    exact inRange_gather_add? (hqs q List.mem_cons_self) qs

end Number

variable {us es es' : List Expr} {k : Expr} {ts : List Expr}

namespace Expr

def splitTerms (ts : List Expr) : List (Expr × Number) :=
  (ts.filter (!·.isNumber)).map splitCoefficient

/-- No coefficient and no number of the sum is left over. -/
structure SumExact (operands : List Expr) : Prop where
  coefficients : ∀ g ∈ collect (splitTerms (termLists operands).reverse), Number.Adds g.2
  numbers : Number.Gathers add? 0 ((termLists operands).reverse.filterMap number?)

theorem sumExact_iff {operands : List Expr} : SumExact operands ↔
    (collect (splitTerms (termLists operands).reverse)).all (fun g => decide (Number.Adds g.2)) ∧
      Number.Gathers add? 0 ((termLists operands).reverse.filterMap number?) := by
  simp only [all_eq_true, decide_eq_true_eq]
  exact ⟨fun h => ⟨h.coefficients, h.numbers⟩, fun h => ⟨h.1, h.2⟩⟩

instance : DecidablePred SumExact := fun _ => decidable_of_iff' _ sumExact_iff

def coefficientOf (k : Expr) (ts : List Expr) : Number :=
  (valuesAt k (splitTerms ts)).sum

def numberTotal (ts : List Expr) : Number :=
  (ts.filterMap number?).sum

theorem splitTerms_append (ts us : List Expr) :
    splitTerms (ts ++ us) = splitTerms ts ++ splitTerms us := by
  rw [splitTerms, filter_append, map_append, splitTerms, splitTerms]

theorem splitTerms_perm (h : ts.Perm us) : (splitTerms ts).Perm (splitTerms us) :=
  (h.filter _).map _

theorem coefficientOf_append (k : Expr) (ts us : List Expr) :
    coefficientOf k (ts ++ us) = coefficientOf k ts + coefficientOf k us := by
  rw [coefficientOf, splitTerms_append, valuesAt_append, sum_append, coefficientOf, coefficientOf]

theorem coefficientOf_perm (k : Expr) (h : ts.Perm us) : coefficientOf k ts = coefficientOf k us :=
  (valuesAt_perm k (splitTerms_perm h)).sum_eq

theorem numberTotal_append (ts us : List Expr) :
    numberTotal (ts ++ us) = numberTotal ts + numberTotal us := by
  rw [numberTotal, filterMap_append, sum_append, numberTotal, numberTotal]

theorem numberTotal_perm (h : ts.Perm us) : numberTotal ts = numberTotal us :=
  (h.filterMap _).sum_eq

def combined (ts : List Expr) : List (Expr × Number) :=
  ((collect (splitTerms ts)).map fun g => (g.1, g.2.sum)).filter (·.2 ≠ 0)

theorem sum_values_of_mem_collect {g : Expr × List Number} (hg : g ∈ collect (splitTerms ts)) :
    g.2.sum = coefficientOf g.1 ts :=
  (perm_valuesAt_of_mem_collect hg).sum_eq

theorem mem_combined : (k, q) ∈ combined ts ↔ q = coefficientOf k ts ∧ q ≠ 0 := by
  rw [combined, mem_filter, mem_map, decide_eq_true_eq]
  refine and_congr_left fun hq => ⟨?_, fun heq => ?_⟩
  · rintro ⟨g, hg, heq⟩
    cases heq
    exact sum_values_of_mem_collect hg
  · have hk : k ∈ (collect (splitTerms ts)).map Prod.fst := by
      rw [mem_keys_collect]
      by_contra hk
      have hnil : valuesAt k (splitTerms ts) = [] := by
        rw [valuesAt_eq_nil]
        rintro p hp rfl
        exact hk (mem_map_of_mem hp)
      rw [coefficientOf, hnil] at heq
      exact hq heq
    obtain ⟨g, hg, rfl⟩ := mem_map.mp hk
    exact ⟨g, hg, by rw [heq, sum_values_of_mem_collect hg]⟩

theorem pairwise_combined (ts : List Expr) :
    (combined ts).Pairwise fun p p' => compare p.1 p'.1 = .lt := by
  apply List.Pairwise.filter
  rw [pairwise_map]
  exact pairwise_collect _

theorem nodup_keys_combined (ts : List Expr) : ((combined ts).map Prod.fst).Nodup := by
  rw [nodup_iff_pairwise_ne, pairwise_map]
  exact (pairwise_combined ts).imp ne_of_compare_lt

theorem combined_congr (h : ∀ k, coefficientOf k ts = coefficientOf k us) :
    combined ts = combined us := by
  apply eq_of_pairwise_lt (pairwise_combined ts) (pairwise_combined us)
  rintro ⟨k, q⟩
  rw [mem_combined, mem_combined, h]

theorem sum_valuesAt_combined (k : Expr) (ts : List Expr) :
    (valuesAt k (combined ts)).sum = coefficientOf k ts := by
  by_cases hzero : coefficientOf k ts = 0
  · have hnil : valuesAt k (combined ts) = [] := by
      rw [valuesAt_eq_nil]
      rintro ⟨k, q⟩ hp rfl
      rw [mem_combined] at hp
      exact hp.2 (hp.1.trans hzero)
    rw [hnil, hzero]
    rfl
  · have hmem : (k, coefficientOf k ts) ∈ combined ts := mem_combined.mpr ⟨rfl, hzero⟩
    rw [valuesAt_of_nodup (nodup_keys_combined ts) hmem, List.sum_singleton]

def combinedTerms (ts : List Expr) : List Expr :=
  (combined ts).map (fun p => scale p.2 p.1) ++
    if numberTotal ts = 0 then [] else [num (numberTotal ts)]

theorem likeTerms_of_adds (h : Number.Adds qs) (rest : Expr) :
    likeTerms rest qs = if qs.sum = 0 then [] else [scale qs.sum rest] := by
  cases qs with
  | nil => rfl
  | cons q qs =>
    have h₂ : (gather add? q qs).2 = [] := h
    simp only [likeTerms, h₂, Number.Gathers.add_eq h, ← sum_cons, map_nil, append_nil, beq_iff_eq]

theorem constantTerms_of_gathers (h : Number.Gathers add? 0 qs) :
    constantTerms qs = if qs.sum = 0 then [] else [num qs.sum] := by
  have h₂ : (gather add? 0 qs).2 = [] := h
  simp only [constantTerms, h₂, Number.Gathers.add_eq h, Rat.zero_add, map_nil,
    append_nil, beq_iff_eq]

theorem SumExact.sumTerms_eq {operands : List Expr} (h : SumExact operands) :
    sumTerms operands = combinedTerms (termLists operands) := by
  have hperm := reverse_perm (termLists operands)
  have hlike : ((collect (splitTerms (termLists operands).reverse)).map fun g =>
      likeTerms g.1 g.2).flatten = (combined (termLists operands)).map fun p => scale p.2 p.1 := by
    rw [← combined_congr (fun k => coefficientOf_perm k hperm), combined]
    have hadds := h.coefficients
    generalize collect (splitTerms (termLists operands).reverse) = groups at hadds
    induction groups with
    | nil => rfl
    | cons g groups ih =>
      rw [forall_mem_cons] at hadds
      rw [map_cons, flatten_cons, ih hadds.2, likeTerms_of_adds hadds.1, map_cons, filter_cons]
      by_cases hzero : g.2.sum = 0 <;> simp [hzero]
  change _ ++ constantTerms _ = _
  rw [constantTerms_of_gathers h.numbers, combinedTerms, ← numberTotal_perm hperm]
  exact congrArg (· ++ _) hlike

theorem sum_congr (h : SumExact es) (h' : SumExact es')
    (hcoefficient : ∀ k, coefficientOf k (termLists es) = coefficientOf k (termLists es'))
    (hnumber : numberTotal (termLists es) = numberTotal (termLists es')) : sum es = sum es' := by
  rw [sum, sum, h.sumTerms_eq, h'.sumTerms_eq, combinedTerms, combinedTerms,
    combined_congr hcoefficient, hnumber]

theorem termLists_append (es es' : List Expr) :
    termLists (es ++ es') = termLists es ++ termLists es' := by
  induction es with
  | nil => rfl
  | cons e es ih => rw [cons_append, termLists, termLists, ih, append_assoc]

theorem termLists_eq_flatMap (es : List Expr) : termLists es = es.flatMap terms := by
  induction es with
  | nil => rfl
  | cons e es ih => rw [termLists, ih, flatMap_cons]

theorem termLists_perm (h : es.Perm es') : (termLists es).Perm (termLists es') := by
  rw [termLists_eq_flatMap, termLists_eq_flatMap]
  exact h.flatMap_right _

theorem sum_perm (hperm : es.Perm es') (h : SumExact es) (h' : SumExact es') : sum es = sum es' := by
  apply sum_congr h h'
  · intro k
    exact coefficientOf_perm k (termLists_perm hperm)
  · exact numberTotal_perm (termLists_perm hperm)

/-- Neither a sum nor a number, and a product only of two factors or more that does not start
with a number: putting a coefficient in front and splitting it off again gives it back. -/
def isBare : Expr → Bool
  | num _ => false
  | add _ => false
  | mul (num _ :: _) => false
  | mul [_] => false
  | _ => true

theorem scale_one (k : Expr) : scale 1 k = k := by
  unfold scale
  exact if_pos rfl

theorem isBare_self (hk : k.isBare) :
    k.isNumber = false ∧ k.terms = [k] ∧ k.splitCoefficient = (k, 1) := by
  match k, hk with
  | sym _, _ | fn _ _, _ | pow _ _, _ | mul [], _ => exact ⟨rfl, rfl, rfl⟩
  | mul [f], hk => cases f <;> cases hk
  | mul (f :: g :: fs), hk =>
    cases f with
    | num q => cases hk
    | _ => exact ⟨rfl, rfl, rfl⟩

theorem scale_of_isBare (hk : k.isBare) (q : Number) :
    (scale q k).isNumber = false ∧ (scale q k).terms = [scale q k] ∧
      (scale q k).splitCoefficient = (k, q) := by
  by_cases hq : q = 1
  · subst hq
    rw [scale_one]
    exact isBare_self hk
  · unfold scale
    rw [if_neg (by simpa using hq)]
    match k, hk with
    | sym _, _ | fn _ _, _ | pow _ _, _ | mul [], _ | mul (_ :: _ :: _), _ => exact ⟨rfl, rfl, rfl⟩
    | mul [f], hk => cases f <;> cases hk

/-- The terms of a sum keep their coefficients when the sum is one term of another sum. -/
def IsBareIn (ts : List Expr) : Prop :=
  ∀ t ∈ ts, t.isNumber = false → t.splitCoefficient.1.isBare

theorem isBare_of_mem_combined (h : IsBareIn ts) {p : Expr × Number} (hp : p ∈ combined ts) :
    p.1.isBare := by
  obtain ⟨g, hg, rfl⟩ := mem_map.mp (mem_of_mem_filter hp)
  obtain ⟨q, hq⟩ := exists_mem_of_mem_collect hg
  obtain ⟨t, ht, heq⟩ := mem_map.mp hq
  obtain ⟨ht, hnumber⟩ := mem_filter.mp ht
  rw [← congrArg Prod.fst heq]
  exact h t ht (by simpa using hnumber)

section Bare

variable (h : IsBareIn ts)
include h

theorem termLists_combinedTerms : termLists (combinedTerms ts) = combinedTerms ts := by
  rw [termLists_eq_flatMap]
  have hself (t : Expr) (ht : t ∈ combinedTerms ts) : t.terms = [t] := by
    rw [combinedTerms, mem_append, mem_map] at ht
    rcases ht with ⟨p, hp, rfl⟩ | ht
    · exact (scale_of_isBare (isBare_of_mem_combined h hp) p.2).2.1
    · split at ht
      · cases ht
      · rw [mem_singleton.mp ht]; rfl
  rw [flatMap_congr hself, flatMap_singleton']

theorem splitTerms_combinedTerms : splitTerms (combinedTerms ts) = combined ts := by
  have hnumbers : splitTerms (if numberTotal ts = 0 then [] else [num (numberTotal ts)]) = [] := by
    split <;> rfl
  have hbare (p : Expr × Number) (hp : p ∈ combined ts) := isBare_of_mem_combined h hp
  rw [combinedTerms, splitTerms_append, hnumbers, append_nil]
  generalize combined ts = ps at hbare
  induction ps with
  | nil => rfl
  | cons p ps ih =>
    rw [forall_mem_cons] at hbare
    obtain ⟨hnumber, -, hsplit⟩ := scale_of_isBare hbare.1 p.2
    have ih := ih hbare.2
    rw [splitTerms] at ih ⊢
    rw [map_cons, filter_cons, if_pos (by rw [hnumber]; rfl), map_cons, hsplit, ih]

theorem coefficientOf_combinedTerms (k : Expr) :
    coefficientOf k (combinedTerms ts) = coefficientOf k ts := by
  rw [coefficientOf, splitTerms_combinedTerms h, sum_valuesAt_combined]

theorem filterMap_scaled : ((combined ts).map fun p => scale p.2 p.1).filterMap number? = [] := by
  rw [filterMap_eq_nil_iff]
  intro t ht
  obtain ⟨p, hp, rfl⟩ := mem_map.mp ht
  exact number?_eq_none (scale_of_isBare (isBare_of_mem_combined h hp) p.2).1

theorem numberTotal_combinedTerms : numberTotal (combinedTerms ts) = numberTotal ts := by
  rw [combinedTerms, numberTotal_append, numberTotal, filterMap_scaled h, sum_nil, Rat.zero_add]
  by_cases hzero : numberTotal ts = 0
  · rw [if_pos hzero, hzero]
    rfl
  · rw [if_neg hzero]
    exact List.sum_singleton

end Bare

theorem coefficientOf_terms_addNode (h : termLists ts = ts) (k : Expr) :
    coefficientOf k (addNode ts).terms = coefficientOf k ts ∧
      numberTotal (addNode ts).terms = numberTotal ts := by
  fun_cases addNode ts with
  | case1 => exact ⟨rfl, Rat.add_zero 0⟩
  | case2 t =>
    rw [termLists, termLists, append_nil] at h
    rw [h]
    exact ⟨rfl, rfl⟩
  | case3 =>
    have hperm := mergeSort_perm ts fun a b => (termCompare a b).isLE
    have hterms := (termLists_perm hperm)
    rw [h] at hterms
    rw [terms]
    exact ⟨coefficientOf_perm k hterms, numberTotal_perm hterms⟩

theorem sum_append_sum (hus : SumExact us) (hbare : IsBareIn (termLists us))
    (h : SumExact (ts ++ [sum us])) (h' : SumExact (ts ++ us)) :
    sum (ts ++ [sum us]) = sum (ts ++ us) := by
  have hsame (k : Expr) : coefficientOf k (sum us).terms = coefficientOf k (termLists us) ∧
      numberTotal (sum us).terms = numberTotal (termLists us) := by
    rw [sum, hus.sumTerms_eq]
    obtain ⟨hcoefficient, hnumber⟩ :=
      coefficientOf_terms_addNode (termLists_combinedTerms hbare) k
    exact ⟨hcoefficient.trans (coefficientOf_combinedTerms hbare k),
      hnumber.trans (numberTotal_combinedTerms hbare)⟩
  have hterms : termLists [sum us] = (sum us).terms := append_nil _
  apply sum_congr h h'
  · intro k
    rw [termLists_append, termLists_append, coefficientOf_append, coefficientOf_append, hterms,
      (hsame k).1]
  · rw [termLists_append, termLists_append, numberTotal_append, numberTotal_append, hterms,
      (hsame zero).2]

/-- The exponents of each base add up, and the numbers among the factors multiply. -/
structure FactorsExact (operands : List Expr) : Prop where
  exponents : ∀ g ∈ baseGroups operands, SumExact g.2
  numbers : Number.Gathers mul? 1 ((factorLists operands).reverse.filterMap number?)

theorem factorsExact_iff {operands : List Expr} : FactorsExact operands ↔
    (baseGroups operands).all (fun g => decide (SumExact g.2)) ∧
      Number.Gathers mul? 1 ((factorLists operands).reverse.filterMap number?) := by
  simp only [all_eq_true, decide_eq_true_eq]
  exact ⟨fun h => ⟨h.exponents, h.numbers⟩, fun h => ⟨h.1, h.2⟩⟩

instance : DecidablePred FactorsExact := fun _ => decidable_of_iff' _ factorsExact_iff

/-- Each base to the sum of its exponents. -/
def basePowers (operands : List Expr) : List Expr :=
  (baseGroups operands).map fun g => power g.1 (sum g.2)

def joined (operands : List Expr) : Joined :=
  join operands (basePowers operands)

def Joined.result (j : Joined) : Expr :=
  if j.coefficient == 0 then zero
  else if j.reopened then product (j.factors ++ [num j.coefficient])
  else
    match j.soleSum? with
    | some ts => sum (ts.map fun t => product [num j.coefficient, t])
    | none => mulNode j.coefficient j.factors

def Joined.Reopens (j : Joined) : Prop :=
  j.coefficient ≠ 0 ∧ j.reopened

def Joined.Spreads (j : Joined) (ts : List Expr) : Prop :=
  j.coefficient ≠ 0 ∧ j.reopened = false ∧ j.soleSum? = some ts

theorem product_eq_result (operands : List Expr) : product operands =
    if (factorLists operands).any isZero then zero else (joined operands).result :=
  product_eq operands

theorem factorLists_eq_flatMap (es : List Expr) : factorLists es = es.flatMap factors := by
  induction es with
  | nil => rfl
  | cons e es ih => rw [factorLists, ih, flatMap_cons]

theorem factorLists_perm {fs gs : List Expr} (h : fs.Perm gs) :
    (factorLists fs).Perm (factorLists gs) := by
  rw [factorLists_eq_flatMap, factorLists_eq_flatMap]
  exact h.flatMap_right _

section Perm

variable {fs gs : List Expr} (hperm : fs.Perm gs) (hfs : FactorsExact fs) (hgs : FactorsExact gs)
include hperm hfs hgs

theorem basePowers_perm : basePowers fs = basePowers gs := by
  have hreverse : (factorLists fs).reverse.Perm (factorLists gs).reverse :=
    ((reverse_perm _).trans (factorLists_perm hperm)).trans (reverse_perm _).symm
  apply map_collect_perm ((hreverse.filter _).map _)
  intro g hg g' hg' hbase hexponents
  rw [hbase, sum_perm hexponents (hfs.exponents g hg) (hgs.exponents g' hg')]

theorem joined_perm : joined fs = joined gs := by
  have hreverse : (factorLists fs).reverse.Perm (factorLists gs).reverse :=
    ((reverse_perm _).trans (factorLists_perm hperm)).trans (reverse_perm _).symm
  have hgiven : gather mul? 1 ((factorLists fs).reverse.filterMap number?) =
      gather mul? 1 ((factorLists gs).reverse.filterMap number?) := by
    apply Prod.ext
    · rw [hfs.numbers.mul_eq, hgs.numbers.mul_eq, (hreverse.filterMap number?).prod_eq]
    · rw [hfs.numbers, hgs.numbers]
  rw [joined, joined, join, join, hgiven, basePowers_perm hperm hfs hgs]

theorem product_perm : product fs = product gs := by
  rw [product_eq_result, product_eq_result, joined_perm hperm hfs hgs,
    (factorLists_perm hperm).any_eq]

end Perm

/-- A product with a factor zero is zero without any arithmetic, so its other factors may hold any
numbers. -/
theorem product_perm_of_zero {fs gs : List Expr} (hperm : fs.Perm gs)
    (hfs : ¬ (factorLists fs).any isZero → FactorsExact fs)
    (hgs : ¬ (factorLists gs).any isZero → FactorsExact gs) : product fs = product gs := by
  have hzero := (factorLists_perm hperm).any_eq (f := isZero)
  by_cases h : (factorLists fs).any isZero
  · rw [product_eq_result, product_eq_result, ← hzero, h]
    rfl
  · exact product_perm hperm (hfs h) (hgs (hzero ▸ h))

inductive Call
  | product (operands : List Expr)
  | power (base exponent : Expr)

/-- The base is a number or an exponential, or the exponent can be moved inside it. -/
def opens : Expr → Expr → Bool
  | num _, _ => true
  | fn .exp _, _ => true
  | pow _ _, e => e.isInteger
  | mul _, e => e.isInteger
  | _, _ => false

/-- Neither the call nor any call it makes on the way leaves the range of the numbers. -/
inductive Exact : Call → Prop
  | zero {operands : List Expr} : (factorLists operands).any isZero → Exact (.product operands)
  | product {operands : List Expr} : FactorsExact operands →
      (∀ g ∈ baseGroups operands, Exact (.power g.1 (sum g.2))) →
      Number.Gathers mul?
        (gather mul? 1 ((factorLists operands).reverse.filterMap number?)).1
        ((basePowers operands).filterMap number?) →
      ((joined operands).Reopens →
        Exact (.product ((joined operands).factors ++ [num (joined operands).coefficient]))) →
      (∀ ts, (joined operands).Spreads ts →
        ∀ t ∈ ts, Exact (.product [num (joined operands).coefficient, t])) →
      (∀ ts, (joined operands).Spreads ts →
        SumExact (ts.map fun t => product [num (joined operands).coefficient, t])) →
      Exact (.product operands)
  | unit {base exponent : Expr} : exponent.isZero ∨ exponent.isOne → Exact (.power base exponent)
  | number {base : Number} {exponent : Expr} :
      (∀ n q, exponent = num n → pow? base n = some q → inRange q) →
      Exact (.power (num base) exponent)
  | exp {a exponent : Expr} : Exact (.product [a, exponent]) → Exact (.power (fn .exp a) exponent)
  | pow {b e exponent : Expr} : exponent.isInteger → Exact (.product [e, exponent]) →
      Exact (.power b (product [e, exponent])) → Exact (.power (pow b e) exponent)
  | mul {fs : List Expr} {exponent : Expr} : exponent.isInteger →
      (∀ f ∈ fs, Exact (.power f exponent)) →
      Exact (.product (fs.map fun f => power f exponent)) → Exact (.power (mul fs) exponent)
  | plain {base exponent : Expr} : opens base exponent = false → Exact (.power base exponent)

end Expr

end TensorCalculus
