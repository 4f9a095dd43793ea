import TensorCalculus.Proofs.Formula.RaisedSlots
import TensorCalculus.Proofs.Formula.Safety
import TensorCalculus.Proofs.Session.Comparison
import TensorCalculus.Proofs.Table.WellFormed
import TensorCalculus.Proofs.Tensor.Determinant

/-! Values of the components of a covariant derivative, where the components that it is made of
have values. -/
namespace TensorCalculus

variable {σ : Valuation}

open List Layout

def Gives (σ : Valuation) (x : Except Error Expr) (q : Rat) : Prop :=
  ∀ e, x = .ok e → e.HasValue σ q

namespace Gives

theorem ok {e : Expr} {q : Rat} (h : e.HasValue σ q) : Gives σ (.ok e) q := by
  rintro _ ⟨⟩
  exact h

section

variable {α : Type} {f : α → Except Error Expr} {q : α → Rat} {xs : List α}
  (h : ∀ x ∈ xs, Gives σ (f x) (q x))
include h

theorem mapM {es : List Expr} (hes : xs.mapM f = .ok es) :
    Forall₂ (Expr.HasValue σ) es (xs.map q) := by
  induction xs generalizing es with
  | nil =>
    cases hes
    exact .nil
  | cons x xs ih =>
    rw [forall_mem_cons] at h
    rw [mapM_cons] at hes
    obtain ⟨e, he, hrest⟩ := Except.bind_eq_ok hes
    obtain ⟨es', hes', hreturn⟩ := Except.bind_eq_ok hrest
    cases hreturn
    exact .cons (h.1 e he) (ih h.2 hes')

theorem sum : Gives σ (do let es ← xs.mapM f; return .sum es) (xs.map q).sum := by
  intro e he
  obtain ⟨es, hes, hreturn⟩ := Except.bind_eq_ok he
  cases hreturn
  exact .sum (mapM h hes)

end

end Gives

namespace Formula

def connectionFactor : Height → Rat
  | .upper => 1
  | .lower => -1

/-- The term with the connection for one slot, where `γ` is the connection and `α` the tensor. -/
def correctionValue (n : Nat) (γ : IndexVector → Rat) (height : Height) (i b : Nat)
    (α : Nat → Rat) : Rat :=
  ((List.range n).map fun a =>
    connectionFactor height * γ (connectionIndex height i a b) * α a).sum

/-- The covariant derivative of a tensor of components `α`, with the partial derivative `δ`. -/
def covariantValue (n : Nat) (γ : IndexVector → Rat) (heights : List Height)
    (α : IndexVector → Rat) (δ : Rat) (b : Nat) (index : IndexVector) : Rat :=
  δ + (heights.zipIdx.map fun (height, slot) =>
    correctionValue n γ height (index.getD slot 0) b fun a => α (index.set slot a)).sum

section Value

variable {r : Reading (Except Error)} {mark : Diacritic} {n : Nat} {γ : IndexVector → Rat}

theorem hasValue_connectionTerm {c e : Expr} {x y : Rat} (hc : c.HasValue σ x)
    (he : e.HasValue σ y) (height : Height) :
    (Expr.product (connectionSign height ++ [c, e])).HasValue σ
      (connectionFactor height * x * y) := by
  have hpair : Forall₂ (Expr.HasValue σ) [c, e] [x, y] := .cons hc (.cons he .nil)
  cases height with
  | upper =>
    have hproduct := Expr.HasValue.product hpair
    rwa [prod_cons, prod_singleton, ← one_mul x] at hproduct
  | lower =>
    have hproduct := Expr.HasValue.product (.cons (.num (-1 : Int)) hpair)
    rw [prod_cons, prod_cons, prod_singleton, ← mul_assoc] at hproduct
    exact hproduct

theorem gives_connectionSum {height : Height} {i b : Nat} {inner : Nat → Except Error Expr}
    {α : Nat → Rat}
    (hc : ∀ a < n, Gives σ (r.component (connectionHead mark) (connectionIndex height i a b) .none)
      (γ (connectionIndex height i a b))) (hinner : ∀ a < n, Gives σ (inner a) (α a)) :
    Gives σ (connectionSum r mark n height i b inner) (correctionValue n γ height i b α) := by
  apply Gives.sum
  intro a ha v hv
  obtain ⟨c, hcomponent, hrest⟩ := Except.bind_eq_ok hv
  obtain ⟨e, he, hreturn⟩ := Except.bind_eq_ok hrest
  cases hreturn
  have ha := mem_range.mp ha
  exact hasValue_connectionTerm (hc a ha c hcomponent) (hinner a ha e he) height

end Value

section Component

variable {r : Reading (Except Error)} {mark : Diacritic} {n range : Nat} {head : TensorHead}
  {span : Span} {index : IndexVector} {b : Nat}

theorem mem_indices_connectionIndex {n i a b : Nat} (height : Height) (hi : i < n) (ha : a < n)
    (hb : b < n) : connectionIndex height i a b ∈ indices 3 n := by
  apply mem_indices.mpr
  cases height with
  | upper | lower => exact ⟨rfl, by simp [connectionIndex, hi, ha, hb]⟩

theorem set_mem_indices {rank slot a : Nat} (hindex : index ∈ indices rank n) (ha : a < n) :
    index.set slot a ∈ indices rank n := by
  obtain ⟨hlength, hlt⟩ := mem_indices.mp hindex
  refine mem_indices.mpr ⟨by rw [length_set, hlength], fun x hx => ?_⟩
  rcases mem_or_eq_of_mem_set hx with hx | rfl
  · exact hlt x hx
  · exact ha

theorem getD_lt_of_mem_zipIdx {heights : List Height} {p : Height × Nat}
    (hindex : index ∈ indices heights.length n) (hp : p ∈ heights.zipIdx) :
    index.getD p.2 0 < n := by
  obtain ⟨hlength, hlt⟩ := mem_indices.mp hindex
  have hslot : p.2 < index.length := by
    rw [hlength]
    exact snd_lt_of_mem_zipIdx hp
  rw [getD_eq_getElem _ _ hslot]
  exact hlt _ (getElem_mem hslot)

theorem gives_covariantComponent {γ α : IndexVector → Rat} {δ : Rat}
    (hindex : index ∈ indices head.rank n) (hb : b < n) (hc : ∀ i ∈ indices 3 n,
      Gives σ (r.component (connectionHead mark) i .none) (γ i))
    (hα : ∀ i ∈ indices head.rank n, Gives σ (r.component head i span) (α i))
    (hδ : ∀ e, r.component head index span = .ok e →
      Gives σ (r.differentiate e b (some range) .none) δ) :
    Gives σ (covariantComponent r mark n range head span [b] index)
      (covariantValue n γ head.heights α δ b index) := by
  intro v hv
  rw [covariantComponent, covariantComponent] at hv
  obtain ⟨e, he, hv⟩ := Except.bind_eq_ok hv
  obtain ⟨d, hd, hv⟩ := Except.bind_eq_ok hv
  obtain ⟨corrections, hcorrections, hreturn⟩ := Except.bind_eq_ok hv
  have hvalues : Forall₂ (Expr.HasValue σ) corrections
      (head.heights.zipIdx.map fun (height, slot) =>
        correctionValue n γ height (index.getD slot 0) b fun a => α (index.set slot a)) := by
    refine Gives.mapM ?_ hcorrections
    intro p hp
    apply gives_connectionSum
    · exact fun a ha =>
        hc _ (mem_indices_connectionIndex p.1 (getD_lt_of_mem_zipIdx hindex hp) ha hb)
    · exact fun a ha => hα _ (set_mem_indices hindex ha)
  have hsum := Expr.HasValue.sum (.cons (hδ e he d hd) hvalues)
  rw [sum_cons] at hsum
  cases corrections with
  | nil =>
    cases hreturn
    rw [covariantValue, forall₂_nil_left_iff.mp hvalues, sum_nil, add_zero]
    exact hδ e he d hd
  | cons c corrections =>
    cases hreturn
    exact hsum

theorem exists_covariantComponent (hindex : index ∈ indices head.rank n) (hb : b < n)
    (hc : ∀ i ∈ indices 3 n, ∃ e, r.component (connectionHead mark) i .none = .ok e)
    (hα : ∀ i ∈ indices head.rank n, ∃ e, r.component head i span = .ok e)
    (hδ : ∀ e, r.component head index span = .ok e →
      ∃ d, r.differentiate e b (some range) .none = .ok d) :
    ∃ e, covariantComponent r mark n range head span [b] index = .ok e := by
  obtain ⟨e, he⟩ := hα index hindex
  obtain ⟨d, hd⟩ := hδ e he
  have hcorrection : ∀ p ∈ head.heights.zipIdx, ∃ c, connectionSum r mark n p.1
      (index.getD p.2 0) b (fun a => r.component head (index.set p.2 a) span) = .ok c := by
    intro p hp
    refine Sequential.succeeds.bind (Sequential.succeeds.mapM fun a ha => ?_) fun terms => ⟨_, rfl⟩
    have ha := mem_range.mp ha
    have hi := getD_lt_of_mem_zipIdx hindex hp
    exact Sequential.succeeds.bind (hc _ (mem_indices_connectionIndex p.1 hi ha hb)) fun c =>
      Sequential.succeeds.bind (hα _ (set_mem_indices hindex ha)) fun _ => ⟨_, rfl⟩
  obtain ⟨corrections, hcorrections⟩ := Sequential.succeeds.mapM hcorrection
  rw [covariantComponent, covariantComponent, he]
  change ∃ v, (r.differentiate e b (some range) .none >>= fun e =>
    (head.heights.zipIdx.mapM fun p => connectionSum r mark n p.1 (index.getD p.2 0) b
      fun a => r.component head (index.set p.2 a) span) >>= fun corrections =>
        pure (if corrections.isEmpty then e else .sum (e :: corrections))) = .ok v
  rw [hd, show (head.heights.zipIdx.mapM _) = _ from hcorrections]
  exact ⟨_, rfl⟩

end Component

end Formula

section

open Finset

theorem sum_map_range (n : Nat) (f : Nat → Rat) :
    ((List.range n).map f).sum = ∑ a : Fin n, f a := by
  rw [sum_map_eq_sum_getD length_range]
  apply sum_congr rfl
  intro a _
  rw [getD_eq_getElem _ _ (by simp), getElem_range]

theorem Expr.HasValue.sum_range {n : Nat} {f : Nat → Expr} {q : Fin n → Rat}
    (h : ∀ k : Fin n, (f k).HasValue σ (q k)) :
    (Expr.sum ((List.range n).map f)).HasValue σ (∑ k, q k) := by
  let value (k : Nat) : Rat := if hk : k < n then q ⟨k, hk⟩ else 0
  have hvalue : ∑ k, q k = ((List.range n).map value).sum := by
    rw [sum_map_range]
    apply Finset.sum_congr rfl
    intro k _
    simp [value]
  rw [hvalue]
  refine .sum (HasValue.map fun k hk => ?_)
  have hk := List.mem_range.mp hk
  simp only [value, hk, dite_true]
  exact h ⟨k, hk⟩

theorem Symmetry.canonicalize_metric (a b : Nat) :
    Symmetry.metric.canonicalize [a, b] = (.plus, [min a b, max a b]) := by
  simp only [canonicalize, slotPairs, reduceCtorEq, if_false, length_cons, length_nil,
    orderings, SlotPair.settle, SlotPair.orderAll, SlotPair.order]
  by_cases h : b < a
  · have h' : ¬ a < b := by omega
    simp [h, h', Nat.min_eq_right h.le, Nat.max_eq_left h.le]
  · simp [h, Nat.min_eq_left (Nat.not_lt.mp h), Nat.max_eq_right (Nat.not_lt.mp h)]

namespace Session

theorem canonicalize_connectionSymmetry (c a b : Nat) :
    connectionSymmetry.canonicalize [c, a, b] = (.plus, [c, min a b, max a b]) := by
  simp only [connectionSymmetry, Symmetry.canonicalize, Symmetry.slotPairs, reduceCtorEq, if_false,
    length_cons, length_nil, orderings, SlotPair.settle, SlotPair.orderAll,
    SlotPair.order]
  by_cases h : b < a
  · have h' : ¬ a < b := by omega
    simp [h, h', Nat.min_eq_right h.le, Nat.max_eq_left h.le]
  · simp [h, Nat.min_eq_left (Nat.not_lt.mp h), Nat.max_eq_right (Nat.not_lt.mp h)]

theorem ordered_connectionSymmetry : connectionSymmetry.Ordered := by
  intro p hp
  obtain rfl := List.mem_singleton.mp hp
  exact Nat.lt_succ_self 1

def christoffelAt (upper : Tensor) (derivatives : List Tensor) (n : Nat) : IndexVector → Expr
  | [c, a, b] => christoffel upper derivatives n c a b
  | _ => .zero

theorem connectionValue_eq (upper : Tensor) (derivatives : List Tensor) (n : Nat) :
    connectionValue upper derivatives n =
      ((connectionSymmetry.distinctIndices 3 n).foldl
        (fun (t : Tensor) index => t.set index (christoffelAt upper derivatives n index))
        (Tensor.zeros 3 n)).fillAliases connectionSymmetry := by
  unfold connectionValue
  dsimp only
  congr 1
  apply foldl_ext
  intro t index hindex
  obtain ⟨hlength, _⟩ := mem_indices.mp (List.mem_filter.mp hindex).1
  obtain ⟨x, y, z, rfl⟩ := length_eq_three.mp hlength
  rfl

theorem get?_connectionValue (upper : Tensor) (derivatives : List Tensor) {n c a b : Nat}
    (h : [c, a, b] ∈ indices 3 n) :
    (connectionValue upper derivatives n).get? [c, a, b] =
      some (christoffel upper derivatives n c (min a b) (max a b)) := by
  obtain ⟨hfull, hrank, hdimension, hget⟩ := Tensor.foldl_set
    (g := christoffelAt upper derivatives n) (connectionSymmetry.distinctIndices 3 n)
    (Tensor.full_zeros 3 n) (fun index hindex => (List.mem_filter.mp hindex).1)
  have hcanonical := canonicalize_connectionSymmetry c a b
  have hmem : [c, min a b, max a b] ∈ indices 3 n := by
    have := connectionSymmetry.canonicalize_mem_indices h
    rwa [hcanonical] at this
  have hdistinct : [c, min a b, max a b] ∈ connectionSymmetry.distinctIndices 3 n := by
    have hzero : (connectionSymmetry.canonicalize [c, a, b]).1 ≠ .zero := by
      simp [hcanonical]
    have := Symmetry.isCanonical_canonical ordered_connectionSymmetry hzero
    rw [hcanonical] at this
    exact List.mem_filter.mpr ⟨hmem, this⟩
  rw [connectionValue_eq, Tensor.get?_fillAliases ordered_connectionSymmetry hfull
    (by rw [hrank, hdimension]; exact h), Tensor.alias?, hcanonical]
  dsimp only
  rw [if_neg (by decide), hget _ hmem, if_pos hdistinct]
  rfl

def christoffelValue {n : Nat} (upper : Matrix (Fin n) (Fin n) Rat)
    (derivative : Fin n → Matrix (Fin n) (Fin n) Rat) (c a b : Fin n) : Rat :=
  ∑ k, 1 / 2 * upper c k * (derivative a k b + derivative b a k - derivative k a b)

section Value

variable {n : Nat} {metric upper : Matrix (Fin n) (Fin n) Rat}
  {derivative : Fin n → Matrix (Fin n) (Fin n) Rat}

theorem christoffelValue_comm (h : ∀ k, (derivative k).IsSymm) (c a b : Fin n) :
    christoffelValue upper derivative c a b = christoffelValue upper derivative c b a := by
  apply sum_congr rfl
  intro k _
  rw [(h a).apply k b, (h b).apply a k, (h k).apply a b]
  ring

theorem sum_christoffelValue_mul (hsymm : metric.IsSymm) (hdet : metric.det ≠ 0) (a b l : Fin n) :
    ∑ c, christoffelValue metric⁻¹ derivative c a b * metric c l =
      1 / 2 * (derivative a l b + derivative b a l - derivative l a b) := by
  have hinverse : (metric⁻¹).IsSymm := by
    rw [Matrix.IsSymm, Matrix.transpose_nonsing_inv, hsymm.eq]
  have hone (k : Fin n) : ∑ c, metric⁻¹ c k * metric c l = (1 : Matrix (Fin n) (Fin n) Rat) k l := by
    rw [← Matrix.nonsing_inv_mul metric (Ne.isUnit hdet), Matrix.mul_apply]
    apply sum_congr rfl
    intro c _
    rw [hinverse.apply k c]
  calc ∑ c, christoffelValue metric⁻¹ derivative c a b * metric c l
      = ∑ k, 1 / 2 * (derivative a k b + derivative b a k - derivative k a b) *
          ∑ c, metric⁻¹ c k * metric c l := by
        simp only [christoffelValue, sum_mul, mul_sum]
        rw [sum_comm]
        apply sum_congr rfl
        intro k _
        apply sum_congr rfl
        intro c _
        ring
    _ = _ := by
        simp only [hone, Matrix.one_apply, mul_ite, mul_one, mul_zero, sum_ite_eq',
          mem_univ, if_true]

theorem derivative_eq_connection (hsymm : metric.IsSymm) (hdet : metric.det ≠ 0)
    (h : ∀ k, (derivative k).IsSymm) (i j b : Fin n) :
    derivative b i j = ∑ c, christoffelValue metric⁻¹ derivative c i b * metric c j +
      ∑ c, christoffelValue metric⁻¹ derivative c j b * metric i c := by
  have hsecond : ∑ c, christoffelValue metric⁻¹ derivative c j b * metric i c =
      ∑ c, christoffelValue metric⁻¹ derivative c j b * metric c i := by
    apply sum_congr rfl
    intro c _
    rw [hsymm.apply c i]
  rw [hsecond, sum_christoffelValue_mul hsymm hdet, sum_christoffelValue_mul hsymm hdet,
    (h b).apply i j, (h i).apply b j, (h j).apply b i]
  ring

variable {tensor : Tensor} {derivatives : List Tensor}

theorem hasValue_christoffel (hupper : tensor.HasMatrix σ upper)
    (hderivatives : ∀ k : Fin n, ∃ t, derivatives[(k : Nat)]? = some t ∧
      t.HasMatrix σ (derivative k)) (c a b : Fin n) :
    (christoffel tensor derivatives n c a b).HasValue σ
      (christoffelValue upper derivative c a b) := by
  have hd (k i j : Fin n) : ((derivatives[(k : Nat)]?.map fun (t : Tensor) => t.get
      [(i : Nat), (j : Nat)]).getD .zero).HasValue σ (derivative k i j) := by
    obtain ⟨t, ht, hvalue⟩ := hderivatives k
    rw [ht]
    exact hvalue.value i j
  apply Expr.HasValue.sum_range
  intro k
  have hsum := Expr.HasValue.sum (.cons (hd a k b) (.cons (hd b a k) (.cons (hd k a b).neg .nil)))
  have hproduct := Expr.HasValue.product (.cons (.num (1 / 2)) (.cons (hupper.value c k)
    (.cons hsum .nil)))
  convert hproduct using 1
  simp only [List.prod_cons, prod_nil, List.sum_cons, sum_nil]
  ring

end Value

end Session

end

/-! The course of an evaluation and of an expansion, for runs that differ in their warnings at
most: they declare scalars and partial derivatives, and they store connections and covariant
derivatives. A comparison that allows for these steps holds of all that is built from them. -/

variable {t upper lower : Tensor} {name x : String} {e : Expr} {span : Span}
  {free free' : List Occurrence}

namespace Tensor

variable {P : Expr → Prop}

theorem forall_components_set (ht : ∀ c ∈ t.components, P c) (index : IndexVector) (he : P e) :
    ∀ c ∈ (t.set index e).components, P c := by
  unfold set
  split
  · intro c hc
    rcases Array.mem_or_eq_of_mem_setIfInBounds hc with hc | rfl
    · exact ht c hc
    · exact he
  · exact ht

theorem forall_components_foldl_set (ht : ∀ c ∈ t.components, P c) {g : IndexVector → Expr}
    {indices : List IndexVector} (hg : ∀ index ∈ indices, P (g index)) :
    ∀ c ∈ (indices.foldl (fun t index => t.set index (g index)) t).components, P c := by
  induction indices generalizing t with
  | nil => exact ht
  | cons index indices ih =>
    rw [forall_mem_cons] at hg
    exact ih (forall_components_set ht index hg.1) hg.2

variable (hP : Expr.Structural P)
include hP

theorem forall_components_zeros (rank dimension : Nat) :
    ∀ c ∈ (zeros rank dimension).components, P c := by
  intro c hc
  rw [(Array.mem_replicate.mp hc).2]
  exact hP.num 0

theorem structural_get (ht : ∀ c ∈ t.components, P c) (index : IndexVector) : P (t.get index) := by
  rw [get]
  cases hc : t.get? index with
  | none => exact hP.num 0
  | some c =>
    obtain ⟨offset, _, hoffset⟩ := Option.bind_eq_some_iff.mp hc
    exact ht c (Array.mem_of_getElem? hoffset)

theorem forall_components_fillAliases (symmetry : Symmetry) (ht : ∀ c ∈ t.components, P c) :
    ∀ c ∈ (t.fillAliases symmetry).components, P c := by
  unfold fillAliases
  generalize indices t.rank t.dimension = indices
  induction indices generalizing t with
  | nil => exact ht
  | cons index indices ih =>
    apply ih
    unfold fillAlias
    dsimp only
    split
    · exact forall_components_set ht index (hP.num 0)
    split
    · exact ht
    split
    · next e he =>
      apply forall_components_set ht
      have := structural_get hP ht (symmetry.canonicalize index).2
      rw [get, he] at this
      exact hP.sign this _
    · exact ht

end Tensor

namespace Session

theorem forall_components_connectionValue {P : Expr → Prop} (hP : Expr.Structural P)
    {derivatives : List Tensor} (hupper : ∀ c ∈ upper.components, P c)
    (hderivatives : ∀ t ∈ derivatives, ∀ c ∈ t.components, P c) (n : Nat) :
    ∀ c ∈ (connectionValue upper derivatives n).components, P c := by
  have hd (k i j : Nat) : P ((derivatives[k]?.map fun (t : Tensor) => t.get [i, j]).getD .zero) := by
    cases ht : derivatives[k]? with
    | none => exact hP.num 0
    | some t => exact Tensor.structural_get hP (hderivatives t (mem_of_getElem? ht)) _
  have hchristoffel (c a b : Nat) : P (christoffel upper derivatives n c a b) := by
    refine hP.sum fun e he => ?_
    obtain ⟨k, _, rfl⟩ := mem_map.mp he
    apply hP.product
    simp only [forall_mem_cons, not_mem_nil, false_implies, implies_true, and_true]
    refine ⟨hP.num _, Tensor.structural_get hP hupper _, hP.sum ?_⟩
    simp only [forall_mem_cons, not_mem_nil, false_implies, implies_true, and_true]
    exact ⟨hd _ _ _, hd _ _ _, hP.sign (hd _ _ _) .minus⟩
  rw [connectionValue_eq]
  apply Tensor.forall_components_fillAliases hP
  apply Tensor.forall_components_foldl_set (Tensor.forall_components_zeros hP 3 n)
  intro index _
  unfold christoffelAt
  split
  · exact hchristoffel _ _ _
  · exact hP.num 0

end Session

open TensorCalculus.Expr Tensor

def Expr.Over (p : String → Prop) (e : Expr) : Prop :=
  ∀ symbol ∈ e.symbolList, p symbol

theorem Expr.structural_over (p : String → Prop) : Structural (Over p) :=
  structural_symbols p

def Tensor.Over (p : String → Prop) (t : Tensor) : Prop :=
  ∀ c ∈ t.components, c.Over p

/-- The value was computed component by component and filled in by symmetry, and its symbols
have `p`. -/
structure Entry.Filled (p : String → Prop) (e : Entry) : Prop where
  exists_fits : ∃ t, e.Fits t ∧ e.value = t.fillAliases e.symmetry
  symbols : e.value.Over p

theorem isSome_lookup_zip {names : List String} {index : IndexVector}
    (h : names.length = index.length) (hx : x ∈ names) : ((names.zip index).lookup x).isSome := by
  induction names generalizing index with
  | nil => cases hx
  | cons name names ih =>
    cases index with
    | nil => cases h
    | cons i index =>
      rw [zip_cons_cons, lookup_cons]
      by_cases hname : x = name
      · simp [hname]
      · rw [beq_false_of_ne hname]
        exact ih (Nat.succ.inj h) ((mem_cons.mp hx).resolve_left hname)

namespace Formula

/-- No covariant derivatives, and only scalars with `p`. -/
structure Elementary (p : String → Prop) (f : Formula) : Prop where
  expanded : f.isExpanded
  scalars : ∀ name ∈ f.scalarNames, p name

variable {p : String → Prop} {f : Formula} {fs : List Formula}

theorem elementary_sum (h : ∀ f ∈ fs, Elementary p f) : Elementary p (sum fs) where
  expanded := by
    rw [isExpanded, allExpanded_eq, all_eq_true]
    exact fun f hf => (h f hf).expanded
  scalars name hname := by
    rw [scalarNames, scalarNameLists_eq, mem_flatMap] at hname
    obtain ⟨f, hf, hname⟩ := hname
    exact (h f hf).scalars name hname

theorem elementary_product (h : ∀ f ∈ fs, Elementary p f) : Elementary p (product fs) :=
  ⟨(elementary_sum h).expanded, (elementary_sum h).scalars⟩

theorem isExpanded_ofTerms (h : ∀ f ∈ fs, f.isExpanded) : (ofTerms fs).isExpanded := by
  unfold ofTerms
  split
  · exact h _ (mem_singleton_self _)
  · rw [isExpanded, allExpanded_eq]
    exact all_eq_true.mpr h

theorem isExpanded_covariantStep (mark : Diacritic) (index : Index) (taken : List String)
    (h : f.isExpanded) : (f.covariantStep mark index taken).1.isExpanded := by
  apply isExpanded_ofTerms
  intro t ht
  rcases mem_cons.mp ht with rfl | ht
  · rw [isExpanded, h]
    rfl
  · obtain ⟨⟨name, height⟩, _, rfl⟩ := mem_map.mp ht
    have hrename := (isExpanded_rename name
      (freshName (taken ++ f.indexNames ++ (index.name?).toList)) f).trans h
    cases height <;>
      simpa [connectionTerm, isExpanded, allExpanded, connection, integer, Index.name?]
        using hrename

theorem Elementary.covariantStep (h : Elementary p f) (mark : Diacritic) (index : Index)
    (taken : List String) : Elementary p (f.covariantStep mark index taken).1 :=
  ⟨isExpanded_covariantStep mark index taken h.expanded,
    fun name hname => h.scalars name (scalarNames_covariantStep mark index taken f hname)⟩

theorem mem_scalarNames_of_parts (h : sym name ∈ f.parts) : name ∈ f.scalarNames := by
  have hlist {fs : List Formula} (ih : ∀ f ∈ fs, sym name ∈ f.parts → name ∈ f.scalarNames)
      (h : sym name ∈ partLists fs) : name ∈ scalarNameLists fs := by
    induction fs with
    | nil => cases h
    | cons f fs ihs =>
      rw [forall_mem_cons] at ih
      rw [partLists, mem_append] at h
      rw [scalarNameLists, mem_append]
      exact h.imp ih.1 (ihs ih.2)
  induction f using Formula.induction with
  | num q => cases mem_singleton.mp h
  | sym s =>
    cases mem_singleton.mp h
    exact mem_singleton_self _
  | tensor t => cases mem_singleton.mp h
  | derivative kind i operand dimension span ih => exact ih (by simpa [parts] using h)
  | sum ts ih | product ts ih => exact hlist ih (by simpa [parts] using h)
  | power b e hb he =>
    rw [parts, mem_cons, mem_append] at h
    rw [scalarNames, mem_append]
    exact (h.resolve_left (by simp)).imp hb he
  | fn g a ih => exact ih (by simpa [parts] using h)
  | contraction index dimension body ih => exact ih (by simpa [parts] using h)

theorem elementary_tensor (p : String → Prop) (t : TensorRef) : Elementary p (tensor t) :=
  ⟨rfl, nofun⟩

end Formula

namespace Session

def withWarnings (s : Session) (w : List Warning) : Session :=
  { s with warnings := w }

section Updates

variable (s : Session) (w : List Warning)

@[simp] theorem table_withWarnings : (s.withWarnings w).table = s.table := rfl

@[simp] theorem config_withWarnings : (s.withWarnings w).config = s.config := rfl

@[simp] theorem metrics_withWarnings : (s.withWarnings w).metrics = s.metrics := rfl

@[simp] theorem coordinates_withWarnings : (s.withWarnings w).coordinates = s.coordinates := rfl

@[simp] theorem defaultDimension_withWarnings :
    (s.withWarnings w).defaultDimension = s.defaultDimension := rfl

@[simp] theorem dimensions_withWarnings : (s.withWarnings w).dimensions = s.dimensions := rfl

@[simp] theorem undeclared_withWarnings (name : String) (span : Span) :
    (s.withWarnings w).undeclared name span = s.undeclared name span := rfl

@[simp] theorem component_withWarnings (t : TensorHead) (index : IndexVector) (span : Span) :
    (s.withWarnings w).component t index span = s.component t index span := rfl

end Updates

theorem names_of_checkFree {indices : List Index} (h : checkFree indices free span = .ok ())
    (hx : x ∈ free.map (·.name)) : x ∈ indices.filterMap Index.name? := by
  unfold checkFree at h
  split at h
  · next hsame =>
    obtain ⟨o, ho, rfl⟩ := mem_map.mp hx
    rw [← map_fst_namedIndices]
    exact mem_map.mpr
      ⟨o.key, (Formula.mem_of_sameMembers hsame o.key).mpr (mem_map_of_mem ho), rfl⟩
  · cases h

theorem over_raisingFactors {p : String → Prop} {sibling : Tensor} (hupper : upper.Over p)
    (hlower : lower.Over p) (hsibling : sibling.Over p) (heights : List Height)
    (index slots summed inner : IndexVector) :
    ∀ e ∈ raisingFactors upper lower sibling heights index slots summed inner, e.Over p := by
  have hP := structural_over p
  induction slots generalizing summed inner with
  | nil =>
    rw [raisingFactors, forall_mem_singleton]
    · exact structural_get hP hsibling _
    · exact nofun
  | cons slot slots ih =>
    cases summed with
    | nil =>
      rw [raisingFactors, forall_mem_singleton]
      · exact structural_get hP hsibling _
      · exact nofun
    | cons a summed =>
      rw [raisingFactors, forall_mem_cons]
      refine ⟨?_, ih summed _⟩
      split
      · exact structural_get hP hupper _
      · exact structural_get hP hlower _

namespace Comparison

/-- Runs that differ in their warnings at most. All values have only symbols with `p`. The runs may
declare such symbols as scalars, and partial derivatives. -/
structure Conducts (F : Comparison) (p : String → Prop) : Prop where
  alike : ∀ {s s'}, F.Start (s, s') → ∃ ws, s' = s.withWarnings ws
  symbols : ∀ {w name e}, F.Start w → w.1.table.get? name = some e → e.value.Over p
  scalar : ∀ {w name}, F.Start w → p name → (w.1.table.get? name = none ∨
    w.1.table.owner? name = none ∧ name ∉ w.1.coordinates ∧ name ≠ "pi") →
      F.Leads w (w.1.registerScalar name, w.2.registerScalar name)
  derivative : ∀ {w name owner} (n : Nat), F.Start w → w.1.table.get? name = some owner →
    F.Leads w (w.1.insert (derivativeEntry owner n w.1.config.naming),
      w.2.insert (derivativeEntry owner n w.2.config.naming))
  fault : ∀ {cause span}, cause.isInternal = false → F.Fault { cause, span }
  unplaced : F.Place .none .none

namespace Conducts

variable {F : Comparison} {p : String → Prop} (hF : F.Conducts p) {w : Session × Session}
  {a b : Span} (hplace : F.Place a b)
include hF

theorem get {Q : Session → α → β → Prop} {f : Session → SessionM α} {f' : Session → SessionM β}
    (h : ∀ ws, F.Start w → F.Holds w Q (f w.1) (f' (w.1.withWarnings ws))) :
    F.Holds w Q (get >>= f) (get >>= f') := by
  refine .of_start fun hw => .get ?_
  obtain ⟨ws, hws⟩ := hF.alike hw
  rw [hws]
  exact h ws hw

omit hF in
theorem stable (F : Comparison) (p : String → Prop) : F.Stable fun _ => Expr.Over p :=
  ⟨fun _ => structural_over p, fun _ h => h⟩

include hplace

theorem ownedDerivative {owner : Entry} (hget : w.1.table.get? name = some owner)
    (index : IndexVector) (k dimension : Nat) : F.Holds w (Same fun _ => Expr.Over p)
      (ownedDerivative owner index k dimension a) (ownedDerivative owner index k dimension b) := by
  have hP := structural_over p
  rw [Session.ownedDerivative, Session.ownedDerivative]
  dsimp only
  split
  · exact .throw_bind hplace (hF.fault rfl)
  · refine hF.get fun ws _ => ?_
    rw [table_withWarnings]
    split
    case' isTrue =>
      split
      · exact .throw_bind hplace (hF.fault rfl)
      refine (Holds.modify fun hw => hF.derivative _ hw hget).bind fun _ _ _ _ _ => ?_
    all_goals
      refine hF.get fun ws hw => ?_
      rw [table_withWarnings]
      split
      · next e he => exact .pure ⟨rfl, structural_get hP (hF.symbols hw he) _⟩
      · exact .pure ⟨rfl, hP.num 0⟩

theorem symbolDerivative (k dimension : Nat) {symbol : String} (hsymbol : p symbol) :
    F.Holds w (Same fun _ => Expr.Over p) (symbolDerivative k dimension a symbol)
      (symbolDerivative k dimension b symbol) := by
  have hP := structural_over p
  rw [Session.symbolDerivative, Session.symbolDerivative]
  refine hF.get fun ws _ => ?_
  rw [coordinates_withWarnings]
  split
  · refine .pure ⟨rfl, ?_⟩
    split
    · exact hP.num 1
    · exact hP.num 0
  · next hcoordinate =>
    split
    · exact .pure ⟨rfl, hP.num 0⟩
    · next hpi =>
      refine hF.get fun ws _ => ?_
      rw [table_withWarnings]
      split
      case' isTrue howner =>
        refine (Holds.modify fun hw => hF.scalar hw hsymbol (.inr
          ⟨Option.isNone_iff_eq_none.mp howner, idxOf?_eq_none_iff.mp hcoordinate,
            by simpa using hpi⟩)).bind fun _ _ _ _ _ => ?_
      all_goals
        refine hF.get fun ws _ => ?_
        rw [table_withWarnings]
        split
        · exact .pure ⟨rfl, hP.num 0⟩
        · next owner index howner =>
          obtain ⟨name, _, hget⟩ := (Table.owner?_eq_some _).mp howner
          split
          · exact .pure ⟨rfl, hP.num 0⟩
          · exact hF.ownedDerivative hplace hget index k dimension

theorem differentiate (he : e.Over p) (k dimension : Nat) :
    F.Holds w (Same fun _ => Expr.Over p) (differentiate e k dimension a)
      (differentiate e k dimension b) :=
  (stable F p).derivativeM (fun symbol _ h =>
    hF.symbolDerivative hplace k dimension (h symbol (mem_singleton_self _))) he

section

variable {s s' : Session} (hs : F.Start (s, s')) (t : TensorHead) (index : IndexVector)
include hs

theorem raised?_outcome : F.Outcome (fun r r' => r' = r ∧ ∀ e ∈ r, e.Over p)
      (s.raised? t index a) (s.raised? t index b) := by
  rw [raised?, raised?]
  cases hsibling : s.sibling? t with
  | none => exact .ok ⟨rfl, by simp⟩
  | some sibling =>
  cases s.metrics .none with
  | none => exact .ok ⟨rfl, by simp⟩
  | some metric =>
  dsimp only
  cases hupper : s.table.get? (metric.base ++ "UU") with
  | none => exact .ok ⟨rfl, by simp⟩
  | some upper =>
  cases hlower : s.table.get? (metric.base ++ "DD") with
  | none => exact .ok ⟨rfl, by simp⟩
  | some lower =>
    dsimp only
    split
    · exact .error hplace (hF.fault rfl)
    · refine .ok ⟨rfl, ?_⟩
      rintro _ ⟨⟩
      obtain ⟨name, _, hget⟩ : ∃ name ∈ s.table.order, s.table.get? name = some sibling := by
        unfold sibling? at hsibling
        split at hsibling
        · cases hsibling
        · exact mem_filterMap.mp (mem_of_find?_eq_some hsibling)
      refine (structural_over p).sum fun e he => ?_
      obtain ⟨summed, _, rfl⟩ := mem_map.mp he
      exact (structural_over p).product (over_raisingFactors (hF.symbols hs hupper)
        (hF.symbols hs hlower) (hF.symbols hs hget) _ _ _ _ _)

theorem component_outcome :
    F.Outcome (fun e e' => e' = e ∧ e.Over p) (s.component t index a) (s.component t index b) := by
  rw [Session.component, Session.component]
  split
  case' h_1 known hget =>
    split
    · cases hvalue : known.value.get? index with
      | none => exact .error hplace (hF.fault rfl)
      | some value =>
        obtain ⟨offset, _, hoffset⟩ := Option.bind_eq_some_iff.mp hvalue
        exact .ok ⟨rfl, hF.symbols hs hget _ (Array.mem_of_getElem? hoffset)⟩
  all_goals
    refine (hF.raised?_outcome hplace hs t index).bind ?_
    rintro _ r ⟨rfl, hr⟩
    cases r with
    | none => exact .error hplace (hF.fault rfl)
    | some e => exact .ok ⟨rfl, hr e rfl⟩

end

theorem component (t : TensorHead) (index : IndexVector) : F.Holds w (Same fun _ => Expr.Over p)
      (reading.component t index a) (reading.component t index b) := by
  refine hF.get fun ws hw => ?_
  rw [component_withWarnings]
  exact .lift (hF.component_outcome hplace hw t index)

theorem reading_differentiate (he : e.Over p) (k : Nat) (dimension : Option Nat) :
    F.Holds w (Same fun _ => Expr.Over p) (reading.differentiate e k dimension a)
      (reading.differentiate e k dimension b) := by
  exact hF.get fun ws _ => hF.differentiate hplace he k _

omit hplace

theorem reading_scalar (hname : p name) :
    F.Holds w (Same fun _ => Expr.Over p) (reading.scalar name) (reading.scalar name) := by
  intro hw
  obtain ⟨s, s'⟩ := w
  obtain ⟨ws, rfl⟩ := hF.alike hw
  have hsym : (Expr.sym name).Over p := fun symbol hsymbol => by
    rw [mem_singleton.mp hsymbol]
    exact hname
  change F.Leads _ ((s.scalar name).2, ((s.withWarnings ws).scalar name).2) ∧
    F.Outcome _ (.ok (s.scalar name).1) (.ok ((s.withWarnings ws).scalar name).1)
  rw [Session.scalar, Session.scalar, table_withWarnings]
  split
  · exact ⟨F.refl hw, .ok ⟨rfl, hsym⟩⟩
  · cases hget : s.table.get? name with
    | none => exact ⟨hF.scalar hw hname (.inl hget), .ok ⟨rfl, hsym⟩⟩
    | some known =>
      refine ⟨F.refl hw, .ok ⟨rfl, ?_⟩⟩
      dsimp only
      split
      · exact structural_get (structural_over p) (hF.symbols hw hget) _
      · exact hsym

theorem evaluate (hfault : ∀ {cause span}, F.Fault { cause, span }) {f f' : Formula}
    (h : Formula.Matches F.Place f f') (hf : ∀ name ∈ f.scalarNames, p name) (ρ : Assignment) :
    F.Holds w (Same fun _ => Expr.Over p) (evaluate ρ f) (evaluate ρ f') := by
  have hreads : F.Reads (fun _ => Expr.Over p) fun _ g => ∀ name, g = .sym name → p name :=
    { stable F p with
      fault := hfault
      kept _ h := h
      scalar h := hF.reading_scalar (h _ rfl)
      component _ _ hplace := hF.component hplace _ _
      differentiate k _ he hplace := hF.reading_differentiate hplace he k _ }
  refine hreads.evaluate h ρ fun g hg name hname => hf name ?_
  subst hname
  exact Formula.mem_scalarNames_of_parts hg

omit hF in
theorem componentsOf (target : Entry) (names : List String) {f f' : Formula}
    (h : ∀ index ∈ target.symmetry.distinctIndices target.rank target.dimension, ∀ v,
      F.Holds v (Same fun _ => Expr.Over p) (Session.evaluate (names.zip index) f)
        (Session.evaluate (names.zip index) f')) :
    F.Holds w (Same fun _ value => { target with value }.Filled p) (componentsOf target names f)
      (componentsOf target names f') := by
  have hP := structural_over p
  have hblank : (if target.rank = 0 then Tensor.scalar .zero
      else .zeros target.rank target.dimension).Over p := by
    split
    · intro c hc
      obtain rfl : c = .zero := by simpa [Tensor.scalar] using hc
      exact hP.num 0
    · exact forall_components_zeros hP _ _
  rw [Session.componentsOf, Session.componentsOf]
  refine (Holds.foldlM (I := fun _ t => target.Fits t ∧ t.Over p) (fun index hindex v t ht => ?_)
    ⟨Entry.fits_blank, hblank⟩).bindSame fun v t _ ht => .pure ⟨rfl, ?_⟩
  · exact (h index hindex v).bindSame fun u e _ he =>
      .pure ⟨rfl, ht.1.set index e, forall_components_set ht.2 index he⟩
  · exact ⟨⟨t, ⟨ht.1.rank, ht.1.full, ht.1.dimension⟩, rfl⟩,
      forall_components_fillAliases hP _ ht.2⟩

theorem resolve {f f' : Formula} (h : Formula.Matches F.Place f f') :
    F.Holds w (fun _ r r' => Formula.Open F.Place r r' ∧ Formula.Scoped f r.1 r.2) (resolve f)
      (resolve f') := by
  refine hF.get fun ws _ => .lift ?_
  rw [dimensions_withWarnings]
  have hsame := Formula.resolved_matches hF.unplaced w.1.dimensions h
  have hdelivers := f.resolved_delivers w.1.dimensions
  generalize f.resolved w.1.dimensions = r at hsame hdelivers
  generalize f'.resolved w.1.dimensions = r' at hsame
  cases hsame with
  | ok hopen => exact .ok ⟨hopen, hdelivers⟩
  | error cause hplace => exact .error hplace (hF.fault hdelivers)

include hplace

theorem checkFree_outcome (indices : List Index)
    (h : Forall₂ (Occurrence.Matches F.Place) free free') :
    F.Outcome (fun _ _ => checkFree indices free a = .ok ()) (checkFree indices free a)
      (checkFree indices free' b) := by
  rw [checkFree, checkFree, Occurrence.Matches.keys h, Occurrence.Matches.descriptions h]
  split
  · exact .ok rfl
  · exact .error hplace (hF.fault rfl)

omit hplace in
theorem checkTarget_outcome (target : TensorRef) (hplace : F.Place target.span span) :
    F.Outcome (fun _ _ => True) (checkTarget target) (checkTarget { target with span }) := by
  refine .forM (forall₂_same.mpr fun _ _ => rfl) ?_
  rintro name _ rfl
  dsimp only
  split
  · exact .error hplace (hF.fault rfl)
  · exact .ok trivial

omit hplace in
theorem checkDimensions_outcome (dimension : Nat)
    (h : Forall₂ (Occurrence.Matches F.Place) free free') :
    F.Outcome (fun _ _ => True) (checkDimensions dimension free) (checkDimensions dimension free') := by
  refine .forM h fun o o' ho => ?_
  rw [ho.dimension, ho.name]
  split
  · split
    · exact .ok trivial
    · exact .error ho.span (hF.fault rfl)
  · exact .ok trivial

theorem metricDerivative (hlower : lower.Over p) (n k : Nat) :
    F.Holds w (Same fun _ => Tensor.Over p) (metricDerivative lower n k a)
      (metricDerivative lower n k b) := by
  refine Holds.foldlM (fun q hq v t ht => ?_)
    (forall_components_zeros (structural_over p) 2 n)
  have hcomponent : q.2.Over p :=
    hlower q.2 (Array.mem_toList_iff.mp (of_mem_zip hq).2)
  exact (hF.differentiate hplace hcomponent k n).bindSame fun u e _ he =>
    .pure ⟨rfl, forall_components_set ht q.1 he⟩

end Conducts

end Comparison

end Session

end TensorCalculus
