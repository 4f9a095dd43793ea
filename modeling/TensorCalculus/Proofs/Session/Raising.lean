import TensorCalculus.Proofs.Session.Outcome

/-! A component that is raised or lowered with the metric, and the contraction that stands for it:
where the metric and the tensor have one dimension, they are the same. -/
namespace TensorCalculus

open List hiding count
open Assignment

variable {names : List (String × Nat)} {α : Type} {r : TensorRef} {dims : Dimensions}
  {ρ σ : Assignment} {indices : List Index} {p : Index × Nat} {s : Session} {i : Index} {n : Nat}

namespace Assignment

def indexAt (ρ : Assignment) (i : Index) : Nat :=
  match i.value with
  | .fixed n => n
  | .named x => ρ.value x

theorem indexValues_eq (h : ∀ x ∈ indices.filterMap Index.name?, (ρ.lookup x).isSome) (span : Span) :
    ρ.indexValues span indices = .ok (indices.map ρ.indexAt) := by
  apply Formula.mapM_eq_ok
  intro i hi
  unfold indexValue indexAt
  cases hvalue : i.value with
  | fixed n => rfl
  | named x =>
    have hx : x ∈ indices.filterMap Index.name? :=
      mem_filterMap.mpr ⟨i, hi, by rw [Index.name?, hvalue]⟩
    simp only [lookup_eq_value (h x hx)]
    rfl

theorem indexAt_congr (h : ∀ x, i.name? = some x → σ.lookup x = ρ.lookup x) :
    σ.indexAt i = ρ.indexAt i := by
  unfold indexAt
  cases hvalue : i.value with
  | fixed n => rfl
  | named x => exact congrArg (·.getD 0) (h x (by rw [Index.name?, hvalue]))

end Assignment

namespace Formula

theorem lookup_of_mem_assignments (hσ : σ ∈ assignments names ρ) {x : String}
    (hx : x ∉ names.map (·.1)) : σ.lookup x = ρ.lookup x := by
  induction names generalizing σ with
  | nil => rw [mem_singleton.mp hσ]
  | cons p names ih =>
    rw [map_cons, mem_cons, not_or] at hx
    obtain ⟨τ, hτ, hmem⟩ := mem_flatMap.mp hσ
    obtain ⟨v, _, rfl⟩ := mem_map.mp hmem
    rw [lookup_cons, if_neg hx.1, ih hτ hx.2]

theorem value_of_mem_assignments (hσ : σ ∈ assignments names ρ) {p : String × Nat} (hp : p ∈ names)
    (hnodup : (names.map (·.1)).Nodup) : (σ.lookup p.1).isSome ∧ σ.value p.1 < p.2 := by
  induction names generalizing σ with
  | nil => cases hp
  | cons q names ih =>
    rw [map_cons, nodup_cons] at hnodup
    obtain ⟨τ, hτ, hmem⟩ := mem_flatMap.mp hσ
    obtain ⟨v, hv, rfl⟩ := mem_map.mp hmem
    rcases mem_cons.mp hp with rfl | hp
    · rw [Assignment.value, lookup_cons, if_pos rfl]
      exact ⟨rfl, mem_range.mp hv⟩
    · have hne : p.1 ≠ q.1 := fun heq => hnodup.1 (heq ▸ mem_map_of_mem hp)
      rw [Assignment.value, lookup_cons, if_neg hne]
      exact ih hτ hp hnodup.2

theorem map_assignments_eq_indices {slots : List α} {dummy : α → String} (n : Nat)
    (hnodup : (slots.map dummy).Nodup) (ρ : Assignment) :
    (assignments (slots.map fun a => (dummy a, n)).reverse ρ).map
        (fun σ => slots.map fun a => σ.value (dummy a)) = Layout.indices slots.length n := by
  induction slots generalizing ρ with
  | nil => rfl
  | cons a slots ih =>
    rw [map_cons, nodup_cons] at hnodup
    have hinner (v : Nat) :
        (assignments (slots.map fun a => (dummy a, n)).reverse ((dummy a, v) :: ρ)).map
          (fun σ => (a :: slots).map fun a => σ.value (dummy a)) =
        (Layout.indices slots.length n).map (v :: ·) := by
      rw [← ih hnodup.2 ((dummy a, v) :: ρ), map_map]
      apply map_congr_left
      intro σ hσ
      have hfirst : σ.value (dummy a) = v := by
        have hlookup := lookup_of_mem_assignments hσ (x := dummy a) (by
          rw [map_reverse, mem_reverse, map_map]
          exact hnodup.1)
        rw [Assignment.value, hlookup, lookup_cons, if_pos rfl]
        rfl
      rw [map_cons, hfirst]
      rfl
    rw [map_cons, reverse_cons, assignments_append, length_cons, Layout.indices]
    simp only [assignments, flatMap_cons, flatMap_nil, append_nil, flatMap_map, map_flatMap]
    exact flatMap_congr fun v _ => hinner v

/-- In range, the nested sums over the dummies are one sum over all index vectors. -/
theorem sumOverNames_eq_rows {α : Type} {slots : List α} {dummy : α → String}
    (hnodup : (slots.map dummy).Nodup) {names : List (String × Nat)}
    (hnames : names.Perm (slots.map fun a => (dummy a, n))) {body : Assignment → Except Error Expr}
    {P : Assignment → Prop} {term : IndexVector → Expr} (hbody : ∀ σ ∈ assignments names ρ,
      body σ = .ok (term (slots.map fun a => σ.value (dummy a))) ∧
        Expr.Built False (term (slots.map fun a => σ.value (dummy a))))
    (hrange : SumsInRange names body P ρ)
    (hsum : Expr.SumExact ((Layout.indices slots.length n).map term)) :
    sumOverNames names body ρ = .ok (.sum ((Layout.indices slots.length n).map term)) := by
  let row (σ : Assignment) : IndexVector := slots.map fun a => σ.value (dummy a)
  obtain ⟨e, he, _, htally, hform⟩ := sumOverNames_eq (fun σ hσ => (hbody σ hσ).1) hrange
    fun σ hσ _ => (hbody σ hσ).2
  rw [he]
  refine congrArg Except.ok ?_
  rcases hform with rfl | ⟨es, rfl, hes⟩
  · have hnone : slots = [] := map_eq_nil_iff.mp (nil_perm.mp hnames)
    subst hnone
    obtain ⟨hvalue, hbuilt⟩ := hbody ρ (mem_singleton_self ρ)
    have hterm : e = term [] := Except.ok.inj (he.symm.trans hvalue)
    exact hterm.trans (Expr.sum_singleton hbuilt.tidy).symm
  · have hrespects : Respects fun σ => term (row σ) := by
      intro σ τ hsame
      refine congrArg term (map_congr_left fun a _ => ?_)
      exact congrArg (·.getD 0) (hsame (dummy a))
    have hfirst : (names.map (·.1)).Nodup := by
      rw [(hnames.map _).nodup_iff, map_map]
      exact hnodup
    have hperm := map_assignments_perm (hnames.trans (reverse_perm _).symm) hfirst hrespects ρ
    have hrows := congrArg (List.map term) (map_assignments_eq_indices n hnodup ρ)
    rw [map_map] at hrows
    apply Expr.sum_eq_of_tally hes.exact hsum
    rw [← hes.tally_sum, htally, Expr.tally_perm hperm]
    exact congrArg Expr.tally hrows

end Formula

namespace Session

open Formula Occurrence

theorem getElem?_foldl_set (f : Nat → Nat) (ps : List (Index × Nat)) (inner : IndexVector) (j : Nat) :
    (ps.foldl (fun inner p => inner.set p.2 (f p.2)) inner)[j]? =
      if j ∈ ps.map (·.2) then inner[j]?.map fun _ => f j else inner[j]? := by
  induction ps generalizing inner with
  | nil => rfl
  | cons p ps ih =>
    rw [foldl_cons, ih, map_cons, getElem?_set]
    by_cases hp : p.2 = j
    · subst hp
      by_cases hlength : p.2 < inner.length
      · simp [hlength]
      · simp [hlength]
    · have hmem : j ∈ p.2 :: ps.map (·.2) ↔ j ∈ ps.map (·.2) := by
        rw [mem_cons]
        exact or_iff_right (Ne.symm hp)
      simp only [if_neg hp, hmem]

theorem raisingFactors_eq (upper lower sibling : Tensor) (heights : List Height)
    (index : IndexVector) (f : Nat → Nat) (ps : List (Index × Nat))
    (hps : ∀ p ∈ ps, heights.getD p.2 .upper = p.1.height) (inner : IndexVector) :
    raisingFactors upper lower sibling heights index (ps.map (·.2)) (ps.map fun p => f p.2) inner =
      ps.map (fun p => (if p.1.height = .upper then upper else lower).get
        [index.getD p.2 0, f p.2]) ++
        [sibling.get (ps.foldl (fun inner p => inner.set p.2 (f p.2)) inner)] := by
  induction ps generalizing inner with
  | nil => rfl
  | cons p ps ih =>
    rw [forall_mem_cons] at hps
    rw [map_cons, map_cons, raisingFactors, ih hps.2, hps.1]
    rfl

theorem foldl_set_raisedSlots (known : List Height) (indices : List Index) (w : Index → Nat)
    (f : Nat → Nat) :
    (raisedSlots known indices).foldl (fun inner p => inner.set p.2 (f p.2)) (indices.map w) =
      indices.zipIdx.map fun p => if differs known p then f p.2 else w p.1 := by
  apply ext_getElem?
  intro j
  rw [getElem?_foldl_set, getElem?_map, getElem?_map, getElem?_zipIdx]
  cases hi : indices[j]? with
  | none => simp
  | some i =>
    have hmem : j ∈ (raisedSlots known indices).map (·.2) ↔ differs known (i, j) := by
      constructor
      · intro hj
        obtain ⟨p, hp, rfl⟩ := mem_map.mp hj
        obtain ⟨hzip, hdiffers⟩ := mem_filter.mp hp
        rw [mem_zipIdx_iff_getElem?, hi] at hzip
        cases hzip
        exact hdiffers
      · intro hdiffers
        refine mem_map.mpr ⟨(i, j), mem_filter.mpr ⟨?_, hdiffers⟩, rfl⟩
        exact mem_zipIdx_iff_getElem?.mpr hi
    by_cases hdiffers : differs known (i, j)
    · simp [hmem, hdiffers]
    · simp [hmem, hdiffers]

end Session

/-- The components of a tensor fill its shape. -/
structure Entry.HasShape (e : Entry) (rank dimension : Nat) : Prop where
  rank_eq : e.rank = rank
  dimension_eq : e.dimension = dimension
  full : e.value.Full
  valueRank : e.value.rank = rank
  valueDimension : e.value.dimension = dimension

namespace Session

open Formula Occurrence

section Component

variable {e : Entry} {rank : Nat} (h : e.HasShape rank n) {head : TensorHead}
  (he : s.table.get? head.name = some e) {index : IndexVector} (hlength : index.length = rank)
include h he hlength

theorem component_eq_ok (hlt : ∀ i ∈ index, i < n) (span : Span) :
    s.component head index span = .ok (e.value.get index) := by
  have hmem : index ∈ Layout.indices e.value.rank e.value.dimension := by
    rw [h.valueRank, h.valueDimension, Layout.mem_indices]
    exact ⟨hlength, hlt⟩
  obtain ⟨v, hv⟩ := Option.isSome_iff_exists.mp (Tensor.isSome_get? h.full hmem)
  rw [component_of_known he (h.rank_eq.trans hlength.symm), Tensor.get, hv]
  rfl

theorem componentInRange_of_known (hlt : ∀ i ∈ index, i < n)
    (hbuilt : Expr.Built False (e.value.get index)) (span : Span) :
    s.ComponentInRange head index span := by
  constructor
  · intro v hv
    rw [component_eq_ok h he hlength hlt] at hv
    exact Except.ok.inj hv ▸ hbuilt
  · intro hrank
    exact absurd (h.rank_eq.trans hlength.symm) (hrank e he)

theorem component_fails (hnot : ¬ ∀ i ∈ index, i < n) (span : Span) :
    ¬ ∃ v, s.component head index span = .ok v := by
  have hnone : e.value.get? index = none := by
    have hoffset : Layout.offset? e.value.rank e.value.dimension index = none := by
      rw [Layout.offset?, if_neg]
      rw [h.valueDimension, Bool.and_eq_true, all_eq_true]
      rintro ⟨_, hall⟩
      exact hnot fun i hi => by simpa using hall i hi
    rw [Tensor.get?, hoffset]
    rfl
  rw [component_of_known he (h.rank_eq.trans hlength.symm), hnone]
  rintro ⟨v, ⟨⟩⟩

end Component

/-- A reference that is raised or lowered from its sibling, with a metric of the same dimension. -/
structure Raises (s : Session) (t : TensorRef) (metric : Metric) (upper lower sibling : Entry)
    (n : Nat) : Prop where
  metric_eq : s.metrics .none = some metric
  get_upper : s.table.get? (metric.base ++ "UU") = some upper
  get_lower : s.table.get? (metric.base ++ "DD") = some lower
  absent : s.table.get? t.name = none
  sibling_eq : s.sibling? t.head = some sibling
  get_sibling : s.table.get? sibling.name = some sibling
  pos : 0 < n
  upperShape : upper.HasShape 2 n
  lowerShape : lower.HasShape 2 n
  siblingShape : sibling.HasShape t.rank n

namespace Raises

variable {t : TensorRef} {metric : Metric} {upper lower sibling : Entry}
  (h : s.Raises t metric upper lower sibling n)
include h

theorem rank_pos : 0 < t.rank := by
  have hsome := h.sibling_eq
  unfold sibling? at hsome
  split at hsome
  · cases hsome
  · next hne =>
    rw [Bool.or_eq_true, not_or, decide_eq_true_eq] at hne
    have hrank : t.head.rank = t.rank := length_map _
    omega

theorem ofTensor_asked : s.dimensions.ofTensor t.head = some n := by
  have habsent : s.table.get? t.head.name = none := h.absent
  unfold dimensions
  dsimp only
  rw [habsent, h.sibling_eq]
  exact congrArg some h.siblingShape.dimension_eq

omit h in
theorem ofTensor_known {e : Entry} {rank n : Nat} (h : e.HasShape rank n)
    (he : s.table.get? r.name = some e) (hrank : r.rank = rank) (hpos : 0 < rank) :
    s.dimensions.ofTensor r.head = some n := by
  have hhead : r.head.rank = rank := (length_map _).trans hrank
  have he : s.table.get? r.head.name = some e := he
  unfold dimensions
  dsimp only
  rw [he]
  dsimp only
  rw [if_pos ⟨h.rank_eq.trans hhead.symm, h.rank_eq ▸ hpos⟩, h.dimension_eq]

theorem metricFactor_known (dummy : Nat → String) (spans : Nat → Span) (p : Index × Nat) :
    let e := if p.1.height = .upper then upper else lower
    s.table.get? (metricFactor metric.base dummy spans p).name = some e ∧ e.HasShape 2 n := by
  have hname : (metricFactor metric.base dummy spans p).name =
      metric.base ++ String.ofList [p.1.height.letter, p.1.height.letter] := rfl
  rw [hname]
  cases p.1.height with
  | upper => exact ⟨h.get_upper, h.upperShape⟩
  | lower => exact ⟨h.get_lower, h.lowerShape⟩

end Raises

/-- An assignment that also gives values to the dummies. -/
structure Sums (known : List Height) (indices : List Index) (dummy : Nat → String) (n : Nat)
    (ρ σ : Assignment) : Prop where
  asked : ∀ x ∈ indices.filterMap Index.name?, (σ.lookup x).isSome ∧ σ.lookup x = ρ.lookup x
  dummies : ∀ p ∈ raisedSlots known indices,
    (σ.lookup (dummy p.2)).isSome ∧ σ.value (dummy p.2) < n

theorem Sums.of_mem {known : List Height} {dummy : Nat → String} (h : Dummies known indices dummy)
    (hρ : ∀ x ∈ indices.filterMap Index.name?, (ρ.lookup x).isSome)
    (hnames : names.Perm ((raisedSlots known indices).map fun p => (dummy p.2, n)))
    (hσ : σ ∈ assignments names ρ) : Sums known indices dummy n ρ σ := by
  have hfirst : (names.map (·.1)).Perm ((raisedSlots known indices).map fun p => dummy p.2) := by
    have := hnames.map (·.1)
    rwa [map_map] at this
  refine ⟨fun x hx => ?_, fun p hp => ?_⟩
  · have hlookup : σ.lookup x = ρ.lookup x := by
      apply lookup_of_mem_assignments hσ
      rw [hfirst.mem_iff]
      intro hmem
      obtain ⟨p, hp, rfl⟩ := mem_map.mp hmem
      exact h.fresh p hp hx
    exact ⟨hlookup ▸ hρ x hx, hlookup⟩
  · exact value_of_mem_assignments hσ (hnames.mem_iff.mpr (mem_map_of_mem hp))
      (hfirst.nodup_iff.mpr h.nodup)

namespace Sums

variable {known : List Height} {dummy : Nat → String} (h : Sums known indices dummy n ρ σ)
include h

theorem indexAt_asked (hi : i ∈ indices) : σ.indexAt i = ρ.indexAt i :=
  indexAt_congr fun x hx => (h.asked x (mem_filterMap.mpr ⟨i, hi, hx⟩)).2

theorem indexValues_contracted (span : Span) :
    σ.indexValues span (contractedIndices known dummy indices) =
      .ok (indices.zipIdx.map fun p =>
        if differs known p then σ.value (dummy p.2) else ρ.indexAt p.1) := by
  rw [Assignment.indexValues_eq, contractedIndices, map_map]
  · congr 1
    apply map_congr_left
    intro p hp
    rw [Function.comp_apply, slotIndex]
    split
    · rfl
    · exact h.indexAt_asked (fst_mem_of_mem_zipIdx hp)
  · intro x hx
    rcases mem_append.mp ((names_contractedIndices known indices dummy).mem_iff.mp hx) with
      hx | hx
    · obtain ⟨p, hp, rfl⟩ := mem_map.mp hx
      exact (h.dummies p hp).1
    · refine (h.asked x ?_).1
      rw [((indices_perm known indices).filterMap Index.name?).mem_iff, filterMap_append]
      exact mem_append_right _ hx

theorem indexValues_metricFactor (hp : p ∈ raisedSlots known indices) (base : String)
    (spans : Nat → Span) (span : Span) :
    σ.indexValues span (metricFactor base dummy spans p).indices =
      .ok [ρ.indexAt p.1, σ.value (dummy p.2)] := by
  have hmem : p.1 ∈ indices := fst_mem_of_mem_zipIdx (mem_filter.mp hp).1
  have hvalues : σ.indexValues span (metricFactor base dummy spans p).indices =
      .ok ((metricFactor base dummy spans p).indices.map σ.indexAt) :=
    Assignment.indexValues_eq (fun x hx => ?_) span
  · rw [hvalues, ← h.indexAt_asked hmem]
    rfl
  · obtain ⟨i, hi, hname⟩ := mem_filterMap.mp hx
    simp only [metricFactor, TensorRef.ofBase, mem_cons, not_mem_nil, or_false] at hi
    rcases hi with rfl | rfl
    · exact (h.asked x (mem_filterMap.mpr ⟨_, hmem, hname⟩)).1
    · cases hname
      exact (h.dummies p hp).1

end Sums

theorem map_eq_bind {β : Type} (g : α → β) (x : Except Error α) :
    g <$> x = x >>= fun a => .ok (g a) := by
  cases x <;> rfl

theorem componentAt_yields (s : Session) (r : TensorRef) (σ : Assignment) :
    Yields (· = s) (reading.componentAt σ r) (s.tensorValue r σ) := by
  rintro _ rfl
  exact ⟨rfl, by rw [run_componentAt]⟩

theorem Yields.value_eq {f : Formula} {y : Except Error Expr}
    (h : Yields (· = s) (f.convention reading dims ρ) y) : s.value dims f ρ = y :=
  (h s rfl).1

theorem tensor_yields (s : Session) (dims : Dimensions) (r : TensorRef) (ρ : Assignment) :
    Yields (· = s) ((Formula.tensor r).convention reading dims ρ)
      (sumOverNames (summed dims (tensorOccurrences dims r)) (s.tensorValue r) ρ) :=
  .sumOverNames (componentAt_yields s r) _ ρ

theorem product_yields (s : Session) (dims : Dimensions) (refs : List TensorRef) (ρ : Assignment) :
    Yields (· = s) ((Formula.product (refs.map .tensor)).convention reading dims ρ)
      (sumOverNames (summed dims (freeOccurrenceLists dims (refs.map .tensor)))
        (fun σ => Expr.product <$> (refs.map .tensor).mapM (s.value dims · σ)) ρ) := by
  refine .sumOverNames (fun σ => ?_) _ ρ
  rw [map_eq_bind]
  refine .bind (.conventionAll fun f hf => ?_) fun _ _ => .pure _
  obtain ⟨r, -, rfl⟩ := mem_map.mp hf
  rw [(tensor_yields s dims r σ).value_eq]
  exact tensor_yields s dims r σ

theorem summed_of_nodup (h : (r.indices.filterMap Index.name?).Nodup) :
    summed dims (tensorOccurrences dims r) = []:= by
  rw [summed, paired_of_nodup]
  · rfl
  · rw [map_name_tensorOccurrences]
    exact h

theorem value_tensor (h : (r.indices.filterMap Index.name?).Nodup) (σ : Assignment) :
    s.value dims (.tensor r) σ = s.tensorValue r σ := by
  rw [(tensor_yields s dims r σ).value_eq, summed_of_nodup h]
  rfl

namespace Raises

variable {t : TensorRef} {metric : Metric} {upper lower sibling : Entry}
  (h : s.Raises t metric upper lower sibling n)
include h

theorem component_eq (index : IndexVector) (span : Span) :
    let slots := mismatches sibling.heights t.head.heights
    s.component t.head index span =
      if index.any (n ≤ ·) then .error (outOfRange t.head.name n span)
      else .ok (.sum ((Layout.indices slots.length n).map fun summed =>
        .product (raisingFactors upper.value lower.value sibling.value t.head.heights index slots
          summed index))) := by
  have habsent : s.table.get? t.head.name = none := h.absent
  unfold component
  rw [habsent]
  unfold raised?
  rw [h.sibling_eq, h.metric_eq]
  dsimp only
  rw [h.get_upper, h.get_lower]
  dsimp only
  rw [h.siblingShape.dimension_eq]
  cases index.any (n ≤ ·) <;> rfl

theorem raised_inRange (hnodup : (t.indices.filterMap Index.name?).Nodup) {ρ : Assignment}
    {index : IndexVector} (hvalues : ρ.indexValues t.span t.indices = .ok index)
    (hlt : ∀ i ∈ index, i < n) (hrange : s.InRange dims ρ (.tensor t)) :
    let slots := mismatches sibling.heights t.head.heights
    let factors := fun summed => raisingFactors upper.value lower.value sibling.value t.head.heights
      index slots summed index
    (∀ summed ∈ Layout.indices slots.length n, Expr.Exact (.product (factors summed))) ∧
      Expr.SumExact ((Layout.indices slots.length n).map fun summed =>
        .product (factors summed)) := by
  have habsent (e : Entry) (he : s.table.get? t.head.name = some e) : e.rank ≠ index.length := by
    rw [show s.table.get? t.head.name = none from h.absent] at he
    cases he
  rw [InRange, summed_of_nodup hnodup] at hrange
  have hraises := (hrange index hvalues).raised habsent sibling metric upper lower h.sibling_eq
    h.metric_eq h.get_upper h.get_lower
  rw [h.siblingShape.dimension_eq] at hraises
  exact hraises hlt

variable {dummy : Nat → String} {spans : Nat → Span}
  (hσ : Sums sibling.heights t.indices dummy n ρ σ)
include hσ

theorem tensorValue_sibling (hlt : ∀ i ∈ t.indices, ρ.indexAt i < n) :
    s.tensorValue ⟨sibling.name, sibling.base, contractedIndices sibling.heights dummy t.indices,
        t.span⟩ σ =
      .ok (sibling.value.get (t.indices.zipIdx.map fun p =>
        if differs sibling.heights p then σ.value (dummy p.2) else ρ.indexAt p.1)) := by
  rw [tensorValue_eq, hσ.indexValues_contracted]
  refine component_eq_ok h.siblingShape h.get_sibling ?_ ?_ _
  · rw [length_map, length_zipIdx]
    rfl
  · intro i hi
    obtain ⟨p, hp, rfl⟩ := mem_map.mp hi
    split
    · next hdiffers => exact (hσ.dummies p (mem_filter.mpr ⟨hp, hdiffers⟩)).2
    · exact hlt _ (fst_mem_of_mem_zipIdx hp)

theorem tensorValue_metricFactor (spans : Nat → Span) (hlt : ∀ i ∈ t.indices, ρ.indexAt i < n)
    (hp : p ∈ raisedSlots sibling.heights t.indices) :
    s.tensorValue (metricFactor metric.base dummy spans p) σ =
      .ok ((if p.1.height = .upper then upper.value else lower.value).get
        [ρ.indexAt p.1, σ.value (dummy p.2)]) := by
  obtain ⟨hget, hshape⟩ := h.metricFactor_known dummy spans p
  rw [tensorValue_eq, hσ.indexValues_metricFactor hp, ← apply_ite Entry.value]
  refine component_eq_ok hshape hget rfl ?_ _
  have hmem : p.1 ∈ t.indices := fst_mem_of_mem_zipIdx (mem_filter.mp hp).1
  simpa using ⟨hlt _ hmem, (hσ.dummies p hp).2⟩

variable {refs : List TensorRef}
  (hrefs : refs.Perm (contractedFactors sibling metric.base dummy spans t))
  (hd : Dummies sibling.heights t.indices dummy)
include hrefs hd

theorem exists_factors (dims : Dimensions) (hlt : ∀ i ∈ t.indices, ρ.indexAt i < n) :
    let index := t.indices.map ρ.indexAt
    let raised := raisedSlots sibling.heights t.indices
    ∃ es, (refs.map Formula.tensor).mapM (s.value dims · σ) = .ok es ∧
      es.Perm (raisingFactors upper.value lower.value sibling.value t.head.heights index
        (raised.map (·.2)) (raised.map fun p => σ.value (dummy p.2)) index) := by
  intro index raised
  let w (r : TensorRef) : Expr := (s.tensorValue r σ).toOption.getD .zero
  have hw {r : TensorRef} {e : Expr} (hr : s.tensorValue r σ = .ok e) :
      s.tensorValue r σ = .ok (w r) ∧ w r = e := by
    simp [w, hr, Except.toOption]
  have hsibling := hw (h.tensorValue_sibling hσ hlt)
  have hmetric {p : Index × Nat} (hp : p ∈ raised) :=
    hw (h.tensorValue_metricFactor hσ spans hlt hp)
  have hok : ∀ r ∈ refs, s.value dims (.tensor r) σ = .ok (w r) := by
    intro r hr
    rw [value_tensor (nodup_factor hrefs hd hr)]
    rcases mem_cons.mp (hrefs.mem_iff.mp hr) with rfl | hr
    · exact hsibling.1
    · obtain ⟨p, hp, rfl⟩ := mem_map.mp hr
      exact (hmetric hp).1
  refine ⟨refs.map w, by rw [mapM_map]; exact mapM_eq_ok hok, (hrefs.map w).trans ?_⟩
  have hslot : ∀ p ∈ raised, t.indices[p.2]? = some p.1 := fun p hp =>
    mem_zipIdx_iff_getElem?.mp (mem_filter.mp hp).1
  have hheights : ∀ p ∈ raised, t.head.heights.getD p.2 .upper = p.1.height := by
    intro p hp
    simp [TensorRef.head, getD_eq_getElem?_getD, hslot p hp]
  have hmetrics : raised.map (fun p => w (metricFactor metric.base dummy spans p)) =
      raised.map fun p => (if p.1.height = .upper then upper.value else lower.value).get
        [index.getD p.2 0, σ.value (dummy p.2)] := by
    apply map_congr_left
    intro p hp
    have hindex : index.getD p.2 0 = ρ.indexAt p.1 := by
      simp [index, getD_eq_getElem?_getD, hslot p hp]
    rw [(hmetric hp).2, hindex]
  have hinner : raised.foldl (fun inner p => inner.set p.2 (σ.value (dummy p.2))) index = _ :=
    foldl_set_raisedSlots sibling.heights t.indices ρ.indexAt fun slot => σ.value (dummy slot)
  rw [raisingFactors_eq _ _ _ _ _ (fun slot => σ.value (dummy slot)) raised hheights, hinner,
    ← hmetrics, ← hsibling.2, contractedFactors, map_cons,
    map_map]
  exact (perm_append_singleton _ _).symm

theorem product_factors (hlt : ∀ i ∈ t.indices, ρ.indexAt i < n) :
    let index := t.indices.map ρ.indexAt
    let raised := raisedSlots sibling.heights t.indices
    let factors := fun summed => raisingFactors upper.value lower.value sibling.value t.head.heights
      index (raised.map (·.2)) summed index
    let row := raised.map fun p => σ.value (dummy p.2)
    (∀ summed ∈ Layout.indices raised.length n, Expr.Exact (.product (factors summed))) →
    (∀ f ∈ refs.map Formula.tensor, s.InRange dims σ f) →
    (∀ es, (refs.map Formula.tensor).mapM (s.value dims · σ) = .ok es →
      Expr.Exact (.product es)) →
    (Expr.product <$> (refs.map Formula.tensor).mapM (s.value dims · σ)) =
        .ok (.product (factors row)) ∧ Expr.Built False (.product (factors row)) := by
  intro index raised factors row hexact hparts hproduct
  obtain ⟨es, hes, hperm⟩ := h.exists_factors hσ hrefs hd dims hlt
  have hrow : row ∈ Layout.indices raised.length n := by
    rw [Layout.mem_indices]
    refine ⟨length_map _, fun i hi => ?_⟩
    obtain ⟨p, hp, rfl⟩ := mem_map.mp hi
    exact (hσ.dummies p hp).2
  have heq : Expr.product es = .product (factors row) :=
    Expr.product_perm_of_exact hperm (hproduct es hes) (hexact _ hrow)
  refine ⟨by rw [hes, ← heq]; rfl, ?_⟩
  rw [← heq]
  refine .product (fun e he => ?_) (hproduct es hes)
  obtain ⟨f, hf, hvalue⟩ := exists_of_mem_mapM hes e he
  have hfactor := hparts f hf
  obtain ⟨r, hr, rfl⟩ := mem_map.mp hf
  rw [InRange, summed_of_nodup (nodup_factor hrefs hd hr)] at hfactor
  rw [value_tensor (nodup_factor hrefs hd hr), tensorValue_eq] at hvalue
  obtain ⟨c, hc, hvalue⟩ := Except.bind_eq_ok hvalue
  exact (hfactor c hc).built e hvalue

theorem factors_fail (dims : Dimensions) (hnot : ¬ ∀ i ∈ t.indices, ρ.indexAt i < n) :
    ¬ ∃ es, (refs.map Formula.tensor).mapM (s.value dims · σ) = .ok es := by
  rintro ⟨es, hes⟩
  rw [mapM_map] at hes
  have hall (r : TensorRef) (hr : r ∈ contractedFactors sibling metric.base dummy spans t) :
      ∃ e, s.tensorValue r σ = .ok e := by
    have hmem := hrefs.mem_iff.mpr hr
    have hvalue : s.value dims (.tensor r) σ = s.tensorValue r σ :=
      value_tensor (nodup_factor hrefs hd hmem) σ
    rw [← hvalue]
    exact exists_of_mapM_eq_ok hes r hmem
  apply hnot
  intro i hi
  obtain ⟨slot, hslot⟩ := getElem?_of_mem hi
  have hzip : (i, slot) ∈ t.indices.zipIdx := mem_zipIdx_iff_getElem?.mpr hslot
  by_cases hdiffers : differs sibling.heights (i, slot)
  · have hp : (i, slot) ∈ raisedSlots sibling.heights t.indices :=
      mem_filter.mpr ⟨hzip, hdiffers⟩
    obtain ⟨hget, hshape⟩ := h.metricFactor_known dummy spans (i, slot)
    have hvalue := hall _ (mem_cons_of_mem _ (mem_map_of_mem hp))
    rw [tensorValue_eq, hσ.indexValues_metricFactor hp] at hvalue
    by_contra hlt
    refine component_fails hshape hget rfl ?_ _ hvalue
    intro hall
    exact hlt (hall _ mem_cons_self)
  · have hvalue := hall _ mem_cons_self
    rw [tensorValue_eq, hσ.indexValues_contracted] at hvalue
    by_contra hlt
    refine component_fails h.siblingShape h.get_sibling ?_ ?_ _ hvalue
    · rw [length_map, length_zipIdx]
      rfl
    · intro hall
      apply hlt
      have := hall _ (mem_map_of_mem hzip)
      rwa [if_neg hdiffers] at this

end Raises

section Define

variable {t : TensorRef} {metric : Metric} {upper lower sibling : Entry}
  (h : s.Raises t metric upper lower sibling n) {dummy : Nat → String} {spans : Nat → Span}
  {refs : List TensorRef}
  (hrefs : refs.Perm (contractedFactors sibling metric.base dummy spans t))
  (hd : Dummies sibling.heights t.indices dummy)
include h hrefs

namespace Raises

theorem dimension_factors : ∀ o ∈ refs.flatMap (tensorOccurrences s.dimensions),
    o.dimension = some n := by
  intro o ho
  obtain ⟨r, hr, hmem⟩ := mem_flatMap.mp ho
  have hofTensor : s.dimensions.ofTensor r.head = some n := by
    rcases mem_cons.mp (hrefs.mem_iff.mp hr) with rfl | hr
    · refine ofTensor_known h.siblingShape h.get_sibling ?_ h.rank_pos
      rw [TensorRef.rank, contractedIndices, length_map, length_zipIdx]
      rfl
    · obtain ⟨p, _, rfl⟩ := mem_map.mp hr
      obtain ⟨hget, hshape⟩ := h.metricFactor_known dummy spans p
      exact ofTensor_known hshape hget rfl (Nat.succ_pos 1)
  obtain ⟨k, _, rfl⟩ := mem_map.mp hmem
  exact hofTensor

include hd

theorem summed_factors :
    (summed s.dimensions (freeOccurrenceLists s.dimensions (refs.map .tensor))).Perm
      ((raisedSlots sibling.heights t.indices).map fun p => (dummy p.2, n)) := by
  rw [freeOccurrenceLists_factors hrefs hd]
  have hranges : summed s.dimensions (refs.flatMap (tensorOccurrences s.dimensions)) =
      (paired (refs.flatMap (tensorOccurrences s.dimensions))).map (·, n) := by
    apply map_congr_left
    intro name hname
    have hcount := mem_paired.mp hname
    have hmem : name ∈ (refs.flatMap (tensorOccurrences s.dimensions)).map (·.name) := by
      apply count_pos_iff.mp
      unfold count at hcount
      omega
    rw [range?_eq_some hmem fun o ho _ => h.dimension_factors hrefs o ho]
    rfl
  have hperm := (paired_factors hrefs hd s.dimensions).map (·, n)
  rw [map_map] at hperm
  exact hranges ▸ hperm

variable (hρ : ∀ x ∈ t.indices.filterMap Index.name?, (ρ.lookup x).isSome)
  (hrange : s.InRange s.dimensions ρ (.tensor t))
  (hrange' : s.InRange s.dimensions ρ (.product (refs.map .tensor)))
include hρ hrange hrange'

theorem value_contraction : (s.value s.dimensions (.tensor t) ρ).toOption =
    (s.value s.dimensions (.product (refs.map .tensor)) ρ).toOption := by
  let raised := raisedSlots sibling.heights t.indices
  let index := t.indices.map ρ.indexAt
  let names := summed s.dimensions (freeOccurrenceLists s.dimensions (refs.map .tensor))
  have hnames : names.Perm (raised.map fun p => (dummy p.2, n)) := h.summed_factors hrefs hd
  have hvalues : ρ.indexValues t.span t.indices = .ok index := Assignment.indexValues_eq hρ t.span
  have hmem : (∀ i ∈ t.indices, ρ.indexAt i < n) ↔ ∀ i ∈ index, i < n := by
    simp [index]
  rw [value_tensor hd.names, tensorValue_eq, hvalues,
    (product_yields s s.dimensions refs ρ).value_eq]
  change (s.component t.head index t.span).toOption =
    Except.toOption (sumOverNames names _ ρ)
  rw [h.component_eq]
  by_cases hlt : ∀ i ∈ t.indices, ρ.indexAt i < n
  · have hany : index.any (n ≤ ·) = false := by
      rw [any_eq_false]
      intro i hi
      simpa using hmem.mp hlt i hi
    have hslots : mismatches sibling.heights t.head.heights = raised.map (·.2) :=
      mismatches_eq sibling.heights t.indices
    obtain ⟨hexact, hsum⟩ := h.raised_inRange hd.names hvalues (hmem.mp hlt) hrange
    rw [hslots, length_map] at hexact hsum
    rw [hany, hslots, length_map]
    rw [InRange] at hrange'
    rw [sumOverNames_eq_rows hd.nodup hnames (fun σ hσ => ?_) hrange' hsum]
    · rfl
    · obtain ⟨hparts, hproduct⟩ := hrange'.of_mem σ hσ
      exact h.product_factors (.of_mem hd hρ hnames hσ) hrefs hd hlt hexact
        (allInRange_iff.mp hparts) hproduct
  · -- the index that is out of range is so in one of the factors, whatever the dummies are
    have hany : index.any (n ≤ ·) = true := by
      rw [hmem] at hlt
      push Not at hlt
      obtain ⟨i, hi, hle⟩ := hlt
      exact any_eq_true.mpr ⟨i, hi, decide_eq_true hle⟩
    rw [hany]
    refine (toOption_eq_none.mpr fun hsome => ?_).symm
    have hpos : ∀ p ∈ names, 0 < p.2 := by
      intro p hp
      obtain ⟨q, _, rfl⟩ := mem_map.mp (hnames.mem_iff.mp hp)
      exact h.pos
    obtain ⟨σ, hσ⟩ : ∃ σ, σ ∈ assignments names ρ := exists_mem_assignments hpos
    obtain ⟨e, he⟩ := exists_sumOverNames_iff.mp hsome σ hσ
    obtain ⟨es, hes, -⟩ := Except.bind_eq_ok he
    exact h.factors_fail (.of_mem hd hρ hnames hσ) hrefs hd s.dimensions hlt ⟨es, hes⟩

end Raises

include hd

theorem contraction_succeeds : Succeeds s.dimensions (.product (refs.map .tensor)) := by
  have hplain := plain_contraction hrefs hd
  apply Succeeds.product
  · intro f hf
    obtain ⟨r, hr, rfl⟩ := mem_map.mp hf
    refine ⟨.tensor (.of_nodup ?_), rfl, fun k hk => hplain.names k ?_⟩
    · rw [map_name_tensorOccurrences]
      exact nodup_factor hrefs hd hr
    · rw [indexNames, indexNameLists_eq, flatMap_map]
      exact mem_flatMap.mpr ⟨r, hr, hk⟩
  · rw [freeOccurrenceLists_factors hrefs hd]
    exact .of_range ((keys_factors s.dimensions hrefs).nodup_iff.mpr hd.nodup_keys) (h.dimension_factors hrefs)

/-- An equation for a reference that is raised or lowered from its sibling, and the equation with the
contraction in its place: where the metric and the tensor have one dimension and no number leaves its
range, both fail or both store the same tensor. -/
theorem define_raised_as_contraction (target : TensorRef) (span : Span)
    (hrange : ∀ ρ ∈ s.targetAssignments target (tensorOccurrences s.dimensions t),
      s.InRange s.dimensions ρ (.tensor t) ∧
        s.InRange s.dimensions ρ (.product (refs.map .tensor))) :
    SameResult target.name ((define ⟨target, .tensor t, span⟩).run s)
      ((define ⟨target, .product (refs.map .tensor), span⟩).run s) := by
  have hresolved := @resolved_tensor s.dimensions t hd.names
  obtain ⟨g, k, hresolved', hresolves⟩ :=
    (contraction_succeeds h hrefs hd).resolved (plain_contraction hrefs hd)
  have hfactors : (Formula.product (refs.map .tensor)).isDirect := by
    rw [isDirect, allDirect_eq, List.all_eq_true]
    intro f hf
    obtain ⟨r, -, rfl⟩ := List.mem_map.mp hf
    rfl
  have hkeeps : Keeps s (· = s) := by
    refine ⟨rfl, ?_⟩
    rintro _ rfl name e he
    exact ⟨e, he, rfl⟩
  refine define_sameResult hkeeps rfl hfactors ⟨fun _ => ⟨_, hresolved'⟩, fun _ => ⟨_, hresolved⟩⟩ ?_
  intro p p' hp hp'
  cases hresolved.symm.trans hp
  cases hresolved'.symm.trans hp'
  have hdimension : ∀ o ∈ tensorOccurrences s.dimensions t, o.dimension = some n := by
    intro o ho
    obtain ⟨key, -, rfl⟩ := List.mem_map.mp ho
    exact h.ofTensor_asked
  refine ⟨?_, s.tensorValue t, s.value s.dimensions (.product (refs.map .tensor)),
    componentAt_yields s t, fun ρ => ?_, fun ρ hρ hbound => ?_⟩
  · rw [freeOccurrences, freeOccurrenceLists_factors hrefs hd]
    refine .of_range ?_ hdimension fun o ho =>
      h.dimension_factors hrefs o (List.mem_filter.mp ho).1
    rw [map_key_tensorOccurrences]
    exact (keys_lone_factors hrefs hd).symm
  · unfold evaluate
    rw [hresolves.evaluate, (product_yields s s.dimensions refs ρ).value_eq]
    exact product_yields s s.dimensions refs ρ
  · rw [map_name_tensorOccurrences] at hbound
    obtain ⟨hrange, hrange'⟩ := hrange ρ hρ
    rw [← value_tensor hd.names]
    exact h.value_contraction hrefs hd hbound hrange hrange'

end Define

set_option maxRecDepth 100000 in
theorem define_raised_as_contraction_lowered :
    let s := ((Session.new {}).parse "% def gUU (2), gDD (2), vU (2)").2.setMetric .none ⟨"g", 2, 2⟩
    let t : TensorRef := .ofBase "v" [.lower "i"] .none
    let refs : List TensorRef :=
      [.ofBase "g" [.lower "i", .lower "j"] .none, .ofBase "v" [.upper "j"] .none]
    let target : TensorRef := .ofBase "w" [.lower "i"] .none
    ∃ metric upper lower sibling, s.Raises t metric upper lower sibling 2 ∧
      refs.Perm (contractedFactors sibling metric.base (fun _ => "j") (fun _ => .none) t) ∧
      Dummies sibling.heights t.indices (fun _ => "j") ∧
      (∀ ρ ∈ s.targetAssignments target (tensorOccurrences s.dimensions t),
        s.InRange s.dimensions ρ (.tensor t) ∧
          s.InRange s.dimensions ρ (.product (refs.map .tensor))) ∧
      ((define ⟨target, .tensor t, .none⟩).run s).1.toOption = some () ∧
      SameResult "wD" ((define ⟨target, .tensor t, .none⟩).run s)
        ((define ⟨target, .product (refs.map .tensor), .none⟩).run s) := by
  intro s t refs target
  let declared (name base : String) (heights : List Height) (id : Nat) : Entry :=
    { name, base, heights, dimension := 2, symmetry := .none, origin := .declared, id,
      value := .symbolic name heights.length 2 .none .auto }
  let upper := declared "gUU" "g" [.upper, .upper] 1
  let lower := declared "gDD" "g" [.lower, .lower] 2
  let known := declared "vU" "v" [.upper] 3
  have hraises : s.Raises t ⟨"g", 2, 2⟩ upper lower known 2 := by
    refine ⟨rfl, ?_, ?_, ?_, ?_, ?_, by decide, ⟨rfl, rfl, rfl, rfl, rfl⟩, ⟨rfl, rfl, rfl, rfl, rfl⟩,
      ⟨rfl, rfl, rfl, rfl, rfl⟩⟩
    · decide +kernel
    · decide +kernel
    · decide +kernel
    · decide +kernel
    · decide +kernel
  have hd : Dummies known.heights t.indices (fun _ => "j") :=
    ⟨by decide, by decide, by decide, summationName_not_mem (by decide)⟩
  have hperm : refs.Perm (contractedFactors known "g" (fun _ => "j") (fun _ => .none) t) :=
    .swap _ _ _
  have hassignments : s.targetAssignments target (tensorOccurrences s.dimensions t) =
      [[("i", 0)], [("i", 1)]] := by decide +kernel
  have hnames : summed s.dimensions (freeOccurrenceLists s.dimensions (refs.map .tensor)) =
      [("j", 2)] := by decide +kernel
  let factors (k a : Fin 2) : List Expr := [lower.value.get [k.val, a.val], known.value.get [a.val]]
  have hproduct (k a : Fin 2) : Expr.Exact (.product (factors k a)) := by
    fin_cases k <;> fin_cases a <;> exact Expr.Exact.symbols [_, _] (by decide)
  have hsum (k : Fin 2) : Expr.SumExact [.product (factors k 0), .product (factors k 1)] := by
    have hmul (a : Fin 2) : Expr.product (factors k a) = .mul (factors k a) := by
      fin_cases k <;> fin_cases a <;>
        exact Expr.product_symbols [_, _] (by decide) (by decide) (by decide)
    rw [hmul 0, hmul 1]
    apply Expr.sumExact_of_nodup rfl _ (.inl rfl)
    fin_cases k <;> decide
  have hsymbol (k a : Fin 2) : ∀ f ∈ factors k a, Expr.Built False f := by
    fin_cases k <;> fin_cases a <;>
      exact List.forall_mem_cons.mpr ⟨.sym _, List.forall_mem_singleton.mpr (.sym _)⟩
  have hbuilt (k : Fin 2) :
      Expr.Built False (.sum [.product (factors k 0), .product (factors k 1)]) := by
    refine .sum (List.forall_mem_cons.mpr ⟨?_, List.forall_mem_singleton.mpr ?_⟩) (hsum k)
    · exact .product (hsymbol k 0) (hproduct k 0)
    · exact .product (hsymbol k 1) (hproduct k 1)
  have htensor (k : Fin 2) : s.InRange s.dimensions [("i", k.val)] (.tensor t) := by
    rw [InRange, summed_of_nodup (by decide)]
    intro index hindex
    obtain rfl : [k.val] = index := Except.ok.inj hindex
    constructor
    · intro e he
      rw [hraises.component_eq, if_neg (by simp [Fin.is_le])] at he
      exact Except.ok.inj he ▸ hbuilt k
    · rintro - sibling metric upper' lower' hsibling hmetric hupper hlower -
      cases hraises.sibling_eq.symm.trans hsibling
      cases hraises.metric_eq.symm.trans hmetric
      cases hraises.get_upper.symm.trans hupper
      cases hraises.get_lower.symm.trans hlower
      refine ⟨?_, hsum k⟩
      exact List.forall_mem_cons.mpr ⟨hproduct k 0, List.forall_mem_singleton.mpr (hproduct k 1)⟩
  have hpair (k a : Fin 2) : ∀ i ∈ [k.val, a.val], i < 2 := by simp [Fin.is_le]
  have hsingle (a : Fin 2) : ∀ i ∈ [a.val], i < 2 := by simp [Fin.is_le]
  have hrefs (k a : Fin 2) :
      (refs.map Formula.tensor).mapM (s.value s.dimensions · [("j", a.val), ("i", k.val)]) =
        .ok (factors k a) := by
    change ([.tensor (.ofBase "g" [.lower "i", .lower "j"] .none),
      .tensor (.ofBase "v" [.upper "j"] .none)] : List Formula).mapM _ = _
    rw [List.mapM_cons, List.mapM_cons, value_tensor (by decide), value_tensor (by decide),
      tensorValue_eq, tensorValue_eq]
    change (do
      let g ← s.component ⟨"gDD", "g", [.lower, .lower]⟩ [k.val, a.val] .none
      let es ← (do
        let v ← s.component ⟨"vU", "v", [.upper]⟩ [a.val] .none
        let es ← pure []
        pure (v :: es))
      pure (g :: es)) = _
    rw [component_eq_ok hraises.lowerShape hraises.get_lower rfl (hpair k a),
      component_eq_ok hraises.siblingShape hraises.get_sibling rfl (hsingle a)]
    rfl
  have hcontraction (k : Fin 2) :
      s.InRange s.dimensions [("i", k.val)] (.product (refs.map .tensor)) := by
    rw [InRange, hnames]
    refine ⟨fun a ha => ?_, ?_⟩
    · lift a to Fin 2 using ha
      refine ⟨⟨?_, ?_, trivial⟩, fun es hes => ?_⟩
      · rw [InRange, summed_of_nodup (by decide)]
        intro index hindex
        obtain rfl : [k.val, a.val] = index := Except.ok.inj hindex
        exact componentInRange_of_known hraises.lowerShape hraises.get_lower rfl (hpair k a)
          (hsymbol k a _ (by simp [factors])) _
      · rw [InRange, summed_of_nodup (by decide)]
        intro index hindex
        obtain rfl : [a.val] = index := Except.ok.inj hindex
        exact componentInRange_of_known hraises.siblingShape hraises.get_sibling rfl (hsingle a)
          (hsymbol k a _ (by simp [factors])) _
      · rw [hrefs k a] at hes
        exact Except.ok.inj hes ▸ hproduct k a
    · intro es hes
      change ([0, 1].mapM fun a : Fin 2 => Expr.product <$> (refs.map Formula.tensor).mapM
        (s.value s.dimensions · [("j", a.val), ("i", k.val)])) = _ at hes
      rw [List.mapM_cons, List.mapM_cons, hrefs k 0, hrefs k 1] at hes
      exact Except.ok.inj hes ▸ hsum k
  have hrange : ∀ ρ ∈ s.targetAssignments target (tensorOccurrences s.dimensions t),
      s.InRange s.dimensions ρ (.tensor t) ∧
        s.InRange s.dimensions ρ (.product (refs.map .tensor)) := by
    rw [hassignments]
    exact List.forall_mem_cons.mpr ⟨⟨htensor 0, hcontraction 0⟩,
      List.forall_mem_singleton.mpr ⟨htensor 1, hcontraction 1⟩⟩
  refine ⟨_, upper, lower, known, hraises, hperm, hd, hrange, ?_,
    define_raised_as_contraction hraises hperm hd target .none hrange⟩
  decide +kernel

set_option maxRecDepth 100000 in
/-- A metric of another dimension is not noticed when a component is lowered: the missing entries
count as zero. In the contraction, the two ranges of the summed index are compared. -/
theorem define_raised_by_smaller_metric :
    let s := ((Session.new {}).parse "% def gUU (1), gDD (1), vU (2)").2.setMetric .none ⟨"g", 1, 2⟩
    let t : TensorRef := .ofBase "v" [.lower "i"] .none
    let refs : List TensorRef :=
      [.ofBase "g" [.lower "i", .lower "j"] .none, .ofBase "v" [.upper "j"] .none]
    let target : TensorRef := .ofBase "w" [.lower "i"] .none
    refs.Perm (contractedFactors ((s.sibling? t.head).getD default) "g" (fun _ => "j") (fun _ => .none) t) ∧
    ((define ⟨target, .tensor t, .none⟩).run s).1.toOption = some () ∧
      ((define ⟨target, .product (refs.map .tensor), .none⟩).run s).1.toOption = none := by
  refine ⟨?_, ?_, ?_⟩ <;> decide +kernel

end Session

end TensorCalculus
