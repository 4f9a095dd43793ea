import Mathlib.Data.List.Basic
import Mathlib.Data.List.Nodup
import TensorCalculus.Formula.Summation

/-! The scope of contractions. An index name is open where no contraction around it binds
it; evaluation reads the values of open names only, and renaming an open name to one that
does not occur is followed by the assignment. -/
namespace TensorCalculus

open List hiding count span

variable {source target : String} {f : Formula} {name : String} {occurrences : List Occurrence}
  {g : Formula → Formula} {i : Index} {indices : List Index} {fs : List Formula}

namespace Index

theorem name?_rename (source target : String) (i : Index) :
    (i.rename source target).name? =
      i.name?.map fun name => if name = source then target else name := by
  obtain ⟨value, height⟩ := i
  cases value with
  | fixed n => simp [rename, name?]
  | named name => by_cases h : name = source <;> simp [rename, name?, h]

theorem toList_name?_rename (source target : String) (i : Index) :
    (i.rename source target).name?.toList =
      i.name?.toList.map fun name => if name = source then target else name := by
  rw [name?_rename]
  cases i.name? <;> rfl

theorem filterMap_name?_rename (source target : String) (indices : List Index) :
    (indices.map (rename source target)).filterMap name? =
      (indices.filterMap name?).map fun name => if name = source then target else name := by
  rw [filterMap_map, map_filterMap]
  congr 1
  funext i
  exact name?_rename source target i

end Index

theorem map_fst_namedIndices (indices : List Index) :
    (namedIndices indices).map (·.1) = indices.filterMap Index.name? := by
  rw [namedIndices, map_filterMap]
  congr 1
  funext i
  cases i.name? <;> rfl

theorem namedIndices_append (xs ys : List Index) :
    namedIndices (xs ++ ys) = namedIndices xs ++ namedIndices ys :=
  filterMap_append

namespace Assignment

variable {ρ ρ' : Assignment} {span : Span}

theorem indexValue_congr (h : ∀ z ∈ i.name?, ρ'.lookup z = ρ.lookup z) :
    ρ'.indexValue span i = ρ.indexValue span i := by
  obtain ⟨value, height⟩ := i
  cases value with
  | fixed n => rfl
  | named name => simp only [indexValue, h name rfl]

theorem indexValue_rename (hs : (ρ.lookup source).isSome)
    (h : ∀ z ∈ i.name?, ρ'.lookup (if z = source then target else z) = ρ.lookup z) :
    ρ'.indexValue span (i.rename source target) = ρ.indexValue span i := by
  obtain ⟨value, height⟩ := i
  cases value with
  | fixed n => rfl
  | named name =>
    have hname := h name rfl
    by_cases hn : name = source
    · obtain ⟨v, hv⟩ := Option.isSome_iff_exists.mp hs
      simp_all [indexValue, Index.rename, Index.name?]
    · simp_all [indexValue, Index.rename, Index.name?]

theorem indexValues_map {g : Index → Index}
    (h : ∀ i ∈ indices, ρ'.indexValue span (g i) = ρ.indexValue span i) :
    ρ'.indexValues span (indices.map g) = ρ.indexValues span indices := by
  induction indices with
  | nil => rfl
  | cons i indices ih =>
    rw [forall_mem_cons] at h
    simp only [indexValues, map_cons, mapM_cons, h.1] at ih ⊢
    rw [ih h.2]

theorem indexValues_congr (h : ∀ z ∈ indices.filterMap Index.name?, ρ'.lookup z = ρ.lookup z) :
    ρ'.indexValues span indices = ρ.indexValues span indices := by
  have hindices : ∀ i ∈ indices, ρ'.indexValue span (id i) = ρ.indexValue span i :=
    fun i hi => indexValue_congr fun z hz => h z (mem_filterMap.mpr ⟨i, hi, hz⟩)
  simpa using indexValues_map hindices

end Assignment

namespace Formula

theorem induction {P : Formula → Prop} (num : ∀ q, P (num q)) (sym : ∀ s, P (sym s))
    (tensor : ∀ t, P (tensor t)) (derivative : ∀ kind i operand dimension span, P operand →
      P (derivative kind i operand dimension span)) (sum : ∀ ts, (∀ t ∈ ts, P t) → P (sum ts))
    (product : ∀ fs, (∀ f ∈ fs, P f) → P (product fs)) (power : ∀ b e, P b → P e → P (power b e))
    (fn : ∀ g a, P a → P (fn g a))
    (contraction : ∀ index dimension body, P body → P (contraction index dimension body)) :
    ∀ f, P f := by
  intro f
  refine @Formula.rec P (fun fs => ∀ f ∈ fs, P f) num sym tensor derivative sum product power fn
    contraction nofun ?_ f
  intro f fs hf hfs
  rw [forall_mem_cons]
  exact ⟨hf, hfs⟩

mutual

/-- The index names that no contraction around them binds. -/
def openNames : Formula → List String
  | num _ | sym _ => []
  | tensor t => t.indices.filterMap Index.name?
  | derivative _ i operand _ _ => i.name?.toList ++ operand.openNames
  | sum ts => openNameLists ts
  | product fs => openNameLists fs
  | power b e => b.openNames ++ e.openNames
  | fn _ a => a.openNames
  | contraction index _ body => body.openNames.filter (· != index)

def openNameLists : List Formula → List String
  | [] => []
  | f :: fs => f.openNames ++ openNameLists fs

end

mutual

def boundNames : Formula → List String
  | num _ | sym _ | tensor _ => []
  | derivative _ _ operand _ _ => operand.boundNames
  | sum ts => boundNameLists ts
  | product fs => boundNameLists fs
  | power b e => b.boundNames ++ e.boundNames
  | fn _ a => a.boundNames
  | contraction index _ body => index :: body.boundNames

def boundNameLists : List Formula → List String
  | [] => []
  | f :: fs => f.boundNames ++ boundNameLists fs

end

theorem openNameLists_eq (fs : List Formula) : openNameLists fs = fs.flatMap openNames := by
  induction fs with
  | nil => rfl
  | cons f fs ih => rw [openNameLists, ih, flatMap_cons]

theorem boundNameLists_eq (fs : List Formula) : boundNameLists fs = fs.flatMap boundNames := by
  induction fs with
  | nil => rfl
  | cons f fs ih => rw [boundNameLists, ih, flatMap_cons]

theorem indexNameLists_eq (fs : List Formula) : indexNameLists fs = fs.flatMap indexNames := by
  induction fs with
  | nil => rfl
  | cons f fs ih => rw [indexNameLists, ih, flatMap_cons]

theorem renameAll_eq (source target : String) (fs : List Formula) :
    renameAll source target fs = fs.map (rename source target) := by
  induction fs with
  | nil => rfl
  | cons f fs ih => rw [renameAll, ih, map_cons]

theorem mem_indexNames_iff (f : Formula) (x : String) :
    x ∈ f.indexNames ↔ x ∈ f.openNames ∨ x ∈ f.boundNames := by
  induction f using Formula.induction with
  | num _ | sym _ | tensor _ => simp [indexNames, openNames, boundNames]
  | derivative kind i operand dimension span ih =>
    simp only [indexNames, openNames, boundNames, mem_append, ih, or_assoc]
  | sum ts ih | product ts ih =>
    simp only [indexNames, openNames, boundNames, indexNameLists_eq, openNameLists_eq,
      boundNameLists_eq, mem_flatMap, ← exists_or, ← and_or_left]
    exact exists_congr fun t => and_congr_right fun ht => ih t ht
  | power b e hb he =>
    simp only [indexNames, openNames, boundNames, mem_append, hb, he]
    exact or_or_or_comm
  | fn g a ih => simpa only [indexNames, openNames, boundNames] using ih
  | contraction index dimension body ih =>
    simp only [indexNames, openNames, boundNames, mem_cons, mem_filter, ih, bne_iff_ne, ne_eq]
    by_cases h : x = index <;> simp [h]

theorem boundNames_rename (source target : String) (f : Formula) :
    (f.rename source target).boundNames = f.boundNames := by
  induction f using Formula.induction with
  | num q => rfl
  | sym s => rfl
  | tensor t => rfl
  | derivative kind i operand dimension span ih => exact ih
  | sum ts ih | product ts ih =>
    simp only [rename, boundNames, boundNameLists_eq, renameAll_eq, flatMap_map]
    exact flatMap_congr fun t ht => ih t ht
  | power b e hb he => simp only [rename, boundNames, hb, he]
  | fn g a ih => exact ih
  | contraction index dimension body ih =>
    simp only [rename, boundNames]
    split <;> simp [ih]

theorem openNames_rename (ht : target ∉ f.indexNames) :
    (f.rename source target).openNames =
      f.openNames.map fun z => if z = source then target else z := by
  induction f using Formula.induction with
  | num q => rfl
  | sym s => rfl
  | tensor t => exact Index.filterMap_name?_rename source target t.indices
  | derivative kind i operand dimension span ih =>
    simp only [indexNames, mem_append, not_or] at ht
    simp only [rename, openNames, ih ht.2, Index.toList_name?_rename, map_append]
  | sum ts ih | product ts ih =>
    simp only [indexNames, indexNameLists_eq, mem_flatMap, not_exists, not_and] at ht
    simp only [rename, openNames, openNameLists_eq, renameAll_eq, flatMap_map, map_flatMap]
    exact flatMap_congr fun t h => ih t h (ht t h)
  | power b e hb he =>
    simp only [indexNames, mem_append, not_or] at ht
    simp only [rename, openNames, hb ht.1, he ht.2, map_append]
  | fn g a ih => exact ih ht
  | contraction index dimension body ih =>
    simp only [indexNames, mem_cons, not_or] at ht
    simp only [rename, openNames]
    split
    · next h =>
      refine ((map_congr_left fun z hz => if_neg ?_).trans (map_id _)).symm
      simpa [h] using (mem_filter.mp hz).2
    · next h =>
      rw [ih ht.2, filter_map]
      congr 1
      apply filter_congr
      intro z _
      simp only [Function.comp_apply]
      split
      · next hz => rw [hz, bne_iff_ne.mpr ht.1, bne_iff_ne.mpr (Ne.symm h)]
      · rfl

theorem firstDimensionIn?_map {dims : Dimensions}
    (h : ∀ f ∈ fs, (g f).firstDimension? dims = f.firstDimension? dims) :
    firstDimensionIn? dims (fs.map g) = firstDimensionIn? dims fs := by
  induction fs with
  | nil => rfl
  | cons f fs ih =>
    rw [forall_mem_cons] at h
    rw [map_cons, firstDimensionIn?, firstDimensionIn?, h.1, ih h.2]

theorem firstDimension?_rename (dims : Dimensions) (source target : String) (f : Formula) :
    (f.rename source target).firstDimension? dims = f.firstDimension? dims := by
  induction f using Formula.induction with
  | num q => rfl
  | sym s => rfl
  | tensor t => simp [rename, firstDimension?]
  | derivative kind i operand dimension span ih => exact ih
  | sum ts ih | product ts ih =>
    simp only [rename, firstDimension?, renameAll_eq]
    exact firstDimensionIn?_map ih
  | power b e hb he => simp only [rename, firstDimension?, hb, he]
  | fn g a ih => exact ih
  | contraction index dimension body ih =>
    simp only [rename, firstDimension?]
    split
    · rfl
    · exact ih

section Evaluate

variable {m : Type → Type} [Monad m] [MonadLiftT (Except Error) m] {r : Reading m}

section

variable {ρ ρ' : Assignment}

theorem evaluateAll_map (h : ∀ f ∈ fs, (g f).evaluate r ρ' = f.evaluate r ρ) :
    evaluateAll r ρ' (fs.map g) = evaluateAll r ρ fs := by
  induction fs with
  | nil => rfl
  | cons f fs ih =>
    rw [forall_mem_cons] at h
    rw [map_cons, evaluateAll, evaluateAll, h.1, ih h.2]

theorem lookup_cons_congr {index : String} (v : Nat) {names : List String}
    (h : ∀ z ∈ names.filter (· != index), ρ'.lookup z = ρ.lookup z) :
    ∀ z ∈ names, List.lookup z ((index, v) :: ρ') = List.lookup z ((index, v) :: ρ) := by
  intro z hz
  by_cases hzi : z = index
  · simp [hzi]
  · have hz : z ∈ names.filter (· != index) := mem_filter.mpr ⟨hz, bne_iff_ne.mpr hzi⟩
    simp only [lookup_cons, beq_false_of_ne hzi, h z hz]

theorem evaluate_congr (h : ∀ z ∈ f.openNames, ρ'.lookup z = ρ.lookup z) :
    f.evaluate r ρ' = f.evaluate r ρ := by
  induction f using Formula.induction generalizing ρ ρ' with
  | num q => rfl
  | sym s => rfl
  | tensor t => simp only [evaluate, Reading.componentAt, Assignment.indexValues_congr h]
  | derivative kind i operand dimension span ih =>
    simp only [openNames, forall_mem_append, Option.mem_toList] at h
    simp only [evaluate, Reading.derivativeAt, Assignment.indexValue_congr h.1, ih h.2]
  | sum ts ih | product ts ih =>
    simp only [openNames, openNameLists_eq, mem_flatMap] at h
    simp only [evaluate]
    congr 1
    have hts : ∀ t ∈ ts, (id t).evaluate r ρ' = t.evaluate r ρ :=
      fun t ht => ih t ht fun z hz => h z ⟨t, ht, hz⟩
    simpa using evaluateAll_map hts
  | power b e hb he =>
    simp only [openNames, forall_mem_append] at h
    simp only [evaluate, hb h.1, he h.2]
  | fn g a ih => simp only [evaluate, ih h]
  | contraction index dimension body ih =>
    simp only [evaluate]
    congr 2
    funext v
    exact ih (lookup_cons_congr v h)

theorem evaluate_rename (ht : target ∉ f.indexNames) (hs : (ρ.lookup source).isSome)
    (h : ∀ z ∈ f.openNames, ρ'.lookup (if z = source then target else z) = ρ.lookup z) :
    (f.rename source target).evaluate r ρ' = f.evaluate r ρ := by
  induction f using Formula.induction generalizing ρ ρ' with
  | num q => rfl
  | sym s => rfl
  | tensor t =>
    have hindices : ρ'.indexValues t.span (t.rename source target).indices =
        ρ.indexValues t.span t.indices :=
      Assignment.indexValues_map fun i hi => Assignment.indexValue_rename hs fun z hz =>
        h z (mem_filterMap.mpr ⟨i, hi, hz⟩)
    simp only [rename, evaluate, Reading.componentAt, TensorRef.head_rename]
    rw [show (t.rename source target).span = t.span from rfl, hindices]
  | derivative kind i operand dimension span ih =>
    simp only [indexNames, mem_append, not_or] at ht
    simp only [openNames, forall_mem_append, Option.mem_toList] at h
    simp only [rename, evaluate, Reading.derivativeAt, Assignment.indexValue_rename hs h.1,
      ih ht.2 hs h.2]
  | sum ts ih | product ts ih =>
    simp only [indexNames, indexNameLists_eq, mem_flatMap, not_exists, not_and] at ht
    simp only [openNames, openNameLists_eq, mem_flatMap] at h
    simp only [rename, evaluate, renameAll_eq]
    rw [evaluateAll_map fun t hm => ih t hm (ht t hm) hs fun z hz => h z ⟨t, hm, hz⟩]
  | power b e hb he =>
    simp only [indexNames, mem_append, not_or] at ht
    simp only [openNames, forall_mem_append] at h
    simp only [rename, evaluate, hb ht.1 hs h.1, he ht.2 hs h.2]
  | fn g a ih => simp only [rename, evaluate, ih ht hs h]
  | contraction index dimension body ih =>
    simp only [indexNames, mem_cons, not_or] at ht
    by_cases hi : index = source
    · -- The contraction binds the name itself, so nothing inside it is renamed.
      rw [rename, if_pos hi]
      apply evaluate_congr
      intro z hz
      have hz' : z ≠ source := by simpa [openNames, hi] using (mem_filter.mp hz).2
      rw [← h z hz, if_neg hz']
    · rw [rename, if_neg hi, evaluate, evaluate]
      congr 2
      funext v
      apply ih ht.2
      · simpa [lookup_cons, beq_false_of_ne (Ne.symm hi)] using hs
      · intro z hz
        by_cases hzi : z = index
        · simp [hzi, hi]
        · have hz := h z (mem_filter.mpr ⟨hz, bne_iff_ne.mpr hzi⟩)
          by_cases hzs : z = source
          · simpa [hzs, lookup_cons, beq_false_of_ne ht.1, beq_false_of_ne (Ne.symm hi)] using hz
          · simpa [hzs, lookup_cons, beq_false_of_ne hzi] using hz

end

end Evaluate

end Formula

/-! The summation convention as it is read: each term is summed over the names that occur
twice in it, without any renaming. -/

theorem Except.bind_eq_ok {x : Except ε α} {f : α → Except ε β} {b : β}
    (h : x >>= f = .ok b) : ∃ a, x = .ok a ∧ f a = .ok b := by
  cases x with
  | error e => cases h
  | ok a => exact ⟨a, rfl, h⟩

namespace Occurrence

def count (name : String) (occurrences : List Occurrence) : Nat :=
  (occurrences.map (·.name)).count name

def lone (occurrences : List Occurrence) : List Occurrence :=
  occurrences.filter fun o => count o.name occurrences == 1

def paired (occurrences : List Occurrence) : List String :=
  (occurrences.map (·.name)).eraseDups.filter fun name => count name occurrences == 2

def range? (occurrences : List Occurrence) (name : String) : Option Nat :=
  (occurrences.filter (·.name == name)).findSome? (·.dimension)

theorem nodup_lone (occurrences : List Occurrence) : ((lone occurrences).map (·.name)).Nodup := by
  rw [nodup_iff_count_le_one]
  intro name
  by_cases h : name ∈ (lone occurrences).map (·.name)
  · obtain ⟨o, ho, rfl⟩ := mem_map.mp h
    have hcount : count o.name occurrences = 1 := by simpa using (mem_filter.mp ho).2
    rw [← hcount]
    exact ((filter_sublist).map _).count_le _
  · rw [count_eq_zero_of_not_mem h]
    exact Nat.zero_le 1

section Cons

variable (o : Occurrence) (rest : List Occurrence)

theorem map_name_filter_ne :
    (rest.filter (·.name != o.name)).map (·.name) =
      (rest.map (·.name)).filter fun name => !name == o.name := by
  rw [filter_map]
  rfl

theorem count_cons_of_ne (h : name ≠ o.name) :
    count name (o :: rest) = count name (rest.filter (·.name != o.name)) := by
  unfold count
  rw [map_name_filter_ne, map_cons, List.count_cons_of_ne (Ne.symm h), count_filter]
  simpa using h

theorem count_cons_self :
    count o.name (o :: rest) = (rest.filter (·.name == o.name)).length + 1 := by
  unfold count
  rw [map_cons, List.count_cons_self, count_eq_countP, countP_map, countP_eq_length_filter]
  rfl

theorem lone_cons : lone (o :: rest) =
    (if rest.filter (·.name == o.name) = [] then [o] else []) ++
      lone (rest.filter (·.name != o.name)) := by
  have hrest : rest.filter (fun x => count x.name (o :: rest) == 1) =
      lone (rest.filter (·.name != o.name)) := by
    unfold lone
    rw [filter_filter]
    apply filter_congr
    intro x hx
    by_cases h : x.name = o.name
    · have hmem : x ∈ rest.filter (·.name == o.name) :=
        mem_filter.mpr ⟨hx, by simpa using h⟩
      have hpos := length_pos_of_mem hmem
      have hcount : count o.name (o :: rest) ≠ 1 := by
        rw [count_cons_self]
        omega
      simp [h, hcount]
    · simp [count_cons_of_ne o rest h, h]
  have ho : (count o.name (o :: rest) == 1) = decide (rest.filter (·.name == o.name) = []) := by
    rw [count_cons_self]
    cases rest.filter (·.name == o.name) <;> simp
  rw [← hrest, lone, filter_cons, ho]
  split <;> simp_all

theorem paired_cons : paired (o :: rest) =
    (if (rest.filter (·.name == o.name)).length = 1 then [o.name] else []) ++
      paired (rest.filter (·.name != o.name)) := by
  have hrest : ((rest.map (·.name)).filter fun name => !name == o.name).eraseDups.filter
      (fun name => count name (o :: rest) == 2) = paired (rest.filter (·.name != o.name)) := by
    unfold paired
    rw [map_name_filter_ne]
    apply filter_congr
    intro name hname
    have hne : name ≠ o.name := by
      rw [mem_eraseDups] at hname
      simpa using (mem_filter.mp hname).2
    rw [count_cons_of_ne o rest hne]
  rw [← hrest, paired, map_cons, eraseDups_cons, filter_cons, count_cons_self]
  split <;> simp_all

theorem range?_cons_self : range? (o :: rest) o.name =
    o.dimension.or ((rest.filter (·.name == o.name)).findSome? (·.dimension)) := by
  unfold range?
  rw [filter_cons_of_pos (by simp), findSome?_cons]
  cases o.dimension <;> rfl

theorem range?_cons_of_ne (h : name ≠ o.name) :
    range? (o :: rest) name = range? (rest.filter (·.name != o.name)) name := by
  unfold range?
  rw [filter_cons_of_neg (by simpa using Ne.symm h), filter_filter]
  congr 1
  apply filter_congr
  intro x _
  by_cases hx : x.name = name <;> simp [hx, h]

end Cons

theorem mem_paired : name ∈ paired occurrences ↔ count name occurrences = 2 := by
  unfold paired
  rw [mem_filter, mem_eraseDups, beq_iff_eq, and_iff_right_iff_imp]
  intro h
  apply count_pos_iff.mp
  unfold count at h
  omega

theorem mem_map_name_lone :
    name ∈ (lone occurrences).map (·.name) ↔ count name occurrences = 1 := by
  constructor
  · intro h
    obtain ⟨o, ho, rfl⟩ := mem_map.mp h
    simpa using (mem_filter.mp ho).2
  · intro h
    have hpos : name ∈ occurrences.map (·.name) := count_pos_iff.mp (by unfold count at h; omega)
    obtain ⟨o, ho, rfl⟩ := mem_map.mp hpos
    exact mem_map_of_mem (mem_filter.mpr ⟨ho, by simpa using h⟩)

end Occurrence

namespace IndexRole

open Occurrence

theorem ofOccurrences_eq_ok {a : Occurrence} {same : List Occurrence} {role : IndexRole}
    (h : ofOccurrences a same = .ok role) :
    (same = [] ∧ role = free a) ∨
      ∃ b, same = [b] ∧ role = bound a.name (a.dimension.or b.dimension) := by
  unfold ofOccurrences at h
  split at h
  · exact .inl ⟨rfl, (Except.ok.inj h).symm⟩
  · next b rest =>
    dsimp only at h
    split at h
    · next hb =>
      have hrest : rest = [] := by simp_all
      refine .inr ⟨b, by rw [hrest], ?_⟩
      split at h
      · next hm hn =>
        split at h
        · rw [hm]
          exact (Except.ok.inj h).symm
        · cases h
      · exact (Except.ok.inj h).symm
    · cases h

/-- The roles say which names are summed over, with their ranges, and which are free. -/
theorem ofTerm_eq_ok {occurrences : List Occurrence} {roles : List IndexRole}
    (h : ofTerm occurrences = .ok roles) :
    roles.filterMap bound? =
        (paired occurrences).map (fun name => (name, range? occurrences name)) ∧
      roles.filterMap free? = lone occurrences ∧
      ∀ name, count name occurrences ≤ 2 := by
  match occurrences with
  | [] =>
    rw [ofTerm] at h
    cases h
    exact ⟨rfl, rfl, fun name => Nat.zero_le 2⟩
  | o :: rest =>
    rw [ofTerm] at h
    obtain ⟨role, hrole, h⟩ := Except.bind_eq_ok h
    obtain ⟨roles', hroles', h⟩ := Except.bind_eq_ok h
    cases h
    obtain ⟨hbound, hfree, hcount⟩ := ofTerm_eq_ok hroles'
    have hranges : ∀ name ∈ paired (rest.filter (·.name != o.name)),
        (name, range? (rest.filter (·.name != o.name)) name) =
          (name, range? (o :: rest) name) := by
      intro name hname
      have hne : name ≠ o.name := by
        rintro rfl
        have hzero : count o.name (rest.filter (·.name != o.name)) = 0 := by
          simp [count, count_eq_zero]
        rw [mem_paired] at hname
        omega
      rw [range?_cons_of_ne o rest hne]
    rw [map_congr_left hranges] at hbound
    have hcounts (hself : count o.name (o :: rest) ≤ 2) (name : String) :
        count name (o :: rest) ≤ 2 := by
      by_cases hn : name = o.name
      · rw [hn]
        exact hself
      · rw [count_cons_of_ne o rest hn]
        exact hcount name
    rw [lone_cons, paired_cons]
    rcases ofOccurrences_eq_ok hrole with ⟨hsame, rfl⟩ | ⟨b, hsame, rfl⟩
    · refine ⟨?_, ?_, hcounts (by simp [count_cons_self, hsame])⟩
      · rw [filterMap_cons_none rfl, hbound, hsame]
        rfl
      · rw [filterMap_cons_some (f := free?) rfl, hfree, hsame]
        rfl
    · refine ⟨?_, ?_, hcounts (by simp [count_cons_self, hsame])⟩
      · have hrange : range? (o :: rest) o.name = o.dimension.or b.dimension := by
          simp [range?_cons_self, hsame]
        rw [filterMap_cons_some (f := bound?) rfl, hbound, hsame, ← hrange]
        rfl
      · rw [filterMap_cons_none rfl, hfree, hsame]
        rfl
termination_by occurrences.length
decreasing_by simpa using Nat.lt_succ_of_le (length_filter_le ..)

end IndexRole

namespace Formula

open Occurrence

def derivativeRange? (dims : Dimensions) (operand : Formula) : Option Nat :=
  dims.ofCoordinates.or (operand.firstDimension? dims)

def derivativeOccurrences (dimension : Option Nat) (i : Index) (span : Span) : List Occurrence :=
  (namedIndices [i]).map fun (name, height) => ⟨name, height, dimension, span⟩

mutual

/-- The occurrences that are left once each term is summed over its repeated names. -/
def freeOccurrences (dims : Dimensions) : Formula → List Occurrence
  | num _ | sym _ => []
  | tensor t => lone (tensorOccurrences dims t)
  | derivative _ i operand _ span =>
    lone (operand.freeOccurrences dims ++
      derivativeOccurrences (operand.derivativeRange? dims) i span)
  | product fs => lone (freeOccurrenceLists dims fs)
  | sum [] => []
  | sum (t :: _) => t.freeOccurrences dims
  | power b e => b.freeOccurrences dims ++ e.freeOccurrences dims
  | fn _ a => a.freeOccurrences dims
  | contraction index _ body => (body.freeOccurrences dims).filter (·.name != index)

def freeOccurrenceLists (dims : Dimensions) : List Formula → List Occurrence
  | [] => []
  | f :: fs => f.freeOccurrences dims ++ freeOccurrenceLists dims fs

end

section Sums

variable {m : Type → Type} [Monad m] [MonadLiftT (Except Error) m]

/-- Sum over all values of some names, the first name innermost. -/
def sumOverNames : List (String × Nat) → (Assignment → m Expr) → Assignment → m Expr
  | [], body => body
  | (name, n) :: names, body =>
    sumOverNames names fun ρ => do
      let es ← (List.range n).mapM fun v => body ((name, v) :: ρ)
      return .sum es

def sumOverPaired (dims : Dimensions) (occurrences : List Occurrence)
    (body : Assignment → m Expr) (ρ : Assignment) : m Expr :=
  sumOverNames ((paired occurrences).map fun name =>
    (name, (range? occurrences name).getD dims.default)) body ρ

mutual

/-- The value by the summation convention. An inner sum over a name hides an outer one. -/
def convention (r : Reading m) (dims : Dimensions) (ρ : Assignment) : Formula → m Expr
  | num q => return .num q
  | sym name => r.scalar name
  | tensor t => sumOverPaired dims (tensorOccurrences dims t) (r.componentAt · t) ρ
  | derivative kind i operand _ span =>
    let dimension := operand.derivativeRange? dims
    sumOverPaired dims (operand.freeOccurrences dims ++ derivativeOccurrences dimension i span)
      (fun ρ => r.derivativeAt ρ kind i (some (dimension.getD dims.default)) span
        (operand.convention r dims ρ)) ρ
  | sum ts => do return .sum (← conventionAll r dims ρ ts)
  | product fs =>
    sumOverPaired dims (freeOccurrenceLists dims fs)
      (fun ρ => do return .product (← conventionAll r dims ρ fs)) ρ
  | power b e => do
    let b ← b.convention r dims ρ
    let e ← e.convention r dims ρ
    return .power b e
  | fn f a => do return .apply f (← a.convention r dims ρ)
  | contraction index dimension body => do
    let es ← (List.range dimension).mapM fun n => body.convention r dims ((index, n) :: ρ)
    return .sum es

def conventionAll (r : Reading m) (dims : Dimensions) (ρ : Assignment) :
    List Formula → m (List Expr)
  | [] => return []
  | f :: fs => do
    let e ← f.convention r dims ρ
    let es ← conventionAll r dims ρ fs
    return e :: es

end

end Sums

end Formula

/-! Renaming an index to a new name is a substitution: it can be undone, the value follows the
assignment, and no name is captured or missed. -/

open List

variable {x y : String}

theorem Index.rename_new (hy : y ∉ i.name?) : i.rename y x = i ∧ (i.rename x y).rename y x = i := by
  obtain ⟨value, height⟩ := i
  cases value with
  | fixed n => exact ⟨rfl, rfl⟩
  | named name =>
    have hname : name ≠ y := by simpa [name?] using hy
    by_cases h : name = x <;> simp_all [rename, name?]

namespace Formula

theorem map_fixed {α : Type} {l : List α} {g : α → α} (h : ∀ a ∈ l, g a = a) : l.map g = l :=
  (map_congr_left h).trans (map_id l)

/-- A name that does not occur has nothing to be renamed. So under a binder of `x`, where it does
not come to stand for `x`, it is left alone. -/
theorem rename_new (hy : y ∉ f.indexNames) : f.rename y x = f ∧ (f.rename x y).rename y x = f := by
  induction f using Formula.induction with
  | num q => exact ⟨rfl, rfl⟩
  | sym s => exact ⟨rfl, rfl⟩
  | tensor t =>
    have hindices (i : Index) (hi : i ∈ t.indices) := Index.rename_new (x := x) (i := i)
      fun hname => hy (mem_filterMap.mpr ⟨i, hi, hname⟩)
    simp only [rename, TensorRef.rename, map_map]
    exact ⟨congrArg (fun l => tensor { t with indices := l }) (map_fixed fun i hi =>
      (hindices i hi).1), congrArg (fun l => tensor { t with indices := l })
      (map_fixed fun i hi => (hindices i hi).2)⟩
  | derivative kind i operand dimension span ih =>
    simp only [indexNames, mem_append, not_or, Option.mem_toList] at hy
    simp only [rename, Index.rename_new hy.1, ih hy.2, and_self]
  | sum ts ih | product ts ih =>
    simp only [indexNames, indexNameLists_eq, mem_flatMap, not_exists, not_and] at hy
    simp only [rename, renameAll_eq, map_map]
    exact ⟨congrArg _ (map_fixed fun t ht => (ih t ht (hy t ht)).1),
      congrArg _ (map_fixed fun t ht => (ih t ht (hy t ht)).2)⟩
  | power b e hb he =>
    simp only [indexNames, mem_append, not_or] at hy
    simp only [rename, hb hy.1, he hy.2, and_self]
  | fn g a ih => simp only [rename, ih hy, and_self]
  | contraction index dimension body ih =>
    simp only [indexNames, mem_cons, not_or] at hy
    simp only [rename, if_neg (Ne.symm hy.1), ih hy.2, true_and]
    split
    · rw [(ih hy.2).1]
    · rw [(ih hy.2).2]

theorem mem_indexNames_rename_iff (hy : y ∉ f.indexNames) (z : String) :
    z ∈ (f.rename x y).indexNames ↔ z = y ∧ x ∈ f.openNames ∨
      z ∈ f.indexNames ∧ (z = x → x ∈ (f.rename x y).boundNames) := by
  rw [mem_indexNames_iff, openNames_rename hy, boundNames_rename, mem_map, mem_indexNames_iff]
  constructor
  · rintro (⟨z, hz, rfl⟩ | hz)
    · by_cases h : z = x
      · subst h
        exact .inl ⟨if_pos rfl, hz⟩
      · rw [if_neg h]
        exact .inr ⟨.inl hz, fun hzx => absurd hzx h⟩
    · exact .inr ⟨.inr hz, fun hzx => hzx ▸ hz⟩
  · rintro (⟨rfl, hx⟩ | ⟨hz | hz, hbound⟩)
    · exact .inl ⟨x, hx, if_pos rfl⟩
    · by_cases h : z = x
      · exact .inr (h ▸ hbound h)
      · exact .inl ⟨z, hz, if_neg h⟩
    · exact .inr hz

/-- To rename an index to a name that does not occur can be undone. With the new name in place of
the old one, the value is the same. The new name is one of the names if the old one was free, and
the old one stays only where a contraction binds it. -/
theorem rename_substitutes (hy : y ∉ f.indexNames) :
    (f.rename x y).rename y x = f ∧
    (∀ {m : Type → Type} [Monad m] [MonadLiftT (Except Error) m] (r : Reading m)
      (ρ ρ' : Assignment) (v : Nat), ρ.lookup x = some v → ρ'.lookup y = some v →
      (∀ z, z ≠ x → z ≠ y → ρ'.lookup z = ρ.lookup z) →
      (f.rename x y).evaluate r ρ' = f.evaluate r ρ) ∧
    ∀ z, z ∈ (f.rename x y).indexNames ↔ z = y ∧ x ∈ f.openNames ∨
      z ∈ f.indexNames ∧ (z = x → x ∈ (f.rename x y).boundNames) := by
  refine ⟨(rename_new hy).2, fun r ρ ρ' v hx hy' hother => ?_, mem_indexNames_rename_iff hy⟩
  refine evaluate_rename hy (by rw [hx]; rfl) fun z hz => ?_
  split
  · next h => rw [h, hx, hy']
  · next h =>
    have hne : z ≠ y := by
      rintro rfl
      exact hy ((mem_indexNames_iff f z).mpr (.inl hz))
    exact hother z h hne

theorem rename_substitutes_shadowed :
    let f := product [tensor (.ofBase "v" [.upper "i"] .none),
      contraction "i" 3 (tensor (.ofBase "w" [.upper "i"] .none))]
    "a" ∉ f.indexNames ∧ "a" ∈ (f.rename "i" "a").indexNames ∧
      (f.rename "i" "a").rename "a" "i" = f ∧ "i" ∈ (f.rename "i" "a").indexNames := by
  intro f
  have ha : "a" ∉ f.indexNames := by decide
  exact ⟨ha, by decide, (rename_substitutes ha).1,
    ((rename_substitutes ha).2.2 "i").mpr (.inr ⟨by decide, fun _ => by decide⟩)⟩

end Formula

end TensorCalculus
