import Std.Data.String.ToNat
import TensorCalculus.Formula.Covariant
import TensorCalculus.Proofs.Formula.Scope

/-! Resolving a formula makes the sums of the convention explicit. Every contraction gets a
name of its own that was not in the formula, so no inner sum captures an outer name. -/
namespace TensorCalculus

variable {dims : Dimensions} {fs ts fs' : List Formula} {free occurrences : List Occurrence}
  {f f' : Formula} {n n' j k : Nat} {x source : String}

namespace Formula

open List hiding count
open List hiding count

open Occurrence

theorem summationName_injective (h : summationName j = summationName k) : j = k := by
  unfold summationName at h
  exact Nat.repr_injective ((String.append_right_inj "_").mp h)

namespace Summation

theorem bind_eq_ok {x : Summation α} {f : α → Summation β} {b : β}
    (h : (x >>= f).run n = .ok (b, k)) :
    ∃ a j, x.run n = .ok (a, j) ∧ (f a).run j = .ok (b, k) := by
  obtain ⟨⟨a, j⟩, hx, hf⟩ := Except.bind_eq_ok h
  exact ⟨a, j, hx, hf⟩

theorem lift_eq_ok {x : Except Error α} {a : α} (h : (liftM x : Summation α).run n = .ok (a, k)) :
    x = .ok a ∧ k = n := by
  obtain ⟨b, hx, hb⟩ := Except.bind_eq_ok h
  cases hb
  exact ⟨hx, rfl⟩

end Summation

/-- Sum over some names, from the first to the last, under new names numbered from `n`. -/
def contracted : Nat → Formula → List (String × Nat) → Formula
  | _, f, [] => f
  | n, f, (name, range) :: names =>
    contracted (n + 1) (contraction (summationName n) range (f.rename name (summationName n))) names

theorem foldlM_sumOver (dims : Dimensions) (bound : List (String × Option Nat)) (f : Formula)
    (n : Nat) :
    (bound.foldlM (fun f (name, dimension) => sumOver dims f name dimension) f).run n =
      .ok (contracted n f (bound.map fun p => (p.1, p.2.getD dims.default)), n + bound.length) := by
  induction bound generalizing f n with
  | nil => rfl
  | cons p bound ih =>
    rw [foldlM_cons]
    refine (ih _ (n + 1)).trans ?_
    rw [map_cons, contracted, length_cons, Nat.add_right_comm, Nat.add_assoc]

theorem run_contract {roles : List IndexRole} (h : IndexRole.ofTerm occurrences = .ok roles)
    (f : Formula) (n : Nat) :
    (contract dims f occurrences).run n =
      .ok ((contracted n f ((roles.filterMap IndexRole.bound?).map fun p =>
        (p.1, p.2.getD dims.default)), roles.filterMap IndexRole.free?),
        n + (roles.filterMap IndexRole.bound?).length) := by
  have hsums := foldlM_sumOver dims (roles.filterMap IndexRole.bound?) f n
  unfold contract
  rw [h]
  exact congrArg (· >>= fun r => pure ((r.1, roles.filterMap IndexRole.free?), r.2)) hsums

theorem contract_eq_ok (h : (contract dims f occurrences).run n = .ok ((f', free), n')) :
    f' = contracted n f ((paired occurrences).map fun name =>
        (name, (range? occurrences name).getD dims.default)) ∧
      free = lone occurrences ∧ n' = n + (paired occurrences).length ∧
      ∀ name, count name occurrences ≤ 2 := by
  unfold contract at h
  obtain ⟨roles, j, hlift, hsums⟩ := Summation.bind_eq_ok h
  obtain ⟨hroles, rfl⟩ := Summation.lift_eq_ok hlift
  obtain ⟨hbound, hfree, hcount⟩ := IndexRole.ofTerm_eq_ok hroles
  obtain ⟨g, k, hg, hreturn⟩ := Summation.bind_eq_ok hsums
  rw [hbound, foldlM_sumOver] at hg
  cases hg
  cases hreturn
  refine ⟨?_, hfree, ?_, hcount⟩
  · rw [map_map]
    rfl
  · rw [length_map]

section Contracted

theorem boundNames_contracted (names : List (String × Nat)) :
    (contracted n f names).boundNames =
      (List.range' n names.length).reverse.map summationName ++ f.boundNames := by
  induction names generalizing n f with
  | nil => rfl
  | cons p names ih =>
    rw [contracted, ih, boundNames, boundNames_rename, length_cons, range'_succ,
      reverse_cons, map_append, append_assoc]
    rfl

theorem firstDimension?_contracted (dims : Dimensions) (names : List (String × Nat)) :
    (contracted n f names).firstDimension? dims = f.firstDimension? dims := by
  induction names generalizing n f with
  | nil => rfl
  | cons p names ih => rw [contracted, ih, firstDimension?, firstDimension?_rename]

theorem mem_openNames_contraction {target : String} {range : Nat} (ht : target ∉ f.indexNames)
    (z : String) :
    z ∈ (contraction target range (f.rename source target)).openNames ↔
      z ∈ f.openNames ∧ z ≠ source := by
  rw [openNames, openNames_rename ht, mem_filter, mem_map, bne_iff_ne]
  constructor
  · rintro ⟨⟨x, hx, rfl⟩, hne⟩
    by_cases h : x = source
    · simp [h] at hne
    · rw [if_neg h]
      exact ⟨hx, h⟩
  · rintro ⟨hz, hne⟩
    refine ⟨⟨z, hz, if_neg hne⟩, ?_⟩
    rintro rfl
    exact ht ((mem_indexNames_iff f z).mpr (.inl hz))

theorem fresh_contraction {range : Nat} (h : ∀ k, n ≤ k → summationName k ∉ f.indexNames) :
    ∀ k, n + 1 ≤ k → summationName k ∉
      (contraction (summationName n) range (f.rename source (summationName n))).indexNames := by
  intro k hk hmem
  have hk' := h k (Nat.le_of_succ_le hk)
  rw [mem_indexNames_iff] at hk' hmem
  rcases hmem with hopen | hbound
  · rw [mem_openNames_contraction (h n (Nat.le_refl n))] at hopen
    exact hk' (.inl hopen.1)
  · rw [boundNames, boundNames_rename, mem_cons] at hbound
    rcases hbound with heq | hbound
    · have := summationName_injective heq
      omega
    · exact hk' (.inr hbound)

theorem mem_openNames_contracted (h : ∀ k, n ≤ k → summationName k ∉ f.indexNames)
    (names : List (String × Nat)) (z : String) :
    z ∈ (contracted n f names).openNames ↔ z ∈ f.openNames ∧ z ∉ names.map (·.1) := by
  induction names generalizing n f with
  | nil => simp [contracted]
  | cons p names ih =>
    rw [contracted, ih (fresh_contraction h), mem_openNames_contraction (h n (Nat.le_refl n)),
      map_cons, mem_cons, not_or, and_assoc]

theorem evaluate_contracted {m : Type → Type} [Monad m] [MonadLiftT (Except Error) m]
    (r : Reading m) (h : ∀ k, n ≤ k → summationName k ∉ f.indexNames)
    (names : List (String × Nat)) (ρ : Assignment) :
    (contracted n f names).evaluate r ρ = sumOverNames names (fun ρ => f.evaluate r ρ) ρ := by
  induction names generalizing n f with
  | nil => rfl
  | cons p names ih =>
    obtain ⟨name, range⟩ := p
    rw [contracted, ih (fresh_contraction h), sumOverNames]
    congr 1
    funext ρ
    rw [evaluate]
    congr 2
    funext v
    have hn := h n (Nat.le_refl n)
    apply evaluate_rename hn
    · simp
    · intro z hz
      have hzn : z ≠ summationName n := by
        rintro rfl
        exact hn ((mem_indexNames_iff f _).mpr (.inl hz))
      by_cases hzs : z = name
      · simp [hzs]
      · simp [hzs, lookup_cons, beq_false_of_ne hzn, beq_false_of_ne hzs]

end Contracted

/-- Names of summation indices numbered from `n` on and below `n'`, each at most once. -/
structure Drawn (n n' : Nat) (names : List String) : Prop where
  nodup : names.Nodup
  mem : ∀ x ∈ names, ∃ k, n ≤ k ∧ k < n' ∧ x = summationName k

namespace Drawn

theorem append {xs ys : List String} (hx : Drawn n j xs) (hy : Drawn j n' ys) (hn : n ≤ j)
    (hj : j ≤ n') : Drawn n n' (xs ++ ys) where
  nodup := by
    refine List.Nodup.append hx.nodup hy.nodup fun z hzx hzy => ?_
    obtain ⟨k, _, hk, rfl⟩ := hx.mem z hzx
    obtain ⟨k', hk', _, heq⟩ := hy.mem _ hzy
    have := summationName_injective heq
    omega
  mem z hz := by
    rcases mem_append.mp hz with hz | hz
    · obtain ⟨k, h₁, h₂, rfl⟩ := hx.mem z hz
      exact ⟨k, h₁, by omega, rfl⟩
    · obtain ⟨k, h₁, h₂, rfl⟩ := hy.mem z hz
      exact ⟨k, by omega, h₂, rfl⟩

theorem perm {xs ys : List String} (h : Drawn n n' xs) (hp : xs.Perm ys) : Drawn n n' ys :=
  ⟨hp.nodup h.nodup, fun x hx => h.mem x (hp.mem_iff.mpr hx)⟩

theorem range (n length : Nat) :
    Drawn n (n + length) ((List.range' n length).reverse.map summationName) where
  nodup := (nodup_reverse.mpr nodup_range').map fun _ _ => summationName_injective
  mem z hz := by
    obtain ⟨k, hk, rfl⟩ := mem_map.mp hz
    rw [mem_reverse, mem_range'_1] at hk
    exact ⟨k, hk.1, hk.2, rfl⟩

theorem contracted (h : Drawn n j f.boundNames) (hn : n ≤ j) (names : List (String × Nat)) :
    Drawn n (j + names.length) (contracted j f names).boundNames := by
  rw [boundNames_contracted]
  exact (h.append (range j names.length) hn (Nat.le_add_right ..)).perm perm_append_comm

end Drawn

/-- The formula `f'` with the sums of `f` written out, under names numbered from `n` on. -/
structure Resolves (dims : Dimensions) (n n' : Nat) (f f' : Formula) : Prop where
  le : n ≤ n'
  nodup : ((f.freeOccurrences dims).map (·.name)).Nodup
  openNames : ∀ x, x ∈ f'.openNames ↔ x ∈ (f.freeOccurrences dims).map (·.name)
  drawn : Drawn n n' f'.boundNames
  dimension : f'.firstDimension? dims = f.firstDimension? dims
  evaluate : ∀ {m : Type → Type} [Monad m] [MonadLiftT (Except Error) m] (r : Reading m)
    (ρ : Assignment), f'.evaluate r ρ = f.convention r dims ρ

structure ResolvesAll (dims : Dimensions) (n n' : Nat) (fs fs' : List Formula) : Prop where
  le : n ≤ n'
  openNames : ∀ x, x ∈ openNameLists fs' ↔ x ∈ (freeOccurrenceLists dims fs).map (·.name)
  drawn : Drawn n n' (boundNameLists fs')
  dimension : firstDimensionIn? dims fs' = firstDimensionIn? dims fs
  evaluate : ∀ {m : Type → Type} [Monad m] [MonadLiftT (Except Error) m] (r : Reading m)
    (ρ : Assignment), evaluateAll r ρ fs' = conventionAll r dims ρ fs

theorem ResolvesAll.nil (dims : Dimensions) (n : Nat) : ResolvesAll dims n n [] [] where
  le := Nat.le_refl n
  openNames _ := Iff.rfl
  drawn := ⟨.nil, nofun⟩
  dimension := rfl
  evaluate _ _ := rfl

theorem Resolves.cons (h : Resolves dims n j f f') (hs : ResolvesAll dims j n' fs fs') :
    ResolvesAll dims n n' (f :: fs) (f' :: fs') where
  le := Nat.le_trans h.le hs.le
  openNames x := by
    rw [openNameLists, freeOccurrenceLists, map_append, mem_append, mem_append,
      h.openNames, hs.openNames]
  drawn := h.drawn.append hs.drawn h.le hs.le
  dimension := by rw [firstDimensionIn?, firstDimensionIn?, h.dimension, hs.dimension]
  evaluate r ρ := by rw [evaluateAll, conventionAll, h.evaluate, hs.evaluate]

theorem contract_resolves {g : Formula}
    (h : (contract dims g occurrences).run j = .ok ((f', free), n')) (hn : n ≤ j)
    (hfree : f.freeOccurrences dims = lone occurrences)
    (hopen : ∀ x, x ∈ g.openNames ↔ x ∈ occurrences.map (·.name))
    (hnames : ∀ k, summationName k ∉ occurrences.map (·.name)) (hdrawn : Drawn n j g.boundNames)
    (hdimension : g.firstDimension? dims = f.firstDimension? dims)
    (hevaluate : ∀ {m : Type → Type} [Monad m] [MonadLiftT (Except Error) m] (r : Reading m)
      (ρ : Assignment), sumOverPaired dims occurrences (fun ρ => g.evaluate r ρ) ρ =
        f.convention r dims ρ) : Resolves dims n n' f f' ∧ free = f.freeOccurrences dims := by
  obtain ⟨rfl, rfl, rfl, hcount⟩ := contract_eq_ok h
  have hfresh : ∀ k, j ≤ k → summationName k ∉ g.indexNames := by
    intro k hk hmem
    rcases (mem_indexNames_iff g _).mp hmem with hmem | hmem
    · exact hnames k ((hopen _).mp hmem)
    · obtain ⟨k', _, hk', heq⟩ := hdrawn.mem _ hmem
      have := summationName_injective heq
      omega
  refine ⟨⟨by omega, ?_, fun x => ?_, ?_, ?_, fun r ρ => ?_⟩, hfree.symm⟩
  · rw [hfree]
    exact nodup_lone occurrences
  · have hpaired : ((paired occurrences).map fun name =>
        (name, (range? occurrences name).getD dims.default)).map (·.1) = paired occurrences := by
      simp [Function.comp_def]
    have hcount := hcount x
    rw [mem_openNames_contracted hfresh, hopen, hfree, mem_map_name_lone, hpaired, mem_paired,
      ← count_pos_iff]
    unfold count at *
    omega
  · have hcontracted := hdrawn.contracted hn ((paired occurrences).map fun name =>
      (name, (range? occurrences name).getD dims.default))
    rwa [length_map] at hcontracted
  · rw [firstDimension?_contracted, hdimension]
  · rw [evaluate_contracted r hfresh, ← hevaluate]
    rfl

theorem map_name_tensorOccurrences (dims : Dimensions) (t : TensorRef) :
    (tensorOccurrences dims t).map (·.name) = t.indices.filterMap Index.name? := by
  rw [tensorOccurrences, map_map]
  exact map_fst_namedIndices t.indices

theorem map_name_derivativeOccurrences (dimension : Option Nat) (i : Index) (span : Span) :
    (derivativeOccurrences dimension i span).map (·.name) = i.name?.toList := by
  rw [derivativeOccurrences, map_map]
  cases h : i.name? <;> simp [namedIndices, h]

theorem freeOccurrenceLists_eq (dims : Dimensions) (fs : List Formula) :
    freeOccurrenceLists dims fs = fs.flatMap (freeOccurrences dims) := by
  induction fs with
  | nil => rfl
  | cons f fs ih => rw [freeOccurrenceLists, ih, flatMap_cons]

theorem mem_map_name_freeOccurrenceLists :
    x ∈ (freeOccurrenceLists dims fs).map (·.name) ↔
      ∃ f ∈ fs, x ∈ (f.freeOccurrences dims).map (·.name) := by
  rw [freeOccurrenceLists_eq, map_flatMap, mem_flatMap]

theorem mem_indexNames_of_free (h : x ∈ (f.freeOccurrences dims).map (·.name)) :
    x ∈ f.indexNames := by
  have hlone {occurrences : List Occurrence} (h : x ∈ (lone occurrences).map (·.name)) :
      x ∈ occurrences.map (·.name) := (filter_sublist.map _).subset h
  induction f using Formula.induction with
  | num q => cases h
  | sym s => cases h
  | tensor t =>
    rw [indexNames, ← map_name_tensorOccurrences dims t]
    exact hlone h
  | derivative kind i operand dimension span ih =>
    have h := hlone h
    rw [map_append, map_name_derivativeOccurrences, mem_append] at h
    rw [indexNames, mem_append]
    exact h.symm.imp_right ih
  | sum ts ih =>
    cases ts with
    | nil => cases h
    | cons t ts =>
      rw [indexNames, indexNameLists, mem_append]
      exact .inl (ih t (by simp) h)
  | product fs ih =>
    obtain ⟨f, hf, hx⟩ := mem_map_name_freeOccurrenceLists.mp (hlone h)
    rw [indexNames, indexNameLists_eq, mem_flatMap]
    exact ⟨f, hf, ih f hf hx⟩
  | power b e hb he =>
    rw [freeOccurrences, map_append, mem_append] at h
    rw [indexNames, mem_append]
    exact h.imp hb he
  | fn g a ih => exact ih h
  | contraction index dimension body ih =>
    rw [indexNames, mem_cons]
    exact .inr (ih ((filter_sublist.map _).subset h))

theorem mem_of_sameMembers [BEq α] [LawfulBEq α] {xs ys : List α} (h : sameMembers xs ys) (x : α) :
    x ∈ xs ↔ x ∈ ys := by
  simp only [sameMembers, Bool.and_eq_true, all_eq_true, contains_iff_mem] at h
  exact ⟨h.1 x, h.2 x⟩

theorem mem_map_name_of_sameMembers {xs ys : List Occurrence}
    (h : sameMembers (xs.map key) (ys.map key)) (x : String) :
    x ∈ xs.map (·.name) ↔ x ∈ ys.map (·.name) := by
  have hkeys (zs : List Occurrence) : zs.map (·.name) = (zs.map key).map (·.1) := by
    rw [map_map]
    rfl
  rw [hkeys, hkeys, mem_map, mem_map]
  exact exists_congr fun p => and_congr_left fun _ => mem_of_sameMembers h p

section Resolve

def Resolvable (dims : Dimensions) (f : Formula) : Prop :=
  ∀ {n n' f' free}, (f.resolve dims).run n = .ok ((f', free), n') → f.boundNames = [] →
    (∀ k, summationName k ∉ f.indexNames) →
      Resolves dims n n' f f' ∧ free = f.freeOccurrences dims

theorem resolveFactors_resolves (ih : ∀ f ∈ fs, Resolvable dims f)
    (h : (resolveFactors dims fs).run n = .ok ((fs', free), n')) (hbound : boundNameLists fs = [])
    (hnames : ∀ k, summationName k ∉ indexNameLists fs) :
    ResolvesAll dims n n' fs fs' ∧ free = freeOccurrenceLists dims fs := by
  induction fs generalizing n n' fs' free with
  | nil =>
    cases h
    exact ⟨.nil dims n, rfl⟩
  | cons f fs ihs =>
    rw [forall_mem_cons] at ih
    rw [boundNameLists, append_eq_nil_iff] at hbound
    simp only [indexNameLists, mem_append, not_or] at hnames
    obtain ⟨⟨f', free₁⟩, j, hhead, hrest⟩ := Summation.bind_eq_ok h
    obtain ⟨⟨fs'', free₂⟩, k, htail, hreturn⟩ := Summation.bind_eq_ok hrest
    cases hreturn
    obtain ⟨hf, rfl⟩ := ih.1 hhead hbound.1 fun k => (hnames k).1
    obtain ⟨hfs, rfl⟩ := ihs ih.2 htail hbound.2 fun k => (hnames k).2
    exact ⟨hf.cons hfs, rfl⟩

theorem resolveTerms_resolves (ih : ∀ t ∈ ts, Resolvable dims t) {first : Option (List Occurrence)}
    {ts' : List Formula} (h : (resolveTerms dims first ts).run n = .ok ((ts', free), n'))
    (hbound : boundNameLists ts = []) (hnames : ∀ k, summationName k ∉ indexNameLists ts) :
    ResolvesAll dims n n' ts ts' ∧
      free = (first.or (ts.head?.map (freeOccurrences dims))).getD [] ∧
      ∀ t ∈ ts, ((t.freeOccurrences dims).map (·.name)).Nodup ∧
        ∀ x, x ∈ (t.freeOccurrences dims).map (·.name) ↔ x ∈ free.map (·.name) := by
  induction ts generalizing first n n' ts' free with
  | nil =>
    cases h
    exact ⟨.nil dims n, by cases first <;> rfl, nofun⟩
  | cons t ts ihs =>
    rw [forall_mem_cons] at ih
    rw [boundNameLists, append_eq_nil_iff] at hbound
    simp only [indexNameLists, mem_append, not_or] at hnames
    obtain ⟨⟨t', free₁⟩, j, hhead, hrest⟩ := Summation.bind_eq_ok h
    obtain ⟨ht, rfl⟩ := ih.1 hhead hbound.1 fun k => (hnames k).1
    dsimp only at hrest
    split at hrest
    · next hsame =>
      obtain ⟨⟨ts'', free₂⟩, k, htail, hreturn⟩ := Summation.bind_eq_ok hrest
      cases hreturn
      obtain ⟨hts, rfl, hall⟩ := ihs ih.2 htail hbound.2 fun k => (hnames k).2
      refine ⟨ht.cons hts, by cases first <;> rfl, ?_⟩
      rw [forall_mem_cons]
      exact ⟨⟨ht.nodup, fun x => (mem_map_name_of_sameMembers hsame x).symm⟩, hall⟩
    · cases hrest

theorem resolves_leaf (hopen : f.openNames = []) (hbound : f.boundNames = [])
    (hfree : f.freeOccurrences dims = [])
    (hevaluate : ∀ {m : Type → Type} [Monad m] [MonadLiftT (Except Error) m] (r : Reading m)
      (ρ : Assignment), f.evaluate r ρ = f.convention r dims ρ) : Resolves dims n n f f where
  le := Nat.le_refl n
  nodup := by rw [hfree]; exact .nil
  openNames x := by rw [hopen, hfree]; rfl
  drawn := by rw [hbound]; exact ⟨.nil, nofun⟩
  dimension := rfl
  evaluate r ρ := hevaluate r ρ

namespace Resolvable

theorem tensor (t : TensorRef) : Resolvable dims (tensor t) := by
  intro n n' f' free h hbound hnames
  refine contract_resolves h (Nat.le_refl n) rfl (fun x => ?_) ?_ ⟨.nil, nofun⟩ rfl fun _ _ => rfl
  · rw [map_name_tensorOccurrences]
    rfl
  · rw [map_name_tensorOccurrences]
    exact hnames

theorem derivative {operand : Formula} (ih : Resolvable dims operand) (kind : DerivativeKind)
    (i : Index) (dimension : Option Nat) (span : Span) :
    Resolvable dims (derivative kind i operand dimension span) := by
  intro n n' f' free h hbound hnames
  simp only [indexNames, mem_append, not_or] at hnames
  obtain ⟨⟨operand', free₁⟩, j, hoperand, hcontract⟩ := Summation.bind_eq_ok h
  obtain ⟨ho, rfl⟩ := ih hoperand hbound fun k => (hnames k).2
  have hrange : dims.ofCoordinates.or (operand'.firstDimension? dims) =
      operand.derivativeRange? dims := by
    rw [ho.dimension]
    rfl
  dsimp only at hcontract
  rw [hrange] at hcontract
  have hmap : (operand.freeOccurrences dims ++
      derivativeOccurrences (operand.derivativeRange? dims) i span).map (·.name) =
      (operand.freeOccurrences dims).map (·.name) ++ i.name?.toList := by
    rw [map_append, map_name_derivativeOccurrences]
  refine contract_resolves hcontract ho.le rfl (fun x => ?_) (fun k => ?_) ho.drawn
    ho.dimension fun r ρ => ?_
  · change _ ↔ x ∈ (_ ++ derivativeOccurrences _ i span).map (·.name)
    rw [hmap, Formula.openNames, mem_append, mem_append, ho.openNames, or_comm]
  · change summationName k ∉ (_ ++ derivativeOccurrences _ i span).map (·.name)
    rw [hmap, mem_append, not_or]
    exact ⟨fun hk => (hnames k).2 (mem_indexNames_of_free hk), (hnames k).1⟩
  · simp only [Formula.evaluate, ho.evaluate]
    rfl

theorem sum (ih : ∀ t ∈ ts, Resolvable dims t) : Resolvable dims (sum ts) := by
  intro n n' f' free h hbound hnames
  obtain ⟨⟨ts', free₁⟩, j, hterms, hreturn⟩ := Summation.bind_eq_ok h
  cases hreturn
  obtain ⟨hts, rfl, hall⟩ := resolveTerms_resolves (fun t ht => ih t ht) hterms hbound hnames
  have hfree : ((none.or (ts.head?.map (freeOccurrences dims))).getD [] : List Occurrence) =
      (Formula.sum ts).freeOccurrences dims := by
    cases ts <;> rfl
  rw [hfree] at hall ⊢
  refine ⟨⟨hts.le, ?_, fun x => ?_, hts.drawn, hts.dimension, fun r ρ => ?_⟩, rfl⟩
  · cases ts with
    | nil => exact .nil
    | cons t ts => exact (hall t (by simp)).1
  · rw [Formula.openNames, hts.openNames, mem_map_name_freeOccurrenceLists]
    cases ts with
    | nil => simp [freeOccurrences]
    | cons t ts =>
      constructor
      · rintro ⟨t', ht', hx⟩
        exact ((hall t' ht').2 x).mp hx
      · intro hx
        exact ⟨t, by simp, hx⟩
  · rw [Formula.evaluate, convention, hts.evaluate]

theorem product (ih : ∀ f ∈ fs, Resolvable dims f) : Resolvable dims (product fs) := by
  intro n n' f' free h hbound hnames
  obtain ⟨⟨fs', free₁⟩, j, hfactors, hcontract⟩ := Summation.bind_eq_ok h
  obtain ⟨hfs, rfl⟩ := resolveFactors_resolves (fun f hf => ih f hf) hfactors hbound hnames
  refine contract_resolves hcontract hfs.le rfl hfs.openNames (fun k hk => hnames k ?_)
    hfs.drawn hfs.dimension fun r ρ => ?_
  · obtain ⟨f, hf, hx⟩ := mem_map_name_freeOccurrenceLists.mp hk
    rw [indexNames, indexNameLists_eq, mem_flatMap]
    exact ⟨f, hf, mem_indexNames_of_free hx⟩
  · simp only [Formula.evaluate, hfs.evaluate]
    rfl

theorem power {b e : Formula} (hb : Resolvable dims b) (he : Resolvable dims e) :
    Resolvable dims (power b e) := by
  intro n n' f' free h hbound hnames
  rw [boundNames, append_eq_nil_iff] at hbound
  simp only [indexNames, mem_append, not_or] at hnames
  obtain ⟨⟨b', free₁⟩, j, hbase, hrest⟩ := Summation.bind_eq_ok h
  obtain ⟨⟨e', free₂⟩, k, hexponent, hrest⟩ := Summation.bind_eq_ok hrest
  obtain ⟨hb, rfl⟩ := hb hbase hbound.1 fun k => (hnames k).1
  obtain ⟨he, rfl⟩ := he hexponent hbound.2 fun k => (hnames k).2
  dsimp only at hrest
  split at hrest
  · cases hrest
  · next hfree =>
    cases hrest
    have hfree : (Formula.power b e).freeOccurrences dims = [] := hfree
    refine ⟨⟨Nat.le_trans hb.le he.le, ?_, fun x => ?_, hb.drawn.append he.drawn hb.le he.le,
      ?_, fun r ρ => ?_⟩, hfree.symm⟩
    · rw [hfree]
      exact .nil
    · rw [Formula.openNames, mem_append, hb.openNames, he.openNames, freeOccurrences,
        map_append, mem_append]
    · rw [firstDimension?, firstDimension?, hb.dimension, he.dimension]
    · rw [Formula.evaluate, convention, hb.evaluate, he.evaluate]

theorem fn (g : Func) {a : Formula} (ih : Resolvable dims a) : Resolvable dims (fn g a) := by
  intro n n' f' free h hbound hnames
  obtain ⟨⟨a', free₁⟩, j, harg, hrest⟩ := Summation.bind_eq_ok h
  obtain ⟨ha, rfl⟩ := ih harg hbound hnames
  dsimp only at hrest
  split at hrest
  · cases hrest
  · next hfree =>
    cases hrest
    refine ⟨⟨ha.le, ha.nodup, ha.openNames, ha.drawn, ha.dimension, fun r ρ => ?_⟩, hfree.symm⟩
    rw [Formula.evaluate, convention, ha.evaluate]

end Resolvable

theorem resolve_resolves (f : Formula) : Resolvable dims f := by
  induction f using Formula.induction with
  | num _ | sym _ =>
    intro n n' f' free h _ _
    cases h
    exact ⟨resolves_leaf rfl rfl rfl fun _ _ => rfl, rfl⟩
  | tensor t => exact Resolvable.tensor t
  | derivative kind i operand dimension span ih =>
    exact Resolvable.derivative ih kind i dimension span
  | sum ts ih => exact Resolvable.sum ih
  | product fs ih => exact Resolvable.product ih
  | power b e hb he => exact Resolvable.power hb he
  | fn g a ih => exact Resolvable.fn g ih
  | contraction index dimension body _ =>
    intro n n' f' free _ hbound
    cases hbound

end Resolve

end Formula

/-! The index discipline: in each term a name occurs once, or twice at different heights, all
terms of a sum have the same free indices, and powers and arguments have none. It decides
whether a formula can be resolved, up to the ranges of its indices. -/

open List

def Cause.isDimensions : Cause → Bool
  | .dimensions .. => true
  | _ => false

def opposite (key : String × Height) : String × Height :=
  (key.1, key.2.flip)

theorem sameMembers_iff [BEq α] [LawfulBEq α] {xs ys : List α} :
    sameMembers xs ys ↔ ∀ x, x ∈ xs ↔ x ∈ ys := by
  constructor
  · exact fun h => Formula.mem_of_sameMembers h
  · intro h
    simp only [sameMembers, Bool.and_eq_true, all_eq_true, contains_iff_mem]
    exact ⟨fun x => (h x).mp, fun x => (h x).mpr⟩

section Singles

variable {keys : List (String × Height)}

theorem countP_name (keys : List (String × Height)) (key : String × Height) :
    keys.countP (·.1 == key.1) = keys.count key + keys.count (opposite key) := by
  have hsplit (k : String × Height) : k.1 = key.1 ↔ k = key ∨ k = opposite key := by
    obtain ⟨name, height⟩ := key
    obtain ⟨name', height'⟩ := k
    cases height <;> cases height' <;> simp [opposite, Height.flip]
  have hne : key ≠ opposite key := by
    obtain ⟨name, height⟩ := key
    cases height <;> simp [opposite, Height.flip]
  induction keys with
  | nil => rfl
  | cons k keys ih =>
    rw [countP_cons, count_cons, count_cons, ih]
    by_cases hk : k = key
    · subst hk
      simp [hne]
      omega
    · by_cases hk' : k = opposite key
      · have hname : k.1 = key.1 := (hsplit k).mpr (.inr hk')
        rw [if_pos (beq_iff_eq.mpr hname), if_neg (by simpa using hk), if_pos (beq_iff_eq.mpr hk')]
        omega
      · have hname : k.1 ≠ key.1 := fun h => ((hsplit k).mp h).elim hk hk'
        simp [hk, hk', hname]

theorem mem_singles (h : keys.Nodup) {key : String × Height} :
    key ∈ singles keys ↔ key ∈ keys ∧ opposite key ∉ keys := by
  rw [singles, mem_filter, beq_iff_eq, countP_name]
  refine and_congr_right fun hmem => ?_
  rw [count_eq_one_of_mem h hmem, ← count_eq_zero]
  omega

theorem singles_sublist (keys : List (String × Height)) : (singles keys).Sublist keys :=
  filter_sublist

theorem nodup_map_fst_singles (keys : List (String × Height)) :
    ((singles keys).map (·.1)).Nodup := by
  rw [nodup_iff_count_le_one]
  intro name
  by_cases h : name ∈ (singles keys).map (·.1)
  · obtain ⟨key, hkey, rfl⟩ := mem_map.mp h
    have hcount : keys.countP (·.1 == key.1) = 1 := by
      simpa using (mem_filter.mp hkey).2
    calc ((singles keys).map (·.1)).count key.1
        ≤ (keys.map (·.1)).count key.1 := ((singles_sublist keys).map _).count_le _
      _ = keys.countP (·.1 == key.1) := by rw [count_eq_countP, countP_map]; rfl
      _ ≤ 1 := Nat.le_of_eq hcount
  · rw [count_eq_zero_of_not_mem h]
    exact Nat.zero_le 1

theorem singles_of_nodup (h : (keys.map (·.1)).Nodup) : singles keys = keys := by
  apply filter_eq_self.mpr
  intro key hkey
  have hcount : keys.countP (·.1 == key.1) = (keys.map (·.1)).count key.1 := by
    rw [count_eq_countP, countP_map]
    rfl
  rw [beq_iff_eq, hcount]
  exact count_eq_one_of_mem h (mem_map_of_mem hkey)

end Singles

namespace Occurrence

theorem map_key_lone (occurrences : List Occurrence) :
    (lone occurrences).map key = singles (occurrences.map key) := by
  unfold lone singles
  rw [filter_map]
  congr 2
  funext o
  simp only [Function.comp_apply, count, count_eq_countP, countP_map]
  rfl

theorem nodup_map_key_cons (o : Occurrence) (rest : List Occurrence) :
    ((o :: rest).map key).Nodup ↔
      ((o :: rest.filter (·.name == o.name)).map key).Nodup ∧
        ((rest.filter (·.name != o.name)).map key).Nodup := by
  have hperm : ((o :: rest.filter (·.name == o.name)).map key ++
      (rest.filter (·.name != o.name)).map key).Perm ((o :: rest).map key) := by
    rw [← map_append]
    apply List.Perm.map
    exact .cons o (filter_append_perm _ rest)
  rw [← hperm.nodup_iff, nodup_append']
  refine ⟨fun h => ⟨h.1, h.2.1⟩, fun h => ⟨h.1, h.2, ?_⟩⟩
  intro k hk hk'
  obtain ⟨o', ho', rfl⟩ := mem_map.mp hk'
  obtain ⟨o'', ho'', heq⟩ := mem_map.mp hk
  have hne : o'.name ≠ o.name := bne_iff_ne.mp (mem_filter.mp ho').2
  have hsame : o''.name = o.name := by
    rcases mem_cons.mp ho'' with rfl | hmem
    · rfl
    · exact beq_iff_eq.mp (mem_filter.mp hmem).2
  exact hne ((congrArg Prod.fst heq).symm.trans hsame)

end Occurrence

/-- A computation succeeds if and only if `P`, unless ranges differ, and then has a result as
asked for. -/
def Settles (P : Prop) (post : α → Prop) : Except Error α → Prop
  | .ok a => P ∧ post a
  | .error e => e.cause.isDimensions ∨ ¬ P

namespace Settles

variable {P Q : Prop} {post : α → Prop} {x : Except Error α}

theorem bind {post' : β → Prop} {g : α → Except Error β} (hx : Settles P post x) (hQ : Q → P)
    (hg : ∀ a, P → post a → Settles Q post' (g a)) : Settles Q post' (x >>= g) := by
  cases x with
  | error e => exact hx.imp_right fun h hq => h (hQ hq)
  | ok a => exact hg a hx.1 hx.2

theorem and_left (hx : Settles P post x) (hQ : Q) : Settles (Q ∧ P) post x := by
  cases x with
  | error e => exact hx.imp_right fun h hp => h hp.2
  | ok a => exact ⟨⟨hQ, hx.1⟩, hx.2⟩

end Settles

namespace IndexRole

open Occurrence

theorem ofOccurrences_settles (o : Occurrence) {same : List Occurrence}
    (hsame : ∀ o' ∈ same, o'.name = o.name) :
    Settles ((o :: same).map key).Nodup (fun _ => True) (ofOccurrences o same) := by
  cases same with
  | nil => exact ⟨nodup_singleton _, trivial⟩
  | cons b rest =>
    have hb := hsame b mem_cons_self
    cases rest with
    | cons c rest =>
      -- of three occurrences two have the same height
      have hc := hsame c (by simp)
      refine .inr fun h => ?_
      simp only [map_cons, nodup_cons, mem_cons, not_or, key, Prod.mk.injEq, hb, hc, true_and] at h
      cases ho : o.height <;> cases hb : b.height <;> cases hc : c.height <;> simp_all
    | nil =>
      by_cases hheight : o.height = b.height
      · have hthrow : ofOccurrences o [b] =
            .error { cause := .repetition o.name 2, span := b.span } := by
          simp [ofOccurrences, hheight]
          rfl
        rw [hthrow]
        refine .inr fun h => ?_
        simp [key, hb, hheight] at h
      · have hnodup : ((o :: [b]).map key).Nodup ∧ True := by simp [key, hheight]
        have hmatch : ([] : List Occurrence).isEmpty && o.height != b.height := by
          simpa using hheight
        unfold ofOccurrences
        dsimp only
        rw [if_pos hmatch]
        cases o.dimension with
        | none => exact hnodup
        | some m =>
          cases b.dimension with
          | none => exact hnodup
          | some n =>
            by_cases hmn : m = n
            · dsimp only
              rw [if_pos hmn]
              exact hnodup
            · dsimp only
              rw [if_neg hmn]
              exact .inl rfl

theorem ofTerm_settles (occurrences : List Occurrence) :
    Settles (occurrences.map key).Nodup (fun _ => True) (ofTerm occurrences) := by
  match occurrences with
  | [] =>
    rw [ofTerm]
    exact ⟨.nil, trivial⟩
  | o :: rest =>
    rw [nodup_map_key_cons, ofTerm]
    refine (ofOccurrences_settles o fun o' ho' => beq_iff_eq.mp (mem_filter.mp ho').2).bind
      And.left fun role hself _ => ?_
    exact ((ofTerm_settles (rest.filter (·.name != o.name))).and_left hself).bind id
      fun roles h _ => ⟨h, trivial⟩
termination_by occurrences.length
decreasing_by simpa using Nat.lt_succ_of_le (length_filter_le ..)

end IndexRole

namespace Formula

open Occurrence

mutual

def Disciplined : Formula → Prop
  | num _ | sym _ => True
  | tensor t => (namedIndices t.indices).Nodup
  | derivative _ i operand _ _ =>
    operand.Disciplined ∧ (operand.freeNames ++ namedIndices [i]).Nodup
  | sum ts => AllDisciplined ts ∧ ∀ t ∈ ts, ∀ key, key ∈ t.freeNames ↔ key ∈ (sum ts).freeNames
  | product fs => AllDisciplined fs ∧ (freeNameLists fs).Nodup
  | power b e => (b.Disciplined ∧ b.freeNames = []) ∧ e.Disciplined ∧ e.freeNames = []
  | fn _ a => a.Disciplined ∧ a.freeNames = []
  | contraction _ _ body => body.Disciplined

def AllDisciplined : List Formula → Prop
  | [] => True
  | f :: fs => f.Disciplined ∧ AllDisciplined fs

end

theorem allDisciplined_iff : AllDisciplined fs ↔ ∀ f ∈ fs, f.Disciplined := by
  induction fs with
  | nil => simp [AllDisciplined]
  | cons f fs ih => rw [AllDisciplined, ih, forall_mem_cons]

theorem freeNameLists_eq (fs : List Formula) : freeNameLists fs = fs.flatMap freeNames := by
  induction fs with
  | nil => rfl
  | cons f fs ih => rw [freeNameLists, ih, flatMap_cons]

theorem nodup_map_fst_freeNames (f : Formula) : (f.freeNames.map (·.1)).Nodup := by
  induction f using Formula.induction with
  | num q => exact .nil
  | sym s => exact .nil
  | tensor t => exact nodup_map_fst_singles _
  | derivative kind i operand dimension span _ => exact nodup_map_fst_singles _
  | sum ts ih =>
    cases ts with
    | nil => exact .nil
    | cons t ts => exact ih t mem_cons_self
  | product fs _ => exact nodup_map_fst_singles _
  | power b e _ _ => exact .nil
  | fn g a _ => exact .nil
  | contraction index dimension body ih => exact ih.sublist (filter_sublist.map _)

theorem nodup_freeNames (f : Formula) : f.freeNames.Nodup :=
  (nodup_map_fst_freeNames f).of_map _

section Resolve

variable (dims : Dimensions)

def HasFree (keys : List (String × Height)) (r : (α × List Occurrence) × Nat) : Prop :=
  r.1.2.map key = keys

theorem contract_settles (f : Formula) (occurrences : List Occurrence) (n : Nat) :
    Settles (occurrences.map key).Nodup (HasFree (singles (occurrences.map key)))
      ((contract dims f occurrences).run n) := by
  have hroles := IndexRole.ofTerm_settles occurrences
  rcases hrun : (contract dims f occurrences).run n with e | ⟨⟨f', free⟩, n'⟩
  · rcases hterm : IndexRole.ofTerm occurrences with e' | roles
    · unfold contract at hrun
      rw [hterm] at hrun hroles
      cases hrun
      exact hroles
    · rw [run_contract hterm] at hrun
      cases hrun
  · obtain ⟨_, rfl, _, _⟩ := contract_eq_ok hrun
    refine ⟨?_, map_key_lone occurrences⟩
    unfold contract at hrun
    obtain ⟨roles, j, hlift, _⟩ := Summation.bind_eq_ok hrun
    rw [(Summation.lift_eq_ok hlift).1] at hroles
    exact hroles.1

theorem resolveFactors_settles
    (ih : ∀ f ∈ fs, ∀ n, Settles f.Disciplined (HasFree f.freeNames) ((f.resolve dims).run n))
    (n : Nat) :
    Settles (AllDisciplined fs) (HasFree (freeNameLists fs)) ((resolveFactors dims fs).run n) := by
  induction fs generalizing n with
  | nil => exact ⟨trivial, rfl⟩
  | cons f fs ihs =>
    rw [forall_mem_cons] at ih
    refine (ih.1 n).bind And.left ?_
    rintro ⟨⟨f', free⟩, j⟩ hf hfree
    refine (ihs ih.2 j).bind And.right ?_
    rintro ⟨⟨fs', more⟩, k⟩ hfs hmore
    refine ⟨⟨hf, hfs⟩, ?_⟩
    exact (map_append ..).trans (congrArg₂ _ hfree hmore)

theorem resolveTerms_settles
    (ih : ∀ t ∈ ts, ∀ n, Settles t.Disciplined (HasFree t.freeNames) ((t.resolve dims).run n))
    (first : Option (List Occurrence)) (n : Nat) :
    let common := ((first.map (·.map key)).or (ts.head?.map freeNames)).getD []
    Settles (AllDisciplined ts ∧ ∀ t ∈ ts, ∀ key, key ∈ t.freeNames ↔ key ∈ common)
      (HasFree common) ((resolveTerms dims first ts).run n) := by
  induction ts generalizing first n with
  | nil => cases first <;> exact ⟨⟨trivial, nofun⟩, rfl⟩
  | cons t ts ihs =>
    intro common
    rw [forall_mem_cons] at ih
    refine (ih.1 n).bind (fun h => h.1.1) ?_
    rintro ⟨⟨t', free⟩, j⟩ ht hfree
    have hfree : free.map key = t.freeNames := hfree
    have hcommon : (first.getD free).map key = common := by
      cases first with
      | none => exact hfree
      | some occurrences => rfl
    have hrest := ihs ih.2 (some (first.getD free)) j
    simp only [Option.map_some, Option.some_or, Option.getD_some] at hrest
    rw [hcommon] at hrest
    change Settles _ _ ((if sameMembers ((first.getD free).map key) (free.map key) then _
      else throw (unequalTerms (first.getD free) free) : Summation _).run j)
    rw [hcommon, hfree]
    split
    · next hsame =>
      refine hrest.bind (fun h => ⟨h.1.2, (forall_mem_cons.mp h.2).2⟩)
        fun r hts hfree' => ⟨⟨⟨ht, hts.1⟩, ?_⟩, hfree'⟩
      rw [forall_mem_cons]
      exact ⟨fun key => (sameMembers_iff.mp hsame key).symm, hts.2⟩
    · next hsame =>
      refine .inr fun h => hsame (sameMembers_iff.mpr fun key => ?_)
      exact ((forall_mem_cons.mp h.2).1 key).symm

/-- Whether a formula can be resolved, and its free indices, are matters of the discipline
alone, unless two ranges differ. -/
theorem resolve_settles (f : Formula) (n : Nat) :
    Settles f.Disciplined (HasFree f.freeNames) ((f.resolve dims).run n) := by
  induction f using Formula.induction generalizing n with
  | num _ | sym _ => exact ⟨trivial, rfl⟩
  | tensor t =>
    have hkeys : (tensorOccurrences dims t).map key = namedIndices t.indices := by
      rw [tensorOccurrences, map_map]
      exact map_id _
    have h := contract_settles dims (tensor t) (tensorOccurrences dims t) n
    rw [hkeys] at h
    exact h
  | derivative kind i operand dimension span ih =>
    refine (ih n).bind And.left ?_
    rintro ⟨⟨operand', free⟩, j⟩ ho hfree
    have hkeys (known : Option Nat) : (free ++ derivativeOccurrences known i span).map key =
        operand.freeNames ++ namedIndices [i] := by
      rw [derivativeOccurrences, map_append, map_map]
      exact congrArg₂ _ hfree (map_id _)
    generalize hknown : dims.ofCoordinates.or (operand'.firstDimension? dims) = known
    have h := (contract_settles dims
      (derivative kind i operand' (some (known.getD dims.default)) span)
      (free ++ derivativeOccurrences known i span) j).and_left ho
    rw [hkeys] at h
    dsimp only
    rw [hknown]
    exact h
  | sum ts ih =>
    have h := resolveTerms_settles dims ih none n
    have hfree : (Option.or none (ts.head?.map freeNames)).getD [] = (sum ts).freeNames := by
      cases ts <;> rfl
    rw [Option.map_none, hfree] at h
    exact h.bind id fun r hts hfree => ⟨hts, hfree⟩
  | product fs ih =>
    refine (resolveFactors_settles dims ih n).bind And.left ?_
    rintro ⟨⟨fs', free⟩, j⟩ hfs hfree
    have hfree : free.map key = freeNameLists fs := hfree
    have h := (contract_settles dims (product fs') free j).and_left hfs
    rw [hfree] at h
    exact h
  | power b e hb he =>
    refine (hb n).bind (fun h => h.1.1) ?_
    rintro ⟨⟨b', free⟩, j⟩ hbase hfree
    refine (he j).bind (fun h => h.2.1) ?_
    rintro ⟨⟨e', free'⟩, k⟩ hexponent hfree'
    have hnil : b.freeNames = [] ∧ e.freeNames = [] ↔ free ++ free' = [] := by
      have hfree : free.map key = b.freeNames := hfree
      have hfree' : free'.map key = e.freeNames := hfree'
      rw [← hfree, ← hfree', map_eq_nil_iff, map_eq_nil_iff, append_eq_nil_iff]
    dsimp only
    cases hcons : free ++ free' with
    | cons o _ =>
      refine .inr fun h => ?_
      rw [hnil.mp ⟨h.1.2, h.2.2⟩] at hcons
      cases hcons
    | nil =>
      obtain ⟨hb', he'⟩ := hnil.mpr hcons
      exact ⟨⟨⟨hbase, hb'⟩, hexponent, he'⟩, rfl⟩
  | fn g a ih =>
    refine (ih n).bind And.left ?_
    rintro ⟨⟨a', free⟩, j⟩ ha hfree
    have hfree : free.map key = a.freeNames := hfree
    cases free with
    | nil => exact ⟨⟨ha, hfree.symm⟩, rfl⟩
    | cons o free =>
      refine .inr fun h => ?_
      rw [h.2] at hfree
      cases hfree
  | contraction index dimension body ih =>
    refine (ih n).bind id ?_
    rintro ⟨⟨body', free⟩, j⟩ hbody hfree
    refine ⟨hbody, ?_⟩
    have hfree : free.map key = body.freeNames := hfree
    rw [freeNames, ← hfree, filter_map]
    rfl

theorem resolved_settles (f : Formula) :
    Settles f.Disciplined (fun r => r.2.map key = f.freeNames) (f.resolved dims) :=
  (resolve_settles dims f 0).bind id fun _ h hfree => ⟨h, hfree⟩

/-- The free indices that are read off a formula without resolving it are those that resolving it
finds, in the same order. -/
theorem free_names_of_resolved {f f' : Formula} {free : List Occurrence}
    (h : f.resolved dims = .ok (f', free)) : f.freeNames = free.map key := by
  have hsettles := f.resolved_settles dims
  rw [h] at hsettles
  exact hsettles.2.symm

theorem free_names_of_resolved_nested :
    let dims : Dimensions := ⟨fun _ => some 2, none, 2⟩
    let head := contraction "k" 2 (product
      [tensor (.ofBase "A" [.upper "i", .lower "k"] .none), tensor (.ofBase "v" [.upper "j"] .none)])
    let tail := derivative .partialDerivative (.lower "j")
      (tensor (.ofBase "B" [.upper "l", .lower "l", .lower "m"] .none)) none .none
    ∃ f free, (product [head, tail]).resolved dims = .ok (f, free) ∧
      (product [head, tail]).freeNames = free.map key ∧
      free.map key = [("i", .upper), ("m", .lower)] := by
  intro dims head tail
  have hok : ((product [head, tail]).resolved dims).isOk := by decide +kernel
  cases h : (product [head, tail]).resolved dims with
  | error e =>
    rw [h] at hok
    cases hok
  | ok r =>
    have hfree := free_names_of_resolved dims h
    exact ⟨r.1, r.2, rfl, hfree, hfree.symm.trans (by decide +kernel)⟩

end Resolve

end Formula

end TensorCalculus
