import TensorCalculus.Proofs.Formula.Resolution
import TensorCalculus.Proofs.Scalar.Canonical
import TensorCalculus.Session.Assign

/-! When the sums of a formula can be made explicit: in each term an index occurs once, or at
both heights with one range. -/
namespace TensorCalculus

variable {occurrences : List Occurrence} {ts : List Formula} {ρ : Assignment} {fs : List Formula}
  {name : String} {f : Formula}

open List hiding count

namespace Occurrence

structure Contractible (occurrences : List Occurrence) : Prop where
  nodup : (occurrences.map key).Nodup
  ranges : ∀ o ∈ occurrences, ∀ o' ∈ occurrences, o.name = o'.name → o.dimension = o'.dimension

section

variable (h : (occurrences.map (·.name)).Nodup)
include h

theorem Contractible.of_nodup :
    Contractible occurrences where
  nodup := by
    have hkeys : (occurrences.map key).map (·.1) = occurrences.map (·.name) := by
      rw [map_map]
      rfl
    exact List.Nodup.of_map (·.1) (hkeys ▸ h)
  ranges o ho o' ho' hname := by rw [inj_on_of_nodup_map h ho ho' hname]

theorem lone_of_nodup : lone occurrences = occurrences := by
  apply filter_eq_self.mpr
  intro o ho
  rw [beq_iff_eq]
  exact count_eq_one_of_mem h (mem_map_of_mem ho)

theorem paired_of_nodup : paired occurrences = [] := by
  apply eq_nil_iff_forall_not_mem.mpr
  intro name hname
  have hcount : count name occurrences = 2 := mem_paired.mp hname
  have := nodup_iff_count_le_one.mp h name
  unfold count at hcount
  omega

end

theorem nodup_paired (occurrences : List Occurrence) : (paired occurrences).Nodup := by
  match occurrences with
  | [] => exact nodup_nil
  | o :: rest =>
    rw [paired_cons]
    split
    · refine nodup_cons.mpr ⟨fun hmem => ?_, nodup_paired _⟩
      have hcount := mem_paired.mp hmem
      have hzero : count o.name (rest.filter (·.name != o.name)) = 0 := by
        simp [count, count_eq_zero]
      omega
    · exact nodup_paired _
termination_by occurrences.length
decreasing_by all_goals simpa using Nat.lt_succ_of_le (length_filter_le ..)

theorem paired_eq_singleton (hname : count name occurrences = 2)
    (h : ∀ x ≠ name, count x occurrences ≤ 1) : paired occurrences = [name] := by
  have hmem (x : String) : x ∈ paired occurrences ↔ x = name := by
    rw [mem_paired]
    constructor
    · intro hx
      by_contra hne
      have := h x hne
      omega
    · rintro rfl
      exact hname
  have hperm : (paired occurrences).Perm [name] :=
    (perm_ext_iff_of_nodup (nodup_paired _) (nodup_singleton _)).mpr fun x => by
      rw [hmem, mem_singleton]
  exact perm_singleton.mp hperm

theorem range?_eq_some {d : Nat} (hmem : name ∈ occurrences.map (·.name))
    (h : ∀ o ∈ occurrences, o.name = name → o.dimension = some d) :
    range? occurrences name = some d := by
  obtain ⟨o, ho, rfl⟩ := mem_map.mp hmem
  unfold range?
  have hne : occurrences.filter (·.name == o.name) ≠ [] :=
    ne_nil_of_mem (mem_filter.mpr ⟨ho, by simp⟩)
  cases hfilter : occurrences.filter (·.name == o.name) with
  | nil => exact absurd hfilter hne
  | cons first rest =>
    have hfirst := mem_filter.mp (hfilter ▸ mem_cons_self : first ∈ occurrences.filter _)
    rw [findSome?_cons, h first hfirst.1 (by simpa using hfirst.2)]

end Occurrence

namespace IndexRole

open Occurrence

theorem ofTerm_succeeds {occurrences : List Occurrence} (h : Contractible occurrences) :
    ∃ roles, ofTerm occurrences = .ok roles := by
  match occurrences with
  | [] => exact ⟨[], by rw [ofTerm]; rfl⟩
  | o :: rest =>
    have hself := (nodup_map_key_cons o rest).mp h.nodup
    have hrest : Contractible (rest.filter (·.name != o.name)) :=
      ⟨hself.2, fun a ha b hb => h.ranges a (mem_cons_of_mem _ (mem_filter.mp ha).1) b
        (mem_cons_of_mem _ (mem_filter.mp hb).1)⟩
    obtain ⟨roles, hroles⟩ := ofTerm_succeeds hrest
    have hrole : ∃ role, ofOccurrences o (rest.filter (·.name == o.name)) = .ok role := by
      have hsame : ∀ o' ∈ rest.filter (·.name == o.name), o'.name = o.name :=
        fun o' ho' => beq_iff_eq.mp (mem_filter.mp ho').2
      have hsettles := ofOccurrences_settles o hsame
      cases hresult : ofOccurrences o (rest.filter (·.name == o.name)) with
      | ok role => exact ⟨role, rfl⟩
      | error e =>
        -- only different ranges are left as a reason
        rw [hresult] at hsettles
        have hdimensions := hsettles.resolve_right (not_not_intro hself.1)
        unfold ofOccurrences at hresult
        split at hresult
        · cases hresult
        · next b more hsame =>
          have hb := mem_filter.mp (hsame ▸ mem_cons_self :
            b ∈ rest.filter (·.name == o.name))
          have heq := h.ranges o mem_cons_self b (mem_cons_of_mem _ hb.1)
            (beq_iff_eq.mp hb.2).symm
          dsimp only at hresult
          split at hresult
          · rw [heq] at hresult
            split at hresult
            · next hm hn =>
              rw [hn] at hm
              cases hm
              rw [if_pos rfl] at hresult
              cases hresult
            · cases hresult
          · cases hresult
            cases hdimensions
    obtain ⟨role, hrole⟩ := hrole
    refine ⟨role :: roles, ?_⟩
    rw [ofTerm, hrole]
    change (ofTerm (rest.filter (·.name != o.name)) >>= fun roles => pure (role :: roles)) = _
    rw [hroles]
    rfl
termination_by occurrences.length
decreasing_by simpa using Nat.lt_succ_of_le (length_filter_le ..)

end IndexRole

namespace Formula

open Occurrence

section Succeeds

variable {dims : Dimensions}

theorem boundNames_ofTerms (ts : List Formula) :
    (ofTerms ts).boundNames = ts.flatMap boundNames := by
  match ts with
  | [] => rfl
  | [t] => simp [ofTerms]
  | t :: t' :: ts => exact boundNameLists_eq _

/-- No contractions, and no names of summation indices. -/
structure Plain (f : Formula) : Prop where
  bound : f.boundNames = []
  names : ∀ k, summationName k ∉ f.indexNames

def Succeeds (dims : Dimensions) (f : Formula) : Prop :=
  ∀ n, ∃ r, (f.resolve dims).run n = .ok r

theorem Plain.of_ofTerms (h : (ofTerms ts).Plain) : ∀ t ∈ ts, t.Plain := by
  intro t ht
  have hnames (x : String) (hx : x ∈ t.indexNames) : x ∈ (ofTerms ts).indexNames := by
    unfold ofTerms
    split
    · rwa [← mem_singleton.mp ht]
    · rw [indexNames, indexNameLists_eq]
      exact mem_flatMap.mpr ⟨t, ht, hx⟩
  refine ⟨?_, fun k hk => h.names k (hnames _ hk)⟩
  have hbound := h.bound
  rw [boundNames_ofTerms] at hbound
  exact flatMap_eq_nil_iff.mp hbound t ht

theorem contract_succeeds (h : Contractible occurrences) (f : Formula) (n : Nat) :
    ∃ r, (contract dims f occurrences).run n = .ok r := by
  obtain ⟨roles, hroles⟩ := IndexRole.ofTerm_succeeds h
  exact ⟨_, run_contract hroles f n⟩

theorem Succeeds.run (h : Succeeds dims f) (hf : f.Plain) (n : Nat) :
    ∃ f' n', (f.resolve dims).run n = .ok ((f', f.freeOccurrences dims), n') ∧
      Resolves dims n n' f f' := by
  obtain ⟨⟨⟨f', free⟩, n'⟩, hrun⟩ := h n
  obtain ⟨hresolves, rfl⟩ := resolve_resolves f hrun hf.bound hf.names
  exact ⟨f', n', hrun, hresolves⟩

theorem Succeeds.resolved (h : Succeeds dims f) (hf : f.Plain) :
    ∃ f' n, f.resolved dims = .ok (f', f.freeOccurrences dims) ∧ Resolves dims 0 n f f' := by
  obtain ⟨f', n, hrun, hresolves⟩ := h.run hf 0
  refine ⟨f', n, ?_, hresolves⟩
  unfold Formula.resolved StateT.run'
  rw [show f.resolve dims 0 = _ from hrun]
  rfl

theorem Succeeds.tensor {t : TensorRef} (h : Contractible (tensorOccurrences dims t)) :
    Succeeds dims (tensor t) :=
  fun n => contract_succeeds h _ n

theorem Succeeds.derivative {operand : Formula} (h : Succeeds dims operand) (ho : operand.Plain)
    {kind : DerivativeKind} {i : Index} {dimension : Option Nat} {span : Span}
    (hc : Contractible (operand.freeOccurrences dims ++
      derivativeOccurrences (operand.derivativeRange? dims) i span)) :
    Succeeds dims (derivative kind i operand dimension span) := by
  intro n
  obtain ⟨operand', j, hrun, hresolves⟩ := h.run ho n
  have hrange : dims.ofCoordinates.or (operand'.firstDimension? dims) =
      operand.derivativeRange? dims := by
    rw [hresolves.dimension]
    rfl
  rw [resolve, StateT.run_bind, hrun]
  change ∃ r, (contract dims _ (operand.freeOccurrences dims ++ derivativeOccurrences
    (dims.ofCoordinates.or (operand'.firstDimension? dims)) i span)).run j = .ok r
  rw [hrange]
  exact contract_succeeds hc _ j

section

variable (h : ∀ f ∈ fs, Succeeds dims f ∧ f.Plain)
include h

theorem resolveFactors_succeeds (n : Nat) :
    ∃ fs' n', (resolveFactors dims fs).run n = .ok ((fs', freeOccurrenceLists dims fs), n') := by
  induction fs generalizing n with
  | nil => exact ⟨[], n, rfl⟩
  | cons f fs ih =>
    rw [forall_mem_cons] at h
    obtain ⟨f', j, hf, _⟩ := h.1.1.run h.1.2 n
    obtain ⟨fs', n', hfs⟩ := ih h.2 j
    refine ⟨f' :: fs', n', ?_⟩
    rw [resolveFactors, StateT.run_bind, hf]
    change (resolveFactors dims fs >>= fun r => pure (f' :: r.1, f.freeOccurrences dims ++ r.2)).run j
      = _
    rw [StateT.run_bind, hfs]
    rfl

theorem Succeeds.product (hc : Contractible (freeOccurrenceLists dims fs)) :
    Succeeds dims (product fs) := by
  intro n
  obtain ⟨fs', j, hrun⟩ := resolveFactors_succeeds h n
  rw [resolve, StateT.run_bind, hrun]
  exact contract_succeeds hc _ j

end

theorem resolveTerms_succeeds {common : List Occurrence} (h : ∀ t ∈ ts, Succeeds dims t ∧ t.Plain)
    (hsame : ∀ t ∈ ts, ∀ k, k ∈ common.map key ↔ k ∈ (t.freeOccurrences dims).map key) (n : Nat) :
    ∃ r, (resolveTerms dims (some common) ts).run n = .ok r := by
  induction ts generalizing n with
  | nil => exact ⟨_, rfl⟩
  | cons t ts ih =>
    rw [forall_mem_cons] at h hsame
    obtain ⟨t', j, ht, _⟩ := h.1.1.run h.1.2 n
    obtain ⟨r, hts⟩ := ih h.2 hsame.2 j
    rw [resolveTerms, StateT.run_bind, ht]
    change ∃ r, ((if sameMembers (common.map key) ((t.freeOccurrences dims).map key) then
      (resolveTerms dims (some common) ts >>= fun r => pure (t' :: r.1, r.2))
      else throw (unequalTerms common (t.freeOccurrences dims)) : Summation _).run j) = .ok r
    rw [if_pos (sameMembers_iff.mpr hsame.1), StateT.run_bind, hts]
    exact ⟨_, rfl⟩

theorem Succeeds.sum {t : Formula} (h : ∀ t' ∈ t :: ts, Succeeds dims t' ∧ t'.Plain)
    (hsame : ∀ t' ∈ ts, ∀ k, k ∈ (t.freeOccurrences dims).map key ↔
      k ∈ (t'.freeOccurrences dims).map key) : Succeeds dims (sum (t :: ts)) := by
  intro n
  rw [forall_mem_cons] at h
  obtain ⟨t', j, ht, _⟩ := h.1.1.run h.1.2 n
  obtain ⟨r, hts⟩ := resolveTerms_succeeds h.2 hsame j
  rw [resolve, StateT.run_bind, resolveTerms, StateT.run_bind, ht]
  change ∃ r, ((if sameMembers ((t.freeOccurrences dims).map key) ((t.freeOccurrences dims).map key)
    then (resolveTerms dims (some (t.freeOccurrences dims)) ts >>= fun r => pure (t' :: r.1, r.2))
    else throw (unequalTerms (t.freeOccurrences dims) (t.freeOccurrences dims)) : Summation _).run j
      >>= fun r => pure ((Formula.sum r.1.1, r.1.2), r.2)) = .ok r
  rw [if_pos (sameMembers_iff.mpr fun _ => Iff.rfl), StateT.run_bind, hts]
  exact ⟨_, rfl⟩

end Succeeds

section OfTerms

variable {dims : Dimensions} {t : Formula}

theorem freeOccurrences_ofTerms (t : Formula) (ts : List Formula) :
    (ofTerms (t :: ts)).freeOccurrences dims = t.freeOccurrences dims := by
  cases ts <;> rfl

theorem conventionAll_eq (r : Reading (Except Error)) (ρ : Assignment) (fs : List Formula) :
    conventionAll r dims ρ fs = fs.mapM (convention r dims ρ) := by
  induction fs with
  | nil => rfl
  | cons f fs ih => rw [conventionAll, ih, mapM_cons]

theorem convention_ofTerms (r : Reading (Except Error)) (ρ : Assignment) :
    (ofTerms (t :: ts)).convention r dims ρ = (do
      let e ← t.convention r dims ρ
      let es ← ts.mapM (convention r dims ρ)
      return if es.isEmpty then e else .sum (e :: es) : Except Error Expr) := by
  cases ts with
  | nil =>
    rw [Formula.ofTerms, mapM_nil]
    exact (bind_pure _).symm
  | cons t' ts =>
    have hrest : conventionAll r dims ρ (t' :: ts) = (t' :: ts).mapM (convention r dims ρ) :=
      conventionAll_eq r ρ _
    rw [Formula.ofTerms, convention, conventionAll, hrest]
    · simp only [bind_assoc, pure_bind]
      refine bind_congr fun e => ?_
      rw [mapM_cons]
      simp only [bind_assoc, pure_bind]
      rfl
    · simp

theorem Succeeds.ofTerms (h : ∀ t' ∈ t :: ts, Succeeds dims t' ∧ t'.Plain)
    (hsame : ∀ t' ∈ ts, ∀ k, k ∈ (t.freeOccurrences dims).map key ↔
      k ∈ (t'.freeOccurrences dims).map key) : Succeeds dims (ofTerms (t :: ts)) := by
  cases ts with
  | nil => exact (h t mem_cons_self).1
  | cons t' ts => exact .sum h hsame

end OfTerms

end Formula

namespace Assignment

theorem lookup_cons (x y : String) (n : Nat) (ρ : Assignment) :
    List.lookup y ((x, n) :: ρ) = if y = x then some n else ρ.lookup y := by
  rw [List.lookup]
  by_cases h : y = x
  · simp [h]
  · simp [h, beq_false_of_ne h]

def value (ρ : Assignment) (x : String) : Nat :=
  (ρ.lookup x).getD 0

theorem lookup_eq_value {x : String} (h : (ρ.lookup x).isSome) : ρ.lookup x = some (ρ.value x) := by
  obtain ⟨n, hn⟩ := Option.isSome_iff_exists.mp h
  simp [Assignment.value, hn]

end Assignment

namespace Formula

open Occurrence

def connectionHead (mark : Diacritic) : TensorHead :=
  ⟨mark.connectionName, mark.connectionBase, [.upper, .lower, .lower]⟩

def connectionIndex (height : Height) (i a b : Nat) : IndexVector :=
  match height with
  | .upper => [i, a, b]
  | .lower => [a, i, b]

def connectionSign : Height → List Expr
  | .upper => []
  | .lower => [.num (-1 : Int)]

def connectionSum (r : Reading (Except Error)) (mark : Diacritic) (d : Nat) (height : Height)
    (i b : Nat) (inner : Nat → Except Error Expr) : Except Error Expr := do
  let terms ← (List.range d).mapM fun a => do
    let connection ← r.component (connectionHead mark) (connectionIndex height i a b) .none
    let e ← inner a
    return .product (connectionSign height ++ [connection, e])
  return .sum terms

/-- One component of a repeated covariant derivative of a tensor, the outermost index first: a
partial derivative and a sum for each slot. -/
def covariantComponent (r : Reading (Except Error)) (mark : Diacritic) (d range : Nat)
    (t : TensorHead) (span : Span) : List Nat → IndexVector → Except Error Expr
  | [], index => r.component t index span
  | b :: bs, index => do
    let e ← covariantComponent r mark d range t span bs index
    let e ← r.differentiate e b (some range) .none
    let corrections ← t.heights.zipIdx.mapM fun (height, slot) =>
      connectionSum r mark d height (index.getD slot 0) b fun a =>
        covariantComponent r mark d range t span bs (index.set slot a)
    return if corrections.isEmpty then e else .sum (e :: corrections)

section Correction

variable {dims : Dimensions} {d : Nat} {mark : Diacritic} {dummy b : String} {height : Height}

def connectionRef (mark : Diacritic) (name : String) (height : Height) (dummy b : String) :
    TensorRef :=
  .ofBase mark.connectionBase
    (match height with
      | .upper => [.upper name, .lower dummy, .lower b]
      | .lower => [.upper dummy, .lower name, .lower b]) .none

theorem head_connectionRef : (connectionRef mark name height dummy b).head = connectionHead mark := by
  cases height <;> rfl

theorem freeOccurrences_connectionTerm (f : Formula) :
    (connectionTerm mark name height dummy (.lower b) f).freeOccurrences dims =
      lone (lone (tensorOccurrences dims (connectionRef mark name height dummy b)) ++
        f.freeOccurrences dims) := by
  cases height <;> simp [connectionTerm, freeOccurrences, freeOccurrenceLists, integer, connection,
    connectionRef]

theorem names_connectionRef (dims : Dimensions) :
    ((tensorOccurrences dims (connectionRef mark name height dummy b)).map (·.name)).Perm
      [name, dummy, b] := by
  rw [map_name_tensorOccurrences]
  cases height with
  | upper => exact .refl _
  | lower => exact .swap _ _ _

theorem keys_connectionRef (dims : Dimensions) (mark : Diacritic) :
    ((tensorOccurrences dims (connectionRef mark name height dummy b)).map key).Perm
      [(name, height), (dummy, height.flip), (b, .lower)] := by
  cases height with
  | upper => exact .refl _
  | lower => exact .swap _ _ _

theorem count_connectionRef_append (more : List Occurrence) (x : String) :
    count x (tensorOccurrences dims (connectionRef mark name height dummy b) ++ more) =
      [name, dummy, b].count x + (more.map (·.name)).count x := by
  unfold count
  rw [map_append, count_append, (names_connectionRef dims).count_eq]

theorem dimension_connectionRef (hd : dims.ofTensor (connectionHead mark) = some d) :
    ∀ o ∈ tensorOccurrences dims (connectionRef mark name height dummy b),
      o.dimension = some d := by
  intro o ho
  obtain ⟨key, _, rfl⟩ := mem_map.mp ho
  rw [← hd, ← head_connectionRef]

theorem indexValues_connectionRef {i a k : Nat} (hi : ρ.lookup name = some i)
    (ha : ρ.lookup dummy = some a) (hk : ρ.lookup b = some k) (span : Span) :
    ρ.indexValues span (connectionRef mark name height dummy b).indices =
      .ok (connectionIndex height i a k) := by
  have hvalue {x : String} {n : Nat} (h : ρ.lookup x = some n) (height : Height) :
      ρ.indexValue span (.named x height) = .ok n := by
    simp only [Assignment.indexValue, Index.named, h]
    rfl
  cases height with
  | upper | lower =>
    simp only [connectionRef, TensorRef.ofBase, Assignment.indexValues, mapM_cons,
      mapM_nil, Index.upper, Index.lower, hvalue hi, hvalue ha, hvalue hk]
    rfl

/-- An operand of the term with the connection for `name`: the dummy is one of its indices, and
no other one is in the connection. -/
structure Corrects (dims : Dimensions) (d : Nat) (name dummy b : String) (f : Formula) : Prop where
  distinct : [name, dummy, b].Nodup
  nodup : ((f.freeOccurrences dims).map (·.name)).Nodup
  mem_dummy : dummy ∈ (f.freeOccurrences dims).map (·.name)
  dimension_dummy : ∀ o ∈ f.freeOccurrences dims, o.name = dummy → o.dimension = some d
  name_not_mem : name ∉ (f.freeOccurrences dims).map (·.name)
  index_not_mem : b ∉ (f.freeOccurrences dims).map (·.name)

namespace Corrects

variable (h : Corrects dims d name dummy b f)
include h

theorem nodup_connection (mark : Diacritic) (height : Height) :
    ((tensorOccurrences dims (connectionRef mark name height dummy b)).map (·.name)).Nodup :=
  (names_connectionRef dims).nodup_iff.mpr h.distinct

theorem paired_eq (mark : Diacritic) (height : Height) :
    paired (tensorOccurrences dims (connectionRef mark name height dummy b) ++
      f.freeOccurrences dims) = [dummy] := by
  apply paired_eq_singleton
  · rw [count_connectionRef_append, count_eq_one_of_mem h.distinct (by simp),
      count_eq_one_of_mem h.nodup h.mem_dummy]
  · intro x hx
    rw [count_connectionRef_append]
    have hleft := nodup_iff_count_le_one.mp h.distinct x
    have hright := nodup_iff_count_le_one.mp h.nodup x
    by_cases hmem : x ∈ [name, dummy, b]
    · -- the name and the index of the derivative are not in the operand
      have hzero : ((f.freeOccurrences dims).map (·.name)).count x = 0 := by
        apply count_eq_zero.mpr
        rintro hf
        simp only [mem_cons, not_mem_nil, or_false] at hmem
        rcases hmem with rfl | rfl | rfl
        · exact h.name_not_mem hf
        · exact hx rfl
        · exact h.index_not_mem hf
      omega
    · rw [count_eq_zero.mpr hmem]
      omega

theorem range?_eq (hd : dims.ofTensor (connectionHead mark) = some d) (height : Height) :
    range? (tensorOccurrences dims (connectionRef mark name height dummy b) ++
      f.freeOccurrences dims) dummy = some d := by
  apply range?_eq_some
  · rw [map_append]
    exact mem_append_right _ h.mem_dummy
  · intro o ho hname
    rcases mem_append.mp ho with ho | ho
    · exact dimension_connectionRef hd o ho
    · exact h.dimension_dummy o ho hname

section

variable (hd : dims.ofTensor (connectionHead mark) = some d)
  (hkeys : ((tensorOccurrences dims (connectionRef mark name height dummy b) ++ f.freeOccurrences dims).map key).Nodup)
include hd hkeys

theorem contractible :
    Contractible (tensorOccurrences dims (connectionRef mark name height dummy b) ++
      f.freeOccurrences dims) where
  nodup := hkeys
  ranges o ho o' ho' heq := by
    have hshared {o o' : Occurrence} (heq : o.name = o'.name)
        (ho : o ∈ tensorOccurrences dims (connectionRef mark name height dummy b))
        (ho' : o' ∈ f.freeOccurrences dims) : o.dimension = o'.dimension := by
      have hmem : o.name ∈ [name, dummy, b] :=
        (names_connectionRef dims).mem_iff.mp (mem_map_of_mem ho)
      have hmem' := mem_map_of_mem (f := (·.name)) ho'
      rw [← heq] at hmem'
      simp only [mem_cons, not_mem_nil, or_false] at hmem
      rcases hmem with hn | hn | hn
      · exact absurd (hn ▸ hmem') h.name_not_mem
      · rw [dimension_connectionRef hd o ho, h.dimension_dummy o' ho' (heq ▸ hn)]
      · exact absurd (hn ▸ hmem') h.index_not_mem
    rcases mem_append.mp ho with ho | ho <;> rcases mem_append.mp ho' with ho' | ho'
    · rw [inj_on_of_nodup_map (h.nodup_connection mark height) ho ho' heq]
    · exact hshared heq ho ho'
    · exact (hshared heq.symm ho' ho).symm
    · rw [inj_on_of_nodup_map h.nodup ho ho' heq]

theorem succeeds (hf : Succeeds dims f) (hplain : f.Plain)
    (hnames : ∀ k, summationName k ∉ [name, dummy, b]) :
    Succeeds dims (connectionTerm mark name height dummy (.lower b) f) := by
  have hconnection : Succeeds dims (tensor (connectionRef mark name height dummy b)) ∧
      (tensor (connectionRef mark name height dummy b)).Plain := by
    refine ⟨.tensor (.of_nodup (h.nodup_connection mark height)), rfl, fun k hk => hnames k ?_⟩
    rw [← (names_connectionRef dims).mem_iff, map_name_tensorOccurrences]
    exact hk
  have hnumber (q : Number) : Succeeds dims (num q) ∧ (num q).Plain :=
    ⟨fun n => ⟨_, rfl⟩, rfl, fun _ => not_mem_nil⟩
  have hc := h.contractible hd hkeys
  rw [← lone_of_nodup (h.nodup_connection mark height)] at hc
  cases height with
  | upper =>
    refine .product ?_ ?_
    · simp only [forall_mem_cons]
      exact ⟨hconnection, ⟨hf, hplain⟩, nofun⟩
    · simpa [freeOccurrenceLists, freeOccurrences, connection, connectionRef] using hc
  | lower =>
    refine .product ?_ ?_
    · simp only [forall_mem_cons]
      exact ⟨hnumber _, hconnection, ⟨hf, hplain⟩, nofun⟩
    · simpa [freeOccurrenceLists, freeOccurrences, connection, connectionRef, integer] using hc

end

theorem convention_eq (hd : dims.ofTensor (connectionHead mark) = some d) (height : Height)
    (r : Reading (Except Error)) {i k : Nat} (hi : ρ.lookup name = some i)
    (hk : ρ.lookup b = some k) :
    (connectionTerm mark name height dummy (.lower b) f).convention r dims ρ =
      connectionSum r mark d height i k fun a => f.convention r dims ((dummy, a) :: ρ) := by
  have hconnection (a : Nat) :
      (tensor (connectionRef mark name height dummy b)).convention r dims ((dummy, a) :: ρ) =
        r.component (connectionHead mark) (connectionIndex height i a k) .none := by
    have hne : name ≠ dummy ∧ b ≠ dummy := by
      have := h.distinct
      simp only [nodup_cons, mem_cons, not_mem_nil, or_false] at this
      grind
    have hname : ((dummy, a) :: ρ).lookup name = some i := by
      rw [Assignment.lookup_cons, if_neg hne.1, hi]
    have hb : ((dummy, a) :: ρ).lookup b = some k := by
      rw [Assignment.lookup_cons, if_neg hne.2, hk]
    have hdummy : ((dummy, a) :: ρ).lookup dummy = some a := by
      rw [Assignment.lookup_cons, if_pos rfl]
    rw [convention, sumOverPaired, paired_of_nodup (h.nodup_connection mark height)]
    change r.componentAt ((dummy, a) :: ρ) (connectionRef mark name height dummy b) = _
    unfold Reading.componentAt
    rw [indexValues_connectionRef hname hdummy hb, head_connectionRef]
    rfl
  have hoccurrences : lone (tensorOccurrences dims (connectionRef mark name height dummy b)) ++
      f.freeOccurrences dims = tensorOccurrences dims (connectionRef mark name height dummy b) ++
        f.freeOccurrences dims := by
    rw [lone_of_nodup (h.nodup_connection mark height)]
  have hsum (body : Assignment → Except Error Expr) :
      sumOverPaired dims (lone (tensorOccurrences dims (connectionRef mark name height dummy b)) ++
        f.freeOccurrences dims) body ρ =
        (do return .sum (← (List.range d).mapM fun a => body ((dummy, a) :: ρ))) := by
    rw [hoccurrences, sumOverPaired, h.paired_eq, map_singleton, h.range?_eq hd]
    rfl
  cases height with
  | upper =>
    have hfactor (a : Nat) : (connection mark [.upper name, .lower dummy, .lower b]).convention r
        dims ((dummy, a) :: ρ) = _ := hconnection a
    rw [connectionTerm, convention, freeOccurrenceLists, freeOccurrenceLists, freeOccurrenceLists,
      append_nil]
    refine (hsum _).trans ?_
    simp only [conventionAll, hfactor, bind_assoc, pure_bind]
    rfl
  | lower =>
    have hfactor (a : Nat) : (connection mark [.upper dummy, .lower name, .lower b]).convention r
        dims ((dummy, a) :: ρ) = _ := hconnection a
    rw [connectionTerm, convention, freeOccurrenceLists, freeOccurrenceLists, freeOccurrenceLists,
      freeOccurrenceLists, append_nil]
    refine (hsum _).trans ?_
    simp only [conventionAll, hfactor, integer, convention, bind_assoc, pure_bind]
    rfl

end Corrects

end Correction

end Formula

/-! Sums over several names. In range, they do not depend on the order of the names. -/

variable {f : α → Except Error β} {xs : List α} {P : Assignment → Prop} {r : TensorRef}

open List hiding count

namespace Assignment

def Same (ρ σ : Assignment) : Prop :=
  ∀ x, ρ.lookup x = σ.lookup x

theorem Same.cons {ρ σ : Assignment} (h : ρ.Same σ) (name : String) (v : Nat) :
    Same ((name, v) :: ρ) ((name, v) :: σ) := by
  intro x
  rw [lookup_cons, lookup_cons, h x]

theorem same_swap {name name' : String} (hne : name ≠ name') (v w : Nat) (ρ : Assignment) :
    Same ((name, v) :: (name', w) :: ρ) ((name', w) :: (name, v) :: ρ) := by
  intro x
  simp only [lookup_cons]
  by_cases hx : x = name
  · simp [hx, hne]
  · simp [hx]

end Assignment

namespace Formula

/-- The values of some names added to an assignment, the last name outermost. -/
def assignments : List (String × Nat) → Assignment → List Assignment
  | [], ρ => [ρ]
  | p :: names, ρ => (assignments names ρ).flatMap fun σ => (List.range p.2).map fun v => (p.1, v) :: σ

theorem assignments_append (names names' : List (String × Nat)) (ρ : Assignment) :
    assignments (names ++ names') ρ = (assignments names' ρ).flatMap (assignments names) := by
  induction names with
  | nil => simp [assignments]
  | cons p names ih => rw [cons_append, assignments, ih, flatMap_assoc]; rfl

def Respects {α : Type} (F : Assignment → α) : Prop :=
  ∀ ρ σ, ρ.Same σ → F ρ = F σ

theorem Respects.inner {α : Type} {F : Assignment → α} (hF : Respects F) (p : String × Nat) :
    Respects fun σ => (List.range p.2).map fun v => F ((p.1, v) :: σ) := by
  intro ρ σ h
  apply map_congr_left
  intro v _
  exact hF _ _ (h.cons _ _)

theorem map_assignments_cons {α : Type} (F : Assignment → α) (p : String × Nat)
    (names : List (String × Nat)) (ρ : Assignment) : (assignments (p :: names) ρ).map F =
      ((assignments names ρ).map fun σ => (List.range p.2).map fun v => F ((p.1, v) :: σ)).flatten := by
  simp [assignments, Function.comp_def, flatMap_def]

theorem flatMap_map_perm (xs : List α) (ys : List β) (f : α → β → γ) :
    (xs.flatMap fun x => ys.map fun y => f x y).Perm (ys.flatMap fun y => xs.map fun x => f x y) := by
  rw [← Multiset.coe_eq_coe]
  simpa using Multiset.bind_map_comm (xs : Multiset α) (ys : Multiset β) (f := f)

theorem map_assignments_perm {names names' : List (String × Nat)} (hperm : names.Perm names')
    (hnodup : (names.map (·.1)).Nodup) {α : Type} {F : Assignment → α} (hF : Respects F)
    (ρ : Assignment) : ((assignments names ρ).map F).Perm ((assignments names' ρ).map F) := by
  induction hperm generalizing α with
  | nil => exact .refl _
  | cons p _ ih =>
    rw [map_cons, nodup_cons] at hnodup
    rw [map_assignments_cons, map_assignments_cons]
    exact (ih hnodup.2 (hF.inner p)).flatten
  | swap p q names =>
    have hne : q.1 ≠ p.1 := by
      rw [map_cons, map_cons, nodup_cons, mem_cons, not_or] at hnodup
      exact hnodup.1.1
    simp only [assignments, flatMap_assoc, flatMap_map, map_flatMap, map_map, Function.comp_def]
    apply List.Perm.flatMap_left
    intro σ _
    have hswap (v w : Nat) : F ((q.1, v) :: (p.1, w) :: σ) = F ((p.1, w) :: (q.1, v) :: σ) :=
      hF _ _ (Assignment.same_swap hne v w σ)
    simp only [hswap]
    exact flatMap_map_perm _ _ fun w v => F ((p.1, w) :: (q.1, v) :: σ)
  | trans h₁ _ ih₁ ih₂ =>
    exact (ih₁ hnodup hF).trans (ih₂ ((h₁.map _).nodup_iff.mp hnodup) hF)

section Sums

variable {names : List (String × Nat)} {body : Assignment → Except Error Expr}

/-- All sums over the names stay in range, where `P` is what is asked of the body. -/
def SumsInRange : List (String × Nat) → (Assignment → Except Error Expr) → (Assignment → Prop) →
    Assignment → Prop
  | [], _, P => P
  | p :: names, body, P =>
    SumsInRange names (fun σ => Expr.sum <$> (List.range p.2).mapM fun v => body ((p.1, v) :: σ))
      fun σ => (∀ v < p.2, P ((p.1, v) :: σ)) ∧
        ∀ es, ((List.range p.2).mapM fun v => body ((p.1, v) :: σ)) = .ok es → Expr.SumExact es

theorem sumOverNames_cons (p : String × Nat) (names : List (String × Nat))
    (body : Assignment → Except Error Expr) :
    sumOverNames (p :: names) body = sumOverNames names fun σ =>
      Expr.sum <$> (List.range p.2).mapM fun v => body ((p.1, v) :: σ) := rfl

theorem mapM_eq_ok {w : α → β} (h : ∀ x ∈ xs, f x = .ok (w x)) : xs.mapM f = .ok (xs.map w) := by
  induction xs with
  | nil => rfl
  | cons x xs ih =>
    rw [forall_mem_cons] at h
    rw [mapM_cons, h.1, ih h.2]
    rfl

theorem exists_of_mapM_eq_ok {ys : List β} (h : xs.mapM f = .ok ys) :
    ∀ x ∈ xs, ∃ y, f x = .ok y := by
  induction xs generalizing ys with
  | nil => simp
  | cons x xs ih =>
    rw [mapM_cons] at h
    obtain ⟨y, hy, h⟩ := Except.bind_eq_ok h
    obtain ⟨ys', hys, -⟩ := Except.bind_eq_ok h
    rw [forall_mem_cons]
    exact ⟨⟨y, hy⟩, ih hys⟩

theorem exists_of_mem_mapM {ys : List β} (h : xs.mapM f = .ok ys) :
    ∀ y ∈ ys, ∃ x ∈ xs, f x = .ok y := by
  induction xs generalizing ys with
  | nil =>
    cases h
    simp
  | cons x xs ih =>
    rw [mapM_cons] at h
    obtain ⟨y, hy, h⟩ := Except.bind_eq_ok h
    obtain ⟨ys', hys, hcons⟩ := Except.bind_eq_ok h
    cases hcons
    rw [forall_mem_cons]
    refine ⟨⟨x, mem_cons_self, hy⟩, fun z hz => ?_⟩
    obtain ⟨x', hx', hz⟩ := ih hys z hz
    exact ⟨x', mem_cons_of_mem _ hx', hz⟩

theorem exists_sumOverNames_iff : (∃ e, sumOverNames names body ρ = .ok e) ↔
    ∀ σ ∈ assignments names ρ, ∃ e, body σ = .ok e := by
  induction names generalizing body with
  | nil => simp [sumOverNames, assignments]
  | cons p names ih =>
    rw [sumOverNames_cons, ih]
    simp only [assignments, mem_flatMap, mem_map]
    constructor
    · rintro h _ ⟨σ, hσ, v, hv, rfl⟩
      obtain ⟨e, he⟩ := h σ hσ
      obtain ⟨es, hes, -⟩ := Except.bind_eq_ok he
      exact exists_of_mapM_eq_ok hes v hv
    · intro h σ hσ
      choose! w hw using fun v hv => h _ ⟨σ, hσ, v, hv, rfl⟩
      exact ⟨_, by rw [mapM_eq_ok hw]; rfl⟩

theorem exists_mem_assignments (h : ∀ p ∈ names, 0 < p.2) : ∃ σ, σ ∈ assignments names ρ := by
  induction names with
  | nil => exact ⟨ρ, mem_singleton_self ρ⟩
  | cons p names ih =>
    rw [forall_mem_cons] at h
    obtain ⟨σ, hσ⟩ := ih h.2
    refine ⟨(p.1, 0) :: σ, mem_flatMap.mpr ⟨σ, hσ, ?_⟩⟩
    exact mem_map_of_mem (mem_range.mpr h.1)

theorem SumsInRange.of_mem (h : SumsInRange names body P ρ) : ∀ σ ∈ assignments names ρ, P σ := by
  induction names generalizing body P with
  | nil =>
    intro σ hσ
    rw [mem_singleton.mp hσ]
    exact h
  | cons p names ih =>
    simp only [assignments, mem_flatMap, mem_map, mem_range]
    rintro _ ⟨σ, hσ, v, hv, rfl⟩
    exact (ih h σ hσ).1 v hv

/-- In range, the value of a sum over names adds up to the values of the body. It is a sum unless
there are no names. -/
theorem sumOverNames_eq {w : Assignment → Expr}
    (hbody : ∀ σ ∈ assignments names ρ, body σ = .ok (w σ)) (hrange : SumsInRange names body P ρ)
    (hP : ∀ σ ∈ assignments names ρ, P σ → Expr.Built False (w σ)) :
    ∃ e, sumOverNames names body ρ = .ok e ∧ Expr.Built False e ∧
      Expr.tally [e] = Expr.tally ((assignments names ρ).map w) ∧
      (names = [] ∨ ∃ es, e = .sum es ∧ Expr.SumInRange es) := by
  induction names generalizing body w P with
  | nil =>
    have hmem : ρ ∈ assignments [] ρ := mem_singleton_self ρ
    exact ⟨w ρ, hbody ρ hmem, hP ρ hmem hrange, rfl, .inl rfl⟩
  | cons p names ih =>
    have hmem {σ : Assignment} (hσ : σ ∈ assignments names ρ) {v : Nat} (hv : v ∈ List.range p.2) :
        (p.1, v) :: σ ∈ assignments (p :: names) ρ := by
      rw [assignments, mem_flatMap]
      exact ⟨σ, hσ, mem_map_of_mem hv⟩
    let row (σ : Assignment) : List Expr := (List.range p.2).map fun v => w ((p.1, v) :: σ)
    have hrow (σ : Assignment) (hσ : σ ∈ assignments names ρ) :
        ((List.range p.2).mapM fun v => body ((p.1, v) :: σ)) = .ok (row σ) :=
      mapM_eq_ok fun v hv => hbody _ (hmem hσ hv)
    have hinRange (σ : Assignment) (hσ : σ ∈ assignments names ρ) : Expr.SumInRange (row σ) := by
      have hrange : SumsInRange names _ _ ρ := hrange
      obtain ⟨hparts, hexact⟩ := hrange.of_mem σ hσ
      refine ⟨hexact _ (hrow σ hσ), ?_⟩
      intro e he
      obtain ⟨v, hv, rfl⟩ := mem_map.mp he
      exact hP _ (hmem hσ hv) (hparts v (mem_range.mp hv))
    have hsums (σ : Assignment) (hσ : σ ∈ assignments names ρ) :
        (Expr.sum <$> (List.range p.2).mapM fun v => body ((p.1, v) :: σ)) =
          .ok (Expr.sum (row σ)) := by
      rw [hrow σ hσ]
      rfl
    obtain ⟨e, he, hbuilt, htally, hform⟩ :=
      ih hsums hrange fun σ hσ _ => (hinRange σ hσ).built_sum
    refine ⟨e, he, hbuilt, ?_, .inr ?_⟩
    · rw [htally, map_assignments_cons, ← Expr.tally_map_sum, map_map]
      · rfl
      · intro es hes
        obtain ⟨σ, hσ, rfl⟩ := mem_map.mp hes
        exact hinRange σ hσ
    · rcases hform with rfl | hform
      · have hself : ρ ∈ assignments [] ρ := mem_singleton_self ρ
        exact ⟨row ρ, Except.ok.inj (he.symm.trans (hsums ρ hself)), hinRange ρ hself⟩
      · exact hform

end Sums

theorem toOption_eq_some {x : Except Error α} {a : α} : x.toOption = some a ↔ x = .ok a := by
  cases x <;> simp [Except.toOption]

theorem toOption_eq_none {x : Except Error α} : x.toOption = none ↔ ¬ ∃ a, x = .ok a := by
  cases x <;> simp [Except.toOption]

end Formula

/-! The contraction that raises and lowers the indices of a tensor: one factor of the metric for
each slot whose height differs from the one asked for, and a dummy in that slot of the tensor. -/

namespace Occurrence

theorem Contractible.of_range {occurrences : List Occurrence} {n : Nat}
    (hkeys : (occurrences.map key).Nodup) (h : ∀ o ∈ occurrences, o.dimension = some n) :
    Contractible occurrences :=
  ⟨hkeys, fun o ho o' ho' _ => (h o ho).trans (h o' ho').symm⟩

end Occurrence

namespace Formula

open Occurrence

def differs (known : List Height) (p : Index × Nat) : Bool :=
  known[p.2]? != some p.1.height

def raisedSlots (known : List Height) (indices : List Index) : List (Index × Nat) :=
  indices.zipIdx.filter (differs known)

def keptIndices (known : List Height) (indices : List Index) : List Index :=
  (indices.zipIdx.filter fun p => !differs known p).map (·.1)

def slotIndex (known : List Height) (dummy : Nat → String) (p : Index × Nat) : Index :=
  if differs known p then .named (dummy p.2) p.1.height.flip else p.1

def contractedIndices (known : List Height) (dummy : Nat → String) (indices : List Index) :
    List Index :=
  indices.zipIdx.map (slotIndex known dummy)

def metricFactor (base : String) (dummy : Nat → String) (spans : Nat → Span) (p : Index × Nat) :
    TensorRef :=
  .ofBase base [p.1, .named (dummy p.2) p.1.height] (spans p.2)

def contractedFactors (known : Entry) (base : String) (dummy : Nat → String) (spans : Nat → Span)
    (t : TensorRef) : List TensorRef :=
  ⟨known.name, known.base, contractedIndices known.heights dummy t.indices, t.span⟩
    :: (raisedSlots known.heights t.indices).map (metricFactor base dummy spans)

/-- Names for the dummies: all different, and none of them in use. -/
structure Dummies (known : List Height) (indices : List Index) (dummy : Nat → String) : Prop where
  names : (indices.filterMap Index.name?).Nodup
  nodup : ((raisedSlots known indices).map fun p => dummy p.2).Nodup
  fresh : ∀ p ∈ raisedSlots known indices, dummy p.2 ∉ indices.filterMap Index.name?
  written : ∀ k, summationName k ∉ indices.filterMap Index.name? ++
    (raisedSlots known indices).map fun p => dummy p.2

theorem mismatches_eq (known : List Height) (indices : List Index) :
    Session.mismatches known (indices.map (·.height)) = (raisedSlots known indices).map (·.2) := by
  have hslots : List.range (indices.map (·.height)).length = indices.zipIdx.map (·.2) := by
    rw [length_map, zipIdx_map_snd, range_eq_range']
  unfold Session.mismatches raisedSlots
  rw [hslots, filter_map]
  congr 1
  apply filter_congr
  intro p hp
  have hget : indices[p.2]? = some p.1 := mem_zipIdx_iff_getElem?.mp hp
  simp [differs, hget]

section Slots

variable (known : List Height) (indices : List Index)

theorem indices_perm :
    indices.Perm ((raisedSlots known indices).map (·.1) ++ keptIndices known indices) := by
  have hsplit := (filter_append_perm (differs known) indices.zipIdx).map (·.1)
  rw [map_append, zipIdx_map_fst] at hsplit
  exact hsplit.symm

theorem contractedIndices_perm (dummy : Nat → String) :
    (contractedIndices known dummy indices).Perm
      ((raisedSlots known indices).map (fun p => .named (dummy p.2) p.1.height.flip) ++
        keptIndices known indices) := by
  have hsplit := (filter_append_perm (differs known) indices.zipIdx).map
    (slotIndex known dummy)
  rw [map_append] at hsplit
  have hraised : ∀ p ∈ indices.zipIdx.filter (differs known),
      slotIndex known dummy p = .named (dummy p.2) p.1.height.flip :=
    fun p hp => if_pos (mem_filter.mp hp).2
  have hkept : ∀ p ∈ indices.zipIdx.filter (fun p => !differs known p),
      slotIndex known dummy p = p.1 :=
    fun p hp => if_neg (by simpa using (mem_filter.mp hp).2)
  rw [map_congr_left hraised, map_congr_left hkept] at hsplit
  exact hsplit.symm

theorem names_contractedIndices (dummy : Nat → String) :
    ((contractedIndices known dummy indices).filterMap Index.name?).Perm
      ((raisedSlots known indices).map (fun p => dummy p.2) ++
        (keptIndices known indices).filterMap Index.name?) := by
  have hperm := (contractedIndices_perm known indices dummy).filterMap Index.name?
  rw [filterMap_append, filterMap_map] at hperm
  exact hperm.trans (.append_right _ (List.Perm.of_eq (congrFun filterMap_eq_map' _)))

end Slots

theorem namedIndices_perm {xs ys : List Index} (h : xs.Perm ys) :
    (namedIndices xs).Perm (namedIndices ys) :=
  h.filterMap _

theorem map_key_tensorOccurrences (dims : Dimensions) (t : TensorRef) :
    (tensorOccurrences dims t).map key = namedIndices t.indices := by
  rw [tensorOccurrences, map_map]
  exact map_id' _

theorem keys_contractedFactors (dims : Dimensions) (known : Entry) (base : String)
    (dummy : Nat → String) (spans : Nat → Span) (t : TensorRef) :
    (((contractedFactors known base dummy spans t).flatMap (tensorOccurrences dims)).map key).Perm
      (namedIndices t.indices ++ (raisedSlots known.heights t.indices).flatMap fun p =>
        [(dummy p.2, p.1.height.flip), (dummy p.2, p.1.height)]) := by
  have hnamed (p : Index × Nat) (height : Height) :
      namedIndices [.named (dummy p.2) height] = [(dummy p.2, height)] := rfl
  have hfactor (p : Index × Nat) :
      namedIndices (metricFactor base dummy spans p).indices =
        namedIndices [p.1] ++ [(dummy p.2, p.1.height)] :=
    namedIndices_append [p.1] [.named (dummy p.2) p.1.height]
  have hflat (ps : List (Index × Nat)) (g : Index × Nat → Index) :
      namedIndices (ps.map g) = ps.flatMap fun p => namedIndices [g p] := by
    induction ps with
    | nil => rfl
    | cons p ps ih => rw [map_cons, flatMap_cons, ← ih]; exact namedIndices_append [g p] _
  have hasked := namedIndices_perm (indices_perm known.heights t.indices)
  have hcontracted := namedIndices_perm (contractedIndices_perm known.heights t.indices dummy)
  rw [namedIndices_append, hflat] at hasked hcontracted
  simp only [hnamed] at hcontracted
  rw [contractedFactors, flatMap_cons, map_append, map_key_tensorOccurrences,
    flatMap_map, map_flatMap]
  simp only [map_key_tensorOccurrences, hfactor]
  have hshuffle (ws xs ys zs : List (String × Height)) :
      ((ws ++ xs) ++ (ys ++ zs)).Perm ((ys ++ xs) ++ (ws ++ zs)) := by
    rw [← Multiset.coe_eq_coe]
    simp only [← Multiset.coe_add]
    abel
  refine (hcontracted.append (flatMap_append_perm _ _ _).symm).trans ?_
  refine (hshuffle _ _ _ _).trans ?_
  exact hasked.symm.append (flatMap_append_perm _ _ _)

namespace Dummies

variable {known : List Height} {indices : List Index} {dummy : Nat → String}
  (h : Dummies known indices dummy)
include h

theorem nodup_kept : ((keptIndices known indices).filterMap Index.name?).Nodup ∧
    ∀ p ∈ raisedSlots known indices, dummy p.2 ∉ (keptIndices known indices).filterMap Index.name? := by
  have hperm := (indices_perm known indices).filterMap Index.name?
  rw [filterMap_append] at hperm
  refine ⟨(hperm.nodup_iff.mp h.names).of_append_right, fun p hp hmem => h.fresh p hp ?_⟩
  exact hperm.mem_iff.mpr (mem_append_right _ hmem)

theorem nodup_contractedIndices :
    ((contractedIndices known dummy indices).filterMap Index.name?).Nodup := by
  obtain ⟨hnodup, hfresh⟩ := h.nodup_kept
  rw [(names_contractedIndices known indices dummy).nodup_iff]
  refine h.nodup.append hnodup fun x hx hkept => ?_
  obtain ⟨p, hp, rfl⟩ := mem_map.mp hx
  exact hfresh p hp hkept

theorem nodup_metricFactor (base : String) (spans : Nat → Span) {p : Index × Nat}
    (hp : p ∈ raisedSlots known indices) :
    ((metricFactor base dummy spans p).indices.filterMap Index.name?).Nodup := by
  have hmem : p.1 ∈ indices := fst_mem_of_mem_zipIdx (mem_filter.mp hp).1
  have hdummy : (Index.named (dummy p.2) p.1.height).name? = some (dummy p.2) := rfl
  change ([p.1, Index.named (dummy p.2) p.1.height].filterMap Index.name?).Nodup
  cases hname : p.1.name? with
  | none => simp [hname, hdummy]
  | some x =>
    have hne : x ≠ dummy p.2 := by
      rintro rfl
      exact h.fresh p hp (mem_filterMap.mpr ⟨p.1, hmem, hname⟩)
    simpa [filterMap_cons, hname, hdummy] using hne

theorem nodup_keys : (namedIndices indices ++ (raisedSlots known indices).flatMap fun p =>
    [(dummy p.2, p.1.height.flip), (dummy p.2, p.1.height)]).Nodup := by
  refine List.Nodup.append ?_ ?_ fun k hk hdummy => ?_
  · have hnames := h.names
    rw [← map_fst_namedIndices] at hnames
    exact hnames.of_map
  · rw [nodup_flatMap]
    refine ⟨fun p _ => ?_, (pairwise_map.mp h.nodup).imp fun {p q} hne => ?_⟩
    · cases p.1.height <;> simp [Height.flip]
    · intro k hk hk'
      simp only [mem_cons, not_mem_nil, or_false] at hk hk'
      apply hne
      rcases hk with rfl | rfl <;> rcases hk' with heq | heq <;> exact congrArg Prod.fst heq
  · obtain ⟨p, hp, hmem⟩ := mem_flatMap.mp hdummy
    have hfst : k.1 = dummy p.2 := by
      simp only [mem_cons, not_mem_nil, or_false] at hmem
      rcases hmem with rfl | rfl <;> rfl
    apply h.fresh p hp
    rw [← hfst, ← map_fst_namedIndices]
    exact mem_map_of_mem hk

end Dummies

section Factors

variable {dims : Dimensions} {known : Entry} {base : String} {dummy : Nat → String}
  {spans : Nat → Span} {t : TensorRef} {refs : List TensorRef}
  (hrefs : refs.Perm (contractedFactors known base dummy spans t))
  (h : Dummies known.heights t.indices dummy)
include hrefs h

theorem nodup_factor (hr : r ∈ refs) : (r.indices.filterMap Index.name?).Nodup := by
  rcases mem_cons.mp (hrefs.mem_iff.mp hr) with rfl | hr
  · exact h.nodup_contractedIndices
  · obtain ⟨p, hp, rfl⟩ := mem_map.mp hr
    exact h.nodup_metricFactor base spans hp

omit h in
theorem mem_names_factor (hr : r ∈ refs) {x : String} (hx : x ∈ r.indices.filterMap Index.name?) :
    x ∈ t.indices.filterMap Index.name? ++
      (raisedSlots known.heights t.indices).map fun p => dummy p.2 := by
  have hasked := (indices_perm known.heights t.indices).filterMap Index.name?
  rw [filterMap_append] at hasked
  rw [mem_append]
  rcases mem_cons.mp (hrefs.mem_iff.mp hr) with rfl | hr
  · rw [(names_contractedIndices known.heights t.indices dummy).mem_iff, mem_append] at hx
    exact hx.symm.imp_left fun hkept => hasked.mem_iff.mpr (mem_append_right _ hkept)
  · obtain ⟨p, hp, rfl⟩ := mem_map.mp hr
    obtain ⟨i, hi, hname⟩ := mem_filterMap.mp hx
    simp only [metricFactor, TensorRef.ofBase, mem_cons, not_mem_nil, or_false] at hi
    rcases hi with rfl | rfl
    · have hmem : p.1 ∈ t.indices := fst_mem_of_mem_zipIdx (mem_filter.mp hp).1
      exact .inl (mem_filterMap.mpr ⟨p.1, hmem, hname⟩)
    · cases hname
      exact .inr (mem_map_of_mem hp)

theorem plain_contraction : (product (refs.map .tensor)).Plain := by
  refine ⟨?_, fun k hk => h.written k ?_⟩
  · rw [boundNames, boundNameLists_eq, flatMap_map, flatMap_eq_nil_iff]
    exact fun _ _ => rfl
  · rw [indexNames, indexNameLists_eq, flatMap_map] at hk
    obtain ⟨r, hr, hmem⟩ := mem_flatMap.mp hk
    exact mem_names_factor hrefs hr hmem

theorem freeOccurrenceLists_factors :
    freeOccurrenceLists dims (refs.map .tensor) = refs.flatMap (tensorOccurrences dims) := by
  rw [freeOccurrenceLists_eq, flatMap_map]
  apply flatMap_congr
  intro r hr
  apply lone_of_nodup
  rw [map_name_tensorOccurrences]
  exact nodup_factor hrefs h hr

omit h in
variable (dims) in
theorem keys_factors : ((refs.flatMap (tensorOccurrences dims)).map key).Perm
    (namedIndices t.indices ++ (raisedSlots known.heights t.indices).flatMap fun p =>
      [(dummy p.2, p.1.height.flip), (dummy p.2, p.1.height)]) :=
  ((hrefs.flatMap_right _).map _).trans (keys_contractedFactors dims known base dummy spans t)

omit h in
theorem count_factors (x : String) : count x (refs.flatMap (tensorOccurrences dims)) =
    (t.indices.filterMap Index.name?).count x +
      2 * ((raisedSlots known.heights t.indices).map fun p => dummy p.2).count x := by
  have hnames := (keys_factors dims hrefs).map (·.1)
  rw [map_map, map_append, map_fst_namedIndices] at hnames
  have hpairs (ps : List (Index × Nat)) : ((ps.flatMap fun p =>
      [(dummy p.2, p.1.height.flip), (dummy p.2, p.1.height)]).map (·.1)).count x =
        2 * (ps.map fun p => dummy p.2).count x := by
    induction ps with
    | nil => rfl
    | cons p ps ih =>
      rw [flatMap_cons, map_append, count_append, ih, map_cons, count_cons (b := dummy p.2)]
      by_cases hx : dummy p.2 = x
      · simp [hx]
        omega
      · simp [hx]
  exact (hnames.count_eq x).trans (by rw [count_append, hpairs])

theorem paired_factors (dims : Dimensions) : (paired (refs.flatMap (tensorOccurrences dims))).Perm
    ((raisedSlots known.heights t.indices).map fun p => dummy p.2) := by
  rw [perm_ext_iff_of_nodup (nodup_paired _) h.nodup]
  intro x
  rw [mem_paired, count_factors hrefs]
  have hasked := nodup_iff_count_le_one.mp h.names x
  constructor
  · intro hcount
    apply count_pos_iff.mp
    omega
  · intro hx
    have hone := count_eq_one_of_mem h.nodup hx
    obtain ⟨p, hp, rfl⟩ := mem_map.mp hx
    have hzero := count_eq_zero.mpr (h.fresh p hp)
    omega

theorem keys_lone_factors : ((lone (refs.flatMap (tensorOccurrences dims))).map key).Perm
    (namedIndices t.indices) := by
  have hlone : (lone (refs.flatMap (tensorOccurrences dims))).map key =
      ((refs.flatMap (tensorOccurrences dims)).map key).filter fun k =>
        count k.1 (refs.flatMap (tensorOccurrences dims)) == 1 := by
    rw [filter_map]
    rfl
  have hasked : (namedIndices t.indices).filter (fun k =>
      count k.1 (refs.flatMap (tensorOccurrences dims)) == 1) = namedIndices t.indices := by
    rw [filter_eq_self]
    intro k hk
    have hmem : k.1 ∈ t.indices.filterMap Index.name? := by
      rw [← map_fst_namedIndices]
      exact mem_map_of_mem hk
    have hone := count_eq_one_of_mem h.names hmem
    have hzero : ((raisedSlots known.heights t.indices).map fun p => dummy p.2).count k.1 = 0 := by
      rw [count_eq_zero]
      intro hx
      obtain ⟨p, hp, heq⟩ := mem_map.mp hx
      exact h.fresh p hp (heq ▸ hmem)
    rw [beq_iff_eq, count_factors hrefs]
    omega
  have hdummies : ((raisedSlots known.heights t.indices).flatMap fun p =>
      [(dummy p.2, p.1.height.flip), (dummy p.2, p.1.height)]).filter (fun k =>
        count k.1 (refs.flatMap (tensorOccurrences dims)) == 1) = [] := by
    rw [filter_eq_nil_iff]
    intro k hk
    obtain ⟨p, hp, hmem⟩ := mem_flatMap.mp hk
    have hfst : k.1 = dummy p.2 := by
      simp only [mem_cons, not_mem_nil, or_false] at hmem
      rcases hmem with rfl | rfl <;> rfl
    have htwo : count k.1 (refs.flatMap (tensorOccurrences dims)) = 2 := by
      rw [← mem_paired, (paired_factors hrefs h dims).mem_iff, hfst]
      exact mem_map_of_mem hp
    simp [htwo]
  have hperm := (keys_factors dims hrefs).filter fun k =>
    count k.1 (refs.flatMap (tensorOccurrences dims)) == 1
  rw [filter_append, hasked, hdummies, append_nil] at hperm
  exact hlone ▸ hperm

end Factors

end Formula

end TensorCalculus
