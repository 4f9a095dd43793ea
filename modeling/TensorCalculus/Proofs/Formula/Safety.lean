import Mathlib
import TensorCalculus.Proofs.Formula.Resolution

/-! Evaluation has no failures of its own once covariant derivatives are expanded and all
open names have values. Whatever the parts of a reading have in common, and running one
after the other keeps, evaluation then has as well. -/
namespace TensorCalculus

/-! The scalars that a formula mentions. To make summations explicit and to expand covariant
derivatives renames indices and brings in tensors, but no scalars. -/

open List hiding count

variable {f : Formula} {fs : List Formula} {n : Nat} {ρ : Assignment} {g : Formula → Formula}

namespace Formula

mutual

def scalarNames : Formula → List String
  | num _ | tensor _ => []
  | sym s => [s]
  | derivative _ _ operand _ _ => operand.scalarNames
  | sum ts => scalarNameLists ts
  | product fs => scalarNameLists fs
  | power b e => b.scalarNames ++ e.scalarNames
  | fn _ a => a.scalarNames
  | contraction _ _ body => body.scalarNames

def scalarNameLists : List Formula → List String
  | [] => []
  | f :: fs => f.scalarNames ++ scalarNameLists fs

end

theorem scalarNameLists_eq (fs : List Formula) : scalarNameLists fs = fs.flatMap scalarNames := by
  induction fs with
  | nil => rfl
  | cons f fs ih => rw [scalarNameLists, ih, flatMap_cons]

theorem scalarNameLists_map (h : ∀ f ∈ fs, (g f).scalarNames = f.scalarNames) :
    scalarNameLists (fs.map g) = scalarNameLists fs := by
  rw [scalarNameLists_eq, scalarNameLists_eq, flatMap_map]
  exact flatMap_congr h

theorem scalarNames_rename (source target : String) (f : Formula) :
    (f.rename source target).scalarNames = f.scalarNames := by
  induction f using Formula.induction with
  | num q => rfl
  | sym s => rfl
  | tensor t => rfl
  | derivative kind i operand dimension span ih => exact ih
  | sum ts ih | product ts ih =>
    simp only [rename, scalarNames, renameAll_eq]
    exact scalarNameLists_map ih
  | power b e hb he => simp only [rename, scalarNames, hb, he]
  | fn g a ih => exact ih
  | contraction index dimension body ih =>
    simp only [rename, scalarNames]
    split
    · rfl
    · exact ih

theorem scalarNames_contracted (names : List (String × Nat)) :
    (contracted n f names).scalarNames = f.scalarNames := by
  induction names generalizing n f with
  | nil => rfl
  | cons p names ih => rw [contracted, ih, scalarNames, scalarNames_rename]

theorem scalarNames_ofTerms (ts : List Formula) :
    (ofTerms ts).scalarNames = scalarNameLists ts := by
  unfold ofTerms
  split
  · exact (append_nil _).symm
  · rfl

theorem scalarNames_covariantStep (mark : Diacritic) (index : Index) (taken : List String)
    (f : Formula) : (f.covariantStep mark index taken).1.scalarNames ⊆ f.scalarNames := by
  unfold covariantStep
  dsimp only
  rw [scalarNames_ofTerms, scalarNameLists]
  refine append_subset.mpr ⟨List.Subset.refl _, fun x hx => ?_⟩
  rw [scalarNameLists_eq, mem_flatMap] at hx
  obtain ⟨t, ht, hx⟩ := hx
  obtain ⟨⟨name, height⟩, _, rfl⟩ := mem_map.mp ht
  cases height <;>
    simpa [connectionTerm, connection, integer, scalarNames, scalarNameLists,
      scalarNames_rename] using hx

end Formula

def Cause.isInternal : Cause → Bool
  | .indexing .mixedTarget | .indexing .unexpanded | .indexing (.unbound _) => true
  | _ => false

/-- The result is as required, or the document is at fault. -/
def Delivers (post : α → Prop) : Except Error α → Prop
  | .ok a => post a
  | .error e => e.cause.isInternal = false

namespace Delivers

variable {post : α → Prop} {x : Except Error α}

theorem bind {post' : β → Prop} {g : α → Except Error β} (hx : Delivers post x)
    (hg : ∀ a, post a → Delivers post' (g a)) : Delivers post' (x >>= g) := by
  cases x with
  | error e => exact hx
  | ok a => exact hg a hx

end Delivers

theorem IndexRole.ofTerm_delivers (occurrences : List Occurrence) :
    Delivers (fun _ => True) (ofTerm occurrences) := by
  match occurrences with
  | [] => rw [ofTerm]; trivial
  | o :: rest =>
    rw [ofTerm]
    refine Delivers.bind (?_ : Delivers (fun _ => True) _) fun role _ =>
      (ofTerm_delivers (rest.filter (·.name != o.name))).bind fun roles _ => trivial
    unfold ofOccurrences
    split
    · trivial
    · dsimp only
      split
      · split
        · split
          · trivial
          · rfl
        · trivial
      · rfl
termination_by occurrences.length
decreasing_by simpa using Nat.lt_succ_of_le (length_filter_le ..)

/-- A property of computations that returning a value has and running in sequence keeps. -/
structure Sequential (m : Type → Type) [Monad m] where
  Holds : {α : Type} → m α → Prop
  pure : ∀ {α : Type} (a : α), Holds (pure a)
  bind : ∀ {α β : Type} {x : m α} {f : α → m β}, Holds x → (∀ a, Holds (f a)) →
    Holds (x >>= f)

namespace Sequential

variable {m : Type → Type} [Monad m] (Q : Sequential m)

theorem mapM {α β : Type} {f : α → m β} {xs : List α} (h : ∀ x ∈ xs, Q.Holds (f x)) :
    Q.Holds (xs.mapM f) := by
  have hloop (xs : List α) (acc : List β) (h : ∀ x ∈ xs, Q.Holds (f x)) :
      Q.Holds (List.mapM.loop f xs acc) := by
    induction xs generalizing acc with
    | nil => exact Q.pure _
    | cons x xs ih =>
      rw [forall_mem_cons] at h
      exact Q.bind h.1 fun b => ih (b :: acc) h.2
  exact hloop xs [] h

end Sequential

namespace Formula

open Occurrence

mutual

def isExpanded : Formula → Bool
  | num _ | sym _ | tensor _ => true
  | derivative kind _ operand _ _ => kind = .partialDerivative && operand.isExpanded
  | sum ts => allExpanded ts
  | product fs => allExpanded fs
  | power b e => b.isExpanded && e.isExpanded
  | fn _ a => a.isExpanded
  | contraction _ _ body => body.isExpanded

def allExpanded : List Formula → Bool
  | [] => true
  | f :: fs => f.isExpanded && allExpanded fs

end

theorem allExpanded_eq (fs : List Formula) : allExpanded fs = fs.all isExpanded := by
  induction fs with
  | nil => rfl
  | cons f fs ih => rw [allExpanded, ih, all_cons]

theorem allExpanded_map (h : ∀ f ∈ fs, (g f).isExpanded = f.isExpanded) :
    allExpanded (fs.map g) = allExpanded fs := by
  induction fs with
  | nil => rfl
  | cons f fs ih =>
    rw [forall_mem_cons] at h
    rw [map_cons, allExpanded, allExpanded, h.1, ih h.2]

theorem isExpanded_rename (source target : String) (f : Formula) :
    (f.rename source target).isExpanded = f.isExpanded := by
  induction f using Formula.induction with
  | num q => rfl
  | sym s => rfl
  | tensor t => rfl
  | derivative kind i operand dimension span ih => simp only [rename, isExpanded, ih]
  | sum ts ih | product ts ih =>
    simp only [rename, isExpanded, renameAll_eq]
    exact allExpanded_map ih
  | power b e hb he => simp only [rename, isExpanded, hb, he]
  | fn g a ih => exact ih
  | contraction index dimension body ih =>
    simp only [rename, isExpanded]
    split
    · rfl
    · exact ih

theorem exists_of_mem_openNames_rename {source target z : String} {f : Formula}
    (hz : z ∈ (f.rename source target).openNames) :
    ∃ w ∈ f.openNames, (if w = source then target else w) = z := by
  induction f using Formula.induction with
  | num q => cases hz
  | sym s => cases hz
  | tensor t =>
    rw [← mem_map, openNames, ← Index.filterMap_name?_rename]
    exact hz
  | derivative kind i operand dimension span ih =>
    rw [rename, openNames, Index.toList_name?_rename, mem_append, mem_map] at hz
    rw [openNames]
    rcases hz with ⟨w, hw, rfl⟩ | hz
    · exact ⟨w, mem_append_left _ hw, rfl⟩
    · obtain ⟨w, hw, rfl⟩ := ih hz
      exact ⟨w, mem_append_right _ hw, rfl⟩
  | sum ts ih | product ts ih =>
    rw [rename, openNames, openNameLists_eq, renameAll_eq, flatMap_map, mem_flatMap] at hz
    obtain ⟨t, ht, hz⟩ := hz
    obtain ⟨w, hw, rfl⟩ := ih t ht hz
    rw [openNames, openNameLists_eq]
    exact ⟨w, mem_flatMap.mpr ⟨t, ht, hw⟩, rfl⟩
  | power b e hb he =>
    rw [rename, openNames, mem_append] at hz
    rw [openNames]
    rcases hz with hz | hz
    · obtain ⟨w, hw, rfl⟩ := hb hz
      exact ⟨w, mem_append_left _ hw, rfl⟩
    · obtain ⟨w, hw, rfl⟩ := he hz
      exact ⟨w, mem_append_right _ hw, rfl⟩
  | fn g a ih => exact ih hz
  | contraction index dimension body ih =>
    simp only [rename, openNames, mem_filter, bne_iff_ne] at hz ⊢
    split at hz
    · next h =>
      refine ⟨z, hz, if_neg ?_⟩
      rw [← h]
      exact hz.2
    · next h =>
      obtain ⟨w, hw, rfl⟩ := ih hz.1
      refine ⟨w, ⟨hw, ?_⟩, rfl⟩
      rintro rfl
      exact hz.2 (if_neg h)

theorem isExpanded_contracted (names : List (String × Nat)) :
    (contracted n f names).isExpanded = f.isExpanded := by
  induction names generalizing n f with
  | nil => rfl
  | cons p names ih => rw [contracted, ih, isExpanded, isExpanded_rename]

theorem mem_openNames_of_contracted {names : List (String × Nat)} {z : String}
    (hz : z ∈ (contracted n f names).openNames) : z ∈ f.openNames ∧ z ∉ names.map (·.1) := by
  induction names generalizing n f with
  | nil => exact ⟨hz, nofun⟩
  | cons p names ih =>
    obtain ⟨hz, hnames⟩ := ih hz
    rw [openNames, mem_filter, bne_iff_ne] at hz
    obtain ⟨w, hw, rfl⟩ := exists_of_mem_openNames_rename hz.1
    by_cases hp : w = p.1
    · simp [hp] at hz
    · rw [if_neg hp] at hnames ⊢
      rw [map_cons, mem_cons, not_or]
      exact ⟨hw, hp, hnames⟩

/-- Open names are among the free ones, nothing is expanded or made covariant, and the scalars
are the same. -/
structure Scoped (f f' : Formula) (free : List Occurrence) : Prop where
  openNames : ∀ x ∈ f'.openNames, x ∈ free.map (·.name)
  expanded : f'.isExpanded = f.isExpanded
  scalars : f'.scalarNames = f.scalarNames

structure ScopedAll (fs fs' : List Formula) (free : List Occurrence) : Prop where
  openNames : ∀ x ∈ openNameLists fs', x ∈ free.map (·.name)
  expanded : allExpanded fs' = allExpanded fs
  scalars : scalarNameLists fs' = scalarNameLists fs

theorem contract_delivers (dims : Dimensions) (f : Formula) {g : Formula} {occurrences : List Occurrence}
    (hopen : ∀ x ∈ g.openNames, x ∈ occurrences.map (·.name))
    (hexpanded : g.isExpanded = f.isExpanded) (hscalars : g.scalarNames = f.scalarNames) (n : Nat) :
    Delivers (fun r => Scoped f r.1.1 r.1.2) ((contract dims g occurrences).run n) := by
  rcases hrun : (contract dims g occurrences).run n with e | ⟨⟨f', free⟩, n'⟩
  · have hterm := IndexRole.ofTerm_delivers occurrences
    cases hroles : IndexRole.ofTerm occurrences with
    | error e' =>
      unfold contract at hrun
      rw [hroles] at hrun hterm
      cases hrun
      exact hterm
    | ok roles =>
      rw [run_contract hroles] at hrun
      cases hrun
  · obtain ⟨rfl, rfl, rfl, hcount⟩ := contract_eq_ok hrun
    refine ⟨fun x hx => ?_, (isExpanded_contracted _).trans hexpanded,
      (scalarNames_contracted _).trans hscalars⟩
    obtain ⟨hx, hpaired⟩ := mem_openNames_of_contracted hx
    have hpos := count_pos_iff.mpr (hopen x hx)
    have hpaired : x ∉ paired occurrences := by simpa [Function.comp_def] using hpaired
    have hcount := hcount x
    rw [mem_paired] at hpaired
    rw [mem_map_name_lone]
    unfold count at *
    omega

section Resolve

variable {dims : Dimensions}

def Scopes (dims : Dimensions) (f : Formula) : Prop :=
  ∀ n, Delivers (fun r => Scoped f r.1.1 r.1.2) ((f.resolve dims).run n)

theorem resolveFactors_delivers (ih : ∀ f ∈ fs, Scopes dims f) (n : Nat) :
    Delivers (fun r => ScopedAll fs r.1.1 r.1.2) ((resolveFactors dims fs).run n) := by
  induction fs generalizing n with
  | nil => exact ⟨nofun, rfl, rfl⟩
  | cons f fs ihs =>
    rw [forall_mem_cons] at ih
    refine (ih.1 n).bind ?_
    rintro ⟨⟨f', free⟩, j⟩ hf
    refine (ihs ih.2 j).bind ?_
    rintro ⟨⟨fs', more⟩, k⟩ hfs
    refine ⟨fun x hx => ?_, ?_, ?_⟩
    · rw [openNameLists, mem_append] at hx
      rw [map_append, mem_append]
      exact hx.imp (hf.openNames x) (hfs.openNames x)
    · rw [allExpanded, allExpanded, hf.expanded, hfs.expanded]
    · rw [scalarNameLists, scalarNameLists, hf.scalars, hfs.scalars]

theorem resolveTerms_delivers {ts : List Formula} (ih : ∀ t ∈ ts, Scopes dims t)
    (first : Option (List Occurrence)) (n : Nat) :
    Delivers (fun r => ScopedAll ts r.1.1 r.1.2 ∧ ∀ common, first = some common → r.1.2 = common)
      ((resolveTerms dims first ts).run n) := by
  induction ts generalizing first n with
  | nil => exact ⟨⟨nofun, rfl, rfl⟩, by rintro common rfl; rfl⟩
  | cons t ts ihs =>
    rw [forall_mem_cons] at ih
    refine (ih.1 n).bind ?_
    rintro ⟨⟨t', free⟩, j⟩ ht
    dsimp only
    split
    · next hsame =>
      refine (ihs ih.2 _ j).bind ?_
      rintro ⟨⟨ts', more⟩, k⟩ ⟨hts, hcommon⟩
      obtain rfl : more = first.getD free := hcommon _ rfl
      refine ⟨⟨fun x hx => ?_, ?_, ?_⟩, by rintro common rfl; rfl⟩
      · rw [openNameLists, mem_append] at hx
        rcases hx with hx | hx
        · exact (mem_map_name_of_sameMembers hsame x).mpr (ht.openNames x hx)
        · exact hts.openNames x hx
      · rw [allExpanded, allExpanded, ht.expanded, hts.expanded]
      · rw [scalarNameLists, scalarNameLists, ht.scalars, hts.scalars]
    · rfl

theorem resolve_delivers (f : Formula) : Scopes dims f := by
  induction f using Formula.induction with
  | num _ | sym _ => exact fun _ => ⟨nofun, rfl, rfl⟩
  | tensor t =>
    refine contract_delivers dims (.tensor t) (fun x hx => ?_) rfl rfl
    rw [map_name_tensorOccurrences]
    exact hx
  | derivative kind i operand dimension span ih =>
    refine fun n => (ih n).bind ?_
    rintro ⟨⟨operand', free⟩, j⟩ ho
    refine contract_delivers dims (.derivative kind i operand dimension span)
      (g := .derivative kind i operand' _ span) (fun x hx => ?_) ?_ ho.scalars j
    · change x ∈ (_ ++ derivativeOccurrences _ i span).map (·.name)
      rw [map_append, map_name_derivativeOccurrences, mem_append, or_comm]
      rw [openNames, mem_append] at hx
      exact hx.imp_right (ho.openNames x)
    · rw [isExpanded, isExpanded, ho.expanded]
  | sum ts ih =>
    refine fun n => (resolveTerms_delivers ih none n).bind ?_
    rintro ⟨⟨ts', free⟩, j⟩ ⟨hts, _⟩
    exact ⟨hts.openNames, hts.expanded, hts.scalars⟩
  | product fs ih =>
    refine fun n => (resolveFactors_delivers ih n).bind ?_
    rintro ⟨⟨fs', free⟩, j⟩ hfs
    exact contract_delivers dims (.product fs) (g := .product fs') hfs.openNames hfs.expanded
      hfs.scalars j
  | power b e hb he =>
    refine fun n => (hb n).bind ?_
    rintro ⟨⟨b', free₁⟩, j⟩ hb
    refine (he j).bind ?_
    rintro ⟨⟨e', free₂⟩, k⟩ he
    dsimp only
    cases hfree : free₁ ++ free₂ with
    | cons o _ => rfl
    | nil =>
      rw [append_eq_nil_iff] at hfree
      refine ⟨fun x hx => ?_, ?_, ?_⟩
      · rw [openNames, mem_append] at hx
        rcases hx with hx | hx
        · simpa [hfree.1] using hb.openNames x hx
        · simpa [hfree.2] using he.openNames x hx
      · rw [isExpanded, isExpanded, hb.expanded, he.expanded]
      · rw [scalarNames, scalarNames, hb.scalars, he.scalars]
  | fn g a ih =>
    refine fun n => (ih n).bind ?_
    rintro ⟨⟨a', free⟩, j⟩ ha
    cases free with
    | cons o _ => rfl
    | nil => exact ⟨ha.openNames, ha.expanded, ha.scalars⟩
  | contraction index dimension body ih =>
    refine fun n => (ih n).bind ?_
    rintro ⟨⟨body', free⟩, j⟩ hb
    refine ⟨fun x hx => ?_, hb.expanded, hb.scalars⟩
    rw [openNames, mem_filter] at hx
    obtain ⟨o, ho, rfl⟩ := mem_map.mp (hb.openNames x hx.1)
    exact mem_map_of_mem (mem_filter.mpr ⟨ho, hx.2⟩)

theorem resolved_delivers (dims : Dimensions) (f : Formula) :
    Delivers (fun r => Scoped f r.1 r.2) (f.resolved dims) :=
  (resolve_delivers f 0).bind fun _ h => h

end Resolve

end Formula

section Evaluate

variable {m : Type → Type} [Monad m] [MonadLiftT (Except Error) m]

structure Reading.Satisfies (r : Reading m) (Q : Sequential m) : Prop where
  lift : ∀ {α : Type} (a : α), Q.Holds (liftM (.ok a : Except Error α) : m α)
  scalar : ∀ name, Q.Holds (r.scalar name)
  component : ∀ t index span, Q.Holds (r.component t index span)
  differentiate : ∀ e k dimension span, Q.Holds (r.differentiate e k dimension span)

theorem Assignment.exists_indexValue (span : Span) {i : Index}
    (h : ∀ x ∈ i.name?, (ρ.lookup x).isSome) : ∃ v, ρ.indexValue span i = .ok v := by
  obtain ⟨value, height⟩ := i
  cases value with
  | fixed n => exact ⟨n, rfl⟩
  | named name =>
    obtain ⟨v, hv⟩ := Option.isSome_iff_exists.mp (h name rfl)
    exact ⟨v, by simp [indexValue, hv, pure, Except.pure]⟩

theorem Assignment.exists_indexValues (span : Span) {indices : List Index}
    (h : ∀ x ∈ indices.filterMap Index.name?, (ρ.lookup x).isSome) :
    ∃ vs, ρ.indexValues span indices = .ok vs := by
  induction indices with
  | nil => exact ⟨[], rfl⟩
  | cons i indices ih =>
    rw [← singleton_append, filterMap_append, forall_mem_append] at h
    obtain ⟨v, hv⟩ := exists_indexValue span (i := i) fun x hx =>
      h.1 x (mem_filterMap.mpr ⟨i, mem_singleton_self i, hx⟩)
    obtain ⟨vs, hvs⟩ := ih h.2
    refine ⟨v :: vs, ?_⟩
    simp only [indexValues, mapM_cons] at hvs ⊢
    rw [hv, hvs]
    rfl

namespace Formula

variable {Q : Sequential m} {r : Reading m}

theorem evaluateAll_holds (h : ∀ f ∈ fs, Q.Holds (f.evaluate r ρ)) : Q.Holds (evaluateAll r ρ fs) := by
  induction fs with
  | nil => exact Q.pure _
  | cons f fs ih =>
    rw [forall_mem_cons] at h
    exact Q.bind h.1 fun e => Q.bind (ih h.2) fun es => Q.pure _

theorem evaluate_holds (hr : r.Satisfies Q) {f : Formula}
    (hopen : ∀ x ∈ f.openNames, (ρ.lookup x).isSome) (hexpanded : f.isExpanded) :
    Q.Holds (f.evaluate r ρ) := by
  induction f using Formula.induction generalizing ρ with
  | num q => exact Q.pure _
  | sym s => exact hr.scalar s
  | tensor t =>
    obtain ⟨index, hindex⟩ := Assignment.exists_indexValues t.span hopen
    rw [evaluate, Reading.componentAt, hindex]
    exact Q.bind (hr.lift index) fun index => hr.component t.head index t.span
  | derivative kind i operand dimension span ih =>
    rw [openNames, forall_mem_append] at hopen
    rw [isExpanded, Bool.and_eq_true, decide_eq_true_iff] at hexpanded
    obtain ⟨k, hk⟩ := Assignment.exists_indexValue span (i := i) fun x hx =>
      hopen.1 x (Option.mem_toList.mpr hx)
    rw [evaluate, Reading.derivativeAt, hk, if_neg (not_not.mpr hexpanded.1)]
    exact Q.bind (hr.lift k) fun k => Q.bind (ih hopen.2 hexpanded.2) fun e =>
      hr.differentiate e k dimension span
  | sum ts ih | product ts ih =>
    rw [openNames, openNameLists_eq] at hopen
    rw [isExpanded, allExpanded_eq, all_eq_true] at hexpanded
    refine Q.bind (evaluateAll_holds fun t ht => ?_) fun es => Q.pure _
    exact ih t ht (fun x hx => hopen x (mem_flatMap.mpr ⟨t, ht, hx⟩)) (hexpanded t ht)
  | power b e hb he =>
    rw [openNames, forall_mem_append] at hopen
    rw [isExpanded, Bool.and_eq_true] at hexpanded
    exact Q.bind (hb hopen.1 hexpanded.1) fun b => Q.bind (he hopen.2 hexpanded.2) fun e =>
      Q.pure _
  | fn g a ih => exact Q.bind (ih hopen hexpanded) fun e => Q.pure _
  | contraction index dimension body ih =>
    refine Q.bind (Q.mapM fun v _ => ih (fun x hx => ?_) hexpanded) fun es => Q.pure _
    by_cases hxi : x = index
    · simp [hxi]
    · rw [lookup_cons, beq_false_of_ne hxi]
      exact hopen x (mem_filter.mpr ⟨hx, bne_iff_ne.mpr hxi⟩)

end Formula

end Evaluate

/-! The summation convention is carried out faithfully: the explicit sums of a resolved
formula have the value that the convention gives to the formula as it was written. -/

def Reading.ofValues (scalar : String → Expr) (component : TensorHead → IndexVector → Expr)
    (derivative : Expr → Nat → Expr) : Reading (Except Error) where
  scalar name := .ok (scalar name)
  component t index _ := .ok (component t index)
  differentiate e k _ _ := .ok (derivative e k)

def Sequential.succeeds : Sequential (Except Error) where
  Holds x := ∃ a, x = .ok a
  pure a := ⟨a, rfl⟩
  bind := by
    rintro α β x f ⟨a, rfl⟩ hf
    exact hf a

theorem Reading.ofValues_succeeds (scalar : String → Expr)
    (component : TensorHead → IndexVector → Expr) (derivative : Expr → Nat → Expr) :
    (ofValues scalar component derivative).Satisfies Sequential.succeeds where
  lift a := ⟨a, rfl⟩
  scalar name := ⟨scalar name, rfl⟩
  component t index _ := ⟨component t index, rfl⟩
  differentiate e k _ _ := ⟨derivative e k, rfl⟩

namespace Formula

/-- The free names are those left open, the summation indices are new and distinct, and all
values are those of the convention. With values for the free names there is one. -/
theorem resolved_follows_convention (dims : Dimensions) {f f' : Formula}
    {free : List Occurrence} (hbound : f.boundNames = [])
    (hnames : ∀ k, summationName k ∉ f.indexNames) (h : f.resolved dims = .ok (f', free)) :
    ((free.map (·.name)).Nodup ∧ ∀ x, x ∈ free.map (·.name) ↔ x ∈ f'.openNames) ∧
    (f'.boundNames.Nodup ∧ ∀ x ∈ f'.boundNames, x ∉ f.indexNames) ∧
    (∀ (m : Type → Type) [Monad m] [MonadLiftT (Except Error) m] (r : Reading m)
      (ρ : Assignment), f'.evaluate r ρ = f.convention r dims ρ) ∧
    (f.isExpanded → ∀ scalar component derivative ρ,
      (∀ x ∈ free.map (·.name), (List.lookup x ρ).isSome) →
        ∃ e, f'.evaluate (.ofValues scalar component derivative) ρ = .ok e) := by
  obtain ⟨⟨⟨g, free'⟩, n⟩, hrun, hpair⟩ := Except.bind_eq_ok h
  cases hpair
  obtain ⟨hf, rfl⟩ := resolve_resolves f hrun hbound hnames
  refine ⟨⟨hf.nodup, fun x => (hf.openNames x).symm⟩, ⟨hf.drawn.nodup, fun x hx => ?_⟩,
    fun m _ _ r ρ => hf.evaluate r ρ, fun hexpanded scalar component derivative ρ hρ => ?_⟩
  · obtain ⟨k, _, _, rfl⟩ := hf.drawn.mem x hx
    exact hnames k
  · apply evaluate_holds (Reading.ofValues_succeeds scalar component derivative)
    · intro x hx
      exact hρ x ((hf.openNames x).mp hx)
    · have hdelivers := resolved_delivers dims f
      rw [h] at hdelivers
      rw [hdelivers.expanded, hexpanded]

theorem resolved_follows_convention_nested :
    let v (i : Index) : Formula := tensor ⟨"v", "v", [i], .none⟩
    let f := product [product [v (.upper "i"), v (.lower "i")], v (.upper "i")]
    let f' := product [contraction "_0" 2 (product [v (.upper "_0"), v (.lower "_0")]),
      v (.upper "i")]
    let dims : Dimensions := ⟨fun _ => some 2, none, 3⟩
    f.resolved dims = .ok (f', [⟨"i", .upper, some 2, .none⟩]) ∧
      (∀ x, x ∈ ["i"] ↔ x ∈ f'.openNames) ∧ (∀ x ∈ f'.boundNames, x ∉ f.indexNames) ∧
      ∀ scalar component derivative, ∃ e,
        f'.evaluate (.ofValues scalar component derivative) [("i", 1)] = .ok e ∧
        f.convention (.ofValues scalar component derivative) dims [("i", 1)] = .ok e := by
  intro v f f' dims
  have hresolved : f.resolved dims = .ok (f', [⟨"i", .upper, some 2, .none⟩]) := by cbv
  have hnames (k : Nat) : summationName k ∉ f.indexNames := by
    intro hk
    have hi : summationName k ∈ ["i", "i", "i"] := hk
    have hi : summationName k = "i" := by simpa using hi
    simpa [summationName] using congrArg String.toList hi
  obtain ⟨hopen, hbound, hvalues, hsome⟩ :=
    resolved_follows_convention dims rfl hnames hresolved
  refine ⟨hresolved, hopen.2, hbound.2, fun scalar component derivative => ?_⟩
  obtain ⟨e, he⟩ := hsome rfl scalar component derivative [("i", 1)] (by simp)
  exact ⟨e, he, by rw [← hvalues, he]⟩

end Formula

end TensorCalculus
