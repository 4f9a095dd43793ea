import TensorCalculus.Proofs.Formula.RaisedSlots
import TensorCalculus.Proofs.Formula.Renaming

/-! Repeated covariant derivatives of a tensor. What is generated resolves, and its value is the
recursion over the order of the derivative: a partial derivative, and for each slot a sum with
the connection. -/
namespace TensorCalculus

variable {ρ : Assignment}

open List hiding count
open Assignment

abbrev TensorRef.names (t : TensorRef) : List String :=
  t.indices.filterMap Index.name?

theorem TensorRef.names_rename (t : TensorRef) (name dummy : String) :
    (t.rename name dummy).names = t.names.map fun x => if x = name then dummy else x :=
  Index.filterMap_name?_rename name dummy t.indices

theorem TensorRef.mem_names_cons {t : TensorRef} {x b : String} {bs : List String}
    (h : x ∈ t.names ++ bs) : x ∈ t.names ++ b :: bs :=
  ((sublist_cons_self b bs).append_left _).subset h

namespace Formula

open TensorRef (names_rename mem_names_cons)

open Occurrence

theorem freshName_ne_summationName (taken : List String) (k : Nat) :
    freshName taken ≠ summationName k := by
  obtain ⟨n, hn, _⟩ := freshName_spec taken
  rw [hn]
  exact dummyName_ne_summationName n k

theorem mapM_congr {α β : Type} {f g : α → Except Error β} {xs : List α} (h : ∀ x ∈ xs, f x = g x) :
    xs.mapM f = xs.mapM g := by
  induction xs with
  | nil => rfl
  | cons x xs ih =>
    rw [forall_mem_cons] at h
    rw [mapM_cons, mapM_cons, h.1, ih h.2]

theorem indexValues_eq {indices : List Index} (hnamed : ∀ i ∈ indices, i.name?.isSome)
    (hρ : ∀ x ∈ indices.filterMap Index.name?, (ρ.lookup x).isSome) (span : Span) :
    ρ.indexValues span indices = .ok ((indices.filterMap Index.name?).map ρ.value) := by
  induction indices with
  | nil => rfl
  | cons i indices ih =>
    rw [forall_mem_cons] at hnamed
    obtain ⟨⟨value⟩, height⟩ := i
    · rw [filterMap_cons_some (f := Index.name?) rfl, forall_mem_cons] at hρ
      obtain ⟨n, hn⟩ := Option.isSome_iff_exists.mp hρ.1
      have ih := ih hnamed.2 hρ.2
      unfold indexValues at ih ⊢
      rw [mapM_cons, ih, indexValue]
      simp [hn, Assignment.value, Index.name?, pure, Except.pure, bind, Except.bind]
    · exact absurd hnamed.1 (by simp [Index.name?])

section Chain

/-- A tensor and the indices of its derivatives, all with different names. -/
structure Chainable (dims : Dimensions) (d : Nat) (t : TensorRef) (bs : List String) : Prop where
  named : ∀ i ∈ t.indices, i.name?.isSome
  nodup : (t.names ++ bs).Nodup
  dimension : t.indices ≠ [] → dims.ofTensor t.head = some d

variable {dims : Dimensions} {d : Nat} {mark : Diacritic} {taken : List String} {t : TensorRef}
  {b : String} {bs : List String}

theorem Chainable.tail (h : Chainable dims d t (b :: bs)) : Chainable dims d t bs where
  named := h.named
  nodup := h.nodup.sublist ((sublist_cons_self b bs).append_left _)
  dimension := h.dimension

theorem Chainable.rename (h : Chainable dims d t (b :: bs)) {name dummy : String}
    (hdummy : dummy ∉ t.names ++ bs) :
    Chainable dims d (t.rename name dummy) bs where
  named i hi := by
    obtain ⟨j, hj, rfl⟩ := mem_map.mp hi
    rw [Index.name?_rename, Option.isSome_map]
    exact h.named j hj
  nodup := by
    obtain ⟨hnames, hbs, hdisjoint⟩ := nodup_append'.mp h.tail.nodup
    rw [mem_append, not_or] at hdummy
    rw [names_rename, nodup_append']
    refine ⟨hnames.map_on fun x hx y hy heq => ?_, hbs, fun x hx hb => ?_⟩
    · have hxdummy : x ≠ dummy := fun h => hdummy.1 (h ▸ hx)
      have hydummy : y ≠ dummy := fun h => hdummy.1 (h ▸ hy)
      grind
    · obtain ⟨y, hy, rfl⟩ := mem_map.mp hx
      split at hb
      · exact hdummy.2 hb
      · exact hdisjoint hy hb
  dimension hne := by
    rw [TensorRef.head_rename]
    apply h.dimension
    rintro heq
    exact hne (by simp [TensorRef.rename, heq])

def chainOccurrences (dims : Dimensions) (t : TensorRef) (bs : List String) : List Occurrence :=
  tensorOccurrences dims t ++
    bs.reverse.map (⟨·, .lower, dims.ofCoordinates.or (dims.ofTensor t.head), .none⟩)

theorem chainOccurrences_cons (dims : Dimensions) (t : TensorRef) (b : String) (bs : List String) :
    chainOccurrences dims t (b :: bs) = chainOccurrences dims t bs ++ derivativeOccurrences
      (dims.ofCoordinates.or (dims.ofTensor t.head)) (.lower b) .none := by
  simp [chainOccurrences, derivativeOccurrences, namedIndices, Index.lower, Index.named,
    Index.name?]

theorem map_name_chainOccurrences :
    (chainOccurrences dims t bs).map (·.name) = t.names ++ bs.reverse := by
  rw [chainOccurrences, map_append, map_name_tensorOccurrences, map_map]
  exact congrArg _ (map_id _)

theorem map_key_chainOccurrences :
    (chainOccurrences dims t bs).map key =
      namedIndices t.indices ++ bs.reverse.map (·, .lower) := by
  rw [chainOccurrences, map_append, tensorOccurrences, map_map, map_map]
  exact congrArg (· ++ _) (map_id _)

theorem fresh_dummy (t : TensorRef) (htaken : ∀ x ∈ bs, x ∈ taken) :
    freshName (taken ++ t.names) ∉ t.names ++ bs := by
  have hfresh := freshName_not_mem (taken ++ t.names)
  rw [mem_append, not_or] at hfresh ⊢
  exact ⟨hfresh.2, fun hmem => hfresh.1 (htaken _ hmem)⟩

theorem Chainable.nodup_occurrences (h : Chainable dims d t bs) :
    ((chainOccurrences dims t bs).map (·.name)).Nodup := by
  rw [map_name_chainOccurrences]
  exact ((reverse_perm bs).append_left _).nodup_iff.mpr h.nodup

theorem singles_namedIndices (h : Chainable dims d t bs) :
    singles (namedIndices t.indices) = namedIndices t.indices :=
  singles_of_nodup (by rw [map_fst_namedIndices]; exact (nodup_append'.mp h.nodup).1)

theorem covariantChain_cons (h : Chainable dims d t (b :: bs)) :
    covariantChain mark taken ((b :: bs).map .lower) t =
      ofTerms (derivative .partialDerivative (.lower b)
          (covariantChain mark taken (bs.map .lower) t) none .none ::
        (namedIndices t.indices).map fun (name, height) =>
          let dummy := freshName (taken ++ t.names)
          connectionTerm mark name height dummy (.lower b)
            (covariantChain mark taken (bs.map .lower) (t.rename name dummy))) := by
  rw [map_cons, covariantChain, singles_namedIndices h]
  rfl

theorem firstDimension?_covariantChain (h : Chainable dims d t bs) :
    (covariantChain mark taken (bs.map .lower) t).firstDimension? dims = dims.ofTensor t.head := by
  induction bs with
  | nil => rfl
  | cons b bs ih =>
    rw [covariantChain_cons h]
    cases hnamed : namedIndices t.indices with
    | nil => exact ih h.tail
    | cons key keys =>
      have hd : dims.ofTensor t.head = some d := h.dimension (by rintro heq; simp [heq, namedIndices] at hnamed)
      rw [map_cons, ofTerms, firstDimension?, firstDimensionIn?, firstDimension?, ih h.tail, hd]
      · rfl
      · simp

theorem freeOccurrences_covariantChain (h : Chainable dims d t bs) :
    (covariantChain mark taken (bs.map .lower) t).freeOccurrences dims =
      chainOccurrences dims t bs := by
  induction bs with
  | nil =>
    have hnodup := h.nodup_occurrences
    have hnil : chainOccurrences dims t [] = tensorOccurrences dims t := append_nil _
    rw [hnil] at hnodup ⊢
    exact lone_of_nodup hnodup
  | cons b bs ih =>
    rw [covariantChain_cons h, freeOccurrences_ofTerms, freeOccurrences, ih h.tail,
      derivativeRange?, firstDimension?_covariantChain h.tail]
    rw [← chainOccurrences_cons]
    exact lone_of_nodup h.nodup_occurrences

theorem exists_of_mem_indexNames_covariantChain {x : String}
    (hx : x ∈ (covariantChain mark taken (bs.map .lower) t).indexNames) :
    x ∈ t.names ++ bs ∨ ∃ n, x = dummyName n := by
  induction bs generalizing t with
  | nil => exact .inl (mem_append_left _ hx)
  | cons b bs ih =>
    rw [map_cons, covariantChain] at hx
    obtain ⟨term, hterm, hx⟩ := mem_indexNames_ofTerms hx
    rcases mem_cons.mp hterm with rfl | hterm
    · rcases mem_append.mp hx with hx | hx
      · rw [mem_singleton.mp hx]
        exact .inl (by simp)
      · exact (ih hx).imp_left mem_names_cons
    · obtain ⟨⟨name, height⟩, hname, rfl⟩ := mem_map.mp hterm
      obtain ⟨n, hn, _⟩ := freshName_spec (taken ++ t.names)
      have hname : name ∈ t.names :=
        mem_indexNames_of_namedIndices ((singles_sublist _).subset hname)
      rcases mem_indexNames_connectionTerm hx with rfl | rfl | hb | hx
      · exact .inl (mem_append_left _ hname)
      · exact .inr ⟨n, hn⟩
      · rw [← Option.some.inj hb]
        exact .inl (by simp)
      · rcases ih hx with hx | hx
        · rcases mem_append.mp hx with hx | hx
          · rw [names_rename] at hx
            obtain ⟨y, hy, rfl⟩ := mem_map.mp hx
            split
            · exact .inr ⟨n, hn⟩
            · exact .inl (mem_append_left _ hy)
          · exact .inl (mem_names_cons (mem_append_right _ hx))
        · exact .inr hx

theorem boundNames_covariantChain :
    (covariantChain mark taken (bs.map .lower) t).boundNames = [] := by
  induction bs generalizing t with
  | nil => rfl
  | cons b bs ih =>
    rw [map_cons, covariantChain, boundNames_ofTerms]
    apply flatMap_eq_nil_iff.mpr
    intro term hterm
    rcases mem_cons.mp hterm with rfl | hterm
    · exact ih
    · obtain ⟨⟨name, height⟩, _, rfl⟩ := mem_map.mp hterm
      cases height <;>
        simp [connectionTerm, boundNames, boundNameLists, connection, integer, ih]

theorem plain_covariantChain
    (hnames : ∀ k, summationName k ∉ t.names ++ bs) :
    (covariantChain mark taken (bs.map .lower) t).Plain where
  bound := boundNames_covariantChain
  names k hk := by
    rcases exists_of_mem_indexNames_covariantChain hk with hk | ⟨n, hn⟩
    · exact hnames k hk
    · exact dummyName_ne_summationName n k hn.symm

section Dummy

variable (h : Chainable dims d t (b :: bs)) {name dummy : String} {height : Height}
  (hname : (name, height) ∈ namedIndices t.indices)
  (hdummy : dummy ∉ t.names ++ b :: bs)
include h hname hdummy

theorem distinct_names : [name, dummy, b].Nodup := by
  have hmem := mem_indexNames_of_namedIndices hname
  obtain ⟨_, _, hdisjoint⟩ := nodup_append'.mp h.nodup
  have hdummyname : name ≠ dummy := fun heq => hdummy (mem_append_left _ (heq ▸ hmem))
  have hdummyb : dummy ≠ b := fun heq => hdummy (by simp [heq])
  have hnameb : name ≠ b := fun heq => hdisjoint hmem (by simp [heq])
  simp [hdummyname, hdummyb, hnameb]

theorem corrects_covariantChain : Corrects dims d name dummy b
    (covariantChain mark taken (bs.map .lower) (t.rename name dummy)) := by
  have hrename : Chainable dims d (t.rename name dummy) bs := h.rename fun hmem =>
    hdummy (mem_names_cons hmem)
  have hdistinct := distinct_names h hname hdummy
  have hmem : name ∈ t.names := mem_indexNames_of_namedIndices hname
  obtain ⟨_, hbs, hdisjoint⟩ := nodup_append'.mp h.nodup
  have hnames : (chainOccurrences dims (t.rename name dummy) bs).map (·.name) =
      t.names.map (fun x => if x = name then dummy else x) ++
        bs.reverse := by
    rw [map_name_chainOccurrences, TensorRef.names_rename]
  refine ⟨hdistinct, ?_, ?_, ?_, ?_, ?_⟩
  all_goals rw [freeOccurrences_covariantChain hrename]
  · exact hrename.nodup_occurrences
  · rw [hnames]
    exact mem_append_left _ (mem_map.mpr ⟨name, hmem, if_pos rfl⟩)
  · intro o ho heq
    rcases mem_append.mp ho with ho | ho
    · obtain ⟨key, hkey, rfl⟩ := mem_map.mp ho
      exact hrename.dimension (by rintro hnil; simp [hnil, namedIndices] at hkey)
    · obtain ⟨x, hx, rfl⟩ := mem_map.mp ho
      refine absurd ?_ hdummy
      rw [← heq]
      exact mem_append_right _ (mem_cons_of_mem _ (mem_reverse.mp hx))
  · rw [hnames]
    intro hx
    rcases mem_append.mp hx with hx | hx
    · obtain ⟨x, _, heq⟩ := mem_map.mp hx
      have hne : dummy ≠ name := by
        rintro rfl
        exact hdummy (mem_append_left _ hmem)
      grind
    · exact hdisjoint hmem (mem_cons_of_mem _ (mem_reverse.mp hx))
  · rw [hnames]
    intro hx
    rcases mem_append.mp hx with hx | hx
    · obtain ⟨x, hx, heq⟩ := mem_map.mp hx
      split at heq
      · exact hdummy (by simp [heq])
      · exact hdisjoint hx (by simp [heq])
    · exact (nodup_cons.mp hbs).1 (mem_reverse.mp hx)

theorem keys_correction (mark : Diacritic) :
    ((tensorOccurrences dims (connectionRef mark name height dummy b) ++
        chainOccurrences dims (t.rename name dummy) bs).map key).Nodup ∧
      ∀ k, k ∈ (lone (tensorOccurrences dims (connectionRef mark name height dummy b) ++
          chainOccurrences dims (t.rename name dummy) bs)).map key ↔
        k ∈ (chainOccurrences dims t (b :: bs)).map key := by
  have hcons : (chainOccurrences dims t (b :: bs)).map key =
      (chainOccurrences dims t bs).map key ++ [(b, .lower)] := by
    simp [map_key_chainOccurrences]
  have hnames : (((chainOccurrences dims t bs).map key ++ [(b, Height.lower)]).map (·.1)).Nodup := by
    rw [← hcons, map_map]
    exact h.nodup_occurrences
  have hrename : (chainOccurrences dims (t.rename name dummy) bs).map key =
      ((chainOccurrences dims t bs).map key).map (renameKey name dummy) := by
    have hbs : (bs.reverse.map (·, Height.lower)).map (renameKey name dummy) =
        bs.reverse.map (·, Height.lower) := by
      rw [map_map]
      apply map_congr_left
      intro x hx
      have hne : x ≠ name := by
        rintro rfl
        exact (nodup_append'.mp h.tail.nodup).2.2 (mem_indexNames_of_namedIndices hname)
          (mem_reverse.mp hx)
      simp [renameKey, hne]
    rw [map_key_chainOccurrences, map_key_chainOccurrences, map_append, hbs, TensorRef.rename,
      namedIndices_rename]
  have hconnection : singles ((tensorOccurrences dims
      (connectionRef mark name height dummy b)).map key) =
        (tensorOccurrences dims (connectionRef mark name height dummy b)).map key := by
    apply singles_of_nodup
    rw [map_map]
    exact (names_connectionRef dims).nodup_iff.mpr (distinct_names h hname hdummy)
  have hfresh : ∀ k ∈ (chainOccurrences dims t bs).map key ++ [(b, Height.lower)], k.1 ≠ dummy := by
    rintro k hk rfl
    have hmem := mem_map_of_mem (f := (·.1)) hk
    rw [← hcons, map_map] at hmem
    apply hdummy
    rw [← ((reverse_perm (b :: bs)).append_left _).mem_iff, ← map_name_chainOccurrences]
    exact hmem
  obtain ⟨_, hnodup, hmem⟩ := singles_correction
    (by rw [map_append] at hnames; exact (nodup_append'.mp hnames).1)
    (by rw [map_key_chainOccurrences]; exact mem_append_left _ hname)
    (hnames.of_map _) hfresh (keys_connectionRef dims mark)
  rw [hconnection, ← hrename, ← map_append] at hnodup hmem
  refine ⟨hnodup, fun k => ?_⟩
  rw [map_key_lone, hmem, singles_of_nodup hnames, hcons]

end Dummy

theorem succeeds_covariantChain (h : Chainable dims d t bs)
    (hd : dims.ofTensor (connectionHead mark) = some d) (htaken : ∀ x ∈ bs, x ∈ taken)
    (hnames : ∀ k, summationName k ∉ t.names ++ bs) :
    Succeeds dims (covariantChain mark taken (bs.map .lower) t) := by
  induction bs generalizing t with
  | nil =>
    refine .tensor (.of_nodup ?_)
    rw [map_name_tensorOccurrences]
    exact (nodup_append'.mp h.nodup).1
  | cons b bs ih =>
    have hplain : (covariantChain mark taken ((b :: bs).map .lower) t).Plain :=
      plain_covariantChain hnames
    rw [covariantChain_cons h] at hplain ⊢
    have hdummy := fresh_dummy t htaken
    have hdummyname := freshName_ne_summationName (taken ++ t.names)
    generalize freshName (taken ++ t.names) = dummy at *
    have htail : ∀ x ∈ bs, x ∈ taken := fun x hx => htaken x (mem_cons_of_mem _ hx)
    have hinner (k : Nat) : summationName k ∉ t.names ++ bs := fun hk =>
      hnames k (mem_names_cons hk)
    have hrename (name : String) : Chainable dims d (t.rename name dummy) bs := h.rename fun hmem =>
      hdummy (mem_names_cons hmem)
    have hrenamed (name : String) (k : Nat) :
        summationName k ∉ (t.rename name dummy).names ++ bs := by
      intro hk
      rcases mem_append.mp hk with hk | hk
      · rw [names_rename] at hk
        obtain ⟨x, hx, heq⟩ := mem_map.mp hk
        split at heq
        · exact hdummyname k heq
        · exact hinner k (heq ▸ mem_append_left _ hx)
      · exact hinner k (mem_append_right _ hk)
    have hcorrects {name : String} {height : Height}
        (hname : (name, height) ∈ namedIndices t.indices) : Corrects dims d name dummy b
          (covariantChain mark taken (bs.map .lower) (t.rename name dummy)) :=
      corrects_covariantChain h hname hdummy
    refine .ofTerms (fun term hterm => ⟨?_, hplain.of_ofTerms term hterm⟩) (fun term hterm k => ?_)
    · rcases mem_cons.mp hterm with rfl | hterm
      · refine .derivative (ih h.tail htail hinner) (plain_covariantChain hinner) ?_
        rw [freeOccurrences_covariantChain h.tail, derivativeRange?,
          firstDimension?_covariantChain h.tail, ← chainOccurrences_cons]
        exact .of_nodup h.nodup_occurrences
      · obtain ⟨⟨name, height⟩, hname, rfl⟩ := mem_map.mp hterm
        have hkeys := (keys_correction h hname hdummy mark).1
        rw [← freeOccurrences_covariantChain (hrename name)] at hkeys
        refine (hcorrects hname).succeeds hd hkeys
          (ih (hrename name) htail (hrenamed name)) (plain_covariantChain (hrenamed name)) ?_
        intro k hk
        simp only [mem_cons, not_mem_nil, or_false] at hk
        rcases hk with hk | hk | hk
        · exact hnames k (hk ▸ mem_append_left _ (mem_indexNames_of_namedIndices hname))
        · exact hdummyname k hk.symm
        · exact hnames k (by simp [hk])
    · obtain ⟨⟨name, height⟩, hname, rfl⟩ := mem_map.mp hterm
      rw [freeOccurrences, freeOccurrences_covariantChain h.tail, derivativeRange?,
        firstDimension?_covariantChain h.tail, ← chainOccurrences_cons,
        lone_of_nodup h.nodup_occurrences, freeOccurrences_connectionTerm,
        freeOccurrences_covariantChain (hrename name),
        lone_of_nodup ((hcorrects hname).nodup_connection mark height)]
      exact ((keys_correction h hname hdummy mark).2 k).symm

theorem map_snd_namedIndices (hnamed : ∀ i ∈ t.indices, i.name?.isSome) :
    (namedIndices t.indices).map (·.2) = t.head.heights := by
  rw [namedIndices, map_filterMap, TensorRef.head]
  refine filterMap_eq_map_iff_forall_eq_some.mpr fun i hi => ?_
  obtain ⟨name, hname⟩ := Option.isSome_iff_exists.mp (hnamed i hi)
  rw [hname]
  rfl

theorem map_value_rename {names : List String} {name dummy : String} {slot : Nat}
    (hnodup : names.Nodup) (hslot : names[slot]? = some name) (hdummy : dummy ∉ names) (a : Nat) :
    (names.map fun x => if x = name then dummy else x).map (Assignment.value ((dummy, a) :: ρ)) =
      (names.map ρ.value).set slot a := by
  obtain ⟨hlt, rfl⟩ := List.getElem?_eq_some_iff.mp hslot
  apply ext_getElem
  · simp
  · intro k hk hk'
    have hk : k < names.length := by simpa using hk
    have hmem : names[k] ≠ dummy := fun heq => hdummy (heq ▸ getElem_mem hk)
    simp only [getElem_map, getElem_set, Assignment.value, Assignment.lookup_cons]
    by_cases heq : slot = k
    · subst heq
      simp
    · have hne : names[k] ≠ names[slot] := fun h => heq (hnodup.getElem_inj_iff.mp h).symm
      simp [heq, hne, hmem]

theorem convention_partialDerivative (r : Reading (Except Error)) {f : Formula} {k : Nat}
    (hk : ρ.lookup b = some k) (hnodup : ((f.freeOccurrences dims ++
      derivativeOccurrences (f.derivativeRange? dims) (.lower b) .none).map (·.name)).Nodup) :
    (derivative .partialDerivative (.lower b) f none .none).convention r dims ρ = (do
      let e ← f.convention r dims ρ
      r.differentiate e k (some ((f.derivativeRange? dims).getD dims.default)) .none) := by
  rw [convention, sumOverPaired, paired_of_nodup hnodup]
  have hindex : ρ.indexValue .none (.lower b) = .ok k := by
    simp only [indexValue, Index.lower, Index.named, hk]
    rfl
  change r.derivativeAt ρ .partialDerivative (.lower b) _ .none _ = _
  rw [Reading.derivativeAt, hindex]
  rfl

def chainComponent (dims : Dimensions) (d : Nat) (mark : Diacritic) (r : Reading (Except Error))
    (t : TensorRef) : List Nat → IndexVector → Except Error Expr :=
  covariantComponent r mark d ((dims.ofCoordinates.or (dims.ofTensor t.head)).getD dims.default)
    t.head t.span

theorem convention_correction (h : Chainable dims d t (b :: bs))
    (hd : dims.ofTensor (connectionHead mark) = some d) (r : Reading (Except Error))
    {name dummy : String} {height : Height} {slot : Nat}
    (hslot : (namedIndices t.indices)[slot]? = some (name, height))
    (hdummy : dummy ∉ t.names ++ b :: bs)
    (hρ : ∀ x ∈ t.names ++ b :: bs, (ρ.lookup x).isSome)
    (ih : ∀ {t : TensorRef} {ρ : Assignment}, Chainable dims d t bs →
      (∀ x ∈ t.names ++ bs, (ρ.lookup x).isSome) →
        (covariantChain mark taken (bs.map .lower) t).convention r dims ρ =
          chainComponent dims d mark r t (bs.map ρ.value)
            (t.names.map ρ.value)) :
    (connectionTerm mark name height dummy (.lower b)
      (covariantChain mark taken (bs.map .lower) (t.rename name dummy))).convention r dims ρ =
    connectionSum r mark d height
      ((t.names.map ρ.value).getD slot 0) (ρ.value b) fun a =>
        chainComponent dims d mark r t (bs.map ρ.value)
          ((t.names.map ρ.value).set slot a) := by
  have hname := mem_of_getElem? hslot
  have hnames : t.names[slot]? = some name := by
    rw [TensorRef.names, ← map_fst_namedIndices, getElem?_map, hslot]
    rfl
  have hvalue : (t.names.map ρ.value).getD slot 0 = ρ.value name := by
    rw [getD_eq_getElem?_getD, getElem?_map, hnames]
    rfl
  have hcorrects : Corrects dims d name dummy b
      (covariantChain mark taken (bs.map .lower) (t.rename name dummy)) :=
    corrects_covariantChain h hname hdummy
  rw [hcorrects.convention_eq hd height r
    (lookup_eq_value
      (hρ _ (mem_append_left _ (mem_indexNames_of_namedIndices hname))))
    (lookup_eq_value (hρ _ (mem_append_right _ mem_cons_self))), hvalue]
  congr 1
  funext a
  rw [ih (h.rename fun hmem => hdummy (mem_names_cons hmem))]
  · have hbs : bs.map (Assignment.value ((dummy, a) :: ρ)) = bs.map ρ.value := by
      apply map_congr_left
      intro x hx
      have hne : x ≠ dummy := by
        rintro rfl
        exact hdummy (mem_append_right _ (mem_cons_of_mem _ hx))
      rw [Assignment.value, Assignment.lookup_cons, if_neg hne]
      rfl
    rw [hbs, names_rename, map_value_rename (nodup_append'.mp h.nodup).1 hnames
      (fun hmem => hdummy (mem_append_left _ hmem)), chainComponent, TensorRef.head_rename]
    rfl
  · intro x hx
    rw [Assignment.lookup_cons]
    split
    · rfl
    · next hne =>
      apply hρ
      rcases mem_append.mp hx with hx | hx
      · rw [names_rename] at hx
        obtain ⟨y, hy, rfl⟩ := mem_map.mp hx
        split at hne
        · exact absurd rfl hne
        · next hname => 
          rw [if_neg hname]
          exact mem_append_left _ hy
      · exact mem_append_right _ (mem_cons_of_mem _ hx)

section

variable (h : Chainable dims d t bs) (hd : dims.ofTensor (connectionHead mark) = some d)
  (htaken : ∀ x ∈ bs, x ∈ taken)
include h hd htaken

theorem convention_covariantChain (r : Reading (Except Error))
    (hρ : ∀ x ∈ t.names ++ bs, (ρ.lookup x).isSome) :
    (covariantChain mark taken (bs.map .lower) t).convention r dims ρ =
      chainComponent dims d mark r t (bs.map ρ.value)
        (t.names.map ρ.value) := by
  induction bs generalizing t ρ with
  | nil =>
    rw [append_nil] at hρ
    have hnodup := (nodup_append'.mp h.nodup).1
    rw [TensorRef.names, ← map_name_tensorOccurrences dims] at hnodup
    change sumOverPaired dims (tensorOccurrences dims t) (r.componentAt · t) ρ = _
    rw [sumOverPaired, paired_of_nodup hnodup]
    change r.componentAt ρ t = _
    rw [Reading.componentAt, indexValues_eq h.named hρ]
    rfl
  | cons b bs ih =>
    have htail : ∀ x ∈ bs, x ∈ taken := fun x hx => htaken x (mem_cons_of_mem _ hx)
    have hρtail : ∀ x ∈ t.names ++ bs, (ρ.lookup x).isSome := fun x hx =>
      hρ x (mem_names_cons hx)
    have hb := lookup_eq_value (hρ b (mem_append_right _ mem_cons_self))
    have hrange : (covariantChain mark taken (bs.map .lower) t).derivativeRange? dims =
        dims.ofCoordinates.or (dims.ofTensor t.head) := by
      rw [derivativeRange?, firstDimension?_covariantChain h.tail]
    have hnodup := h.nodup_occurrences
    rw [chainOccurrences_cons, ← hrange, ← freeOccurrences_covariantChain h.tail] at hnodup
    rw [covariantChain_cons h, convention_ofTerms, convention_partialDerivative r hb hnodup, hrange,
      ih h.tail htail hρtail, chainComponent, map_cons, covariantComponent]
    -- the slots are counted as the named indices are
    have hheights : t.head.heights.zipIdx =
        (namedIndices t.indices).zipIdx.map fun p => (p.1.2, p.2) := by
      rw [← map_snd_namedIndices h.named, zipIdx_map]
      rfl
    have hterms (g : String × Height → Formula) : (namedIndices t.indices).map g =
        (namedIndices t.indices).zipIdx.map (g ∘ Prod.fst) := by
      rw [← map_map, zipIdx_map_fst]
    rw [hheights, hterms, mapM_map, mapM_map]
    simp only [bind_assoc]
    refine bind_congr fun e => bind_congr fun e' => congrArg (· >>= _) (mapM_congr ?_)
    rintro ⟨⟨name, height⟩, slot⟩ hslot
    exact convention_correction h hd r (mem_zipIdx_iff_getElem?.mp hslot)
      (fresh_dummy t htaken) hρ fun h hρ => ih h htail hρ

theorem resolved_covariantChain
    (hnames : ∀ k, summationName k ∉ t.names ++ bs) :
    ∃ f free, (covariantChain mark taken (bs.map .lower) t).resolved dims = .ok (f, free) ∧
      free.map Occurrence.key = namedIndices t.indices ++ bs.reverse.map (·, .lower) ∧
      ∀ (r : Reading (Except Error)) (ρ : Assignment),
        (∀ x ∈ t.names ++ bs, (ρ.lookup x).isSome) →
          f.evaluate r ρ = chainComponent dims d mark r t (bs.map ρ.value)
            (t.names.map ρ.value) := by
  obtain ⟨f, n, hf, hresolves⟩ := (succeeds_covariantChain h hd htaken hnames).resolved
    (plain_covariantChain hnames)
  refine ⟨f, _, hf, ?_, fun r ρ hρ => ?_⟩
  · rw [freeOccurrences_covariantChain h, map_key_chainOccurrences]
  · rw [hresolves.evaluate, convention_covariantChain h hd htaken r hρ]

end

/-- The covariant derivatives of a tensor by lower indices resolve, with the indices of the
tensor and of the derivatives free. Each component is that of the recursion over the order. -/
theorem resolved_covariantDerivative (dims : Dimensions) (d : Nat) (mark : Diacritic)
    (t : TensorRef) (bs : List String)
    (hnamed : ∀ i ∈ t.indices, i.name?.isSome)
    (hnodup : (t.indices.filterMap Index.name? ++ bs).Nodup)
    (hnames : ∀ k, summationName k ∉ t.indices.filterMap Index.name? ++ bs)
    (ht : t.indices ≠ [] → dims.ofTensor t.head = some d)
    (hd : dims.ofTensor (connectionHead mark) = some d) :
    ∃ f free, (covariantDerivative mark (bs.map .lower) t).resolved dims = .ok (f, free) ∧
      free.map Occurrence.key = namedIndices t.indices ++ bs.reverse.map (·, .lower) ∧
      ∀ (r : Reading (Except Error)) (ρ : Assignment),
        (∀ x ∈ t.indices.filterMap Index.name? ++ bs, (ρ.lookup x).isSome) →
          f.evaluate r ρ = covariantComponent r mark d
            ((dims.ofCoordinates.or (dims.ofTensor t.head)).getD dims.default) t.head t.span
            (bs.map ρ.value) ((t.indices.filterMap Index.name?).map ρ.value) := by
  refine resolved_covariantChain ⟨hnamed, hnodup, ht⟩ hd (fun x hx => ?_) hnames
  rw [List.filterMap_append, List.mem_append]
  exact .inr (List.mem_filterMap.mpr ⟨.lower x, List.mem_map_of_mem hx, rfl⟩)

theorem resolved_covariantDerivative_second :
    let t : TensorRef := .ofBase "T" [.upper "mu", .lower "nu"] .none
    let dims : Dimensions := ⟨fun _ => some 2, none, 3⟩
    (∀ i ∈ t.indices, i.name?.isSome) ∧ ["mu", "nu", "a", "b"].Nodup ∧
      (∀ k, summationName k ∉ ["mu", "nu", "a", "b"]) ∧ dims.ofTensor t.head = some 2 ∧
      ∃ f free, (covariantDerivative .hat [.lower "a", .lower "b"] t).resolved dims =
          .ok (f, free) ∧
        free.map Occurrence.key = [("mu", .upper), ("nu", .lower), ("b", .lower), ("a", .lower)] ∧
        ∀ r, f.evaluate r [("mu", 0), ("nu", 1), ("a", 1), ("b", 0)] =
          covariantComponent r .hat 2 2 t.head .none [1, 0] [0, 1] := by
  intro t dims
  have hnamed : ∀ i ∈ t.indices, i.name?.isSome := by decide
  have hnodup : ["mu", "nu", "a", "b"].Nodup := by decide
  have hnames : ∀ k, summationName k ∉ ["mu", "nu", "a", "b"] :=
    summationName_not_mem (by decide)
  obtain ⟨f, free, hf, hfree, hvalues⟩ := resolved_covariantDerivative dims 2 .hat t ["a", "b"]
    hnamed hnodup hnames (fun _ => rfl) rfl
  refine ⟨hnamed, hnodup, hnames, rfl, f, free, hf, hfree, fun r => ?_⟩
  exact hvalues r [("mu", 0), ("nu", 1), ("a", 1), ("b", 0)] (by decide)

/-- An index that is named like a summation index is captured by a sum. -/
theorem covariantDerivative_captures_summationName :
    let t : TensorRef := .ofBase "T" [.upper "_0"] .none
    let dims : Dimensions := ⟨fun _ => some 2, none, 2⟩
    let component (t : TensorHead) (index : IndexVector) : Expr :=
      if t.rank = 1 ∨ index = [0, 1, 0] then .one else .zero
    let r : Reading (Except Error) := .ofValues .sym component fun _ _ => .zero
    let ρ : Assignment := [("_0", 0), ("b", 0)]
    (["_0", "b"].Nodup ∧ ∀ x ∈ ["_0", "b"], (ρ.lookup x).isSome) ∧
      ((covariantDerivative .none [.lower "b"] t).resolved dims >>= fun p =>
        p.1.evaluate r ρ).toOption = some .zero ∧
      (covariantComponent r .none 2 2 t.head .none [0] [0]).toOption = some .one := by
  intro t dims component r ρ
  refine ⟨by decide, ?_, ?_⟩
  · dsimp only [t, dims, component, r, ρ]
    cbv
  · dsimp only [t, dims, component, r, ρ]
    cbv

end Chain

end Formula

end TensorCalculus
