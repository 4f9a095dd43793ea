import TensorCalculus.Proofs.Formula.CovariantChain
import TensorCalculus.Proofs.Session.Equation
import TensorCalculus.Proofs.Session.Outcome

/-! Connections and covariant derivatives, which are computed and stored while a formula is
expanded. Beside the changes that evaluation makes, these are all that the expansion leaves. -/
namespace TensorCalculus

open List Index
open Relation hiding map_map
open String hiding length_append length_map map_map

variable {name : String} {mark : Diacritic} {e : Entry} {metric : Metric} {f operand : Formula}

theorem CovariantSpelling.append (h : CovariantSpelling name) (more : String) :
    CovariantSpelling (name ++ more) := by
  unfold CovariantSpelling
  rw [toList_append]
  exact h.trans (prefix_append _ _).isInfix

theorem CovariantSpelling.raised (h : CovariantSpelling name) :
    CovariantSpelling (Session.raisedName name) := by
  unfold Session.raisedName
  split
  · next rest hname =>
    have hlist : name.toList = rest.reverse ++ ['D'] := by
      rw [← reverse_cons, ← hname, reverse_reverse]
    unfold CovariantSpelling at h
    rw [hlist, infix_concat_iff] at h
    have hrest : covariantMark <:+: rest.reverse := by
      refine h.resolve_left fun hsuffix => ?_
      obtain ⟨before, hbefore⟩ := hsuffix
      have hlast := congrArg List.getLast? hbefore
      simp [covariantMark] at hlast
    unfold CovariantSpelling
    rw [toList_ofList, reverse_cons]
    exact hrest.trans (prefix_append _ _).isInfix
  · exact h.append _

theorem CovariantName.spelling (h : CovariantName mark name) : CovariantSpelling name := by
  obtain ⟨stem, n, hname⟩ := h
  unfold CovariantSpelling
  rw [hname, List.append_assoc]
  exact infix_append ..

namespace Session

theorem spelling_covariantName
    (h : e.origin = .covariantDerivative mark → CovariantName mark e.name) :
    CovariantName mark (covariantName e mark) := by
  unfold covariantName
  split
  · next horigin =>
    obtain ⟨stem, n, hname⟩ := h horigin
    refine ⟨stem, n + 1, ?_⟩
    rw [toList_append, hname, replicate_succ' (n := n + 1), ← List.append_assoc]
    rfl
  · refine ⟨e.name.toList, 0, ?_⟩
    rw [toList_append, toList_append, toList_append]
    rfl

def raisedTarget (lower : Entry) : Entry :=
  derivedEntry lower (raisedName lower.name) (lower.heights.dropLast ++ [.upper]) .computed

def raisedFormula (lower : Entry) (metricBase : String) : Formula :=
  .product [.tensor (.ofBase metricBase [.upper "_d", .upper "_a"] .none),
    .tensor (.ofName lower.name (genericIndices lower.heights.dropLast ++ [.lower "_a"]) .none)]

def assignRaised (lower : Entry) (metricBase : String) (span : Span) : SessionM Unit :=
  assign (raisedTarget lower) (genericIndices lower.heights.dropLast ++ [.upper "_d"])
    (raisedFormula lower metricBase) span

def Evaluates (p : String → Prop) : Session → Session → Prop :=
  ReflTransGen (Change p fun _ _ => False)

/-- How an entry that is about to be stored in a session was computed: a connection for the metric
in force, and derivatives in a session before, from which evaluation has led to this one. -/
inductive Traced (p : String → Prop) (s : Session) (k : Entry) : Prop
  | connection {mark : Diacritic} {metric : Metric} {value : Tensor}
    (hmetric : s.metrics mark = some metric) (hk : k = connectionEntry mark metric value) :
    Traced p s k
  | covariant {u : Session} {e : Entry} {mark : Diacritic} {span : Span} {value : Tensor}
    (hu : u.Within p) (h : Evaluates p u s) (he : u.table.get? e.name = some e)
    (hk : k = { covariantTarget e mark with value })
    (hrun : (assignCovariant e mark span).run u = (.ok (), s.insert k)) : Traced p s k
  | raised {u : Session} {lower : Entry} {mark : Diacritic} {metric : Metric} {span : Span}
    {value : Tensor} (hu : u.Within p) (h : Evaluates p u s)
    (hlower : u.table.get? lower.name = some lower) (hname : CovariantName mark lower.name)
    (hmetric : u.metrics mark = some metric) (hk : k = { raisedTarget lower with value })
    (hrun : (assignRaised lower metric.base span).run u = (.ok (), s.insert k)) : Traced p s k

/-- The connections and derivatives that are stored on the way. -/
structure Auxiliary (p : String → Prop) (s : Session) (k : Entry) : Prop where
  computed : k.Computed p
  traced : Traced p s k

variable {p : String → Prop} {C : Session → Entry → Prop} {s t : Session}

theorem Evaluates.reach (h : Evaluates p s t) : ReflTransGen (Change p C) s t := by
  refine ReflTransGen.mono (fun _ _ hchange => ?_) _ _ h
  cases hchange with
  | scalar hname hfree => exact .scalar hname hfree
  | derivative hget n => exact .derivative hget n
  | computed hfalse => exact hfalse.elim

theorem metrics_of_change (h : Change p C s t) : t.metrics = s.metrics := by
  cases h <;> rfl

theorem metrics_of_reach (h : ReflTransGen (Change p C) s t) : t.metrics = s.metrics := by
  induction h with
  | refl => rfl
  | tail _ h ih => exact (metrics_of_change h).trans ih

theorem computed_connectionEntry {mark : Diacritic} {metric : Metric} {value : Tensor}
    (h : (connectionEntry mark metric value).Filled p) :
    (connectionEntry mark metric value).Computed p where
  silent := silent_connectionEntry mark metric value
  ordered := ordered_connectionSymmetry
  origin := nofun
  spelled := nofun
  name := .inr ⟨mark, rfl⟩
  filled := h

theorem computed_derivedEntry {e : Entry} (he : e.Proper) {name : String}
    (hname : CovariantSpelling name) {heights : List Height} (hheights : heights ≠ [])
    {origin : Origin} (horigin : origin = .computed ∨
      ∃ mark, origin = .covariantDerivative mark ∧ CovariantName mark name)
    {value : Tensor} (h : { derivedEntry e name heights origin with value }.Filled p) :
    { derivedEntry e name heights origin with value }.Computed p where
  silent := silent_derivedEntry e name hheights (horigin.imp_right fun ⟨mark, h, _⟩ => ⟨mark, h⟩) value
  ordered q hq := he.ordered q (by simpa [derivedEntry, slotPairs_ofPairs] using hq)
  origin hpartial := by
    rcases horigin with rfl | ⟨mark, rfl, _⟩ <;> cases hpartial
  spelled mark hmark := by
    rcases horigin with rfl | ⟨mark, rfl, hspelled⟩ <;> cases hmark
    exact hspelled
  name := .inl hname
  filled := h

theorem filled_connectionEntry (mark : Diacritic) {upper : Tensor} {derivatives : List Tensor}
    (hupper : upper.Over p) (hderivatives : ∀ t ∈ derivatives, t.Over p) :
    (connectionEntry mark metric
      (connectionValue upper derivatives metric.dimension)).Filled p := by
  obtain ⟨hfull, hrank, hdimension, _⟩ := Tensor.foldl_set
    (g := christoffelAt upper derivatives metric.dimension)
    (connectionSymmetry.distinctIndices 3 metric.dimension) (Tensor.full_zeros 3 metric.dimension)
    (fun index hindex => (mem_filter.mp hindex).1)
  exact ⟨⟨_, ⟨hrank, hfull, fun _ => hdimension⟩, connectionValue_eq _ _ _⟩,
    forall_components_connectionValue (Expr.structural_over p) hupper hderivatives _⟩

section Expansion

variable (hp : ∀ symbol, Reserved symbol → p symbol)

include hp

theorem Rule.ofReserved : Rule p (Auxiliary p) :=
  ⟨hp, fun _ _ h => h.computed⟩

theorem Rule.ofEvaluation : Rule p fun _ _ => False :=
  ⟨hp, fun _ _ h => h.elim⟩

omit hp in
def upToDate (s : Session) (e : Entry) (mark : Diacritic) : Bool :=
  (s.table.get? (covariantName e mark)).any fun known =>
    known.source == some e.id && (s.table.get? mark.connectionName).all (·.id < known.id)

omit hp in
theorem run_unless (b : Bool) (x : SessionM Unit) (a : α) :
    (if !b then x >>= fun _ => pure a else pure a : SessionM α).run s =
      if b then (.ok a, s) else (x >>= fun _ => pure a).run s := by
  rw [run_ite]
  cases b <;> rfl

omit hp in
theorem run_covariantTensor_eq {t : TensorRef} (he : s.table.get? t.name = some e)
    (mark : Diacritic) (span : Span) :
    (covariantTensor t mark span).run s =
      if s.upToDate e mark then (.ok (covariantName e mark), s)
      else (assignCovariant e mark span >>= fun _ => pure (covariantName e mark)).run s := by
  rw [← run_unless]
  unfold covariantTensor
  rw [run_bind, run_get]
  dsimp only
  rw [he]
  rfl

omit hp in
def Mentions (p : String → Prop) (f : Formula) : Prop :=
  ∀ name ∈ f.scalarNames, p name

theorem expands : (changes (Rule.ofEvaluation hp)).Expands (changes (Rule.ofReserved hp)) p
    CovariantName where
  inner := (Rule.ofEvaluation hp).conducts
  outer := (Rule.ofReserved hp).conducts
  holds {_ _ w _ x x'} hx hw := by
    obtain ⟨⟨heq, hreach⟩, hresult⟩ := hx hw
    refine ⟨⟨heq, Evaluates.reach hreach⟩, ?_⟩
    generalize (x.run w.1).1 = r at hresult
    generalize (x'.run w.2).1 = r' at hresult
    cases hresult with
    | ok h => exact .ok h
    | error hplace hfault => exact .error (F := changes (Rule.ofReserved hp)) hplace hfault
  place := rfl
  evaluate h hf _ := (Rule.ofEvaluation hp).conducts.evaluate trivial h hf.scalars _
  connection {_ _ mark _ _ _} hw hv hmetric hupper hderivatives := by
    refine ⟨congrArg (insert · _) hv.1, .single (.computed ⟨computed_connectionEntry ?_, ?_⟩)⟩
    · exact filled_connectionEntry mark (hw.2.symbols hupper) hderivatives
    · exact .connection (by rw [metrics_of_reach hv.2]; exact hmetric) rfl
  named {_ _ e} mark hw he := spelling_covariantName fun horigin => by
    rw [hw.2.wellFormed.key he]
    exact hw.2.spelled he horigin
  covariant {_ _ _ name e mark _ value} hw he hv hreach hfilled hrun := by
    have hkey := hw.2.wellFormed.key he
    subst hkey
    have hname : CovariantName mark (covariantName e mark) :=
      spelling_covariantName fun horigin => hw.2.spelled he horigin
    refine ⟨congrArg (insert · _) hv.1, .single (.computed ⟨?_, .covariant hw.2 hreach.2 he rfl hrun⟩)⟩
    exact computed_derivedEntry (hw.2.wellFormed.proper he) hname.spelling (by simp)
      (.inr ⟨mark, rfl, hname⟩) hfilled
  raised {_ _ _ _ _ lower _ _ _ _} hw hu hmetric hname hlower hv hreach hfilled hrun := by
    have hkey := hw.2.wellFormed.key hlower
    subst hkey
    refine ⟨congrArg (insert · _) hv.1, .single (.computed ⟨?_, ?_⟩)⟩
    · exact computed_derivedEntry (hw.2.wellFormed.proper hlower) hname.spelling.raised (by simp)
        (.inl rfl) hfilled
    · exact .raised hw.2 hreach.2 hlower hname (by rw [metrics_of_reach hu.2]; exact hmetric) rfl hrun

theorem expandAndResolve_makes (taken : List String) (hf : Mentions p f) :
    Makes p (Auxiliary p) (expandAndResolve taken f) fun q => Mentions p q.1 :=
  .of_holds (fun _ => (expands hp).expandAndResolve taken (.refl (fun _ => rfl) f) hf)
    fun _ _ h => h.2.1.scalars

end Expansion

end Session

/-! The tensor of covariant derivatives of a tensor in the table. Its canonical components are
those of the covariant derivative, and the others follow from them. -/

theorem Formula.covariantStep_tensor (mark : Diacritic) (t : TensorRef) (b : String) :
    ((tensor t).covariantStep mark (.lower b) [b]).1 = covariantChain mark [b] [.lower b] t := by
  have hdummy : freshName ([b] ++ (tensor t).indexNames ++ (lower b).name?.toList) =
      freshName ([b] ++ t.indices.filterMap name?) := by
    apply freshName_congr
    intro x
    simp only [indexNames, Index.lower, Index.named, Index.name?, Option.toList_some,
      mem_append, mem_singleton]
    tauto
  unfold covariantStep
  rw [covariantChain]
  dsimp only
  have hindex : ({ lower b with height := .lower } : Index) = .lower b := rfl
  rw [hindex, hdummy]
  rfl

theorem Assignment.map_value_zip {names : List String} (hnodup : names.Nodup) {index : IndexVector}
    (hlength : index.length = names.length) :
    names.map (Assignment.value (names.zip index)) = index := by
  induction names generalizing index with
  | nil => exact (length_eq_zero_iff.mp hlength).symm
  | cons name names ih =>
    cases index with
    | nil => cases hlength
    | cons n index =>
      rw [nodup_cons] at hnodup
      have htail : names.map (Assignment.value ((name :: names).zip (n :: index))) =
          names.map (Assignment.value (names.zip index)) := by
        apply map_congr_left
        intro x hx
        have hne : x ≠ name := by
          rintro rfl
          exact hnodup.1 hx
        rw [Assignment.value, zip_cons_cons, Assignment.lookup_cons, if_neg hne]
        rfl
      rw [map_cons, htail, ih hnodup.2 (by simpa using hlength), Assignment.value,
        zip_cons_cons, Assignment.lookup_cons, if_pos rfl]
      rfl

def Entry.head (e : Entry) : TensorHead :=
  ⟨e.name, e.base, e.heights⟩

namespace Session

open Formula

section Generic

variable (heights : List Height)

theorem filterMap_name?_genericIndices :
    (genericIndices heights).filterMap name? =
      (List.range heights.length).map ("_s" ++ toString ·) := by
  unfold genericIndices
  rw [filterMap_map]
  change heights.zipIdx.filterMap (fun p => some ("_s" ++ toString p.2)) = _
  rw [filterMap_eq_map', range_eq_range', ← zipIdx_map_snd, map_map]
  rfl

theorem map_height_genericIndices : (genericIndices heights).map (·.height) = heights := by
  unfold genericIndices
  rw [map_map]
  exact zipIdx_map_fst ..

theorem named_genericIndices : ∀ i ∈ genericIndices heights, i.name?.isSome := by
  intro i hi
  obtain ⟨p, _, rfl⟩ := mem_map.mp hi
  rfl

theorem toList_genericName (n : Nat) : ("_s" ++ toString n).toList = '_' :: 's' :: (toString n).toList :=
  String.toList_append ..

theorem nodup_genericIndices :
    ((genericIndices heights).filterMap name? ++ ["_d"]).Nodup := by
  rw [filterMap_name?_genericIndices, nodup_append']
  refine ⟨nodup_range.map fun m n h => ?_, nodup_singleton _, fun x hx hd => ?_⟩
  · have hlist := congrArg String.toList h
    rw [toList_genericName, toList_genericName, List.cons.injEq, List.cons.injEq] at hlist
    exact Nat.repr_injective (String.toList_inj.mp hlist.2.2)
  · obtain ⟨n, _, rfl⟩ := mem_map.mp hx
    have hlist := congrArg String.toList (mem_singleton.mp hd)
    rw [toList_genericName] at hlist
    have hchars : "_d".toList = ['_', 'd'] := rfl
    rw [hchars, List.cons.injEq, List.cons.injEq] at hlist
    exact absurd hlist.2.1 (by decide)

theorem summationName_not_mem_genericIndices (k : Nat) :
    summationName k ∉ (genericIndices heights).filterMap name? ++ ["_d"] := by
  apply summationName_not_mem
  intro x hx
  rw [filterMap_name?_genericIndices] at hx
  rcases mem_append.mp hx with hx | hx
  · obtain ⟨n, _, rfl⟩ := mem_map.mp hx
    rw [isReserved, toList_genericName]
    simp [Char.isDigit]
  · rw [mem_singleton.mp hx]
    rfl

end Generic

theorem run_assign {s : Session} {target : Entry} {indices : List Index} {f f' : Formula}
    {free : List Occurrence} {span : Span} (hf : f.resolved s.dimensions = .ok (f', free))
    (hfree : checkFree indices free span = .ok ())
    (hcount : (Layout.componentCount? target.rank target.dimension).isSome)
    (hnames : (indices.filterMap name?).length = target.rank) :
    (assign target indices f span).run s =
      match (componentsOf target (indices.filterMap name?) f').run s with
      | (.ok value, u) => (.ok (), u.insert { target with value })
      | (.error fault, u) => (.error fault, u) := by
  have hresolve : (resolve f).run s = (.ok (f', free), s) := by
    unfold resolve
    rw [run_bind, run_get]
    dsimp only
    rw [run_lift, hf]
  have hcount' : ¬ (Layout.componentCount? target.rank target.dimension).isNone := by
    rw [Option.isNone_iff_eq_none, ← Option.not_isSome_iff_eq_none]
    exact not_not_intro hcount
  unfold assign
  rw [run_bind, hresolve]
  dsimp only
  rw [run_bind, run_lift, hfree]
  dsimp only
  unfold assignResolved
  dsimp only
  rw [run_ite, if_neg hcount', run_ite, if_neg (not_not_intro hnames), run_bind]
  rcases (componentsOf target (indices.filterMap name?) f').run s with ⟨_ | _, _⟩
  · rfl
  · rfl

variable {s : Session} {mark : Diacritic} {e : Entry}

theorem ofTensor_of_known {head : TensorHead} (h : s.table.get? head.name = some e)
    (hrank : e.rank = head.rank) (hpos : 0 < e.rank) :
    s.dimensions.ofTensor head = some e.dimension := by
  simp only [dimensions]
  rw [h]
  exact if_pos ⟨hrank, hpos⟩

def genericRef (e : Entry) : TensorRef :=
  ⟨e.name, e.base, genericIndices e.heights, .none⟩

theorem head_genericRef (e : Entry) : (genericRef e).head = e.head := by
  rw [TensorRef.head, genericRef, map_height_genericIndices]
  rfl

section Covariant

variable (he : s.table.get? e.name = some e) (hpos : 0 < e.rank)
  (hconnection : s.dimensions.ofTensor (connectionHead mark) = some e.dimension)
include he hpos hconnection

theorem resolved_covariantFormula (span : Span) :
    let indices := genericIndices e.heights ++ [.lower "_d"]
    ∃ f free, (covariantFormula e mark).resolved s.dimensions = .ok (f, free) ∧
      checkFree indices free span = .ok () ∧
      ∀ (r : Reading (Except Error)) (index : IndexVector), index.length = e.rank + 1 →
        f.evaluate r ((indices.filterMap name?).zip index) =
          covariantComponent r mark e.dimension (s.dimensions.ofCoordinates.getD e.dimension)
            e.head .none (index.drop e.rank) (index.take e.rank) := by
  intro indices
  have hsize : s.dimensions.ofTensor (genericRef e).head = some e.dimension := by
    rw [head_genericRef]
    exact @ofTensor_of_known s e e.head he rfl hpos
  have hnodup := nodup_genericIndices e.heights
  obtain ⟨f, free, hf, hfree, hvalues⟩ := resolved_covariantChain
    ⟨named_genericIndices e.heights, hnodup, fun _ => hsize⟩ hconnection
    (fun x (h : x ∈ ["_d"]) => h)
    (summationName_not_mem_genericIndices e.heights)
  rw [map_singleton, ← covariantStep_tensor] at hf
  refine ⟨f, free, hf, ?_, fun r index hindex => ?_⟩
  · have hnamed : namedIndices indices = free.map Occurrence.key := by
      rw [hfree, namedIndices, filterMap_append]
      rfl
    unfold checkFree
    rw [hnamed, if_pos (sameMembers_iff.mpr fun _ => Iff.rfl)]
    rfl
  · have hnames : indices.filterMap name? =
        (genericIndices e.heights).filterMap name? ++ ["_d"] := filterMap_append ..
    have hlength : ((genericIndices e.heights).filterMap name? ++ ["_d"]).length =
        index.length := by
      rw [length_append, length_genericIndices, hindex]
      rfl
    rw [hnames, hvalues r _ fun x hx => isSome_lookup_zip hlength hx]
    have hsplit := Assignment.map_value_zip hnodup hlength.symm
    generalize Assignment.value _ = value at hsplit ⊢
    have hfirst : (((genericIndices e.heights).filterMap name?).map value).length =
        e.rank := by
      rw [length_map, length_genericIndices]
      rfl
    have hrange : (s.dimensions.ofCoordinates.or (s.dimensions.ofTensor (genericRef e).head)).getD
        s.dimensions.default = s.dimensions.ofCoordinates.getD e.dimension := by
      rw [hsize]
      cases s.dimensions.ofCoordinates <;> rfl
    rw [chainComponent, hrange, head_genericRef, ← hsplit, map_append,
      drop_left' hfirst, take_left' hfirst]
    rfl

/-- Covariant derivatives that are not known yet are assembled from their components, where these
are given in all sessions of a class. -/
theorem run_covariantTensor {K : Session → Prop} (hs : K s) {r : Reading (Except Error)}
    (hr : RealizesReading K r) {component : IndexVector → Except Error Expr}
    (hcomponent : ∀ index, component index = covariantComponent r mark e.dimension
      (s.dimensions.ofCoordinates.getD e.dimension) e.head .none (index.drop e.rank)
        (index.take e.rank))
    (hgiven : ∀ index ∈ Layout.indices (e.rank + 1) e.dimension, ∃ x, component index = .ok x)
    (hordered : e.symmetry.Ordered) (hstale : s.upToDate e mark = false)
    (hcount : (Layout.componentCount? (e.rank + 1) e.dimension).isSome) {t : TensorRef}
    (ht : t.name = e.name) (span : Span) :
    ∃ (value : Tensor) (u : Session), (covariantTensor t mark span).run s =
        (.ok (covariantName e mark), u.insert { covariantTarget e mark with value }) ∧
      ∀ c ∈ Layout.indices (e.rank + 1) e.dimension, ∃ x,
        (covariantTarget e mark).symmetry.component component c = .ok x ∧ value.get? c = some x := by
  obtain ⟨f, free, hf, hfree, hvalues⟩ := resolved_covariantFormula he hpos hconnection span
  have hrank : (covariantTarget e mark).rank = e.rank + 1 := by
    simp [covariantTarget, derivedEntry, Entry.rank]
  have hindices {index : IndexVector} (h : index ∈ (covariantTarget e mark).symmetry.distinctIndices
      (covariantTarget e mark).rank (covariantTarget e mark).dimension) :
      index ∈ Layout.indices (e.rank + 1) e.dimension := by
    rw [← hrank]
    exact (mem_filter.mp h).1
  obtain ⟨value, hvalue, hget⟩ := @Entry.assemble_eq component (covariantTarget e mark)
    (fun p hp => hordered p (by
      simpa [covariantTarget, derivedEntry, slotPairs_ofPairs] using hp))
    (fun index hindex => hgiven index (hindices hindex))
  have hyields := @Yields.componentsOf
    ((genericIndices e.heights ++ [lower "_d"]).filterMap name?) component K f
    (covariantTarget e mark) fun index hindex => by
      obtain ⟨x, hx⟩ := hgiven index (hindices hindex)
      rw [hx]
      refine hr.evaluate f _ x ?_
      rw [hvalues r index (Layout.mem_indices.mp (hindices hindex)).1, ← hcomponent, hx]
  obtain ⟨hresult, -⟩ := hyields s hs
  rw [hvalue] at hresult
  rw [hrank] at hget
  have hassign := @run_assign s (covariantTarget e mark) _ _ _ _ _ hf hfree
    (by rw [hrank]; exact hcount) (by
      rw [filterMap_append, length_append, length_genericIndices, hrank]
      rfl)
  obtain ⟨u, hu⟩ : ∃ u, (componentsOf (covariantTarget e mark)
      ((genericIndices e.heights ++ [lower "_d"]).filterMap name?) f).run s =
        (.ok value, u) := ⟨_, Prod.ext hresult rfl⟩
  rw [hu] at hassign
  refine ⟨value, u, ?_, hget⟩
  rw [run_covariantTensor_eq (ht ▸ he), hstale, run_bind, assignCovariant, hassign]
  rfl

end Covariant

end Session

end TensorCalculus
