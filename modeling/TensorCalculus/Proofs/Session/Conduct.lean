import TensorCalculus.Proofs.Session.Course

/-! Expanding covariant derivatives. What is returned has none left, and the tensors that are
stored on the way are defined without internal faults. -/
namespace TensorCalculus

variable {name : String}

open List Formula

namespace Session

def covariantTarget (e : Entry) (mark : Diacritic) : Entry :=
  derivedEntry e (covariantName e mark) (e.heights ++ [.lower]) (.covariantDerivative mark)

def covariantFormula (e : Entry) (mark : Diacritic) : Formula :=
  ((Formula.tensor ⟨e.name, e.base, genericIndices e.heights, .none⟩).covariantStep mark
    (.lower "_d") ["_d"]).1

def assignCovariant (e : Entry) (mark : Diacritic) (span : Span) : SessionM Unit :=
  assign (covariantTarget e mark) (genericIndices e.heights ++ [.lower "_d"])
    (covariantFormula e mark) span

def raisingFormula (name metricBase : String) (heights : List Height) : Formula :=
  .product [.tensor (.ofBase metricBase [.upper "_d", .upper "_a"] .none),
    .tensor (.ofName name (genericIndices heights ++ [.lower "_a"]) .none)]

def raisingTarget (name : String) (lower : Entry) : Entry :=
  derivedEntry lower (raisedName name) (lower.heights.dropLast ++ [.upper]) .computed

def assignRaising (name : String) (lower : Entry) (metricBase : String) (span : Span) :
    SessionM Unit :=
  assign (raisingTarget name lower) (genericIndices lower.heights.dropLast ++ [.upper "_d"])
    (raisingFormula name metricBase lower.heights.dropLast) span

def assignedValue (target : Entry) (indices : List Index) (f : Formula) (span : Span) :
    SessionM Tensor := do
  let (f, free) ← resolve f
  checkFree indices free span
  if (Layout.componentCount? target.rank target.dimension).isNone then
    throw { cause := .indexing (.largeTensor target.name), span }
  let names := indices.filterMap Index.name?
  if names.length ≠ target.rank then throw { cause := .indexing .mixedTarget, span }
  componentsOf target names f

theorem assign_eq (target : Entry) (indices : List Index) (f : Formula) (span : Span) :
    assign target indices f span = assignedValue target indices f span >>= fun value =>
      modify (·.insert { target with value }) := by
  unfold assign assignedValue assignResolved
  simp only [bind_assoc]
  refine bind_congr fun r => bind_congr fun _ => ?_
  split
  · rfl
  · split <;> rfl

theorem length_genericIndices (heights : List Height) :
    ((genericIndices heights).filterMap Index.name?).length = heights.length := by
  unfold genericIndices
  rw [filterMap_map]
  change (List.filterMap (fun p => some ("_s" ++ toString p.2)) heights.zipIdx).length = _
  rw [filterMap_eq_map', length_map, length_zipIdx]

theorem keepable?_matches (s : Session) {R : Span → Span → Prop} {f f' : Formula}
    (h : Formula.Matches R f f') :
    Option.Rel (TensorRef.Matches R) (s.keepable? f) (s.keepable? f') := by
  cases h with
  | @tensor t span hspan =>
    have hhead : ({ t with span } : TensorRef).rank = t.rank := rfl
    rw [keepable?, keepable?]
    dsimp only
    cases s.table.get? t.name with
    | none => exact .none
    | some e =>
      rw [hhead]
      simp only [Option.bind_eq_bind, Option.bind_some]
      split
      · exact .some ⟨rfl, hspan⟩
      · exact .none
  | _ => exact .none

namespace Comparison

variable {E F : Comparison} {p : String → Prop} {Named : Diacritic → String → Prop}
  {w : Session × Session} {a b : Span} {f f' : Formula}

theorem Holds.reached {Q : Session → α → β → Prop} {x : SessionM α} {x' : SessionM β}
    (hx : F.Holds w Q x x') :
    F.Holds w (fun s a b => Q s a b ∧ (∃ t, F.Leads w (s, t)) ∧ x.run w.1 = (.ok a, s)) x x' := by
  intro hw
  obtain ⟨hleads, hresult⟩ := hx hw
  rcases hrun : x.run w.1 with ⟨r, s⟩
  rw [hrun] at hleads hresult
  refine ⟨hleads, ?_⟩
  generalize (x'.run w.2).1 = r' at hresult
  cases hresult with
  | ok h => exact .ok ⟨h, ⟨_, hleads⟩, rfl⟩
  | error hplace hfault => exact .error hplace hfault

/-- Runs that may also store connections and covariant derivatives, the values of which are computed
as `E` says. The derivatives are found under names with `Named`. -/
structure Expands (E F : Comparison) (p : String → Prop) (Named : Diacritic → String → Prop) :
    Prop where
  inner : E.Conducts p
  outer : F.Conducts p
  holds : ∀ {α β : Type} {w Q} {x : SessionM α} {x' : SessionM β},
    E.Holds w Q x x' → F.Holds w Q x x'
  place : E.Place = F.Place
  evaluate : ∀ {w f f' ρ}, Formula.Matches F.Place f f' → f.Elementary p →
    (∀ x ∈ f.openNames, (List.lookup x ρ).isSome) →
      E.Holds w (Same fun _ => Expr.Over p) (evaluate ρ f) (evaluate ρ f')
  connection : ∀ {w v mark metric upper derivatives}, F.Start w → F.Leads w v →
    w.1.metrics mark = some metric → w.1.table.get? (metric.base ++ "UU") = some upper →
    (∀ t ∈ derivatives, t.Over p) →
      let k := connectionEntry mark metric
        (connectionValue upper.value derivatives metric.dimension)
      F.Leads v (v.1.insert k, v.2.insert k)
  named : ∀ {w name e} (mark : Diacritic), F.Start w → w.1.table.get? name = some e →
    Named mark (covariantName e mark)
  covariant : ∀ {w v : Session × Session} {t name e mark span value}, F.Start w →
    w.1.table.get? name = some e → F.Leads w v → E.Leads w (v.1, t) →
    let k := { covariantTarget e mark with value }
    k.Filled p → (assignCovariant e mark span).run w.1 = (.ok (), v.1.insert k) →
      F.Leads v (v.1.insert k, v.2.insert k)
  raised : ∀ {u w v : Session × Session} {t name lower metric mark span value}, F.Start w →
    F.Leads u w → u.1.metrics mark = some metric → Named mark name →
    w.1.table.get? name = some lower → F.Leads w v → E.Leads w (v.1, t) →
    let k := { raisingTarget name lower with value }
    k.Filled p → (assignRaising name lower metric.base span).run w.1 = (.ok (), v.1.insert k) →
      F.Leads v (v.1.insert k, v.2.insert k)

def Alike (F : Comparison) (p : String → Prop) (f f' : Formula) : Prop :=
  Formula.Matches F.Place f f' ∧ f.Elementary p

/-- Computations that draw the same dummy indices, whichever names are taken. -/
def Draws (F : Comparison) (w : Session × Session) (Q : Session → α → β → Prop) (x : ExpansionM α)
    (x' : ExpansionM β) : Prop :=
  ∀ taken, F.Holds w (fun s r r' => Q s r.1 r'.1 ∧ r'.2 = r.2) (x.run taken) (x'.run taken)

namespace Draws

variable {Q : Session → α → β → Prop} {P : Session → γ → δ → Prop}

theorem pure {a : α} {b : β} (h : Q w.1 a b) : F.Draws w Q (Pure.pure a) (Pure.pure b) :=
  fun _ => .pure ⟨h, rfl⟩

theorem bind {x : ExpansionM α} {x' : ExpansionM β} {f : α → ExpansionM γ} {f' : β → ExpansionM δ}
    (hx : F.Draws w Q x x') (hf : ∀ v a b, F.Leads w v → Q v.1 a b → F.Draws v P (f a) (f' b)) :
    F.Draws w P (x >>= f) (x' >>= f') := by
  intro taken
  refine (hx taken).bind ?_
  rintro v ⟨a, taken₁⟩ ⟨b, taken₂⟩ hv ⟨h, htaken⟩
  cases htaken
  exact hf v a b hv h taken₁

theorem lift {x : SessionM α} {x' : SessionM β} (h : F.Holds w Q x x') :
    F.Draws w Q (liftM x) (liftM x') :=
  fun _ => h.bind fun _ _ _ _ hq => .pure ⟨hq, rfl⟩

theorem get {f : List String → ExpansionM γ} {f' : List String → ExpansionM δ}
    (h : ∀ taken, F.Draws w P (f taken) (f' taken)) : F.Draws w P (get >>= f) (get >>= f') :=
  fun taken => h taken taken

theorem modify (g : List String → List String) :
    F.Draws w (fun _ _ _ => True) (modify g) (modify g) :=
  fun _ => .pure ⟨trivial, rfl⟩

end Draws

namespace Expands

variable (hE : E.Expands F p Named) (hplace : F.Place a b)
include hE hplace

theorem assign {target : Entry} {indices : List Index}
    (hrank : (indices.filterMap Index.name?).length = target.rank)
    (hf : F.Alike p f f') (hinsert : ∀ v t value, F.Leads w v → E.Leads w (v.1, t) →
      { target with value }.Filled p →
      (assign target indices f a).run w.1 = (.ok (), v.1.insert { target with value }) →
        F.Leads v (v.1.insert { target with value }, v.2.insert { target with value })) :
    F.Holds w (fun _ _ _ => True) (assign target indices f a) (assign target indices f' b) := by
  have hvalue : E.Holds w (Same fun _ value => { target with value }.Filled p)
      (assignedValue target indices f a) (assignedValue target indices f' b) := by
    rw [← hE.place] at hplace
    refine (hE.inner.resolve (hE.place ▸ hf.1)).bind ?_
    rintro v ⟨g, free⟩ ⟨g', free'⟩ - ⟨⟨hg, hfree⟩, hscoped⟩
    refine (Holds.lift (Q := fun _ _ _ => checkFree indices free a = .ok ())
      (hE.inner.checkFree_outcome hplace indices hfree)).bind fun v _ _ _ hchecked => ?_
    dsimp only
    split
    · exact .throw_bind hplace (hE.inner.fault rfl)
    · rw [if_neg (not_not.mpr hrank), if_neg (not_not.mpr hrank)]
      refine Conducts.componentsOf target _ fun index hindex v => ?_
      have hlength := (Layout.mem_indices.mp (mem_of_mem_filter hindex)).1
      refine hE.evaluate (hE.place ▸ hg) ⟨?_, ?_⟩ fun x hx =>
        isSome_lookup_zip (hrank.trans hlength.symm)
          (names_of_checkFree hchecked (hscoped.openNames x hx))
      · exact hscoped.expanded.trans hf.2.expanded
      · rw [hscoped.scalars]
        exact hf.2.scalars
  rw [assign_eq, assign_eq]
  refine (hE.holds hvalue.reached).bind ?_
  rintro v value _ hv ⟨⟨rfl, hfilled⟩, ⟨t, hreach⟩, hrun⟩
  refine .modify fun _ => hinsert v t _ hv hreach hfilled ?_
  rw [assign_eq, run_bind, hrun]
  rfl

theorem ensureConnection (mark : Diacritic) :
    F.Holds w (fun _ _ _ => True) (ensureConnection mark a) (ensureConnection mark b) := by
  rw [Session.ensureConnection, Session.ensureConnection]
  refine hE.outer.get fun ws hw => ?_
  rw [metrics_withWarnings, table_withWarnings]
  cases hmetric : w.1.metrics mark with
  | none => exact .throw hplace (hE.outer.fault rfl)
  | some metric =>
    dsimp only
    split
    · cases hlower : w.1.table.get? (metric.base ++ "DD") with
      | none => exact .throw hplace (hE.outer.fault rfl)
      | some lower =>
      cases hupper : w.1.table.get? (metric.base ++ "UU") with
      | none => exact .throw hplace (hE.outer.fault rfl)
      | some upper =>
        refine (Holds.mapM (R := fun _ => Tensor.Over p) (fun _ h => h) fun k _ v _ =>
          hE.outer.metricDerivative hplace (hE.outer.symbols hw hlower) _ k).bindSame ?_
        exact fun v derivatives hv hderivatives =>
          .modify fun _ => hE.connection hw hv hmetric hupper hderivatives
    · exact .pure trivial

theorem covariantTensor {t t' : TensorRef} (ht : TensorRef.Matches F.Place t t')
    (mark : Diacritic) : F.Holds w (Same fun _ => Named mark) (covariantTensor t mark a)
      (covariantTensor t' mark b) := by
  have hname : t'.name = t.name := by rw [ht.same]
  have hnone := hE.outer.unplaced
  rw [Session.covariantTensor, Session.covariantTensor, hname]
  refine hE.outer.get fun ws hw => ?_
  rw [table_withWarnings, undeclared_withWarnings]
  cases he : w.1.table.get? t.name with
  | none => exact .throw hplace (hE.outer.fault rfl)
  | some e =>
    have hnamed := hE.named mark hw he
    dsimp only
    split
    · have hoperand := covariantStep_matches hnone mark (.lower "_d") ["_d"]
        (Formula.Matches.tensor ⟨e.name, e.base, genericIndices e.heights, .none⟩ hnone)
      refine (hE.assign hplace ?_ ⟨hoperand.1, (elementary_tensor p _).covariantStep ..⟩
        fun v t value => hE.covariant hw he).bind fun _ _ _ _ _ =>
          .pure ⟨rfl, hnamed⟩
      rw [filterMap_append, length_append, length_genericIndices]
      exact (@length_append _ e.heights [Height.lower]).symm
    · exact .pure ⟨rfl, hnamed⟩

theorem raisedTensor {u : Session × Session} {mark : Diacritic} {metric : Metric} (hu : F.Leads u w)
    (hmetric : u.1.metrics mark = some metric) (hname : Named mark name) :
    F.Holds w (fun _ n n' => n' = n) (raisedTensor name metric.base a)
      (raisedTensor name metric.base b) := by
  have hnone := hE.outer.unplaced
  rw [Session.raisedTensor, Session.raisedTensor]
  refine hE.outer.get fun ws hw => ?_
  rw [table_withWarnings, undeclared_withWarnings]
  cases hlower : w.1.table.get? name with
  | none => exact .throw hplace (hE.outer.fault rfl)
  | some lower =>
    dsimp only
    split
    · refine (hE.assign hplace ?_ ⟨.product (.cons (.tensor _ hnone) (.cons (.tensor _ hnone) .nil)),
        rfl, nofun⟩ fun v t value =>
          hE.raised hw hu hmetric hname hlower).bind fun _ _ _ _ _ => .pure rfl
      rw [filterMap_append, length_append, length_genericIndices]
      exact (@length_append _ lower.heights.dropLast [Height.upper]).symm
    · exact .pure rfl

theorem lowerDerivative (hf : F.Alike p f f') (kind : DerivativeKind) (i : Index) :
    F.Draws w (fun _ => F.Alike p) (lowerDerivative kind i a f) (lowerDerivative kind i b f') := by
  cases kind with
  | partialDerivative =>
    refine .pure ⟨.derivative _ i _ hf.1 hplace, ?_, hf.2.scalars⟩
    rw [Formula.isExpanded, hf.2.expanded]
    rfl
  | covariant mark =>
    refine (Draws.lift (hE.ensureConnection hplace mark)).bind fun v _ _ _ _ => ?_
    refine fun taken => hE.outer.get fun ws _ => ?_
    have hkeep : Option.Rel (TensorRef.Matches F.Place) (v.1.keepable? f)
      ((v.1.withWarnings ws).keepable? f') := keepable?_matches v.1 hf.1
    generalize v.1.keepable? f = kept at hkeep
    generalize (v.1.withWarnings ws).keepable? f' = kept' at hkeep
    revert taken
    cases hkeep with
    | none =>
      refine Draws.get fun taken => ?_
      obtain ⟨hstep, hdummy⟩ := covariantStep_matches hE.outer.unplaced mark i taken hf.1
      dsimp only
      rw [hdummy]
      exact (Draws.modify _).bind fun _ _ _ _ _ => .pure ⟨hstep, hf.2.covariantStep mark i taken⟩
    | @some t t' ht =>
      have hindices : t'.indices = t.indices := by rw [ht.same]
      refine (Draws.lift (hE.covariantTensor hplace ht mark)).bind ?_
      rintro u _ name _ ⟨rfl, _⟩
      rw [hindices]
      exact .pure ⟨.tensor _ hplace, elementary_tensor p _⟩

theorem contractedDerivative (hf : F.Alike p f f') (kind : DerivativeKind) (i : Index)
    (metric : Metric) : F.Draws w (fun _ => F.Alike p) (contractedDerivative kind i a metric f)
      (contractedDerivative kind i b metric f') := by
  rw [Session.contractedDerivative, Session.contractedDerivative, hf.1.indexNames]
  refine .get fun taken => (Draws.modify _).bind fun v _ _ _ _ => ?_
  refine (hE.lowerDerivative hplace hf kind _).bind fun u g g' _ hg => .pure ⟨?_, ?_⟩
  · exact .product (.cons (.tensor _ hplace) (.cons hg.1 .nil))
  · refine elementary_product ?_
    simpa using ⟨elementary_tensor p _, hg.2⟩

theorem upperDerivative (hf : F.Alike p f f') (kind : DerivativeKind) (i : Index) :
    F.Draws w (fun _ => F.Alike p) (upperDerivative kind i a f) (upperDerivative kind i b f') := by
  rw [Session.upperDerivative, Session.upperDerivative]
  refine fun taken => hE.outer.get fun ws _ => ?_
  rw [metrics_withWarnings]
  revert taken
  cases hmetric : w.1.metrics kind.mark with
  | none => exact Draws.lift (.throw hplace (hE.outer.fault rfl))
  | some metric =>
    cases kind with
    | partialDerivative => exact hE.contractedDerivative hplace hf _ i metric
    | covariant mark =>
      refine (Draws.lift (hE.ensureConnection hplace mark)).bind fun v _ _ hv _ => ?_
      refine fun taken => hE.outer.get fun ws _ => ?_
      have hkeep : Option.Rel (TensorRef.Matches F.Place) (v.1.keepable? f)
        ((v.1.withWarnings ws).keepable? f') := keepable?_matches v.1 hf.1
      generalize v.1.keepable? f = kept at hkeep
      generalize (v.1.withWarnings ws).keepable? f' = kept' at hkeep
      revert taken
      cases hkeep with
      | none => exact hE.contractedDerivative hplace hf _ i metric
      | @some t t' ht =>
        have hindices : t'.indices = t.indices := by rw [ht.same]
        refine (Draws.lift (hE.covariantTensor hplace ht mark)).bind ?_
        rintro u _ lower hu ⟨rfl, hlower⟩
        -- the metric was looked up before the connection was computed
        refine (Draws.lift (hE.raisedTensor hplace (F.trans hv hu) hmetric hlower)).bind ?_
        rintro u _ name _ rfl
        rw [hindices]
        exact .pure ⟨.tensor _ hplace, elementary_tensor p _⟩

omit hplace

theorem expand (h : Formula.Matches F.Place f f') (hf : ∀ name ∈ f.scalarNames, p name) :
    F.Draws w (fun _ => F.Alike p) (expand f) (expand f') := by
  have hlists {fs fs' : List Formula} (h : Forall₂ (fun f f' => ∀ w,
      (∀ name ∈ f.scalarNames, p name) → F.Draws w (fun _ => F.Alike p) (Session.expand f)
        (Session.expand f')) fs fs') (w : Session × Session)
      (hfs : ∀ name ∈ Formula.scalarNameLists fs, p name) :
      F.Draws w (fun _ gs gs' => Forall₂ (Formula.Matches F.Place) gs gs' ∧
        ∀ g ∈ gs, g.Elementary p) (expandAll fs) (expandAll fs') := by
    induction h generalizing w with
    | nil => exact .pure ⟨.nil, by simp⟩
    | cons hf _ ih =>
      rw [Formula.scalarNameLists, forall_mem_append] at hfs
      refine (hf w hfs.1).bind fun v g g' _ hg => (ih v hfs.2).bind fun u gs gs' _ hgs => ?_
      exact .pure ⟨.cons hg.1 hgs.1, forall_mem_cons.mpr ⟨hg.2, hgs.2⟩⟩
  suffices ∀ w, (∀ name ∈ f.scalarNames, p name) →
      F.Draws w (fun _ => F.Alike p) (Session.expand f) (Session.expand f') from this w hf
  clear hf
  refine matches_induction ?num ?sym ?tensor ?derivative ?sum ?product ?power ?fn
    ?contraction h
  case num =>
    intro q w _
    exact .pure ⟨.num q, rfl, forall_mem_nil p⟩
  case sym =>
    intro name w hf
    exact .pure ⟨.sym name, rfl, hf⟩
  case tensor =>
    intro t span hspan w _
    exact .pure ⟨.tensor t hspan, elementary_tensor p t⟩
  case derivative =>
    intro kind i f f' dimension span span' ih hspan w hf
    rw [Session.expand, Session.expand]
    refine (ih w hf).bind fun v g g' _ hg => ?_
    cases i.height with
    | lower => exact hE.lowerDerivative hspan hg kind i
    | upper => exact hE.upperDerivative hspan hg kind i
  case sum =>
    intro ts ts' ih w hf
    exact (hlists ih w hf).bind fun v gs gs' _ hgs =>
      .pure ⟨.sum hgs.1, elementary_sum hgs.2⟩
  case product =>
    intro fs fs' ih w hf
    exact (hlists ih w hf).bind fun v gs gs' _ hgs =>
      .pure ⟨.product hgs.1, elementary_product hgs.2⟩
  case power =>
    intro b b' e e' ihb ihe w hf
    rw [Formula.scalarNames, forall_mem_append] at hf
    refine (ihb w hf.1).bind fun v g g' _ hg => (ihe v hf.2).bind fun u k k' _ hk => ?_
    refine .pure ⟨.power hg.1 hk.1, ?_, forall_mem_append.mpr ⟨hg.2.scalars, hk.2.scalars⟩⟩
    rw [Formula.isExpanded, hg.2.expanded, hk.2.expanded]
    rfl
  case fn =>
    intro g a a' ih w hf
    exact (ih w hf).bind fun v k k' _ hk => .pure ⟨.fn g hk.1, hk.2.expanded, hk.2.scalars⟩
  case contraction =>
    intro index dimension f f' _ ih w hf
    exact (ih w hf).bind fun v g g' _ hg =>
      .pure ⟨.contraction index dimension hg.1, hg.2.expanded, hg.2.scalars⟩

theorem expandAndResolve (taken : List String) (h : Formula.Matches F.Place f f')
    (hf : ∀ name ∈ f.scalarNames, p name) :
    F.Holds w (fun _ r r' => Formula.Open F.Place r r' ∧ r.1.Elementary p ∧
      ∀ x ∈ r.1.openNames, x ∈ r.2.map (·.name)) (expandAndResolve taken f)
      (expandAndResolve taken f') := by
  rw [Session.expandAndResolve, Session.expandAndResolve, h.indexNames]
  have hexpand : F.Holds w (fun _ => F.Alike p) ((Session.expand f).run' (taken ++ f.indexNames))
      ((Session.expand f').run' (taken ++ f.indexNames)) :=
    (hE.expand h hf (taken ++ f.indexNames)).bind fun _ _ _ _ hr => .pure hr.1
  refine hexpand.bind fun v g g' _ hg => (hE.outer.resolve hg.1).mono ?_
  rintro _ r r' ⟨hopen, hscoped⟩
  refine ⟨hopen, ⟨hscoped.expanded.trans hg.2.expanded, ?_⟩, hscoped.openNames⟩
  rw [hscoped.scalars]
  exact hg.2.scalars

end Expands

end Comparison

end Session

variable {f f' : Formula} {g : Session → Session}

structure Warning.Matches (R : Span → Span → Prop) (w w' : Warning) : Prop where
  name : w'.name = w.name
  span : R w.span w'.span
  written : w.span ≠ .none

namespace Session

/-- The same session, apart from the places of the warnings that are not among the old ones. -/
inductive Matches (R : Span → Span → Prop) (old : List Warning) : Session → Session → Prop
  | intro {s : Session} {new new' : List Warning} (h : s.warnings = old ++ new) :
      Forall₂ (Warning.Matches R) new new' → Matches R old s (s.withWarnings (old ++ new'))

/-- Computations that do the same, up to places. -/
def Follows (R : Span → Span → Prop) (old : List Warning) (Q : α → β → Prop) (x : SessionM α)
    (x' : SessionM β) : Prop :=
  ∀ s s', Matches R old s s' →
    SameOutcome R Q (x.run s).1 (x'.run s').1 ∧ Matches R old (x.run s).2 (x'.run s').2

def Unaware (g : Session → Session) : Prop :=
  ∀ s w, g (s.withWarnings w) = (g s).withWarnings w

variable {R : Span → Span → Prop} {old : List Warning} {Q : α → β → Prop} {P : γ → δ → Prop}

theorem Unaware.matches (hg : Unaware g) {s s' : Session} (h : Matches R old s s') :
    Matches R old (g s) (g s') := by
  cases h with
  | intro hs hnew =>
    have hself : g s = (g s).withWarnings s.warnings := hg s s.warnings
    have hsame : (g s).warnings = s.warnings := by
      rw [hself]
      rfl
    rw [hg]
    exact .intro (hsame.trans hs) hnew

theorem Matches.refl (s : Session) : Matches R s.warnings s s := by
  have hmatches : Matches R s.warnings s (s.withWarnings (s.warnings ++ [])) :=
    .intro (List.append_nil _).symm .nil
  rwa [List.append_nil] at hmatches

theorem Matches.of_withWarnings {s t : Session} {w : List Warning}
    (h : Matches R old s (s.withWarnings w)) (ht : t.warnings = s.warnings) :
    Matches R old t (t.withWarnings w) := by
  generalize hs : s.withWarnings w = s' at h
  cases h with
  | @intro _ new' hold hnew =>
    obtain rfl : w = old ++ new' := congrArg warnings hs
    exact .intro (ht.trans hold) hnew

namespace Follows

theorem pure {a : α} {b : β} (h : Q a b) : Follows R old Q (Pure.pure a) (Pure.pure b) :=
  fun _ _ hs => ⟨.ok h, hs⟩

theorem bind {x : SessionM α} {x' : SessionM β} {f : α → SessionM γ} {f' : β → SessionM δ}
    (hx : Follows R old Q x x') (hf : ∀ a b, Q a b → Follows R old P (f a) (f' b)) :
    Follows R old P (x >>= f) (x' >>= f') := by
  intro s s' hs
  obtain ⟨hresult, hstate⟩ := hx s s' hs
  rw [run_bind, run_bind]
  generalize x.run s = r at hresult hstate
  generalize x'.run s' = r' at hresult hstate
  obtain ⟨r, t⟩ := r
  obtain ⟨r', t'⟩ := r'
  cases hresult with
  | ok h => exact hf _ _ h t t' hstate
  | error cause h => exact ⟨.error cause h, hstate⟩

theorem bindEq {x x' : SessionM α} {f : α → SessionM γ} {f' : α → SessionM δ}
    (hx : Follows R old Eq x x') (hf : ∀ a, Follows R old P (f a) (f' a)) :
    Follows R old P (x >>= f) (x' >>= f') := by
  refine hx.bind ?_
  rintro a _ rfl
  exact hf a

theorem throw (cause : Cause) {a b : Span} (h : R a b) :
    Follows R old Q (MonadExcept.throw { cause, span := a }) (MonadExcept.throw { cause, span := b }) :=
  fun _ _ hs => ⟨.error cause h, hs⟩

theorem throw_bind (cause : Cause) {a b : Span} (h : R a b) {f : α → SessionM γ}
    {f' : β → SessionM δ} : Follows R old P (MonadExcept.throw { cause, span := a } >>= f)
      (MonadExcept.throw { cause, span := b } >>= f') :=
  fun _ _ hs => ⟨.error cause h, hs⟩

theorem lift {x : Except Error α} {x' : Except Error β} (h : SameOutcome R Q x x') :
    Follows R old Q (liftM x) (liftM x') := by
  intro s s' hs
  rw [run_lift, run_lift]
  exact ⟨h, hs⟩

theorem get {f : Session → SessionM γ} {f' : Session → SessionM δ}
    (h : ∀ s w, Matches R old s (s.withWarnings w) →
      Follows R old P (f s) (f' (s.withWarnings w))) :
    Follows R old P (get >>= f) (get >>= f') := by
  intro s s' hs
  rw [run_bind, run_bind]
  cases hs with
  | intro hw hnew => exact h s _ (.intro hw hnew) s _ (.intro hw hnew)

theorem modify (hg : Unaware g) : Follows R old (fun _ _ => True) (modify g) (modify g) :=
  fun _ _ hs => ⟨.ok trivial, hg.matches hs⟩

theorem set {s s' : Session} (h : Matches R old s s') :
    Follows R old (fun _ _ => True) (set s) (set s') :=
  fun _ _ _ => ⟨.ok trivial, h⟩

theorem forM {xs xs' : List (SessionM Unit)} (h : Forall₂ (Follows R old fun _ _ => True) xs xs') :
    Follows R old (fun _ _ => True) (xs.forM id) (xs'.forM id) := by
  induction h with
  | nil => exact .pure trivial
  | cons hx _ ih => exact hx.bind fun _ _ _ => ih

end Follows

theorem unaware_insert (e : Entry) : Unaware (·.insert e) :=
  fun _ _ => rfl

theorem unaware_registerScalar (name : String) : Unaware (·.registerScalar name) :=
  fun _ _ => rfl

def places (R : Span → Span → Prop) (old : List Warning) : Comparison where
  Start w := Matches R old w.1 w.2
  Leads _ v := Matches R old v.1 v.2
  Place := R
  Fault e := e.fragment = none
  refl h := h
  trans _ h := h
  kept _ h := h

theorem Follows.of_holds {x : SessionM α} {x' : SessionM β}
    (h : ∀ w, (places R old).Holds w (fun _ => Q) x x') : Follows R old Q x x' :=
  fun s s' hs => ⟨(h (s, s') hs).2.same fun _ h => h, (h (s, s') hs).1⟩

theorem Follows.of_outcome {x : Except Error α} {x' : Except Error β}
    (h : (places R old).Outcome Q x x') : Follows R old Q (liftM x) (liftM x') :=
  .lift (h.same fun _ h => h)

section Places

variable (hnone : R .none .none)
include hnone

theorem places_conducts : (places R old).Conducts fun _ => True where
  alike {s s'} h := by
    have h : Matches R old s s' := h
    cases h
    exact ⟨_, rfl⟩
  symbols _ _ _ _ _ _ := trivial
  scalar h _ _ := (unaware_registerScalar _).matches h
  derivative {_ _ owner} n h _ := Unaware.matches
    (g := fun s => s.insert (derivativeEntry owner n s.config.naming)) (fun _ _ => rfl) h
  fault _ := rfl
  unplaced := hnone

theorem places_expands :
    (places R old).Expands (places R old) (fun _ => True) fun _ _ => True where
  inner := places_conducts hnone
  outer := places_conducts hnone
  holds h := h
  place := rfl
  evaluate h _ _ := (places_conducts hnone).evaluate rfl h (fun _ _ => trivial) _
  connection _ hv _ _ _ := (unaware_insert _).matches hv
  named _ _ _ := trivial
  covariant _ _ hv _ _ _ := (unaware_insert _).matches hv
  raised _ _ _ _ _ hv _ _ _ := (unaware_insert _).matches hv

theorem evaluate_follows (ρ : Assignment) (h : Formula.Matches R f f') :
    Follows R old Eq (evaluate ρ f) (evaluate ρ f') :=
  .of_holds fun _ => ((places_conducts hnone).evaluate rfl h (fun _ _ => trivial) ρ).mono
    fun _ _ _ h => h.1.symm

theorem assignResolved_follows (target : Entry) (indices : List Index) (h : Formula.Matches R f f')
    {a b : Span} (hspan : R a b) :
    Follows R old (fun _ _ => True) (assignResolved target indices f a)
      (assignResolved target indices f' b) := by
  rw [assignResolved, assignResolved]
  dsimp only
  split
  · exact .throw_bind _ hspan
  · split
    · exact .throw_bind _ hspan
    · refine Follows.bindEq (.of_holds fun _ => ?_) fun value => .modify (unaware_insert _)
      exact (Comparison.Conducts.componentsOf target _ fun _ _ _ =>
        (places_conducts hnone).evaluate rfl h (fun _ _ => trivial) _).mono fun _ _ _ h => h.1.symm

theorem expandAndResolve_follows (taken : List String) (h : Formula.Matches R f f') :
    Follows R old (Formula.Open R) (expandAndResolve taken f) (expandAndResolve taken f') :=
  .of_holds fun _ => ((places_expands hnone).expandAndResolve taken h fun _ _ => trivial).mono
    fun _ _ _ h => h.1

end Places

end Session

/-! What a computation in a session may do on the way: declare scalars and partial
derivatives, and store tensors that own no symbols. Nor does it meet internal faults. -/

variable {names : List String} {v : IndexVector → Except Error Expr} {w : Session × Session}
  {ρ : Assignment}

open Relation

/-- The entry stands for no symbols, in whatever way they are named. -/
def Entry.Silent (e : Entry) : Prop :=
  ∀ naming, e.componentSymbols naming = []

namespace Session

variable {s t : Session} {target e : Entry}

theorem get?_insert_of_ne (h : e.name ≠ name) :
    (s.insert e).table.get? name = s.table.get? name := by
  rw [insert, Table.get?_insert, if_neg h]

def All (P : Entry → Prop) (s : Session) : Prop :=
  ∀ name e, s.table.get? name = some e → P e

/-- A property of entries that those declared on the way inherit. -/
structure Inherited (P : Entry → Prop) : Prop where
  id : ∀ e n, P e → P { e with id := n }
  scalar : ∀ name dimension, P (.freeScalar name dimension)
  derivative : ∀ e n naming, P e → P (derivativeEntry e n naming)
  connection : ∀ mark metric value, P (connectionEntry mark metric value)
  derived : ∀ e name heights origin value, origin ≠ .partialDerivative →
    e.rank ≤ heights.length → P e → P { derivedEntry e name heights origin with value }

inductive Aux (P : Entry → Prop) : Session → Session → Prop
  | scalar (s : Session) (name : String) : Aux P s (s.registerScalar name)
  | derivative {s : Session} {name : String} {owner : Entry}
    (h : s.table.get? name = some owner) (n : Nat) :
    Aux P s (s.insert (derivativeEntry owner n s.config.naming))
  | silent (s : Session) {e : Entry} (he : P e) (h : e.Silent) : Aux P s (s.insert e)

/-- Where all entries have `P`, the computation makes changes of that kind only, meets no
internal fault, and returns what is asked for. -/
def Obeys (P : Entry → Prop) (x : SessionM α) (post : α → Prop) : Prop :=
  ∀ s, s.All P → ReflTransGen (Aux P) s (x.run s).2 ∧
    match (x.run s).1 with
    | .ok a => post a
    | .error e => e.cause.isInternal = false

variable {P : Entry → Prop}

theorem All.insert (hs : s.All P) (hP : ∀ n, P { e with id := n }) : (s.insert e).All P := by
  intro name e' h
  rw [Session.insert, Table.get?_insert] at h
  split at h
  · cases h
    exact hP _
  · exact hs name e' h

namespace Inherited

variable (hP : Inherited P)
include hP

theorem all_of_aux (h : Aux P s t) (hs : s.All P) : t.All P := by
  cases h with
  | scalar name => exact hs.insert fun n => hP.id _ n (hP.scalar _ _)
  | derivative h n => exact hs.insert fun k => hP.id _ k (hP.derivative _ _ _ (hs _ _ h))
  | silent he h => exact hs.insert fun n => hP.id _ n he

theorem all_of_reach (h : ReflTransGen (Aux P) s t) (hs : s.All P) : t.All P := by
  induction h with
  | refl => exact hs
  | tail _ h ih => exact hP.all_of_aux h ih

end Inherited

theorem Obeys.of_run {x : SessionM α} {post : α → Prop} (hx : Obeys P x post) (hs : s.All P) {a : α}
    (h : x.run s = (.ok a, t)) : ReflTransGen (Aux P) s t ∧ post a := by
  have hrun := hx s hs
  rw [h] at hrun
  exact hrun

theorem silent_connectionEntry (mark : Diacritic) (metric : Metric) (value : Tensor) :
    (connectionEntry mark metric value).Silent :=
  fun _ => rfl

theorem silent_derivedEntry (e : Entry) (name : String) {heights : List Height}
    (hheights : heights ≠ []) {origin : Origin}
    (horigin : origin = .computed ∨ ∃ mark, origin = .covariantDerivative mark) (value : Tensor) :
    { derivedEntry e name heights origin with value }.Silent := by
  intro naming
  have hrank : ¬ { derivedEntry e name heights origin with value }.rank = 0 :=
    fun h => hheights (List.length_eq_zero_iff.mp h)
  unfold Entry.componentSymbols
  rw [if_neg hrank]
  rcases horigin with rfl | ⟨mark, rfl⟩ <;> rfl

section Conduct

variable (hP : Inherited P)

def conduct : Comparison :=
  .alone (All P) (Aux P) (·.cause.isInternal = false) hP.all_of_aux

theorem Obeys.of_holds {hP : Inherited P} {Q : Session → α → α → Prop} {x : SessionM α} {post : α → Prop}
    (hx : ∀ w, (conduct hP).Holds w Q x x) (h : ∀ s a, Q s a a → post a) : Obeys P x post := by
  intro s hs
  obtain ⟨hreach, hok, herror⟩ := (hx (s, s)).alone hs
  refine ⟨hreach, ?_⟩
  split
  · next a ha => exact h _ a (hok a ha)
  · next e he => exact herror e he

include hP

theorem Inherited.conducts : (conduct hP).Conducts fun _ => True where
  alike {s _} h := ⟨s.warnings, h.1⟩
  symbols _ _ _ _ _ _ := trivial
  scalar h _ _ := ⟨congrArg (registerScalar · _) h.1, .single (.scalar _ _)⟩
  derivative {w _ _} n h hget := by
    obtain ⟨s, s'⟩ := w
    obtain rfl : s' = s := h.1
    exact ⟨rfl, .single (.derivative hget n)⟩
  fault h := h
  unplaced := rfl

def Inherited.sequential : Sequential SessionM where
  Holds x := ∀ w, (conduct hP).Holds w (Same fun _ _ => True) x x
  pure _ _ := .pure ⟨rfl, trivial⟩
  bind hx hf w := (hx w).bindSame fun v a _ _ => hf a v

theorem reading_obeys : reading.Satisfies hP.sequential where
  lift _ _ := .lift (.ok ⟨rfl, trivial⟩)
  scalar _ _ := (hP.conducts.reading_scalar trivial).mono fun _ _ _ h => ⟨h.1, trivial⟩
  component t index _ _ :=
    (hP.conducts.component rfl t index).mono fun _ _ _ h => ⟨h.1, trivial⟩
  differentiate _ k dimension _ _ := (hP.conducts.reading_differentiate rfl
    (fun _ _ => trivial) k dimension).mono fun _ _ _ h => ⟨h.1, trivial⟩

theorem evaluate_holds (hf : f.isExpanded) (hopen : ∀ x ∈ f.openNames, (ρ.lookup x).isSome) :
    (conduct hP).Holds w (Same fun _ => Expr.Over fun _ => True) (evaluate ρ f) (evaluate ρ f) :=
  (Formula.evaluate_holds (reading_obeys hP) hopen hf w).mono fun _ _ _ h =>
    ⟨h.1, fun _ _ => trivial⟩

theorem Inherited.expands : (conduct hP).Expands (conduct hP) (fun _ => True) fun _ _ => True where
  inner := hP.conducts
  outer := hP.conducts
  holds h := h
  place := rfl
  evaluate h hf hopen := h.eq_of_eq ▸ evaluate_holds hP hf.expanded hopen
  connection _ hv _ _ _ := ⟨congrArg (insert · _) hv.1,
    .single (.silent _ (hP.connection _ _ _) (silent_connectionEntry _ _ _))⟩
  named _ _ _ := trivial
  covariant {_ _ _ _ e mark _ value} hw he hv _ _ _ :=
    ⟨congrArg (insert · _) hv.1, .single (.silent _
      (hP.derived e _ _ _ value nofun (by simp [Entry.rank]) (hw.2 _ e he))
      (@silent_derivedEntry e _ (e.heights ++ [Height.lower]) (by simp) _
        (.inr ⟨mark, rfl⟩) value))⟩
  raised {_ _ _ _ _ lower _ _ _ value} hw _ _ _ hlower hv _ _ _ :=
    ⟨congrArg (insert · _) hv.1, .single (.silent _
      (hP.derived lower _ _ _ value nofun (by simp [Entry.rank]; omega) (hw.2 _ lower hlower))
      (@silent_derivedEntry lower _ (lower.heights.dropLast ++ [Height.upper]) (by simp) _
        (.inl rfl) value))⟩

theorem evaluate_obeys (hopen : ∀ x ∈ f.openNames, (ρ.lookup x).isSome) (hf : f.isExpanded) :
    Obeys P (evaluate ρ f) fun _ => True :=
  .of_holds (fun _ => evaluate_holds hP hf hopen) fun _ _ _ => trivial

section

variable (hrank : names.length = target.rank) (hopen : ∀ x ∈ f.openNames, x ∈ names)
  (hf : f.isExpanded)
include hrank hopen hf

theorem componentsOf_holds :
    (conduct hP).Holds w (Same fun _ _ => True) (componentsOf target names f)
      (componentsOf target names f) := by
  refine (Comparison.Conducts.componentsOf (p := fun _ => True) target names
    fun index hindex _ => ?_).mono fun _ _ _ h => ⟨h.1, trivial⟩
  have hlength := (Layout.mem_indices.mp (List.mem_of_mem_filter hindex)).1
  exact evaluate_holds hP hf fun x hx =>
    isSome_lookup_zip (hrank.trans hlength.symm) (hopen x hx)

theorem componentsOf_obeys : Obeys P (componentsOf target names f) fun _ => True :=
  .of_holds (fun _ => componentsOf_holds hP hrank hopen hf) fun _ _ _ => trivial

end

theorem differentiate_obeys (e : Expr) (k dimension : Nat) (span : Span) :
    Obeys P (differentiate e k dimension span) fun _ => True :=
  .of_holds (fun _ => hP.conducts.differentiate rfl (fun _ _ => trivial) k dimension)
    fun _ _ _ => trivial

theorem expandAndResolve_obeys (taken : List String) (f : Formula) :
    Obeys P (expandAndResolve taken f) fun p =>
      (∀ x ∈ p.1.openNames, x ∈ p.2.map (·.name)) ∧ p.1.isExpanded :=
  .of_holds (fun _ => hP.expands.expandAndResolve taken (.refl (fun _ => rfl) f)
    fun _ _ => trivial) fun _ _ h => ⟨h.2.2, h.2.1.expanded⟩

end Conduct

end Session

variable {s t : Session} {e : Error} {target : TensorRef} {span : Span}

def Index.number? (i : Index) : Option Nat :=
  match i.value with
  | .fixed n => some n
  | .named _ => none

namespace Session

theorem inherited_true : Inherited fun _ => True where
  id _ _ _ := trivial
  scalar _ _ := trivial
  derivative _ _ _ _ := trivial
  connection _ _ _ := trivial
  derived _ _ _ _ _ _ _ _ := trivial

def Blameless (x : SessionM α) : Prop :=
  ∀ s e, (x.run s).1 = .error e → e.cause.isInternal = false

theorem Blameless.bind {x : SessionM α} {f : α → SessionM β} {Q : Session → α → α → Prop}
    (hx : ∀ w, (conduct inherited_true).Holds w Q x x)
    (hf : ∀ s a, Q s a a → Blameless (f a)) : Blameless (x >>= f) := by
  intro s e h
  obtain ⟨_, hok, herror⟩ := (hx (s, s)).alone fun _ _ _ => trivial
  rw [run_bind] at h
  rcases hrun : x.run s with ⟨r, t⟩
  rw [hrun] at h hok herror
  cases r with
  | error e' =>
    cases h
    exact herror _ rfl
  | ok a => exact hf t a (hok a rfl) t e h

theorem Blameless.modify (g : Session → Session) : Blameless (modify g : SessionM Unit) :=
  fun _ _ h => nomatch h

theorem eq_ok_of_toOption {x : Except Error α} {a : α} (h : x.toOption = some a) : x = .ok a := by
  cases x with
  | error e => cases h
  | ok b => exact congrArg Except.ok (Option.some.inj h)

theorem length_names (h : ∀ i ∈ target.indices, i.name?.isSome) :
    (target.indices.filterMap Index.name?).length = target.indices.length := by
  rw [List.length_filterMap_eq_countP, List.countP_eq_length]
  exact h

theorem defineTensor_blameless (hnamed : ∀ i ∈ target.indices, i.name?.isSome) :
    Blameless (defineTensor target f span) := by
  have hP := inherited_true
  have hF := hP.conducts
  refine .bind (Q := fun _ _ _ => True) (fun _ => .lift (hF.checkTarget_outcome target rfl))
    fun _ _ _ => ?_
  refine .bind (fun _ => hP.expands.expandAndResolve _ (.refl (fun _ => rfl) f)
    fun _ _ => trivial) fun _ p hp => ?_
  refine .bind (Q := fun _ _ _ => checkFree target.indices p.2 span = .ok ())
    (fun _ => .lift (hF.checkFree_outcome rfl target.indices hp.1.2)) fun _ _ hfree => ?_
  refine .bind (x := get) (Q := fun _ _ _ => True) (fun _ hw =>
    ⟨(conduct hP).refl hw, .ok trivial⟩)
    fun _ s _ => ?_
  refine .bind (Q := fun _ _ _ => True) (fun _ => .lift (hF.checkDimensions_outcome _ hp.1.2))
    fun _ _ _ => ?_
  have hrank : (target.indices.filterMap Index.name?).length =
      (s.targetEntry target p.2).rank := by
    rw [length_names hnamed, targetEntry, Entry.rank, List.length_map]
  unfold assignResolved
  dsimp only
  split
  · exact .bind (Q := fun _ _ _ => False) (fun _ => .throw rfl rfl) fun _ _ h => h.elim
  · rw [if_neg (not_not.mpr hrank)]
    exact .bind (fun _ => componentsOf_holds hP hrank
      (fun x hx => names_of_checkFree hfree (hp.2.2 x hx)) hp.2.1.expanded) fun _ _ _ => .modify _

theorem defineTensor_eq_ok (h : (defineTensor target f span).run s = (.ok (), t)) :
    let names := target.indices.filterMap Index.name?
    ∃ g free u value v,
      (expandAndResolve names f).run s = (.ok (g, free), u) ∧
      checkFree target.indices free span = .ok () ∧
      names.length = (u.targetEntry target free).rank ∧
      (componentsOf (u.targetEntry target free) names g).run u = (.ok value, v) ∧
      t = v.insert { u.targetEntry target free with value } := by
  obtain ⟨_, -, h⟩ := run_lift_bind_eq_ok h
  obtain ⟨⟨g, free⟩, u, hexpand, h⟩ := run_bind_eq_ok h
  obtain ⟨_, hfree, h⟩ := run_lift_bind_eq_ok h
  rw [run_bind, run_get] at h
  obtain ⟨_, -, h⟩ := run_lift_bind_eq_ok h
  unfold assignResolved at h
  rw [run_ite] at h
  split at h
  · cases h
  · rw [run_ite] at h
    split at h
    · cases h
    · next hlength =>
      obtain ⟨value, v, hvalue, hinsert⟩ := run_bind_eq_ok h
      cases hinsert
      exact ⟨g, free, u, value, v, hexpand, hfree, not_not.mp hlength, hvalue, rfl⟩

/-- What a successful definition of a component has done. It has written into the tensor that it
found at the start, unless the component is one that vanishes. -/
theorem defineComponent_eq_ok (h : (defineComponent target f span).run s = (.ok (), t)) :
    ∃ e g free u value v,
      s.table.get? target.name = some e ∧
      (expandAndResolve [] f).run s = (.ok (g, free), u) ∧
      checkFree target.indices free span = .ok () ∧
      (evaluate [] g).run u = (.ok value, v) ∧
      let (sign, canonical) := e.symmetry.canonicalize (target.indices.filterMap Index.number?)
      let tensor := (e.value.set canonical (sign.apply value)).fillAliases e.symmetry
      sign = .zero ∧ value.isZero ∧ t = v ∨
        sign ≠ .zero ∧ t = { v with table := v.table.setValue e.name tensor } := by
  unfold defineComponent at h
  rw [run_bind, run_get] at h
  dsimp only at h
  split at h
  · next e he =>
    rw [run_ite] at h
    split at h
    · cases h
    · obtain ⟨⟨g, free⟩, u, hexpand, h⟩ := run_bind_eq_ok h
      obtain ⟨_, hfree, h⟩ := run_lift_bind_eq_ok h
      obtain ⟨value, v, hvalue, h⟩ := run_bind_eq_ok h
      refine ⟨e, g, free, u, value, v, he, hexpand, hfree, hvalue, ?_⟩
      rw [run_ite] at h
      split at h
      · next hzero =>
        rw [run_ite] at h
        split at h
        · cases h
        · next hnone =>
          cases h
          exact .inl ⟨hzero, by simpa using hnone, rfl⟩
      · next hsign =>
        cases h
        exact .inr ⟨hsign, rfl⟩
  · cases h

section

variable {e : Equation} (hnamed : ∀ i ∈ e.target.indices, i.name?.isSome)
include hnamed

theorem define_eq_defineTensor : define e = defineTensor e.target e.value e.span := by
  have hcount : e.target.indices.countP (·.name?.isSome) = e.target.rank :=
    List.countP_eq_length.mpr hnamed
  unfold define
  dsimp only
  rw [hcount, if_neg (by omega), if_neg (not_not.mpr rfl)]

theorem define_blameless : Blameless (define e) := by
  rw [define_eq_defineTensor hnamed]
  exact defineTensor_blameless hnamed

end

end Session

/-! Computations that come to the same in all sessions of a class, and tensors that are assembled
from what they give. -/

variable {g : α → Except Error β} {f : α → SessionM β} {x : SessionM α}

def Symmetry.component (symmetry : Symmetry) (v : IndexVector → Except Error Expr)
    (c : IndexVector) : Except Error Expr :=
  let (sign, canonical) := symmetry.canonicalize c
  if sign = .zero then .ok .zero else sign.apply <$> v canonical

def Entry.assemble (target : Entry) (v : IndexVector → Except Error Expr) : Except Error Tensor := do
  let start : Tensor :=
    if target.rank = 0 then .scalar .zero else .zeros target.rank target.dimension
  let value ← (target.symmetry.distinctIndices target.rank target.dimension).foldlM
    (fun (t : Tensor) index => do return t.set index (← v index)) start
  return value.fillAliases target.symmetry

theorem foldlM_set (v : IndexVector → Except Error Expr) {w : IndexVector → Expr}
    {indices : List IndexVector} (h : ∀ index ∈ indices, v index = .ok (w index)) (t : Tensor) :
    (indices.foldlM (fun (t : Tensor) index => do return t.set index (← v index)) t) =
      .ok (indices.foldl (fun t index => t.set index (w index)) t) := by
  induction indices generalizing t with
  | nil => rfl
  | cons index indices ih =>
    rw [forall_mem_cons] at h
    rw [foldlM_cons, h.1]
    exact ih h.2 _

theorem Entry.assemble_eq {target : Entry} (hordered : target.symmetry.Ordered)
    (hv : ∀ index ∈ target.symmetry.distinctIndices target.rank target.dimension,
      ∃ e, v index = .ok e) :
    ∃ t, target.assemble v = .ok t ∧
      ∀ c ∈ Layout.indices target.rank target.dimension,
        ∃ e, target.symmetry.component v c = .ok e ∧ t.get? c = some e := by
  let w (index : IndexVector) : Expr := (v index).toOption.getD .zero
  have h : ∀ index ∈ target.symmetry.distinctIndices target.rank target.dimension,
      v index = .ok (w index) := by
    intro index hindex
    obtain ⟨e, he⟩ := hv index hindex
    simp only [w]
    rw [he]
    rfl
  -- a scalar is stored with dimension zero, which leaves it its only index
  have hstart : ∃ start : Tensor, (if target.rank = 0 then Tensor.scalar .zero
      else .zeros target.rank target.dimension) = start ∧ start.Full ∧
        Layout.indices start.rank start.dimension =
          Layout.indices target.rank target.dimension := by
    split
    · next hrank =>
      rw [hrank]
      exact ⟨_, rfl, Tensor.full_scalar _, rfl⟩
    · exact ⟨_, rfl, Tensor.full_zeros _ _, rfl⟩
  obtain ⟨start, hstart, hfull, hindices⟩ := hstart
  obtain ⟨hfilled, hrank, hdimension, hget⟩ := Tensor.foldl_set (g := w)
    (target.symmetry.distinctIndices target.rank target.dimension) hfull
    (fun index hindex => by rw [hindices]; exact (mem_filter.mp hindex).1)
  refine ⟨_, by rw [assemble, hstart, foldlM_set v h]; rfl, fun c hc => ?_⟩
  unfold Symmetry.component
  dsimp only
  rw [Tensor.get?_fillAliases hordered hfilled (by rw [hrank, hdimension, hindices]; exact hc),
    Tensor.alias?]
  by_cases hzero : (target.symmetry.canonicalize c).1 = .zero
  · rw [if_pos hzero, if_pos hzero]
    exact ⟨_, rfl, rfl⟩
  · have hmem := target.symmetry.canonicalize_mem_indices hc
    have hdistinct : (target.symmetry.canonicalize c).2 ∈
        target.symmetry.distinctIndices target.rank target.dimension :=
      mem_filter.mpr ⟨hmem, Symmetry.isCanonical_canonical hordered hzero⟩
    rw [if_neg hzero, if_neg hzero, hget _ (by rw [hindices]; exact hmem), if_pos hdistinct,
      h _ hdistinct]
    exact ⟨_, rfl, rfl⟩

namespace Session

theorem component_of_known {s : Session} {e : Entry} {head : TensorHead} {index : IndexVector}
    (he : s.table.get? head.name = some e) (hrank : e.rank = index.length) (span : Span) :
    s.component head index span =
      match e.value.get? index with
      | some value => .ok value
      | none => .error (outOfRange e.name e.dimension span) := by
  unfold component
  rw [he]
  dsimp only
  rw [if_pos hrank]
  rfl

/-- In all sessions of a class the computation gives `y`, and it does not leave the class. -/
def Yields (K : Session → Prop) (x : SessionM α) (y : Except Error α) : Prop :=
  ∀ t, K t → (x.run t).1 = y ∧ K (x.run t).2

variable {K : Session → Prop}

namespace Yields

theorem pure (a : α) : Yields K (pure a : SessionM α) (.ok a) :=
  fun _ ht => ⟨rfl, ht⟩

theorem lift (x : Except Error α) : Yields K (liftM x : SessionM α) x := by
  intro t ht
  rw [run_lift]
  exact ⟨rfl, ht⟩

theorem bind {y : Except Error α} (hx : Yields K x y) (hf : ∀ a, y = .ok a → Yields K (f a) (g a)) :
    Yields K (x >>= f) (y >>= g) := by
  intro t ht
  obtain ⟨hvalue, hnext⟩ := hx t ht
  rw [run_bind]
  rcases hrun : x.run t with ⟨r, u⟩
  rw [hrun] at hvalue hnext
  subst hvalue
  cases r with
  | error fault => exact ⟨rfl, hnext⟩
  | ok a => exact hf a rfl u hnext

theorem mapM {xs : List α} (h : ∀ x ∈ xs, Yields K (f x) (g x)) :
    Yields K (xs.mapM f) (xs.mapM g) := by
  induction xs with
  | nil => exact .pure []
  | cons x xs ih =>
    rw [forall_mem_cons] at h
    rw [mapM_cons, mapM_cons]
    exact .bind h.1 fun _ _ => .bind (ih h.2) fun _ _ => .pure _

theorem foldlM {f : β → α → SessionM β} {g : β → α → Except Error β} {xs : List α}
    (h : ∀ b, ∀ x ∈ xs, Yields K (f b x) (g b x)) (b : β) :
    Yields K (xs.foldlM f b) (xs.foldlM g b) := by
  induction xs generalizing b with
  | nil => exact .pure b
  | cons x xs ih =>
    rw [foldlM_cons, foldlM_cons]
    exact .bind (h b x mem_cons_self) fun _ _ =>
      ih (fun b y hy => h b y (mem_cons_of_mem x hy)) _

theorem componentsOf {f : Formula} {target : Entry}
    (h : ∀ index ∈ target.symmetry.distinctIndices target.rank target.dimension,
      Yields K (evaluate (names.zip index) f) (v index)) :
    Yields K (componentsOf target names f) (target.assemble v) :=
  .bind (.foldlM (fun _ index hindex => .bind (h index hindex) fun _ _ => .pure _) _)
    fun _ _ => .pure _

end Yields

/-- If `y` succeeds, the computation gives the same in all sessions of a class. -/
def Realizes (K : Session → Prop) (x : SessionM α) (y : Except Error α) : Prop :=
  ∀ a, y = .ok a → Yields K x (.ok a)

namespace Realizes

theorem pure (a : α) : Realizes K (pure a : SessionM α) (.ok a) := by
  rintro _ ⟨⟩
  exact .pure a

theorem lift (x : Except Error α) : Realizes K (liftM x : SessionM α) x := by
  rintro a rfl
  exact .lift _

theorem bind {y : Except Error α} (hx : Realizes K x y) (hf : ∀ a, Realizes K (f a) (g a)) :
    Realizes K (x >>= f) (y >>= g) := by
  intro b hb
  obtain ⟨a, ha, hb⟩ := Except.bind_eq_ok hb
  refine (hx a ha).bind (g := fun _ => .ok b) ?_
  rintro _ ⟨⟩
  exact hf a b hb

theorem mapM (h : ∀ x, Realizes K (f x) (g x)) (xs : List α) :
    Realizes K (xs.mapM f) (xs.mapM g) := by
  induction xs with
  | nil => exact .pure []
  | cons x xs ih =>
    rw [mapM_cons, mapM_cons]
    exact .bind (h x) fun _ => .bind ih fun _ => .pure _

end Realizes

open Classical in
/-- What all sessions of a class give. -/
noncomputable def common (K : Session → Prop) (x : SessionM α) : Except Error α :=
  if h : ∃ a, Yields K x (.ok a) then .ok h.choose else .error { cause := .undeclared "" [], span := .none }

theorem realizes_common (x : SessionM α) : Realizes K x (common K x) := by
  intro a ha
  unfold common at ha
  split at ha
  · next h =>
    cases ha
    exact h.choose_spec
  · cases ha

theorem Yields.common_eq {a : α} (h : Yields K x (.ok a)) {s : Session} (hs : K s) :
    common K x = .ok a := by
  have hex : ∃ a, Yields K x (.ok a) := ⟨a, h⟩
  unfold common
  rw [dif_pos hex, ← (hex.choose_spec s hs).1, (h s hs).1]

structure RealizesReading (K : Session → Prop) (r : Reading (Except Error)) : Prop where
  scalar : ∀ name, Realizes K (reading.scalar name) (r.scalar name)
  component : ∀ head index span,
    Realizes K (reading.component head index span) (r.component head index span)
  differentiate : ∀ e k dimension span,
    Realizes K (reading.differentiate e k dimension span) (r.differentiate e k dimension span)

noncomputable def commonReading (K : Session → Prop) : Reading (Except Error) where
  scalar name := common K (reading.scalar name)
  component head index span := common K (reading.component head index span)
  differentiate e k dimension span := common K (reading.differentiate e k dimension span)

theorem realizesReading_common : RealizesReading K (commonReading K) where
  scalar _ := realizes_common _
  component _ _ _ := realizes_common _
  differentiate _ _ _ _ := realizes_common _

theorem RealizesReading.evaluate {r : Reading (Except Error)} (hr : RealizesReading K r)
    (f : Formula) (ρ : Assignment) : Realizes K (evaluate ρ f) (f.evaluate r ρ) := by
  have hall {fs : List Formula} (ih : ∀ f ∈ fs, ∀ ρ,
      Realizes K (f.evaluate reading ρ) (f.evaluate r ρ)) (ρ : Assignment) :
      Realizes K (Formula.evaluateAll reading ρ fs) (Formula.evaluateAll r ρ fs) := by
    induction fs with
    | nil => exact .pure []
    | cons f fs ihs =>
      rw [forall_mem_cons] at ih
      exact .bind (ih.1 ρ) fun _ => .bind (ihs ih.2) fun _ => .pure _
  induction f using Formula.induction generalizing ρ with
  | num q => exact .pure _
  | sym name => exact hr.scalar name
  | tensor t => exact .bind (.lift _) fun index => hr.component t.head index t.span
  | derivative kind i operand dimension span ih =>
    have hderivative : Realizes K
        (do let k ← (ρ.indexValue span i : SessionM Nat)
            reading.differentiate (← operand.evaluate reading ρ) k dimension span)
        (do let k ← ρ.indexValue span i
            r.differentiate (← operand.evaluate r ρ) k dimension span) :=
      .bind (.lift _) fun k => .bind (ih ρ) fun e => hr.differentiate e k dimension span
    unfold Session.evaluate
    rw [Formula.evaluate, Formula.evaluate, Reading.derivativeAt, Reading.derivativeAt]
    split
    · exact .bind (.lift _) fun _ => hderivative
    · exact hderivative
  | sum ts ih | product ts ih => exact .bind (hall ih ρ) fun _ => .pure _
  | power b e hb he => exact .bind (hb ρ) fun _ => .bind (he ρ) fun _ => .pure _
  | fn g a ih => exact .bind (ih ρ) fun _ => .pure _
  | contraction index dimension body ih =>
    exact .bind (.mapM (fun v => ih ((index, v) :: ρ)) _) fun _ => .pure _

end Session

end TensorCalculus
