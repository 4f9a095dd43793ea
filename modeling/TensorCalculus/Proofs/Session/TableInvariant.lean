import TensorCalculus.Proofs.Session.Effect

/-! The representation of the table after any sequence of calls. The order lists the entries and
the owners of symbols point to components of entries, whatever has happened. The values have
the shapes of their entries as long as no equation for a single component changes the shape of
its own target on the way. -/
namespace TensorCalculus

variable {P : Entry → Prop} {e : Entry} {step : Step} {value : Tensor} {C : String → String → Prop}
  {height : Height} {dimension : Nat}

open Relation Table

namespace Session

/-- What holds in every session that calls lead to. -/
structure Sane (s : Session) : Prop where
  within : s.Within fun _ => True
  listed : s.table.Listed

/-- An equation for a single component leaves rank and dimension of its target as they were. -/
def Step.Steady (step : Step) : Prop :=
  ∀ e ∈ step.equation?, e.IsComponent → step.outcome.1.isOk →
    ∀ old ∈ step.start.table.get? e.target.name, ∀ new ∈ step.finish.table.get? e.target.name,
      new.rank = old.rank ∧ new.dimension = old.dimension

instance (step : Step) : Decidable step.Steady :=
  inferInstanceAs (Decidable (∀ e ∈ step.equation?, _))

variable {s t : Session}

theorem over_true (t : Tensor) : t.Over fun _ => True :=
  fun _ _ _ _ => trivial

theorem sane_new (config : Config) : (Session.new config).Sane where
  within := {
    wellFormed := wellFormed_empty _
    numbered := numbered_empty
    symbols := fun _ => over_true _
    spelled := fun h => by simp [Session.new, Table.get?] at h }
  listed := listed_empty

namespace Sane

theorem of_table (hs : s.Sane) (htable : t.table = s.table) (hconfig : t.config = s.config) :
    t.Sane where
  within := {
    wellFormed := by rw [htable, hconfig]; exact hs.within.wellFormed
    numbered := by rw [htable]; exact hs.within.numbered
    symbols := fun _ => over_true _
    spelled := fun h horigin => hs.within.spelled (by rw [← htable]; exact h) horigin }
  listed := by rw [htable]; exact hs.listed

theorem insert (hs : s.Sane) (hproper : e.Proper)
    (hspelled : ∀ mark, e.origin = .covariantDerivative mark → CovariantName mark e.name) :
    (s.insert e).Sane :=
  ⟨hs.within.insert hproper (over_true _) hspelled, hs.listed.insert _ e⟩

theorem setValue (hs : s.Sane) (name : String) (value : Tensor) :
    { s with table := s.table.setValue name value }.Sane where
  within := {
    wellFormed := hs.within.wellFormed.setValue name value
    numbered := (renews_setValue _ _ _).numbered hs.within.numbered
    symbols := fun _ => over_true _
    spelled := fun {other e' mark} h horigin => by
      rw [get?_setValue] at h
      split at h
      · next hname =>
        obtain ⟨e, he, rfl⟩ := Option.map_eq_some_iff.mp h
        rw [← hname]
        exact hs.within.spelled he horigin
      · exact hs.within.spelled h horigin }
  listed := hs.listed.setValue name value

theorem of_change (h : Change (fun _ => True) (Auxiliary fun _ => True) s t) (hs : s.Sane) :
    t.Sane where
  within := Rule.within_of_change (.ofReserved fun _ _ => trivial) h hs.within
  listed := by
    cases h with
    | scalar | derivative | computed => exact hs.listed.insert _ _

theorem of_reach (h : Reach (fun _ => True) s t) (hs : s.Sane) : t.Sane := by
  induction h with
  | refl => exact hs
  | tail _ h ih => exact of_change h ih

theorem withMetric (hs : s.Sane) (base : String) (height : Height) (dimension : Nat)
    (value : Tensor) : (s.withMetric base height dimension value).Sane := by
  have hdeclared := hs.insert (proper_metricEntry base height dimension value
    (by decide : Origin.declared ≠ _)) nofun
  have hinverse := hdeclared.insert (proper_metricEntry base height.flip dimension value.inverse.1
    (by decide : Origin.computed ≠ _)) nofun
  exact (hinverse.insert (e := determinantEntry base dimension _) ⟨nofun, nofun⟩ nofun).of_table
    rfl rfl

theorem of_effect (h : Effect step t) (hs : step.start.Sane) : t.Sane := by
  cases h with
  | changes h hleads hsame => exact (of_reach h hs).of_table hsame.table hsame.config
  | equation he hok h hleads hstores =>
    have hu := of_reach h hs
    cases hstores with
    | tensor hname horigin hsource hordered hfilled hsymmetry =>
      exact hu.insert ⟨hordered, fun hpartial => by rw [horigin] at hpartial; cases hpartial⟩
        fun mark hmark => by rw [horigin] at hmark; cases hmark
    | component => exact hu.setValue _ _
  | declaration hsame horigin hsource hordered hfault hkept hvalue =>
    exact (hs.of_table hsame.table hsame.config).insert
      ⟨hordered, fun hpartial => by rw [horigin] at hpartial; cases hpartial⟩
      fun mark hmark => by rw [horigin] at hmark; cases hmark
  | metric hdeclared hsame hname hvalue =>
    exact (hs.of_table hsame.table hsame.config).withMetric _ _ _ _
  | evaluation hevaluated h => exact hs.setValue _ _

theorem after (config : Config) (calls : List Call) : ((Session.new config).after calls).Sane :=
  invariant_of_history (P := fun _ => True)
    (fun step _ hs => of_effect (step.effect hs.within) hs) (sane_new config) fun _ _ => trivial

end Sane

section Shapes

theorem all_of_table (hs : s.All P) (htable : t.table = s.table) : t.All P :=
  fun name e h => hs name e (by rw [← htable]; exact h)

theorem substituteValues_of_map {P : Tensor → Prop} (hP : ∀ x f, P x → P (x.map f)) (s : Session)
    (n : Nat) {x : Tensor} (h : P x) : P (s.substituteValues n x) := by
  induction n generalizing x with
  | zero => exact h
  | succ n ih =>
    rw [substituteValues]
    split
    · exact h
    · exact ih (hP x _ h)

theorem All.withMetric (hs : s.All P) {base : String}
    (hdeclared : ∀ id, P { metricEntry base height dimension value .declared with id })
    (hinverse : ∀ id, P { metricEntry base height.flip dimension value.inverse.1 .computed with id })
    (hdet : ∀ det id, P { determinantEntry base dimension det with id }) :
    (s.withMetric base height dimension value).All P :=
  all_of_table (((hs.insert hdeclared).insert hinverse).insert (hdet _)) rfl

theorem all_of_change (hP : ∀ e, Entry.Shaped e → P e)
    (h : Change (fun _ => True) (Auxiliary fun _ => True) s t) (hs : s.All P) : t.All P := by
  cases h with
  | scalar => exact hs.insert fun id => hP _ ((Entry.shaped_freeScalar _ _).withId id)
  | derivative => exact hs.insert fun id => hP _ ((shaped_derivativeEntry _ _ _).withId id)
  | computed h => exact hs.insert fun id => hP _ (h.computed.filled.shaped.withId id)

theorem all_of_reach (hP : ∀ e, Entry.Shaped e → P e) (h : Reach (fun _ => True) s t) (hs : s.All P) :
    t.All P := by
  induction h with
  | refl => exact hs
  | tail _ h ih => exact all_of_change hP h ih

theorem shaped_withMetric (hs : s.All Entry.Shaped) (base : String) (height : Height)
    (dimension : Nat) (hvalue : (metricEntry base height dimension value .declared).Shaped) :
    (s.withMetric base height dimension value).All Entry.Shaped := by
  have hinverse : (metricEntry base height.flip dimension value.inverse.1 .computed).Shaped :=
    shaped_inverse (hvalue.dimension Nat.zero_lt_two) _
  exact hs.withMetric hvalue.withId hinverse.withId fun _ =>
    (shaped_determinantEntry base dimension _).withId

theorem shaped_of_effect (h : Effect step t) (ht : t = step.finish) (hsteady : step.Steady)
    (hs : step.start.Sane) (hshaped : step.start.All Entry.Shaped) : t.All Entry.Shaped := by
  cases h with
  | changes h hleads hsame => exact all_of_table (all_of_reach (fun _ => id) h hshaped) hsame.table
  | @equation e u _ he hok h hleads hstores =>
    have hu := all_of_reach (fun _ => id) h hshaped
    cases hstores with
    | tensor hname horigin hsource hordered hfilled hsymmetry => exact hu.insert fun id => hfilled.shaped.withId id
    | @component old index x hcomponent hold hx =>
      have hkey : old.name = e.target.name := hs.within.wellFormed.key hold
      intro name new hnew
      have hfinish := hnew
      rw [get?_setValue] at hnew
      split at hnew
      · next hname =>
        have hok : step.outcome.1.isOk := by rw [hok]; rfl
        have hkept := hsteady e he hcomponent hok old hold new (by
          rw [← ht, ← hname.symm.trans hkey]
          exact hfinish)
        obtain ⟨current, _, rfl⟩ := Option.map_eq_some_iff.mp hnew
        exact ((hshaped _ _ hold).set _ _).fillAliases _ |>.congr hkept.1 fun _ => hkept.2
      · exact hu name new hnew
  | declaration hsame horigin hsource hordered hfault hkept hvalue =>
    refine (all_of_table hshaped hsame.table).insert fun id => Entry.Shaped.withId ?_ id
    unfold Entry.Shaped
    rw [hvalue]
    refine fits_declaredValue hfault (fun x hx => ?_) _
    obtain ⟨old, hold, hrank, hdimension, rfl⟩ := hkept x hx
    exact (hshaped _ _ hold).congr hrank.symm fun hpos => (hdimension (hrank ▸ hpos)).symm
  | @metric s name base height dimension value hdeclared hsame hname hvalue =>
    refine shaped_withMetric (all_of_table hshaped hsame.table) base height dimension ?_
    rcases hvalue with rfl | ⟨old, hold, hrank, hdimension, rfl⟩
    · exact Entry.fits_symbolic (e := metricEntry base height dimension
        (.symbolic name 2 dimension .metric s.config.naming) .declared) name .metric _
    · have hfits : (metricEntry base height dimension old.value .declared).Fits old.value :=
        (hshaped _ _ hold).congr hrank.symm fun _ => hdimension.symm
      exact hfits
  | @evaluation _ e hevaluated h =>
    intro name new hnew
    rw [get?_setValue] at hnew
    split at hnew
    · rw [h] at hnew
      cases hnew
      exact (substituteValues_of_map (fun _ f h => h.map f) _ _ (hshaped _ _ h)).congr rfl fun _ => rfl
    · exact hshaped name new hnew

theorem shaped_after (config : Config) {calls : List Call}
    (h : ∀ step ∈ (Session.new config).history calls, step.Steady) :
    ((Session.new config).after calls).All Entry.Shaped := by
  refine (invariant_of_history (I := fun s => s.Sane ∧ s.All Entry.Shaped)
    (fun step hsteady hs => ?_) ⟨sane_new config, fun name e he => ?_⟩ h).2
  · have heffect := step.effect hs.1.within
    exact ⟨hs.1.of_effect heffect, shaped_of_effect heffect rfl hsteady hs.1 hs.2⟩
  · simp [Session.new, Table.get?] at he

end Shapes

/-- After any calls, the order has each name of the table once, and each owned symbol stands for
a component inside an entry. The values have the rank and dimension of their entries if no
equation for one component met another tensor under its name at the end than at the start. -/
theorem table_is_consistent (config : Config) (calls : List Call) :
    let s := (Session.new config).after calls
    s.table.order.Nodup ∧ (∀ name, name ∈ s.table.order ↔ (s.table.get? name).isSome) ∧
    (∀ (symbol name : String) (index : IndexVector), s.table.owners[symbol]? = some (name, index) →
      ∃ e, s.table.get? name = some e ∧ index.length = e.rank ∧ ∀ i ∈ index, i < e.dimension) ∧
    ((∀ step ∈ (Session.new config).history calls, step.Steady) →
      ∀ name e, s.table.get? name = some e →
        e.value.rank = e.rank ∧ e.value.components.size = e.dimension ^ e.rank ∧
          (0 < e.rank → e.value.dimension = e.dimension)) := by
  intro s
  have hs : s.Sane := .after config calls
  refine ⟨hs.listed.nodup, hs.listed.mem_order, fun symbol name index howner => ?_,
    fun hsteady name e he => ?_⟩
  · obtain ⟨e, he, hindex, _⟩ := hs.within.wellFormed.owned howner
    exact ⟨e, he, Layout.mem_indices.mp hindex⟩
  · have hshaped := shaped_after config hsteady name e he
    exact ⟨hshaped.rank, hshaped.size, hshaped.dimension⟩

set_option maxRecDepth 100000 in
theorem table_is_consistent_symmetric :
    let calls : List Call :=
      [.document "% dim 2\n% def sym01 hDD\nh_{1 0} = y", .expression "\\partial_0 h_{i j}",
        .document "B_{i j k} = \\partial_k h_{i j}\nh_{0 0} = \\partial_1 y\n% redef nosym hDD"]
    let s := (Session.new {}).after calls
    (∀ step ∈ (Session.new {}).history calls, step.Steady) ∧
      s.table.order = ["y", "hDD_dD", "y_dD", "BDDD", "hDD"] ∧
      ∀ name e, s.table.get? name = some e →
        e.value.rank = e.rank ∧ e.value.components.size = e.dimension ^ e.rank ∧
          (0 < e.rank → e.value.dimension = e.dimension) := by
  intro calls s
  have hsteady : ∀ step ∈ (Session.new {}).history calls, step.Steady := by decide +kernel
  have horder : s.table.order = ["y", "hDD_dD", "y_dD", "BDDD", "hDD"] := by decide +kernel
  exact ⟨hsteady, horder, (table_is_consistent {} calls).2.2.2 hsteady⟩

set_option maxRecDepth 100000 in
/-- An equation for one component writes into the tensor that its own evaluation has put in place
of the one that it has read. In the first document the derivatives of `x` have become a tensor of
another dimension, in the second one a tensor has become a scalar. -/
theorem component_of_replaced_tensor :
    let entry (source name : String) := (((Session.new {}).parse source).2.table.get? name).map
      fun e => (e.heights.length, e.dimension, e.value.rank, e.value.components.size)
    entry "% def x_dD (2)\n\\mathrm\x7bx_d\x7d_0 = \\partial_0 x" "x_dD" = some (1, 3, 1, 2) ∧
      entry "% def vU (2)\nw^i = v^i\nw^0 = \\partial_0 \\mathrm\x7bwU\x7d" "wU" =
        some (0, 3, 1, 2) := by
  decide +kernel

end Session

/-! What an equation leaves alone. Its evaluation writes connections, names that are left to
derivatives, and scalars; a scalar takes the place of a tensor only if its name is met as a
symbol that no entry owns. Every other entry but the target is the same afterwards, down to its
number. -/

/-- A name under which evaluation stores connections and derivatives. -/
def DerivedName (name : String) : Prop :=
  Reserved name ∨ CovariantSpelling name ∨ ∃ mark : Diacritic, name = mark.connectionName

namespace Session

/-- Two sessions that differ in their tables only. -/
structure SameSettings (s t : Session) : Prop where
  config : t.config = s.config
  coordinates : t.coordinates = s.coordinates
  dimension : t.dimension = s.dimension
  metrics : t.metrics = s.metrics
  warnings : t.warnings = s.warnings

variable {p : String → Prop} {s t u : Session} {name : String}

theorem SameSettings.refl (s : Session) : SameSettings s s :=
  ⟨rfl, rfl, rfl, rfl, rfl⟩

theorem SameSettings.trans (h : SameSettings s t) (h' : SameSettings t u) : SameSettings s u where
  config := h'.config.trans h.config
  coordinates := h'.coordinates.trans h.coordinates
  dimension := h'.dimension.trans h.dimension
  metrics := h'.metrics.trans h.metrics
  warnings := h'.warnings.trans h.warnings

theorem sameSettings_of_change {C : Session → Entry → Prop} (h : Change p C s t) : SameSettings s t := by
  cases h <;> exact ⟨rfl, rfl, rfl, rfl, rfl⟩

theorem sameSettings_of_reach (h : Reach p s t) : SameSettings s t := by
  induction h with
  | refl => exact .refl s
  | tail _ h ih => exact ih.trans (sameSettings_of_change h)

/-- Evaluation in symbols with `p` does not take the name for a new scalar. -/
def Guarded (p : String → Prop) (s : Session) (name : String) : Prop :=
  ¬ p name ∨ s.table.owners[name]? = some (name, []) ∨ name ∈ s.coordinates ∨ name = "pi"

theorem Guarded.insert (h : Guarded p s name) (hname : e.name ≠ name)
    (hsymbols : ∀ index, (name, index) ∉ e.componentSymbols s.config.naming) :
    Guarded p (s.insert e) name :=
  h.imp_right fun h => h.imp_left fun howner => owners_insert_of_ne howner hname.symm hsymbols

theorem get?_of_change (h : Change p (Auxiliary p) s t) (hs : s.Within p)
    (hname : ¬ DerivedName name) (hguarded : Guarded p s name) (he : s.table.get? name = some e) :
    t.table.get? name = some e ∧ Guarded p t name := by
  cases h with
  | @scalar new hp hfree =>
    have hne : new ≠ name := by
      rintro rfl
      rcases hfree with habsent | ⟨hunowned, hcoordinate, hpi⟩
      · rw [habsent] at he
        cases he
      · rcases hguarded with hnot | howner | hmem | heq
        · exact hnot hp
        · have howned := (Table.owner?_eq_some s.table).mpr ⟨new, howner, he⟩
          rw [hunowned] at howned
          cases howned
        · exact hcoordinate hmem
        · exact hpi heq
    refine ⟨(get?_insert_of_ne hne).trans he, hguarded.insert hne fun index hmem => ?_⟩
    exact hne (Prod.mk.inj (List.mem_singleton.mp hmem)).1.symm
  | derivative hget n =>
    have hspelling := spelling_derivativeName (hs.wellFormed.proper hget)
    have hne : derivativeName _ ≠ name := fun heq => hname (.inl (heq ▸ hspelling.reserved))
    refine ⟨(get?_insert_of_ne hne).trans he, hguarded.insert hne fun index hmem => ?_⟩
    refine hname (.inl ?_)
    rw [(Table.eq_componentName_of_mem hmem).2]
    exact hspelling.reserved.componentName _ _ _
  | @computed new hnew =>
    have hne : new.name ≠ name := fun heq => hname (.inr (by rw [← heq]; exact hnew.computed.name))
    refine ⟨(get?_insert_of_ne hne).trans he, hguarded.insert hne fun index hmem => ?_⟩
    rw [hnew.computed.silent] at hmem
    cases hmem

theorem get?_of_reach (hp : ∀ symbol, Reserved symbol → p symbol) (h : Reach p s t)
    (hs : s.Within p) (hname : ¬ DerivedName name) (hguarded : Guarded p s name)
    (he : s.table.get? name = some e) : t.table.get? name = some e := by
  have hkept : t.table.get? name = some e ∧ Guarded p t name := by
    induction h with
    | refl => exact ⟨he, hguarded⟩
    | tail hreach h ih =>
      exact get?_of_change h ((Rule.ofReserved hp).within_of_reach hreach hs) hname ih.2 ih.1
  exact hkept.1

theorem get?_of_stores {e : Equation} (h : Stores p e s u t) (hs : s.Within p)
    (htarget : e.target.name ≠ name) : t.table.get? name = u.table.get? name := by
  cases h with
  | tensor hname => exact get?_insert_of_ne (by rw [hname]; exact htarget)
  | component _ hold =>
    rw [Table.get?_setValue, if_neg]
    rw [hs.wellFormed.key hold]
    exact htarget

theorem sameSettings_of_stores {e : Equation} (h : Stores p e s u t) : SameSettings u t := by
  cases h <;> exact ⟨rfl, rfl, rfl, rfl, rfl⟩

theorem define_frame (hp : ∀ symbol, Reserved symbol → p symbol) {e : Equation}
    (he : Mentions p e.value) (hs : s.Within p) :
    SameSettings s ((define e).run s).2 ∧
      ∀ name entry, s.table.get? name = some entry → ¬ DerivedName name → Guarded p s name →
        (((define e).run s).1 = .ok () → e.target.name ≠ name) →
          ((define e).run s).2.table.get? name = some entry := by
  obtain ⟨u, hreach, -, hend⟩ := define_ends hp hs he
  have hsame := sameSettings_of_reach hreach
  rcases hend with hend | ⟨hok, hstores⟩
  · rw [hend]
    exact ⟨hsame, fun name entry hentry hname hguarded _ =>
      get?_of_reach hp hreach hs hname hguarded hentry⟩
  · refine ⟨hsame.trans (sameSettings_of_stores hstores),
      fun name entry hentry hname hguarded htarget => ?_⟩
    rw [get?_of_stores hstores hs (htarget hok)]
    exact get?_of_reach hp hreach hs hname hguarded hentry

/-- The name is a scalar that stands for itself, or it is met nowhere as a symbol. -/
def Step.Unmistakable (step : Step) (name : String) : Prop :=
  Guarded (fun _ => True) step.start name ∨
    (∀ other e, step.start.table.get? other = some e → e.value.Over (· ≠ name)) ∧
      ∀ e ∈ step.equation?, name ∉ e.value.scalarNames

/-- The settings stay, and so do the entries with such names, except the target of an equation
that succeeds. -/
def Step.Spares (step : Step) : Prop :=
  SameSettings step.start step.finish ∧
    ∀ name entry, step.start.table.get? name = some entry → ¬ DerivedName name →
      step.Unmistakable name →
      (∀ e ∈ step.equation?, step.outcome.1.isOk → e.target.name ≠ name) →
        step.finish.table.get? name = some entry

theorem Step.spares_of_finish (h : step.finish = step.start) : step.Spares := by
  unfold Spares
  rw [h]
  exact ⟨.refl _, fun name entry hentry _ _ _ => hentry⟩

theorem Step.spares_of_define (hs : step.start.Within fun _ => True) {e : Equation}
    (he : step.equation? = some e) (h : step.outcome = (Session.define e).run step.start) :
    step.Spares := by
  unfold Spares
  rw [Step.finish, h]
  have htrue : ∀ symbol, Reserved symbol → True := fun _ _ => trivial
  refine ⟨(define_frame htrue (e := e) (fun _ _ => trivial) hs).1,
    fun name entry hentry hname hclear htarget => ?_⟩
  have htarget (hok : ((Session.define e).run step.start).1 = .ok ()) : e.target.name ≠ name :=
    htarget e he (by rw [hok]; rfl)
  rcases hclear with hguarded | ⟨hvalues, hscalars⟩
  · exact (define_frame htrue (fun _ _ => trivial) hs).2 name entry hentry hname hguarded htarget
  · -- no symbol that is met is the name, and the reserved ones are not either
    have hp : ∀ symbol, Reserved symbol → symbol ≠ name := by
      rintro symbol hreserved rfl
      exact hname (.inl hreserved)
    have hwithin : step.start.Within (· ≠ name) :=
      ⟨hs.wellFormed, hs.numbered, fun h => hvalues _ _ h, hs.spelled⟩
    have hmentions : Mentions (· ≠ name) e.value := by
      rintro symbol hsymbol rfl
      exact hscalars e he hsymbol
    exact (define_frame hp hmentions hwithin).2 name entry hentry hname
      (.inl fun hne => hne rfl) htarget

theorem Step.spares_of_defineText (hs : step.start.Within fun _ => True) {text : Segment}
    (hequation : step.equation? =
      (Equation.parse step.document text step.start.table.isTensorBase).toOption)
    (h : step.outcome = (defineText step.document text).run step.start) : step.Spares := by
  unfold defineText at h
  rw [run_bind, run_get] at h
  dsimp only at h
  rw [run_bind, run_lift] at h
  cases hparse : Equation.parse step.document text step.start.table.isTensorBase with
  | error fault =>
    rw [hparse] at h
    exact spares_of_finish (congrArg Prod.snd h)
  | ok e =>
    rw [hparse] at h hequation
    exact spares_of_define hs hequation h

/-- In any session that calls lead to, an equation, be it a statement or a directive, changes no
settings. It leaves every entry as it is, also when it fails, except its target when it succeeds,
names that are left to connections and derivatives, and a tensor whose name is used as a symbol. -/
theorem equation_changes_target_only (config : Config) (calls : List Call) (document : List Char)
    (text : Segment) (directive : Bool) :
    let step : Step := ⟨document, if directive then .define text else .equation text,
      (Session.new config).after calls⟩
    SameSettings step.start step.finish ∧
      ∀ name entry, step.start.table.get? name = some entry → ¬ DerivedName name →
        step.Unmistakable name →
        (∀ e ∈ step.equation?, step.outcome.1.isOk → e.target.name ≠ name) →
          step.finish.table.get? name = some entry := by
  intro step
  change step.Spares
  have hs : step.start.Within fun _ => True := (Sane.after config calls).within
  have hequation : step.equation? =
      (Equation.parse document text step.start.table.isTensorBase).toOption := by
    cases directive <;> rfl
  cases directive with
  | true => exact Step.spares_of_defineText hs hequation rfl
  | false =>
    have hrun : step.outcome = (runEquation document text).run step.start := rfl
    unfold runEquation at hrun
    rw [run_bind, run_lift] at hrun
    cases htokens : Token.scan text with
    | error fault =>
      rw [htokens] at hrun
      exact Step.spares_of_finish (congrArg Prod.snd hrun)
    | ok tokens =>
      rw [htokens] at hrun
      dsimp only at hrun
      rw [run_ite] at hrun
      split at hrun
      · exact Step.spares_of_defineText hs hequation hrun
      · exact Step.spares_of_finish (congrArg Prod.snd hrun)

set_option maxRecDepth 100000 in
theorem equation_changes_target_only_failing :
    let document := "y = \\partial_0 x + \\partial_3 x".toList
    let step : Step := ⟨document, .equation ⟨0, document⟩,
      (Session.new {}).after [.document "% def vU (2)\ny = x + v^0"]⟩
    step.outcome.1.isOk = false ∧ (step.finish.table.get? "x_dD").isSome ∧
      ∃ y, step.start.table.get? "y" = some y ∧ step.finish.table.get? "y" = some y := by
  intro document step
  have hfails : step.outcome.1.isOk = false := by decide +kernel
  have hwrites : (step.finish.table.get? "x_dD").isSome := by decide +kernel
  have hknown : (step.start.table.get? "y").isSome := by decide +kernel
  have howner : step.start.table.owners["y"]? = some ("y", []) := by decide +kernel
  have hname : ¬ DerivedName "y" := by
    rintro (h | h | ⟨mark, h⟩)
    · exact absurd h (by decide)
    · exact absurd h (by decide)
    · cases mark <;> exact absurd h (by decide)
  obtain ⟨y, hy⟩ := Option.isSome_iff_exists.mp hknown
  refine ⟨hfails, hwrites, y, hy, ?_⟩
  exact (equation_changes_target_only {} [.document "% def vU (2)\ny = x + v^0"] document
    ⟨0, document⟩ false).2 "y" y hy hname (.inl (.inr (.inl howner))) fun _ _ hok =>
      absurd (hfails.symm.trans hok) (by decide)

set_option maxRecDepth 100000 in
/-- An equation may lose another entry. In the first document the name of a tensor is
differentiated as a symbol, which makes it a scalar; in the second one a tensor has the name of
the derivatives of `x`. -/
theorem equation_replaces_other_entry :
    let shape (source name : String) := (((Session.new {}).parse source).2.table.get? name).map
      fun e => (e.heights.length, e.dimension)
    let first := "% def vU (2)\nw^i = v^i"
    let second := "% def x_dD (2)"
    shape first "wU" = some (1, 2) ∧
      shape (first ++ "\nz = \\partial_0 \\mathrm\x7bwU\x7d") "wU" = some (0, 3) ∧
      shape second "x_dD" = some (1, 2) ∧
      shape (second ++ "\ny = \\partial_0 x") "x_dD" = some (1, 3) := by
  decide +kernel

/-! The order of the names in the course of a document. The sessions before and after each
action show all cycles of references that can disturb it. -/

/-- The second session is well formed, and the order of two names is right in it if it was in the
first one, unless they are cyclic. -/
structure Moves (cyclic : String → String → Prop) (s t : Session) : Prop where
  wellFormed : t.table.WellFormed t.config.naming
  nodup : s.table.order.Nodup → t.table.order.Nodup
  sorted : ∀ {n m}, n ≠ m → ¬ cyclic n m → s.table.Sorted n m → t.table.Sorted n m

namespace Moves

variable {D : String → String → Prop}

theorem of_table (hs : s.table.WellFormed s.config.naming) (htable : t.table = s.table)
    (hconfig : t.config = s.config) : Moves C s t where
  wellFormed := by
    rw [htable, hconfig]
    exact hs
  nodup h := by
    rw [htable]
    exact h
  sorted _ _ h := by
    rw [htable]
    exact h

theorem trans (h : Moves C s t) (h' : Moves D t u) : Moves (fun n m => C n m ∨ D n m) s u where
  wellFormed := h'.wellFormed
  nodup hs := h'.nodup (h.nodup hs)
  sorted hne hcyclic hs := by
    rw [not_or] at hcyclic
    exact h'.sorted hne hcyclic.2 (h.sorted hne hcyclic.1 hs)

theorem mono (h : Moves C s t) (hCD : ∀ n m, n ≠ m → C n m → D n m) : Moves D s t :=
  ⟨h.wellFormed, h.nodup, fun hne hcyclic => h.sorted hne fun hC => hcyclic (hCD _ _ hne hC)⟩

end Moves

section Update

variable (hs : s.table.WellFormed s.config.naming)
include hs

end Update

end Session

open List

namespace Session

end Session

end TensorCalculus
