import TensorCalculus.Proofs.Session.Computing

/-! Sequences of calls, taken apart into the single actions of the documents. Each action is
kept together with the session it starts in. -/
namespace TensorCalculus

variable {s : Session}

open List

namespace Session

/-- What one item of a document asks for. -/
inductive Action where
  | declare (again : Bool) (item : Segment)
  | evaluate (item : Segment)
  | coordinates (names : Segment)
  | dimension (number : Segment)
  | define (text : Segment)
  | equation (text : Segment)
  | value

namespace Action

def run (document : List Char) : Action → SessionM Unit
  | declare again item => Session.declare again item
  | evaluate item => evaluateName item
  | coordinates names => declareCoordinates names
  | dimension number => declareDimension number
  | define text => defineText document text
  | equation text => runEquation document text
  | value => do discard (valueOf document)

def ofKeyword (keyword : String) (rest : Segment) : List Action :=
  if keyword = "def" then rest.items.map (declare false)
  else if keyword = "redef" then rest.items.map (declare true)
  else if keyword = "parse" then [define rest]
  else if keyword = "eval" then rest.items.map evaluate
  else if keyword = "coord" then [coordinates rest]
  else if keyword = "dim" then [dimension rest]
  else []

def ofDirective (s : Segment) : List Action :=
  ofKeyword (s.trim.takeWhile Char.isAlpha).text (s.trim.dropWhile Char.isAlpha).trim

def ofStatement : Statement → List Action
  | .directive s => ofDirective s
  | .equation s => [equation s]

def ofDocument (document : List Char) : List Action :=
  (Statement.split document).flatMap ofStatement

theorem map_run_ofStatement (document : List Char) (statement : Statement) :
    (ofStatement statement).map (run document) = statementActions document statement := by
  cases statement with
  | equation s => rfl
  | directive s =>
    change (ofKeyword _ _).map (run document) = directiveActions document s
    unfold directiveActions
    dsimp only
    generalize (s.trim.takeWhile Char.isAlpha).text = keyword
    generalize (s.trim.dropWhile Char.isAlpha).trim = rest
    split
    · exact map_map
    · exact map_map
    · rfl
    · exact map_map
    · rfl
    · rfl
    · next h₁ h₂ h₃ h₄ h₅ h₆ =>
      rw [ofKeyword, if_neg h₁, if_neg h₂, if_neg h₃, if_neg h₄, if_neg h₅, if_neg h₆]
      rfl

theorem map_run_ofDocument (document : List Char) :
    (ofDocument document).map (run document) = documentActions document := by
  unfold ofDocument documentActions
  rw [map_flatMap]
  exact flatMap_congr fun statement _ => map_run_ofStatement document statement

end Action

structure Step where
  document : List Char
  action : Action
  start : Session

namespace Step

def outcome (step : Step) : Except Error Unit × Session :=
  (step.action.run step.document).run step.start

def finish (step : Step) : Session :=
  step.outcome.2

end Step

/-- The steps of some actions one after the other, up to the first that fails. -/
def stepsFrom (document : List Char) : List Action → Session → List Step
  | [], _ => []
  | action :: actions, s =>
    let step : Step := ⟨document, action, s⟩
    step :: match step.outcome with
      | (.ok _, t) => stepsFrom document actions t
      | (.error _, _) => []

/-- A call that runs a document or asks for the value of an expression. -/
inductive Call where
  | document (source : String)
  | expression (source : String)

namespace Call

def run : Call → Session → Session
  | document source, s => (s.parse source).2
  | expression source, s => (s.parseExpr source).2

def steps : Call → Session → List Step
  | document source => stepsFrom source.toList (Action.ofDocument source.toList)
  | expression source => stepsFrom source.toList [.value]

end Call

def after (s : Session) (calls : List Call) : Session :=
  calls.foldl (fun s call => call.run s) s

def history (s : Session) : List Call → List Step
  | [] => []
  | call :: calls => call.steps s ++ (call.run s).history calls

section Invariant

variable {I : Session → Prop} {P : Step → Prop}
  (hstep : ∀ step, P step → I step.start → I step.finish)
include hstep

theorem invariant_along_actions {document : List Char} {actions : List Action} (hs : I s)
    (h : ∀ step ∈ stepsFrom document actions s, P step) :
    I (((actions.map (Action.run document)).forM id).run s).2 ∧
      ∀ step ∈ stepsFrom document actions s, I step.start := by
  induction actions generalizing s with
  | nil => exact ⟨hs, nofun⟩
  | cons action actions ih =>
    rw [stepsFrom, forall_mem_cons] at h ⊢
    have hfinish : I (Step.outcome ⟨document, action, s⟩).2 := hstep _ h.1 hs
    have hrest := h.2
    change I ((action.run document >>= fun _ =>
      (actions.map (Action.run document)).forM id).run s).2 ∧ _
    rw [run_bind, show (action.run document).run s = Step.outcome ⟨document, action, s⟩ from rfl]
    generalize Step.outcome ⟨document, action, s⟩ = outcome at hfinish hrest ⊢
    rcases outcome with ⟨_ | _, t⟩
    · exact ⟨hfinish, hs, nofun⟩
    · exact ⟨(ih hfinish hrest).1, hs, (ih hfinish hrest).2⟩

theorem invariant_of_call {call : Call} (hs : I s) (h : ∀ step ∈ call.steps s, P step) :
    I (call.run s) := by
  cases call with
  | document source =>
    have hrun := (invariant_along_actions hstep hs h).1
    rw [Action.map_run_ofDocument] at hrun
    change I (parse source s).2
    unfold parse
    dsimp only
    split <;> next heq => rw [heq] at hrun; exact hrun
  | expression source =>
    have hrun : I ((valueOf source.toList).run s).2 := by
      have hvalue := hstep ⟨source.toList, .value, s⟩ (h _ mem_cons_self) hs
      change I ((valueOf source.toList >>= fun _ => pure ()).run s).2 at hvalue
      rw [run_bind] at hvalue
      rcases hrun : (valueOf source.toList).run s with ⟨_ | _, t⟩ <;>
      · rw [hrun] at hvalue
        exact hvalue
    change I (parseExpr source s).2
    unfold parseExpr
    dsimp only
    split <;> next heq => rw [heq] at hrun; exact hrun

/-- What each step keeps holds after any sequence of calls. -/
theorem invariant_of_history {calls : List Call} (hs : I s) (h : ∀ step ∈ s.history calls, P step) :
    I (s.after calls) := by
  induction calls generalizing s with
  | nil => exact hs
  | cons call calls ih =>
    rw [history, forall_mem_append] at h
    exact ih (invariant_of_call hstep hs h.1) h.2

end Invariant

end Session

/-! All that one step can do. An equation makes the changes of its evaluation, also when it
fails, and stores one value in the end when it succeeds. A directive writes at once. -/

open Relation

variable {e : Equation} {name : String}

def Equation.IsComponent (e : Equation) : Prop :=
  e.target.indices.countP (·.name?.isSome) = 0 ∧ 0 < e.target.rank

instance (e : Equation) : Decidable e.IsComponent :=
  inferInstanceAs (Decidable (_ ∧ _))

def Entry.withComponent (e : Entry) (index : IndexVector) (x : Expr) : Tensor :=
  (e.value.set (e.symmetry.canonicalize index).2
    ((e.symmetry.canonicalize index).1.apply x)).fillAliases e.symmetry

namespace Session

def Reach (p : String → Prop) : Session → Session → Prop :=
  ReflTransGen (Change p (Auxiliary p))

/-- What all entries of the first session have and the entries that are made on the way inherit
is kept on the way to the second one. -/
def Leads (s t : Session) : Prop :=
  ∀ P, Inherited P → s.All P → ReflTransGen (Aux P) s t

/-- What an equation that was begun in `s` stores in `u`. A tensor has the symmetry of one that it
takes the place of. -/
inductive Stores (p : String → Prop) (e : Equation) (s u : Session) : Session → Prop
  | tensor {entry : Entry} (hname : entry.name = e.target.name) (horigin : entry.origin = .computed)
    (hsource : entry.source = none) (hordered : entry.symmetry.Ordered) (hfilled : entry.Filled p)
    (hsymmetry : entry.symmetry = .none ∨ ∃ v old, Leads s v ∧
      v.table.get? entry.name = some old ∧ old.rank = entry.rank ∧ entry.symmetry = old.symmetry) :
    Stores p e s u (u.insert entry)
  | component {old : Entry} {index : IndexVector} {x : Expr} (he : e.IsComponent)
    (hold : s.table.get? e.target.name = some old) (hx : x.Over p) :
    Stores p e s u { u with table := u.table.setValue old.name (old.withComponent index x) }

theorem Leads.refl (s : Session) : Leads s s :=
  fun _ _ _ => .refl

theorem Leads.trans {t u : Session} (h : Leads s t) (h' : Leads t u) : Leads s u :=
  fun P hP hs => (h P hP hs).trans (h' P hP (hP.all_of_reach (h P hP hs) hs))

/-- From a session, the computation makes changes on the way and, if it succeeds, may store
something. -/
def Ends (p : String → Prop) (x : SessionM Unit) (store : Session → Session → Prop) (s : Session) :
    Prop :=
  ∃ u, Reach p s u ∧ Leads s u ∧
    ((x.run s).2 = u ∨ (x.run s).1 = .ok () ∧ store u (x.run s).2)

section Equation

variable {p : String → Prop} {store : Session → Session → Prop} {s : Session}

namespace Ends

theorem stay {x : SessionM Unit} (h : (x.run s).2 = s) : Ends p x store s :=
  ⟨s, .refl, .refl s, .inl h⟩

theorem modify {g : Session → Session} (h : store s (g s)) : Ends p (modify g) store s :=
  ⟨s, .refl, .refl s, .inr ⟨rfl, h⟩⟩

theorem bind_lift {x : Except Error α} {f : α → SessionM Unit}
    (h : ∀ a, x = .ok a → Ends p (f a) store s) : Ends p (liftM x >>= f) store s := by
  unfold Ends
  rw [run_bind, run_lift]
  cases x with
  | error e => exact ⟨s, .refl, .refl s, .inl rfl⟩
  | ok a => exact h a rfl

theorem bind_get {f : Session → SessionM Unit} (h : Ends p (f s) store s) :
    Ends p (get >>= f) store s :=
  h

theorem bind (hp : ∀ symbol, Reserved symbol → p symbol) (hs : s.Within p) {x : SessionM α}
    {f : α → SessionM Unit} {mid mid' : α → Prop} (hx : Makes p (Auxiliary p) x mid)
    (hx' : ∀ {P}, Inherited P → Obeys P x mid')
    (hf : ∀ a t, Leads s t → t.Within p → mid a → mid' a → Ends p (f a) store t) :
    Ends p (x >>= f) store s := by
  obtain ⟨hreach, hresult⟩ := hx s hs
  have hleads : Leads s (x.run s).2 := fun P hP hall => (hx' hP s hall).1
  obtain ⟨-, hresult'⟩ := hx' inherited_true s fun _ _ _ => trivial
  unfold Ends
  rw [run_bind]
  rcases hrun : x.run s with ⟨r, t⟩
  rw [hrun] at hreach hresult hleads hresult'
  cases r with
  | error e => exact ⟨t, hreach, hleads, .inl rfl⟩
  | ok a =>
    have ht := (Rule.ofReserved hp).within_of_reach hreach hs
    obtain ⟨u, hmore, hmoreLeads, hend⟩ := hf a t hleads ht (hresult a rfl) hresult'
    exact ⟨u, hreach.trans hmore, hleads.trans hmoreLeads, hend⟩

end Ends

theorem symmetry_targetEntry (s : Session) (target : TensorRef) (free : List Occurrence) :
    (s.targetEntry target free).symmetry = .none ∨ ∃ old, s.table.get? target.name = some old ∧
      old.rank = (s.targetEntry target free).rank ∧
      (s.targetEntry target free).symmetry = old.symmetry := by
  unfold targetEntry
  dsimp only
  cases hexisting : (s.table.get? target.name).filter (·.rank == target.rank) with
  | none => exact .inl rfl
  | some old =>
    obtain ⟨hold, hrank⟩ := Option.filter_eq_some_iff.mp hexisting
    refine .inr ⟨old, hold, (beq_iff_eq.mp hrank).trans ?_, rfl⟩
    simp [Entry.rank, TensorRef.rank]

variable (hp : ∀ symbol, Reserved symbol → p symbol) (hs : s.Within p)
include hp hs

theorem defineTensor_ends (he : Mentions p e.value) :
    Ends p (defineTensor e.target e.value e.span) (Stores p e s) s := by
  refine .bind_lift fun _ _ => ?_
  refine .bind hp hs (expandAndResolve_makes hp _ he) (fun hP => expandAndResolve_obeys hP _ _)
    fun q u hleads hu hq hopen => ?_
  refine .bind_lift fun _ hfree => .bind_get (.bind_lift fun _ _ => ?_)
  unfold assignResolved
  dsimp only
  split
  · exact .stay rfl
  · split
    · exact .stay rfl
    · next hrank =>
      refine .bind hp hu (componentsOf_makes (Rule.ofReserved hp) _ _ hq) (fun hP =>
        componentsOf_obeys hP (not_not.mp hrank)
          (fun x hx => names_of_checkFree hfree (hopen.1 x hx)) hopen.2) fun value v _ _ hvalue _ => ?_
      refine .modify (.tensor rfl rfl rfl (ordered_targetEntry hu.wellFormed e.target q.2) hvalue ?_)
      exact (symmetry_targetEntry u e.target q.2).imp_right fun ⟨old, h⟩ => ⟨u, old, hleads, h⟩

theorem defineComponent_ends (hcomponent : e.IsComponent) (he : Mentions p e.value) :
    Ends p (defineComponent e.target e.value e.span) (Stores p e s) s := by
  refine .bind_get ?_
  split
  · next old hold =>
    dsimp only
    split
    · exact .stay rfl
    · refine .bind hp hs (expandAndResolve_makes hp _ he) (fun hP => expandAndResolve_obeys hP _ _)
        fun q u _ hu hq hopen => ?_
      refine .bind_lift fun _ hfree => ?_
      refine .bind hp hu (evaluate_makes (Rule.ofReserved hp) [] hq) (fun hP =>
        evaluate_obeys hP (fun x hx => ?_) hopen.2) fun x v _ _ hx _ => ?_
      · have hname := names_of_checkFree hfree (hopen.1 x hx)
        obtain ⟨i, hi, hname⟩ := mem_filterMap.mp hname
        have hnone := countP_eq_zero.mp hcomponent.1 i hi
        rw [hname] at hnone
        exact absurd rfl hnone
      · split
        · split
          · exact .stay rfl
          · exact .stay rfl
        · exact .modify (.component hcomponent hold hx)
  · exact .stay rfl

theorem define_ends (he : Mentions p e.value) : Ends p (define e) (Stores p e s) s := by
  unfold define
  dsimp only
  split
  · next h => exact defineComponent_ends hp hs h he
  · split
    · exact .stay rfl
    · exact defineTensor_ends hp hs he

end Equation

def withMetric (s : Session) (base : String) (height : Height) (dimension : Nat)
    (value : Tensor) : Session :=
  let det := value.inverse.2
  let u := s.insert (metricEntry base height dimension value .declared)
  let v := u.insert (metricEntry base height.flip dimension value.inverse.1 .computed)
  let w := v.insert (determinantEntry base dimension
    (if height = .lower then det else det.power (.integer (-1))))
  w.setMetric (Diacritic.split base).2 ⟨base, dimension, u.table.lastId⟩

def Step.equation? (step : Step) : Option Equation :=
  match step.action with
  | .define text | .equation text =>
    (Equation.parse step.document text step.start.table.isTensorBase).toOption
  | _ => none

def Step.declared? (step : Step) : Option String :=
  match step.action with
  | .declare _ item => (Declaration.parse item).toOption.map (·.name.text)
  | _ => none

def Step.evaluated? (step : Step) : Option String :=
  match step.action with
  | .evaluate item => some item.text
  | _ => none

/-- Two sessions that may differ in coordinates, default dimension and warnings. All coordinates
that are new are known. -/
structure SameTable (s t : Session) : Prop where
  table : t.table = s.table
  config : t.config = s.config
  metrics : t.metrics = s.metrics
  coordinates : ∀ name ∈ t.coordinates, name ∈ s.coordinates ∨ (s.table.get? name).isSome

theorem SameTable.refl (s : Session) : SameTable s s :=
  ⟨rfl, rfl, rfl, fun _ => .inl⟩

/-- What a step may leave. -/
inductive Effect (step : Step) : Session → Prop
  | changes {u t : Session} (h : Reach (fun _ => True) step.start u) (hleads : Leads step.start u)
    (hsame : SameTable u t) : Effect step t
  | equation {e : Equation} {u t : Session} (he : step.equation? = some e)
    (hok : step.outcome.1 = .ok ()) (h : Reach (fun _ => True) step.start u)
    (hleads : Leads step.start u) (hstores : Stores (fun _ => True) e step.start u t) : Effect step t
  /-- A tensor that is no metric. Its value is taken over from one that fits. -/
  | declaration {s : Session} {e : Entry} {kept : Option Tensor}
    (hsame : SameTable step.start s) (horigin : e.origin = .declared) (hsource : e.source = none)
    (hordered : e.symmetry.Ordered)
    (hfault : symmetryFault? e.name e.rank e.dimension e.symmetry = none)
    (hkept : ∀ t ∈ kept, ∃ old, step.start.table.get? e.name = some old ∧ old.rank = e.rank ∧
      (0 < e.rank → old.dimension = e.dimension) ∧ old.value = t)
    (hvalue : e.value = declaredValue e.name e.rank e.dimension e.symmetry s.config.naming kept) :
    Effect step (s.insert e)
  | metric {s : Session} {name base : String} {height : Height} {dimension : Nat} {value : Tensor}
    (hdeclared : step.declared? = some name) (hsame : SameTable step.start s)
    (hname : metricHeights? name = some (base, height))
    (hvalue : value = .symbolic name 2 dimension .metric s.config.naming ∨
      ∃ old, step.start.table.get? name = some old ∧ old.rank = 2 ∧ old.dimension = dimension ∧
        value = old.value) :
    Effect step (s.withMetric base height dimension value)
  | evaluation {name : String} {e : Entry} (hevaluated : step.evaluated? = some name)
    (h : step.start.table.get? name = some e) :
    Effect step { step.start with
      table := step.start.table.setValue name (step.start.substituteValues maxPasses e.value) }

section Step

variable {step : Step}

theorem Effect.nothing : Effect step step.start :=
  .changes .refl (.refl _) (.refl _)

theorem declareMetric_effect (hdeclared : step.declared? = some name)
    (hsame : SameTable step.start s) (dimension : Nat) (keep : Bool) (span : Span) :
    Effect step ((declareMetric name dimension keep span).run s).2 := by
  unfold declareMetric
  split
  · next base height hname =>
    rw [run_bind, run_get]
    refine (Effect.metric hdeclared hsame hname ?_ :
      Effect step (s.withMetric base height dimension _))
    cases hkept : (s.table.get? name).filter fun e =>
        keep && e.rank == 2 && e.dimension == dimension with
    | none => exact .inl rfl
    | some old =>
      obtain ⟨hold, hfits⟩ := Option.filter_eq_some_iff.mp hkept
      simp only [Bool.and_eq_true, beq_iff_eq] at hfits
      exact .inr ⟨old, hsame.table ▸ hold, hfits.1.2, hfits.2, rfl⟩
  · exact .changes .refl (.refl _) hsame

theorem declare_effect {again : Bool} {item : Segment}
    (haction : step.action = .declare again item) :
    Effect step ((declare again item).run step.start).2 := by
  unfold declare
  rw [run_bind, run_lift]
  cases hparse : Declaration.parse item with
  | error fault => exact .nothing
  | ok d =>
    have hdeclared : step.declared? = some d.name.text := by
      rw [Step.declared?, haction]
      dsimp only
      rw [hparse]
      rfl
    dsimp only
    rw [run_bind, run_lift]
    cases hsymmetry : Declaration.symmetry none d.modifiers with
    | error fault => exact .nothing
    | ok symmetry =>
      have hordered : symmetry.Ordered := ordered_of_symmetry (fun _ h => by cases h) hsymmetry
      dsimp only
      rw [run_bind, run_get]
      dsimp only
      split
      · exact .nothing
      · next hfault =>
        have hfault := (Option.or_eq_none_iff.mp (Option.eq_none_iff_forall_ne_some.mpr hfault)).1
        -- the warning comes before the declaration and leaves the table alone
        have hrest (s : Session) (hsame : SameTable step.start s) (dimension : Nat)
            (hfault : symmetryFault? d.name.text (splitHeights d.name.text).2.length dimension
              symmetry = none) :
            Effect step ((if symmetry = .metric then
                declareMetric d.name.text dimension again d.name.span
              else modify (·.insert
                { name := d.name.text, base := (splitHeights d.name.text).1
                  heights := (splitHeights d.name.text).2, dimension, symmetry
                  value := declaredValue d.name.text (splitHeights d.name.text).2.length dimension
                    symmetry step.start.config.naming
                    (((step.start.table.get? d.name.text).filter fun e =>
                      again && e.rank == (splitHeights d.name.text).2.length &&
                        ((splitHeights d.name.text).2.length == 0 || e.dimension == dimension)).map
                      (·.value))
                  origin := .declared }) : SessionM Unit).run s).2 := by
          rw [run_ite]
          split
          · exact declareMetric_effect hdeclared hsame _ _ _
          · refine .declaration hsame rfl rfl hordered hfault (fun t ht => ?_)
              (by rw [hsame.config]; rfl)
            obtain ⟨old, hfitting, rfl⟩ := Option.map_eq_some_iff.mp ht
            obtain ⟨hold, hfits⟩ := Option.filter_eq_some_iff.mp hfitting
            simp only [Bool.and_eq_true, Bool.or_eq_true, beq_iff_eq] at hfits
            exact ⟨old, hold, hfits.1.2, fun hpos => hfits.2.resolve_left hpos.ne', rfl⟩
        rw [run_ite]
        split
        · rw [run_bind, run_modify]
          refine hrest _ ?_ _ hfault
          unfold warn
          split <;> exact ⟨rfl, rfl, rfl, fun _ => .inl⟩
        · exact hrest _ (.refl _) _ hfault

theorem evaluateName_effect {item : Segment} (haction : step.action = .evaluate item) :
    Effect step ((evaluateName item).run step.start).2 := by
  unfold evaluateName
  rw [run_bind, run_get]
  dsimp only
  split
  · next e he => exact .evaluation (by rw [Step.evaluated?, haction]) he
  · exact .nothing

theorem isSome_insert (e : Entry) (h : e.name = name ∨ (s.table.get? name).isSome) :
    ((s.insert e).table.get? name).isSome := by
  rw [Session.insert, Table.get?_insert]
  split
  · rfl
  · exact h.resolve_left ‹_›

theorem isSome_of_reach {p : String → Prop} {t : Session} (h : Reach p s t)
    (hname : (s.table.get? name).isSome) : (t.table.get? name).isSome := by
  induction h with
  | refl => exact hname
  | tail _ h ih => cases h <;> exact isSome_insert _ (.inr ih)

theorem reach_setCoordinates (s : Session) (names : List String) :
    ∃ u, Reach (fun _ => True) s u ∧ Leads s u ∧ (∀ name ∈ names, (u.table.get? name).isSome) ∧
      s.setCoordinates names = { u with coordinates := names } := by
  suffices h : ∃ u, Reach (fun _ => True) s u ∧ Leads s u ∧
      (∀ name ∈ names, (u.table.get? name).isSome) ∧ names.foldl (fun s name =>
        if s.table.contains name then s else s.registerScalar name) s = u by
    obtain ⟨u, hreach, hleads, hnames, rfl⟩ := h
    exact ⟨_, hreach, hleads, hnames, rfl⟩
  induction names generalizing s with
  | nil => exact ⟨s, .refl, .refl s, forall_mem_nil _, rfl⟩
  | cons name names ih =>
    rw [foldl_cons]
    split
    · next hknown =>
      obtain ⟨u, hreach, hleads, hnames, heq⟩ := ih s
      exact ⟨u, hreach, hleads,
        forall_mem_cons.mpr ⟨isSome_of_reach hreach hknown, hnames⟩, heq⟩
    · next hnew =>
      have hnone : s.table.get? name = none := by simpa [Table.contains] using hnew
      obtain ⟨u, hreach, hleads, hnames, heq⟩ := ih (s.registerScalar name)
      have hknown := isSome_of_reach hreach (isSome_insert (.freeScalar name _) (.inl rfl))
      have hscalar : Leads s (s.registerScalar name) := fun _ _ _ => .single (.scalar s name)
      exact ⟨u, .trans (.single (.scalar trivial (.inl hnone))) hreach, hscalar.trans hleads,
        forall_mem_cons.mpr ⟨hknown, hnames⟩, heq⟩

theorem declareCoordinates_effect (names : Segment) :
    Effect step ((declareCoordinates names).run step.start).2 := by
  unfold declareCoordinates
  dsimp only
  rw [run_ite]
  split
  · exact .nothing
  · split
    · exact .nothing
    · obtain ⟨u, hreach, hleads, hnames, hset⟩ := reach_setCoordinates step.start
        ((coordinateNames names).map String.ofList)
      rw [run_modify, hset]
      exact .changes hreach hleads ⟨rfl, rfl, rfl, fun name hname => .inr (hnames name hname)⟩

theorem declareDimension_effect (number : Segment) :
    Effect step ((declareDimension number).run step.start).2 := by
  unfold declareDimension
  split
  · exact .changes .refl (.refl _) ⟨rfl, rfl, rfl, fun _ => .inl⟩
  · exact .nothing

theorem valueOf_ends (document : List Char) (hs : s.Within fun _ => True) :
    Ends (fun _ => True) (do discard (valueOf document)) (fun _ _ => False) s := by
  have hp : ∀ symbol, Reserved symbol → True := fun _ _ => trivial
  change Ends _ (valueOf document >>= fun _ => pure ()) _ s
  unfold valueOf
  rw [bind_assoc]
  refine .bind_get ?_
  rw [bind_assoc]
  refine .bind_lift fun f _ => ?_
  rw [bind_assoc]
  refine .bind hp hs (expandAndResolve_makes hp [] fun _ _ => trivial)
    (fun hP => expandAndResolve_obeys hP _ _) fun q t _ ht hq hopen => ?_
  dsimp only
  split
  · exact .stay rfl
  · next hfree =>
    refine .bind hp ht (evaluate_makes (Rule.ofReserved hp) [] hq)
      (fun hP => evaluate_obeys hP (fun x hx => ?_) hopen.2) fun _ _ _ _ _ _ => .stay rfl
    have hx := hopen.1 x hx
    rw [show q.2 = [] by simpa using hfree] at hx
    cases hx

theorem define_effect (he : step.equation? = some e) (hs : step.start.Within fun _ => True)
    (h : step.outcome = (define e).run step.start) : Effect step ((define e).run step.start).2 := by
  have hp : ∀ symbol, Reserved symbol → True := fun _ _ => trivial
  obtain ⟨u, hreach, hleads, hend⟩ := define_ends hp hs (e := e) fun _ _ => trivial
  rcases hend with hend | ⟨hok, hstores⟩
  · rw [hend]
    exact .changes hreach hleads (.refl u)
  · exact .equation he (by rw [h]; exact hok) hreach hleads hstores

theorem defineText_effect {text : Segment}
    (haction : step.action = .define text ∨ step.action = .equation text)
    (hs : step.start.Within fun _ => True)
    (h : step.outcome = (defineText step.document text).run step.start) :
    Effect step ((defineText step.document text).run step.start).2 := by
  unfold defineText at h ⊢
  rw [run_bind, run_get] at h ⊢
  dsimp only at h ⊢
  rw [run_bind, run_lift] at h ⊢
  have hequation : step.equation? =
      (Equation.parse step.document text step.start.table.isTensorBase).toOption := by
    unfold Step.equation?
    rcases haction with haction | haction <;> rw [haction]
  cases hparse : Equation.parse step.document text step.start.table.isTensorBase with
  | error fault => exact .nothing
  | ok e =>
    rw [hparse] at h hequation
    exact define_effect hequation hs h

theorem Step.effect (step : Step) (hs : step.start.Within fun _ => True) :
    Effect step step.finish := by
  unfold Step.finish
  cases haction : step.action with
  | declare again item =>
    rw [Step.outcome, haction]
    exact declare_effect haction
  | evaluate item =>
    rw [Step.outcome, haction]
    exact evaluateName_effect haction
  | coordinates names =>
    rw [Step.outcome, haction]
    exact declareCoordinates_effect names
  | dimension number =>
    rw [Step.outcome, haction]
    exact declareDimension_effect number
  | define text =>
    have houtcome : step.outcome = (defineText step.document text).run step.start := by
      rw [Step.outcome, haction]
      rfl
    rw [houtcome]
    exact defineText_effect (.inl haction) hs houtcome
  | equation text =>
    have houtcome : step.outcome = (runEquation step.document text).run step.start := by
      rw [Step.outcome, haction]
      rfl
    rw [houtcome]
    unfold runEquation at houtcome ⊢
    rw [run_bind, run_lift] at houtcome ⊢
    cases htokens : Token.scan text with
    | error fault => exact .nothing
    | ok tokens =>
      rw [htokens] at houtcome
      dsimp only at houtcome ⊢
      rw [run_ite] at houtcome ⊢
      split
      · next hempty =>
        rw [if_pos hempty] at houtcome
        exact defineText_effect (.inr haction) hs houtcome
      · exact .nothing
  | value =>
    rw [Step.outcome, haction]
    obtain ⟨u, hreach, hleads, hend | ⟨-, hfalse⟩⟩ := valueOf_ends step.document hs
    · exact .changes hreach hleads (hend ▸ .refl _)
    · exact hfalse.elim

end Step

end Session

end TensorCalculus
