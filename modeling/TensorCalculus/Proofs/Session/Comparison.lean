import Mathlib.Logic.Relation
import TensorCalculus.Proofs.Formula.Places
import TensorCalculus.Proofs.Scalar.Hereditary
import TensorCalculus.Session.Document

/-! Two runs of a computation in a session, side by side. Compared with itself, a run shows what it
may do to the session; compared with a run elsewhere, it shows what it does not depend on. A
comparison passes through sequences and loops, and from the symbols and tensors of a formula to its
value. -/
namespace TensorCalculus

open List

namespace Formula

mutual

def parts : Formula → List Formula
  | num q => [num q]
  | sym s => [sym s]
  | tensor t => [tensor t]
  | derivative kind i operand dimension span =>
    derivative kind i operand dimension span :: operand.parts
  | sum ts => sum ts :: partLists ts
  | product fs => product fs :: partLists fs
  | power b e => power b e :: (b.parts ++ e.parts)
  | fn f a => fn f a :: a.parts
  | contraction index dimension body => contraction index dimension body :: body.parts

def partLists : List Formula → List Formula
  | [] => []
  | f :: fs => f.parts ++ partLists fs

end

end Formula

namespace Session

theorem run_bind (x : SessionM α) (f : α → SessionM β) (s : Session) :
    (x >>= f).run s = match x.run s with
      | (.ok a, t) => (f a).run t
      | (.error e, t) => (.error e, t) := by
  change (match x.run s with
    | (r, t) => (ExceptT.bindCont f r : StateM Session (Except Error β)) t) = _
  rcases x.run s with ⟨r, t⟩
  cases r with
  | ok a => rfl
  | error e => rfl

theorem run_pure (a : α) (s : Session) : (pure a : SessionM α).run s = (.ok a, s) := rfl

theorem run_throw (e : Error) (s : Session) : (throw e : SessionM α).run s = (.error e, s) := rfl

theorem run_get (s : Session) : (get : SessionM Session).run s = (.ok s, s) := rfl

theorem run_modify (g : Session → Session) (s : Session) :
    (modify g : SessionM Unit).run s = (.ok (), g s) := rfl

theorem run_ite (c : Prop) [Decidable c] (x y : SessionM α) (s : Session) :
    (if c then x else y).run s = if c then x.run s else y.run s := by
  split <;> rfl

theorem run_lift (x : Except Error α) (s : Session) : (liftM x : SessionM α).run s = (x, s) := by
  cases x <;> rfl

theorem run_bind_eq_ok {x : SessionM α} {f : α → SessionM β} {s t : Session} {b : β}
    (h : (x >>= f).run s = (.ok b, t)) :
    ∃ a u, x.run s = (.ok a, u) ∧ (f a).run u = (.ok b, t) := by
  rw [run_bind] at h
  rcases hrun : x.run s with ⟨r, u⟩
  rw [hrun] at h
  cases r with
  | error e => cases h
  | ok a => exact ⟨a, u, rfl, h⟩

theorem run_lift_bind_eq_ok {x : Except Error α} {f : α → SessionM β} {s t : Session} {b : β}
    (h : ((liftM x : SessionM α) >>= f).run s = (.ok b, t)) :
    ∃ a, x = .ok a ∧ (f a).run s = (.ok b, t) := by
  obtain ⟨a, u, hx, hf⟩ := run_bind_eq_ok h
  rw [run_lift] at hx
  cases hx
  exact ⟨a, rfl, hf⟩

/-- What two runs have in common: the sessions where they may start and those that they may lead to,
the places of their faults, and the faults themselves. -/
structure Comparison where
  Start : Session × Session → Prop
  Leads : Session × Session → Session × Session → Prop
  Place : Span → Span → Prop
  Fault : Error → Prop
  refl : ∀ {w}, Start w → Leads w w
  trans : ∀ {u v w}, Leads u v → Leads v w → Leads u w
  kept : ∀ {w v}, Start w → Leads w v → Start v

def Same (P : Session → α → Prop) (s : Session) (a b : α) : Prop :=
  b = a ∧ P s a

namespace Comparison

/-- Both results are values as required, or the same fault. -/
inductive Outcome (F : Comparison) (Q : α → β → Prop) : Except Error α → Except Error β → Prop
  | ok {a : α} {b : β} (h : Q a b) : Outcome F Q (.ok a) (.ok b)
  | error {e : Error} {span : Span} (hplace : F.Place e.span span) (hfault : F.Fault e) :
      Outcome F Q (.error e) (.error { e with span })

/-- Two computations that compare, from `w` on. The results have `Q` in the first session. -/
def Holds (F : Comparison) (w : Session × Session) (Q : Session → α → β → Prop) (x : SessionM α)
    (x' : SessionM β) : Prop :=
  F.Start w → F.Leads w ((x.run w.1).2, (x'.run w.2).2) ∧
    F.Outcome (Q (x.run w.1).2) (x.run w.1).1 (x'.run w.2).1

variable {F : Comparison} {w : Session × Session}

namespace Outcome

variable {Q : α → β → Prop} {P : γ → δ → Prop} {x : Except Error α} {x' : Except Error β}

theorem bind {f : α → Except Error γ} {f' : β → Except Error δ} (hx : F.Outcome Q x x')
    (hf : ∀ a b, Q a b → F.Outcome P (f a) (f' b)) : F.Outcome P (x >>= f) (x' >>= f') := by
  cases hx with
  | ok h => exact hf _ _ h
  | error hplace hfault => exact .error hplace hfault

theorem forM {R : γ → δ → Prop} {xs : List γ} {xs' : List δ} (h : Forall₂ R xs xs')
    {f : γ → Except Error PUnit} {f' : δ → Except Error PUnit}
    (hf : ∀ a b, R a b → F.Outcome (fun _ _ => True) (f a) (f' b)) :
    F.Outcome (fun _ _ => True) (xs.forM f) (xs'.forM f') := by
  induction h with
  | nil => exact .ok trivial
  | cons hx _ ih => exact (hf _ _ hx).bind fun _ _ _ => ih

theorem same (hfault : ∀ e, F.Fault e → e.fragment = none) (h : F.Outcome Q x x') :
    SameOutcome F.Place Q x x' := by
  cases h with
  | ok h => exact .ok h
  | @error e span hplace he =>
    obtain ⟨cause, a, fragment⟩ := e
    cases hfault _ he
    exact .error cause hplace

theorem self {Q : α → α → Prop} {x x' : Except Error α} (h : F.Outcome Q x x') (hx : x' = x) :
    (∀ a, x = .ok a → Q a a) ∧ ∀ e, x = .error e → F.Fault e := by
  cases h with
  | ok h =>
    cases hx
    exact ⟨by rintro a ⟨⟩; exact h, nofun⟩
  | error _ hfault => exact ⟨nofun, by rintro e ⟨⟩; exact hfault⟩

end Outcome

namespace Holds

variable {Q : Session → α → β → Prop} {P : Session → γ → δ → Prop} {x : SessionM α} {x' : SessionM β}

theorem of_start (h : F.Start w → F.Holds w Q x x') : F.Holds w Q x x' :=
  fun hw => h hw hw

theorem pure {a : α} {b : β} (h : Q w.1 a b) : F.Holds w Q (Pure.pure a) (Pure.pure b) :=
  fun hw => ⟨F.refl hw, .ok h⟩

theorem bind {f : α → SessionM γ} {f' : β → SessionM δ} (hx : F.Holds w Q x x')
    (hf : ∀ v a b, F.Leads w v → Q v.1 a b → F.Holds v P (f a) (f' b)) :
    F.Holds w P (x >>= f) (x' >>= f') := by
  intro hw
  obtain ⟨hleads, hresult⟩ := hx hw
  rw [run_bind, run_bind]
  generalize x.run w.1 = r at hleads hresult
  generalize x'.run w.2 = r' at hleads hresult
  obtain ⟨r, t⟩ := r
  obtain ⟨r', t'⟩ := r'
  cases hresult with
  | ok h =>
    obtain ⟨hmore, hresult⟩ := hf (t, t') _ _ hleads h (F.kept hw hleads)
    exact ⟨F.trans hleads hmore, hresult⟩
  | error hplace hfault => exact ⟨hleads, .error hplace hfault⟩

theorem bindSame {x x' : SessionM α} {R : Session → α → Prop} {f : α → SessionM γ}
    {f' : α → SessionM δ} (hx : F.Holds w (Same R) x x')
    (hf : ∀ v a, F.Leads w v → R v.1 a → F.Holds v P (f a) (f' a)) :
    F.Holds w P (x >>= f) (x' >>= f') := by
  refine hx.bind ?_
  rintro v _ a hv ⟨rfl, ha⟩
  exact hf v a hv ha

theorem mono {Q' : Session → α → β → Prop} (hx : F.Holds w Q x x')
    (h : ∀ s a b, Q s a b → Q' s a b) : F.Holds w Q' x x' := by
  intro hw
  obtain ⟨hleads, hresult⟩ := hx hw
  refine ⟨hleads, ?_⟩
  generalize (x.run w.1).1 = r at hresult
  generalize (x'.run w.2).1 = r' at hresult
  cases hresult with
  | ok hq => exact .ok (h _ _ _ hq)
  | error hplace hfault => exact .error hplace hfault

section

variable {cause : Cause} {a b : Span} (hplace : F.Place a b) (hfault : F.Fault { cause, span := a })
include hplace hfault

theorem throw :
    F.Holds w Q (MonadExcept.throw { cause, span := a }) (MonadExcept.throw { cause, span := b }) :=
  fun hw => ⟨F.refl hw, .error hplace hfault⟩

theorem throw_bind {f : α → SessionM γ} {f' : β → SessionM δ} :
    F.Holds w P (MonadExcept.throw { cause, span := a } >>= f)
      (MonadExcept.throw { cause, span := b } >>= f') :=
  fun hw => ⟨F.refl hw, .error hplace hfault⟩

end

theorem lift {x : Except Error α} {x' : Except Error β} (h : F.Outcome (Q w.1) x x') :
    F.Holds w Q (liftM x) (liftM x') := by
  intro hw
  rw [run_lift, run_lift]
  exact ⟨F.refl hw, h⟩

theorem get {f : Session → SessionM γ} {f' : Session → SessionM δ}
    (h : F.Holds w P (f w.1) (f' w.2)) : F.Holds w P (get >>= f) (get >>= f') := by
  intro hw
  rw [run_bind, run_bind]
  exact h hw

theorem modify {g g' : Session → Session} (h : F.Start w → F.Leads w (g w.1, g' w.2)) :
    F.Holds w (fun _ _ _ => True) (modify g) (modify g') :=
  fun hw => ⟨h hw, .ok trivial⟩

theorem mapM {R : Session → β → Prop} (hR : ∀ {v u b}, F.Leads v u → R v.1 b → R u.1 b)
    {f f' : α → SessionM β} {xs : List α}
    (h : ∀ x ∈ xs, ∀ v, F.Leads w v → F.Holds v (Same R) (f x) (f' x)) :
    F.Holds w (Same fun s bs => ∀ b ∈ bs, R s b) (xs.mapM f) (xs.mapM f') := by
  induction xs generalizing w with
  | nil => exact .pure ⟨rfl, by simp⟩
  | cons x xs ih =>
    rw [forall_mem_cons] at h
    rw [mapM_cons, mapM_cons]
    refine (of_start fun hw => h.1 w (F.refl hw)).bindSame fun v b hv hb => ?_
    refine (ih fun x hx u hu => h.2 x hx u (F.trans hv hu)).bindSame fun u bs hu hbs => ?_
    exact .pure ⟨rfl, forall_mem_cons.mpr ⟨hR hu hb, hbs⟩⟩

theorem foldlM {I : Session → β → Prop} {f f' : β → α → SessionM β} {xs : List α}
    (h : ∀ x ∈ xs, ∀ v b, I v.1 b → F.Holds v (Same I) (f b x) (f' b x)) {b : β} (hb : I w.1 b) :
    F.Holds w (Same I) (xs.foldlM f b) (xs.foldlM f' b) := by
  induction xs generalizing w b with
  | nil => exact .pure ⟨rfl, hb⟩
  | cons x xs ih =>
    rw [forall_mem_cons] at h
    rw [foldlM_cons, foldlM_cons]
    exact (h.1 w b hb).bindSame fun v c _ hc => ih h.2 hc

end Holds

section Alone

open Relation

variable {P : Session → Prop} {Step : Session → Session → Prop} {Fault : Error → Prop}
  {kept : ∀ {s t}, Step s t → P s → P t}

def alone (P : Session → Prop) (Step : Session → Session → Prop) (Fault : Error → Prop)
    (kept : ∀ {s t}, Step s t → P s → P t) : Comparison where
  Start w := w.2 = w.1 ∧ P w.1
  Leads w v := v.2 = v.1 ∧ ReflTransGen Step w.1 v.1
  Place := Eq
  Fault := Fault
  refl h := ⟨h.1, .refl⟩
  trans h h' := ⟨h'.1, h.2.trans h'.2⟩
  kept {w v} hw h := ⟨h.1, by
    have hreach := h.2
    generalize v.1 = t at hreach ⊢
    induction hreach with
    | refl => exact hw.2
    | tail _ hstep ih => exact kept hstep ih⟩

theorem Holds.alone {Q : Session → α → α → Prop} {x : SessionM α} {s : Session}
    (h : (alone P Step Fault kept).Holds (s, s) Q x x) (hs : P s) :
    ReflTransGen Step s (x.run s).2 ∧ (∀ a, (x.run s).1 = .ok a → Q (x.run s).2 a a) ∧
      ∀ e, (x.run s).1 = .error e → Fault e := by
  obtain ⟨⟨_, hreach⟩, hresult⟩ := h ⟨rfl, hs⟩
  exact ⟨hreach, hresult.self rfl⟩

end Alone

section Values

variable {P : Session → Expr → Prop}

/-- A property of values that simplification keeps, and that is not lost later on. -/
structure Stable (F : Comparison) (P : Session → Expr → Prop) : Prop where
  structural : ∀ s, Expr.Structural (P s)
  lasting : ∀ {w v e}, F.Leads w v → P w.1 e → P v.1 e

namespace Stable

variable (hP : F.Stable P)
include hP

section

variable {rule rule' : String → SessionM Expr}

theorem derivativesM {es : List Expr}
    (h : ∀ e ∈ es, ∀ w, P w.1 e → F.Holds w (Same P) (e.derivativeM rule) (e.derivativeM rule'))
    (hes : ∀ e ∈ es, P w.1 e) : F.Holds w (Same fun s ds => ∀ d ∈ ds, P s d)
      (Expr.derivativesM rule es) (Expr.derivativesM rule' es) := by
  induction es generalizing w with
  | nil => exact .pure ⟨rfl, by simp⟩
  | cons e es ih =>
    rw [forall_mem_cons] at h hes
    refine (h.1 w hes.1).bindSame fun v d hv hd => ?_
    refine (ih h.2 fun e he => hP.lasting hv (hes.2 e he)).bindSame fun u ds hu hds => ?_
    exact .pure ⟨rfl, forall_mem_cons.mpr ⟨hP.lasting hu hd, hds⟩⟩

theorem derivativeM
    (hrule : ∀ symbol w, P w.1 (.sym symbol) → F.Holds w (Same P) (rule symbol) (rule' symbol))
    {e : Expr} (he : P w.1 e) : F.Holds w (Same P) (e.derivativeM rule) (e.derivativeM rule') := by
  induction e using Expr.induction generalizing w with
  | num q => exact .pure ⟨rfl, (hP.structural _).num 0⟩
  | sym symbol => exact hrule symbol w he
  | fn f a ih =>
    have ha := ((hP.structural _).fn f a).mp he
    refine (ih ha).bindSame fun v d hv hd => .pure ⟨rfl, ?_⟩
    have houter := (hP.structural v.1).outerDerivative f (hP.lasting hv ha)
    split
    · exact (hP.structural _).num 0
    · exact (hP.structural _).product (by simpa using ⟨houter, hd⟩)
  | pow b e hb hexp =>
    obtain ⟨hbase, hexponent⟩ := ((hP.structural _).pow b e).mp he
    refine (hb hbase).bindSame fun v d hv hd => ?_
    refine (hexp (hP.lasting hv hexponent)).bindSame fun u d' hu hd' => .pure ⟨rfl, ?_⟩
    have hvu := F.trans hv hu
    exact (hP.structural _).powerRule (hP.lasting hvu hbase) (hP.lasting hvu hexponent)
      (hP.lasting hu hd) hd'
  | mul fs ih =>
    have hfs := ((hP.structural _).mul fs).mp he
    refine (hP.derivativesM ih hfs).bindSame fun v ds hv hds => .pure ⟨rfl, ?_⟩
    exact (hP.structural _).sum ((hP.structural _).productRule (by simp)
      (fun f hf => hP.lasting hv (hfs f hf)) hds)
  | add ts ih =>
    have hts := ((hP.structural _).add ts).mp he
    exact (hP.derivativesM ih hts).bindSame fun v ds _ hds =>
      .pure ⟨rfl, (hP.structural _).sum hds⟩

end

end Stable

/-- The scalars, components and derivatives of formulas with `G` have values with `P`. -/
structure Reads (F : Comparison) (P : Session → Expr → Prop) (G : Session → Formula → Prop) :
    Prop extends F.Stable P where
  fault : ∀ {cause span}, F.Fault { cause, span }
  kept : ∀ {w v f}, F.Leads w v → G w.1 f → G v.1 f
  scalar : ∀ {w name}, G w.1 (.sym name) →
    F.Holds w (Same P) (reading.scalar name) (reading.scalar name)
  component : ∀ {w t index a b}, G w.1 (.tensor t) → index.length = t.rank → F.Place a b →
    F.Holds w (Same P) (reading.component t.head index a) (reading.component t.head index b)
  differentiate : ∀ {w kind i f dimension span e a b} (k : Nat),
    G w.1 (.derivative kind i f dimension span) → P w.1 e → F.Place a b →
    F.Holds w (Same P) (reading.differentiate e k dimension a)
      (reading.differentiate e k dimension b)

section Index

variable (hfault : ∀ {cause span}, F.Fault { cause, span }) {a b : Span} (hplace : F.Place a b)
include hfault hplace

theorem indexValue_outcome (ρ : Assignment) (i : Index) :
    F.Outcome (fun n n' => n' = n) (ρ.indexValue a i) (ρ.indexValue b i) := by
  rw [Assignment.indexValue, Assignment.indexValue]
  split
  · exact .ok rfl
  · split
    · exact .ok rfl
    · exact .error hplace hfault

theorem indexValues_outcome (ρ : Assignment) (indices : List Index) :
    F.Outcome (fun v v' => v' = v ∧ v.length = indices.length) (ρ.indexValues a indices)
      (ρ.indexValues b indices) := by
  rw [Assignment.indexValues, Assignment.indexValues]
  induction indices with
  | nil => exact .ok ⟨rfl, rfl⟩
  | cons i indices ih =>
    rw [mapM_cons, mapM_cons]
    refine (indexValue_outcome hfault hplace ρ i).bind ?_
    rintro _ n rfl
    refine ih.bind ?_
    rintro _ ns ⟨rfl, hlength⟩
    exact .ok ⟨rfl, congrArg Nat.succ hlength⟩

end Index

theorem Reads.evaluate {G : Session → Formula → Prop} (hG : F.Reads P G) {f f' : Formula}
    (h : Formula.Matches F.Place f f') (ρ : Assignment) (hf : ∀ g ∈ f.parts, G w.1 g) :
    F.Holds w (Same P) (evaluate ρ f) (evaluate ρ f') := by
  have hlists {fs fs' : List Formula} (h : Forall₂ (fun f f' => ∀ ρ w, (∀ g ∈ f.parts, G w.1 g) →
      F.Holds w (Same P) (f.evaluate reading ρ) (f'.evaluate reading ρ)) fs fs') (ρ : Assignment)
      (w : Session × Session) (hfs : ∀ g ∈ Formula.partLists fs, G w.1 g) :
      F.Holds w (Same fun s es => ∀ e ∈ es, P s e) (Formula.evaluateAll reading ρ fs)
        (Formula.evaluateAll reading ρ fs') := by
    induction h generalizing w with
    | nil => exact .pure ⟨rfl, by simp⟩
    | cons hf _ ih =>
      rw [Formula.partLists, forall_mem_append] at hfs
      refine (hf ρ w hfs.1).bindSame fun v e hv he => ?_
      refine (ih v fun g hg => hG.kept hv (hfs.2 g hg)).bindSame fun u es hu hes => ?_
      exact .pure ⟨rfl, forall_mem_cons.mpr ⟨hG.lasting hu he, hes⟩⟩
  suffices ∀ ρ w, (∀ g ∈ f.parts, G w.1 g) →
      F.Holds w (Same P) (f.evaluate reading ρ) (f'.evaluate reading ρ) from this ρ w hf
  clear hf
  refine Formula.matches_induction ?num ?sym ?tensor ?derivative ?sum ?product ?power ?fn
    ?contraction h
  case num =>
    intro q ρ w _
    exact .pure ⟨rfl, (hG.structural _).num q⟩
  case sym =>
    intro name ρ w hf
    exact hG.scalar (hf _ (mem_singleton_self _))
  case tensor =>
    intro t span hspan ρ w hf
    refine (Holds.lift (Q := fun _ v v' => v' = v ∧ v.length = t.indices.length)
      (indexValues_outcome hG.fault hspan ρ t.indices)).bind ?_
    rintro v _ index hv ⟨rfl, hlength⟩
    exact hG.component (hG.kept hv (hf _ (mem_singleton_self _))) hlength hspan
  case derivative =>
    intro kind i f f' dimension span span' ih hspan ρ w hf
    rw [Formula.parts, forall_mem_cons] at hf
    rw [Formula.evaluate, Formula.evaluate, Reading.derivativeAt, Reading.derivativeAt]
    split
    · exact (Holds.lift (Q := fun _ _ _ => False) (.error hspan hG.fault)).bind
        fun _ _ _ _ h => h.elim
    · refine (Holds.lift (Q := fun _ n n' => n' = n) (indexValue_outcome hG.fault hspan ρ i)).bind ?_
      rintro v _ k hv rfl
      refine (ih ρ v fun g hg => hG.kept hv (hf.2 g hg)).bindSame fun u e hu he => ?_
      exact hG.differentiate k (hG.kept hu (hG.kept hv hf.1)) he hspan
  case sum =>
    intro ts ts' ih ρ w hf
    exact (hlists ih ρ w (forall_mem_cons.mp hf).2).bindSame fun v es _ hes =>
      .pure ⟨rfl, (hG.structural _).sum hes⟩
  case product =>
    intro fs fs' ih ρ w hf
    exact (hlists ih ρ w (forall_mem_cons.mp hf).2).bindSame fun v es _ hes =>
      .pure ⟨rfl, (hG.structural _).product hes⟩
  case power =>
    intro b b' e e' ihb ihe ρ w hf
    rw [Formula.parts, forall_mem_cons, forall_mem_append] at hf
    refine (ihb ρ w hf.2.1).bindSame fun v x hv hx => ?_
    refine (ihe ρ v fun g hg => hG.kept hv (hf.2.2 g hg)).bindSame fun u y hu hy => ?_
    exact .pure ⟨rfl, (hG.structural _).power (hG.lasting hu hx) hy⟩
  case fn =>
    intro g a a' ih ρ w hf
    exact (ih ρ w (forall_mem_cons.mp hf).2).bindSame fun v x _ hx =>
      .pure ⟨rfl, (hG.structural _).apply g hx⟩
  case contraction =>
    intro index dimension f f' _ ih ρ w hf
    have hbody := (forall_mem_cons.mp hf).2
    refine (Holds.mapM hG.lasting fun n _ v hv => ih ((index, n) :: ρ) v fun g hg =>
      hG.kept hv (hbody g hg)).bindSame fun v es _ hes => ?_
    exact .pure ⟨rfl, (hG.structural _).sum hes⟩

end Values

end Comparison

end Session

end TensorCalculus
