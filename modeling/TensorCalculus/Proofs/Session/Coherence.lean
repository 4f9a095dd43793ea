import TensorCalculus.Proofs.Session.Comparison
import TensorCalculus.Proofs.Table.WellFormed

/-! Sessions in which no name and no symbol stands for two things. What evaluation declares
on the way is then new, and it changes nothing that was known before. -/
namespace TensorCalculus

open Option

namespace Session

theorem run_ownedDerivative (owner : Entry) (index : IndexVector) (k dimension : Nat) (span : Span)
    (s : Session) : let n := derivativeRange owner dimension
    let e := derivativeEntry owner n s.config.naming
    (ownedDerivative owner index k dimension span).run s =
      if n ≤ k then (.error { cause := .dimensions owner.name n dimension, span }, s)
      else
        match (s.table.get? (derivativeName owner)).filter (·.dimension == n) with
        | some known => (.ok (known.value.get (index ++ [k])), s)
        | none =>
          if (Layout.componentCount? (owner.rank + 1) n).isNone then
            (.error { cause := .indexing (.largeDerivative (derivativeName owner)), span }, s)
          else (.ok (e.value.get (index ++ [k])), s.insert e) := by
  intro n e
  have hget : (s.insert e).table.get? (derivativeName owner)
      = some { e with id := s.table.lastId + 1 } := by
    rw [insert, Table.get?_insert]
    exact if_pos rfl
  unfold ownedDerivative
  simp only [run_ite, run_bind, run_throw, run_get, run_modify]
  split
  · rfl
  cases hknown : s.table.get? (derivativeName owner) with
  | none =>
    simp only [filter_none, any_none, Bool.not_false, if_true]
    split
    · rfl
    · rw [hget]
      rfl
  | some known =>
    by_cases hn : known.dimension = n
    · simp only [filter_some, any_some, beq_iff_eq.mpr hn, Bool.not_true,
        Bool.false_eq_true, if_false, if_true, n]
      rfl
    · have hn' : ¬ known.dimension = derivativeRange owner dimension := hn
      simp only [filter_some, any_some, beq_false_of_ne hn', beq_false_of_ne hn,
        Bool.not_false, if_true]
      split
      · rfl
      · rw [hget]
        rfl

def withOwner (s : Session) (symbol : String) : Session :=
  if (s.table.owner? symbol).isNone then s.registerScalar symbol else s

theorem run_symbolDerivative (k dimension : Nat) (span : Span) (symbol : String) (s : Session) :
    (symbolDerivative k dimension span symbol).run s =
      match s.coordinates.idxOf? symbol with
      | some i => (.ok (if i = k then .one else .zero), s)
      | none =>
        if symbol = "pi" then (.ok .zero, s)
        else
          match (s.withOwner symbol).table.owner? symbol with
          | none => (.ok .zero, s.withOwner symbol)
          | some (owner, index) =>
            if owner.symmetry = .const then (.ok .zero, s.withOwner symbol)
            else (ownedDerivative owner index k dimension span).run (s.withOwner symbol) := by
  unfold symbolDerivative
  rw [run_bind, run_get]
  dsimp only
  cases s.coordinates.idxOf? symbol with
  | some i => rfl
  | none =>
    simp only [run_ite, run_bind, run_pure, run_get, run_modify, beq_iff_eq]
    split
    · rfl
    unfold withOwner
    split
    · cases (s.registerScalar symbol).table.owner? symbol with
      | none => rfl
      | some p => exact run_ite ..
    · cases s.table.owner? symbol with
      | none => rfl
      | some p => exact run_ite ..

end Session

open List Table Entry

variable {symbol : String} {index : IndexVector} {e e' : Entry} {o : String × IndexVector}
  {owner owner' : Entry} {x : Tensor}

def Entry.anonymous (e : Entry) : Entry :=
  { e with id := 0 }

namespace Session

/-- A symbol that stands for nothing yet and can become a scalar. -/
structure Free (s : Session) (symbol : String) : Prop where
  absent : s.table.get? symbol = none
  unowned : s.table.owners[symbol]? = none
  unreserved : ¬ Reserved symbol

def Settled (s : Session) (symbol : String) : Prop :=
  symbol ∈ s.coordinates ∨ symbol = "pi" ∨ (s.table.owners[symbol]?).isSome ∨ s.Free symbol

def Ready (s : Session) (e : Expr) : Prop :=
  ∀ symbol ∈ e.symbolList, s.Settled symbol

def ReadyTensor (s : Session) (t : Tensor) : Prop :=
  ∀ c ∈ t.components, s.Ready c

/-- Reserved names are those of partial derivatives, and the partial derivatives that are known
are those of their tensors as they are now, where scalars are differentiated by `range`
coordinates. -/
structure Coherent (s : Session) (range : Nat) : Prop where
  reserved : ∀ {name e}, s.table.get? name = some e → Reserved name →
    ∃ other owner, s.table.get? other = some owner ∧ derivativeName owner = name
  current : ∀ {symbol name : String} {index owner e}, s.table.owners[symbol]? = some (name, index) →
    s.table.get? name = some owner → owner.symmetry ≠ .const →
      s.table.get? (derivativeName owner) = some e →
        e.dimension = derivativeRange owner range ∧ s.ReadyTensor e.value

/-- What evaluation may declare in a session. -/
inductive Fresh (s : Session) (range : Nat) : Entry → Prop
  | scalar {name : String} (h : s.Free name) : Fresh s range (.freeScalar name s.defaultDimension)
  | derivative {symbol name : String} {index : IndexVector} {owner : Entry}
    (howner : s.table.owners[symbol]? = some (name, index))
    (hget : s.table.get? name = some owner) (hconst : owner.symmetry ≠ .const)
    (habsent : s.table.get? (derivativeName owner) = none)
    (hsize : (Layout.componentCount? (owner.rank + 1) (derivativeRange owner range)).isSome) :
    Fresh s range (derivativeEntry owner (derivativeRange owner range) s.config.naming)

def Declared (s : Session) (range : Nat) (e : Entry) : Prop :=
  (¬ Reserved e.name ∧ e.anonymous = .freeScalar e.name s.defaultDimension) ∨
    ∃ name owner, s.table.get? name = some owner ∧
      (Layout.componentCount? (owner.rank + 1) (derivativeRange owner range)).isSome ∧
      e.anonymous = derivativeEntry owner (derivativeRange owner range) s.config.naming

/-- One session knows all that another one does, and beyond that only what evaluation
declares, with the symbols that come with it. -/
structure Extends (range : Nat) (s t : Session) : Prop where
  config : t.config = s.config
  coordinates : t.coordinates = s.coordinates
  dimension : t.dimension = s.dimension
  entries : ∀ {name e}, s.table.get? name = some e →
    ∃ e', t.table.get? name = some e' ∧ e'.anonymous = e.anonymous
  owners : ∀ {symbol : String} {o}, s.table.owners[symbol]? = some o → t.table.owners[symbol]? = some o
  newOwner : ∀ {symbol name : String} {index}, t.table.owners[symbol]? = some (name, index) →
    s.table.owners[symbol]? = none → s.table.get? name = none
  declared : ∀ {name e}, t.table.get? name = some e → s.table.get? name = none →
    t.Declared range e
  symbols : ∀ {name e}, t.table.get? name = some e → s.table.get? name = none →
    ∀ (symbol : String) index, t.table.owners[symbol]? = some (name, index) ↔
      (e.componentSymbols t.config.naming).reverse.lookup symbol = some index

end Session

section Anonymous

variable (h : e.anonymous = e'.anonymous)
include h

theorem Entry.eq_of_anonymous : e = { e' with id := e.id } := by
  cases e
  cases e'
  simp only [anonymous, mk.injEq] at h ⊢
  simp [h]

theorem Entry.name_of_anonymous : e.name = e'.name := by
  rw [eq_of_anonymous h]

theorem Entry.dimension_of_anonymous : e.dimension = e'.dimension := by
  rw [eq_of_anonymous h]

theorem Entry.symmetry_of_anonymous : e.symmetry = e'.symmetry := by
  rw [eq_of_anonymous h]

theorem Entry.value_of_anonymous : e.value = e'.value := by
  rw [eq_of_anonymous h]

theorem Entry.rank_of_anonymous : e.rank = e'.rank := by
  rw [eq_of_anonymous h]
  rfl

theorem Entry.componentSymbols_of_anonymous (naming : ComponentNaming) :
    e.componentSymbols naming = e'.componentSymbols naming := by
  rw [eq_of_anonymous h]
  rfl

theorem Session.derivativeName_of_anonymous : derivativeName e = derivativeName e' := by
  rw [Entry.eq_of_anonymous h]
  rfl

theorem Session.derivativeRange_of_anonymous (range : Nat) :
    derivativeRange e range = derivativeRange e' range := by
  rw [Entry.eq_of_anonymous h]
  rfl

theorem Session.derivativeEntry_of_anonymous (n : Nat) (naming : ComponentNaming) :
    derivativeEntry e n naming = derivativeEntry e' n naming := by
  rw [Entry.eq_of_anonymous h]
  rfl

end Anonymous

namespace Session

variable {range : Nat} {s t u : Session}

theorem Declared.reserved_or (hs : s.table.WellFormed s.config.naming) (h : s.Declared range e) :
    e.anonymous = .freeScalar e.name s.defaultDimension ∨ Reserved e.name := by
  rcases h with ⟨_, h⟩ | ⟨name, owner, howner, _, h⟩
  · exact .inl h
  · refine .inr ?_
    have hname : e.name = derivativeName owner := congrArg Entry.name h
    rw [hname]
    exact (spelling_derivativeName (hs.proper howner)).reserved

namespace Extends

theorem refl (range : Nat) (s : Session) : Extends range s s where
  config := rfl
  coordinates := rfl
  dimension := rfl
  entries h := ⟨_, h, rfl⟩
  owners h := h
  newOwner h h' := by rw [h] at h'; cases h'
  declared h h' := by rw [h] at h'; cases h'
  symbols h h' := by rw [h] at h'; cases h'

section

variable (h : Extends range s t)
include h

theorem defaultDimension : t.defaultDimension = s.defaultDimension := by
  unfold Session.defaultDimension
  rw [h.dimension, h.config]

theorem declared_mono (heq : e'.anonymous = e.anonymous) (he : s.Declared range e) :
    t.Declared range e' := by
  have hname := name_of_anonymous heq
  unfold Declared
  rw [heq, hname, h.defaultDimension, h.config]
  rcases he with he | ⟨name, owner, howner, hsize, he⟩
  · exact .inl he
  · obtain ⟨owner', howner', hsame⟩ := h.entries howner
    refine .inr ⟨name, owner', howner', ?_, ?_⟩
    · rw [derivativeRange_of_anonymous hsame, rank_of_anonymous hsame]
      exact hsize
    · rw [he, derivativeRange_of_anonymous hsame, derivativeEntry_of_anonymous hsame]

theorem trans (h' : Extends range t u) : Extends range s u where
  config := h'.config.trans h.config
  coordinates := h'.coordinates.trans h.coordinates
  dimension := h'.dimension.trans h.dimension
  entries he := by
    obtain ⟨e', he', hsame⟩ := h.entries he
    obtain ⟨e'', he'', hsame'⟩ := h'.entries he'
    exact ⟨e'', he'', hsame'.trans hsame⟩
  owners ho := h'.owners (h.owners ho)
  newOwner {symbol name index} hu hs := by
    cases ht : t.table.owners[symbol]? with
    | some o =>
      have := h'.owners ht
      rw [hu] at this
      cases this
      exact h.newOwner ht hs
    | none =>
      have hname := h'.newOwner hu ht
      cases hget : s.table.get? name with
      | none => rfl
      | some e =>
        obtain ⟨e', he', _⟩ := h.entries hget
        rw [hname] at he'
        cases he'
  declared {name e} hu hs := by
    cases ht : t.table.get? name with
    | none => exact h'.declared hu ht
    | some e' =>
      obtain ⟨e'', he'', hsame⟩ := h'.entries ht
      rw [hu] at he''
      cases he''
      exact h'.declared_mono hsame (h.declared ht hs)
  symbols {name e} hu hs := by
    cases ht : t.table.get? name with
    | none => exact h'.symbols hu ht
    | some e' =>
      obtain ⟨e'', he'', hsame⟩ := h'.entries ht
      rw [hu] at he''
      cases he''
      intro symbol index
      rw [componentSymbols_of_anonymous hsame, h'.config, ← h.symbols ht hs]
      constructor
      · intro howner
        cases ho : t.table.owners[symbol]? with
        | some o =>
          have := h'.owners ho
          rw [howner] at this
          exact this.symm
        | none =>
          have := h'.newOwner howner ho
          rw [ht] at this
          cases this
      · exact h'.owners

end

end Extends

section

variable (h : Extends range s t) (ht : t.table.WellFormed t.config.naming)
include h ht

theorem Free.mono (hfree : s.Free symbol) :
    t.Free symbol ∨ ∃ e, t.table.get? symbol = some e ∧
      e.anonymous = .freeScalar symbol t.defaultDimension ∧
      t.table.owners[symbol]? = some (symbol, []) := by
  cases hget : t.table.get? symbol with
  | some e =>
    refine .inr ⟨e, rfl, ?_⟩
    rcases (h.declared hget hfree.absent).reserved_or ht with hscalar | hreserved
    · rw [ht.key hget] at hscalar
      have hsymbols : e.componentSymbols t.config.naming =
          (Entry.freeScalar symbol t.defaultDimension).componentSymbols t.config.naming :=
        componentSymbols_of_anonymous hscalar _
      refine ⟨hscalar, (h.symbols hget hfree.absent symbol []).mpr ?_⟩
      rw [hsymbols]
      exact lookup_cons_self
    · rw [ht.key hget] at hreserved
      exact absurd hreserved hfree.unreserved
  | none =>
    refine .inl ⟨hget, ?_, hfree.unreserved⟩
    cases howner : t.table.owners[symbol]? with
    | none => rfl
    | some o =>
      -- the owner would be new, so a scalar of that name or a partial derivative
      obtain ⟨name, index⟩ := o
      have hnew := h.newOwner howner hfree.unowned
      obtain ⟨e, he, _, hname⟩ := ht.owned howner
      rcases (h.declared he hnew).reserved_or ht with hscalar | hreserved
      · have hsymbols : e.componentSymbols t.config.naming =
            (Entry.freeScalar e.name t.defaultDimension).componentSymbols t.config.naming :=
          componentSymbols_of_anonymous hscalar _
        have hlookup := (h.symbols he hnew symbol index).mp howner
        rw [hsymbols] at hlookup
        obtain ⟨hself, _⟩ :=
          Prod.mk.inj (mem_singleton.mp (mem_of_lookup_reverse hlookup))
        have hkey : e.name = name := ht.key he
        have hself : symbol = e.name := hself
        rw [hself, hkey, he] at hget
        cases hget
      · rw [ht.key he] at hreserved
        refine absurd ?_ hfree.unreserved
        rw [hname]
        exact hreserved.componentName _ _ _

theorem Settled.mono (hsymbol : s.Settled symbol) : t.Settled symbol := by
  rcases hsymbol with hcoordinate | hpi | howned | hfree
  · exact .inl (h.coordinates ▸ hcoordinate)
  · exact .inr (.inl hpi)
  · obtain ⟨o, ho⟩ := Option.isSome_iff_exists.mp howned
    exact .inr (.inr (.inl (by rw [h.owners ho]; rfl)))
  · rcases hfree.mono h ht with hfree | ⟨_, _, _, ho⟩
    · exact .inr (.inr (.inr hfree))
    · exact .inr (.inr (.inl (by rw [ho]; rfl)))

theorem Ready.mono {e : Expr} (he : s.Ready e) : t.Ready e :=
  fun symbol hsymbol => (he symbol hsymbol).mono h ht

theorem ReadyTensor.mono (hx : s.ReadyTensor x) : t.ReadyTensor x :=
  fun c hc => (hx c hc).mono h ht

end

theorem slotPairs_ofPairs (ps : List SlotPair) : (Symmetry.ofPairs ps).slotPairs = ps := by
  cases ps <;> rfl

theorem proper_derivativeEntry (h : owner.Proper) (n : Nat) (naming : ComponentNaming) :
    (derivativeEntry owner n naming).Proper where
  ordered := by
    intro p hp
    simp only [derivativeEntry, slotPairs_ofPairs, mem_append] at hp
    rcases hp with hp | hp
    · exact h.ordered p hp
    · split at hp
      · next hrank =>
        obtain rfl := mem_singleton.mp hp
        change owner.rank - 1 < owner.rank
        omega
      · cases hp
  spelling _ := spelling_derivativeName h

theorem proper_freeScalar (name : String) (dimension : Nat) :
    (Entry.freeScalar name dimension).Proper :=
  ⟨nofun, nofun⟩

theorem selfReferring_derivativeEntry (h : owner.Proper) (n : Nat) (naming : ComponentNaming) :
    (derivativeEntry owner n naming).SelfReferring naming := by
  refine selfReferring_symbolic (proper_derivativeEntry h n naming).ordered (.inr rfl) ?_
  rw [Entry.rank, derivativeEntry, length_append]
  rfl

theorem selfReferring_freeScalar (name : String) (dimension : Nat) (naming : ComponentNaming) :
    (Entry.freeScalar name dimension).SelfReferring naming :=
  selfReferring_symbolic (proper_freeScalar name dimension).ordered (.inl rfl) rfl

namespace Fresh

theorem absent (h : Fresh s range e) : s.table.get? e.name = none := by
  cases h with
  | scalar h => exact h.absent
  | derivative howner hget hconst habsent _ => exact habsent

theorem proper (hs : s.table.WellFormed s.config.naming) (h : Fresh s range e) : e.Proper := by
  cases h with
  | scalar h => exact proper_freeScalar _ _
  | derivative howner hget hconst habsent _ => exact proper_derivativeEntry (hs.proper hget) _ _

theorem unowned (hs : s.table.WellFormed s.config.naming) (hc : s.Coherent range)
    (h : Fresh s range e) (hsymbol : (symbol, index) ∈ e.componentSymbols s.config.naming) :
    s.table.owners[symbol]? = none := by
  cases h with
  | scalar h =>
    obtain ⟨rfl, _⟩ := Prod.mk.inj (mem_singleton.mp hsymbol)
    exact h.unowned
  | derivative howner hget hconst habsent _ =>
    cases hother : s.table.owners[symbol]? with
    | none => rfl
    | some o =>
      obtain ⟨name, i⟩ := o
      obtain ⟨e, he, _, hname⟩ := hs.owned hother
      have hspelling : Reserved name → DerivativeSpelling name := by
        intro hreserved
        obtain ⟨_, owner', howner', rfl⟩ := hc.reserved he hreserved
        exact spelling_derivativeName (hs.proper howner')
      have heq := eq_of_componentName_eq (spelling_derivativeName (hs.proper hget)) hspelling
        ((eq_componentName_of_mem hsymbol).2.symm.trans hname)
      rw [heq, he] at habsent
      cases habsent

theorem get?_insert (h : Fresh s range e) {name : String} (he' : s.table.get? name = some e') :
    (s.insert e).table.get? name = some e' := by
  rw [insert, Table.get?_insert, if_neg]
  · exact he'
  · rintro rfl
    rw [h.absent] at he'
    cases he'

theorem declared (h : Fresh s range e) (n : Nat) :
    (s.insert e).Declared range { e with id := n } := by
  have hget : ∀ name e', s.table.get? name = some e' →
      (s.insert e).table.get? name = some e' := fun _ _ => h.get?_insert
  cases h with
  | scalar h => exact .inl ⟨h.unreserved, rfl⟩
  | derivative howner howned hconst _ hsize => exact .inr ⟨_, _, hget _ _ howned, hsize, rfl⟩

end Fresh

theorem owners_insert_cases {name : String}
    (h : (s.insert e).table.owners[symbol]? = some (name, index)) :
    (name = e.name ∧ (e.componentSymbols s.config.naming).reverse.lookup symbol = some index) ∨
      (name ≠ e.name ∧ s.table.owners[symbol]? = some (name, index)) := by
  rw [insert, getElem?_owners_insert] at h
  rcases Option.or_eq_some_iff.mp h with hnew | ⟨_, hold⟩
  · obtain ⟨i, hi, heq⟩ := Option.map_eq_some_iff.mp hnew
    obtain ⟨rfl, rfl⟩ := Prod.mk.inj heq
    exact .inl ⟨rfl, hi⟩
  · rw [Option.filter_eq_some_iff, bne_iff_ne] at hold
    exact .inr ⟨hold.2, hold.1⟩

theorem owners_insert_self
    (h : (e.componentSymbols s.config.naming).reverse.lookup symbol = some index) :
    (s.insert e).table.owners[symbol]? = some (e.name, index) := by
  rw [insert, getElem?_owners_insert, h]
  rfl

theorem owners_insert_of_ne (h : s.table.owners[symbol]? = some o) (howner : o.1 ≠ e.name)
    (hsymbol : ∀ index, (symbol, index) ∉ e.componentSymbols s.config.naming) :
    (s.insert e).table.owners[symbol]? = some o := by
  have hlookup : (e.componentSymbols s.config.naming).reverse.lookup symbol = none := by
    cases hindex : (e.componentSymbols s.config.naming).reverse.lookup symbol with
    | none => rfl
    | some index => exact absurd (mem_of_lookup_reverse hindex) (hsymbol index)
  rw [insert, getElem?_owners_insert, hlookup, h]
  simp [howner]

section

variable (hs : s.table.WellFormed s.config.naming) (hc : s.Coherent range) (h : Fresh s range e)
include hs hc h

theorem Fresh.owners_insert (ho : s.table.owners[symbol]? = some o) :
    (s.insert e).table.owners[symbol]? = some o := by
  refine owners_insert_of_ne ho ?_ fun index hmem => ?_
  · intro heq
    obtain ⟨e', he', _⟩ := hs.owned ho
    rw [heq, h.absent] at he'
    cases he'
  · rw [h.unowned hs hc hmem] at ho
    cases ho

theorem Fresh.extends_insert : Extends range s (s.insert e) where
  config := rfl
  coordinates := rfl
  dimension := rfl
  entries he := ⟨_, h.get?_insert he, rfl⟩
  owners := h.owners_insert hs hc
  newOwner ho hnone := by
    rcases owners_insert_cases ho with ⟨rfl, _⟩ | ⟨_, hold⟩
    · exact h.absent
    · rw [hold] at hnone
      cases hnone
  declared {name e'} he' hnone := by
    rw [insert, Table.get?_insert] at he'
    split at he'
    · cases he'
      exact h.declared _
    · rw [hnone] at he'
      cases he'
  symbols {name e'} he' hnone symbol index := by
    rw [insert, Table.get?_insert] at he'
    split at he'
    · next hname =>
      cases he'
      constructor
      · intro ho
        rcases owners_insert_cases ho with ⟨_, hlookup⟩ | ⟨hne, _⟩
        · exact hlookup
        · exact absurd hname.symm hne
      · intro hlookup
        rw [← hname]
        exact owners_insert_self hlookup
    · rw [hnone] at he'
      cases he'

end

theorem structural_ready (s : Session) : Expr.Structural s.Ready :=
  Expr.structural_symbols s.Settled

theorem Fresh.ready (hs : s.table.WellFormed s.config.naming) (h : Fresh s range e) :
    (s.insert e).ReadyTensor e.value := by
  have hself : e.SelfReferring s.config.naming := by
    cases h with
    | scalar h => exact selfReferring_freeScalar _ _ _
    | derivative _ hget _ _ _ => exact selfReferring_derivativeEntry (hs.proper hget) _ _
  intro c hc symbol hsymbol
  obtain ⟨index, hindex⟩ := hself c hc symbol hsymbol
  obtain ⟨i, howner⟩ := s.table.exists_owner_insert hindex
  exact .inr (.inr (.inl (by rw [insert, howner]; rfl)))

theorem derivativeName_ne (e : Entry) : derivativeName e ≠ e.name := by
  intro h
  have hlength := congrArg (fun name => name.toList.length) h
  unfold derivativeName at hlength
  split at hlength <;> simp at hlength

theorem Fresh.coherent_insert (hs : s.table.WellFormed s.config.naming) (hc : s.Coherent range)
    (h : Fresh s range e) : (s.insert e).Coherent range where
  reserved {name e'} he' hreserved := by
    have hold : ∀ other owner, s.table.get? other = some owner → derivativeName owner = name →
        ∃ other owner, (s.insert e).table.get? other = some owner ∧ derivativeName owner = name :=
      fun other owner howner hname => ⟨other, owner, h.get?_insert howner, hname⟩
    rw [insert, Table.get?_insert] at he'
    split at he'
    · next hname =>
      cases he'
      subst hname
      cases h with
      | scalar h => exact absurd hreserved h.unreserved
      | derivative howner hget hconst habsent _ => exact hold _ _ hget rfl
    · obtain ⟨other, owner, howner, hname⟩ := hc.reserved he' hreserved
      exact hold other owner howner hname
  current {symbol name index owner d} howner hget hconst hd := by
    have hproper := (hs.insert (h.proper hs)).proper hget
    have hready := h.ready hs
    rcases owners_insert_cases howner with ⟨rfl, _⟩ | ⟨hne, hold⟩
    · -- nothing can be known of the derivatives of what is new
      have hkey : owner.name = e.name := (hs.insert (h.proper hs)).key hget
      rw [insert, Table.get?_insert, if_neg (fun heq => derivativeName_ne owner
        (heq.symm.trans hkey.symm))] at hd
      obtain ⟨other, owner', howner', hname⟩ :=
        hc.reserved hd (spelling_derivativeName hproper).reserved
      have hother := derivativeName_injective (hs.proper howner') hproper hname
      rw [hs.key howner', hkey] at hother
      rw [hother, h.absent] at howner'
      cases howner'
    · rw [insert, Table.get?_insert, if_neg (Ne.symm hne)] at hget
      rw [insert, Table.get?_insert] at hd
      split at hd
      · next hname =>
        cases hd
        cases h with
        | scalar h =>
          refine absurd ?_ h.unreserved
          change Reserved (Entry.freeScalar _ s.defaultDimension).name
          rw [hname]
          exact (spelling_derivativeName hproper).reserved
        | @derivative _ name' _ owner' _ hget' _ _ _ =>
          have hsame := derivativeName_injective (hs.proper hget') hproper hname
          rw [hs.key hget', hs.key hget] at hsame
          rw [hsame, hget] at hget'
          cases hget'
          exact ⟨rfl, hready⟩
      · obtain ⟨hdimension, hold⟩ := hc.current hold hget hconst hd
        exact ⟨hdimension, hold.mono (h.extends_insert hs hc) (hs.insert (h.proper hs))⟩

theorem Extends.insert_left (h : Extends range s t) (hnone : s.table.get? e.name = none)
    (hget : t.table.get? e.name = some e') (hsame : e'.anonymous = e.anonymous) :
    Extends range (s.insert e) t := by
  have hnaming : t.config.naming = s.config.naming := by rw [h.config]
  have hsymbols : e'.componentSymbols t.config.naming = e.componentSymbols s.config.naming := by
    rw [hnaming]
    exact componentSymbols_of_anonymous hsame _
  have hnew {name : String} (hname : (s.insert e).table.get? name = none) :
      e.name ≠ name ∧ s.table.get? name = none := by
    rw [Session.insert, Table.get?_insert] at hname
    split at hname
    · cases hname
    · next hne => exact ⟨hne, hname⟩
  refine ⟨h.config, h.coordinates, h.dimension, fun {name e''} he'' => ?_, fun {symbol o} ho => ?_,
    fun {symbol name index} ho hno => ?_, fun ht hno => h.declared ht (hnew hno).2,
    fun ht hno => h.symbols ht (hnew hno).2⟩
  · rw [Session.insert, Table.get?_insert] at he''
    split at he''
    · next hname =>
      cases he''
      exact ⟨e', hname ▸ hget, hsame⟩
    · exact h.entries he''
  · obtain ⟨name, index⟩ := o
    rcases owners_insert_cases ho with ⟨rfl, hlookup⟩ | ⟨_, hold⟩
    · exact (h.symbols hget hnone symbol index).mpr (by rw [hsymbols]; exact hlookup)
    · exact h.owners hold
  · -- a symbol that is still without an owner does not come with the entry
    have hlookup : (e.componentSymbols s.config.naming).reverse.lookup symbol = none := by
      cases hl : (e.componentSymbols s.config.naming).reverse.lookup symbol with
      | none => rfl
      | some i =>
        rw [owners_insert_self hl] at hno
        cases hno
    have hne : e.name ≠ name := by
      rintro rfl
      have := (h.symbols hget hnone symbol index).mp ho
      rw [hsymbols, hlookup] at this
      cases this
    rw [Session.insert, Table.get?_insert, if_neg hne]
    refine h.newOwner ho ?_
    cases hold : s.table.owners[symbol]? with
    | none => rfl
    | some o =>
      have htsame := h.owners hold
      rw [ho] at htsame
      cases htsame
      rw [Session.insert, getElem?_owners_insert, hlookup, hold] at hno
      simp [Ne.symm hne] at hno

end Session

/-! Evaluation gives the same in a coherent session and in any session that extends it by what
evaluation declares. So it does not matter what was evaluated before. -/

variable {name : String}

namespace Session

structure Sound (range : Nat) (s : Session) : Prop where
  wellFormed : s.table.WellFormed s.config.naming
  coherent : s.Coherent range

variable {range : Nat} {s t : Session}

theorem Sound.insert (h : s.Sound range) (he : Fresh s range e) : (s.insert e).Sound range :=
  ⟨h.wellFormed.insert (he.proper h.wellFormed), he.coherent_insert h.wellFormed h.coherent⟩

structure Meet (range : Nat) (s t s' t' : Session) : Prop where
  left : s'.Sound range
  right : t'.Sound range
  between : Extends range s' t'
  fromLeft : Extends range s s'
  fromRight : Extends range t t'

/-- In two sessions of which one extends the other, the results are equal and the sessions
that are left are so related again. -/
def Agrees (range : Nat) (pre : Session → Prop) (x : SessionM α) (post : α → Session → Prop) :
    Prop :=
  ∀ s t, s.Sound range → t.Sound range → Extends range s t → pre s →
    (x.run t).1 = (x.run s).1 ∧ Meet range s t (x.run s).2 (x.run t).2 ∧
      ∀ a, (x.run s).1 = .ok a → post a (x.run s).2

def Lasting (range : Nat) (R : Session → Prop) : Prop :=
  ∀ s t, t.Sound range → Extends range s t → R s → R t

theorem lasting_ready (e : Expr) : Lasting range (·.Ready e) :=
  fun _ _ ht h he => he.mono h ht.wellFormed

theorem Meet.refl (hs : s.Sound range) (ht : t.Sound range) (h : Extends range s t) :
    Meet range s t s t :=
  ⟨hs, ht, h, .refl range s, .refl range t⟩

theorem Meet.trans {s' t' s'' t'' : Session} (h : Meet range s t s' t')
    (h' : Meet range s' t' s'' t'') : Meet range s t s'' t'' :=
  ⟨h'.left, h'.right, h'.between, h.fromLeft.trans h'.fromLeft, h.fromRight.trans h'.fromRight⟩

section

variable (hs : s.Sound range) (ht : t.Sound range) (h : Extends range s t)
include hs ht h

theorem Meet.insert_both (hes : Fresh s range e) (het : Fresh t range e) :
    Meet range s t (s.insert e) (t.insert e) := by
  have hstep := het.extends_insert ht.wellFormed ht.coherent
  have hget : (t.insert e).table.get? e.name = some { e with id := t.table.lastId + 1 } := by
    rw [insert, Table.get?_insert, if_pos rfl]
  exact ⟨hs.insert hes, ht.insert het, (h.trans hstep).insert_left hes.absent hget rfl,
    hes.extends_insert hs.wellFormed hs.coherent, hstep⟩

theorem Meet.insert_left {e' : Entry} (hes : Fresh s range e) (hget : t.table.get? e.name = some e')
    (hsame : e'.anonymous = e.anonymous) : Meet range s t (s.insert e) t :=
  ⟨hs.insert hes, ht, h.insert_left hes.absent hget hsame,
    hes.extends_insert hs.wellFormed hs.coherent, .refl range t⟩

end

def agreement (range : Nat) : Comparison where
  Start w := w.1.Sound range ∧ w.2.Sound range ∧ Extends range w.1 w.2
  Leads w v := Meet range w.1 w.2 v.1 v.2
  Place := Eq
  Fault _ := True
  refl h := .refl h.1 h.2.1 h.2.2
  trans h h' := h.trans h'
  kept _ h := ⟨h.left, h.right, h.between⟩

namespace Agrees

variable {pre : Session → Prop} {x : SessionM α} {post : α → Session → Prop}

theorem of_holds (h : ∀ w, pre w.1 → (agreement range).Holds w (Same fun s a => post a s) x x) :
    Agrees range pre x post := by
  intro s t hs ht hst hpre
  obtain ⟨hmeet, hresult⟩ := h (s, t) hpre ⟨hs, ht, hst⟩
  suffices (x.run t).1 = (x.run s).1 ∧ ∀ a, (x.run s).1 = .ok a → post a (x.run s).2 from
    ⟨this.1, hmeet, this.2⟩
  dsimp only at hresult
  generalize (x.run s).1 = r at hresult
  generalize (x.run t).1 = r' at hresult
  cases hresult with
  | ok h => exact ⟨congrArg _ h.1, by rintro a ⟨⟩; exact h.2⟩
  | error hplace _ =>
    cases hplace
    exact ⟨rfl, nofun⟩

theorem holds (h : Agrees range pre x post) {w : Session × Session} (hpre : pre w.1) :
    (agreement range).Holds w (Same fun s a => post a s) x x := by
  rintro ⟨hs, ht, hst⟩
  obtain ⟨heq, hmeet, hpost⟩ := h _ _ hs ht hst hpre
  refine ⟨hmeet, ?_⟩
  rw [heq]
  cases hr : (x.run w.1).1 with
  | ok a => exact .ok ⟨rfl, hpost a hr⟩
  | error e => exact .error (F := agreement range) (e := e) rfl trivial

end Agrees

/-- A tensor that is known with the given rank. -/
def ReadsTensor (s : Session) (name : String) (rank : Nat) : Prop :=
  ∃ e, s.table.get? name = some e ∧ e.rank = rank ∧ s.ReadyTensor e.value

/-- A scalar that is known as such, or that can become one. -/
def ReadsScalar (s : Session) (name : String) : Prop :=
  name = "pi" ∨ s.ReadsTensor name 0 ∨ s.Free name

theorem ReadyTensor.get? (h : s.ReadyTensor x) {index : IndexVector} {c : Expr}
    (hc : x.get? index = some c) : s.Ready c := by
  obtain ⟨offset, _, hoffset⟩ := bind_eq_some_iff.mp hc
  exact h c (Array.mem_of_getElem? hoffset)

theorem ReadyTensor.get (h : s.ReadyTensor x) (index : IndexVector) : s.Ready (x.get index) := by
  unfold Tensor.get
  cases hc : x.get? index with
  | none => exact (structural_ready s).num 0
  | some c => exact h.get? hc

theorem lasting_readsTensor (name : String) (rank : Nat) :
    Lasting range (·.ReadsTensor name rank) := by
  intro s t ht h hname
  obtain ⟨e, he, hrank, hready⟩ := hname
  obtain ⟨e', he', hsame⟩ := h.entries he
  refine ⟨e', he', (rank_of_anonymous hsame).trans hrank, ?_⟩
  rw [value_of_anonymous hsame]
  exact hready.mono h ht.wellFormed

theorem ready_sym_of_owned (h : s.table.owners[symbol]? = some o) : s.Ready (.sym symbol) := by
  intro symbol' hmem
  obtain rfl := mem_singleton.mp hmem
  exact .inr (.inr (.inl (by rw [h]; rfl)))

theorem lasting_readsScalar (name : String) : Lasting range (·.ReadsScalar name) := by
  intro s t ht h hname
  rcases hname with hpi | hknown | hfree
  · exact .inl hpi
  · exact .inr (.inl (lasting_readsTensor name 0 s t ht h hknown))
  · rcases hfree.mono h ht.wellFormed with hfree | ⟨e, he, hsame, howner⟩
    · exact .inr (.inr hfree)
    · have hrank : e.rank = (Entry.freeScalar name t.defaultDimension).rank :=
        rank_of_anonymous hsame
      have hvalue : e.value = (Entry.freeScalar name t.defaultDimension).value :=
        value_of_anonymous hsame
      refine .inr (.inl ⟨e, he, hrank, fun c hc => ?_⟩)
      obtain rfl : c = .sym name := by simpa [hvalue, Entry.freeScalar, Tensor.scalar] using hc
      exact ready_sym_of_owned howner

theorem owners_registerScalar (s : Session) (name : String) :
    (s.registerScalar name).table.owners[name]? = some (name, []) :=
  owners_insert_self lookup_cons_self

theorem Free.meet (hs : s.Sound range) (ht : t.Sound range) (hst : Extends range s t)
    (h : s.Free name) :
    (t.Free name ∧ Meet range s t (s.registerScalar name) (t.registerScalar name)) ∨
      ∃ e, t.table.get? name = some e ∧ e.anonymous = .freeScalar name t.defaultDimension ∧
        t.table.owners[name]? = some (name, []) ∧ Meet range s t (s.registerScalar name) t := by
  have hfresh : Fresh s range (.freeScalar name s.defaultDimension) := .scalar h
  rcases h.mono hst ht.wellFormed with hfree | ⟨e, he, hsame, howner⟩
  · have hfresh' : Fresh t range (.freeScalar name t.defaultDimension) := .scalar hfree
    refine .inl ⟨hfree, ?_⟩
    unfold registerScalar
    rw [hst.defaultDimension] at hfresh' ⊢
    exact .insert_both hs ht hst hfresh hfresh'
  · refine .inr ⟨e, he, hsame, howner, ?_⟩
    rw [hst.defaultDimension] at hsame
    exact .insert_left hs ht hst hfresh he hsame

theorem scalar_agrees (name : String) :
    Agrees range (·.ReadsScalar name) (modifyGet (·.scalar name) : SessionM Expr)
      fun e s => s.Ready e := by
  intro s t hs ht hst hname
  change (Except.ok (t.scalar name).1 : Except Error Expr) = .ok (s.scalar name).1 ∧
    Meet range s t (s.scalar name).2 (t.scalar name).2 ∧
      ∀ a, Except.ok (s.scalar name).1 = .ok a → (s.scalar name).2.Ready a
  unfold scalar
  by_cases hpi : name = "pi"
  · rw [if_pos (beq_iff_eq.mpr hpi), if_pos (beq_iff_eq.mpr hpi)]
    refine ⟨rfl, .refl hs ht hst, ?_⟩
    rintro a ⟨⟩ symbol hmem
    exact .inr (.inl ((mem_singleton.mp hmem).trans hpi))
  rw [if_neg (fun h => hpi (beq_iff_eq.mp h)), if_neg (fun h => hpi (beq_iff_eq.mp h))]
  rcases hname.resolve_left hpi with ⟨e, he, hrank, hvalue⟩ | hfree
  · obtain ⟨e', he', hsame⟩ := hst.entries he
    have hrank' := (rank_of_anonymous hsame).trans hrank
    rw [he, he']
    dsimp only
    rw [if_pos hrank, if_pos hrank', value_of_anonymous hsame]
    refine ⟨rfl, .refl hs ht hst, ?_⟩
    rintro a ⟨⟩
    exact hvalue.get []
  · have hready : (s.registerScalar name).Ready (.sym name) :=
      ready_sym_of_owned (owners_registerScalar s name)
    rw [hfree.absent]
    rcases hfree.meet hs ht hst with ⟨hfree', hmeet⟩ | ⟨e, he, hsame, _, hmeet⟩
    · rw [hfree'.absent]
      exact ⟨rfl, hmeet, by rintro a ⟨⟩; exact hready⟩
    · have hrank : e.rank = (Entry.freeScalar name t.defaultDimension).rank :=
        rank_of_anonymous hsame
      have hvalue : e.value = (Entry.freeScalar name t.defaultDimension).value :=
        value_of_anonymous hsame
      have hrank : e.rank = 0 := hrank
      rw [he]
      dsimp only
      rw [if_pos hrank, hvalue]
      exact ⟨rfl, hmeet, by rintro a ⟨⟩; exact hready⟩

theorem component_agrees (head : TensorHead) (index : IndexVector) (span : Span) :
    Agrees range (·.ReadsTensor head.name index.length)
      (do (← get).component head index span : SessionM Expr) fun e s => s.Ready e := by
  intro s t hs ht hst hknown
  obtain ⟨e, he, hrank, hready⟩ := hknown
  obtain ⟨e', he', hsame⟩ := hst.entries he
  have hrank' := (rank_of_anonymous hsame).trans hrank
  rw [run_bind, run_bind, run_get, run_get]
  dsimp only
  rw [run_lift, run_lift]
  unfold component
  rw [he, he']
  dsimp only
  rw [if_pos hrank, if_pos hrank', eq_of_anonymous hsame]
  refine ⟨rfl, .refl hs ht hst, ?_⟩
  intro c hc
  cases hvalue : e.value.get? index with
  | none => rw [hvalue] at hc; cases hc
  | some v =>
    rw [hvalue] at hc
    cases hc
    exact hready.get? hvalue

section

variable (hs : s.Sound range)
include hs

/-- Partial derivatives that only the larger session knows are those it has declared. -/
theorem eq_derivativeEntry (ht : t.Sound range) (hst : Extends range s t)
    (hget : s.table.get? name = some owner) (hget' : t.table.get? name = some owner')
    (hsame : owner'.anonymous = owner.anonymous)
    (hnone : s.table.get? (derivativeName owner) = none)
    (he : t.table.get? (derivativeName owner) = some e) :
    (Layout.componentCount? (owner.rank + 1) (derivativeRange owner range)).isSome ∧
      e.anonymous = derivativeEntry owner (derivativeRange owner range) s.config.naming := by
  have hproper := hs.wellFormed.proper hget
  have hkey := ht.wellFormed.key he
  rcases hst.declared he hnone with ⟨hnot, _⟩ | ⟨name', other, hother, hsize, heq⟩
  · rw [hkey] at hnot
    exact absurd (spelling_derivativeName hproper).reserved hnot
  · -- the derivatives of only one entry have that name
    have hname : derivativeName owner = derivativeName other :=
      hkey.symm.trans (congrArg Entry.name heq)
    have hnames := derivativeName_injective hproper (ht.wellFormed.proper hother) hname
    rw [hs.wellFormed.key hget, ht.wellFormed.key hother] at hnames
    rw [← hnames, hget'] at hother
    cases hother
    rw [derivativeRange_of_anonymous hsame] at hsize heq
    rw [rank_of_anonymous hsame] at hsize
    rw [derivativeEntry_of_anonymous hsame, hst.config] at heq
    exact ⟨hsize, heq⟩

theorem ownedDerivative_agrees (ht : t.Sound range) (hst : Extends range s t)
    (howner : s.table.owners[symbol]? = some (name, index)) (hget : s.table.get? name = some owner)
    (hget' : t.table.get? name = some owner') (hsame : owner'.anonymous = owner.anonymous)
    (hconst : owner.symmetry ≠ .const) (k : Nat) (span : Span) :
    let x := (ownedDerivative owner index k range span).run s
    let y := (ownedDerivative owner' index k range span).run t
    y.1 = x.1 ∧ Meet range s t x.2 y.2 ∧ ∀ a, x.1 = .ok a → x.2.Ready a := by
  intro x y
  have hx : x = _ := run_ownedDerivative owner index k range span s
  have hy : y = _ := run_ownedDerivative owner' index k range span t
  rw [derivativeRange_of_anonymous hsame, derivativeName_of_anonymous hsame,
    derivativeEntry_of_anonymous hsame, rank_of_anonymous hsame,
    name_of_anonymous hsame, hst.config] at hy
  rw [hx, hy]
  by_cases hk : derivativeRange owner range ≤ k
  · rw [if_pos hk, if_pos hk]
    exact ⟨rfl, .refl hs ht hst, nofun⟩
  rw [if_neg hk, if_neg hk]
  have hentry {e e' : Entry} (h : e'.anonymous = e.anonymous)
      (hd : e.dimension = derivativeRange owner range) :
      e'.dimension = derivativeRange owner range ∧ e'.value = e.value := by
    rw [eq_of_anonymous h]
    exact ⟨hd, rfl⟩
  have hfilter {e : Entry} (hd : e.dimension = derivativeRange owner range) :
      (some e).filter (·.dimension == derivativeRange owner range) = some e :=
    filter_some_pos (p := fun e : Entry => e.dimension == derivativeRange owner range)
      (beq_iff_eq.mpr hd)
  cases hknown : s.table.get? (derivativeName owner) with
  | some e =>
    obtain ⟨hd, hready⟩ := hs.coherent.current howner hget hconst hknown
    obtain ⟨e', he', hsame'⟩ := hst.entries hknown
    obtain ⟨hd', hvalue⟩ := hentry hsame' hd
    rw [he', hfilter hd, hfilter hd']
    dsimp only
    rw [hvalue]
    refine ⟨rfl, .refl hs ht hst, ?_⟩
    rintro a ⟨⟩
    exact hready.get _
  | none =>
    cases hknown' : t.table.get? (derivativeName owner) with
    | none =>
      dsimp only [filter_none]
      by_cases hsize : (Layout.componentCount? (owner.rank + 1)
          (derivativeRange owner range)).isNone
      · rw [if_pos hsize, if_pos hsize]
        exact ⟨rfl, .refl hs ht hst, nofun⟩
      rw [if_neg hsize, if_neg hsize]
      have hsize : (Layout.componentCount? (owner.rank + 1)
          (derivativeRange owner range)).isSome := by simpa [isSome_iff_ne_none] using hsize
      have hfresh : Fresh s range _ := .derivative howner hget hconst hknown hsize
      have hfresh' : Fresh t range
          (derivativeEntry owner' (derivativeRange owner' range) t.config.naming) := by
        apply Fresh.derivative (hst.owners howner) hget'
        · rw [eq_of_anonymous hsame]
          exact hconst
        · rw [derivativeName_of_anonymous hsame]
          exact hknown'
        · rw [derivativeRange_of_anonymous hsame, rank_of_anonymous hsame]
          exact hsize
      rw [derivativeRange_of_anonymous hsame, derivativeEntry_of_anonymous hsame,
        hst.config] at hfresh'
      exact ⟨rfl, .insert_both hs ht hst hfresh hfresh', by rintro a ⟨⟩; exact (hfresh.ready hs.wellFormed).get _⟩
    | some e =>
      obtain ⟨hsize, heq⟩ := eq_derivativeEntry hs ht hst hget hget' hsame hknown hknown'
      have hsame' : e.anonymous =
          (derivativeEntry owner (derivativeRange owner range) s.config.naming).anonymous := heq
      obtain ⟨hd, hvalue⟩ := hentry hsame' rfl
      have hfresh : Fresh s range _ := .derivative howner hget hconst hknown hsize
      have hnot : ¬ (Layout.componentCount? (owner.rank + 1)
          (derivativeRange owner range)).isNone := by simpa [isSome_iff_ne_none] using hsize
      rw [hfilter hd]
      dsimp only [filter_none]
      rw [if_neg hnot, hvalue]
      exact ⟨rfl, .insert_left hs ht hst hfresh hknown' heq, by rintro a ⟨⟩; exact (hfresh.ready hs.wellFormed).get _⟩

theorem owner?_eq (howner : s.table.owners[symbol]? = some (name, index)) :
    ∃ owner, s.table.get? name = some owner ∧ s.table.owner? symbol = some (owner, index) := by
  obtain ⟨owner, hget, _⟩ := hs.wellFormed.owned howner
  exact ⟨owner, hget, (Table.owner?_eq_some _).mpr ⟨name, howner, hget⟩⟩

theorem withOwner_of_owned (howner : s.table.owners[symbol]? = some o) :
    s.withOwner symbol = s := by
  obtain ⟨owner, _, hsome⟩ := owner?_eq hs howner
  rw [withOwner, hsome]
  rfl

end

theorem withOwner_of_free (h : s.Free symbol) : s.withOwner symbol = s.registerScalar symbol := by
  have hnone : s.table.owner? symbol = none := by
    rw [Table.owner?, h.unowned]
    rfl
  rw [withOwner, hnone]
  rfl

theorem withOwner_meet (hs : s.Sound range) (ht : t.Sound range) (hst : Extends range s t)
    (h : (s.table.owners[symbol]?).isSome ∨ s.Free symbol) :
    Meet range s t (s.withOwner symbol) (t.withOwner symbol) ∧
      ((s.withOwner symbol).table.owners[symbol]?).isSome := by
  rcases h with howned | hfree
  · obtain ⟨o, ho⟩ := isSome_iff_exists.mp howned
    rw [withOwner_of_owned hs ho, withOwner_of_owned ht (hst.owners ho)]
    exact ⟨.refl hs ht hst, howned⟩
  · rw [withOwner_of_free hfree]
    refine ⟨?_, by rw [owners_registerScalar]; rfl⟩
    rcases hfree.meet hs ht hst with ⟨hfree', hmeet⟩ | ⟨_, _, _, howner, hmeet⟩
    · rw [withOwner_of_free hfree']
      exact hmeet
    · rw [withOwner_of_owned ht howner]
      exact hmeet

theorem symbolDerivative_agrees (k : Nat) (span : Span) (symbol : String) :
    Agrees range (·.Settled symbol) (symbolDerivative k range span symbol)
      fun e s => s.Ready e := by
  intro s t hs ht hst hsymbol
  have hzero (s : Session) : s.Ready .zero := (structural_ready s).num 0
  rw [run_symbolDerivative, run_symbolDerivative, hst.coordinates]
  cases hcoordinate : s.coordinates.idxOf? symbol with
  | some i =>
    refine ⟨rfl, .refl hs ht hst, ?_⟩
    rintro a ⟨⟩
    dsimp only
    split
    · exact (structural_ready s).num 1
    · exact hzero s
  | none =>
    dsimp only
    by_cases hpi : symbol = "pi"
    · rw [if_pos hpi, if_pos hpi]
      exact ⟨rfl, .refl hs ht hst, by rintro a ⟨⟩; exact hzero s⟩
    rw [if_neg hpi, if_neg hpi]
    have hown : (s.table.owners[symbol]?).isSome ∨ s.Free symbol := by
      rcases hsymbol with hmem | hpi' | hrest
      · rw [idxOf?_eq_none_iff] at hcoordinate
        exact absurd hmem hcoordinate
      · exact absurd hpi' hpi
      · exact hrest
    obtain ⟨hmeet, howned⟩ := withOwner_meet hs ht hst hown
    obtain ⟨⟨name, index⟩, howner⟩ := isSome_iff_exists.mp howned
    obtain ⟨owner, hget, hsome⟩ := owner?_eq hmeet.left howner
    obtain ⟨owner', hget', hsame⟩ := hmeet.between.entries hget
    have hsome' := (Table.owner?_eq_some _).mpr ⟨name, hmeet.between.owners howner, hget'⟩
    have hsymmetry : owner'.symmetry = owner.symmetry := by rw [eq_of_anonymous hsame]
    rw [hsome, hsome']
    dsimp only
    rw [hsymmetry]
    by_cases hconst : owner.symmetry = .const
    · rw [if_pos hconst, if_pos hconst]
      exact ⟨rfl, hmeet, by rintro a ⟨⟩; exact hzero _⟩
    rw [if_neg hconst, if_neg hconst]
    obtain ⟨heq, hmeet', hready⟩ := ownedDerivative_agrees hmeet.left hmeet.right hmeet.between
      howner hget hget' hsame hconst k span
    exact ⟨heq, hmeet.trans hmeet', hready⟩

theorem stable_ready : (agreement range).Stable fun s e => s.Ready e :=
  ⟨structural_ready, fun h he => lasting_ready _ _ _ h.left h.fromLeft he⟩

theorem differentiate_agrees (e : Expr) (k : Nat) (span : Span) :
    Agrees range (·.Ready e) (differentiate e k range span) fun d s => s.Ready d :=
  .of_holds fun _ he => stable_ready.derivativeM (fun symbol _ h =>
    (symbolDerivative_agrees k span symbol).holds (h symbol (mem_singleton_self _))) he

end Session

end TensorCalculus
