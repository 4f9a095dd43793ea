import TensorCalculus.Proofs.Session.TableInvariant
import TensorCalculus.Proofs.Tensor.Classes

/-! The symbols of the components of a declared tensor. Its value names them after the canonical
form of every index, the table records them for the canonical indices: both have the same symbols,
which tell the components apart from each other and from those of all other tensors. -/
namespace TensorCalculus

variable {e : Entry} {name : String}

open List Layout

/-- The name ends in the letter of a height, as those of tensors with indices do. -/
def EndsInHeight (name : String) : Prop :=
  ∃ c ∈ name.toList.getLast?, c = 'U' ∨ c = 'D'

instance (name : String) : Decidable (EndsInHeight name) :=
  Option.decidableExistsMem name.toList.getLast?

theorem EndsInHeight.eq_nil {name : List Char} {more tail : List Char}
    (h : EndsInHeight (String.ofList (name ++ more))) (hmore : more <+: tail)
    (htail : ∀ c ∈ tail, c.isDigit ∨ c = '_') : more = [] := by
  obtain ⟨c, hlast, hc⟩ := h
  rw [String.toList_ofList] at hlast
  refine eq_nil_of_getLast?_append hlast fun hmem => ?_
  have hnumeral := htail c (hmore.mem hmem)
  rcases hc with rfl | rfl <;> exact absurd hnumeral (by decide)

theorem EndsInHeight.eq_of_componentName_eq {other : String} (h : EndsInHeight name)
    (hother : EndsInHeight other) {index index' : IndexVector} {dimension dimension' : Nat}
    {naming naming' : ComponentNaming} (heq : componentName name index dimension naming =
      componentName other index' dimension' naming') : name = other := by
  obtain ⟨tail, htail, hname⟩ := exists_numerals name index dimension naming
  obtain ⟨tail', htail', hname'⟩ := exists_numerals other index' dimension' naming'
  have hlists : name.toList ++ tail = other.toList ++ tail' := by
    rw [← hname, ← hname', heq]
  apply String.toList_injective
  rcases append_eq_append_iff.mp hlists with ⟨more, hmore, hrest⟩ | ⟨more, hmore, hrest⟩
  · rw [← String.ofList_toList (s := other), hmore] at hother
    rw [hmore, hother.eq_nil (hrest ▸ prefix_append ..) htail, append_nil]
  · rw [← String.ofList_toList (s := name), hmore] at h
    rw [hmore, h.eq_nil (hrest ▸ prefix_append ..) htail', append_nil]

namespace Entry

variable {naming : ComponentNaming} {symbol : String} {index : IndexVector}

theorem lookup_componentSymbols (h : (symbol, index) ∈ e.componentSymbols naming) :
    (e.componentSymbols naming).reverse.lookup symbol = some index := by
  have hlookup : ((e.componentSymbols naming).reverse.lookup symbol).isSome := by
    rw [lookup_isSome_iff]
    exact ⟨(symbol, index), mem_reverse.mpr h, by simp⟩
  obtain ⟨i, hi⟩ := Option.isSome_iff_exists.mp hlookup
  obtain ⟨hindex, hname⟩ := Table.eq_componentName_of_mem h
  obtain ⟨hi', hname'⟩ := Table.eq_componentName_of_mem (Table.mem_of_lookup_reverse hi)
  rw [hi, componentName_injective hi' hindex (hname'.symm.trans hname)]

theorem owners_insert_iff (t : Table) (e : Entry) :
    (t.insert naming e).owners[symbol]? = some (e.name, index) ↔
      (symbol, index) ∈ e.componentSymbols naming := by
  rw [Table.getElem?_owners_insert]
  refine ⟨fun h => ?_, fun h => by rw [lookup_componentSymbols h]; rfl⟩
  rcases Option.or_eq_some_iff.mp h with h | ⟨-, h⟩
  · obtain ⟨i, hi, heq⟩ := Option.map_eq_some_iff.mp h
    obtain ⟨-, rfl⟩ := Prod.mk.inj heq
    exact Table.mem_of_lookup_reverse hi
  · -- what it owned before is no longer recorded
    simp [Option.filter_eq_some_iff] at h

theorem mem_componentSymbols_iff (hrank : 0 < e.rank) (horigin : e.origin = .declared) :
    (symbol, index) ∈ e.componentSymbols naming ↔
      index ∈ e.symmetry.distinctIndices e.rank e.dimension ∧
        symbol = componentName e.name index e.dimension naming := by
  rw [componentSymbols, if_neg hrank.ne', horigin]
  simp only [mem_map, Prod.mk.injEq]
  constructor
  · rintro ⟨i, hi, rfl, rfl⟩
    exact ⟨hi, rfl⟩
  · rintro ⟨hi, rfl⟩
    exact ⟨index, hi, rfl, rfl⟩

theorem get?_symbolic {rank dimension : Nat} (s : Symmetry) (hrank : 0 < rank)
    (h : index ∈ indices rank dimension) :
    (Tensor.symbolic name rank dimension s naming).get? index = some ((s.canonicalize index).1.apply
      (.sym (componentName name (s.canonicalize index).2 dimension naming))) := by
  rw [Tensor.symbolic, if_neg hrank.ne', Tensor.get?_ofFn h]

theorem apply_sym_eq_zero_iff (sign : Sign) (x : String) :
    sign.apply (.sym x) = .zero ↔ sign = .zero := by
  cases sign with
  | plus => exact iff_of_false Expr.noConfusion Sign.noConfusion
  | minus =>
    refine iff_of_false ?_ Sign.noConfusion
    rw [Sign.apply, show (Expr.sym x).neg = .mul [.num (-1), .sym x] by cbv]
    exact Expr.noConfusion
  | zero => exact iff_of_true rfl rfl

/-- The value of a declared tensor and the recorded owners agree. A component vanishes just where
its canonical form does, and otherwise is up to sign a symbol whose owner is the tensor, at the
canonical index. The tensor owns one symbol for each canonical index and no others, and no other
tensor, of whatever dimension, has a component of that symbol. -/
theorem declared_symbols_have_owners (t : Table) (naming : ComponentNaming) (e : Entry)
    (hname : EndsInHeight e.name) (hrank : 0 < e.rank) (hordered : e.symmetry.Ordered)
    (horigin : e.origin = .declared)
    (hvalue : e.value = .symbolic e.name e.rank e.dimension e.symmetry naming) :
    let after := t.insert naming e
    let symbolAt (index : IndexVector) := componentName e.name index e.dimension naming
    ∃ stored, after.get? e.name = some stored ∧ stored = { e with id := stored.id } ∧
      (∀ index ∈ indices e.rank e.dimension, ∀ sign canonical,
        e.symmetry.canonicalize index = (sign, canonical) →
          ∃ component, stored.value.get? index = some component ∧
            (component = .zero ↔ sign = .zero) ∧
            (sign ≠ .zero → component = sign.apply (.sym (symbolAt canonical)) ∧
              after.owner? (symbolAt canonical) = some (stored, canonical))) ∧
      (∀ symbol index, after.owners[symbol]? = some (e.name, index) ↔
        index ∈ e.symmetry.distinctIndices e.rank e.dimension ∧ symbol = symbolAt index) ∧
      (∀ x ∈ e.symmetry.distinctIndices e.rank e.dimension,
        ∀ y ∈ e.symmetry.distinctIndices e.rank e.dimension, symbolAt x = symbolAt y → x = y) ∧
      ∀ symbol index, after.owners[symbol]? = some (e.name, index) →
        ∀ other index' dimension naming', EndsInHeight other → other ≠ e.name →
          componentName other index' dimension naming' ≠ symbol := by
  intro after symbolAt
  have hstored : after.get? e.name = some { e with id := t.lastId + 1 } := by
    rw [Table.get?_insert, if_pos rfl]
  have hindices {index : IndexVector}
      (h : index ∈ e.symmetry.distinctIndices e.rank e.dimension) :
      index ∈ indices e.rank e.dimension := (List.mem_filter.mp h).1
  have howned (symbol : String) (index : IndexVector) :
      after.owners[symbol]? = some (e.name, index) ↔
        index ∈ e.symmetry.distinctIndices e.rank e.dimension ∧ symbol = symbolAt index :=
    (owners_insert_iff t e).trans (mem_componentSymbols_iff hrank horigin)
  refine ⟨_, hstored, rfl, fun index hindex sign canonical hcanonical => ?_, howned,
    fun x hx y hy => componentName_injective (hindices hx) (hindices hy), ?_⟩
  · have hmem := e.symmetry.canonicalize_mem_indices hindex
    have hform : (e.symmetry.canonicalize index).1 ≠ .zero → _ :=
      Symmetry.isCanonical_canonical hordered
    have hget : e.value.get? index = _ := hvalue ▸ get?_symbolic e.symmetry hrank hindex
    rw [hcanonical] at hmem hform hget
    refine ⟨_, hget, apply_sym_eq_zero_iff _ _, fun hsign => ⟨rfl, ?_⟩⟩
    rw [Table.owner?_eq_some]
    exact ⟨e.name, (howned _ _).mpr ⟨List.mem_filter.mpr ⟨hmem, hform hsign⟩, rfl⟩, hstored⟩
  · intro symbol index hsymbol other index' dimension naming' hother hne heq
    rw [((howned symbol index).mp hsymbol).2] at heq
    exact hne (hother.eq_of_componentName_eq hname heq)

/-- Two digits in an index, and slots that are exchanged in a chain. -/
theorem declared_symbols_have_owners_chain :
    let e : Entry := {
      name := "TUDD", base := "T", heights := [.upper, .lower, .lower], dimension := 11
      symmetry := .pairs [⟨0, 1, true⟩, ⟨1, 2, true⟩]
      value := .symbolic "TUDD" 3 11 (.pairs [⟨0, 1, true⟩, ⟨1, 2, true⟩]) .auto
      origin := .declared }
    let after := Table.empty.insert .auto e
    (EndsInHeight e.name ∧ 0 < e.rank ∧ e.symmetry.Ordered) ∧
      ∃ stored, after.get? "TUDD" = some stored ∧
        stored.value.get? [10, 2, 0] = some (Expr.sym "TUDD0_2_10").neg ∧
        after.owner? "TUDD0_2_10" = some (stored, [0, 2, 10]) ∧
        stored.value.get? [3, 10, 3] = some .zero ∧
        ∀ index dimension naming, componentName "TUD" index dimension naming ≠ "TUDD0_2_10" := by
  intro e after
  have hordered : e.symmetry.Ordered := by
    unfold Symmetry.Ordered
    decide
  have hname : EndsInHeight e.name := by decide
  obtain ⟨stored, hstored, -, hcomponents, howned, -, hother⟩ :=
    declared_symbols_have_owners .empty .auto e hname (by decide) hordered rfl rfl
  have hin : [10, 2, 0] ∈ indices 3 11 ∧ [3, 10, 3] ∈ indices 3 11 := by
    rw [mem_indices, mem_indices]
    decide
  have hsymbol : componentName "TUDD" [0, 2, 10] 11 .auto = "TUDD0_2_10" := by cbv
  obtain ⟨c, hc, -, hsome⟩ := hcomponents [10, 2, 0] hin.1 .minus [0, 2, 10] (by decide)
  obtain ⟨z, hz, hzero, -⟩ := hcomponents [3, 10, 3] hin.2 .zero [3, 3, 10] (by decide)
  obtain ⟨rfl, howner⟩ := hsome Sign.noConfusion
  dsimp only [e] at hc howner
  rw [hsymbol] at hc howner
  obtain rfl := hzero.mpr rfl
  refine ⟨⟨hname, by decide, hordered⟩, stored, hstored, hc, howner, hz,
    fun index dimension naming => ?_⟩
  have hregistered : after.owners["TUDD0_2_10"]? = some ("TUDD", [0, 2, 10]) :=
    (howned _ _).mpr ⟨List.mem_filter.mpr ⟨mem_indices.mpr (by decide), by decide⟩,
      hsymbol.symm⟩
  exact hother _ _ hregistered "TUD" index dimension naming (by decide) (by decide)

end Entry

/-! Which components the symbols of a session stand for. The entries of a table have the slots of
partial derivatives last, and a symbol with an owner is that of one of its canonical components. -/

open Relation Session Option Table

namespace Entry

/-- The slots of the derivatives come last in partial derivatives. Other entries have none. -/
def Arranged (e : Entry) : Prop :=
  ∃ first tail, e.rank = first + tail ∧ (0 < tail ↔ e.origin = .partialDerivative) ∧
    e.symmetry.Commutes first tail

theorem arranged_of_inside (horigin : e.origin ≠ .partialDerivative)
    (h : SlotPair.Inside e.symmetry.slotPairs e.rank) : e.Arranged :=
  ⟨e.rank, 0, rfl, by simp [horigin], _, h, (append_nil _).symm⟩

theorem Arranged.inside (h : e.Arranged) : SlotPair.Inside e.symmetry.slotPairs e.rank := by
  obtain ⟨first, tail, hrank, -, hcommutes⟩ := h
  exact hrank ▸ hcommutes.inside

theorem lengthens_derivativeEntry {first tail : Nat} (hrank : e.rank = first + tail)
    (horigin : 0 < tail ↔ e.origin = .partialDerivative) (h : e.symmetry.Commutes first tail)
    (n : Nat) (naming : ComponentNaming) :
    e.symmetry.Lengthens (derivativeEntry e n naming).symmetry first tail := by
  obtain ⟨ps, hps, hpairs⟩ := h
  refine ⟨?_, ps, hps, hpairs, ?_⟩
  · change Symmetry.ofPairs _ ≠ _
    unfold Symmetry.ofPairs
    split <;> exact Symmetry.noConfusion
  · change (Symmetry.ofPairs _).slotPairs = _
    rw [slotPairs_ofPairs, hpairs, append_assoc, append_cancel_left_eq]
    by_cases htail : 0 < tail
    · rw [if_pos ⟨horigin.mp htail, by omega⟩, SlotPair.neighbours_succ htail, hrank]
    · obtain rfl : tail = 0 := Nat.eq_zero_of_not_pos htail
      rw [if_neg fun h => htail (horigin.mpr h.1)]
      rfl

theorem rank_derivativeEntry (e : Entry) (n : Nat) (naming : ComponentNaming) :
    (derivativeEntry e n naming).rank = e.rank + 1 :=
  length_append

theorem Arranged.lengthens (h : e.Arranged) (n : Nat) (naming : ComponentNaming) :
    ∃ first tail, e.rank = first + tail ∧
      e.symmetry.Lengthens (derivativeEntry e n naming).symmetry first tail := by
  obtain ⟨first, tail, hrank, horigin, hcommutes⟩ := h
  exact ⟨first, tail, hrank, lengthens_derivativeEntry hrank horigin hcommutes n naming⟩

theorem Arranged.lengthens_twice (h : e.Arranged) (m n : Nat) (naming : ComponentNaming) :
    ∃ first tail, e.rank = first + tail ∧
      e.symmetry.Lengthens (derivativeEntry e m naming).symmetry first tail ∧
      (derivativeEntry e m naming).symmetry.Lengthens
        (derivativeEntry (derivativeEntry e m naming) n naming).symmetry first (tail + 1) := by
  obtain ⟨first, tail, hrank, horigin, hcommutes⟩ := h
  have hlengthens := lengthens_derivativeEntry hrank horigin hcommutes m naming
  refine ⟨first, tail, hrank, hlengthens, lengthens_derivativeEntry ?_ ?_ ?_ n naming⟩
  · rw [rank_derivativeEntry, hrank, Nat.add_assoc]
  · exact iff_of_true (Nat.succ_pos tail) rfl
  · obtain ⟨ps, hps, -, hpairs⟩ := hlengthens.exists_pairs
    exact ⟨ps, hps, hpairs⟩

theorem Arranged.derivativeEntry (h : e.Arranged) (n : Nat) (naming : ComponentNaming) :
    (derivativeEntry e n naming).Arranged := by
  obtain ⟨first, tail, hrank, -, ps, hps, -, hpairs⟩ := h.lengthens n naming
  refine ⟨first, tail + 1, ?_, by simp [Session.derivativeEntry], ps, hps, hpairs⟩
  rw [rank_derivativeEntry, hrank, Nat.add_assoc]

theorem arranged_freeScalar (name : String) (dimension : Nat) :
    (freeScalar name dimension).Arranged :=
  arranged_of_inside (show Origin.declared ≠ _ by decide) (forall_mem_nil _)

theorem inherited_arranged : Inherited Entry.Arranged where
  id _ _ h := h
  scalar := arranged_freeScalar
  derivative _ n naming h := h.derivativeEntry n naming
  connection _ _ _ := arranged_of_inside (show Origin.computed ≠ _ by decide)
    (forall_mem_singleton.mpr ⟨by decide, by simp [Entry.rank, connectionEntry]⟩)
  derived e name heights origin value horigin hrank h := by
    refine arranged_of_inside horigin fun p hp => ?_
    rw [derivedEntry, slotPairs_ofPairs] at hp
    exact ⟨(h.inside p hp).1, Nat.lt_of_lt_of_le (h.inside p hp).2 hrank⟩

end Entry

namespace Session

variable {s t : Session}

/-- Entries stand under their names with the slots of derivatives last, and each owned symbol is
that of a canonical component. -/
structure Indexed (s : Session) : Prop where
  arranged : s.All Entry.Arranged
  key : ∀ {name e}, s.table.get? name = some e → e.name = name
  owned : ∀ {symbol name index}, s.table.owners[symbol]? = some (name, index) →
    ∃ e, s.table.get? name = some e ∧ (symbol, index) ∈ e.componentSymbols s.config.naming

namespace Indexed

theorem new (config : Config) : (Session.new config).Indexed where
  arranged _ _ h := by simp [Session.new, Table.get?] at h
  key h := by simp [Session.new, Table.get?] at h
  owned h := by simp [Session.new] at h

section

variable (hs : s.Indexed)
include hs

theorem of_table (htable : t.table = s.table) (hconfig : t.config = s.config) :
    t.Indexed where
  arranged := by rw [All, htable]; exact hs.arranged
  key := by rw [htable]; exact hs.key
  owned := by rw [htable, hconfig]; exact hs.owned

theorem insert (he : e.Arranged) : (s.insert e).Indexed where
  arranged := hs.arranged.insert fun _ => he
  key {name e'} h := by
    rw [Session.insert, get?_insert] at h
    split at h
    · cases h
      assumption
    · exact hs.key h
  owned {symbol name index} h := by
    rw [Session.insert, getElem?_owners_insert] at h
    rw [Session.insert, get?_insert]
    rcases or_eq_some_iff.mp h with hnew | ⟨_, hold⟩
    · obtain ⟨i, hi, heq⟩ := map_eq_some_iff.mp hnew
      obtain ⟨rfl, rfl⟩ := Prod.mk.inj heq
      rw [if_pos rfl]
      exact ⟨_, rfl, mem_of_lookup_reverse hi⟩
    · rw [filter_eq_some_iff] at hold
      have hne : e.name ≠ name := fun heq => by simp [heq] at hold
      rw [if_neg hne]
      exact hs.owned hold.1

theorem setValue (name : String) (value : Tensor) :
    { s with table := s.table.setValue name value }.Indexed where
  arranged other e' h := by
    rw [get?_setValue] at h
    split at h
    · obtain ⟨e, he, rfl⟩ := map_eq_some_iff.mp h
      exact hs.arranged _ e he
    · exact hs.arranged _ _ h
  key {other e'} h := by
    rw [get?_setValue] at h
    split at h
    · next heq =>
      obtain ⟨e, he, rfl⟩ := map_eq_some_iff.mp h
      exact (hs.key he).trans heq
    · exact hs.key h
  owned {symbol other index} h := by
    rw [owners_setValue] at h
    obtain ⟨e, he, hindex⟩ := hs.owned h
    rw [get?_setValue]
    split
    · next heq =>
      subst heq
      rw [he]
      exact ⟨_, rfl, hindex⟩
    · exact ⟨e, he, hindex⟩

theorem withMetric (base : String) (height : Height) (dimension : Nat) (value : Tensor) :
    (s.withMetric base height dimension value).Indexed := by
  have hmetric (height : Height) (value : Tensor) {origin : Origin}
      (horigin : origin ≠ .partialDerivative) :
      (metricEntry base height dimension value origin).Arranged :=
    Entry.arranged_of_inside horigin
      (forall_mem_singleton.mpr ⟨by decide, by simp [Entry.rank, metricEntry]⟩)
  have hinverse := (hs.insert (hmetric height value (show Origin.declared ≠ _ by decide))).insert
    (hmetric height.flip value.inverse.1 (show Origin.computed ≠ _ by decide))
  exact (hinverse.insert (e := determinantEntry base dimension _) (Entry.arranged_of_inside
    (show Origin.computed ≠ _ by decide) (forall_mem_nil _))).of_table rfl rfl

theorem of_reach (h : ReflTransGen (Aux Entry.Arranged) s t) : t.Indexed := by
  induction h with
  | refl => exact hs
  | tail _ h ih =>
    cases h with
    | scalar => exact ih.insert (Entry.arranged_freeScalar _ _)
    | derivative h n => exact ih.insert ((ih.arranged _ _ h).derivativeEntry n _)
    | silent he _ => exact ih.insert he

theorem of_leads (h : Leads s t) : t.Indexed :=
  hs.of_reach (h _ Entry.inherited_arranged hs.arranged)

end

end Indexed

theorem inside_of_symmetryFault? {rank dimension : Nat} {symmetry : Symmetry}
    (hordered : symmetry.Ordered) (hfault : symmetryFault? name rank dimension symmetry = none) :
    SlotPair.Inside symmetry.slotPairs rank := by
  cases symmetry with
  | pairs ps =>
    refine Symmetry.inside_slotPairs hordered fun slot hslot => ?_
    rw [mem_def] at hslot
    simp only [symmetryFault?, hslot] at hfault
    by_contra hle
    rw [if_pos (Nat.le_of_not_lt hle)] at hfault
    cases hfault
  | metric | kronecker =>
    simp only [symmetryFault?] at hfault
    split at hfault
    · cases hfault
    · exact forall_mem_singleton.mpr ⟨by decide, show 1 < rank by omega⟩
  | none | permutation | const => exact forall_mem_nil _

namespace Indexed

theorem of_effect {step : Step} (h : Effect step t) (hs : step.start.Indexed) : t.Indexed := by
  cases h with
  | changes _ hleads hsame => exact (hs.of_leads hleads).of_table hsame.table hsame.config
  | equation he hok _ hleads hstores =>
    have hu := hs.of_leads hleads
    cases hstores with
    | tensor _ horigin _ _ _ hsymmetry =>
      refine hu.insert (Entry.arranged_of_inside (by rw [horigin]; decide) ?_)
      rcases hsymmetry with hnone | ⟨v, old, hleads, hold, hrank, hsame⟩
      · rw [hnone]
        exact forall_mem_nil _
      · rw [hsame, ← hrank]
        exact ((hs.of_leads hleads).arranged _ _ hold).inside
    | component => exact hu.setValue _ _
  | declaration hsame horigin _ hordered hfault =>
    exact (hs.of_table hsame.table hsame.config).insert (Entry.arranged_of_inside
      (by rw [horigin]; decide) (inside_of_symmetryFault? hordered hfault))
  | metric _ hsame => exact (hs.of_table hsame.table hsame.config).withMetric _ _ _ _
  | evaluation => exact hs.setValue _ _

theorem after (config : Config) (calls : List Call) : ((Session.new config).after calls).Indexed :=
  (invariant_of_history (I := fun s => s.Sane ∧ s.Indexed) (P := fun _ => True)
    (fun step _ hs =>
      have heffect := step.effect hs.1.within
      ⟨hs.1.of_effect heffect, of_effect heffect hs.2⟩)
    ⟨sane_new config, .new config⟩ fun _ _ => trivial).2

end Indexed

end Session

/-! Derivatives of component symbols. Each is a component symbol of the tensor of partial
derivatives, and different symbols of one tensor have different derivatives, as long as no other
tensor stands where the derivatives belong. -/

namespace Symmetry

theorem isCanonical_nil {s : Symmetry} (h : SlotPair.Inside s.slotPairs 0) : s.isCanonical [] := by
  by_cases hperm : s = permutation
  · simp [hperm, isCanonical, canonicalize, parity, inversions]
  · have hsettled : SlotPair.Settled s.slotPairs [] :=
      fun p hp => absurd (h p hp).2 (Nat.not_lt_zero _)
    rw [isCanonical, canonicalize_of_settled hperm hsettled]
    rfl

end Symmetry

namespace Entry

theorem Arranged.isCanonical (he : e.Arranged) {naming : ComponentNaming} {symbol : String}
    {index : IndexVector} (h : (symbol, index) ∈ e.componentSymbols naming) :
    e.symmetry.isCanonical index := by
  unfold componentSymbols at h
  split at h
  · next hrank =>
    obtain ⟨rfl, rfl⟩ := Prod.mk.inj (mem_singleton.mp h)
    exact Symmetry.isCanonical_nil (hrank ▸ he.inside)
  · have hmem : index ∈ e.symmetry.distinctIndices e.rank e.dimension := by
      split at h
      · obtain ⟨i, hi, heq⟩ := mem_map.mp h
        exact (Prod.mk.inj heq).2 ▸ hi
      · obtain ⟨i, hi, heq⟩ := mem_map.mp h
        exact (Prod.mk.inj heq).2 ▸ hi
      · cases h
    exact (mem_filter.mp hmem).2

end Entry

namespace Session

/-- The symbol stands for a component of an entry and is differentiated as such. -/
structure Owns (s : Session) (owner : Entry) (symbol : String) (index : IndexVector) : Prop where
  owner? : s.table.owner? symbol = some (owner, index)
  not_coordinate : symbol ∉ s.coordinates
  ne_pi : symbol ≠ "pi"

/-- The entry has the components of the partial derivatives of another, as that one is now. -/
structure Differentiates (naming : ComponentNaming) (owner e : Entry) : Prop where
  rank : e.rank = owner.rank + 1
  symmetry : e.symmetry = (derivativeEntry owner e.dimension naming).symmetry
  value : e.value = (derivativeEntry owner e.dimension naming).value
  origin : e.origin = .declared ∨ e.origin = .partialDerivative

/-- There is no other tensor of the dimension where the derivatives of an entry belong. -/
def HasRoom (s : Session) (owner : Entry) (dimension : Nat) : Prop :=
  ∀ e ∈ s.table.get? (derivativeName owner), e.dimension = dimension →
    Differentiates s.config.naming owner e

instance (s : Session) (owner : Entry) (symbol : String) (index : IndexVector) :
    Decidable (s.Owns owner symbol index) :=
  decidable_of_iff (s.table.owner? symbol = some (owner, index) ∧ symbol ∉ s.coordinates ∧
    symbol ≠ "pi") ⟨fun h => ⟨h.1, h.2.1, h.2.2⟩, fun h => ⟨h.1, h.2, h.3⟩⟩

instance (naming : ComponentNaming) (owner e : Entry) : Decidable (Differentiates naming owner e) :=
  decidable_of_iff (e.rank = owner.rank + 1 ∧
    e.symmetry = (derivativeEntry owner e.dimension naming).symmetry ∧
    e.value = (derivativeEntry owner e.dimension naming).value ∧
    (e.origin = .declared ∨ e.origin = .partialDerivative))
    ⟨fun h => ⟨h.1, h.2.1, h.2.2.1, h.2.2.2⟩, fun h => ⟨h.1, h.2, h.3, h.4⟩⟩

instance (s : Session) (owner : Entry) (dimension : Nat) : Decidable (s.HasRoom owner dimension) :=
  inferInstanceAs (Decidable (∀ e ∈ s.table.get? (derivativeName owner), e.dimension = dimension →
    Differentiates s.config.naming owner e))

def derivativeSymbol (owner : Entry) (index : IndexVector) (k n : Nat)
    (naming : ComponentNaming) : String :=
  componentName (derivativeName owner)
    ((derivativeEntry owner n naming).symmetry.canonicalize (index ++ [k])).2 n naming

section Owner

variable {owner : Entry} {symbol : String} {index : IndexVector} {k n dimension : Nat}
  {naming : ComponentNaming} {s t : Session}

theorem snoc_mem_indices (hindex : index ∈ indices owner.rank owner.dimension)
    (hk : k < derivativeRange owner dimension) :
    index ++ [k] ∈ indices (owner.rank + 1) (derivativeRange owner dimension) := by
  rw [mem_indices] at hindex ⊢
  refine ⟨by rw [length_append, hindex.1, length_singleton], ?_⟩
  rw [forall_mem_append, forall_mem_singleton]
  refine ⟨fun i hi => ?_, hk⟩
  unfold derivativeRange
  split
  · next hrank =>
    rw [hrank, length_eq_zero_iff] at hindex
    rw [hindex.1] at hi
    cases hi
  · exact hindex.2 i hi

theorem get_derivativeEntry (howner : owner.Arranged)
    (hcanonical : owner.symmetry.isCanonical index) (hindex : index.length = owner.rank)
    (hmem : index ++ [k] ∈ indices (owner.rank + 1) n) :
    (derivativeEntry owner n naming).value.get (index ++ [k]) =
      .sym (derivativeSymbol owner index k n naming) := by
  obtain ⟨first, tail, hrank, hlengthens⟩ := howner.lengthens n naming
  obtain ⟨back, -, hback⟩ := hlengthens.canonicalize (hindex.trans hrank) hcanonical k
  change (Tensor.symbolic (derivativeName owner) (owner.rank + 1) n _ naming).get _ = _
  rw [Tensor.symbolic, if_neg (Nat.succ_ne_zero _), Tensor.get_ofFn hmem]
  change Sign.apply ((derivativeEntry owner n naming).symmetry.canonicalize (index ++ [k])).1 _ = _
  rw [hback]
  rfl

theorem derivativeSymbol_injective (howner : owner.Arranged) {other : IndexVector}
    (hindex : index ∈ indices owner.rank owner.dimension)
    (hcanonical : owner.symmetry.isCanonical index)
    (hother : other ∈ indices owner.rank owner.dimension)
    (hcanonical' : owner.symmetry.isCanonical other) (hk : k < derivativeRange owner dimension)
    (h : derivativeSymbol owner index k (derivativeRange owner dimension) naming =
      derivativeSymbol owner other k (derivativeRange owner dimension) naming) : index = other := by
  obtain ⟨first, tail, hrank, hlengthens⟩ :=
    howner.lengthens (derivativeRange owner dimension) naming
  have heq := componentName_injective
    (Symmetry.canonicalize_mem_indices _ (snoc_mem_indices hindex hk))
    (Symmetry.canonicalize_mem_indices _ (snoc_mem_indices hother hk)) h
  rw [mem_indices, hrank] at hindex hother
  exact hlengthens.injective hindex.1 hcanonical hother.1 hcanonical' heq

theorem differentiates_derivativeEntry (owner : Entry) (n id : Nat) (naming : ComponentNaming) :
    Differentiates naming owner { derivativeEntry owner n naming with id } where
  rank := length_append
  symmetry := rfl
  value := rfl
  origin := .inr rfl

namespace Owns

variable (h : s.Owns owner symbol index) (hs : s.Indexed)
include h hs

theorem mem_componentSymbols : (symbol, index) ∈ owner.componentSymbols s.config.naming := by
  obtain ⟨name, howned, hget⟩ := (owner?_eq_some _).mp h.owner?
  obtain ⟨e, he, hmem⟩ := hs.owned howned
  obtain rfl : e = owner := Option.some.inj (he.symm.trans hget)
  exact hmem

theorem arranged : owner.Arranged := by
  obtain ⟨name, -, hget⟩ := (owner?_eq_some _).mp h.owner?
  exact hs.arranged _ _ hget

theorem isCanonical : owner.symmetry.isCanonical index :=
  (h.arranged hs).isCanonical (h.mem_componentSymbols hs)

theorem mem_indices : index ∈ indices owner.rank owner.dimension :=
  (eq_componentName_of_mem (h.mem_componentSymbols hs)).1

theorem symbol_eq : symbol = componentName owner.name index owner.dimension s.config.naming :=
  (eq_componentName_of_mem (h.mem_componentSymbols hs)).2

end Owns

theorem Owns.run_differentiate (h : s.Owns owner symbol index) (hconst : owner.symmetry ≠ .const)
    (span : Span) : (differentiate (.sym symbol) k dimension span).run s =
      (ownedDerivative owner index k dimension span).run s := by
  have hnone : s.coordinates.idxOf? symbol = none := idxOf?_eq_none_iff.mpr h.not_coordinate
  have hwith : s.withOwner symbol = s := by
    rw [withOwner, h.owner?]
    rfl
  rw [differentiate, Expr.derivativeM, run_symbolDerivative, hnone]
  dsimp only
  rw [if_neg h.ne_pi, hwith, h.owner?]
  exact if_neg hconst

theorem derivativeName_eq (owner : Entry) :
    ∃ suffix : String, 'D' ∈ suffix.toList ∧ derivativeName owner = owner.name ++ suffix := by
  unfold derivativeName
  split
  · exact ⟨"D", by decide, rfl⟩
  · exact ⟨"_dD", by decide, rfl⟩

theorem componentName_ne_derivative (owner : Entry) (index other : IndexVector) (m n : Nat)
    (naming : ComponentNaming) : componentName owner.name index m naming ≠
      componentName (derivativeName owner) other n naming := by
  intro h
  obtain ⟨suffix, hsuffix, hname⟩ := derivativeName_eq owner
  obtain ⟨more, hmore, heq⟩ := exists_componentName owner.name index m naming
  obtain ⟨rest, -, heq'⟩ := exists_componentName (derivativeName owner) other n naming
  rw [h, heq', hname, String.toList_append, append_assoc, append_cancel_left_eq] at heq
  exact hmore (heq ▸ mem_append_left _ hsuffix)

theorem Owns.insert (hs : s.Indexed) (h : s.Owns owner symbol index) (hne : e.name ≠ owner.name)
    (hsymbol : ∀ i, (symbol, i) ∉ e.componentSymbols s.config.naming) :
    (s.insert e).Owns owner symbol index where
  owner? := by
    obtain ⟨name, howned, hget⟩ := (owner?_eq_some _).mp h.owner?
    obtain rfl := hs.key hget
    exact (owner?_eq_some _).mpr ⟨owner.name, owners_insert_of_ne howned hne.symm hsymbol,
      by rw [get?_insert_of_ne hne, hget]⟩
  not_coordinate := h.not_coordinate
  ne_pi := h.ne_pi

theorem Owns.insert_derivative (hs : s.Indexed) (h : s.Owns owner symbol index) (n : Nat) :
    (s.insert (derivativeEntry owner n s.config.naming)).Owns owner symbol index := by
  refine h.insert hs (fun heq => ?_) fun i hi => ?_
  · have hnil := componentName_ne_derivative owner [] [] n n .auto
    rw [show derivativeName owner = owner.name from heq] at hnil
    exact hnil rfl
  · exact componentName_ne_derivative owner index i _ _ _
      ((h.symbol_eq hs).symm.trans (eq_componentName_of_mem hi).2)

/-- What a session is like once the derivatives of an entry are known in it. -/
structure Completes (owner : Entry) (n : Nat) (s t : Session) : Prop where
  config : t.config = s.config
  indexed : t.Indexed
  known : ∃ e, t.table.get? (derivativeName owner) = some e ∧ e.dimension = n ∧
    Differentiates s.config.naming owner e
  owns : ∀ {symbol index}, s.Owns owner symbol index → t.Owns owner symbol index
  others : ∀ {name}, derivativeName owner ≠ name → t.table.get? name = s.table.get? name
  coordinates : t.coordinates = s.coordinates

theorem Completes.hasRoom (h : Completes owner n s t) : t.HasRoom owner n := by
  obtain ⟨e, he, -, hdifferentiates⟩ := h.known
  intro e' he' _
  obtain rfl : e = e' := Option.some.inj (he.symm.trans he')
  rw [h.config]
  exact hdifferentiates

section

variable (hs : s.Indexed) (h : s.Owns owner symbol index) (hconst : owner.symmetry ≠ .const)
  (hk : k < derivativeRange owner dimension)
  (hroom : s.HasRoom owner (derivativeRange owner dimension))
include hs h hconst hk hroom

theorem Owns.differentiate (span : Span) : let n := derivativeRange owner dimension
    let run := (differentiate (.sym symbol) k dimension span).run s
    (∃ t, run = (.ok (.sym (derivativeSymbol owner index k n s.config.naming)), t) ∧
      Completes owner n s t) ∨
    (componentCount? (owner.rank + 1) n = none ∧ run.1.toOption = none) := by
  intro n run
  have harranged := h.arranged hs
  have hmem := snoc_mem_indices (h.mem_indices hs) hk
  have hget : (derivativeEntry owner n s.config.naming).value.get (index ++ [k]) = _ :=
    get_derivativeEntry harranged (h.isCanonical hs) (Layout.mem_indices.mp (h.mem_indices hs)).1
      hmem
  have hrun : run = _ := (h.run_differentiate hconst span).trans (run_ownedDerivative ..)
  rw [if_neg (Nat.not_le.mpr hk)] at hrun
  rw [hrun]
  split
  · next known hknown =>
    obtain ⟨hknown, hn⟩ := Option.filter_eq_some_iff.mp hknown
    have hn := beq_iff_eq.mp hn
    have hdifferentiates := hroom known hknown hn
    refine .inl ⟨s, ?_, rfl, hs, ⟨known, hknown, hn, hdifferentiates⟩, id, fun _ => rfl, rfl⟩
    rw [hdifferentiates.value, hn, hget]
  · split
    · next hcount => exact .inr ⟨Option.isNone_iff_eq_none.mp hcount, rfl⟩
    · refine .inl ⟨s.insert (derivativeEntry owner n s.config.naming), by rw [hget], rfl,
        hs.insert (harranged.derivativeEntry _ _), ?_, fun howns => howns.insert_derivative hs n,
        fun hne => get?_insert_of_ne (e := derivativeEntry owner n s.config.naming) hne, rfl⟩
      refine ⟨{ derivativeEntry owner n s.config.naming with id := s.table.lastId + 1 }, ?_, rfl,
        differentiates_derivativeEntry ..⟩
      rw [Session.insert, get?_insert]
      exact if_pos rfl

theorem Owns.eq_of_differentiate {span : Span} {d : Expr}
    (hrun : (Session.differentiate (.sym symbol) k dimension span).run s = (.ok d, t)) :
    d = .sym (derivativeSymbol owner index k (derivativeRange owner dimension) s.config.naming) ∧
      Completes owner (derivativeRange owner dimension) s t := by
  rcases h.differentiate hs hconst hk hroom span with ⟨u, hok, hcompletes⟩ | ⟨-, hfails⟩
  · obtain ⟨hd, rfl⟩ := Prod.mk.inj (hok.symm.trans hrun)
    exact ⟨(Except.ok.inj hd).symm, hcompletes⟩
  · rw [hrun] at hfails
    cases hfails

end

theorem derivativeSymbol_mem (h : owner.Arranged) (hcanonical : owner.symmetry.isCanonical index)
    (hindex : index.length = owner.rank) (he : Differentiates naming owner e)
    (hname : e.name = derivativeName owner)
    (hmem : index ++ [k] ∈ indices (owner.rank + 1) e.dimension) :
    ∃ i, (derivativeSymbol owner index k e.dimension naming, i) ∈ e.componentSymbols naming := by
  obtain ⟨first, tail, hrank, hlengthens⟩ := h.lengthens e.dimension naming
  obtain ⟨back, -, hback⟩ := hlengthens.canonicalize (hindex.trans hrank) hcanonical k
  have hordered : e.symmetry.Ordered := by
    rw [he.symmetry]
    exact fun p hp => ((h.derivativeEntry e.dimension naming).inside p hp).1
  have hdistinct : (e.symmetry.canonicalize (index ++ [k])).2 ∈
      e.symmetry.distinctIndices e.rank e.dimension := by
    rw [he.rank]
    refine mem_filter.mpr ⟨Symmetry.canonicalize_mem_indices _ hmem, ?_⟩
    refine Symmetry.isCanonical_canonical hordered ?_
    rw [he.symmetry, hback]
    exact Sign.noConfusion
  refine ⟨(e.symmetry.canonicalize (index ++ [k])).2, ?_⟩
  unfold Entry.componentSymbols derivativeSymbol
  rw [if_neg (by rw [he.rank]; exact Nat.succ_ne_zero _), ← hname, ← he.symmetry]
  rcases he.origin with horigin | horigin <;> rw [horigin] <;>
    exact mem_map_of_mem hdistinct

end Owner

theorem sym_ne_neg (x y : String) : Expr.sym x ≠ (Expr.sym y).neg := by
  rw [show (Expr.sym y).neg = .mul [.num (-1), .sym y] by cbv]
  exact Expr.noConfusion

/-- Where no other tensor has the name of the derivatives, the derivative of a component symbol is
a component symbol of the tensor of partial derivatives, and other symbols of the tensor have other
derivatives, up to sign too, before it and after it. It fails only if there are too many
components. -/
theorem symbol_derivatives_are_kept_apart (config : Config) (calls : List Call) (owner : Entry)
    (k dimension : Nat) (span : Span) :
    let s := (Session.new config).after calls
    let n := derivativeRange owner dimension
    let derive (symbol : String) := (differentiate (.sym symbol) k dimension span).run
    owner.symmetry ≠ .const → k < n → s.HasRoom owner n →
    ∀ symbol index, s.Owns owner symbol index →
      ((componentCount? (owner.rank + 1) n).isSome → ∃ d t, derive symbol s = (.ok d, t)) ∧
      ∀ d t, derive symbol s = (.ok d, t) →
        (∃ e x i, t.table.get? (derivativeName owner) = some e ∧ e.rank = owner.rank + 1 ∧
          (x, i) ∈ e.componentSymbols s.config.naming ∧ d = .sym x) ∧
        ∀ other index' d' t', s.Owns owner other index' → other ≠ symbol →
          derive other s = (.ok d', t') ∨ derive other t = (.ok d', t') → d' ≠ d ∧ d' ≠ d.neg := by
  intro s n derive hconst hk hroom symbol index howns
  have hs : s.Indexed := .after config calls
  refine ⟨fun hcount => ?_, fun d t hrun => ?_⟩
  · rcases howns.differentiate hs hconst hk hroom span with ⟨t, hok, -⟩ | ⟨hnone, -⟩
    · exact ⟨_, t, hok⟩
    · rw [hnone] at hcount
      cases hcount
  obtain ⟨rfl, hcompletes⟩ := howns.eq_of_differentiate hs hconst hk hroom hrun
  constructor
  · obtain ⟨e, he, hn, hdifferentiates⟩ := hcompletes.known
    have hindex := howns.mem_indices hs
    obtain ⟨i, hi⟩ := derivativeSymbol_mem (howns.arranged hs) (howns.isCanonical hs)
      (mem_indices.mp hindex).1 hdifferentiates (hcompletes.indexed.key he)
      (hn ▸ snoc_mem_indices hindex hk)
    rw [hn] at hi
    exact ⟨e, _, i, he, hdifferentiates.rank, hi, rfl⟩
  · intro other index' d' t' hother hne hrun'
    -- the other symbol has its own derivative in both sessions
    obtain rfl : d' = .sym (derivativeSymbol owner index' k n s.config.naming) := by
      rcases hrun' with hrun' | hrun'
      · exact (hother.eq_of_differentiate hs hconst hk hroom hrun').1
      · have hafter := ((hcompletes.owns hother).eq_of_differentiate hcompletes.indexed hconst hk
          hcompletes.hasRoom hrun').1
        rwa [hcompletes.config] at hafter
    refine ⟨fun heq => hne ?_, sym_ne_neg _ _⟩
    have hindices := derivativeSymbol_injective (howns.arranged hs) (hother.mem_indices hs)
      (hother.isCanonical hs) (howns.mem_indices hs) (howns.isCanonical hs) hk (Expr.sym.inj heq)
    rw [hother.symbol_eq hs, howns.symbol_eq hs, hindices]

set_option maxRecDepth 100000 in
/-- Two components of a symmetric tensor, after derivatives along the other coordinate. -/
theorem symbol_derivatives_are_kept_apart_symmetric :
    let s := (Session.new {}).after
      [.document "% def sym01 hDD (2)\nA_\x7bi j\x7d = \\partial_0 h_\x7bi j\x7d"]
    let derive (symbol : String) := (differentiate (.sym symbol) 1 2 .none).run s
    ∃ owner, (owner.symmetry ≠ .const ∧ 1 < derivativeRange owner 2 ∧
        s.HasRoom owner (derivativeRange owner 2) ∧ s.Owns owner "hDD01" [0, 1] ∧
        s.Owns owner "hDD11" [1, 1]) ∧
      ∃ d t d' t', derive "hDD01" = (.ok d, t) ∧ derive "hDD11" = (.ok d', t') ∧
        (∃ e x i, t.table.get? (derivativeName owner) = some e ∧ e.rank = owner.rank + 1 ∧
          (x, i) ∈ e.componentSymbols s.config.naming ∧ d = .sym x) ∧ d' ≠ d ∧ d' ≠ d.neg := by
  intro s derive
  have h : ∃ owner ∈ s.table.get? "hDD",
      (componentCount? (owner.rank + 1) (derivativeRange owner 2)).isSome ∧
      owner.symmetry ≠ .const ∧ 1 < derivativeRange owner 2 ∧
      s.HasRoom owner (derivativeRange owner 2) ∧ s.Owns owner "hDD01" [0, 1] ∧
      s.Owns owner "hDD11" [1, 1] := by
    decide +kernel
  obtain ⟨owner, -, hcount, hconst, hk, hroom, howns, howns'⟩ := h
  have hapart := symbol_derivatives_are_kept_apart {} _ owner 1 2 .none hconst hk hroom
  obtain ⟨d, t, hd⟩ := (hapart _ _ howns).1 hcount
  obtain ⟨d', t', hd'⟩ := (hapart _ _ howns').1 hcount
  obtain ⟨hsymbol, hother⟩ := (hapart _ _ howns).2 d t hd
  exact ⟨owner, ⟨hconst, hk, hroom, howns, howns'⟩, d, t, d', t', hd, hd', hsymbol,
    hother _ _ _ _ howns' (by decide) (.inl hd')⟩

set_option maxRecDepth 100000 in
/-- A tensor with the name of the derivatives takes their place. If it has another rank, they are
zero, and if it has the derivatives of a symmetric tensor of the same name, they coincide. -/
theorem derivatives_lost_and_conflated :
    let taken := (Session.new {}).after [.document "% def vD (2), vD_dD (2)"]
    let redeclared := (Session.new {}).after
      [.document "% def sym01 hDD (2)\nA_\x7bi j\x7d = \\partial_0 h_\x7bi j\x7d",
        .document "% def hDD (2)"]
    let derive (symbol : String) (s : Session) := ((differentiate (.sym symbol) 0 2 .none).run s).1
    (∃ owner ∈ taken.table.get? "vD", owner.symmetry ≠ .const ∧ 0 < derivativeRange owner 2 ∧
      taken.Owns owner "vD0" [0]) ∧ derive "vD0" taken = .ok .zero ∧
    (∃ owner ∈ redeclared.table.get? "hDD", owner.symmetry ≠ .const ∧
      0 < derivativeRange owner 2 ∧ redeclared.Owns owner "hDD01" [0, 1] ∧
      redeclared.Owns owner "hDD10" [1, 0]) ∧
    derive "hDD01" redeclared = .ok (.sym "hDD_dD010") ∧
    derive "hDD10" redeclared = .ok (.sym "hDD_dD010") := by
  decide +kernel

end Session

end TensorCalculus
