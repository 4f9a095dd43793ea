import Mathlib.Data.List.Nodup
import Mathlib.Logic.Relation
import TensorCalculus.Proofs.Scalar.Hereditary
import TensorCalculus.Proofs.Tensor.Exchange
import TensorCalculus.Session.Assign

/-! What the operations on a table do to its entries and to the owners of symbols. The order
of the names has no part in this. -/
namespace TensorCalculus

variable {l : List String} {value : Tensor} {other name : String} {t : Table} {c : Char}

namespace Table

variable (t : Table)

@[simp] theorem touch_entries (name : String) : (t.touch name).entries = t.entries := rfl

@[simp] theorem touch_owners (name : String) : (t.touch name).owners = t.owners := rfl

@[simp] theorem touch_lastId (name : String) : (t.touch name).lastId = t.lastId := rfl

theorem get?_insert (naming : ComponentNaming) (e : Entry) (name : String) :
    (t.insert naming e).get? name =
      if e.name = name then some { e with id := t.lastId + 1 } else t.get? name := by
  simp only [get?, insert, touch_entries, Std.ExtTreeMap.getElem?_insert,
    Std.LawfulEqCmp.compare_eq_iff_eq]

theorem getElem?_owners_foldl (name symbol : String) (symbols : List (String × IndexVector))
    (owners : Std.ExtTreeMap String (String × IndexVector)) :
    (symbols.foldl (fun owners (symbol, index) => owners.insert symbol (name, index)) owners)[symbol]?
      = ((symbols.reverse.lookup symbol).map (name, ·)).or owners[symbol]? := by
  induction symbols generalizing owners with
  | nil => rfl
  | cons p symbols ih =>
    obtain ⟨first, index⟩ := p
    rw [List.foldl_cons, ih, List.reverse_cons, List.lookup_append,
      Std.ExtTreeMap.getElem?_insert]
    by_cases h : first = symbol
    · subst h
      cases symbols.reverse.lookup first <;> simp
    · have hlookup : List.lookup symbol [(first, index)] = none := by
        rw [List.lookup_cons, beq_false_of_ne (Ne.symm h)]
        rfl
      rw [hlookup, Option.or_none]
      simp [h]

theorem getElem?_owners_insert (naming : ComponentNaming) (e : Entry) (symbol : String) :
    (t.insert naming e).owners[symbol]? =
      (((e.componentSymbols naming).reverse.lookup symbol).map (e.name, ·)).or
        (t.owners[symbol]?.filter (·.1 != e.name)) := by
  simp only [insert, touch_owners, getElem?_owners_foldl, Std.ExtTreeMap.getElem?_filter,
    Option.pfilter_eq_filter]

theorem owner?_eq_some {symbol : String} {e : Entry} {index : IndexVector} :
    t.owner? symbol = some (e, index) ↔
      ∃ name, t.owners[symbol]? = some (name, index) ∧ t.get? name = some e := by
  unfold owner?
  cases h : t.owners[symbol]? with
  | none => simp
  | some o =>
    obtain ⟨name, i⟩ := o
    cases hget : t.get? name with
    | none => simp [hget]
    | some e' =>
      simp only [Option.bind_eq_bind, Option.bind_some, hget]
      constructor
      · rintro ⟨⟩
        exact ⟨name, rfl, hget⟩
      · rintro ⟨name', ⟨⟩, hget'⟩
        rw [hget] at hget'
        cases hget'
        rfl

theorem get?_setValue (name other : String) (value : Tensor) :
    (t.setValue name value).get? other =
      if name = other then (t.get? name).map ({ · with value, id := t.lastId + 1 })
      else t.get? other := by
  unfold setValue
  split
  · next e he =>
    simp only [get?, touch_entries, Std.ExtTreeMap.getElem?_insert,
      Std.LawfulEqCmp.compare_eq_iff_eq]
    split
    · rw [← get?, he]
      rfl
    · rfl
  · next he =>
    split
    · next h =>
      rw [← h, he]
      exact he
    · rfl

@[simp] theorem owners_setValue (name : String) (value : Tensor) :
    (t.setValue name value).owners = t.owners := by
  unfold setValue
  split <;> rfl

/-- No number is beyond the last one, and none is given to two names. -/
structure Numbered (t : Table) : Prop where
  le_lastId : ∀ {name e}, t.get? name = some e → e.id ≤ t.lastId
  injective : ∀ {name other e e'}, t.get? name = some e → t.get? other = some e' → e.id = e'.id →
    name = other

/-- A later table has no entry with an old number that is not in the older one. -/
structure Older (t u : Table) : Prop where
  lastId_le : t.lastId ≤ u.lastId
  get? : ∀ {name e}, u.get? name = some e → e.id ≤ t.lastId → t.get? name = some e

variable {t u v : Table}

theorem numbered_empty : Numbered {} where
  le_lastId h := by simp [Table.get?] at h
  injective h := by simp [Table.get?] at h

theorem Older.refl (t : Table) : Older t t :=
  ⟨Nat.le_refl _, fun h _ => h⟩

theorem Older.trans (h : Older t u) (h' : Older u v) : Older t v where
  lastId_le := Nat.le_trans h.lastId_le h'.lastId_le
  get? he hid := h.get? (h'.get? he (Nat.le_trans hid h.lastId_le)) hid

/-- One name has a new entry with the next number, or nothing but the number has changed. -/
structure Renews (t u : Table) (name : String) : Prop where
  lastId : u.lastId = t.lastId + 1
  other : ∀ {other}, other ≠ name → u.get? other = t.get? other
  self : ∀ {e}, u.get? name = some e → e.id = t.lastId + 1

theorem renews_insert (t : Table) (naming : ComponentNaming) (e : Entry) :
    Renews t (t.insert naming e) e.name where
  lastId := rfl
  other h := by rw [get?_insert, if_neg h.symm]
  self h := by
    rw [get?_insert, if_pos rfl] at h
    cases h
    rfl

theorem renews_setValue (t : Table) (name : String) (value : Tensor) :
    Renews t (t.setValue name value) name where
  lastId := by
    unfold setValue
    split <;> rfl
  other h := by rw [get?_setValue, if_neg h.symm]
  self h := by
    rw [get?_setValue, if_pos rfl] at h
    obtain ⟨_, _, rfl⟩ := Option.map_eq_some_iff.mp h
    rfl

namespace Renews

variable (h : Renews t u name)
include h

theorem eq_or_get? {e : Entry} (he : u.get? other = some e) :
    other = name ∧ e.id = t.lastId + 1 ∨ t.get? other = some e := by
  by_cases hname : other = name
  · subst hname
    exact .inl ⟨rfl, h.self he⟩
  · exact .inr ((h.other hname).symm.trans he)

theorem older : Older t u where
  lastId_le := by rw [h.lastId]; omega
  get? he hid := by
    rcases h.eq_or_get? he with ⟨_, hnew⟩ | hold
    · omega
    · exact hold

theorem numbered (ht : t.Numbered) : u.Numbered where
  le_lastId he := by
    rw [h.lastId]
    rcases h.eq_or_get? he with ⟨_, hnew⟩ | hold
    · omega
    · have := ht.le_lastId hold
      omega
  injective he he' hid := by
    rcases h.eq_or_get? he with ⟨hname, hnew⟩ | hold <;>
      rcases h.eq_or_get? he' with ⟨hname', hnew'⟩ | hold'
    · rw [hname, hname']
    · have := ht.le_lastId hold'
      omega
    · have := ht.le_lastId hold
      omega
    · exact ht.injective hold hold' hid

end Renews

end Table

/-! The table is well formed: entries stand under their names, and each symbol with an owner
is the name of a component of it. Names of partial derivatives have a spelling of their own,
so that neither they nor the symbols of their components can be mistaken for others. -/

open List String
open Option hiding filter_filter

variable {index : IndexVector} {naming : ComponentNaming} {e : Entry} {symbol : String}

def derivativeMark : List Char := ['_', 'd', 'D']

/-- A spelling that is left to partial derivatives and their components. -/
def Reserved (name : String) : Prop :=
  derivativeMark <:+: name.toList

instance (name : String) : Decidable (Reserved name) :=
  inferInstanceAs (Decidable (_ <:+: _))

theorem mem_intercalate {separator : String} {parts : List String}
    (h : c ∈ (separator.intercalate parts).toList) :
    c ∈ separator.toList ∨ ∃ part ∈ parts, c ∈ part.toList := by
  induction parts with
  | nil => simp at h
  | cons part parts ih =>
    cases parts with
    | nil => exact .inr ⟨part, mem_singleton_self _, by simpa using h⟩
    | cons next parts =>
      rw [String.intercalate_cons_cons, toList_append, toList_append, mem_append, mem_append] at h
      rcases h with (h | h) | h
      · exact .inr ⟨part, mem_cons_self, h⟩
      · exact .inl h
      · rcases ih h with h | ⟨p, hp, hc⟩
        · exact .inl h
        · exact .inr ⟨p, mem_cons_of_mem _ hp, hc⟩

section

variable (name : String) (index : IndexVector) (dimension : Nat) (naming : ComponentNaming)

theorem exists_numerals : ∃ tail : List Char, (∀ c ∈ tail, c.isDigit ∨ c = '_') ∧
      (componentName name index dimension naming).toList = name.toList ++ tail := by
  unfold componentName
  dsimp only
  refine ⟨_, fun c hc => ?_, toList_append⟩
  rcases mem_intercalate hc with hc | ⟨part, hpart, hc⟩
  · split at hc
    · simp at hc
    · exact .inr (by simpa using hc)
  · obtain ⟨k, _, rfl⟩ := List.mem_map.mp hpart
    exact .inl (isDigit_of_mem_toString hc)

theorem exists_componentName : ∃ tail : List Char, 'D' ∉ tail ∧
      (componentName name index dimension naming).toList = name.toList ++ tail := by
  obtain ⟨tail, htail, heq⟩ := exists_numerals name index dimension naming
  exact ⟨tail, fun hd => absurd (htail 'D' hd) (by decide), heq⟩

end

theorem eq_nil_of_getLast?_append {xs ys : List Char} (h : (xs ++ ys).getLast? = some c)
    (hc : c ∉ ys) : ys = [] := by
  cases ys with
  | nil => rfl
  | cons y ys =>
    rw [getLast?_append, getLast?_cons, some_or, ← getLast?_cons] at h
    exact absurd (mem_of_getLast? h) hc

theorem Reserved.componentName (h : Reserved name) (index : IndexVector) (dimension : Nat)
    (naming : ComponentNaming) : Reserved (componentName name index dimension naming) := by
  obtain ⟨tail, _, htail⟩ := exists_componentName name index dimension naming
  unfold Reserved
  rw [htail]
  exact h.trans (prefix_append _ _).isInfix

/-- The spelling of the name of a tensor of partial derivatives. -/
structure DerivativeSpelling (name : String) : Prop where
  reserved : Reserved name
  last : name.toList.getLast? = some 'D'

/-- A component of partial derivatives has its symbol in common with no other tensor, as long
as reserved names are those of partial derivatives. -/
theorem eq_of_componentName_eq (h : DerivativeSpelling name)
    (hother : Reserved other → DerivativeSpelling other) {index index' : IndexVector}
    {dimension dimension' : Nat} {naming : ComponentNaming}
    (heq : componentName name index dimension naming
      = componentName other index' dimension' naming) : name = other := by
  obtain ⟨tail, htail, hname⟩ := exists_componentName name index dimension naming
  obtain ⟨tail', htail', hname'⟩ := exists_componentName other index' dimension' naming
  have hlists : name.toList ++ tail = other.toList ++ tail' := by
    rw [← hname, ← hname', heq]
  rcases append_eq_append_iff.mp hlists with ⟨more, hmore, hrest⟩ | ⟨more, hmore, hrest⟩
  · have hmore' : 'D' ∉ more := fun hd => htail (hrest ▸ mem_append_left _ hd)
    have hspelled := hother (by
      unfold Reserved
      rw [hmore]
      exact h.reserved.trans (prefix_append _ _).isInfix)
    obtain rfl := eq_nil_of_getLast?_append (hmore ▸ hspelled.last) hmore'
    rw [append_nil] at hmore
    exact (toList_injective hmore).symm
  · have hmore' : 'D' ∉ more := fun hd => htail' (hrest ▸ mem_append_left _ hd)
    obtain rfl := eq_nil_of_getLast?_append (hmore ▸ h.last) hmore'
    rw [append_nil] at hmore
    exact toList_injective hmore

/-- What every entry that is stored satisfies. -/
structure Entry.Proper (e : Entry) : Prop where
  ordered : e.symmetry.Ordered
  spelling : e.origin = .partialDerivative → DerivativeSpelling e.name

namespace Session

theorem spelling_derivativeName (h : e.Proper) : DerivativeSpelling (derivativeName e) := by
  unfold derivativeName
  split
  · next horigin =>
    have hname := h.spelling horigin
    refine ⟨?_, by simp⟩
    unfold Reserved
    rw [toList_append]
    exact hname.reserved.trans (prefix_append _ _).isInfix
  · refine ⟨?_, by simp⟩
    unfold Reserved
    rw [toList_append]
    exact (suffix_append _ _).isInfix

theorem derivativeName_injective {e' : Entry} (h : e.Proper) (h' : e'.Proper)
    (heq : derivativeName e = derivativeName e') : e.name = e'.name := by
  have hmixed {a b : Entry} (ha : a.origin = .partialDerivative → DerivativeSpelling a.name)
      (horigin : a.origin = .partialDerivative) (heq : a.name ++ "D" = b.name ++ "_dD") : False := by
    have hlists := congrArg String.toList heq
    rw [toList_append, toList_append] at hlists
    have hcons : a.name.toList ++ ['D'] = (b.name.toList ++ ['_', 'd']) ++ ['D'] := by
      simpa using hlists
    have hname := append_cancel_right hcons
    have hlast := (ha horigin).last
    rw [hname] at hlast
    simp at hlast
  unfold derivativeName at heq
  split at heq
  · next ho =>
    split at heq
    · exact (String.append_left_inj "D").mp heq
    · exact (hmixed h.spelling ho heq).elim
  · split at heq
    · next ho => exact (hmixed h'.spelling ho heq.symm).elim
    · exact (String.append_left_inj "_dD").mp heq

end Session

namespace Table

/-- Entries stand under their names, and owned symbols are names of components. -/
structure WellFormed (t : Table) (naming : ComponentNaming) : Prop where
  key : ∀ {name e}, t.get? name = some e → e.name = name
  proper : ∀ {name e}, t.get? name = some e → e.Proper
  owned : ∀ {symbol name index}, t.owners[symbol]? = some (name, index) →
    ∃ e, t.get? name = some e ∧ index ∈ Layout.indices e.rank e.dimension ∧
      symbol = componentName name index e.dimension naming

theorem wellFormed_empty (naming : ComponentNaming) : WellFormed {} naming where
  key h := by simp [get?] at h
  proper h := by simp [get?] at h
  owned h := by simp at h

theorem componentName_nil (name : String) (dimension : Nat) (naming : ComponentNaming) :
    componentName name [] dimension naming = name := by
  simp [componentName]

theorem eq_componentName_of_mem (h : (symbol, index) ∈ e.componentSymbols naming) :
    index ∈ Layout.indices e.rank e.dimension ∧
      symbol = componentName e.name index e.dimension naming := by
  unfold Entry.componentSymbols at h
  split at h
  · next hrank =>
    obtain ⟨rfl, rfl⟩ := Prod.mk.inj (mem_singleton.mp h)
    rw [hrank]
    exact ⟨mem_singleton_self _, (componentName_nil _ _ _).symm⟩
  · split at h
    · obtain ⟨i, hi, heq⟩ := List.mem_map.mp h
      obtain ⟨rfl, rfl⟩ := Prod.mk.inj heq
      exact ⟨(mem_filter.mp hi).1, rfl⟩
    · obtain ⟨i, hi, heq⟩ := List.mem_map.mp h
      obtain ⟨rfl, rfl⟩ := Prod.mk.inj heq
      exact ⟨(mem_filter.mp hi).1, rfl⟩
    · cases h

theorem mem_of_lookup_reverse {symbols : List (String × IndexVector)}
    (h : symbols.reverse.lookup symbol = some index) : (symbol, index) ∈ symbols := by
  rw [lookup_eq_some_iff] at h
  obtain ⟨before, after, heq, _⟩ := h
  rw [← mem_reverse, heq]
  exact mem_append_right _ mem_cons_self

theorem exists_owner_insert (t : Table) (h : (symbol, index) ∈ e.componentSymbols naming) :
    ∃ i, (t.insert naming e).owners[symbol]? = some (e.name, i) := by
  have hlookup : ((e.componentSymbols naming).reverse.lookup symbol).isSome := by
    rw [lookup_isSome_iff]
    exact ⟨(symbol, index), mem_reverse.mpr h, by simp⟩
  obtain ⟨i, hi⟩ := isSome_iff_exists.mp hlookup
  rw [getElem?_owners_insert, hi]
  exact ⟨i, rfl⟩

theorem WellFormed.insert (ht : t.WellFormed naming) (he : e.Proper) :
    (t.insert naming e).WellFormed naming where
  key {name e'} h := by
    rw [get?_insert] at h
    split at h
    · cases h
      assumption
    · exact ht.key h
  proper {name e'} h := by
    rw [get?_insert] at h
    split at h
    · cases h
      exact ⟨he.ordered, he.spelling⟩
    · exact ht.proper h
  owned {symbol name index} h := by
    rw [getElem?_owners_insert] at h
    rw [get?_insert]
    rcases or_eq_some_iff.mp h with hnew | ⟨_, hold⟩
    · obtain ⟨i, hi, heq⟩ := map_eq_some_iff.mp hnew
      obtain ⟨rfl, rfl⟩ := Prod.mk.inj heq
      rw [if_pos rfl]
      exact ⟨_, rfl, eq_componentName_of_mem (mem_of_lookup_reverse hi)⟩
    · rw [filter_eq_some_iff] at hold
      have hne : e.name ≠ name := fun heq => by simp [heq] at hold
      rw [if_neg hne]
      exact ht.owned hold.1

theorem WellFormed.setValue {naming : ComponentNaming} (ht : t.WellFormed naming) (name : String)
    (value : Tensor) : (t.setValue name value).WellFormed naming where
  key {other e'} h := by
    rw [get?_setValue] at h
    split at h
    · next heq =>
      obtain ⟨e, he, rfl⟩ := map_eq_some_iff.mp h
      exact (ht.key he).trans heq
    · exact ht.key h
  proper {other e'} h := by
    rw [get?_setValue] at h
    split at h
    · obtain ⟨e, he, rfl⟩ := map_eq_some_iff.mp h
      exact ⟨(ht.proper he).ordered, (ht.proper he).spelling⟩
    · exact ht.proper h
  owned {symbol other index} h := by
    rw [owners_setValue] at h
    obtain ⟨e, he, hindex, hsymbol⟩ := ht.owned h
    rw [get?_setValue]
    split
    · next heq =>
      subst heq
      rw [he]
      exact ⟨_, rfl, hindex, hsymbol⟩
    · exact ⟨e, he, hindex, hsymbol⟩

end Table

theorem Expr.Structural.sign {P : Expr → Prop} (hP : Structural P) {e : Expr} (he : P e)
    (sign : Sign) : P (sign.apply e) := by
  cases sign with
  | plus => exact he
  | minus => exact hP.product (by simpa using ⟨hP.num _, he⟩)
  | zero => exact hP.num 0

namespace Entry

/-- All symbols in the value of an entry stand for components of its own. -/
def SelfReferring (e : Entry) (naming : ComponentNaming) : Prop :=
  ∀ c ∈ e.value.components, ∀ symbol ∈ c.symbolList,
    ∃ index, (symbol, index) ∈ e.componentSymbols naming

theorem selfReferring_symbolic (hordered : e.symmetry.Ordered)
    (horigin : e.origin = .declared ∨ e.origin = .partialDerivative)
    (hvalue : e.value = .symbolic e.name e.rank e.dimension e.symmetry naming) :
    e.SelfReferring naming := by
  intro c hc symbol hsymbol
  rw [hvalue] at hc
  unfold componentSymbols
  by_cases hrank : e.rank = 0
  · obtain rfl : c = .sym e.name := by simpa [Tensor.symbolic, Tensor.scalar, hrank] using hc
    rw [if_pos hrank]
    exact ⟨[], mem_singleton.mpr (by rw [mem_singleton.mp hsymbol])⟩
  · rw [if_neg hrank]
    rcases Tensor.mem_components_symbolic hordered hrank hc with rfl | ⟨sign, index, hindex, rfl⟩
    · cases hsymbol
    · -- a sign brings in no symbols
      obtain rfl := (Expr.structural_symbols (· = componentName e.name index e.dimension naming)).sign
        (fun _ => mem_singleton.mp) sign symbol hsymbol
      refine ⟨index, ?_⟩
      rcases horigin with horigin | horigin <;> rw [horigin] <;>
        exact List.mem_map_of_mem hindex

end Entry

/-! The order of the names of a table. When a name is moved to the end, the names that depend
on it follow. So the order can only come to contradict a reference from a name that is moved to
one that depends on it. -/

open Relation

variable {p : String → Bool}

mutual

theorem Expr.mentions_iff (e : Expr) :
    e.mentions p = true ↔ ∃ symbol ∈ e.symbolList, p symbol = true := by
  match e with
  | .num q => simp [mentions, symbolList]
  | .sym s => simp [mentions, symbolList]
  | .fn f a => simpa [mentions, symbolList] using mentions_iff a
  | .pow b e => simp [mentions, symbolList, mentions_iff b, mentions_iff e, or_and_right, exists_or]
  | .mul fs => simpa [mentions, symbolList] using anyMentions_iff fs
  | .add ts => simpa [mentions, symbolList] using anyMentions_iff ts

theorem Expr.anyMentions_iff (es : List Expr) :
    anyMentions p es = true ↔ ∃ symbol ∈ symbolLists es, p symbol = true := by
  match es with
  | [] => simp [anyMentions, symbolLists]
  | e :: es =>
    simp [anyMentions, symbolLists, mentions_iff e, anyMentions_iff es, or_and_right, exists_or]

end

namespace Table

/-- The same with references to symbols that the table records as those of a name. -/
def Follows (t : Table) : String → String → Prop :=
  TransGen fun n m => t.dependsOn [m] n

/-- Of two listed names, the one that the other one refers to comes first. -/
def Sorted (t : Table) (n m : String) : Prop :=
  n ∈ t.order → m ∈ t.order → t.dependsOn [m] n → [m, n].Sublist t.order

variable {names : List String} {n m : String}

theorem dependsOn_iff : t.dependsOn names n = true ↔
    ∃ e, t.get? n = some e ∧ ∃ c ∈ e.value.components, ∃ symbol ∈ c.symbolList,
      ∃ m ∈ names, ∃ index, t.owners[symbol]? = some (m, index) := by
  have howned (symbol : String) : t.isOwnedBy names symbol = true ↔
      ∃ m ∈ names, ∃ index, t.owners[symbol]? = some (m, index) := by
    unfold isOwnedBy
    cases t.owners[symbol]? with
    | none => simp
    | some o =>
      obtain ⟨owner, index⟩ := o
      simp only [contains_eq_mem, decide_eq_true_eq, Option.some.injEq, Prod.mk.injEq]
      constructor
      · intro h
        exact ⟨owner, h, index, rfl, rfl⟩
      · rintro ⟨m, hm, i, rfl, rfl⟩
        exact hm
  unfold dependsOn
  cases t.get? n with
  | none => simp
  | some e => simp only [Array.any_eq_true', Expr.mentions_iff, howned, Option.some.injEq, exists_eq_left']

theorem dependsOn_single : t.dependsOn names n = true ↔ ∃ m ∈ names, t.dependsOn [m] n = true := by
  simp only [dependsOn_iff, mem_singleton, exists_eq_left]
  constructor
  · rintro ⟨e, he, c, hc, symbol, hsymbol, m, hm, index, howner⟩
    exact ⟨m, hm, e, he, c, hc, symbol, hsymbol, index, howner⟩
  · rintro ⟨m, hm, e, he, c, hc, symbol, hsymbol, index, howner⟩
    exact ⟨e, he, c, hc, symbol, hsymbol, m, hm, index, howner⟩

section Closure

theorem mem_dependents : n ∈ t.dependents names ↔
    n ∈ t.order ∧ n ∉ names ∧ t.dependsOn names n = true := by
  simp [dependents]

theorem subset_dependentsClosure (names : List String) : names ⊆ t.dependentsClosure names := by
  fun_induction dependentsClosure t names with
  | case1 names h => exact List.Subset.refl _
  | case2 names h ih => exact List.Subset.trans (subset_append_left _ _) ih

theorem dependents_dependentsClosure (names : List String) :
    t.dependents (t.dependentsClosure names) = [] := by
  fun_induction dependentsClosure t names with
  | case1 names h => exact h
  | case2 names h ih => exact ih

theorem follows_of_mem_dependentsClosure (h : n ∈ t.dependentsClosure names) :
    n ∈ names ∨ ∃ m ∈ names, t.Follows n m := by
  fun_induction dependentsClosure t names with
  | case1 names hnone => exact .inl h
  | case2 names hsome ih =>
    have hmore {k : String} (hk : k ∈ t.dependents names) : ∃ m ∈ names, t.dependsOn [m] k = true :=
      dependsOn_single.mp (mem_dependents.mp hk).2.2
    rcases ih h with hn | ⟨k, hk, hfollows⟩
    · rcases mem_append.mp hn with hn | hn
      · exact .inl hn
      · obtain ⟨m, hm, hdepends⟩ := hmore hn
        exact .inr ⟨m, hm, .single hdepends⟩
    · rcases mem_append.mp hk with hk | hk
      · exact .inr ⟨k, hk, hfollows⟩
      · obtain ⟨m, hm, hdepends⟩ := hmore hk
        exact .inr ⟨m, hm, hfollows.tail hdepends⟩

theorem mem_dependentsClosure_of_dependsOn (hn : n ∈ t.order) (hdepends : t.dependsOn [m] n = true)
    (hm : m ∈ t.dependentsClosure names) : n ∈ t.dependentsClosure names := by
  by_contra hmem
  have hmore : n ∈ t.dependents (t.dependentsClosure names) :=
    mem_dependents.mpr ⟨hn, hmem, dependsOn_single.mpr ⟨m, hm, hdepends⟩⟩
  rw [dependents_dependentsClosure] at hmore
  cases hmore

end Closure

section Touch

/-- To move some elements to the end keeps the order of two that are moved or stay together, or
of which the later one is moved. -/
theorem sublist_partition (h : [m, n].Sublist l) (hp : p m = true → p n = true) (x : String) :
    [m, n].Sublist (l.filter (!p ·) ++ x :: l.filter p) := by
  have hm : m ∈ l := h.subset mem_cons_self
  have hn : n ∈ l := h.subset (mem_cons_of_mem _ mem_cons_self)
  cases hpm : p m with
  | true =>
    refine sublist_append_of_sublist_right (.cons _ ?_)
    simpa [hpm, hp hpm] using h.filter p
  | false =>
    cases hpn : p n with
    | true =>
      refine List.Sublist.append (singleton_sublist.mpr ?_)
        (.cons _ (singleton_sublist.mpr ?_))
      · exact mem_filter.mpr ⟨hm, by rw [hpm]; rfl⟩
      · exact mem_filter.mpr ⟨hn, hpn⟩
    | false =>
      refine sublist_append_of_sublist_left ?_
      simpa [hpm, hpn] using h.filter (!p ·)

theorem order_touch (t : Table) (name : String) : (t.touch name).order =
    (t.order.filter (· != name)).filter (!(t.dependentsClosure [name]).contains ·) ++
      name :: (t.order.filter (· != name)).filter ((t.dependentsClosure [name]).contains ·) :=
  rfl

theorem nodup_touch (h : t.order.Nodup) (name : String) : (t.touch name).order.Nodup := by
  have hperm : (t.touch name).order.Perm (name :: t.order.filter (· != name)) := by
    rw [order_touch]
    refine perm_middle.trans (.cons name ?_)
    exact perm_append_comm.trans (filter_append_perm _ _)
  rw [hperm.nodup_iff, nodup_cons]
  exact ⟨by simp, h.filter _⟩

/-- The order is right after a name has been moved, unless that name refers to one that depends
on it. -/
theorem sorted_touch (hne : n ≠ m) (hold : n ≠ name → m ≠ name → t.Sorted n m)
    (hcyclic : n = name → t.dependsOn [m] n = true → ¬ t.Follows m n) :
    (t.touch name).Sorted n m := by
  intro hn hm hdepends
  replace hdepends : t.dependsOn [m] n = true := hdepends
  rw [order_touch] at hn hm ⊢
  generalize hothers : t.order.filter (· != name) = others at hn hm ⊢
  have hmem {k : String} (hk : k ≠ name) (h : k ∈ others.filter
      (!(t.dependentsClosure [name]).contains ·) ++
      name :: others.filter ((t.dependentsClosure [name]).contains ·)) : k ∈ others := by
    simp only [mem_append, mem_cons, mem_filter, hk, false_or] at h
    exact h.elim (·.1) (·.1)
  have hlisted {k : String} (hk : k ∈ others) : k ∈ t.order := by
    rw [← hothers] at hk
    exact (mem_filter.mp hk).1
  have hclosure := @mem_dependentsClosure_of_dependsOn t [name] n m
  have hname : name ∈ t.dependentsClosure [name] :=
    subset_dependentsClosure [name] (mem_singleton_self _)
  by_cases hmname : m = name
  · -- what refers to the name that is moved comes with it
    subst hmname
    have hn' := hmem hne hn
    have hmoved := hclosure (hlisted hn') hdepends hname
    refine sublist_append_of_sublist_right (.cons_cons _ (singleton_sublist.mpr ?_))
    exact mem_filter.mpr ⟨hn', by simpa using hmoved⟩
  have hm' := hmem hmname hm
  by_cases hnname : n = name
  · have hstays : m ∉ t.dependentsClosure [name] := by
      intro hmoved
      rcases follows_of_mem_dependentsClosure hmoved with h | ⟨k, hk, hfollows⟩
      · exact hmname (mem_singleton.mp h)
      · rw [mem_singleton.mp hk, ← hnname] at hfollows
        exact hcyclic hnname hdepends hfollows
    subst hnname
    refine List.Sublist.append (singleton_sublist.mpr ?_) (singleton_sublist.mpr ?_)
    · exact mem_filter.mpr ⟨hm', by simpa using hstays⟩
    · exact mem_cons_self
  have hn' := hmem hnname hn
  have hsub : [m, n].Sublist others := by
    have h := (hold hnname hmname (hlisted hn') (hlisted hm') hdepends).filter (· != name)
    rw [hothers] at h
    simpa [hmname, hnname] using h
  refine sublist_partition hsub ?_ name
  simp only [contains_eq_mem, decide_eq_true_eq]
  exact hclosure (hlisted hn') hdepends

end Touch

section Update

theorem nodup_insert (h : t.order.Nodup) (e : Entry) : (t.insert naming e).order.Nodup := by
  unfold insert
  apply nodup_touch
  exact h

theorem nodup_setValue (h : t.order.Nodup) (name : String) (value : Tensor) :
    (t.setValue name value).order.Nodup := by
  unfold setValue
  split
  · apply nodup_touch
    exact h
  · exact h

end Update

theorem idxOf_lt_of_sublist {names : List String} (h : [m, n].Sublist names)
    (hnodup : names.Nodup) : names.idxOf m < names.idxOf n := by
  obtain ⟨before, after, rfl, hm, hn⟩ := cons_sublist_iff.mp h
  have hn : n ∈ after := singleton_sublist.mp hn
  have hnot : n ∉ before := fun hmem => (nodup_append.mp hnodup).2.2 n hmem n hn rfl
  rw [idxOf_append_of_mem hm, idxOf_append_of_notMem hnot]
  exact Nat.lt_add_right _ (idxOf_lt_length_iff.mpr hm)

/-! What is moved when a name is touched: the name itself and the names that reach it through
references, and nothing else. Those that stay and those that are moved keep their order. -/

/-- The value of `n` contains a symbol that is recorded as one of `m`. -/
def Uses (t : Table) (n m : String) : Prop :=
  ∃ e, t.get? n = some e ∧ ∃ c ∈ e.value.components, ∃ symbol ∈ c.symbolList,
    ∃ index, t.owners[symbol]? = some (m, index)

theorem uses_iff : t.Uses n m ↔ t.dependsOn [m] n = true := by
  simp only [Uses, dependsOn_iff, mem_singleton, exists_eq_left]

theorem follows_eq (t : Table) : t.Follows = TransGen t.Uses := by
  unfold Follows
  congr
  funext n m
  exact propext uses_iff.symm

def Owns (t : Table) (names : List String) : Prop :=
  ∃ (symbol owner : String) (index : IndexVector),
    t.owners[symbol]? = some (owner, index) ∧ owner ∈ names

/-- Rounds of gathering with no bound on their number: the names that refer to those gathered so
far are added, until none of these owns a symbol or no further name refers to them. -/
inductive Gathers (t : Table) : List String → List String → Prop
  | unowned {names : List String} (h : ¬ t.Owns names) : Gathers t names names
  | last {names : List String} (howns : t.Owns names) (h : t.dependents names = []) :
    Gathers t names names
  | next {names result : List String} (howns : t.Owns names) (hmore : t.dependents names ≠ [])
      (h : Gathers t (names ++ t.dependents names) result) : Gathers t names result

theorem owns_of_dependsOn (h : t.dependsOn names n = true) : t.Owns names := by
  obtain ⟨_, _, _, _, symbol, _, owner, howner, index, hsymbol⟩ := dependsOn_iff.mp h
  exact ⟨symbol, owner, index, hsymbol, howner⟩

theorem gathers_dependentsClosure (names : List String) :
    t.Gathers names (t.dependentsClosure names) := by
  fun_induction dependentsClosure t names with
  | case1 names hnone =>
    by_cases howns : t.Owns names
    · exact .last howns hnone
    · exact .unowned howns
  | case2 names hmore ih =>
    obtain ⟨n, hn⟩ := exists_mem_of_ne_nil _ hmore
    exact .next (owns_of_dependsOn (mem_dependents.mp hn).2.2) hmore ih

theorem mem_order_touch : n ∈ (t.touch name).order ↔ n = name ∨ n ∈ t.order := by
  rw [order_touch]
  by_cases h : n = name
  · simp [h]
  · simp only [mem_append, mem_filter, mem_cons, h, false_or, bne_iff_ne, ne_eq,
      not_false_iff, and_true]
    cases (t.dependentsClosure [name]).contains n <;> simp

section Closure

variable (hlisted : ∀ n, (t.get? n).isSome → n ∈ t.order)
include hlisted

theorem mem_order_of_uses (h : t.Uses n m) : n ∈ t.order := by
  obtain ⟨e, he, -⟩ := h
  exact hlisted n (by rw [he]; rfl)

theorem mem_dependentsClosure_iff :
    n ∈ t.dependentsClosure [name] ↔ n = name ∨ TransGen t.Uses n name := by
  have hself : name ∈ t.dependentsClosure [name] :=
    subset_dependentsClosure [name] (mem_singleton_self _)
  have hstep {n m : String} (h : t.Uses n m) (hm : m ∈ t.dependentsClosure [name]) :
      n ∈ t.dependentsClosure [name] :=
    mem_dependentsClosure_of_dependsOn (mem_order_of_uses hlisted h) (uses_iff.mp h) hm
  constructor
  · intro h
    rcases follows_of_mem_dependentsClosure h with h | ⟨m, hm, hfollows⟩
    · exact .inl (mem_singleton.mp h)
    · rw [mem_singleton.mp hm, follows_eq] at hfollows
      exact .inr hfollows
  · rintro (rfl | hchain)
    · exact hself
    · induction hchain using TransGen.head_induction_on with
      | single h => exact hstep h hself
      | head h _ ih => exact hstep h ih

open scoped Classical in
theorem touch_eq (name : String) : t.touch name = { t with
    order := (t.order.filter fun n => n ≠ name ∧ ¬ TransGen t.Uses n name) ++
      name :: t.order.filter fun n => n ≠ name ∧ TransGen t.Uses n name } := by
  have hmoved (n : String) (hn : n ≠ name) :
      (t.dependentsClosure [name]).contains n = true ↔ TransGen t.Uses n name := by
    rw [contains_eq_mem, decide_eq_true_eq, mem_dependentsClosure_iff hlisted]
    exact or_iff_right hn
  have hstay (n : String) (hn : n ≠ name) :
      (!(t.dependentsClosure [name]).contains n) = true ↔ ¬ TransGen t.Uses n name := by
    rw [← hmoved n hn, Bool.not_eq_true', Bool.not_eq_true]
  have hfilter {p : String → Bool} {q : String → Prop} [DecidablePred q]
      (h : ∀ n, n ≠ name → (p n = true ↔ q n)) :
      (t.order.filter (· != name)).filter p = t.order.filter fun n => n ≠ name ∧ q n := by
    rw [filter_filter]
    refine filter_congr fun n _ => ?_
    by_cases hn : n = name
    · simp [hn]
    · rw [Bool.eq_iff_iff]
      simp [hn, h n hn]
  unfold touch
  dsimp only
  rw [hfilter hstay, hfilter hmoved]

end Closure

theorem sublist_of_idxOf_lt (hn : n ∈ l) (h : l.idxOf m < l.idxOf n) : [m, n].Sublist l := by
  induction l with
  | nil => cases hn
  | cons x l ih =>
    have hne : x ≠ n := by
      rintro rfl
      rw [idxOf_cons_self] at h
      exact Nat.not_lt_zero _ h
    have hn := (mem_cons.mp hn).resolve_left hne.symm
    by_cases hm : x = m
    · rw [hm]
      exact .cons_cons _ (singleton_sublist.mpr hn)
    · rw [idxOf_cons_ne _ hm, idxOf_cons_ne _ hne] at h
      exact .cons _ (ih hn (Nat.lt_of_succ_lt_succ h))

open scoped Classical in
/-- To touch a name moves it to the end, followed by the names that depend on it, at whatever
remove. If before that only references of the name itself could point forward, and none of its
references is to a name that is moved with it, all references point backward afterwards. -/
theorem touch_moves_dependents (hnodup : t.order.Nodup)
    (hlisted : ∀ n, (t.get? n).isSome → n ∈ t.order) (name : String) :
    t.Gathers [name] (t.dependentsClosure [name]) ∧
    t.touch name = { t with
      order := (t.order.filter fun n => n ≠ name ∧ ¬ TransGen t.Uses n name) ++
        name :: t.order.filter fun n => n ≠ name ∧ TransGen t.Uses n name } ∧
    ((∀ n ∈ t.order, ∀ m ∈ t.order, n ≠ m → n ≠ name → t.Uses n m →
        t.order.idxOf m < t.order.idxOf n) →
      (∀ m ∈ t.order, m ≠ name → t.Uses name m → ¬ TransGen t.Uses m name) →
      ∀ n ∈ (t.touch name).order, ∀ m ∈ (t.touch name).order, n ≠ m → (t.touch name).Uses n m →
        (t.touch name).order.idxOf m < (t.touch name).order.idxOf n) := by
  refine ⟨gathers_dependentsClosure _, touch_eq hlisted name,
    fun hbackward hacyclic n hn m hm hne huses => ?_⟩
  have hsorted : (t.touch name).Sorted n m := by
    refine sorted_touch hne (fun hname _ hn hm hdepends => ?_) fun hname hdepends => ?_
    · exact sublist_of_idxOf_lt hn (hbackward n hn m hm hne hname (uses_iff.mpr hdepends))
    · subst hname
      rw [follows_eq]
      have hm := (mem_order_touch.mp hm).resolve_left hne.symm
      exact hacyclic m hm hne.symm (uses_iff.mpr hdepends)
  exact idxOf_lt_of_sublist (hsorted hn hm (uses_iff.mp huses)) (nodup_touch hnodup name)

/-- The order has the names of all entries, each of them once. -/
structure Listed (t : Table) : Prop where
  nodup : t.order.Nodup
  mem_order : ∀ name, name ∈ t.order ↔ (t.get? name).isSome

theorem listed_empty : Listed {} :=
  ⟨.nil, fun name => by simp [get?]⟩

theorem Listed.insert (h : t.Listed) (naming : ComponentNaming) (e : Entry) :
    (t.insert naming e).Listed where
  nodup := nodup_insert h.nodup e
  mem_order name := by
    have horder : name ∈ (t.insert naming e).order ↔ name = e.name ∨ name ∈ t.order :=
      mem_order_touch
    rw [horder, get?_insert, h.mem_order]
    by_cases hname : e.name = name
    · simp [hname]
    · simp [hname, Ne.symm hname]

theorem Listed.setValue (h : t.Listed) (name : String) (value : Tensor) :
    (t.setValue name value).Listed where
  nodup := nodup_setValue h.nodup name value
  mem_order other := by
    rw [get?_setValue]
    cases hget : t.get? name with
    | none =>
      have horder : (t.setValue name value).order = t.order := by
        unfold Table.setValue
        rw [hget]
      rw [horder, h.mem_order]
      by_cases hname : name = other
      · simp [← hname, hget]
      · simp [hname]
    | some e =>
      have horder : other ∈ (t.setValue name value).order ↔ other = name ∨ other ∈ t.order := by
        unfold Table.setValue
        rw [hget]
        exact mem_order_touch
      rw [horder, h.mem_order]
      by_cases hname : name = other
      · simp [hname]
      · simp [hname, Ne.symm hname]

set_option maxRecDepth 100000 in
/-- In a chain `a`, `b`, `c` of references, `b` is moved behind a name that has nothing to do with
it, and takes `c` along. -/
theorem touch_moves_dependents_chain :
    let define (t : Table) (name : String) (value : Expr) :=
      t.insert .auto { Entry.freeScalar name 3 with value := .scalar value }
    let t := define (define (define (define {} "a" (.sym "a")) "b" (.mul [.num 2, .sym "a"])) "c"
      (.sym "b")) "d" (.sym "d")
    t.Listed ∧ t.order = ["a", "b", "c", "d"] ∧ (t.touch "b").order = ["a", "d", "b", "c"] ∧
      t.Gathers ["b"] ["b", "c"] ∧
      ∀ n ∈ (t.touch "b").order, ∀ m ∈ (t.touch "b").order, n ≠ m → (t.touch "b").Uses n m →
        (t.touch "b").order.idxOf m < (t.touch "b").order.idxOf n := by
  intro define t
  have ht : t.Listed := (((listed_empty.insert _ _).insert _ _).insert _ _).insert _ _
  have hlisted (n : String) : (t.get? n).isSome → n ∈ t.order := (ht.mem_order n).mpr
  obtain ⟨hgathers, -, hbackward⟩ := touch_moves_dependents ht.nodup hlisted "b"
  have hclosure : t.dependentsClosure ["b"] = ["b", "c"] := by decide +kernel
  rw [hclosure] at hgathers
  have hapart : ∀ m ∈ t.order, m ≠ "b" → t.dependsOn [m] "b" = true → m ∉ ["b", "c"] := by
    decide +kernel
  refine ⟨ht, by decide +kernel, by decide +kernel, hgathers, hbackward ?_ ?_⟩
  · simp only [uses_iff]
    decide +kernel
  · intro m hm hne huses hchain
    have hmoved := (mem_dependentsClosure_iff hlisted).mpr (.inr hchain)
    rw [hclosure] at hmoved
    exact hapart m hm hne (uses_iff.mp huses) hmoved

end Table

end TensorCalculus
