import Std.Data.ExtTreeMap
import TensorCalculus.Formula.Basic
import TensorCalculus.Tensor.Matrix

/-! What is known of one name. -/
namespace TensorCalculus

inductive Origin where
  /-- By a directive, or as a scalar that was used. -/
  | declared
  /-- By an equation, or from a metric. -/
  | computed
  /-- As the partial derivatives of another entry. -/
  | partialDerivative
  /-- As the covariant derivatives of another entry. -/
  | covariantDerivative (mark : Diacritic)
deriving DecidableEq, Repr, Inhabited

structure Entry where
  name : String
  /-- The name without the letters of its heights. -/
  base : String
  heights : List Height
  dimension : Nat
  symmetry : Symmetry
  value : Tensor
  origin : Origin
  /-- A number that changes with the value. -/
  id : Nat := 0
  /-- The number of what the value was computed from. -/
  source : Option Nat := none
deriving DecidableEq, Inhabited

namespace Entry

def rank (e : Entry) : Nat :=
  e.heights.length

def freeScalar (name : String) (dimension : Nat) : Entry where
  name := name
  base := name
  heights := []
  dimension := dimension
  symmetry := .none
  value := .scalar (.sym name)
  origin := .declared

/-- The symbols that stand for components of the entry, with the indices of those
components. A computed tensor has none. -/
def componentSymbols (e : Entry) (naming : ComponentNaming) : List (String × IndexVector) :=
  if e.rank = 0 then [(e.name, [])]
  else
    match e.origin with
    | .declared | .partialDerivative =>
      (e.symmetry.distinctIndices e.rank e.dimension).map fun index =>
        (componentName e.name index e.dimension naming, index)
    | _ => []

end Entry

/-! The table of known names. Beside the entries it records which component symbol belongs
to which entry, and it keeps the names in an order in which a name comes after those its
value refers to. -/

structure Table where
  entries : Std.ExtTreeMap String Entry := ∅
  /-- The names, by last change and dependency. -/
  order : List String := []
  /-- The entry and component that a symbol stands for. -/
  owners : Std.ExtTreeMap String (String × IndexVector) := ∅
  lastId : Nat := 0

namespace Table

def empty : Table := {}

def get? (t : Table) (name : String) : Option Entry :=
  t.entries[name]?

def contains (t : Table) (name : String) : Bool :=
  (t.get? name).isSome

def listed (t : Table) : List Entry :=
  t.order.filterMap t.get?

/-- Whether a symbol is the one of some tensor with indices. -/
def isTensorBase (t : Table) (base : String) : Bool :=
  t.listed.any fun e => 0 < e.rank && e.base == base

/-- The entry and the component that a symbol stands for. -/
def owner? (t : Table) (symbol : String) : Option (Entry × IndexVector) := do
  let (name, index) ← t.owners[symbol]?
  let e ← t.get? name
  return (e, index)

def isOwnedBy (t : Table) (names : List String) (symbol : String) : Bool :=
  match t.owners[symbol]? with
  | some (name, _) => names.contains name
  | none => false

/-- Whether the value of a name refers to a component of one of some names. -/
def dependsOn (t : Table) (names : List String) (name : String) : Bool :=
  match t.get? name with
  | some e => e.value.components.any (·.mentions (t.isOwnedBy names))
  | none => false

def dependents (t : Table) (names : List String) : List String :=
  t.order.filter fun n => !names.contains n && t.dependsOn names n

theorem unseen_lt {order names more : List String} (h : more ≠ [])
    (sub : ∀ n ∈ more, n ∈ order ∧ n ∉ names) :
    (order.filter fun n => !(names ++ more).contains n).length
      < (order.filter fun n => !names.contains n).length := by
  obtain ⟨n, hn⟩ := List.exists_mem_of_ne_nil more h
  have split : (order.filter fun n => !(names ++ more).contains n)
      = (order.filter fun n => !names.contains n).filter fun n => !more.contains n := by
    rw [List.filter_filter]
    congr 1
    funext m
    simp [Bool.and_comm]
  rw [split]
  apply List.length_filter_lt_length_iff_exists.mpr
  refine ⟨n, ?_, by simp [hn]⟩
  simp [(sub n hn).1, (sub n hn).2]

/-- The names and all that depend on them, at whatever remove. -/
def dependentsClosure (t : Table) (names : List String) : List String :=
  if _h : t.dependents names = [] then names
  else t.dependentsClosure (names ++ t.dependents names)
termination_by (t.order.filter fun n => !names.contains n).length
decreasing_by
  apply unseen_lt ‹_›
  intro n hn
  simp only [dependents, List.mem_filter, Bool.and_eq_true, Bool.not_eq_true',
    List.contains_eq_mem, decide_eq_false_iff_not] at hn
  exact ⟨hn.1, hn.2.1⟩

/-- Move a name to the end of the order, followed by the names that depend on it. -/
def touch (t : Table) (name : String) : Table :=
  let moved := t.dependentsClosure [name]
  let others := t.order.filter (· != name)
  { t with
    order := others.filter (!moved.contains ·) ++ name :: others.filter (moved.contains ·) }

/-- Record an entry under its name, with a new number. -/
def insert (t : Table) (naming : ComponentNaming) (e : Entry) : Table :=
  let newId := t.lastId + 1
  let kept := t.owners.filter fun _ (owner, _) => owner != e.name
  let owners := (e.componentSymbols naming).foldl
    (fun owners (symbol, index) => owners.insert symbol (e.name, index)) kept
  let entries := t.entries.insert e.name { e with id := newId }
  touch { t with entries, owners, lastId := newId } e.name

/-- Replace the value of a name, which then has a new number. -/
def setValue (t : Table) (name : String) (value : Tensor) : Table :=
  let newId := t.lastId + 1
  match t.get? name with
  | some e =>
    let entries := t.entries.insert name { e with value, id := newId }
    touch { t with entries, lastId := newId } name
  | none => { t with lastId := newId }

def setSymmetry (t : Table) (name : String) (symmetry : Symmetry) : Table :=
  match t.get? name with
  | some e => { t with entries := t.entries.insert name { e with symmetry } }
  | none => t

end Table

end TensorCalculus
