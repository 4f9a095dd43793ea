import Mathlib
import TensorCalculus.Proofs.Formula.Moved
import TensorCalculus.Proofs.Formula.Spelled

/-! Formulas whose text is read back with the same value. A text can fail to be read back for five
reasons: a sum is subtracted without brackets, a negative factor follows another factor, an
exponent reads as the script of its base, the base `e` reads as that of an exponential, or a
superscript without a name reads as an exponent. -/
namespace TensorCalculus

open Token Diacritic List

variable {fs : List Formula} {isTensor : String → Bool} {q : Number} {f : Formula}
  {F : List Token → Prop} {ts : List Formula} {x : Formula}

namespace Formula

mutual

/-- Every name is a letter or a Greek letter with at most one mark, or stands for π. -/
def hasSimpleNames : Formula → Bool
  | num _ => true
  | sym s => s == "pi" || isSimple s
  | tensor t => isSimple t.base && t.indices.all (·.isSimple)
  | derivative _ i operand _ _ => i.isSimple && operand.hasSimpleNames
  | sum ts => haveSimpleNames ts
  | product fs => haveSimpleNames fs
  | power b e => b.hasSimpleNames && e.hasSimpleNames
  | fn _ a => a.hasSimpleNames
  | contraction _ _ body => body.hasSimpleNames

def haveSimpleNames : List Formula → Bool
  | [] => true
  | f :: fs => f.hasSimpleNames && haveSimpleNames fs

end

mutual

/-- Whether the text is a list of digits and letters, which a script can be. -/
def indexLike : Formula → Bool
  | num q => q.isInteger && 0 ≤ q
  | sym s => markable s
  | product fs => allIndexLike fs
  | _ => false

def allIndexLike : List Formula → Bool
  | [] => true
  | f :: fs => f.indexLike && allIndexLike fs

end

mutual

def namesIndex : Formula → Bool
  | sym s => markable s
  | product fs => anyNamesIndex fs
  | _ => false

def anyNamesIndex : List Formula → Bool
  | [] => false
  | f :: fs => f.namesIndex || anyNamesIndex fs

end

def leadsWithMinus : Formula → Bool
  | num q => q.isInteger && q < 0
  | product (f :: _) => f.leadsWithMinus
  | _ => false

def isSum : Formula → Bool
  | sum _ => true
  | _ => false

def isNegatedSum : Formula → Bool
  | product [f, g] => f.isMinusOne && g.isSum
  | _ => false

def writtenFactors : List Formula → List Formula
  | f :: g :: fs => if f.isMinusOne then g :: fs else f :: g :: fs
  | fs => fs

/-- Whether the exponent, or `e` with any exponent, is read as part of the base. -/
def takesExponent (isTensor : String → Bool) (base exponent : Formula) : Bool :=
  match base with
  | sym s => s != "pi" && (s == "e" && !isTensor s ||
      exponent.indexLike && (isTensor s || exponent.namesIndex))
  | tensor t => exponent.indexLike && (isTensor t.base || exponent.namesIndex)
  | _ => false

/-- Whether the superscripts are read as such. -/
def keepsScripts (isTensor : String → Bool) (t : TensorRef) : Bool :=
  isTensor t.base ||
    !(t.base == "e" && t.indices.head?.map (·.height) == some .upper) &&
    (scripts t.indices).all fun r => r.1 == .lower || r.2.any (·.name?.isSome)

mutual

/-- Whether the text has the brackets it needs to be read back. -/
def readsBack (isTensor : String → Bool) : Formula → Bool
  | num _ | sym _ => true
  | tensor t => keepsScripts isTensor t
  | derivative _ _ operand _ _ => operand.readsBack isTensor
  | sum ts => allReadBack isTensor ts && ts.all (!·.isNegatedSum)
  | product fs => allReadBack isTensor fs && (writtenFactors fs).tail.all (!·.leadsWithMinus)
  | power b e => b.readsBack isTensor && e.readsBack isTensor && !takesExponent isTensor b e
  | fn _ a => a.readsBack isTensor
  | contraction _ _ body => body.readsBack isTensor

def allReadBack (isTensor : String → Bool) : List Formula → Bool
  | [] => true
  | f :: fs => f.readsBack isTensor && allReadBack isTensor fs

end

theorem haveSimpleNames_iff : haveSimpleNames fs ↔ ∀ f ∈ fs, f.hasSimpleNames := by
  induction fs with
  | nil => simp [haveSimpleNames]
  | cons f fs ih => rw [haveSimpleNames, Bool.and_eq_true, ih, forall_mem_cons]

theorem allReadBack_iff : allReadBack isTensor fs ↔ ∀ f ∈ fs, f.readsBack isTensor := by
  induction fs with
  | nil => simp [allReadBack]
  | cons f fs ih => rw [allReadBack, Bool.and_eq_true, ih, forall_mem_cons]

variable {K : Type*} [Field K] (M : Meaning K) (ρ : String → Nat) (g : Grammar)

/-- The text is read as a sum of the value `v`. -/
def SumText (s : String) (like named : Bool) (v : K) : Prop :=
  ∃ ks, Spelled s like named ks ∧ Leads ks ∧ Sum M ρ g ks v

/-- The text is read as a product, and begins with no minus sign unless it is signed. -/
def ProductText (signed : Bool) (s : String) (like named : Bool) (v : K) : Prop :=
  ∃ ks, Spelled s like named ks ∧ Leads ks ∧ (signed = false → Opens ks) ∧ Product M ρ g ks v

def PrimaryText (s : String) (like named : Bool) (v : K) : Prop :=
  ∃ ks, Spelled s like named ks ∧ Opens ks ∧ Primary M ρ g ks v

/-- The text is read as the base of a power, if `F` holds of the exponent. -/
def AtomText (F : List Token → Prop) (s : String) (like named : Bool) (v : K) : Prop :=
  ∃ ks, Spelled s like named ks ∧ Opens ks ∧ Atom M ρ g F ks v

/-- What the texts of a formula are read as: by itself, as a factor, after a minus sign and after
the sign of a derivative. -/
structure Rereads (f : Formula) : Prop where
  sum : SumText M ρ g f.text f.indexLike f.namesIndex (f.value M ρ)
  product : f.isSum = false →
    ProductText M ρ g f.leadsWithMinus f.text f.indexLike f.namesIndex (f.value M ρ)
  negated : f.isNegativeTerm → f.isNegatedSum = false →
    ∃ like named, ProductText M ρ g true f.texts.2 like named (-f.value M ρ)
  operand : ∃ like named, PrimaryText M ρ g (operandText f f.text) like named (f.value M ρ)

variable {M ρ g} {s t : String} {v w : K} {l n l' n' signed : Bool} {ks ls : List TokenKind}

theorem Leads.append (h : Leads ks) (ls : List TokenKind) : Leads (ks ++ ls) := by
  obtain ⟨k, ks', rfl, hk⟩ := h
  exact ⟨k, ks' ++ ls, rfl, hk⟩

theorem Opens.append (h : Opens ks) (ls : List TokenKind) : Opens (ks ++ ls) := by
  obtain ⟨k, ks', rfl, hk⟩ := h
  exact ⟨k, ks' ++ ls, rfl, hk⟩

theorem ProductText.sum (h : ProductText M ρ g signed s l n v) : SumText M ρ g s l n v := by
  obtain ⟨ks, hs, hk, -, hproduct⟩ := h
  exact ⟨ks, hs, hk, hproduct.sum⟩

theorem ProductText.weaken (h : ProductText M ρ g signed s l n v) : ProductText M ρ g true s l n v := by
  obtain ⟨ks, hs, hk, -, hproduct⟩ := h
  exact ⟨ks, hs, hk, by simp, hproduct⟩

theorem PrimaryText.product (h : PrimaryText M ρ g s l n v) (signed : Bool) :
    ProductText M ρ g signed s l n v := by
  obtain ⟨ks, hs, hk, hprimary⟩ := h
  exact ⟨ks, hs, hk.leads, fun _ => hk, hprimary.product hk⟩

theorem AtomText.primary (h : AtomText M ρ g F s l n v) (hF : ∀ rest, Closed rest → F rest) :
    PrimaryText M ρ g s l n v := by
  obtain ⟨ks, hs, hk, hatom⟩ := h
  exact ⟨ks, hs, hk, (hatom.mono hF).primary⟩

theorem SumText.parens (h : SumText M ρ g s l n v) (n' : Bool) :
    AtomText M ρ g (fun _ => True) ("(" ++ s ++ ")") false n' v := by
  obtain ⟨ks, hs, hk, hsum⟩ := h
  exact ⟨_, hs.parens n', ⟨_, _, rfl, rfl⟩, (hsum.expression hk).parens⟩

theorem ProductText.neg (h : ProductText M ρ g signed s l n v) (n' : Bool) :
    ProductText M ρ g true ("-" ++ s) false n' (-v) := by
  obtain ⟨ks, hs, -, -, hproduct⟩ := h
  exact ⟨_, hs.neg n', ⟨_, _, rfl, .inr rfl⟩, by simp, hproduct.neg⟩

theorem ProductText.mul (h : ProductText M ρ g signed s l n v)
    (h' : ProductText M ρ g false t l' n' w) :
    ProductText M ρ g signed (s ++ " " ++ t) (l && l') (n || n') (v * w) := by
  obtain ⟨ks, hs, hk, hopens, hproduct⟩ := h
  obtain ⟨ls, ht, -, hl, hproduct'⟩ := h'
  exact ⟨ks ++ ls, hs.spaced ht, hk.append ls, fun hsigned => (hopens hsigned).append ls,
    hproduct.mul hproduct' (hl rfl)⟩

section

variable (h : SumText M ρ g s l n v)
include h

theorem SumText.add (h' : SumText M ρ g t l' n' w) :
    SumText M ρ g (s ++ (" + " ++ t)) false false (v + w) := by
  obtain ⟨ks, hs, hk, hsum⟩ := h
  obtain ⟨ls, ht, -, hsum'⟩ := h'
  have hplus : Spelled ("+" ++ (" " ++ t)) false false (.plus :: ls) :=
    ht.after_blank.after_mark (c := '+') rfl rfl rfl (by simp) false
  refine ⟨_, ?_, hk.append _, hsum.add hsum'⟩
  have hspelled := hs.append hplus.after_blank (apart_blank _)
  rw [Bool.and_false] at hspelled
  exact hspelled.unlike false

theorem SumText.sub (h' : ProductText M ρ g signed t l' n' w) :
    SumText M ρ g (s ++ (" - " ++ t)) false false (v - w) := by
  obtain ⟨ks, hs, hk, hsum⟩ := h
  obtain ⟨ls, ht, -, -, hproduct⟩ := h'
  have hminus : Spelled ("-" ++ (" " ++ t)) false false (.minus :: ls) := ht.after_blank.neg false
  refine ⟨_, ?_, hk.append _, hsum.sub hproduct⟩
  have hspelled := hs.append hminus.after_blank (apart_blank _)
  rw [Bool.and_false] at hspelled
  exact hspelled.unlike false

theorem SumText.function (f : Func) :
    PrimaryText M ρ g ("\\" ++ Command.ofFunction f ++ "(" ++ s ++ ")") false false (M.fn f v) := by
  obtain ⟨ks, hs, hk, hsum⟩ := h
  have hcommand : Spelled ("\\" ++ Command.ofFunction f) false false
      [.command (Command.ofFunction f)] := by
    cases f <;> exact spelled_command (by decide)
  have hspelled := hcommand.append (hs.parens false) (apart_parens s)
  refine ⟨_, ?_, ⟨_, _, rfl, by cases f <;> decide⟩,
    ((hsum.expression hk).function f |>.mono fun _ _ => trivial).primary⟩
  have htext : "\\" ++ Command.ofFunction f ++ "(" ++ s ++ ")" =
      "\\" ++ Command.ofFunction f ++ ("(" ++ s ++ ")") := by simp only [String.append_assoc]
  rw [htext]
  exact hspelled

end

theorem stops_exponent (h : Classed l n ls) {isTensor : Bool} (hl : (l && (isTensor || n)) = false)
    {mid rest : List Token} (hmid : Begins mid (.superscript :: braces ls) rest) :
    Stops g isTensor mid := by
  obtain ⟨t, _, rfl, ht, u, us, rfl, hu, hus⟩ := hmid
  obtain ⟨_, hmid, x, xs, rfl, hx, rfl⟩ := begins_append.mp hus
  have hgroup : Script.classify (u :: us) = if l then (true, n) else (false, false) := by
    rw [Script.classify, hu]
    dsimp only
    rw [h us _ false hmid, Bool.false_or, Script.classifyGroup, hx]
  intro last
  refine ⟨Cursor.stay ⟨t :: u :: us, last⟩, ?_, rfl⟩
  rw [Script.readAll, skipSeparator_of_ne]
  · dsimp only [Cursor.stay]
    rw [next?_cons]
    dsimp only
    rw [ht]
    dsimp only
    rw [hgroup]
    cases l with
    | false => rfl
    | true =>
      rw [Bool.true_and] at hl
      rw [if_pos rfl]
      dsimp only
      rw [if_neg (by simpa using hl)]
      rfl
  · intro x hx
    cases hx
    simp [ht]

theorem AtomText.power (h : AtomText M ρ g F s l n v) (h' : SumText M ρ g t l' n' w)
    (hF : ∀ ls mid rest, Classed l' n' ls → Begins mid (.superscript :: braces ls) rest → F mid) :
    PrimaryText M ρ g (s ++ "^" ++ braced t) false false (M.pow v w) := by
  obtain ⟨ks, hs, hk, hatom⟩ := h
  obtain ⟨ls, ht, hl, hsum⟩ := h'
  have hexponent : Spelled ("^" ++ braced t) false false (.superscript :: braces ls) :=
    (ht.braced false).after_mark (c := '^') rfl rfl rfl (by simp) false
  have hspelled := hs.append hexponent (apart_of_mark (c := '^') rfl rfl _)
  rw [Bool.and_false] at hspelled
  refine ⟨_, ?_, hk.append _, hatom.power (hsum.expression hl) hl fun mid rest hmid =>
    hF ls mid rest ht.classed hmid⟩
  rw [String.append_assoc]
  exact hspelled.unlike false

theorem classed_number (m : Nat) : Classed true false [.number (toString m)] := by
  intro ts rest seen hts
  obtain ⟨t, us, rfl, ht, rfl⟩ := hts
  have hall : (toString m).toList.all Char.isDigit :=
    all_eq_true.mpr fun c hc => isDigit_of_mem_toString hc
  rw [Script.classifyGroup, ht]
  dsimp only
  rw [if_pos hall, Bool.or_false]
  rfl

theorem atomText_nat {m : Nat} (hm : m ≤ 9223372036854775807) :
    AtomText M ρ g (fun _ => True) (toString m) true false (m : K) :=
  ⟨_, ⟨spells_nat m, balanced_singleton (by simp) (by simp), classed_number m⟩, ⟨_, _, rfl, rfl⟩,
    atom_number hm⟩

theorem productText_int {z : Int} (hz : z.natAbs ≤ 9223372036854775807) :
    ProductText M ρ g (z < 0) (toString z) (0 ≤ z) false (z : K) := by
  cases z with
  | ofNat m =>
    have h := (atomText_nat (M := M) (ρ := ρ) (g := g) (m := m) hz).primary fun _ _ => trivial
    have hsigned : decide (Int.ofNat m < 0) = false := by simp
    have hlike : decide (0 ≤ Int.ofNat m) = true := by simp
    rw [hsigned, hlike, Int.ofNat_eq_natCast, Int.cast_natCast]
    exact h.product false
  | negSucc m =>
    have h := (atomText_nat (M := M) (ρ := ρ) (g := g) (m := m + 1) hz).primary fun _ _ => trivial
    have hsigned : decide (Int.negSucc m < 0) = true := by simp [Int.negSucc_lt_zero]
    have hlike : decide (0 ≤ Int.negSucc m) = false := by simp
    rw [hsigned, hlike, Int.cast_negSucc]
    exact (h.product false).neg false

theorem primaryText_frac (h : SumText M ρ g s l n v) (h' : SumText M ρ g t l' n' w) :
    PrimaryText M ρ g ("\\frac" ++ braced s ++ braced t) false false (v / w) := by
  obtain ⟨ks, hs, hk, hsum⟩ := h
  obtain ⟨ls, ht, hl, hsum'⟩ := h'
  have hcommand : Spelled "\\frac" false false [.command "frac"] :=
    spelled_command (show Command.isKnown "frac" by decide)
  have hspelled := (hcommand.append (hs.braced false) (apart_braced s)).append (ht.braced false)
    (apart_braced t)
  have hatom := (hsum.expression hk).frac hk (hsum'.expression hl) hl
  exact ⟨_, hspelled, ⟨_, _, rfl, rfl⟩, (hatom.mono fun _ _ => trivial).primary⟩

theorem productText_number (h : q.Written) :
    ProductText M ρ g (q.isInteger && q < 0) (numberText q) (q.isInteger && 0 ≤ q) false (q : K) := by
  have hnum := productText_int (M := M) (ρ := ρ) (g := g) h.1
  unfold numberText
  cases hq : q.isInteger with
  | true =>
    rw [if_pos rfl]
    have hint : (q : K) = (q.num : K) := by
      rw [Rat.cast_def, beq_iff_eq.mp hq, Nat.cast_one, div_one]
    have hneg : decide (q < 0) = decide (q.num < 0) := by simp [Rat.num_neg]
    have hnonneg : decide (0 ≤ q) = decide (0 ≤ q.num) := by simp [Rat.num_nonneg]
    rw [Bool.true_and, Bool.true_and, hint, hneg, hnonneg]
    exact hnum
  | false =>
    have hden := (atomText_nat (M := M) (ρ := ρ) (g := g) h.2).primary fun _ _ => trivial
    rw [if_neg (by simp), Rat.cast_def]
    exact (primaryText_frac hnum.sum (hden.product false).sum).product _

theorem atomText_natural (h : q.Written) (hq : q.isInteger) (hnonneg : 0 ≤ q) :
    AtomText M ρ g (fun _ => True) (numberText q) true false (q : K) := by
  obtain ⟨m, hm⟩ := Int.eq_ofNat_of_zero_le (Rat.num_nonneg.mpr hnonneg)
  have hsize := h.1
  rw [hm, Int.natAbs_natCast] at hsize
  rw [numberText, if_pos hq, Rat.cast_def, beq_iff_eq.mp hq, hm, Nat.cast_one, div_one,
    Int.cast_natCast]
  exact atomText_nat hsize

theorem PrimaryText.rereads (h : PrimaryText M ρ g f.text f.indexLike f.namesIndex (f.value M ρ))
    (hf : f.isNegativeTerm = false) : Rereads M ρ g f where
  sum := (h.product false).sum
  product _ := h.product _
  negated hneg := by simp [hf] at hneg
  operand := by
    unfold operandText
    split
    · exact ⟨_, _, h⟩
    · exact ⟨_, _, h⟩
    · exact ⟨_, _, h⟩
    · exact ⟨_, _, ((h.product false).sum.parens false).primary fun _ _ => trivial⟩

theorem written_neg (h : q.Written) : Number.Written (-q) := by
  simpa [Number.Written] using h

theorem rereads_num (h : q.Written) : Rereads M ρ g (num q) where
  sum := (productText_number h).sum
  product _ := productText_number h
  negated _ _ := by
    rw [value, ← Rat.cast_neg]
    exact ⟨_, _, (productText_number (written_neg h)).weaken⟩
  operand := ⟨_, _, ((productText_number h).sum.parens false).primary fun _ _ => trivial⟩

abbrev EndsName (g : Grammar) (base : String) (rest : List Token) : Prop :=
  Stops g (g.isTensor base) rest ∧
    ((∃ t us, rest = t :: us ∧ t.kind = .superscript) → ¬(base = "e" ∧ !g.isTensor base))

theorem Closed.endsName {rest : List Token} (h : Closed rest) (base : String) : EndsName g base rest := by
  refine ⟨h.stops _, ?_⟩
  rintro ⟨t, us, rfl, ht⟩
  exact absurd ht (h t rfl).1

theorem atomText_pi : AtomText M ρ g (fun _ => True) (nameText "pi") false false (M.scalar "pi") :=
  ⟨_, spelled_command (show Command.isKnown "pi" by decide), ⟨_, _, rfl, rfl⟩, atom_pi⟩

theorem atomText_sym (h : isSimple s) :
    AtomText M ρ g (EndsName g s) (nameText s) (markable s) (markable s) (M.scalar s) := by
  obtain ⟨ks, hname, hk, hspelled⟩ := exists_namePhrase h
  exact ⟨ks, hspelled, hk, hname.sym⟩

theorem rereads_sym (h : (sym s).hasSimpleNames) : Rereads M ρ g (sym s) := by
  refine PrimaryText.rereads ?_ rfl
  rw [hasSimpleNames, Bool.or_eq_true, beq_iff_eq] at h
  obtain rfl | h := h
  · exact atomText_pi.primary fun _ _ => trivial
  · exact (atomText_sym h).primary fun _ hrest => hrest.endsName s

theorem exists_tensorPhrase {t : TensorRef} (hne : t.indices ≠ []) (hbase : isSimple t.base)
    (hindices : ∀ i ∈ t.indices, i.Written ∧ i.isSimple) :
    ∃ ks ls, NamePhrase ks t.base ∧ ScriptsPhrase 0 (scripts t.indices) ls ∧ Opens (ks ++ ls) ∧
      Spelled t.text false false (ks ++ ls) := by
  obtain ⟨ks, hname, hk, hspelled⟩ := exists_namePhrase hbase
  have hruns : ∀ r ∈ scripts t.indices, ∀ i ∈ r.2, i.height = r.1 ∧ i.Written ∧ i.isSimple :=
    fun r hr i hi => ⟨height_of_mem_scripts r hr i hi, hindices i (mem_of_mem_scripts hr hi)⟩
  obtain ⟨ls, hls, hapart, hscripts⟩ := exists_scriptsPhrase hruns 0
  have hempty : (scripts t.indices).isEmpty = false := by
    rw [isEmpty_eq_false_iff]
    intro hnil
    apply hne
    rw [← flatMap_scripts t.indices, hnil]
    rfl
  have htext := hspelled.append hscripts hapart
  rw [hempty, Bool.and_false] at htext
  exact ⟨ks, ls, hname, hls, hk.append ls, htext.unlike false⟩

section

variable {t : TensorRef} (h : t.Written) (hnames : (tensor t).hasSimpleNames)
  (hkeeps : keepsScripts g.isTensor t)
include h hnames hkeeps

theorem atomText_tensor :
    AtomText M ρ g (Stops g (g.isTensor t.base)) t.text false false ((tensor t).value M ρ) := by
  obtain ⟨hne, hbase, hwritten⟩ := h
  rw [hasSimpleNames, Bool.and_eq_true, all_eq_true] at hnames
  obtain ⟨ks, ls, hname, hls, hk, hspelled⟩ :=
    exists_tensorPhrase hne hnames.1 fun i hi => ⟨hwritten i hi, hnames.2 i hi⟩
  refine ⟨ks ++ ls, hspelled, hk, ?_⟩
  have hvalue : (tensor t).value M ρ =
      M.component (TensorRef.ofBase t.base ((scripts t.indices).flatMap (·.2)) .none).head
        (((scripts t.indices).flatMap (·.2)).map (indexAt ρ)) := by
    rw [value, flatMap_scripts, hbase]
    rfl
  rw [hvalue]
  rw [keepsScripts, Bool.or_eq_true] at hkeeps
  refine hname.tensor hls (by rwa [flatMap_scripts]) ?_ ?_
  · intro r hr hupper
    obtain htensor | hkeeps := hkeeps
    · rw [htensor, Bool.true_or]
    · rw [Bool.and_eq_true, all_eq_true] at hkeeps
      have := hkeeps.2 r hr
      rw [hupper] at this
      rw [Bool.or_eq_true]
      exact .inr (by simpa using this)
  · rw [head?_scripts]
    rintro hupper ⟨he, htensor⟩
    obtain htensor' | hkeeps := hkeeps
    · simp [htensor'] at htensor
    · simp [he, hupper] at hkeeps

theorem rereads_tensor : Rereads M ρ g (tensor t) := by
  refine PrimaryText.rereads ?_ rfl
  exact (atomText_tensor h hnames hkeeps).primary fun _ hrest => hrest.stops _

end

theorem Rereads.derivative {kind : DerivativeKind} {i : Index} (h : Rereads M ρ g f)
    (hwritten : i.Written) (hsimple : i.isSimple) (dimension : Option Nat) (span : Span) :
    Rereads M ρ g (derivative kind i f dimension span) := by
  obtain ⟨ks, hoperator, hk, hkind⟩ := exists_operatorPhrase kind
  have hrun : ∀ j ∈ [i], j.height = i.height ∧ j.Written ∧ j.isSimple := by
    simpa using ⟨hwritten, hsimple⟩
  obtain ⟨js, hjs, hscript⟩ := exists_script hrun
  obtain - | ⟨hj, ⟨⟩⟩ := hjs
  obtain ⟨like, named, ls, hs, -, hprimary⟩ := h.operand
  refine PrimaryText.rereads ⟨_, ?_, hk.append _, (hoperator.derivative hj hprimary).primary⟩ rfl
  have htext := (hkind.append hscript (apart_scriptText i.height [i])).spaced hs
  rw [append_assoc] at htext
  exact htext.unlike false

theorem Rereads.fn (h : Rereads M ρ g f) (function : Func) : Rereads M ρ g (fn function f) :=
  PrimaryText.rereads (h.sum.function function) rfl

theorem AtomText.power_true {b e : Formula} (h : AtomText M ρ g (fun _ => True) s l n (b.value M ρ))
    (he : Rereads M ρ g e) :
    PrimaryText M ρ g (s ++ "^" ++ braced e.text) false false ((Formula.power b e).value M ρ) :=
  h.power he.sum fun _ _ _ _ _ => trivial

theorem Rereads.power {b e : Formula} (hb : Rereads M ρ g b) (he : Rereads M ρ g e)
    (hwritten : b.Written) (hnames : b.hasSimpleNames) (hreads : b.readsBack g.isTensor)
    (htakes : takesExponent g.isTensor b e = false) : Rereads M ρ g (power b e) := by
  refine PrimaryText.rereads ?_ rfl
  change PrimaryText M ρ g (powerText b b.text e.text) false false _
  unfold powerText
  cases b with
  | num q =>
    dsimp only
    split
    · next hbare =>
      rw [Bool.and_eq_true, decide_eq_true_eq] at hbare
      exact (atomText_natural hwritten hbare.1 hbare.2).power_true (b := num q) he
    · exact (hb.sum.parens false).power_true he
  | sym s =>
    rw [hasSimpleNames, Bool.or_eq_true, beq_iff_eq] at hnames
    by_cases hpi : s = "pi"
    · subst hpi
      exact atomText_pi.power_true (b := sym "pi") he
    · have hsimple := hnames.resolve_left hpi
      simp only [takesExponent, bne_iff_ne.mpr hpi, Bool.true_and, Bool.or_eq_false_iff] at htakes
      refine (atomText_sym hsimple).power he.sum fun ls mid rest hclassed hmid =>
        ⟨stops_exponent hclassed htakes.2 hmid, fun _ hexp => ?_⟩
      have hno := htakes.1
      rw [hexp.2, Bool.and_true, beq_eq_false_iff_ne] at hno
      exact hno hexp.1
  | tensor t =>
    exact (atomText_tensor hwritten hnames hreads).power he.sum fun ls mid rest hclassed hmid =>
      stops_exponent hclassed htakes hmid
  | _ => exact (hb.sum.parens false).power_true he

theorem Rereads.factor (h : Rereads M ρ g f) (seen : Bool) (rest : List (Formula × String)) :
    ∃ text, factorTexts seen ((f, f.text) :: rest) = text :: factorTexts (seen || !f.isNumber) rest ∧
      ProductText M ρ g f.leadsWithMinus text f.indexLike f.namesIndex (f.value M ρ) := by
  refine ⟨_, rfl, ?_⟩
  have hparens : f.indexLike = false → ProductText M ρ g f.leadsWithMinus ("(" ++ f.text ++ ")")
      f.indexLike f.namesIndex (f.value M ρ) := by
    intro hlike
    rw [hlike]
    exact ((h.sum.parens _).primary fun _ _ => trivial).product _
  cases f with
  | sum ts => exact hparens rfl
  | tensor t =>
    cases seen with
    | false => exact h.product rfl
    | true => exact hparens rfl
  | derivative kind i operand dimension span =>
    cases seen with
    | false => exact h.product rfl
    | true => exact hparens rfl
  | _ => exact h.product rfl

def withText (f : Formula) : Formula × String :=
  (f, f.text)

theorem zip_textLists (fs : List Formula) : fs.zip ((textLists fs).map (·.1)) = fs.map withText := by
  induction fs with
  | nil => rfl
  | cons f fs ih => rw [textLists, map_cons, zip_cons_cons, ih, map_cons]; rfl

theorem productText_factors (h : ∀ x ∈ f :: fs, Rereads M ρ g x)
    (hminus : ∀ x ∈ fs, x.leadsWithMinus = false) (seen : Bool) :
    ProductText M ρ g f.leadsWithMinus (" ".intercalate (factorTexts seen ((f :: fs).map withText)))
      (allIndexLike (f :: fs)) (anyNamesIndex (f :: fs)) (values M ρ (f :: fs)).prod := by
  induction fs generalizing f seen with
  | nil =>
    obtain ⟨text, htext, hproduct⟩ := (h f (by simp)).factor seen []
    simpa [withText, htext, factorTexts, allIndexLike, anyNamesIndex, values] using hproduct
  | cons x fs ih =>
    rw [forall_mem_cons] at h hminus
    obtain ⟨text, htext, hproduct⟩ := h.1.factor seen ((x :: fs).map withText)
    obtain ⟨text', htext', -⟩ :=
      (h.2 x (by simp)).factor (seen || !f.isNumber) (fs.map withText)
    have hrest := ih h.2 hminus.2 (seen || !f.isNumber)
    rw [hminus.1] at hrest
    rw [map_cons, withText, htext, allIndexLike, anyNamesIndex, values, prod_cons]
    rw [map_cons, withText, htext'] at hrest ⊢
    rw [String.intercalate_cons_cons]
    exact hproduct.mul hrest

theorem eq_of_isMinusOne (h : f.isMinusOne) : f = num (-1) := by
  cases f with
  | num q => rw [isMinusOne, beq_iff_eq] at h; rw [h]
  | _ => cases h

theorem productText_product (hfs : fs ≠ []) (h : ∀ f ∈ fs, Rereads M ρ g f)
    (hminus : ∀ f ∈ (writtenFactors fs).tail, f.leadsWithMinus = false) :
    ProductText M ρ g (product fs).leadsWithMinus (productText (fs.map withText)) (allIndexLike fs)
      (anyNamesIndex fs) (values M ρ fs).prod := by
  obtain - | ⟨f, - | ⟨x, fs⟩⟩ := fs
  · contradiction
  · exact productText_factors h (by simp) false
  · rw [writtenFactors] at hminus
    have htext : productText ((f :: x :: fs).map withText) =
        if f.isMinusOne then "-" ++ " ".intercalate (factorTexts false ((x :: fs).map withText))
        else " ".intercalate (factorTexts false ((f :: x :: fs).map withText)) := rfl
    rw [htext]
    by_cases hone : f.isMinusOne
    · rw [if_pos hone] at hminus ⊢
      obtain rfl := eq_of_isMinusOne hone
      have hrest := (productText_factors (forall_mem_cons.mp h).2 hminus false).neg
        (anyNamesIndex (num (-1) :: x :: fs))
      have hvalue : (values M ρ (num (-1) :: x :: fs)).prod = -(values M ρ (x :: fs)).prod := by
        simp [values, value]
      rw [hvalue]
      exact hrest
    · rw [if_neg hone] at hminus ⊢
      exact productText_factors h hminus false

theorem mem_tail_of_writtenFactors (h : f ∈ (writtenFactors fs).tail) : f ∈ fs.tail := by
  unfold writtenFactors at h
  split at h
  · split at h
    · exact mem_cons_of_mem _ h
    · exact h
  · exact h

theorem productText_rest (h : ∀ f ∈ x :: fs, Rereads M ρ g f)
    (hminus : ∀ f ∈ fs, f.leadsWithMinus = false) (hsum : fs = [] → x.isSum = false) :
    ∃ like named, ProductText M ρ g true (factorsText ((x :: fs).map withText)) like named
      (values M ρ (x :: fs)).prod := by
  cases fs with
  | nil =>
    have hproduct := ((h x (by simp)).product (hsum rfl)).weaken
    have hvalue : (values M ρ [x]).prod = x.value M ρ := by simp [values]
    rw [hvalue]
    exact ⟨_, _, hproduct⟩
  | cons y fs =>
    exact ⟨_, _, (productText_product (by simp) h fun f hf =>
      hminus f (mem_tail_of_writtenFactors hf)).weaken⟩

theorem productText_negated (hwritten : q.Written) (h : ∀ f ∈ x :: fs, Rereads M ρ g f)
    (hminus : ∀ f ∈ (writtenFactors (num q :: x :: fs)).tail, f.leadsWithMinus = false)
    (hsum : (product (num q :: x :: fs)).isNegatedSum = false) :
    ∃ like named, ProductText M ρ g true (negatedProductText ((num q :: x :: fs).map withText))
      like named (-(values M ρ (num q :: x :: fs)).prod) := by
  have htext : negatedProductText ((num q :: x :: fs).map withText) =
      if q == -1 then factorsText ((x :: fs).map withText)
      else factorsText ((num (-q) :: x :: fs).map withText) := rfl
  have hvalue (fs : List Formula) :
      -(values M ρ (num q :: fs)).prod = (values M ρ (num (-q) :: fs)).prod := by
    simp [values, value]
  rw [writtenFactors] at hminus
  rw [htext, hvalue]
  by_cases hone : q == -1
  · rw [if_pos hone]
    rw [if_pos (show (num q).isMinusOne from hone)] at hminus
    have hrest := productText_rest h hminus fun hnil => by
      subst hnil
      rwa [isNegatedSum, isMinusOne, hone, Bool.true_and] at hsum
    have hunit : (values M ρ (num (-q) :: x :: fs)).prod = (values M ρ (x :: fs)).prod := by
      rw [beq_iff_eq.mp hone, values, value, prod_cons, neg_neg, Rat.cast_one, one_mul]
    rwa [hunit]
  · rw [if_neg hone]
    rw [if_neg (show ¬(num q).isMinusOne from hone)] at hminus
    exact productText_rest (forall_mem_cons.mpr ⟨rereads_num (written_neg hwritten), h⟩) hminus
      (by simp)

theorem rereads_product (hfs : 2 ≤ fs.length) (hwritten : ∀ f ∈ fs, f.Written)
    (h : ∀ f ∈ fs, Rereads M ρ g f)
    (hminus : ∀ f ∈ (writtenFactors fs).tail, f.leadsWithMinus = false) :
    Rereads M ρ g (product fs) := by
  have htext : (product fs).texts =
      (productText (fs.map withText), negatedProductText (fs.map withText)) := by
    rw [texts, zip_textLists]
  have hproduct : ProductText M ρ g (product fs).leadsWithMinus (product fs).text
      (product fs).indexLike (product fs).namesIndex ((product fs).value M ρ) := by
    rw [text, htext, value]
    exact productText_product (by rintro rfl; simp at hfs) h hminus
  refine ⟨hproduct.sum, fun _ => hproduct, fun hneg hsum => ?_,
    _, _, (hproduct.sum.parens false).primary fun _ _ => trivial⟩
  rw [htext, value]
  obtain - | ⟨f, - | ⟨x, fs⟩⟩ := fs
  · simp at hfs
  · simp at hfs
  · rw [forall_mem_cons] at hwritten h
    cases f with
    | num q => exact productText_negated hwritten.1 h.2 hminus hsum
    | _ => cases hneg

def withTexts (f : Formula) : Formula × String × String :=
  (f, f.texts)

theorem zip_textLists_both (fs : List Formula) : fs.zip (textLists fs) = fs.map withTexts := by
  induction fs with
  | nil => rfl
  | cons f fs ih => rw [textLists, zip_cons_cons, ih, map_cons]; rfl

def termText (t : Formula) : String :=
  if t.isNegativeTerm then " - " ++ t.texts.2 else " + " ++ t.text

theorem SumText.term (h : SumText M ρ g s l n v) {t : Formula} (ht : Rereads M ρ g t)
    (hsum : t.isNegatedSum = false) :
    SumText M ρ g (s ++ termText t) false false (v + t.value M ρ) := by
  unfold termText
  split
  · next hneg =>
    obtain ⟨like, named, hnegated⟩ := ht.negated hneg hsum
    rw [← sub_neg_eq_add]
    exact h.sub hnegated
  · exact h.add ht.sum

theorem SumText.terms (h : SumText M ρ g s false false v)
    (hts : ∀ t ∈ ts, Rereads M ρ g t ∧ t.isNegatedSum = false) :
    SumText M ρ g (s ++ String.join (ts.map termText)) false false (v + (values M ρ ts).sum) := by
  induction ts generalizing s v with
  | nil => simpa [values] using h
  | cons t ts ih =>
    rw [forall_mem_cons] at hts
    have hrest := ih (h.term hts.1.1 hts.1.2) hts.2
    rw [String.append_assoc, add_assoc] at hrest
    rw [map_cons, String.join_cons, values, sum_cons]
    exact hrest

theorem rereads_sum (hlength : 2 ≤ ts.length)
    (h : ∀ t ∈ ts, Rereads M ρ g t ∧ t.isNegatedSum = false) : Rereads M ρ g (sum ts) := by
  have hsum : SumText M ρ g (sum ts).text false false ((sum ts).value M ρ) := by
    obtain - | ⟨t, - | ⟨u, ts⟩⟩ := ts
    · simp at hlength
    · simp at hlength
    · rw [forall_mem_cons, forall_mem_cons] at h
      obtain ⟨⟨ht, htsum⟩, ⟨hu, husum⟩, hts⟩ := h
      have htext : (sum (t :: u :: ts)).text = (if t.isNegativeTerm then "-" ++ t.texts.2 else t.text) ++
          String.join ((u :: ts).map termText) := by
        rw [text, texts, zip_textLists_both, map_cons, withTexts, sumText, map_map]
        rfl
      have hfirst : ∃ like named, SumText M ρ g
          (if t.isNegativeTerm then "-" ++ t.texts.2 else t.text) like named (t.value M ρ) := by
        split
        · next hneg =>
          obtain ⟨like, named, hnegated⟩ := ht.negated hneg htsum
          have hsigned := (hnegated.neg false).sum
          rw [neg_neg] at hsigned
          exact ⟨_, _, hsigned⟩
        · exact ⟨_, _, ht.sum⟩
      obtain ⟨like, named, hfirst⟩ := hfirst
      have hall := (hfirst.term hu husum).terms hts
      rw [String.append_assoc, add_assoc] at hall
      rw [htext, map_cons, String.join_cons, value, values, values, sum_cons, sum_cons]
      exact hall
  exact ⟨hsum, by simp [isSum], by simp [isNegativeTerm],
    _, _, (hsum.parens false).primary fun _ _ => trivial⟩

theorem rereads (hwritten : f.Written) (hnames : f.hasSimpleNames) (hreads : f.readsBack g.isTensor) :
    Rereads M ρ g f := by
  induction f using Formula.induction with
  | num q => exact rereads_num hwritten
  | sym s => exact rereads_sym hnames
  | tensor t => exact rereads_tensor hwritten hnames hreads
  | derivative kind i operand dimension span ih =>
    rw [hasSimpleNames, Bool.and_eq_true] at hnames
    exact (ih hwritten.2 hnames.2 hreads).derivative hwritten.1 hnames.1 dimension span
  | sum ts ih =>
    rw [hasSimpleNames, haveSimpleNames_iff] at hnames
    rw [readsBack, Bool.and_eq_true, allReadBack_iff, all_eq_true] at hreads
    refine rereads_sum hwritten.1 fun t ht => ⟨?_, by simpa using hreads.2 t ht⟩
    exact ih t ht (allWritten_iff.mp hwritten.2 t ht) (hnames t ht) (hreads.1 t ht)
  | product fs ih =>
    rw [hasSimpleNames, haveSimpleNames_iff] at hnames
    rw [readsBack, Bool.and_eq_true, allReadBack_iff, all_eq_true] at hreads
    have hall := allWritten_iff.mp hwritten.2
    exact rereads_product hwritten.1 hall
      (fun f hf => ih f hf (hall f hf) (hnames f hf) (hreads.1 f hf))
      (fun f hf => by simpa using hreads.2 f hf)
  | power b e ihb ihe =>
    rw [hasSimpleNames, Bool.and_eq_true] at hnames
    rw [readsBack, Bool.and_eq_true, Bool.and_eq_true, Bool.not_eq_true'] at hreads
    exact (ihb hwritten.1 hnames.1 hreads.1.1).power (ihe hwritten.2 hnames.2 hreads.1.2) hwritten.1
      hnames.1 hreads.1.1 hreads.2
  | fn function a ih => exact (ih hwritten hnames hreads).fn function
  | contraction => exact hwritten.elim

theorem scan_of_spelled (h : Spelled s l n ks) :
    ∃ ts, Grammar.tokens (.ofString s) = .ok ts ∧ Begins ts ks [] := by
  obtain ⟨ts, hts, hscan⟩ := h.spells 0
  have hbegins : Begins ts ks [] := by simpa using begins_of_map hts []
  have htokens : Token.scan (.ofString s) = .ok ts := by
    have hend : Bounded [] := by simp [Bounded]
    have := hscan [] hend
    simpa [scanFrom, Token.scan, Segment.ofString, Functor.map, Except.map] using this
  obtain ⟨script, hbalanced⟩ := h.balanced 0 false ts [] hbegins
  refine ⟨ts, ?_, hbegins⟩
  rw [Grammar.tokens, htokens, ok_bind, hbalanced]
  rfl

theorem parse_of_expression {source : String} {ts : List Token}
    {e : (Cursor.start ts (Segment.ofString source).stop).After}
    (htokens : Grammar.tokens (.ofString source) = .ok ts)
    (h : expression ⟨source.toList, (Segment.ofString source).stop, isTensor⟩
      (Cursor.start ts (Segment.ofString source).stop) = .ok (f, e)) (he : e.val.rest = []) :
    parse source.toList (.ofString source) isTensor = .ok f := by
  rw [Formula.parse, htokens, ok_bind, h, ok_bind]
  dsimp only
  rw [Grammar.expectEnd, he]
  rfl

theorem Rereads.parse (h : Rereads M ρ ⟨f.text.toList, (Segment.ofString f.text).stop, isTensor⟩ f) :
    ∃ f', parse f.text.toList (.ofString f.text) isTensor = .ok f' ∧ f'.value M ρ = f.value M ρ := by
  obtain ⟨ks, hspelled, hk, hsum⟩ := h.sum
  obtain ⟨ts, htokens, hts⟩ := scan_of_spelled hspelled
  have hread : Parses M ρ (expression ⟨f.text.toList, (Segment.ofString f.text).stop, isTensor⟩
      (Cursor.start ts (Segment.ofString f.text).stop)) [] (f.value M ρ) :=
    hsum.expression hk ts [] _ hts (by simp [Closes])
  obtain ⟨f', e, hexpression, he, hv⟩ := hread
  exact ⟨f', parse_of_expression htokens hexpression he, hv⟩

/-- A meaning where scalars and functions, components, and powers can be told apart. -/
def Meaning.sample : Meaning Rat where
  scalar _ := 1
  component _ _ := 0
  derivative _ _ _ v := v
  fn _ _ := 1
  pow b e := if e = -1 then b⁻¹ else 2
  pow_neg_one _ := if_pos rfl

/-- The text of a formula from a source is a source of the same value, if it has the brackets it
needs. -/
theorem value_parse_text {source : String} {isTensor : String → Bool} {f : Formula}
    (hparse : parse source.toList (.ofString source) isTensor = .ok f) (hnames : f.hasSimpleNames)
    (hreads : f.readsBack isTensor) :
    ∃ f', parse f.text.toList (.ofString f.text) isTensor = .ok f' ∧
      ∀ (K : Type u) [Field K] (M : Meaning K) (ρ : String → Nat), f'.value M ρ = f.value M ρ := by
  have hwritten : f.Written := written_of_parse ⟨[], [], by simp [Segment.ofString], rfl⟩ hparse
  obtain ⟨f', hf', -⟩ :=
    (rereads (M := Meaning.sample) (ρ := fun _ => 0) hwritten hnames hreads).parse
  refine ⟨f', hf', fun K _ M ρ => ?_⟩
  obtain ⟨f'', hf'', hvalue⟩ := (rereads (M := M) (ρ := ρ) hwritten hnames hreads).parse
  rw [hf'] at hf''
  cases hf''
  exact hvalue

theorem value_parse_text_derivative :
    let source := "-3 \\partial_\\mu T^\\mu_a / (\\hat x - y_1) + \\pi^n"
    ∃ f f', parse source.toList (.ofString source) (· == "T") = .ok f ∧ f.hasSimpleNames ∧
      f.readsBack (· == "T") ∧ parse f.text.toList (.ofString f.text) (· == "T") = .ok f' ∧
      f'.value Meaning.sample (fun _ => 0) = f.value Meaning.sample (fun _ => 0) := by
  intro source
  let f : Formula :=
    sum [product [num (-1), product [num 3,
        derivative .partialDerivative (.lower "mu")
          (tensor (.ofBase "T" [.upper "mu", .lower "a"] ⟨16, 23⟩)) none ⟨3, 23⟩,
        power (sum [sym "xhat", product [num (-1), tensor (.ofBase "y" [.fixed 1 .lower] ⟨36, 39⟩)]])
          (num (-1))]],
      power (sym "pi") (sym "n")]
  have hf : parse source.toList (.ofString source) (· == "T") = .ok f := by
    simp only [source, f]
    cbv
  have hnames : f.hasSimpleNames := by decide +kernel
  have hreads : f.readsBack (· == "T") := by decide +kernel
  obtain ⟨f', hf', hvalue⟩ := value_parse_text hf hnames hreads
  exact ⟨f, f', hf, hnames, hreads, hf', hvalue _ _ _⟩

/-- A sum that is subtracted loses its brackets, a negative factor becomes a term, an exponent
becomes a script, a base `e` an exponential, and a numbered superscript an exponent. -/
theorem text_changes_value :
    let read (source : String) := parse source.toList (.ofString source) fun _ => false
    ∀ p ∈ [("a - (b + c)", "a - b + c"), ("2 * -3", "2 -3"), ("(x)^n", "x^\x7bn\x7d"),
        ("(e)^2", "e^\x7b2\x7d"), ("x^\x7b0,a\x7d", "\\partial^a x^0")],
      ∃ f f', read p.1 = .ok f ∧ f.hasSimpleNames ∧ f.text = p.2 ∧ read p.2 = .ok f' ∧
        f'.value Meaning.sample (fun _ => 0) ≠ f.value Meaning.sample (fun _ => 0) := by
  intro read
  simp only [List.forall_mem_cons, List.not_mem_nil, false_imp_iff, implies_true, and_true, read]
  refine ⟨⟨sum [sym "a", product [num (-1), sum [sym "b", sym "c"]]],
      sum [sym "a", product [num (-1), sym "b"], sym "c"], by cbv, by decide +kernel,
      by decide +kernel, by cbv, ?_⟩,
    ⟨product [num 2, num (-3)], sum [num 2, num (-3)], by cbv, by decide +kernel, by decide +kernel,
      by cbv, ?_⟩,
    ⟨power (sym "x") (sym "n"), tensor (.ofBase "x" [.upper "n"] ⟨0, 5⟩), by cbv, by decide +kernel,
      by decide +kernel, by cbv, ?_⟩,
    ⟨power (sym "e") (num 2), fn .exp (num 2), by cbv, by decide +kernel, by decide +kernel, by cbv,
      ?_⟩,
    ⟨derivative .partialDerivative (.upper "a") (tensor (.ofBase "x" [.fixed 0 .upper] ⟨0, 7⟩)) none
        ⟨0, 6⟩,
      derivative .partialDerivative (.upper "a") (power (sym "x") (num 0)) none ⟨0, 14⟩, by cbv,
      by decide +kernel, by decide +kernel, by cbv, ?_⟩⟩
  all_goals
    simp only [value, values, Meaning.sample]
    decide +kernel

end Formula

end TensorCalculus
