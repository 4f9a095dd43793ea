import TensorCalculus.Proofs.Session.Equation

/-! Classes of related components. Ordering slot pairs finds one representative of each class, with
the right signs, exactly if neighbouring slots of each group of linked slots are paired and all
pairs of a group are of one kind. -/
namespace TensorCalculus

variable {r r' : Sign × IndexVector} {n : Nat}

open List

namespace SlotPair

/-- Slots that some pairs lead between. -/
def Linked (ps : List SlotPair) : Nat → Nat → Prop :=
  Relation.EqvGen fun i j => ∃ p ∈ ps, p.first = i ∧ p.second = j

def Meets (p q : SlotPair) : Prop :=
  p.first = q.first ∨ p.first = q.second ∨ p.second = q.first ∨ p.second = q.second

/-- Pairs that meet are both symmetric or both antisymmetric. -/
def Uniform (ps : List SlotPair) : Prop :=
  ∀ p ∈ ps, ∀ q ∈ ps, p.Meets q → p.antisymmetric = q.antisymmetric

instance (p q : SlotPair) : Decidable (p.Meets q) :=
  inferInstanceAs (Decidable (_ ∨ _ ∨ _ ∨ _))

instance (ps : List SlotPair) : Decidable (Uniform ps) :=
  inferInstanceAs (Decidable (∀ p ∈ ps, ∀ q ∈ ps, _))

structure Coherent (ps : List SlotPair) : Prop where
  /-- Linked slots with no linked one between them are a pair. -/
  paired : ∀ i j, i < j → Linked ps i j → (∀ k, i < k → k < j → ¬ Linked ps i k) →
    ∃ p ∈ ps, p.first = i ∧ p.second = j
  uniform : Uniform ps

/-- A slot of an antisymmetric pair. -/
def Alternating (ps : List SlotPair) (k : Nat) : Prop :=
  ∃ p ∈ ps, p.antisymmetric ∧ (p.first = k ∨ p.second = k)

/-- Linked slots of antisymmetric pairs have different entries. -/
def Distinct (ps : List SlotPair) (x : IndexVector) : Prop :=
  ∀ i j, Linked ps i j → Alternating ps i → x.getD i 0 = x.getD j 0 → i = j

variable {ps : List SlotPair} {p : SlotPair} {odd odd' : Bool} {x y : IndexVector} {i j : Nat}

theorem linked_of_mem (hp : p ∈ ps) : Linked ps p.first p.second :=
  .rel _ _ ⟨p, hp, rfl, rfl⟩

theorem Linked.iff {P : Nat → Prop} (h : Linked ps i j) (hP : ∀ p ∈ ps, P p.first ↔ P p.second) :
    P i ↔ P j := by
  induction h with
  | rel i j h =>
    obtain ⟨p, hp, rfl, rfl⟩ := h
    exact hP p hp
  | refl => rfl
  | symm _ _ _ ih => exact ih.symm
  | trans _ _ _ _ _ ih ih' => exact ih.trans ih'

theorem Linked.lt (hps : Inside ps n) (h : Linked ps i j) (hne : i ≠ j) : i < n ∧ j < n := by
  have hpairs (k : Nat) : ∀ p ∈ ps, (p.first = k ∨ p.first < n) ↔ (p.second = k ∨ p.second < n) := by
    intro p hp
    have := hps p hp
    omega
  have hj := (h.iff (P := fun m => m = i ∨ m < n) (hpairs i)).mp (.inl rfl)
  have hi := (h.iff (P := fun m => m = j ∨ m < n) (hpairs j)).mpr (.inl rfl)
  omega

theorem linked_swap (hp : p ∈ ps) (k : Nat) : Linked ps k (Equiv.swap p.first p.second k) := by
  rw [Equiv.swap_apply_def]
  split
  · next h => exact h ▸ linked_of_mem hp
  · split
    · next h => exact h ▸ (linked_of_mem hp).symm
    · exact .refl k

theorem Linked.alternating (hps : Uniform ps) (h : Linked ps i j) :
    Alternating ps i ↔ Alternating ps j := by
  refine h.iff fun q hq => ?_
  constructor
  · rintro ⟨p, hp, hanti, hslot⟩
    have := hps p hp q hq (by unfold Meets; omega)
    exact ⟨q, hq, this ▸ hanti, .inr rfl⟩
  · rintro ⟨p, hp, hanti, hslot⟩
    have := hps p hp q hq (by unfold Meets; omega)
    exact ⟨q, hq, this ▸ hanti, .inl rfl⟩

theorem Settled.le_of_linked (hps : Coherent ps) (hx : Settled ps x) (h : Linked ps i j)
    (hij : i < j) : x.getD i 0 ≤ x.getD j 0 ∧ (Alternating ps i → x.getD i 0 < x.getD j 0) := by
  induction hn : j - i using Nat.strong_induction_on generalizing i j with
  | _ n ih =>
    by_cases hbetween : ∃ k, i < k ∧ k < j ∧ Linked ps i k
    · obtain ⟨k, hik, hkj, hlinked⟩ := hbetween
      obtain ⟨hle, hlt⟩ := ih (k - i) (by omega) hlinked hik rfl
      obtain ⟨hle', hlt'⟩ := ih (j - k) (by omega) (hlinked.symm.trans _ _ _ h) hkj rfl
      exact ⟨hle.trans hle', fun ha => (hlt ha).trans_le hle'⟩
    · push Not at hbetween
      obtain ⟨p, hp, rfl, rfl⟩ := hps.paired i j hij h hbetween
      obtain ⟨hle, hne⟩ := hx p hp
      refine ⟨hle, ?_⟩
      rintro ⟨q, hq, hanti, hslot⟩
      have := hps.uniform q hq p hp (by unfold Meets; omega)
      exact Nat.lt_of_le_of_ne hle (hne (this ▸ hanti))

theorem Settled.distinct (hps : Coherent ps) (hx : Settled ps x) : Distinct ps x := by
  intro i j h ha heq
  rcases Nat.lt_trichotomy i j with hij | hij | hij
  · exact absurd heq (Nat.ne_of_lt ((hx.le_of_linked hps h hij).2 ha))
  · exact hij
  · have hlt := (hx.le_of_linked hps h.symm hij).2 ((h.alternating hps.uniform).mp ha)
    exact absurd heq.symm (Nat.ne_of_lt hlt)

theorem Repeats.not_distinct (hps : Inside ps n) (h : Repeats ps x) : ¬ Distinct ps x := by
  obtain ⟨p, hp, hanti, heq⟩ := h
  intro hx
  exact Nat.ne_of_lt (hps p hp).1 (hx _ _ (linked_of_mem hp) ⟨p, hp, hanti, .inl rfl⟩ heq)

theorem getD_exchange (hps : Inside ps x.length) (hp : p ∈ ps) (k : Nat) :
    (p.exchange x).getD k 0 = x.getD (Equiv.swap p.first p.second k) 0 := by
  have := hps p hp
  exact IndexVector.getD_exchange (by omega) (by omega) k

theorem Related.distinct (hc : Coherent ps) (h : Related ps odd x y) (hps : Inside ps x.length)
    (hx : Distinct ps x) : Distinct ps y := by
  induction h with
  | refl => exact hx
  | @exchange odd x y p h hp ih =>
    intro i j hij ha heq
    rw [← h.length_eq] at hps
    rw [getD_exchange hps hp, getD_exchange hps hp] at heq
    have hi := linked_swap hp i
    have hj := linked_swap hp j
    have hswap := ih (h.length_eq ▸ hps) hx _ _ ((hi.symm.trans _ _ _ hij).trans _ _ _ hj)
      ((hi.alternating hc.uniform).mp ha) heq
    exact (Equiv.swap p.first p.second).injective hswap

open Classical in
/-- How many of the slots linked to `i` have an entry up to `v`. -/
noncomputable def rankOf (ps : List SlotPair) (i v : Nat) (x : IndexVector) : Nat :=
  ((Finset.range x.length).filter fun k => Linked ps i k ∧ x.getD k 0 ≤ v).card

theorem Related.rankOf_eq (h : Related ps odd x y) (hps : Inside ps x.length) (i v : Nat) :
    rankOf ps i v y = rankOf ps i v x := by
  induction h with
  | refl => rfl
  | @exchange odd x y p h hp ih =>
    rw [← ih hps]
    rw [← h.length_eq] at hps
    refine Finset.card_equiv (Equiv.swap p.first p.second) fun k => ?_
    have hpair := hps p hp
    have hlt : Equiv.swap p.first p.second k < y.length ↔ k < y.length := by
      rw [Equiv.swap_apply_def]
      split_ifs <;> omega
    have hlink : Linked ps i k ↔ Linked ps i (Equiv.swap p.first p.second k) :=
      ⟨fun hk => hk.trans _ _ _ (linked_swap hp k), fun hk => hk.trans _ _ _ (linked_swap hp k).symm⟩
    simp only [Finset.mem_filter, Finset.mem_range, length_exchange, getD_exchange hps hp, hlt, hlink]

section

variable (hc : Coherent ps)
include hc

/-- Of two related indices in order, the first entry in which they differ is not smaller in
the one than in the other. -/
theorem Settled.le_of_related (hps : Inside ps x.length) (hy : Settled ps y)
    (h : Related ps odd x y) {k : Nat} (hbelow : ∀ j < k, x.getD j 0 = y.getD j 0) :
    y.getD k 0 ≤ x.getD k 0 := by
  refine Nat.le_of_not_lt fun hlt => ?_
  have hlength := h.length_eq
  have hk : k < x.length := by
    by_contra hk
    rw [getD_eq_default _ _ (by omega), getD_eq_default _ _ (by omega)] at hlt
    exact Nat.lt_irrefl _ hlt
  refine Nat.ne_of_lt (Finset.card_lt_card ?_) (h.rankOf_eq hps k (x.getD k 0))
  refine Finset.ssubset_iff_of_subset ?_ |>.mpr ⟨k, ?_, ?_⟩
  · intro j hj
    simp only [Finset.mem_filter, Finset.mem_range] at hj ⊢
    -- an entry of `y` up to `x k` stands before the slot `k`, where the two agree
    have hjk : j < k := by
      refine Nat.lt_of_not_le fun hkj => ?_
      rcases Nat.eq_or_lt_of_le hkj with rfl | hkj
      · omega
      · have := (hy.le_of_linked hc hj.2.1 hkj).1
        omega
    exact ⟨by omega, hj.2.1, hbelow j hjk ▸ hj.2.2⟩
  · simp only [Finset.mem_filter, Finset.mem_range]
    exact ⟨hk, .refl k, Nat.le_refl _⟩
  · simp only [Finset.mem_filter, Finset.mem_range]
    omega

theorem Settled.eq_of_related (hps : Inside ps x.length) (hx : Settled ps x) (hy : Settled ps y)
    (h : Related ps odd x y) : x = y := by
  refine IndexVector.ext_getD h.length_eq.symm fun k => ?_
  induction k using Nat.strong_induction_on with
  | _ k ih =>
    have hback := h.symm hps
    rw [← h.length_eq] at hps
    exact Nat.le_antisymm (hx.le_of_related hc hps hback fun j hj => (ih j hj).symm)
      (hy.le_of_related hc (h.length_eq ▸ hps) h ih)

theorem Related.exists_perm (h : Related ps odd x y) (hn : x.length = n) (hps : Inside ps n) :
    ∃ σ : Equiv.Perm (Fin n), Equiv.Perm.sign σ = (if odd then -1 else 1) ∧
      ∀ k : Fin n, Linked ps k (σ k) ∧ (Alternating ps k → y.getD k 0 = x.getD (σ k) 0) ∧
        (¬ Alternating ps k → σ k = k) := by
  induction h with
  | refl => exact ⟨1, by simp, fun k => ⟨.refl _, fun _ => rfl, fun _ => rfl⟩⟩
  | @exchange odd x y p h hp ih =>
    obtain ⟨σ, hsign, hσ⟩ := ih hn
    obtain ⟨hslots, hlength⟩ := hps p hp
    have hget (k : Nat) := getD_exchange (x := y) (by rw [h.length_eq, hn]; exact hps) hp k
    cases hanti : p.antisymmetric with
    | false =>
      refine ⟨σ, by simpa using hsign, fun k => ⟨(hσ k).1, fun ha => ?_, (hσ k).2.2⟩⟩
      -- a symmetric pair does not touch the slots of antisymmetric ones
      obtain ⟨q, hq, hqanti, hslot⟩ := ha
      have hne : (k : Nat) ≠ p.first ∧ (k : Nat) ≠ p.second := by
        constructor
        all_goals
          intro hk
          have := hc.uniform q hq p hp (by unfold Meets; omega)
          simp_all
      rw [hget, Equiv.swap_apply_of_ne_of_ne hne.1 hne.2]
      exact (hσ k).2.1 ⟨q, hq, hqanti, hslot⟩
    | true =>
      let τ : Equiv.Perm (Fin n) := Equiv.swap ⟨p.first, by omega⟩ ⟨p.second, hlength⟩
      have hτ (k : Fin n) : (τ k : Nat) = Equiv.swap p.first p.second k := by
        simp only [τ, Equiv.swap_apply_def, Fin.ext_iff]
        split_ifs <;> rfl
      have hτlinked (k : Fin n) : Linked ps k (τ k) := hτ k ▸ linked_swap hp k
      refine ⟨σ * τ, ?_, fun k => ⟨?_, fun ha => ?_, fun ha => ?_⟩⟩
      · rw [Equiv.Perm.sign_mul, hsign, Equiv.Perm.sign_swap (by simp [Fin.ext_iff]; omega)]
        cases odd <;> rfl
      · exact (hτlinked k).trans _ _ _ (hσ (τ k)).1
      · rw [hget, ← hτ, Equiv.Perm.mul_apply]
        exact (hσ (τ k)).2.1 (((hτlinked k).alternating hc.uniform).mp ha)
      · have hk : τ k = k := by
          have hfirst : (k : Nat) ≠ p.first := fun hk => ha ⟨p, hp, hanti, .inl hk.symm⟩
          have hsecond : (k : Nat) ≠ p.second := fun hk => ha ⟨p, hp, hanti, .inr hk.symm⟩
          exact Fin.ext (by rw [hτ, Equiv.swap_apply_of_ne_of_ne hfirst hsecond])
        rw [Equiv.Perm.mul_apply, hk]
        exact (hσ k).2.2 ha

/-- Without repetitions a class fixes the signs of its members. -/
theorem Related.odd_eq (hps : Inside ps x.length) (hx : Distinct ps x) (h : Related ps odd x y)
    (h' : Related ps odd' x y) : odd = odd' := by
  obtain ⟨σ, hsign, hσ⟩ := h.exists_perm hc rfl hps
  obtain ⟨τ, hsign', hτ⟩ := h'.exists_perm hc rfl hps
  have heq : σ = τ := by
    refine Equiv.ext fun k => ?_
    by_cases ha : Alternating ps k
    · refine Fin.ext (hx _ _ ((hσ k).1.symm.trans _ _ _ (hτ k).1) (((hσ k).1.alternating hc.uniform).mp ha) ?_)
      rw [← (hσ k).2.1 ha, (hτ k).2.1 ha]
    · rw [(hσ k).2.2 ha, (hτ k).2.2 ha]
  rw [heq, hsign'] at hsign
  cases odd <;> cases odd' <;> simp_all

end

/-- Canonical forms of two components that are equal, or opposite if `odd`. -/
def Agree (odd : Bool) (r r' : Sign × IndexVector) : Prop :=
  (r.1 = .zero ↔ r'.1 = .zero) ∧ (r.1 ≠ .zero → r'.2 = r.2 ∧ r'.1 = r.1.along odd)

instance (odd : Bool) (r r' : Sign × IndexVector) : Decidable (Agree odd r r') :=
  inferInstanceAs (Decidable (_ ∧ (_ → _)))

theorem Agree.trans {r'' : Sign × IndexVector} (h : Agree odd r r') (h' : Agree odd' r' r'') :
    Agree (odd ^^ odd') r r'' := by
  refine ⟨h.1.trans h'.1, fun hr => ?_⟩
  obtain ⟨hindex, hsign⟩ := h.2 hr
  obtain ⟨hindex', hsign'⟩ := h'.2 (mt h.1.mpr hr)
  exact ⟨hindex'.trans hindex, by rw [hsign', hsign, Sign.along_along]⟩

theorem Reduces.distinct_iff (hc : Coherent ps) (hps : Inside ps x.length) (h : Reduces ps x r) :
    Distinct ps x ↔ r.1 ≠ .zero := by
  cases h with
  | vanishing h hy z =>
    simp only [ne_eq, not_true_eq_false, iff_false]
    exact fun hx => hy.not_distinct hps (h.distinct hc hps hx)
  | settled h hy =>
    simp only [ne_eq, Sign.along_eq_zero, reduceCtorEq, not_false_eq_true, iff_true]
    exact (h.symm hps).distinct hc (h.length_eq ▸ hps) (hy.distinct hc)

theorem Reduces.agree (hc : Coherent ps) (hps : Inside ps x.length) (hxy : Related ps odd x y)
    (h : Reduces ps x r) (h' : Reduces ps y r') : Agree odd r r' := by
  have hps' : Inside ps y.length := hxy.length_eq ▸ hps
  have hdistinct : Distinct ps x ↔ Distinct ps y :=
    ⟨hxy.distinct hc hps, (hxy.symm hps).distinct hc hps'⟩
  refine ⟨not_iff_not.mp ?_, fun hr => ?_⟩
  · rw [← ne_eq, ← ne_eq, ← h.distinct_iff hc hps, ← h'.distinct_iff hc hps', hdistinct]
  · have hx := (h.distinct_iff hc hps).mpr hr
    have hr' := (h'.distinct_iff hc hps').mp (hdistinct.mp hx)
    cases h with
    | vanishing => exact absurd rfl hr
    | @settled a z h hz =>
      cases h' with
      | vanishing => exact absurd rfl hr'
      | @settled b w h' hw =>
        have hzw := (h.symm hps).trans (hxy.trans h')
        obtain rfl := hz.eq_of_related hc (h.length_eq ▸ hps) hw hzw
        obtain rfl := h.odd_eq hc hps hx (hxy.trans h')
        refine ⟨rfl, ?_⟩
        rw [Sign.along_along]
        cases odd <;> cases b <;> rfl

theorem Linked.related_exchange (hu : Uniform ps) (hps : Inside ps n) (h : Linked ps i j)
    (hij : i ≠ j) : ∃ odd, (odd = true ↔ Alternating ps i) ∧
      ∀ x : IndexVector, x.length = n → Related ps odd x (IndexVector.exchange i j x) := by
  induction h with
  | rel i j h =>
    obtain ⟨p, hp, rfl, rfl⟩ := h
    refine ⟨p.antisymmetric, ⟨fun ha => ⟨p, hp, ha, .inl rfl⟩, ?_⟩, fun x _ => .single hp x⟩
    rintro ⟨q, hq, ha, hslot⟩
    exact hu q hq p hp (by unfold Meets; omega) ▸ ha
  | refl => exact absurd rfl hij
  | symm i j h ih =>
    obtain ⟨odd, hodd, hrelated⟩ := ih hij.symm
    refine ⟨odd, hodd.trans (Linked.alternating hu h), fun x hx => ?_⟩
    obtain ⟨hi, hj⟩ := Linked.lt hps h hij.symm
    rw [IndexVector.exchange_comm (by omega) (by omega)]
    exact hrelated x hx
  | trans i k j hik hkj ih ih' =>
    by_cases hki : k = i
    · subst hki
      exact ih' hij
    by_cases hkj' : k = j
    · subst hkj'
      exact ih hij
    obtain ⟨a, -, hfirst⟩ := ih (Ne.symm hki)
    obtain ⟨b, hb, hsecond⟩ := ih' hkj'
    refine ⟨b, hb.trans (Linked.alternating hu hik).symm, fun x hx => ?_⟩
    have hi := Linked.lt hps hik (Ne.symm hki)
    have hj := Linked.lt hps hkj hkj'
    have hthree := ((hfirst x hx).trans (hsecond _ (by simpa))).trans (hfirst _ (by simpa))
    rw [IndexVector.exchange_conjugate (by omega) (by omega) (by omega) hki hkj' hij] at hthree
    cases a <;> cases b <;> exact hthree

section Necessity

/-! If exchanging the entries of any pair gives a canonical form that agrees, the pairs are
coherent. The index `0, 1, 2, …` decides. -/

variable {f : IndexVector → Sign × IndexVector}

theorem Related.agree_of_exchange (hf : ∀ x : IndexVector, x.length = n → ∀ p ∈ ps,
      Agree p.antisymmetric (f x) (f (p.exchange x))) (h : Related ps odd x y) (hx : x.length = n) :
    Agree odd (f x) (f y) := by
  induction h with
  | refl => exact ⟨Iff.rfl, fun _ => ⟨rfl, rfl⟩⟩
  | exchange h hp ih => exact (ih hx).trans (hf _ (h.length_eq.trans hx) _ hp)

theorem getD_range (hi : i < n) : (List.range n).getD i 0 = i := by
  simp [hi]

theorem Related.perm (h : Related ps odd x y) (hps : Inside ps x.length) : y.Perm x := by
  induction h with
  | refl => exact .refl _
  | @exchange odd x y p h hp ih =>
    obtain ⟨hslots, hlength⟩ := hps p hp
    rw [← h.length_eq] at hlength
    refine List.Perm.trans ?_ (ih hps)
    rw [SlotPair.exchange, IndexVector.exchange, getD_eq_getElem _ _ (hslots.trans hlength),
      getD_eq_getElem _ _ hlength]
    exact set_set_perm (hslots.trans hlength) hlength

theorem Reduces.ne_zero (h : Reduces ps x r) (hps : Inside ps x.length) (hx : x.Nodup) :
    r.1 ≠ .zero := by
  cases h with
  | settled => simp [Sign.along_eq_zero]
  | vanishing h hy z =>
    obtain ⟨p, hp, -, heq⟩ := hy
    obtain ⟨hslots, hlength⟩ := hps p hp
    rw [← h.length_eq] at hlength
    rw [getD_eq_getElem _ _ (hslots.trans hlength), getD_eq_getElem _ _ hlength] at heq
    exact absurd (((h.perm hps).nodup_iff.mpr hx).getElem_inj_iff.mp heq) (Nat.ne_of_lt hslots)

theorem Meets.exists_slots {p q : SlotPair} (h : p.Meets q) (hp : p.first < p.second ∧ p.second < n)
    (hq : q.first < q.second ∧ q.second < n) :
    ∃ a b c, a < n ∧ b < n ∧ c < n ∧ a ≠ b ∧ a ≠ c ∧ ∀ x : IndexVector, x.length = n →
      p.exchange x = IndexVector.exchange a b x ∧ q.exchange x = IndexVector.exchange a c x := by
  have hcomm (r : SlotPair) (hr : r.first < r.second ∧ r.second < n) (x : IndexVector)
      (hx : x.length = n) : r.exchange x = IndexVector.exchange r.second r.first x :=
    (IndexVector.exchange_comm (by omega) (by omega)).symm
  rcases h with h | h | h | h
  · exact ⟨p.first, p.second, q.second, by omega, by omega, by omega, by omega, by omega,
      fun x _ => ⟨rfl, h ▸ rfl⟩⟩
  · exact ⟨p.first, p.second, q.first, by omega, by omega, by omega, by omega, by omega,
      fun x hx => ⟨rfl, h ▸ hcomm q hq x hx⟩⟩
  · exact ⟨p.second, p.first, q.second, by omega, by omega, by omega, by omega, by omega,
      fun x hx => ⟨hcomm p hp x hx, h ▸ rfl⟩⟩
  · exact ⟨p.second, p.first, q.first, by omega, by omega, by omega, by omega, by omega,
      fun x hx => ⟨hcomm p hp x hx, h ▸ hcomm q hq x hx⟩⟩

section

variable (hps : Inside ps n) (hreduces : ∀ x : IndexVector, x.length = n → Reduces ps x (f x))
include hps hreduces

theorem uniform_of_agree (hf : ∀ x : IndexVector, x.length = n → ∀ p ∈ ps,
      Agree p.antisymmetric (f x) (f (p.exchange x))) : Uniform ps := by
  intro p hp q hq hmeets
  have hx : (List.range n).length = n := length_range
  have hnonzero := (hreduces _ hx).ne_zero (hx.symm ▸ hps) nodup_range
  have hunique {odd odd' : Bool} {y y' : IndexVector} (hy : y = y')
      (h : Related ps odd (List.range n) y) (h' : Related ps odd' (List.range n) y') :
      odd = odd' := by
    subst hy
    have hsign := ((h.agree_of_exchange hf hx).2 hnonzero).2
    exact Sign.along_injective hnonzero
      (hsign.symm.trans ((h'.agree_of_exchange hf hx).2 hnonzero).2)
  obtain ⟨a, b, c, ha, hb, hc, hab, hac, hslots⟩ := hmeets.exists_slots (hps p hp) (hps q hq)
  by_cases hbc : b = c
  · refine hunique ?_ (.single hp _) (.single hq _)
    rw [(hslots _ hx).1, (hslots _ hx).2, hbc]
  · -- the slots `b` and `c` are exchanged by `p`, `q`, `p` and by `q`, `p`, `q`
    have hpqp := ((Related.single hp (List.range n)).trans (.single hq _)).trans (.single hp _)
    have hqpq := ((Related.single hq (List.range n)).trans (.single hp _)).trans (.single hq _)
    have hodd := hunique ?_ hpqp hqpq
    · revert hodd
      cases p.antisymmetric <;> cases q.antisymmetric <;> decide
    · simp only [hslots, hx, IndexVector.length_exchange]
      exact IndexVector.exchange_braid (by omega) (by omega) (by omega) hab hac hbc

theorem coherent_of_agree (hsettled : ∀ x, Settled ps x → f x = (.plus, x))
    (hf : ∀ x : IndexVector, x.length = n → ∀ p ∈ ps,
      Agree p.antisymmetric (f x) (f (p.exchange x))) : Coherent ps := by
  have hu := uniform_of_agree hps hreduces hf
  refine ⟨fun i j hij h hbetween => ?_, hu⟩
  by_contra hpair
  push Not at hpair
  obtain ⟨hi, hj⟩ := h.lt hps (Nat.ne_of_lt hij)
  have hx : (List.range n).length = n := length_range
  have hget (k : Nat) (hk : k < n) : (IndexVector.exchange i j (List.range n)).getD k 0 =
      Equiv.swap i j k := by
    rw [IndexVector.getD_exchange (by omega) (by omega), getD_range]
    rw [Equiv.swap_apply_def]
    split_ifs <;> omega
  have hordered : Settled ps (List.range n) := by
    intro p hp
    have := hps p hp
    rw [getD_range (by omega), getD_range (by omega)]
    omega
  have hexchanged : Settled ps (IndexVector.exchange i j (List.range n)) := by
    intro p hp
    obtain ⟨hslots, hlength⟩ := hps p hp
    have hnot := hpair p hp
    have hlink := linked_of_mem hp
    have hfirst : p.first = i → ¬ p.second < j := fun hpi hlt =>
      hbetween _ (hpi ▸ hslots) hlt (hpi ▸ hlink)
    have hsecond : p.second = j → ¬ i < p.first := fun hpj hlt =>
      hbetween _ hlt (hpj ▸ hslots) (h.trans _ _ _ (hpj ▸ hlink.symm))
    rw [hget _ (by omega), hget _ hlength, Equiv.swap_apply_def, Equiv.swap_apply_def]
    split_ifs <;> omega
  obtain ⟨odd, -, hrelated⟩ := h.related_exchange hu hps (Nat.ne_of_lt hij)
  have hagree := (hrelated _ hx).agree_of_exchange hf hx
  rw [hsettled _ hordered, hsettled _ hexchanged] at hagree
  have hsame := congrArg (List.getD · i 0) (hagree.2 (by simp)).1
  simp only [hget i hi, getD_range hi, Equiv.swap_apply_left] at hsame
  omega

end

end Necessity

theorem inside_allPairs (rank : Nat) : Inside (allPairs rank) rank := fun _ hp =>
  ⟨(mem_allPairs.mp hp).1, (mem_allPairs.mp hp).2.1⟩

theorem coherent_allPairs (rank : Nat) : Coherent (allPairs rank) where
  paired i j hij h _ := by
    obtain ⟨-, hj⟩ := h.lt (inside_allPairs rank) (Nat.ne_of_lt hij)
    exact ⟨⟨i, j, true⟩, mem_allPairs.mpr ⟨hij, hj, rfl⟩, rfl, rfl⟩
  uniform p hp q hq _ := by
    rw [(mem_allPairs.mp hp).2.2, (mem_allPairs.mp hq).2.2]

end SlotPair

theorem Layout.nodup_indices (rank dimension : Nat) : (indices rank dimension).Nodup := by
  induction rank with
  | zero => exact nodup_singleton _
  | succ rank ih =>
    rw [indices, nodup_flatMap]
    refine ⟨fun i _ => ih.map (cons_injective), ?_⟩
    refine nodup_range.imp fun {i j} hij => ?_
    simp only [Function.onFun, disjoint_left, mem_map]
    rintro _ ⟨x, -, rfl⟩ ⟨y, -, heq⟩
    exact hij (List.cons.inj heq).1.symm

namespace Symmetry

open SlotPair

variable {s : Symmetry} {rank dimension : Nat} {x : IndexVector}

def Coherent (s : Symmetry) : Prop :=
  SlotPair.Coherent s.slotPairs

/-- The components that are equal or opposite by the symmetry. -/
def SameClass (s : Symmetry) (x y : IndexVector) : Prop :=
  ∃ odd, Related (s.exchanges x.length) odd x y

def Vanishes (s : Symmetry) (x : IndexVector) : Prop :=
  Related (s.exchanges x.length) true x x

/-- The canonical indices are one representative of each class that does not vanish. -/
structure ListsClasses (s : Symmetry) (rank dimension : Nat) : Prop where
  nodup : (s.distinctIndices rank dimension).Nodup
  nonvanishing : ∀ c ∈ s.distinctIndices rank dimension, ¬ s.Vanishes c
  representative : ∀ x ∈ Layout.indices rank dimension, ¬ s.Vanishes x →
    ∃! c, c ∈ s.distinctIndices rank dimension ∧ s.SameClass x c

section

variable (hs : s.Ordered) (hrank : ∀ slot ∈ s.maxSlot?, slot < rank)
include hs hrank

theorem inside_slotPairs : Inside s.slotPairs rank := by
  intro p hp
  have hmem : p.second ∈ s.slotPairs.map (·.second) := mem_map_of_mem hp
  obtain ⟨slot, hslot⟩ := Option.isSome_iff_exists.mp (isSome_max?_of_mem hmem)
  have hle := (max?_eq_some_iff.mp hslot).2 _ hmem
  exact ⟨hs p hp, hle.trans_lt (hrank slot hslot)⟩

theorem inside_exchanges : Inside (s.exchanges rank) rank := by
  by_cases hperm : s = permutation
  · subst hperm
    exact inside_allPairs rank
  · rw [slotPairs_eq_exchanges hperm]
    exact inside_slotPairs hs hrank

end

theorem Coherent.exchanges (h : s.Coherent) (rank : Nat) :
    SlotPair.Coherent (s.exchanges rank) := by
  by_cases hperm : s = permutation
  · subst hperm
    exact coherent_allPairs rank
  · rw [slotPairs_eq_exchanges hperm]
    exact h

theorem vanishes_iff (hc : SlotPair.Coherent (s.exchanges x.length))
    (hps : Inside (s.exchanges x.length) x.length) :
    s.Vanishes x ↔ (s.canonicalize x).1 = .zero := by
  rw [← not_iff_not, ← ne_eq, ← (canonicalize_reduces hps).distinct_iff hc hps]
  constructor
  · intro h i j hij ha heq
    by_contra hne
    obtain ⟨odd, hodd, hrelated⟩ := hij.related_exchange hc.uniform hps hne
    obtain ⟨hi, hj⟩ := hij.lt hps hne
    have hsame : IndexVector.exchange i j x = x := by
      refine IndexVector.ext_getD (by simp) fun k => ?_
      rw [IndexVector.getD_exchange hi hj, Equiv.swap_apply_def]
      split_ifs with hk hk <;> simp_all
    have := hrelated x rfl
    rw [hsame, hodd.mpr ha] at this
    exact h this
  · intro hx h
    exact Bool.noConfusion (h.odd_eq hc hps hx (.refl x))

theorem canonicalize_of_isCanonical (h : s.isCanonical x) :
    (s.canonicalize x).1 ≠ .zero ∧ (s.canonicalize x).2 = x := by
  simpa [isCanonical] using h

theorem listsClasses (hs : s.Ordered) (hc : s.Coherent)
    (hrank : ∀ slot ∈ s.maxSlot?, slot < rank) : s.ListsClasses rank dimension := by
  have hinside {x : IndexVector} (hx : x ∈ Layout.indices rank dimension) :
      Inside (s.exchanges x.length) x.length := by
    rw [(Layout.mem_indices.mp hx).1]
    exact inside_exchanges hs hrank
  refine ⟨(Layout.nodup_indices rank dimension).filter _, fun c hmem => ?_, fun x hx hv => ?_⟩
  · obtain ⟨hmem, hcanonical⟩ := mem_filter.mp hmem
    rw [vanishes_iff (hc.exchanges _) (hinside hmem)]
    exact (canonicalize_of_isCanonical hcanonical).1
  · rw [vanishes_iff (hc.exchanges _) (hinside hx)] at hv
    refine ⟨(s.canonicalize x).2, ⟨?_, ?_⟩, ?_⟩
    · exact mem_filter.mpr ⟨s.canonicalize_mem_indices hx, isCanonical_canonical hs hv⟩
    · have hreduces := canonicalize_reduces (hinside hx)
      generalize s.canonicalize x = result at hv hreduces
      cases hreduces with
      | vanishing => exact absurd rfl hv
      | settled h _ => exact ⟨_, h⟩
    · rintro c ⟨hmem, odd, hrelated⟩
      obtain ⟨-, hcanonical⟩ := mem_filter.mp hmem
      have hlength := hrelated.length_eq
      have hreduces : Reduces (s.exchanges x.length) c (s.canonicalize c) := by
        rw [← hlength]
        exact canonicalize_reduces (hlength ▸ hinside hx)
      have hagree := Reduces.agree (hc.exchanges _) (hinside hx) hrelated
        (canonicalize_reduces (hinside hx)) hreduces
      exact (canonicalize_of_isCanonical hcanonical).2.symm.trans (hagree.2 hv).1

/-- A symmetry that a document can declare relates the components that it should, with the right
signs, exactly if its pairs are coherent; then the canonical indices are one representative of
each class of components that do not vanish. -/
theorem exchanges_agree_iff_coherent {modifier : String} (hs : ofModifier? modifier = some s) :
    (s.Coherent ↔ ∀ x : IndexVector, (∀ slot ∈ s.maxSlot?, slot < x.length) →
      ∀ p ∈ s.exchanges x.length,
        Agree p.antisymmetric (s.canonicalize x) (s.canonicalize (p.exchange x))) ∧
    (s.Coherent → ∀ rank dimension, (∀ slot ∈ s.maxSlot?, slot < rank) →
      s.ListsClasses rank dimension) := by
  have hs := ordered_of_ofModifier? hs
  refine ⟨⟨fun hc x hrank p hp => ?_, fun hagree => ?_⟩, fun hc rank dimension => listsClasses hs hc⟩
  · have hps := inside_exchanges hs hrank
    refine Reduces.agree (hc.exchanges _) hps (.single hp x) (canonicalize_reduces hps) ?_
    have := canonicalize_reduces (s := s) (x := p.exchange x) (by simpa using hps)
    simpa using this
  · by_cases hperm : s = permutation
    · subst hperm
      have hnone : Inside permutation.slotPairs 0 := List.forall_mem_nil _
      exact ⟨fun i j hij h => absurd (h.lt hnone (Nat.ne_of_lt hij)).1 (Nat.not_lt_zero _),
        List.forall_mem_nil _⟩
    have hrank : ∀ slot ∈ s.maxSlot?, slot < s.maxSlot?.getD 0 + 1 := by
      intro slot hslot
      rw [hslot]
      exact Nat.lt_succ_self slot
    have hps := inside_exchanges hs hrank
    rw [slotPairs_eq_exchanges hperm] at hps
    refine coherent_of_agree (f := s.canonicalize) hps (fun x hx => ?_)
      (fun x hx => canonicalize_of_settled hperm hx) fun x hx p hp => ?_
    · rw [← slotPairs_eq_exchanges hperm x.length]
      exact canonicalize_reduces (by rw [slotPairs_eq_exchanges hperm, hx]; exact hps)
    · refine hagree x (hx ▸ hrank) p ?_
      rw [slotPairs_eq_exchanges hperm]
      exact hp

theorem coherent_two_groups : (pairs [⟨0, 1, true⟩, ⟨1, 2, true⟩, ⟨3, 4, false⟩]).Coherent where
  uniform := by decide
  paired i j hij h hbetween := by
    have hinside : Inside [⟨0, 1, true⟩, ⟨1, 2, true⟩, ⟨3, 4, false⟩] 5 := by
      unfold Inside
      decide
    have hlt := h.lt hinside (Nat.ne_of_lt hij)
    have hgroup : i < 3 ↔ j < 3 := h.iff (P := (· < 3)) (by decide)
    have hcases : i = 0 ∧ j = 1 ∨ i = 1 ∧ j = 2 ∨ i = 3 ∧ j = 4 ∨ i = 0 ∧ j = 2 := by omega
    rcases hcases with ⟨rfl, rfl⟩ | ⟨rfl, rfl⟩ | ⟨rfl, rfl⟩ | ⟨rfl, rfl⟩
    · exact ⟨⟨0, 1, true⟩, by decide, rfl, rfl⟩
    · exact ⟨⟨1, 2, true⟩, by decide, rfl, rfl⟩
    · exact ⟨⟨3, 4, false⟩, by decide, rfl, rfl⟩
    · exact absurd (linked_of_mem (p := ⟨0, 1, true⟩) (by decide)) (hbetween 1 (by decide) (by decide))

theorem exchanges_agree_two_groups :
    ofModifier? "anti01_anti12_sym34" = some (pairs [⟨0, 1, true⟩, ⟨1, 2, true⟩, ⟨3, 4, false⟩]) ∧
      Agree true ((pairs [⟨0, 1, true⟩, ⟨1, 2, true⟩, ⟨3, 4, false⟩]).canonicalize [2, 0, 1, 4, 3])
        ((pairs [⟨0, 1, true⟩, ⟨1, 2, true⟩, ⟨3, 4, false⟩]).canonicalize [2, 1, 0, 4, 3]) ∧
      (pairs [⟨0, 1, true⟩, ⟨1, 2, true⟩, ⟨3, 4, false⟩]).ListsClasses 5 3 := by
  have hmodifier : ofModifier? "anti01_anti12_sym34" =
      some (pairs [⟨0, 1, true⟩, ⟨1, 2, true⟩, ⟨3, 4, false⟩]) := rfl
  obtain ⟨hagree, hlists⟩ := exchanges_agree_iff_coherent hmodifier
  exact ⟨hmodifier, hagree.mp coherent_two_groups [2, 0, 1, 4, 3] (by decide) ⟨1, 2, true⟩ (by decide),
    hlists coherent_two_groups 5 3 (by decide)⟩

/-- Two pairs that share their first slot leave the two others unordered: related components get
different canonical indices, or one vanishes and the other does not. The signs of a symmetric and
an antisymmetric pair that meet contradict each other. -/
theorem exchanges_disagree_at_shared_slot :
    (∃ s, ofModifier? "sym01_sym02" = some s ∧ ∃ p ∈ s.slotPairs,
      ¬ Agree p.antisymmetric (s.canonicalize [0, 1, 2]) (s.canonicalize (p.exchange [0, 1, 2]))) ∧
    (∃ s, ofModifier? "anti01_anti02" = some s ∧ ∃ p ∈ s.slotPairs,
      ¬ Agree p.antisymmetric (s.canonicalize [0, 1, 1]) (s.canonicalize (p.exchange [0, 1, 1]))) ∧
    (∃ s, ofModifier? "sym01_anti12" = some s ∧ ∃ p ∈ s.slotPairs,
      ¬ Agree p.antisymmetric (s.canonicalize [2, 1, 0]) (s.canonicalize (p.exchange [2, 1, 0]))) := by
  refine ⟨⟨pairs [⟨0, 1, false⟩, ⟨0, 2, false⟩], rfl, ?_⟩,
    ⟨pairs [⟨0, 1, true⟩, ⟨0, 2, true⟩], rfl, ?_⟩, ⟨pairs [⟨0, 1, false⟩, ⟨1, 2, true⟩], rfl, ?_⟩⟩
  all_goals decide

end Symmetry

end TensorCalculus
