import TensorCalculus.Proofs.Formula.Safety

/-! New names for free indices. A dummy is a name that does not occur, and to rename a free
index to one keeps the discipline. -/
namespace TensorCalculus

variable {f f' : Formula} {x name : String} {key : String × Height} {taken : List String}
  {ts : List Formula} {height : Height} {indices : List Index} {i : Index}

open List Index Formula

theorem dummyName_eq (n : Nat) :
    (dummyName n).toList =
      Char.ofNat (97 + n % 26) :: if n < 26 then [] else (toString (n / 26)).toList := by
  unfold dummyName
  dsimp only
  split
  · simp [Char.toString]
  · simp [Char.toString]

theorem toNat_letter (n : Nat) : (Char.ofNat (97 + n % 26)).toNat = 97 + n % 26 := by
  have hletters : ∀ k < 26, (Char.ofNat (97 + k)).toNat = 97 + k := by decide
  exact hletters (n % 26) (Nat.mod_lt n (by decide))

theorem dummyName_injective {m n : Nat} (h : dummyName m = dummyName n) : m = n := by
  have hlist := congrArg String.toList h
  rw [dummyName_eq, dummyName_eq, List.cons.injEq] at hlist
  obtain ⟨hletter, hdigits⟩ := hlist
  have hremainder : m % 26 = n % 26 := by
    have hnat := congrArg Char.toNat hletter
    rw [toNat_letter, toNat_letter] at hnat
    omega
  have hne (k : Nat) : (toString k).toList ≠ [] := by
    simp [Nat.toString_eq_repr]
  have hquotient : m / 26 = n / 26 := by
    split at hdigits <;> split at hdigits
    · omega
    · exact absurd hdigits.symm (hne _)
    · exact absurd hdigits (hne _)
    · exact Nat.repr_injective (String.toList_inj.mp hdigits)
  omega

theorem freshName_spec (taken : List String) :
    ∃ k, freshName taken = dummyName k ∧ dummyName k ∉ taken ∧ ∀ j < k, dummyName j ∈ taken := by
  have hsome : ((List.range (taken.length + 1)).find?
      ((!taken.contains ·) ∘ dummyName)).isSome := by
    by_contra hnone
    have hall : ∀ j ∈ List.range (taken.length + 1), dummyName j ∈ taken := by
      simpa using hnone
    have hnodup : ((List.range (taken.length + 1)).map dummyName).Nodup :=
      nodup_range.map fun _ _ => dummyName_injective
    have hsubset : (List.range (taken.length + 1)).map dummyName ⊆ taken := by
      intro x hx
      obtain ⟨j, hj, rfl⟩ := mem_map.mp hx
      exact hall j hj
    have hlength := (subperm_of_subset hnodup hsubset).length_le
    rw [length_map, length_range] at hlength
    omega
  obtain ⟨k, hk⟩ := Option.isSome_iff_exists.mp hsome
  have hfind := find?_range_eq_some.mp hk
  refine ⟨k, ?_, by simpa using hfind.1, fun j hj => by simpa using hfind.2.2 j hj⟩
  rw [freshName, find?_map, hk]
  rfl

theorem freshName_not_mem (taken : List String) : freshName taken ∉ taken := by
  obtain ⟨k, hk, hnot, _⟩ := freshName_spec taken
  rw [hk]
  exact hnot

theorem freshName_congr {xs ys : List String} (h : ∀ x, x ∈ xs ↔ x ∈ ys) :
    freshName xs = freshName ys := by
  obtain ⟨k, hk, hnot, hbelow⟩ := freshName_spec xs
  obtain ⟨k', hk', hnot', hbelow'⟩ := freshName_spec ys
  have hkk : k = k' := by
    rcases Nat.lt_trichotomy k k' with hlt | heq | hlt
    · exact absurd ((h _).mpr (hbelow' k hlt)) hnot
    · exact heq
    · exact absurd ((h _).mp (hbelow k' hlt)) hnot'
  rw [hk, hk', hkk]

theorem dummyName_ne_summationName (m n : Nat) : dummyName m ≠ summationName n := by
  intro h
  have hlist := congrArg String.toList h
  rw [dummyName_eq, summationName, String.toList_append, cons_eq_append_iff] at hlist
  have hchar : Char.ofNat (97 + m % 26) = '_' := by
    rcases hlist with ⟨hnil, _⟩ | ⟨rest, hrest, _⟩
    · simp at hnil
    · have hrest : ['_'] = Char.ofNat (97 + m % 26) :: rest := hrest
      exact (List.cons.inj hrest).1.symm
  have hnat := congrArg Char.toNat hchar
  rw [toNat_letter] at hnat
  have hunderscore : '_'.toNat = 95 := rfl
  omega

/-- Whether a name is an underscore and digits, as the names of summation indices are. -/
def isReserved (name : String) : Bool :=
  match name.toList with
  | '_' :: cs => cs.all Char.isDigit
  | _ => false

theorem isReserved_summationName (k : Nat) : isReserved (summationName k) := by
  have htext : (summationName k).toList = '_' :: (toString k).toList :=
    String.toList_append ..
  rw [isReserved, htext]
  apply all_eq_true.mpr
  intro c hc
  apply Nat.isDigit_of_mem_toDigits (b := 10) (n := k) (by decide) (by decide)
  simpa using hc

theorem summationName_not_mem {names : List String} (h : ∀ x ∈ names, isReserved x = false)
    (k : Nat) : summationName k ∉ names := by
  intro hk
  have hreserved := isReserved_summationName k
  rw [h _ hk] at hreserved
  cases hreserved

def renameKey (source target : String) (key : String × Height) : String × Height :=
  (if key.1 = source then target else key.1, key.2)

theorem namedIndices_rename (source target : String) (indices : List Index) :
    namedIndices (indices.map (rename source target)) =
      (namedIndices indices).map (renameKey source target) := by
  rw [namedIndices, namedIndices, filterMap_map, map_filterMap]
  congr 1
  funext i
  rw [Function.comp_apply, name?_rename, rename_height]
  cases i.name? <;> rfl

theorem mem_indexNames_of_namedIndices (h : key ∈ namedIndices indices) :
    key.1 ∈ indices.filterMap name? := by
  obtain ⟨i, hi, heq⟩ := mem_filterMap.mp h
  obtain ⟨name, hname, rfl⟩ := Option.map_eq_some_iff.mp heq
  exact mem_filterMap.mpr ⟨i, hi, hname⟩

section RenameKey

variable {source target : String} {keys : List (String × Height)}
  (h : ∀ key ∈ keys, key.1 ≠ target)
include h

theorem renameKey_injOn {k k' : String × Height} (hk : k ∈ keys) (hk' : k' ∈ keys)
    (heq : renameKey source target k = renameKey source target k') : k = k' := by
  obtain ⟨name, height⟩ := k
  obtain ⟨name', height'⟩ := k'
  have hname : name ≠ target := h _ hk
  have hname' : name' ≠ target := h _ hk'
  unfold renameKey at heq
  grind

theorem nodup_map_renameKey : (keys.map (renameKey source target)).Nodup ↔ keys.Nodup :=
  ⟨fun hmap => hmap.of_map _, fun hkeys => hkeys.map_on fun _ hk _ hk' => renameKey_injOn h hk hk'⟩

theorem singles_map_renameKey :
    singles (keys.map (renameKey source target)) = (singles keys).map (renameKey source target) := by
  unfold singles
  rw [filter_map]
  congr 1
  apply filter_congr
  intro k hk
  have hcount : (keys.map (renameKey source target)).countP
      (·.1 == (renameKey source target k).1) = keys.countP (·.1 == k.1) := by
    rw [countP_map]
    apply countP_congr
    intro k' hk'
    have hname := h _ hk
    have hname' := h _ hk'
    simp only [renameKey, Function.comp_apply]
    grind
  exact congrArg (· == 1) hcount

end RenameKey

namespace Formula

theorem mem_indexNames_of_freeNames (h : key ∈ f.freeNames) : key.1 ∈ f.indexNames := by
  have hsingles {keys : List (String × Height)} (h : key ∈ singles keys) : key ∈ keys :=
    (singles_sublist keys).subset h
  induction f using induction with
  | num q => cases h
  | sym s => cases h
  | tensor t => exact mem_indexNames_of_namedIndices (hsingles h)
  | derivative kind i operand dimension span ih =>
    rw [indexNames, mem_append]
    rcases mem_append.mp (hsingles h) with h | h
    · exact .inr (ih h)
    · obtain ⟨j, hj, hname⟩ := mem_filterMap.mp (mem_indexNames_of_namedIndices h)
      obtain rfl := mem_singleton.mp hj
      exact .inl (Option.mem_toList.mpr hname)
  | sum ts ih =>
    cases ts with
    | nil => cases h
    | cons t ts =>
      rw [indexNames, indexNameLists, mem_append]
      exact .inl (ih t mem_cons_self h)
  | product fs ih =>
    have h := hsingles h
    rw [freeNameLists_eq, mem_flatMap] at h
    obtain ⟨f, hf, h⟩ := h
    rw [indexNames, indexNameLists_eq, mem_flatMap]
    exact ⟨f, hf, ih f hf h⟩
  | power b e _ _ => cases h
  | fn g a _ => cases h
  | contraction index dimension body ih =>
    rw [indexNames, mem_cons]
    exact .inr (ih (mem_filter.mp h).1)

section Rename

variable {source target : String}

theorem mem_indexNames_rename (h : x ∈ (f.rename source target).indexNames) :
    x = target ∨ x ∈ f.indexNames := by
  rw [mem_indexNames_iff, boundNames_rename] at h
  rw [mem_indexNames_iff]
  rcases h with h | h
  · obtain ⟨w, hw, rfl⟩ := exists_of_mem_openNames_rename h
    split
    · exact .inl rfl
    · exact .inr (.inl hw)
  · exact .inr (.inr h)

theorem freeNames_rename (ht : target ∉ f.indexNames) :
    (f.rename source target).freeNames = f.freeNames.map (renameKey source target) := by
  have hkeys (g : Formula) (hg : target ∉ g.indexNames) : ∀ key ∈ g.freeNames, key.1 ≠ target := by
    rintro key hkey rfl
    exact hg (mem_indexNames_of_freeNames hkey)
  have hindices (indices : List Index) (hi : target ∉ indices.filterMap name?) :
      ∀ key ∈ namedIndices indices, key.1 ≠ target := by
    rintro key hkey rfl
    exact hi (mem_indexNames_of_namedIndices hkey)
  induction f using induction with
  | num q => rfl
  | sym s => rfl
  | tensor t =>
    rw [rename, freeNames, freeNames, ← singles_map_renameKey (hindices _ ht),
      ← namedIndices_rename]
    rfl
  | derivative kind i operand dimension span ih =>
    rw [indexNames, mem_append, not_or] at ht
    have hi : target ∉ [i].filterMap name? := by
      simpa [Option.mem_toList] using ht.1
    rw [rename, freeNames, freeNames, ih ht.2, ← singles_map_renameKey, map_append,
      ← namedIndices_rename]
    · rfl
    · rw [forall_mem_append]
      exact ⟨hkeys operand ht.2, hindices _ hi⟩
  | sum ts ih =>
    cases ts with
    | nil => rfl
    | cons t ts =>
      rw [indexNames, indexNameLists, mem_append, not_or] at ht
      exact ih t mem_cons_self ht.1
  | product fs ih =>
    rw [indexNames, indexNameLists_eq, mem_flatMap, not_exists] at ht
    rw [rename, freeNames, freeNames, freeNameLists_eq, freeNameLists_eq, renameAll_eq,
      ← singles_map_renameKey, flatMap_map, map_flatMap]
    · congr 1
      exact flatMap_congr fun f hf => ih f hf fun hmem => ht f ⟨hf, hmem⟩
    · intro key hkey
      obtain ⟨f, hf, hkey⟩ := mem_flatMap.mp hkey
      exact hkeys f (fun hmem => ht f ⟨hf, hmem⟩) key hkey
  | power b e _ _ => rfl
  | fn g a _ => rfl
  | contraction index dimension body ih =>
    rw [indexNames, mem_cons, not_or] at ht
    rw [rename, freeNames, freeNames]
    split
    · next h =>
      -- nothing inside is renamed, and the name is not free
      refine ((map_congr_left fun key hkey => ?_).trans (map_id _)).symm
      have hne : key.1 ≠ source := h ▸ bne_iff_ne.mp (mem_filter.mp hkey).2
      simp [renameKey, hne]
    · next h =>
      rw [ih ht.2, filter_map]
      congr 1
      apply filter_congr
      intro key _
      simp only [Function.comp_apply, renameKey]
      split
      · next hkey => rw [hkey, bne_iff_ne.mpr ht.1, bne_iff_ne.mpr (Ne.symm h)]
      · rfl

theorem Disciplined.rename (hf : f.Disciplined) (ht : target ∉ f.indexNames) :
    (f.rename source target).Disciplined := by
  induction f using induction with
  | num q => trivial
  | sym s => trivial
  | tensor t =>
    change (namedIndices (t.indices.map (Index.rename source target))).Nodup
    rw [namedIndices_rename, nodup_map_renameKey]
    · exact hf
    · rintro key hkey rfl
      exact ht (mem_indexNames_of_namedIndices hkey)
  | derivative kind i operand dimension span ih =>
    rw [indexNames, mem_append, not_or] at ht
    refine ⟨ih hf.1 ht.2, ?_⟩
    have hi : namedIndices [i.rename source target] =
        (namedIndices [i]).map (renameKey source target) := namedIndices_rename _ _ [i]
    rw [freeNames_rename ht.2, hi, ← map_append, nodup_map_renameKey]
    · exact hf.2
    · rw [forall_mem_append]
      constructor
      · rintro key hkey rfl
        exact ht.2 (mem_indexNames_of_freeNames hkey)
      · rintro key hkey rfl
        have := mem_indexNames_of_namedIndices hkey
        exact ht.1 (by simpa [Option.mem_toList] using this)
  | sum ts ih =>
    rw [indexNames, indexNameLists_eq, mem_flatMap, not_exists] at ht
    obtain ⟨hall, hsame⟩ := hf
    rw [allDisciplined_iff] at hall
    have hfree (t : Formula) (hmem : t ∈ ts) :
        (t.rename source target).freeNames = t.freeNames.map (renameKey source target) :=
      freeNames_rename fun h => ht t ⟨hmem, h⟩
    rw [Formula.rename, renameAll_eq]
    refine ⟨allDisciplined_iff.mpr ?_, ?_⟩
    · intro t' ht'
      obtain ⟨t, hmem, rfl⟩ := mem_map.mp ht'
      exact ih t hmem (hall t hmem) fun h => ht t ⟨hmem, h⟩
    · intro t' ht' key
      obtain ⟨t, hmem, rfl⟩ := mem_map.mp ht'
      cases ts with
      | nil => cases hmem
      | cons first ts =>
        have hfirst : (sum ((first :: ts).map (Formula.rename source target))).freeNames =
            first.freeNames.map (renameKey source target) := hfree first mem_cons_self
        rw [hfree t hmem, hfirst, mem_map, mem_map]
        exact exists_congr fun k => and_congr_left fun _ => hsame t hmem k
  | product fs ih =>
    rw [indexNames, indexNameLists_eq, mem_flatMap, not_exists] at ht
    obtain ⟨hall, hnodup⟩ := hf
    rw [allDisciplined_iff] at hall
    rw [freeNameLists_eq] at hnodup
    rw [Formula.rename, renameAll_eq]
    refine ⟨allDisciplined_iff.mpr ?_, ?_⟩
    · intro f' hf'
      obtain ⟨f, hmem, rfl⟩ := mem_map.mp hf'
      exact ih f hmem (hall f hmem) fun h => ht f ⟨hmem, h⟩
    · have hfree : freeNameLists (fs.map (Formula.rename source target)) =
          (fs.flatMap freeNames).map (renameKey source target) := by
        rw [freeNameLists_eq, flatMap_map, map_flatMap]
        exact flatMap_congr fun f hmem => freeNames_rename fun h => ht f ⟨hmem, h⟩
      rw [hfree, nodup_map_renameKey]
      · exact hnodup
      · rintro key hkey rfl
        obtain ⟨f, hmem, hkey⟩ := mem_flatMap.mp hkey
        exact ht f ⟨hmem, mem_indexNames_of_freeNames hkey⟩
  | power b e hb he =>
    rw [indexNames, mem_append, not_or] at ht
    obtain ⟨⟨hbase, hb'⟩, hexponent, he'⟩ := hf
    refine ⟨⟨hb hbase ht.1, ?_⟩, he hexponent ht.2, ?_⟩
    · rw [freeNames_rename ht.1, hb', map_nil]
    · rw [freeNames_rename ht.2, he', map_nil]
  | fn g a ih =>
    have ha : target ∉ a.indexNames := ht
    refine ⟨ih hf.1 ha, ?_⟩
    rw [freeNames_rename ha, hf.2, map_nil]
  | contraction index dimension body ih =>
    rw [indexNames, mem_cons, not_or] at ht
    rw [Formula.rename]
    split
    · exact hf
    · exact ih hf ht.2

end Rename

end Formula

/-! One covariant derivative in place. Each term with the connection has the free indices of
the partial derivative, also where the index of the derivative is contracted with one of the
operand. -/

section Correction

variable {keys own connection : List (String × Height)} {dummy : String}

section

variable (hnames : (keys.map (·.1)).Nodup) (hname : (name, height) ∈ keys)
include hnames hname

theorem mem_map_renameKey (key : String × Height) :
    key ∈ keys.map (renameKey name dummy) ↔ key = (dummy, height) ∨ key ∈ keys ∧ key.1 ≠ name := by
  have hunique {k : String × Height} (hk : k ∈ keys) (hkname : k.1 = name) :
      k = (name, height) :=
    inj_on_of_nodup_map hnames hk hname hkname
  rw [mem_map]
  constructor
  · rintro ⟨k, hk, rfl⟩
    by_cases h : k.1 = name
    · rw [hunique hk h]
      exact .inl (by simp [renameKey])
    · refine .inr ?_
      have hself : renameKey name dummy k = k := by simp [renameKey, h]
      rw [hself]
      exact ⟨hk, h⟩
  · rintro (rfl | ⟨hkey, hne⟩)
    · exact ⟨_, hname, by simp [renameKey]⟩
    · exact ⟨key, hkey, by simp [renameKey, hne]⟩

/-- The indices of a connection and of an operand with the dummy leave those of the operand and
of the derivative, where the dummy stands for `name`. -/
theorem singles_correction (hnodup : (keys ++ own).Nodup)
    (hdummy : ∀ key ∈ keys ++ own, key.1 ≠ dummy)
    (hconnection : connection.Perm ((name, height) :: (dummy, height.flip) :: own)) :
    connection.Nodup ∧ (singles connection ++ keys.map (renameKey name dummy)).Nodup ∧
      ∀ key, key ∈ singles (singles connection ++ keys.map (renameKey name dummy)) ↔
        key ∈ singles (keys ++ own) := by
  have hrenamed (key : String × Height) : key ∈ keys.map (renameKey name dummy) ↔
      key = (dummy, height) ∨ key ∈ keys ∧ key.1 ≠ name := mem_map_renameKey hnames hname key
  have hflip : height.flip ≠ height := by cases height <;> decide
  have hback : height.flip.flip = height := Height.flip_flip height
  obtain ⟨hkeys, hown, hdisjoint⟩ := nodup_append'.mp hnodup
  have hpartner : (name, height.flip) ∉ keys := by
    intro h
    have := inj_on_of_nodup_map hnames h hname rfl
    simp [hflip] at this
  have hconn : connection.Nodup := by
    rw [hconnection.nodup_iff]
    have hne : name ≠ dummy := hdummy _ (mem_append_left _ hname)
    have hnotown : (name, height) ∉ own := fun h => hdisjoint hname h
    have hdummyown : (dummy, height.flip) ∉ own :=
      fun h => hdummy _ (mem_append_right _ h) rfl
    simp [hne, hnotown, hdummyown, hown]
  have hmem (key : String × Height) : key ∈ connection ↔
      key = (name, height) ∨ key = (dummy, height.flip) ∨ key ∈ own := by
    rw [hconnection.mem_iff, mem_cons, mem_cons]
  have hsingles (key : String × Height) : key ∈ singles connection ↔
      key ∈ connection ∧ opposite key ∉ connection := mem_singles hconn
  have hall : (singles connection ++ keys.map (renameKey name dummy)).Nodup := by
    refine nodup_append'.mpr ⟨hconn.sublist (singles_sublist _), ?_, ?_⟩
    · rw [nodup_map_renameKey fun key hkey => hdummy key (mem_append_left _ hkey)]
      exact hkeys
    · intro key hkey hkey'
      rw [hsingles, hmem] at hkey
      rw [hrenamed] at hkey'
      grind
  refine ⟨hconn, hall, fun key => ?_⟩
  have hdouble (k : String × Height) : opposite (opposite k) = k := by
    simp [opposite, Height.flip_flip]
  have hfst (k : String × Height) : (opposite k).1 = k.1 := rfl
  rw [mem_singles hall, mem_singles hnodup]
  simp only [mem_append, hsingles, hmem, hrenamed, hdouble, hfst]
  -- what is left is a matter of the name alone
  have hkeydummy : ∀ k ∈ keys, k.1 ≠ dummy := fun k hk => hdummy k (mem_append_left _ hk)
  have howndummy : ∀ k ∈ own, k.1 ≠ dummy := fun k hk => hdummy k (mem_append_right _ hk)
  have hunique : ∀ k ∈ keys, k.1 = name → k = (name, height) :=
    fun k hk hkname => inj_on_of_nodup_map hnames hk hname hkname
  have hpair : ∀ k ∈ keys, opposite k ∉ keys := by
    intro k hk hk'
    have := inj_on_of_nodup_map hnames hk hk' rfl
    obtain ⟨n, h⟩ := k
    cases h <;> cases this
  have hne := hkeydummy _ hname
  have hdisjoint : ∀ k ∈ keys, k ∉ own := fun k hk hk' => hdisjoint hk hk'
  clear hsingles hmem hrenamed hconnection hall hconn hnames hdummy hnodup hkeys hown
  obtain ⟨n, h⟩ := key
  cases h <;> cases height <;> simp only [opposite, Height.flip] at * <;> grind

end

/-- An index that a metric raises: the metric has it together with a dummy, which is the index
of the derivative in its place. -/
theorem singles_raising {lowered : List (String × Height)} (hnames : (keys.map (·.1)).Nodup)
    (hown : (own.map (·.1)).Nodup) (hnodup : (keys ++ own).Nodup)
    (hdummy : ∀ key ∈ keys ++ own, key.1 ≠ dummy) (hlowered : lowered.Nodup)
    (hmem : ∀ key, key ∈ lowered ↔ key ∈ singles (keys ++ [(dummy, .lower)])) :
    (own ++ [(dummy, Height.upper)]).Nodup ∧ (singles (own ++ [(dummy, .upper)]) ++ lowered).Nodup ∧
      ∀ key, key ∈ singles (singles (own ++ [(dummy, .upper)]) ++ lowered) ↔
        key ∈ singles (keys ++ own) := by
  have hkeydummy : ∀ k ∈ keys, k.1 ≠ dummy := fun k hk => hdummy k (mem_append_left _ hk)
  have howndummy : ∀ k ∈ own, k.1 ≠ dummy := fun k hk => hdummy k (mem_append_right _ hk)
  have hall : ((own ++ [(dummy, Height.upper)]).map (·.1)).Nodup := by
    rw [map_append, nodup_append']
    refine ⟨hown, nodup_singleton _, fun x hx hx' => ?_⟩
    obtain ⟨k, hk, rfl⟩ := mem_map.mp hx
    exact howndummy k hk (mem_singleton.mp hx')
  have hlower : ((keys ++ [(dummy, Height.lower)]).map (·.1)).Nodup := by
    rw [map_append, nodup_append']
    refine ⟨hnames, nodup_singleton _, fun x hx hx' => ?_⟩
    obtain ⟨k, hk, rfl⟩ := mem_map.mp hx
    exact hkeydummy k hk (mem_singleton.mp hx')
  obtain ⟨_, _, hdisjoint⟩ := nodup_append'.mp hnodup
  rw [singles_of_nodup hlower] at hmem
  rw [singles_of_nodup hall]
  have hproduct : (own ++ [(dummy, Height.upper)] ++ lowered).Nodup := by
    refine nodup_append'.mpr ⟨hall.of_map _, hlowered, fun k hk hk' => ?_⟩
    rw [hmem, mem_append, mem_singleton] at hk'
    rw [mem_append, mem_singleton] at hk
    rcases hk with hk | rfl <;> rcases hk' with hk' | hk'
    · exact hdisjoint hk' hk
    · exact howndummy k hk (by rw [hk'])
    · exact hkeydummy _ hk' rfl
    · cases hk'
  refine ⟨hall.of_map _, hproduct, fun key => ?_⟩
  rw [mem_singles hproduct, mem_singles hnodup]
  simp only [mem_append, mem_singleton, hmem]
  have hfst : (opposite key).1 = key.1 := rfl
  have hdouble : opposite key = (dummy, .lower) ↔ key = (dummy, .upper) := by
    obtain ⟨n, h⟩ := key
    cases h <;> simp [opposite, Height.flip]
  have hdouble' : opposite key = (dummy, .upper) ↔ key = (dummy, .lower) := by
    obtain ⟨n, h⟩ := key
    cases h <;> simp [opposite, Height.flip]
  grind

end Correction

namespace Formula

mutual

def isLowered : Formula → Bool
  | num _ | sym _ | tensor _ => true
  | derivative kind i operand _ _ =>
    kind = .partialDerivative && i.height = .lower && operand.isLowered
  | sum ts => allLowered ts
  | product fs => allLowered fs
  | power b e => b.isLowered && e.isLowered
  | fn _ a => a.isLowered
  | contraction _ _ body => body.isLowered

def allLowered : List Formula → Bool
  | [] => true
  | f :: fs => f.isLowered && allLowered fs

end

theorem allLowered_eq (fs : List Formula) : allLowered fs = fs.all isLowered := by
  induction fs with
  | nil => rfl
  | cons f fs ih => rw [allLowered, ih, all_cons]

theorem allLowered_map {g : Formula → Formula} {fs : List Formula}
    (h : ∀ f ∈ fs, (g f).isLowered = f.isLowered) : allLowered (fs.map g) = allLowered fs := by
  induction fs with
  | nil => rfl
  | cons f fs ih =>
    rw [forall_mem_cons] at h
    rw [map_cons, allLowered, allLowered, h.1, ih h.2]

theorem isLowered_rename (source target : String) (f : Formula) :
    (f.rename source target).isLowered = f.isLowered := by
  induction f using induction with
  | num q => rfl
  | sym s => rfl
  | tensor t => rfl
  | derivative kind i operand dimension span ih =>
    simp only [rename, isLowered, rename_height, ih]
  | sum ts ih | product ts ih =>
    simp only [rename, isLowered, renameAll_eq]
    exact allLowered_map ih
  | power b e hb he => simp only [rename, isLowered, hb, he]
  | fn g a ih => exact ih
  | contraction index dimension body ih =>
    simp only [rename, isLowered]
    split
    · rfl
    · exact ih

/-- The discipline holds, with free indices among `keys` and all of these. -/
structure HasIndices (f : Formula) (keys : List (String × Height)) : Prop where
  disciplined : f.Disciplined
  free : ∀ key, key ∈ f.freeNames ↔ key ∈ keys

namespace HasIndices

theorem ofTerms {t : Formula} {keys : List (String × Height)}
    (h : ∀ t' ∈ t :: ts, t'.HasIndices keys) : (ofTerms (t :: ts)).HasIndices keys := by
  have ht := h t mem_cons_self
  cases ts with
  | nil => exact ht
  | cons t' ts =>
    refine ⟨⟨allDisciplined_iff.mpr fun t' ht' => (h t' ht').disciplined, ?_⟩, ht.free⟩
    intro t' ht' key
    rw [(h t' ht').free key, ← ht.free key]
    rfl

theorem append (h : f'.HasIndices f.freeNames) {own : List (String × Height)}
    (hnodup : (f.freeNames ++ own).Nodup) :
    (f'.freeNames ++ own).Nodup ∧
      ∀ key, key ∈ singles (f'.freeNames ++ own) ↔ key ∈ singles (f.freeNames ++ own) := by
  obtain ⟨_, hown, hdisjoint⟩ := nodup_append'.mp hnodup
  have hnodup' : (f'.freeNames ++ own).Nodup :=
    nodup_append'.mpr ⟨nodup_freeNames f', hown,
      fun key hkey => hdisjoint ((h.free key).mp hkey)⟩
  refine ⟨hnodup', fun key => ?_⟩
  simp only [mem_singles hnodup, mem_singles hnodup', mem_append, h.free]

theorem of_nil (h : f'.HasIndices f.freeNames) (hnil : f.freeNames = []) :
    f'.Disciplined ∧ f'.freeNames = [] := by
  refine ⟨h.disciplined, eq_nil_iff_forall_not_mem.mpr fun key hkey => ?_⟩
  have := (h.free key).mp hkey
  rw [hnil] at this
  cases this

section Lists

variable {fs fs' : List Formula} (h : Forall₂ (fun f f' => f'.HasIndices f.freeNames) fs fs')
include h

theorem allDisciplined : AllDisciplined fs' := by
  induction h with
  | nil => trivial
  | cons hf _ ih => exact ⟨hf.disciplined, ih⟩

theorem exists_of_mem (hf' : f' ∈ fs') : ∃ f ∈ fs, f'.HasIndices f.freeNames := by
  induction h with
  | nil => cases hf'
  | cons hf _ ih =>
    rcases mem_cons.mp hf' with rfl | hf'
    · exact ⟨_, mem_cons_self, hf⟩
    · obtain ⟨f, hmem, hindices⟩ := ih hf'
      exact ⟨f, mem_cons_of_mem _ hmem, hindices⟩

theorem mem_freeNameLists (key : String × Height) :
    key ∈ freeNameLists fs' ↔ key ∈ freeNameLists fs := by
  induction h with
  | nil => exact Iff.rfl
  | cons hf _ ih =>
    rw [freeNameLists, freeNameLists, mem_append, mem_append, hf.free, ih]

theorem nodup_freeNameLists (hnodup : (freeNameLists fs).Nodup) : (freeNameLists fs').Nodup := by
  induction h with
  | nil => exact .nil
  | cons hf hfs ih =>
    obtain ⟨_, hrest, hdisjoint⟩ := nodup_append'.mp hnodup
    refine nodup_append'.mpr ⟨nodup_freeNames _, ih hrest, fun key hkey hkey' => ?_⟩
    exact hdisjoint ((hf.free key).mp hkey) ((mem_freeNameLists hfs key).mp hkey')

theorem product (hd : (product fs).Disciplined) :
    (product fs').HasIndices (product fs).freeNames := by
  have hnodup := nodup_freeNameLists h hd.2
  refine ⟨⟨allDisciplined h, hnodup⟩, fun key => ?_⟩
  rw [freeNames, freeNames, mem_singles hnodup, mem_singles hd.2, mem_freeNameLists h,
    mem_freeNameLists h]

theorem sum (hd : (Formula.sum fs).Disciplined) :
    (Formula.sum fs').HasIndices (Formula.sum fs).freeNames := by
  have hterms : ∀ f' ∈ fs', ∀ key, key ∈ f'.freeNames ↔ key ∈ (Formula.sum fs).freeNames := by
    intro f' hf' key
    obtain ⟨f, hf, hindices⟩ := exists_of_mem h hf'
    rw [hindices.free, hd.2 f hf]
  have hfirst : ∀ key, key ∈ (Formula.sum fs').freeNames ↔ key ∈ (Formula.sum fs).freeNames := by
    cases h with
    | nil => exact fun _ => Iff.rfl
    | @cons f f' fs fs' hf _ => exact hterms f' mem_cons_self
  refine ⟨⟨allDisciplined h, fun f' hf' key => ?_⟩, hfirst⟩
  rw [hterms f' hf', hfirst]

end Lists

end HasIndices

section Step

variable {mark : Diacritic} {dummy : String}

theorem connectionTerm_hasIndices (hf : f.Disciplined)
    (hnodup : (f.freeNames ++ namedIndices [i]).Nodup) (hdummy : dummy ∉ f.indexNames)
    (hindex : i.name? ≠ some dummy) (hname : (name, height) ∈ f.freeNames) :
    (connectionTerm mark name height dummy i (f.rename name dummy)).HasIndices
      (singles (f.freeNames ++ namedIndices [i])) := by
  have hdummies : ∀ key ∈ f.freeNames ++ namedIndices [i], key.1 ≠ dummy := by
    rw [forall_mem_append]
    constructor
    · rintro key hkey rfl
      exact hdummy (mem_indexNames_of_freeNames hkey)
    · rintro key hkey rfl
      apply hindex
      simpa using mem_indexNames_of_namedIndices hkey
  have hrenamed : (f.rename name dummy).Disciplined := hf.rename hdummy
  have hfree : (f.rename name dummy).freeNames = f.freeNames.map (renameKey name dummy) :=
    freeNames_rename hdummy
  cases height with
  | upper =>
    obtain ⟨hconnection, hnodup, hmem⟩ := singles_correction (nodup_map_fst_freeNames f) hname
      hnodup hdummies (.refl _)
    refine ⟨⟨⟨hconnection, hrenamed, trivial⟩, ?_⟩, ?_⟩
    all_goals simp only [connectionTerm, freeNames, freeNameLists, append_nil, hfree]
    · exact hnodup
    · exact hmem
  | lower =>
    obtain ⟨hconnection, hnodup, hmem⟩ := singles_correction (nodup_map_fst_freeNames f) hname
      hnodup hdummies (.swap _ _ _)
    refine ⟨⟨⟨trivial, hconnection, hrenamed, trivial⟩, ?_⟩, ?_⟩
    all_goals simp only [connectionTerm, freeNames, freeNameLists, append_nil, hfree]
    · exact hnodup
    · exact hmem

theorem covariantStep_hasIndices (hf : f.Disciplined) (hi : i.height = .lower)
    (hnodup : (f.freeNames ++ namedIndices [i]).Nodup) (taken : List String) :
    (f.covariantStep mark i taken).1.HasIndices (singles (f.freeNames ++ namedIndices [i])) := by
  have hlower : { i with height := .lower } = i := by rw [← hi]
  unfold covariantStep
  dsimp only
  rw [hlower]
  have hfresh := freshName_not_mem (taken ++ f.indexNames ++ i.name?.toList)
  generalize freshName (taken ++ f.indexNames ++ i.name?.toList) = dummy at hfresh ⊢
  simp only [mem_append, Option.mem_toList, not_or] at hfresh
  apply HasIndices.ofTerms
  rw [forall_mem_cons]
  refine ⟨⟨⟨hf, hnodup⟩, fun key => Iff.rfl⟩, ?_⟩
  intro t ht
  obtain ⟨⟨name, height⟩, hname, rfl⟩ := mem_map.mp ht
  exact connectionTerm_hasIndices hf hnodup hfresh.1.2 hfresh.2 hname

theorem mem_indexNames_ofTerms (h : x ∈ (ofTerms ts).indexNames) : ∃ t ∈ ts, x ∈ t.indexNames := by
  unfold ofTerms at h
  split at h
  · exact ⟨_, mem_singleton_self _, h⟩
  · rw [indexNames, indexNameLists_eq] at h
    exact mem_flatMap.mp h

theorem mem_indexNames_connectionTerm
    (h : x ∈ (connectionTerm mark name height dummy i f).indexNames) :
    x = name ∨ x = dummy ∨ i.name? = some x ∨ x ∈ f.indexNames := by
  cases height <;>
    simp only [connectionTerm, connection, integer, indexNames, indexNameLists, mem_append,
      TensorRef.ofBase, upper, lower, Index.named, name?, filterMap_cons,
      filterMap_nil] at h <;>
    grind [name?]

theorem mem_indexNames_covariantStep (h : x ∈ (f.covariantStep mark i taken).1.indexNames) :
    x = (f.covariantStep mark i taken).2 ∨ x ∈ f.indexNames ∨ i.name? = some x := by
  obtain ⟨t, ht, hx⟩ := mem_indexNames_ofTerms h
  have hindex : ({ i with height := .lower } : Index).name? = i.name? := rfl
  rcases mem_cons.mp ht with rfl | ht
  · rw [indexNames, hindex, mem_append, Option.mem_toList] at hx
    exact .inr hx.symm
  · obtain ⟨⟨name, height⟩, hname, rfl⟩ := mem_map.mp ht
    rcases mem_indexNames_connectionTerm hx with rfl | hx | hx | hx
    · exact .inr (.inl (mem_indexNames_of_freeNames hname))
    · exact .inl hx
    · exact .inr (.inr hx)
    · exact (mem_indexNames_rename hx).imp_right .inl

theorem isLowered_covariantStep (hf : f.isLowered) :
    (f.covariantStep mark i taken).1.isLowered := by
  have hterms {ts : List Formula} (h : ∀ t ∈ ts, t.isLowered) : (ofTerms ts).isLowered := by
    unfold ofTerms
    split
    · exact h _ (mem_singleton_self _)
    · rw [isLowered, allLowered_eq]
      exact all_eq_true.mpr h
  apply hterms
  rw [forall_mem_cons]
  refine ⟨by rw [isLowered, hf]; rfl, fun t ht => ?_⟩
  obtain ⟨⟨name, height⟩, _, rfl⟩ := mem_map.mp ht
  have hrenamed := (isLowered_rename name
    (freshName (taken ++ f.indexNames ++ (i.name?).toList)) f).trans hf
  cases height <;>
    simpa [connectionTerm, isLowered, allLowered, connection, integer, name?] using hrenamed

end Step

end Formula

/-! The dummies of repeated covariant derivatives. On the way down a branch each connection term
renames one index of the tensor to the first dummy that neither the whole derivative nor the tensor
as renamed so far has, and an index that was renamed before gives its dummy free. -/

structure Correction where
  name : String
  dummy : String

namespace Correction

def rename (c : Correction) (names : List String) : List String :=
  names.map fun x => if x = c.name then c.dummy else x

variable {c : Correction} {names : List String}

theorem mem_rename {x : String} :
    x ∈ c.rename names ↔ (x ∈ names ∧ x ≠ c.name) ∨ (x = c.dummy ∧ c.name ∈ names) := by
  rw [rename, mem_map]
  constructor
  · rintro ⟨y, hy, rfl⟩
    split
    · next h => exact .inr ⟨rfl, h ▸ hy⟩
    · next h => exact .inl ⟨hy, h⟩
  · rintro (⟨hx, hne⟩ | ⟨rfl, hname⟩)
    · exact ⟨x, hx, if_neg hne⟩
    · exact ⟨c.name, hname, if_pos rfl⟩

theorem rename_perm (hnodup : names.Nodup) (hname : c.name ∈ names) :
    (c.name :: c.rename names).Perm (c.dummy :: names) := by
  have hrest : c.rename (names.erase c.name) = names.erase c.name := by
    rw [rename, map_congr_left (g := id) fun x hx => ?_, map_id]
    exact if_neg fun h => hnodup.not_mem_erase (h ▸ hx)
  have hnames := perm_cons_erase hname
  have hrename : (c.rename names).Perm (c.dummy :: names.erase c.name) := by
    have h := hnames.map fun x => if x = c.name then c.dummy else x
    rw [map_cons, if_pos rfl] at h
    rwa [← hrest]
  exact (hrename.cons _).trans ((List.Perm.swap ..).trans (hnames.symm.cons _))

theorem nodup_rename (hnodup : names.Nodup) (hname : c.name ∈ names) (hdummy : c.dummy ∉ names) :
    (c.name :: c.rename names).Nodup :=
  (rename_perm hnodup hname).nodup_iff.mpr (nodup_cons.mpr ⟨hdummy, hnodup⟩)

end Correction

/-- The names of a tensor before and after some corrections, each with the first dummy that is
free at its turn. -/
inductive Corrected (taken : List String) : List String → List Correction → List String → Prop
  | nil {names : List String} : Corrected taken names [] names
  | cons {names final : List String} {c : Correction} {cs : List Correction} :
      c.name ∈ names → c.dummy = freshName (taken ++ names) →
      Corrected taken (c.rename names) cs final → Corrected taken names (c :: cs) final

/-- The dummies used so far, next to the names that the tensor has now. They are the first ones
that are not taken. -/
structure Used (taken original used names : List String) : Prop where
  reserved : ∀ x ∈ original, x ∈ taken
  nodup : names.Nodup
  origin : ∀ x ∈ names, x ∈ original ∨ x ∈ used
  first : ∀ x ∈ used, ∃ k, x = dummyName k ∧ x ∉ taken ∧
    ∀ j < k, dummyName j ∈ taken ∨ dummyName j ∈ used

section Run

variable {original used names final : List String} {c : Correction} {cs : List Correction}

theorem freshName_not_mem_append :
    freshName (taken ++ names) ∉ taken ∧ freshName (taken ++ names) ∉ names := by
  have h := freshName_not_mem (taken ++ names)
  rwa [mem_append, not_or] at h

/-- The next dummy is an old one as soon as the tensor has lost one of them. -/
theorem Used.freshName_mem_iff (h : Used taken original used names) :
    freshName (taken ++ names) ∈ used ↔ ∃ x ∈ used, x ∉ names := by
  refine ⟨fun hmem => ⟨_, hmem, freshName_not_mem_append.2⟩, ?_⟩
  rintro ⟨x, hx, hnot⟩
  obtain ⟨k, rfl, htaken, hbelow⟩ := h.first x hx
  obtain ⟨n, hn, hfresh, hleast⟩ := freshName_spec (taken ++ names)
  rw [hn]
  have hle : n ≤ k := by
    by_contra hlt
    have hk := hleast k (by omega)
    rw [mem_append] at hk
    exact hk.elim htaken hnot
  rcases Nat.lt_or_eq_of_le hle with hlt | rfl
  · exact (hbelow n hlt).resolve_left fun hmem => hfresh (mem_append_left _ hmem)
  · exact hx

theorem Used.rename (h : Used taken original used names) (hname : c.name ∈ names)
    (hdummy : c.dummy = freshName (taken ++ names)) :
    Used taken original (c.dummy :: used) (c.rename names) where
  reserved := h.reserved
  nodup := by
    have hfresh : c.dummy ∉ names := hdummy ▸ freshName_not_mem_append.2
    exact (nodup_cons.mp (Correction.nodup_rename h.nodup hname hfresh)).2
  origin x hx := by
    rcases Correction.mem_rename.mp hx with ⟨hx, -⟩ | ⟨rfl, -⟩
    · exact (h.origin x hx).imp_right (mem_cons_of_mem _)
    · exact .inr mem_cons_self
  first x hx := by
    rcases mem_cons.mp hx with rfl | hx
    · obtain ⟨n, hn, -, hleast⟩ := freshName_spec (taken ++ names)
      refine ⟨n, hdummy.trans hn, hdummy ▸ freshName_not_mem_append.1, fun j hj => ?_⟩
      rcases mem_append.mp (hleast j hj) with hj | hj
      · exact .inl hj
      · exact (h.origin _ hj).imp (h.reserved _) (mem_cons_of_mem _)
    · obtain ⟨k, hk, htaken, hbelow⟩ := h.first x hx
      exact ⟨k, hk, htaken, fun j hj => (hbelow j hj).imp_right (mem_cons_of_mem _)⟩

section

variable (h : Corrected taken names cs final)
include h

theorem Corrected.dummy_not_mem : ∀ c ∈ cs, c.dummy ∉ taken := by
  induction h with
  | nil => simp
  | cons _ hdummy _ ih =>
    exact forall_mem_cons.mpr ⟨hdummy ▸ freshName_not_mem_append.1, ih⟩

theorem Corrected.of_isPrefix {met : List Correction} (hmet : met <+: cs) :
    ∃ last, Corrected taken names met last := by
  induction h generalizing met with
  | nil =>
    rw [prefix_nil.mp hmet]
    exact ⟨_, .nil⟩
  | cons hname hdummy _ ih =>
    cases met with
    | nil => exact ⟨_, .nil⟩
    | cons c met =>
      obtain ⟨rfl, hrest⟩ := cons_prefix_cons.mp hmet
      obtain ⟨last, hlast⟩ := ih hrest
      exact ⟨last, .cons hname hdummy hlast⟩

theorem Corrected.perm (hnodup : names.Nodup) :
    (cs.map (·.name) ++ final).Perm (cs.map (·.dummy) ++ names) := by
  induction h with
  | nil => exact .refl _
  | @cons names final c cs hname hdummy _ ih =>
    have hfresh : c.dummy ∉ names := hdummy ▸ freshName_not_mem_append.2
    have hrename := Correction.nodup_rename hnodup hname hfresh
    have hstep := (ih (nodup_cons.mp hrename).2).cons c.name
    refine hstep.trans (perm_middle.symm.trans ?_)
    have hmove := (Correction.rename_perm hnodup hname).append_left (cs.map (·.dummy))
    exact hmove.trans perm_middle

/-- The dummies differ as long as no correction but the last one is that of a dummy. -/
theorem Corrected.nodup_iff (hused : Used taken original used names) (hnodup : used.Nodup)
    (hsubset : used ⊆ names) :
    (cs.map (·.dummy) ++ used).Nodup ↔ ∀ c ∈ cs.dropLast, c.name ∈ original := by
  induction h generalizing used with
  | nil => simpa using hnodup
  | @cons names final c cs hname hdummy htail ih =>
    have hfresh : c.dummy ∉ used := by
      rw [hdummy, hused.freshName_mem_iff]
      rintro ⟨x, hx, hnot⟩
      exact hnot (hsubset hx)
    have hdummy_new : c.dummy ∉ names := hdummy ▸ freshName_not_mem_append.2
    have hused' := hused.rename hname hdummy
    have hperm : (c.dummy :: cs.map (·.dummy) ++ used).Perm (cs.map (·.dummy) ++ c.dummy :: used) :=
      perm_middle.symm
    rw [map_cons, hperm.nodup_iff]
    cases htail with
    | nil => simpa using ⟨hfresh, hnodup⟩
    | @cons _ _ c' cs hname' hdummy' htail =>
      rw [dropLast_cons_of_ne_nil (by simp), forall_mem_cons]
      by_cases horiginal : c.name ∈ original
      · rw [ih hused' (nodup_cons.mpr ⟨hfresh, hnodup⟩) ?_, and_iff_right horiginal]
        refine cons_subset.mpr ⟨Correction.mem_rename.mpr (.inr ⟨rfl, hname⟩), fun x hx => ?_⟩
        obtain ⟨-, -, htaken, -⟩ := hused.first x hx
        refine Correction.mem_rename.mpr (.inl ⟨hsubset hx, ?_⟩)
        rintro rfl
        exact htaken (hused.reserved _ horiginal)
      · -- A dummy has been renamed, so it is free again and the next correction takes it.
        have hlost : c.name ∉ c.rename names :=
          (nodup_cons.mp (Correction.nodup_rename hused.nodup hname hdummy_new)).1
        have hold : c.name ∈ c.dummy :: used :=
          mem_cons_of_mem _ ((hused.origin _ hname).resolve_left horiginal)
        have hagain : c'.dummy ∈ c.dummy :: used := by
          rw [hdummy', hused'.freshName_mem_iff]
          exact ⟨c.name, hold, hlost⟩
        refine iff_of_false (fun h => ?_) fun h => horiginal h.1
        exact (nodup_append'.mp h).2.2 mem_cons_self hagain

end

end Run

namespace Formula

/-- One term of a formula when its brackets are multiplied out: the connection terms on the way to
it, the outermost first, and all names of indices in it. -/
inductive Branch (mark : Diacritic) : Formula → List Correction → List String → Prop
  | tensor (t : TensorRef) : Branch mark (tensor t) [] (t.indices.filterMap name?)
  | derivative {kind : DerivativeKind} {i : Index} {f : Formula} {dimension : Option Nat}
      {span : Span} {cs : List Correction} {xs : List String} :
      Branch mark f cs xs →
      Branch mark (derivative kind i f dimension span) cs (i.name?.toList ++ xs)
  | term {ts : List Formula} {f : Formula} {cs : List Correction} {xs : List String} :
      f ∈ ts → Branch mark f cs xs → Branch mark (sum ts) cs xs
  | correction {c : Correction} {height : Height} {i : Index} {f : Formula}
      {cs : List Correction} {xs : List String} :
      Branch mark f cs xs →
      Branch mark (connectionTerm mark c.name height c.dummy i f) (c :: cs)
        (c.name :: c.dummy :: (i.name?.toList ++ xs))

variable {mark : Diacritic} {t : TensorRef} {cs : List Correction} {xs : List String}

theorem connectionTerm_inj {name name' dummy dummy' : String} {height height' : Height} {i' : Index}
    {f f' : Formula}
    (h : connectionTerm mark name height dummy i f = connectionTerm mark name' height' dummy' i' f') :
    name = name' ∧ dummy = dummy' ∧ i = i' ∧ f = f' := by
  cases height <;> cases height' <;>
    simp_all [connectionTerm, connection, TensorRef.ofBase, upper, lower, Index.named]

theorem branch_ofTerms {ts : List Formula} :
    Branch mark (ofTerms ts) cs xs ↔ ∃ f ∈ ts, Branch mark f cs xs := by
  unfold ofTerms
  split
  · simp
  · constructor
    · intro h
      generalize hg : sum ts = g at h
      cases h with
      | term hf h =>
        cases hg
        exact ⟨_, hf, h⟩
      | @correction _ height => cases height <;> cases hg
      | _ => cases hg
    · rintro ⟨f, hf, h⟩
      exact .term hf h

theorem Branch.of_connectionTerm {name dummy : String} {height : Height} {f : Formula}
    (h : Branch mark (connectionTerm mark name height dummy i f) cs xs) :
    ∃ cs' xs', Branch mark f cs' xs' ∧ cs = ⟨name, dummy⟩ :: cs' ∧
      xs = name :: dummy :: (i.name?.toList ++ xs') := by
  generalize hg : connectionTerm mark name height dummy i f = g at h
  cases h with
  | correction h =>
    obtain ⟨rfl, rfl, rfl, rfl⟩ := connectionTerm_inj hg
    exact ⟨_, _, h, rfl, rfl⟩
  | _ => cases height <;> cases hg

theorem Branch.of_derivative {kind : DerivativeKind} {f : Formula} {dimension : Option Nat}
    {span : Span} (h : Branch mark (.derivative kind i f dimension span) cs xs) :
    ∃ xs', Branch mark f cs xs' ∧ xs = i.name?.toList ++ xs' := by
  generalize hg : Formula.derivative kind i f dimension span = g at h
  cases h with
  | derivative h =>
    cases hg
    exact ⟨_, h, rfl⟩
  | @correction _ height => cases height <;> cases hg
  | _ => cases hg

theorem Branch.of_tensor (h : Branch mark (.tensor t) cs xs) :
    cs = [] ∧ xs = t.indices.filterMap name? := by
  generalize hg : Formula.tensor t = g at h
  cases h with
  | tensor =>
    cases hg
    exact ⟨rfl, rfl⟩
  | @correction _ height => cases height <;> cases hg
  | _ => cases hg

/-- A branch of repeated derivatives is a run of corrections. Besides their names and dummies, it
has the indices of the derivatives and those that the run leaves on the tensor. -/
theorem Branch.corrected (h : Branch mark (covariantChain mark taken indices t) cs xs)
    (hnodup : (t.indices.filterMap name?).Nodup) :
    cs.length ≤ indices.length ∧ ∃ final,
      Corrected taken (t.indices.filterMap name?) cs final ∧
      ∀ x, xs.count x = (indices.filterMap name?).count x + (cs.map (·.dummy)).count x +
        (cs.map (·.name) ++ final).count x := by
  induction indices generalizing t cs xs with
  | nil =>
    obtain ⟨rfl, rfl⟩ := h.of_tensor
    exact ⟨Nat.le_refl _, _, .nil, fun x => by simp⟩
  | cons outer inner ih =>
    have hcons : (outer :: inner).filterMap name? =
        outer.name?.toList ++ inner.filterMap name? := by
      cases hname : outer.name? <;> simp [hname]
    rw [covariantChain, singles_of_nodup (by rwa [map_fst_namedIndices])] at h
    obtain ⟨f, hf, hterm⟩ := branch_ofTerms.mp h
    rw [hcons]
    rcases mem_cons.mp hf with rfl | hf
    · obtain ⟨ys, hinner, rfl⟩ := hterm.of_derivative
      obtain ⟨hlength, final, hfinal, hcount⟩ := ih hinner hnodup
      refine ⟨Nat.le_succ_of_le hlength, final, hfinal, fun x => ?_⟩
      have hname : name? ⟨outer.value, .lower⟩ = outer.name? := rfl
      rw [count_append, count_append, hcount, hname]
      omega
    · obtain ⟨⟨name, height⟩, hname, rfl⟩ := mem_map.mp hf
      obtain ⟨cs, ys, hinner, rfl, rfl⟩ := hterm.of_connectionTerm
      have hmem := mem_indexNames_of_namedIndices hname
      have hfresh : freshName (taken ++ t.indices.filterMap name?) ∉ _ :=
        freshName_not_mem_append.2
      have hrename := Correction.nodup_rename (c := ⟨name, _⟩) hnodup hmem hfresh
      have hnames := filterMap_name?_rename name
        (freshName (taken ++ t.indices.filterMap name?)) t.indices
      obtain ⟨hlength, final, hfinal, hcount⟩ := ih hinner (by
        rw [TensorRef.rename, hnames]
        exact (nodup_cons.mp hrename).2)
      rw [TensorRef.rename, hnames] at hfinal
      refine ⟨Nat.succ_le_succ hlength, final, .cons hmem rfl hfinal, fun x => ?_⟩
      have hname : name? ⟨outer.value, .lower⟩ = outer.name? := rfl
      simp only [map_cons, cons_append, count_cons, count_append, hcount, hname]
      omega

theorem Branch.covariantChain_cons {outer : Index} {inner : List Index} {c : Correction}
    (height : Height) (hname : (c.name, height) ∈ singles (namedIndices t.indices))
    (hdummy : c.dummy = freshName (taken ++ t.indices.filterMap name?))
    (h : Branch mark (covariantChain mark taken inner (t.rename c.name c.dummy)) cs xs) :
    Branch mark (covariantChain mark taken (outer :: inner) t) (c :: cs)
      (c.name :: c.dummy :: (outer.name?.toList ++ xs)) := by
  have hterm : Branch mark (connectionTerm mark c.name height c.dummy { outer with height := .lower }
      (covariantChain mark taken inner (t.rename c.name c.dummy))) (c :: cs)
      (c.name :: c.dummy :: (outer.name?.toList ++ xs)) := .correction h
  rw [covariantChain, ← hdummy]
  exact branch_ofTerms.mpr ⟨_, mem_cons_of_mem _ (mem_map_of_mem hname), hterm⟩

/-- The dummies on the way to a term of repeated covariant derivatives are new to the tensor and to
the derivatives. They differ from each other exactly if no connection term but the last one corrects
a dummy, and then no index occurs more than twice in the term. So it is with up to two
derivatives. -/
theorem dummies_of_covariantDerivative {indices : List Index}
    (hnodup : ((t.indices ++ indices).filterMap Index.name?).Nodup)
    (h : Branch mark (covariantDerivative mark indices t) cs xs) :
    (∀ c ∈ cs, c.dummy ∉ (t.indices ++ indices).filterMap Index.name?) ∧
    (∀ met, met <+: cs → ((met.map (·.dummy)).Nodup ↔
      ∀ c ∈ met.dropLast, c.name ∈ t.indices.filterMap Index.name?)) ∧
    ((∀ x, xs.count x ≤ 2) ↔ (cs.map (·.dummy)).Nodup) ∧
    (indices.length ≤ 2 → (cs.map (·.dummy)).Nodup) := by
  rw [List.filterMap_append] at hnodup
  obtain ⟨hnames, -, -⟩ := List.nodup_append'.mp hnodup
  obtain ⟨hlength, final, hfinal, hcount⟩ := h.corrected hnames
  have hdummies := hfinal.dummy_not_mem
  have hused : Used ((t.indices ++ indices).filterMap name?)
      (t.indices.filterMap name?) [] (t.indices.filterMap name?) := by
    refine ⟨fun x hx => ?_, hnames, fun _ => .inl, by simp⟩
    rw [List.filterMap_append]
    exact List.mem_append_left _ hx
  have hmet (met : List Correction) (hmet : met <+: cs) : (met.map (·.dummy)).Nodup ↔
      ∀ c ∈ met.dropLast, c.name ∈ t.indices.filterMap name? := by
    obtain ⟨last, hlast⟩ := hfinal.of_isPrefix hmet
    have hiff := hlast.nodup_iff hused .nil (List.nil_subset _)
    rwa [List.append_nil] at hiff
  refine ⟨hdummies, hmet, ?_, fun hshort => (hmet cs (List.prefix_refl cs)).mpr ?_⟩
  · have hcount (x : String) : xs.count x =
        ((t.indices ++ indices).filterMap name?).count x + 2 * (cs.map (·.dummy)).count x := by
      rw [hcount, (hfinal.perm hnames).count_eq, List.filterMap_append, List.count_append,
        List.count_append]
      omega
    rw [List.nodup_iff_count_le_one]
    refine forall_congr' fun x => ?_
    rw [hcount]
    have hone := List.nodup_iff_count_le_one.mp hnodup x
    rw [← List.filterMap_append] at hone
    by_cases hx : x ∈ cs.map (·.dummy)
    · obtain ⟨c, hc, rfl⟩ := List.mem_map.mp hx
      rw [List.count_eq_zero_of_not_mem (hdummies c hc)]
      omega
    · rw [List.count_eq_zero_of_not_mem hx]
      omega
  · -- The first correction is always that of an index of the tensor.
    rcases cs with _ | ⟨c, _ | ⟨c', rest⟩⟩
    · simp
    · simp
    · obtain rfl : rest = [] := List.eq_nil_of_length_eq_zero (by
        simp only [List.length_cons] at hlength
        omega)
      cases hfinal with
      | cons hname => simpa using hname

theorem dummies_of_covariantDerivative_third :
    let t : TensorRef := .ofBase "T" [.upper "mu", .lower "nu"] .none
    let indices : List Index := [.lower "x", .lower "y", .lower "z"]
    let cs : List Correction := [⟨"mu", "a"⟩, ⟨"nu", "b"⟩, ⟨"a", "c"⟩]
    ((t.indices ++ indices).filterMap name?).Nodup ∧
      ∃ xs, Branch .none (covariantDerivative .none indices t) cs xs ∧ ∀ x, xs.count x ≤ 2 := by
  intro t indices cs
  have hnodup : ((t.indices ++ indices).filterMap name?).Nodup := by decide
  have hbranch : ∃ xs, Branch .none (covariantDerivative .none indices t) cs xs :=
    ⟨_, .covariantChain_cons .upper (by decide) (by decide +kernel)
      (.covariantChain_cons .lower (by decide) (by decide +kernel)
        (.covariantChain_cons .upper (by decide) (by decide +kernel) (.tensor _)))⟩
  obtain ⟨xs, h⟩ := hbranch
  obtain ⟨-, hmet, hcount, -⟩ := dummies_of_covariantDerivative hnodup h
  refine ⟨hnodup, xs, h, hcount.mpr ((hmet cs (List.prefix_refl cs)).mpr ?_)⟩
  decide

/-- With three derivatives, a dummy that was corrected in its turn is used again. -/
theorem third_derivative_reuses_dummy :
    let t : TensorRef := .ofBase "v" [.upper "mu"] .none
    let indices : List Index := [.lower "x", .lower "y", .lower "z"]
    let cs : List Correction := [⟨"mu", "a"⟩, ⟨"a", "b"⟩, ⟨"b", "a"⟩]
    ((t.indices ++ indices).filterMap name?).Nodup ∧
      ∃ xs, Branch .none (covariantDerivative .none indices t) cs xs ∧
        ¬ (cs.map (·.dummy)).Nodup ∧ xs.count "a" = 4 := by
  refine ⟨by decide, _, .covariantChain_cons .upper (by decide) (by decide +kernel)
    (.covariantChain_cons .upper (by decide) (by decide +kernel)
      (.covariantChain_cons .upper (by decide) (by decide +kernel) (.tensor _))), ?_⟩
  decide

end Formula

end TensorCalculus
