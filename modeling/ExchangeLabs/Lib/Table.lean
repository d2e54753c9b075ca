import Mathlib.Data.List.AList

/-!
# Tables with a counter

A finite map whose values all have one type is an `AList`.  This file adds the
updates in place that a program makes to the values of such a map, and counters
of the entries with some property that the program keeps beside the map by hand.

## Main definitions

* `Table.mapVal`, `Table.modify` — update every value, or the value of one key.
* `Table.ofList` — the table with the given entries.
* `Table.count p t` — how many values of `t` have the property `p`.
* `Table.Tally p t n` — the counter `n` is exact.

## Main results

* `Table.lookup_mapVal`, `Table.lookup_modify`, `Table.lookup_ofList` — what the
  updates do to the entries.
* `Table.getElem?_scatter` — a list into which values are written by index.
* `Table.Tally.modify_drop`, `Table.Tally.modify_of_eq`, `Table.Tally.mapVal_add` —
  **when a counter stays exact**: it loses one where a value loses the property, and
  gains the number of the values that get it.
-/

namespace ExchangeLabs

/-- A finite map from keys to values. -/
abbrev Table (K V : Type*) := AList fun _ : K => V

namespace Table

variable {K V : Type*}

/-! ### Updates in place -/

/-- Replace every value. -/
def mapVal (f : K → V → V) (t : Table K V) : Table K V :=
  ⟨t.entries.map (.map id f), t.nodupKeys.map₂ f⟩

@[simp] theorem entries_mapVal (f : K → V → V) (t : Table K V) :
    (mapVal f t).entries = t.entries.map (.map id f) := rfl

/-- How many values have the property `p`. -/
def count (p : V → Bool) (t : Table K V) : ℕ := t.entries.countP fun e => p e.2

/-- The counter `n` is the number of values with the property `p`. -/
def Tally (p : V → Bool) (t : Table K V) (n : ℤ) : Prop := n = count p t

@[simp] theorem mapVal_id (t : Table K V) : mapVal (fun _ v => v) t = t :=
  AList.ext (List.map_id _)

theorem mapVal_mapVal (f g : K → V → V) (t : Table K V) :
    mapVal g (mapVal f t) = mapVal (fun k v => g k (f k v)) t := by
  refine AList.ext ?_
  simp only [entries_mapVal, List.map_map]
  rfl

theorem length_mapVal (f : K → V → V) (t : Table K V) :
    (mapVal f t).entries.length = t.entries.length := by
  rw [entries_mapVal, List.length_map]

variable [DecidableEq K]

@[simp] theorem lookup_mapVal (f : K → V → V) (t : Table K V) (k : K) :
    (mapVal f t).lookup k = (t.lookup k).map (f k) := List.dlookup_map₂ k

/-- Replace the value of one key, if it has one. -/
def modify (k : K) (f : V → V) (t : Table K V) : Table K V :=
  mapVal (fun k' v => if k' = k then f v else v) t

theorem lookup_modify (k : K) (f : V → V) (t : Table K V) (k' : K) :
    (modify k f t).lookup k' = if k' = k then (t.lookup k').map f else t.lookup k' := by
  unfold modify
  rw [lookup_mapVal]
  split
  · rfl
  · simp

theorem lookup_modify_self (k : K) (f : V → V) (t : Table K V) :
    (modify k f t).lookup k = (t.lookup k).map f := by
  rw [lookup_modify, if_pos rfl]

theorem lookup_modify_ne {k k' : K} (h : k' ≠ k) (f : V → V) (t : Table K V) :
    (modify k f t).lookup k' = t.lookup k' := by
  rw [lookup_modify, if_neg h]

@[simp] theorem mem_modify {k k' : K} {f : V → V} {t : Table K V} : k' ∈ modify k f t ↔ k' ∈ t := by
  rw [← AList.lookup_isSome, ← AList.lookup_isSome, lookup_modify]
  split
  · next heq => rw [Option.isSome_map, heq]
  · rfl

/-- What was there before an update of one value. -/
theorem exists_of_lookup_modify {k k' : K} {f : V → V} {t : Table K V} {v' : V}
    (h : (modify k f t).lookup k' = some v') :
    ∃ v, t.lookup k' = some v ∧ v' = if k' = k then f v else v := by
  rw [lookup_modify] at h
  split at h
  · next hk =>
    obtain ⟨v, hv, rfl⟩ := Option.map_eq_some_iff.mp h
    exact ⟨v, hv, (if_pos hk).symm⟩
  · next hk => exact ⟨v', h, (if_neg hk).symm⟩

/-- **What an update keeps**: a property of all entries, if the entry that is updated keeps it. -/
theorem forall_lookup_modify {k : K} {f : V → V} {t : Table K V} {P : K → V → Prop}
    (h : ∀ k' v, t.lookup k' = some v → P k' v)
    (hf : ∀ v, t.lookup k = some v → P k v → P k (f v)) :
    ∀ k' v', (modify k f t).lookup k' = some v' → P k' v' := by
  intro k' v' hv'
  obtain ⟨v, hv, rfl⟩ := exists_of_lookup_modify hv'
  split
  · next heq =>
    subst heq
    exact hf v hv (h k' v hv)
  · exact h k' v hv

/-- Two updates of one value. -/
theorem modify_modify (k : K) (f g : V → V) (t : Table K V) :
    modify k g (modify k f t) = modify k (fun v => g (f v)) t := by
  unfold modify
  rw [mapVal_mapVal]
  congr 1
  funext k' v
  split <;> rfl

theorem mem_entries {t : Table K V} {e : Σ _ : K, V} :
    e ∈ t.entries ↔ t.lookup e.1 = some e.2 := by
  rw [← Option.mem_def, AList.mem_lookup_iff]

theorem modify_of_lookup_eq_none {t : Table K V} {k : K} (f : V → V) (h : t.lookup k = none) :
    modify k f t = t := by
  refine AList.ext ?_
  unfold modify
  rw [entries_mapVal]
  refine (List.map_congr_left fun e he => ?_).trans (List.map_id _)
  obtain ⟨k', w⟩ := e
  have hk : k' ≠ k := by
    rintro rfl
    rw [mem_entries.mp he] at h
    cases h
  simp [Sigma.map, hk]

/-- Only what is done to the value of the key matters. -/
theorem modify_congr {t : Table K V} {k : K} {f g : V → V}
    (h : ∀ v, t.lookup k = some v → f v = g v) : modify k f t = modify k g t := by
  refine AList.ext ?_
  unfold modify
  rw [entries_mapVal, entries_mapVal]
  refine List.map_congr_left fun e he => ?_
  obtain ⟨k', v⟩ := e
  unfold Sigma.map
  dsimp only
  split
  · next heq =>
    subst heq
    rw [h v (mem_entries.mp he)]
  · rfl

/-! ### Counting -/

/-- An update that changes nothing. -/
theorem modify_eq_self {t : Table K V} {k : K} {f : V → V}
    (h : ∀ v, t.lookup k = some v → f v = v) :
    modify k f t = t := by
  refine (modify_congr h).trans ?_
  show mapVal (fun k' v => if k' = k then v else v) t = t
  simp only [ite_self, mapVal_id]

theorem count_eq_zero {p : V → Bool} {t : Table K V} :
    count p t = 0 ↔ ∀ k v, t.lookup k = some v → p v = false := by
  unfold count
  rw [List.countP_eq_zero]
  constructor
  · intro h k v hv
    exact eq_false_of_ne_true (h ⟨k, v⟩ (mem_entries.mpr hv))
  · intro h e he
    simp [h e.1 e.2 (mem_entries.mp he)]

omit [DecidableEq K] in
theorem count_mapVal (p : V → Bool) (f : K → V → V) (t : Table K V) :
    count p (mapVal f t) = t.entries.countP fun e => p (f e.1 e.2) := by
  unfold count
  rw [entries_mapVal, List.countP_map]
  rfl

/-- What an update of one key does to a count. -/
theorem count_modify {p : V → Bool} {t : Table K V} {k : K} {v : V} (f : V → V)
    (h : t.lookup k = some v) :
    count p (modify k f t) + (p v).toNat = count p t + (p (f v)).toNat := by
  rw [modify, count_mapVal, count]
  obtain ⟨entries, hnd⟩ := t
  rw [AList.lookup] at h
  induction entries with
  | nil => cases h
  | cons e l ih =>
    obtain ⟨k', w⟩ := e
    obtain ⟨hk', hl⟩ := List.nodupKeys_cons.mp hnd
    simp only [List.countP_cons]
    by_cases hkk : k' = k
    · subst hkk
      rw [List.dlookup_cons_eq, Option.some.injEq] at h
      subst h
      -- the other entries have other keys
      have hrest : l.countP (fun e => p (if e.1 = k' then f e.2 else e.2)) =
          l.countP fun e => p e.2 := by
        refine List.countP_congr fun e he => ?_
        rw [if_neg]
        intro hek
        exact hk' (hek ▸ List.mem_map.mpr ⟨e, he, rfl⟩)
      simp only [↓reduceIte, hrest]
      cases p w <;> cases p (f w) <;> simp
    · rw [List.dlookup_cons_ne _ _ (Ne.symm hkk)] at h
      have := ih hl h
      simp only [if_neg hkk] at this ⊢
      omega

/-! ### Exact counters -/

/-- **One value changes**: the counter loses one if the value had the property and
gains one if it has it now. -/
theorem Tally.modify {p : V → Bool} {t : Table K V} {n : ℤ} (h : Tally p t n) {k : K} {v : V}
    (f : V → V) (hv : t.lookup k = some v) :
    Tally p (modify k f t) (n - (p v).toNat + (p (f v)).toNat) := by
  have := count_modify (p := p) f hv
  unfold Tally at h ⊢
  omega

/-- A value that loses the property costs the counter one. -/
theorem Tally.modify_drop {p : V → Bool} {t : Table K V} {n : ℤ} (h : Tally p t n) {k : K} {v : V}
    {f : V → V} (hv : t.lookup k = some v) (hp : p v = true) (hf : p (f v) = false) :
    Tally p (Table.modify k f t) (n - 1) := by
  have := h.modify f hv
  rw [hp, hf] at this
  simpa using this

/-- A value that keeps the property, or keeps lacking it, leaves the counter alone. -/
theorem Tally.modify_of_eq {p : V → Bool} {t : Table K V} {n : ℤ} (h : Tally p t n) {k : K}
    {f : V → V} (hf : ∀ v, t.lookup k = some v → p (f v) = p v) :
    Tally p (Table.modify k f t) n := by
  cases hv : t.lookup k with
  | some v =>
    have := h.modify f hv
    rw [hf v hv] at this
    simpa using this
  | none =>
    rw [modify_of_lookup_eq_none f hv]
    exact h

omit [DecidableEq K] in
/-- **Every value changes**: the counter gains the number of values that get the
property, if none loses it. -/
theorem Tally.mapVal_add {p : V → Bool} {t : Table K V} {n : ℤ} (h : Tally p t n)
    {f : K → V → V} (q : V → Bool) (hf : ∀ k v, p (f k v) = (p v || q v))
    (hpq : ∀ v, q v = true → p v = false) : Tally p (mapVal f t) (n + count q t) := by
  unfold Tally at h ⊢
  rw [count_mapVal]
  unfold count at h ⊢
  rw [h]
  induction t.entries with
  | nil => rfl
  | cons e l ih =>
    simp only [List.countP_cons, hf]
    have := hpq e.2
    cases hp : p e.2 <;> cases hq : q e.2 <;> simp_all <;> omega

omit [DecidableEq K] in
/-- An update under which every value keeps the property or keeps lacking it. -/
theorem Tally.mapVal_of_eq {p : V → Bool} {t : Table K V} {n : ℤ} (h : Tally p t n)
    {f : K → V → V} (hf : ∀ k v, p (f k v) = p v) : Tally p (mapVal f t) n := by
  have := h.mapVal_add (f := f) (fun _ => false) (by simpa using hf) (by simp)
  simpa [count] using this

/-- A counter that is exact is zero when no value has the property. -/
theorem Tally.eq_zero_iff {p : V → Bool} {t : Table K V} {n : ℤ} (h : Tally p t n) :
    n = 0 ↔ ∀ k v, t.lookup k = some v → p v = false := by
  rw [← count_eq_zero, show n = count p t from h]
  exact Int.natCast_eq_zero

/-! ### Writing the entries into a list -/

section Scatter

variable {α β : Type*} {write : α → Prop} [DecidablePred write] {index : α → ℕ} {value : α → β}

/-- A place to which nothing is written. -/
theorem getElem?_scatter_of_ne {j : ℕ} (l : List α) (init : List β)
    (h : ∀ a ∈ l, write a → index a ≠ j) :
    (l.foldl (fun acc a => if write a then acc.set (index a) (value a) else acc) init)[j]? =
      init[j]? := by
  induction l generalizing init with
  | nil => rfl
  | cons a l ih =>
    rw [List.foldl_cons, ih _ fun a ha => h a (List.mem_cons_of_mem _ ha)]
    split
    · next hw => exact List.getElem?_set_ne (h a List.mem_cons_self hw)
    · rfl

/-- A place to which only one value is written. -/
theorem getElem?_scatter {l : List α} {init : List β} {a : α} (ha : a ∈ l) (hw : write a)
    (hlt : index a < init.length)
    (h : ∀ a' ∈ l, write a' → index a' = index a → value a' = value a) :
    (l.foldl (fun acc a => if write a then acc.set (index a) (value a) else acc) init)[index a]? =
      some (value a) := by
  induction l generalizing init a with
  | nil => cases ha
  | cons b l ih =>
    rw [List.foldl_cons]
    by_cases hlater : ∃ a' ∈ l, write a' ∧ index a' = index a
    · -- the last writer decides
      obtain ⟨a', ha', hw', hindex⟩ := hlater
      have hvalue := h a' (List.mem_cons_of_mem _ ha') hw' hindex
      rw [← hindex, ← hvalue]
      refine ih ha' hw' ?_ fun a'' ha'' hw'' heq => ?_
      · rw [hindex]
        split
        · rwa [List.length_set]
        · exact hlt
      · exact (h a'' (List.mem_cons_of_mem _ ha'') hw'' (heq.trans hindex)).trans hvalue.symm
    · rw [getElem?_scatter_of_ne l _ fun a' ha' hw' heq => hlater ⟨a', ha', hw', heq⟩]
      rcases List.mem_cons.mp ha with rfl | hmem
      · rw [if_pos hw, List.getElem?_set_self hlt]
      · exact absurd ⟨a, hmem, hw, rfl⟩ hlater

end Scatter

/-! ### Tables from lists -/

/-- The table with these entries; of two under one key the later one stays. -/
def ofList (entries : List (K × V)) : Table K V :=
  entries.foldl (fun t e => AList.insert e.1 e.2 t) ∅

theorem lookup_foldl_insert_of_notMem {l : List (K × V)} {k : K} (h : k ∉ l.map Prod.fst)
    (t : Table K V) : (l.foldl (fun t e => AList.insert e.1 e.2 t) t).lookup k = t.lookup k := by
  induction l generalizing t with
  | nil => rfl
  | cons e l ih =>
    rw [List.map_cons, List.mem_cons, not_or] at h
    rw [List.foldl_cons, ih h.2, AList.lookup_insert_ne h.1]

/-- What is in the table was there before or is one of the entries. -/
theorem mem_of_lookup_foldl_insert {l : List (K × V)} {k : K} {v : V} {t : Table K V}
    (h : (l.foldl (fun t e => AList.insert e.1 e.2 t) t).lookup k = some v) :
    (k, v) ∈ l ∨ t.lookup k = some v := by
  induction l generalizing t with
  | nil => exact .inr h
  | cons e l ih =>
    rcases ih h with hmem | hlookup
    · exact .inl (List.mem_cons_of_mem _ hmem)
    · by_cases hk : k = e.1
      · subst hk
        rw [AList.lookup_insert, Option.some.injEq] at hlookup
        subst hlookup
        exact .inl List.mem_cons_self
      · rw [AList.lookup_insert_ne hk] at hlookup
        exact .inr hlookup

theorem mem_of_lookup_ofList {l : List (K × V)} {k : K} {v : V} (h : (ofList l).lookup k = some v) :
    (k, v) ∈ l := by
  rcases mem_of_lookup_foldl_insert h with hmem | hempty
  · exact hmem
  · rw [AList.lookup_empty] at hempty
    cases hempty

/-- What is added stays, as no later entry has its key. -/
theorem lookup_foldl_insert_of_mem {l : List (K × V)} (hl : (l.map Prod.fst).Nodup) {k : K} {v : V}
    (h : (k, v) ∈ l) (t : Table K V) :
    (l.foldl (fun t e => AList.insert e.1 e.2 t) t).lookup k = some v := by
  induction l generalizing t with
  | nil => cases h
  | cons e l ih =>
    obtain ⟨he, hl⟩ := List.nodup_cons.mp hl
    rcases List.mem_cons.mp h with rfl | hmem
    · rw [List.foldl_cons, lookup_foldl_insert_of_notMem he]
      exact AList.lookup_insert _
    · exact ih hl hmem _

private theorem entries_foldl_insert (l : List (K × V)) (t : Table K V)
    (hl : (l.map Prod.fst).Nodup) (ht : ∀ e ∈ l, e.1 ∉ t) :
    (l.foldl (fun t e => AList.insert e.1 e.2 t) t).entries =
      (l.map fun e => ⟨e.1, e.2⟩).reverse ++ t.entries := by
  induction l generalizing t with
  | nil => rfl
  | cons e l ih =>
    rw [List.map_cons, List.nodup_cons] at hl
    have hnew : ∀ e' ∈ l, e'.1 ∉ AList.insert e.1 e.2 t := by
      intro e' he' hmem
      rcases (AList.mem_insert _).mp hmem with heq | hmem
      · exact hl.1 (List.mem_map.mpr ⟨e', he', heq⟩)
      · exact ht e' (List.mem_cons_of_mem _ he') hmem
    rw [List.foldl_cons, ih _ hl.2 hnew,
      AList.entries_insert_of_notMem (ht e List.mem_cons_self)]
    simp

theorem entries_ofList {l : List (K × V)} (hl : (l.map Prod.fst).Nodup) :
    (ofList l).entries = (l.map fun e => ⟨e.1, e.2⟩).reverse := by
  rw [ofList, entries_foldl_insert l ∅ hl fun e _ => AList.notMem_empty e.1]
  simp

theorem lookup_ofList {l : List (K × V)} (hl : (l.map Prod.fst).Nodup) {k : K} {v : V} :
    (ofList l).lookup k = some v ↔ (k, v) ∈ l := by
  rw [← mem_entries (e := ⟨k, v⟩), entries_ofList hl]
  simp only [List.mem_reverse, List.mem_map]
  constructor
  · rintro ⟨e, he, heq⟩
    cases heq
    exact he
  · intro he
    exact ⟨(k, v), he, rfl⟩

/-- At first, when every value has the property, the counter is the number of entries. -/
theorem tally_ofList {p : V → Bool} {l : List (K × V)} (hl : (l.map Prod.fst).Nodup)
    (hp : ∀ e ∈ l, p e.2 = true) : Tally p (ofList l) l.length := by
  unfold Tally count
  rw [entries_ofList hl, List.countP_reverse, List.countP_map]
  exact congrArg Nat.cast (List.countP_eq_length.mpr hp).symm

end Table

end ExchangeLabs
