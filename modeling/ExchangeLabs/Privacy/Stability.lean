import Mathlib.Data.List.Induction
import ExchangeLabs.Lib.Edits
import ExchangeLabs.Privacy.Dataset

/-!
# Stability tracking

A pipeline of transformations over source tables, run on two inputs that differ
in one record: how far apart its outputs can be, and whether the stability it
records says so.  It does for every transformation but `intersect`, which keeps
every occurrence of a value in its first dataset as long as the value is in the
second one: one record more or less in the second dataset moves all of them.

## Main definitions

* `Pipeline S` — the pipelines over source tables with rows `S`.
* `Neighbours env env'` — the inputs differ in one record of one table.
* `Pipeline.FewFlips env env'` — at every `intersect`, what changes in the first
  dataset and what comes or goes with the second is within both stabilities.

## Main results

* `Pipeline.near_eval` — **stability bounds the edits** between the outputs.
* `stability_sound` — so it bounds the rows, the counts and the sums.
* `not_stability_sound` — without the condition it does not.
-/

namespace ExchangeLabs.Privacy

open Dataset

variable {T U K : Type}

/-! ### Groups -/

section Groups

variable [DecidableEq K]

theorem filter_addToGroup (P : K → Bool) (key : K) (item : T) (gs : List (K × List T)) :
    (addToGroup key item gs).filter (fun g => P g.1) =
      if P key then addToGroup key item (gs.filter fun g => P g.1)
      else gs.filter fun g => P g.1 := by
  induction gs with
  | nil => cases hP : P key <;> simp [addToGroup, hP]
  | cons g gs ih =>
    obtain ⟨k, group⟩ := g
    by_cases hk : k = key
    · subst hk
      cases hP : P k <;> simp [addToGroup, hP]
    · cases hP : P key <;> cases hPk : P k <;> simp [addToGroup, hk, hP, hPk, ih]

theorem groups_concat (keyFunc : T → K) (l : List T) (item : T) :
    groups keyFunc (l ++ [item]) = addToGroup (keyFunc item) item (groups keyFunc l) := by
  simp [groups]

/-- The groups of some keys are the groups of their rows. -/
theorem filter_groups (P : K → Bool) (keyFunc : T → K) (l : List T) :
    (groups keyFunc l).filter (fun g => P g.1) =
      groups keyFunc (l.filter fun x => P (keyFunc x)) := by
  induction l using List.reverseRecOn with
  | nil => rfl
  | append_singleton l item ih =>
    rw [groups_concat, filter_addToGroup, ih, List.filter_append]
    cases hP : P (keyFunc item)
    · simp [hP]
    · rw [List.filter_singleton, hP, cond_true, groups_concat]
      rfl

/-- Adding a row adds its key at the end, unless it is there. -/
theorem map_fst_addToGroup (key : K) (item : T) (gs : List (K × List T)) :
    (addToGroup key item gs).map Prod.fst =
      if key ∈ gs.map Prod.fst then gs.map Prod.fst else gs.map Prod.fst ++ [key] := by
  induction gs with
  | nil => simp [addToGroup]
  | cons g gs ih =>
    obtain ⟨k, group⟩ := g
    by_cases hk : k = key
    · subst hk
      simp [addToGroup]
    · have hk' : key ≠ k := Ne.symm hk
      simp only [addToGroup, if_neg hk, List.map_cons, ih, List.mem_cons, hk', false_or]
      split <;> rfl

/-- Every key has one group. -/
theorem nodup_map_fst_groups (keyFunc : T → K) (l : List T) :
    ((groups keyFunc l).map Prod.fst).Nodup := by
  induction l using List.reverseRecOn with
  | nil => exact List.nodup_nil
  | append_singleton l item ih =>
    rw [groups_concat, map_fst_addToGroup]
    split
    · exact ih
    · next hmem => exact List.Nodup.append ih (List.nodup_singleton _) (by simpa using hmem)

/-- The groups of few keys are few. -/
theorem length_filter_groups_le (A : List K) (keyFunc : T → K) (l : List T) :
    ((groups keyFunc l).filter fun g => decide (g.1 ∈ A)).length ≤ A.length := by
  have hnodup : (((groups keyFunc l).filter fun g => decide (g.1 ∈ A)).map Prod.fst).Nodup :=
    (nodup_map_fst_groups keyFunc l).sublist (List.filter_sublist.map _)
  have hsub : (((groups keyFunc l).filter fun g => decide (g.1 ∈ A)).map Prod.fst) ⊆ A := by
    intro k hk
    obtain ⟨g, hg, rfl⟩ := List.mem_map.mp hk
    exact of_decide_eq_true (List.mem_filter.mp hg).2
  have := (hnodup.subperm hsub).length_le
  rwa [List.length_map] at this

/-- **`group_by` doubles the edits**: a row that comes or goes changes one group,
and leaves the others as they are and in their order. -/
theorem near_groups (keyFunc : T → K) {s : ℕ} {l l' : List T} (h : Near s l l') :
    Near (2 * s) (groups keyFunc l) (groups keyFunc l') := by
  obtain ⟨z, d, d', hz, hz', hd, hd', hlen⟩ := h.exists_perm
  -- the keys of the rows that come or go
  set A : List K := (d ++ d').map keyFunc with hA
  have hAlen : A.length ≤ s := by
    rw [hA, List.length_map, List.length_append]
    exact hlen
  have hmem : ∀ x ∈ d ++ d', decide (keyFunc x ∉ A) = false := by
    intro x hx
    exact decide_eq_false (not_not.mpr (List.mem_map_of_mem hx))
  have hl : (groups keyFunc l).filter (fun g => decide (g.1 ∉ A)) =
      groups keyFunc (z.filter fun x => decide (keyFunc x ∉ A)) := by
    rw [filter_groups (fun k => decide (k ∉ A)), filter_eq_of_sublist _ hz hd]
    exact fun x hx => hmem x (List.mem_append_left _ hx)
  have hl' : (groups keyFunc l').filter (fun g => decide (g.1 ∉ A)) =
      groups keyFunc (z.filter fun x => decide (keyFunc x ∉ A)) := by
    rw [filter_groups (fun k => decide (k ∉ A)), filter_eq_of_sublist _ hz' hd']
    exact fun x hx => hmem x (List.mem_append_right _ hx)
  refine ⟨groups keyFunc (z.filter fun x => decide (keyFunc x ∉ A)), ?_, ?_, ?_⟩
  · rw [← hl]
    exact List.filter_sublist
  · rw [← hl']
    exact List.filter_sublist
  · have hsplit : ∀ gs : List (K × List T), gs.length =
        (gs.filter fun g => decide (g.1 ∈ A)).length +
          (gs.filter fun g => decide (g.1 ∉ A)).length := by
      intro gs
      rw [List.length_eq_length_filter_add (fun g => decide (g.1 ∈ A))]
      simp
    have h1 := hsplit (groups keyFunc l)
    have h2 := hsplit (groups keyFunc l')
    have h3 := length_filter_groups_le A keyFunc l
    have h4 := length_filter_groups_le A keyFunc l'
    rw [hl] at h1
    rw [hl'] at h2
    omega

/-! ### Parts -/

/-- The bucket of an expected key holds the rows of that key. -/
theorem buckets_eq {keys : List K} (classifier : T → K) (l : List T) {k : K} (hk : k ∈ keys) :
    buckets keys classifier l k = l.filter fun x => decide (classifier x = k) := by
  induction l using List.reverseRecOn with
  | nil => rfl
  | append_singleton l item ih =>
    have hstep : buckets keys classifier (l ++ [item]) k =
        (if classifier item ∈ keys then Function.update (buckets keys classifier l)
          (classifier item) (buckets keys classifier l (classifier item) ++ [item])
          else buckets keys classifier l) k := by
      simp [buckets]
    rw [hstep, List.filter_append, ← ih]
    by_cases heq : classifier item = k
    · subst heq
      simp [hk]
    · have hne : k ≠ classifier item := Ne.symm heq
      split <;> simp [heq, hne]

end Groups

/-! ### Pipelines -/

/-- The pipelines over tables `i : ι` with rows `S i`. -/
inductive Pipeline {ι : Type} (S : ι → Type) : Type → Type 1
  | source (i : ι) : Pipeline S (S i)
  | filter {T : Type} (predicate : T → Bool) (p : Pipeline S T) : Pipeline S T
  | map {T U : Type} (func : T → U) (p : Pipeline S T) : Pipeline S U
  | union {T : Type} (p q : Pipeline S T) : Pipeline S T
  | intersect {T : Type} [DecidableEq T] (p q : Pipeline S T) : Pipeline S T
  | groupBy {T K : Type} [DecidableEq K] (keyFunc : T → K) (p : Pipeline S T) :
    Pipeline S (K × List T)
  /-- The part that `partition` hands out for an expected key. -/
  | part {T K : Type} [DecidableEq K] (keys : List K) (classifier : T → K) (k : K) (hk : k ∈ keys)
    (p : Pipeline S T) : Pipeline S T

variable {ι : Type} {S : ι → Type}

/-- The inputs differ in one record, inserted into or deleted from one table. -/
def Neighbours (env env' : ∀ i, List (S i)) : Prop :=
  ∃ i, (∀ j ≠ i, env' j = env j) ∧ ∃ l m x,
    (env i = l ++ m ∧ env' i = l ++ x :: m) ∨ (env i = l ++ x :: m ∧ env' i = l ++ m)

theorem Neighbours.near {env env' : ∀ i, List (S i)} (h : Neighbours env env') (i : ι) :
    Near 1 (env i) (env' i) := by
  obtain ⟨j, hother, l, m, x, ⟨h1, h2⟩ | ⟨h1, h2⟩⟩ := h <;> rcases eq_or_ne i j with rfl | hij
  · rw [h1, h2]
    exact near_insert l m x
  · rw [hother i hij]
    exact (Near.refl _).mono zero_le_one
  · rw [h1, h2]
    exact (near_insert l m x).symm
  · rw [hother i hij]
    exact (Near.refl _).mono zero_le_one

namespace Pipeline

/-- The output of a pipeline on the tables. -/
def eval (env : ∀ i, List (S i)) : ∀ {T : Type}, Pipeline S T → Dataset T
  | _, source i => createDataset (env i)
  | _, filter predicate p => (p.eval env).filter predicate
  | _, map func p => (p.eval env).map func
  | _, union p q => (p.eval env).union (q.eval env)
  | _, intersect p q => (p.eval env).intersect (q.eval env)
  | _, groupBy keyFunc p => (p.eval env).groupBy keyFunc
  | _, part keys classifier k _ p => (p.eval env).part keys classifier k

/-- The recorded stability does not depend on the tables. -/
theorem stability_eval (env env' : ∀ i, List (S i)) (p : Pipeline S T) :
    (p.eval env').stability = (p.eval env).stability := by
  induction p with
  | source i => rfl
  | filter predicate p ih => exact ih
  | map func p ih => exact ih
  | union p q ihp ihq => exact congrArg₂ (· + ·) ihp ihq
  | intersect p q ihp ihq => exact congrArg₂ (· + ·) ihp ihq
  | groupBy keyFunc p ih => exact congrArg (2 * ·) ih
  | part keys classifier k hk p ih => exact ih

/-- Two runs of an `intersect`: the first datasets have a common part such that the
rows outside it, and the rows in it whose value is in the second dataset in one of
the runs only, number at most the sum of the stabilities. -/
def IntersectFlips [DecidableEq T] (d e d' e' : Dataset T) : Prop :=
  ∃ z : List T, z.Sublist d.data ∧ z.Sublist d'.data ∧
    d.data.length + d'.data.length +
        z.countP (fun x => decide (x ∈ e.data) != decide (x ∈ e'.data)) ≤
      2 * z.length + (d.stability + e.stability)

/-- At every `intersect` few rows come or go. -/
def FewFlips (env env' : ∀ i, List (S i)) : ∀ {T : Type}, Pipeline S T → Prop
  | _, source _ => True
  | _, filter _ p => p.FewFlips env env'
  | _, map _ p => p.FewFlips env env'
  | _, union p q => p.FewFlips env env' ∧ q.FewFlips env env'
  | _, intersect p q => p.FewFlips env env' ∧ q.FewFlips env env' ∧
    IntersectFlips (p.eval env) (q.eval env) (p.eval env') (q.eval env')
  | _, groupBy _ p => p.FewFlips env env'
  | _, part _ _ _ _ p => p.FewFlips env env'

/-- **Stability bounds the edits** between the outputs of neighbouring inputs. -/
theorem near_eval {env env' : ∀ i, List (S i)} (h : Neighbours env env') (p : Pipeline S T)
    (hp : p.FewFlips env env') :
    Near (p.eval env).stability (p.eval env).data (p.eval env').data := by
  induction p with
  | source i => exact h.near i
  | filter predicate p ih => exact (ih hp).filter predicate
  | map func p ih => exact (ih hp).map func
  | union p q ihp ihq => exact (ihp hp.1).append (ihq hp.2)
  | intersect p q ihp ihq =>
    obtain ⟨-, -, z, h1, h2, h3⟩ := hp
    exact Near.filter_of_flips _ _ h1 h2 h3
  | groupBy keyFunc p ih => exact near_groups keyFunc (ih hp)
  | part keys classifier k hk p ih =>
    change Near _ (buckets keys classifier _ k) (buckets keys classifier _ k)
    rw [buckets_eq classifier _ hk, buckets_eq classifier _ hk]
    exact (ih hp).filter _

end Pipeline

/-! ### What the measurements rely on -/

theorem Dataset.trueSum_eq (d : Dataset ℚ) (lowerBound upperBound : ℚ) :
    d.trueSum lowerBound upperBound =
      (d.data.map fun item => min upperBound (max lowerBound item)).sum := by
  rw [trueSum, List.sum_eq_foldl, List.foldl_map]

/-- A clamped value is no larger than the larger bound. -/
theorem abs_clamp_le {lowerBound upperBound : ℚ} (h : lowerBound ≤ upperBound) (x : ℚ) :
    |min upperBound (max lowerBound x)| ≤ max |lowerBound| |upperBound| := by
  have h1 : lowerBound ≤ min upperBound (max lowerBound x) := le_min h (le_max_left _ _)
  exact abs_le_max_abs_abs h1 (min_le_left _ _)

/-- Where the first dataset of an `intersect` is the same in both runs, its outputs
differ by the rows whose value comes or goes with the second one. -/
theorem rowsDiffer_intersect [DecidableEq T] (d e e' : Dataset T) :
    rowsDiffer (d.intersect e).data (d.intersect e').data =
      d.data.countP fun x => decide (x ∈ e.data) != decide (x ∈ e'.data) := by
  have hcount : ∀ (p : T → Bool) (x : T), (d.data.filter p).count x =
      if p x then d.data.count x else 0 := by
    intro p x
    split
    · next hp => exact List.count_filter hp
    · next hp => exact List.count_eq_zero.mpr fun hx => hp (List.mem_filter.mp hx).2
  have hsub : ∀ p p' : T → Bool,
      ((d.data.filter p : List T) : Multiset T) - ((d.data.filter p' : List T) : Multiset T)
        = ((d.data.filter fun x => p x && !p' x : List T) : Multiset T) := by
    intro p p'
    ext x
    rw [Multiset.count_sub]
    simp only [Multiset.coe_count, hcount]
    cases p x <;> cases p' x <;> simp
  have hsplit : ∀ (l : List T) (p p' : T → Bool), (l.filter fun x => p x && !p' x).length +
      (l.filter fun x => p' x && !p x).length = l.countP fun x => p x != p' x := by
    intro l p p'
    induction l with
    | nil => rfl
    | cons x l ih => cases hp : p x <;> cases hp' : p' x <;> simp [hp, hp'] <;> omega
  unfold rowsDiffer
  rw [show (d.intersect e).data = d.data.filter fun x => decide (x ∈ e.data) from rfl,
    show (d.intersect e').data = d.data.filter fun x => decide (x ∈ e'.data) from rfl,
    hsub, hsub, Multiset.coe_card, Multiset.coe_card, hsplit]

/-- **The recorded stability is sound** where few rows come or go at every
`intersect`: the outputs of a pipeline on neighbouring inputs differ by at most
that many rows, and what `count` and `sum` add noise to by at most the sensitivity
they state.  At an `intersect` whose first dataset is the same in both runs the
condition is also necessary. -/
theorem stability_sound {env env' : ∀ i, List (S i)} (h : Neighbours env env') :
    (∀ (T : Type) [DecidableEq T] (p : Pipeline S T), p.FewFlips env env' →
      rowsDiffer (p.eval env).data (p.eval env').data ≤ (p.eval env).stability ∧
        |(p.eval env).trueCount - (p.eval env').trueCount| ≤ (p.eval env).countSensitivity) ∧
    (∀ (p : Pipeline S ℚ) (lowerBound upperBound : ℚ), p.FewFlips env env' →
      lowerBound ≤ upperBound →
      |(p.eval env).trueSum lowerBound upperBound - (p.eval env').trueSum lowerBound upperBound|
        ≤ (p.eval env).sumSensitivity lowerBound upperBound) ∧
    ∀ (T : Type) [DecidableEq T] (p q : Pipeline S T), p.FewFlips env env' → q.FewFlips env env' →
      (p.eval env').data = (p.eval env).data →
      rowsDiffer ((p.intersect q).eval env).data ((p.intersect q).eval env').data ≤
        ((p.intersect q).eval env).stability → (p.intersect q).FewFlips env env' := by
  refine ⟨fun T _ p hp => ?_, fun p lowerBound upperBound hp hb => ?_,
    fun T _ p q hp hq heq hsound => ⟨hp, hq, ?_⟩⟩
  · have hnear := p.near_eval h hp
    refine ⟨rowsDiffer_le hnear, ?_⟩
    have hcount := hnear.sum_le (fun _ => (1 : ℚ)) zero_le_one fun _ => by simp
    simpa [trueCount, countSensitivity] using hcount
  · rw [trueSum_eq, trueSum_eq]
    exact (p.near_eval h hp).sum_le _ ((abs_nonneg _).trans (le_max_left _ _)) (abs_clamp_le hb)
  · -- the common part is all of the first dataset
    refine ⟨(p.eval env).data, List.Sublist.refl _, heq ▸ List.Sublist.refl _, ?_⟩
    have hdata : ((p.intersect q).eval env').data =
        ((p.eval env).intersect (q.eval env')).data := by
      change (p.eval env').data.filter _ = (p.eval env).data.filter _
      rw [heq]
    rw [hdata] at hsound
    change rowsDiffer ((p.eval env).intersect (q.eval env)).data _ ≤
      (p.eval env).stability + (q.eval env).stability at hsound
    rw [rowsDiffer_intersect] at hsound
    rw [heq]
    omega

/-- Two tables of numbers: three equal records, and the given ones. -/
def someRows (second : List ℕ) : Bool → List ℕ
  | false => [1, 1, 1]
  | true => second

/-- The records of the first table that are in the second. -/
def commonRows : Pipeline (fun _ : Bool => ℕ) ℕ := (Pipeline.source false).intersect (.source true)

theorem neighbours_someRows (x : ℕ) :
    Neighbours (S := fun _ : Bool => ℕ) (someRows []) (someRows [x]) := by
  refine ⟨true, fun j hj => ?_, [], [], x, Or.inl ⟨rfl, rfl⟩⟩
  cases j
  · rfl
  · exact absurd rfl hj

/-- A record that no record of the first table equals changes nothing. -/
theorem stability_sound_someRows :
    rowsDiffer (commonRows.eval (someRows [])).data (commonRows.eval (someRows [5])).data ≤
      (commonRows.eval (someRows [])).stability := by
  refine ((stability_sound (neighbours_someRows 5)).1 ℕ commonRows ?_).1
  exact ⟨trivial, trivial, [1, 1, 1], List.Sublist.refl _, List.Sublist.refl _, by decide⟩

/-- **`intersect` is not stable**: with the record `1` in the second table three
records come, and the stability says two. -/
theorem not_stability_sound : Neighbours (S := fun _ : Bool => ℕ) (someRows []) (someRows [1]) ∧
    (commonRows.eval (someRows [])).stability = 2 ∧
    rowsDiffer (commonRows.eval (someRows [])).data (commonRows.eval (someRows [1])).data = 3 ∧
    (commonRows.eval (someRows [])).countSensitivity = 2 ∧
    |(commonRows.eval (someRows [])).trueCount -
      (commonRows.eval (someRows [1])).trueCount| = 3 := by
  exact ⟨neighbours_someRows 1, rfl, by decide, by decide +kernel, by decide +kernel⟩

end ExchangeLabs.Privacy
