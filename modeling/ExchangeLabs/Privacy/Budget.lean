import Mathlib.Algebra.BigOperators.Group.List.Basic
import Mathlib.Tactic.Linarith
import ExchangeLabs.Privacy.Dataset

/-!
# The privacy budget

The mutable half of `DP_DSL`: its account, the calls that charge it, and the
programs that make these calls.  A program is a sequence of calls, each of which
may depend on what the earlier ones released; the transformations leave the
account alone, so in a program they are plain terms.  Arithmetic is exact, and
`laplace i` stands for the sample that the `i`-th draw of noise takes.

An outcome carries what no caller sees: the privacy loss of what was released,
the account after every write to it, and the outermost calls of `partition`.

## Main definitions

* `DSL`, `consumeBudget` — the account.
* `count`, `sum`, `partition` — the calls that charge it.
* `Program`, `exec` — the programs and their outcomes.

## Main results

* `exec_sound` — the account is never overdrawn, and what it gains is the loss up
  to what `partition` charges for its computations instead of their losses.
* `loss_le_iff` — **accounting is sound** exactly if the outermost partitions
  charge at least these losses.
* `not_loss_le` — a computation that spends more than its partition charges.
-/

namespace ExchangeLabs.Privacy

/-! ### The account -/

/-- The exceptions, with the values in their messages. -/
inductive Error
  /-- `InvalidParameter`: an epsilon or a budget that is not positive. -/
  | invalidParameter (got : ℚ)
  | insufficientBudget (requested available : ℚ)
  /-- `ValueError`: the scale of the noise is not positive. -/
  | valueError (scale : ℚ)
  /-- Any other exception of a computation. -/
  | other

/-- The account of a `DP_DSL`: `_total` and `_used`. -/
structure DSL where
  total : ℚ
  used : ℚ
  deriving DecidableEq

namespace DSL

/-- The constructor. -/
def create (budget : ℚ) : Except Error DSL :=
  if budget ≤ 0 then .error (.invalidParameter budget) else .ok { total := budget, used := 0 }

def getRemainingBudget (dsl : DSL) : ℚ := dsl.total - dsl.used

def getUsedBudget (dsl : DSL) : ℚ := dsl.used

def getTotalBudget (dsl : DSL) : ℚ := dsl.total

def consumeBudget (dsl : DSL) (epsilon : ℚ) : Except Error DSL :=
  if epsilon ≤ 0 then .error (.invalidParameter epsilon)
  else if epsilon > dsl.getRemainingBudget then
    .error (.insufficientBudget epsilon dsl.getRemainingBudget)
  else .ok { dsl with used := dsl.used + epsilon }

theorem consumeBudget_eq_ok {dsl dsl' : DSL} {epsilon : ℚ}
    (h : dsl.consumeBudget epsilon = .ok dsl') :
    0 < epsilon ∧ dsl'.total = dsl.total ∧ dsl'.used = dsl.used + epsilon ∧
      dsl'.used ≤ dsl'.total := by
  unfold consumeBudget getRemainingBudget at h
  split at h
  · cases h
  split at h
  · cases h
  · cases h
    exact ⟨by linarith, rfl, rfl, by simp only; linarith⟩

end DSL

/-! ### Outcomes -/

structure DPResult where
  dpValue : ℚ
  epsilonSpent : ℚ

/-- What a call or a program ends with. -/
structure Outcome (α : Type) where
  result : Except Error α
  dsl : DSL
  /-- How many samples of noise have been drawn. -/
  draws : ℕ
  /-- The privacy loss of what has been released. -/
  loss : ℚ
  /-- The account after every write to it. -/
  points : List DSL
  /-- The outermost partitions: what each charges, and the loss of its computations. -/
  partitions : List (ℚ × ℚ)

variable {α β K R T : Type}

/-- Nothing has happened but the result. -/
def Outcome.plain (result : Except Error α) (dsl : DSL) (draws : ℕ) : Outcome α where
  result := result
  dsl := dsl
  draws := draws
  loss := 0
  points := []
  partitions := []

/-- What follows an outcome, unless it is an exception. -/
def Outcome.andThen (o : Outcome α) (next : α → DSL → ℕ → Outcome β) : Outcome β :=
  match o.result with
  | .error e => { o with result := .error e }
  | .ok a =>
    let o' := next a o.dsl o.draws
    { o' with
      loss := o.loss + o'.loss
      points := o.points ++ o'.points
      partitions := o.partitions ++ o'.partitions }

/-! ### Measurements -/

section Measurements

variable (laplace : ℕ → ℚ → ℚ)

def laplaceNoise (draws : ℕ) (scale : ℚ) : Except Error ℚ :=
  if scale ≤ 0 then .error (.valueError scale) else .ok (laplace draws scale)

def addLaplaceNoise (draws : ℕ) (value sensitivity epsilon : ℚ) : Except Error ℚ :=
  (laplaceNoise laplace draws (sensitivity / epsilon)).map fun noise => value + noise

/-- Charge `epsilon` and release a value with noise. -/
def measure (dsl : DSL) (draws : ℕ) (value sensitivity epsilon : ℚ) : Outcome DPResult :=
  match dsl.consumeBudget epsilon with
  | .error e => .plain (.error e) dsl draws
  | .ok dsl' =>
    match addLaplaceNoise laplace draws value sensitivity epsilon with
    | .error e => { Outcome.plain (.error e) dsl' draws with points := [dsl'] }
    | .ok res =>
      { Outcome.plain (.ok { dpValue := res, epsilonSpent := epsilon }) dsl' (draws + 1) with
        loss := epsilon
        points := [dsl'] }

def count (dataset : Dataset T) (epsilon : ℚ) (dsl : DSL) (draws : ℕ) : Outcome DPResult :=
  measure laplace dsl draws dataset.trueCount dataset.countSensitivity epsilon

def sum (dataset : Dataset ℚ) (epsilon lowerBound upperBound : ℚ) (dsl : DSL) (draws : ℕ) :
    Outcome DPResult :=
  measure laplace dsl draws (dataset.trueSum lowerBound upperBound)
    (dataset.sumSensitivity lowerBound upperBound) epsilon

end Measurements

/-! ### Partitions -/

/-- The loss of the computations for one key. -/
def keyLoss [DecidableEq K] (losses : List (K × ℚ)) (k : K) : ℚ :=
  ((losses.filter fun p => p.1 = k).map Prod.snd).sum

/-- The loss of a partition: the parts are disjoint, so it is the largest of any key. -/
def partitionLoss [DecidableEq K] (losses : List (K × ℚ)) : ℚ :=
  (losses.map fun p => keyLoss losses p.1).foldr max 0

/-- The loop of `partition`, where `run k` is the computation for the key `k`, with
the losses of the computations it has run. -/
def partitionLoop (epsilon finalUsedBudget : ℚ) (run : K → DSL → ℕ → Outcome R) :
    List K → DSL → ℕ → Outcome (List (K × R)) × List (K × ℚ)
  | [], dsl, draws => (.plain (.ok []) dsl draws, [])
  | k :: keys, dsl, draws =>
    let refunded := { dsl with used := dsl.used - epsilon }
    let o := run k refunded draws
    match o.result with
    | .error e =>
      ({ Outcome.plain (.error e) o.dsl o.draws with points := refunded :: o.points },
        [(k, o.loss)])
    | .ok res =>
      -- whatever the computation has charged is overwritten here
      let restored := { o.dsl with used := finalUsedBudget }
      let (rest, losses) := partitionLoop epsilon finalUsedBudget run keys restored o.draws
      ({ Outcome.plain (rest.result.map fun results => (k, res) :: results) rest.dsl rest.draws with
          points := refunded :: o.points ++ restored :: rest.points }, (k, o.loss) :: losses)

def partition [DecidableEq K] (keys : List K) (run : K → DSL → ℕ → Outcome R) (epsilon : ℚ)
    (dsl : DSL) (draws : ℕ) : Outcome (List (K × R)) :=
  match dsl.consumeBudget epsilon with
  | .error e => .plain (.error e) dsl draws
  | .ok dsl' =>
    let (o, losses) := partitionLoop epsilon dsl'.used run keys dsl' draws
    { o with
      loss := partitionLoss losses
      points := dsl' :: o.points
      partitions := [(epsilon, partitionLoss losses)] }

/-! ### Programs -/

/-- The programs over a DSL: sequences of its calls, each of which may depend on
what the calls before it returned. -/
inductive Program : Type → Type 1
  | ret {α : Type} (a : α) : Program α
  | raise {α : Type} (e : Error) : Program α
  | count {T α : Type} (dataset : Dataset T) (epsilon : ℚ) (next : DPResult → Program α) : Program α
  | sum {α : Type} (dataset : Dataset ℚ) (epsilon lowerBound upperBound : ℚ)
    (next : DPResult → Program α) : Program α
  | partition {K T R α : Type} [DecidableEq K] (keys : List K) (classifier : T → K)
    (dataset : Dataset T) (computation : K → Dataset T → Program R) (epsilon : ℚ)
    (next : List (K × R) → Program α) : Program α

/-- Run a program from an account. -/
def exec (laplace : ℕ → ℚ → ℚ) : ∀ {α : Type}, Program α → DSL → ℕ → Outcome α
  | _, .ret a, dsl, draws => .plain (.ok a) dsl draws
  | _, .raise e, dsl, draws => .plain (.error e) dsl draws
  | _, .count dataset epsilon next, dsl, draws =>
    (count laplace dataset epsilon dsl draws).andThen fun r => exec laplace (next r)
  | _, .sum dataset epsilon lowerBound upperBound next, dsl, draws =>
    (sum laplace dataset epsilon lowerBound upperBound dsl draws).andThen fun r =>
      exec laplace (next r)
  | _, @Program.partition _ _ _ _ _ keys classifier dataset computation epsilon next, dsl, draws =>
    (partition keys (fun k => exec laplace (computation k (dataset.part keys classifier k))) epsilon
      dsl draws).andThen fun r => exec laplace (next r)

/-! ### The account is kept -/

/-- The account that an outcome of a run from `dsl` leaves. -/
structure Outcome.Sound (o : Outcome α) (dsl : DSL) : Prop where
  total : o.dsl.total = dsl.total
  used_le : o.dsl.used ≤ o.dsl.total
  points : ∀ s ∈ o.points, s.used ≤ s.total
  /-- What the account gains is the loss, with the charges of the outermost
  partitions in the place of their losses. -/
  account : ∀ a, o.result = .ok a → o.loss + (o.partitions.map Prod.fst).sum =
    o.dsl.used - dsl.used + (o.partitions.map Prod.snd).sum

theorem sound_plain (result : Except Error α) {dsl : DSL} (h : dsl.used ≤ dsl.total) (draws : ℕ) :
    (Outcome.plain result dsl draws).Sound dsl where
  total := rfl
  used_le := h
  points := fun s hs => by cases hs
  account := fun a _ => by simp [Outcome.plain]

theorem Outcome.Sound.andThen {o : Outcome α} {dsl : DSL} {next : α → DSL → ℕ → Outcome β}
    (ho : o.Sound dsl)
    (hnext : ∀ a draws, (next a o.dsl draws).Sound o.dsl) : (o.andThen next).Sound dsl := by
  unfold Outcome.andThen
  split
  · exact ⟨ho.total, ho.used_le, ho.points, fun b hb => by cases hb⟩
  · next a ha =>
    have hn := hnext a o.draws
    refine ⟨hn.total.trans ho.total, hn.used_le, fun s hs => ?_, fun b hb => ?_⟩
    · rcases List.mem_append.mp hs with hs | hs
      · exact ho.points s hs
      · exact hn.points s hs
    · have h1 := ho.account a ha
      have h2 := hn.account b hb
      simp only [List.map_append, List.sum_append]
      linarith

theorem sound_measure (laplace : ℕ → ℚ → ℚ) {dsl : DSL} (h : dsl.used ≤ dsl.total) (draws : ℕ)
    (value sensitivity epsilon : ℚ) :
    (measure laplace dsl draws value sensitivity epsilon).Sound dsl := by
  unfold measure
  split
  · exact sound_plain _ h draws
  · next dsl' hc =>
    obtain ⟨-, h1, h2, h3⟩ := DSL.consumeBudget_eq_ok hc
    have hpoints : ∀ s ∈ [dsl'], s.used ≤ s.total := by
      intro s hs
      rw [List.mem_singleton.mp hs]
      exact h3
    split
    · exact ⟨h1, h3, hpoints, fun a ha => by cases ha⟩
    · refine ⟨h1, h3, hpoints, fun a _ => ?_⟩
      simp only [Outcome.plain, List.map_nil, List.sum_nil, h2]
      linarith

/-- The account that the loop of a partition leaves: where it was, unless a
computation raised. -/
structure Outcome.Restored (o : Outcome α) (dsl : DSL) : Prop where
  total : o.dsl.total = dsl.total
  used_le : o.dsl.used ≤ o.dsl.total
  points : ∀ s ∈ o.points, s.used ≤ s.total
  restored : ∀ a, o.result = .ok a → o.dsl.used = dsl.used

theorem restored_partitionLoop {epsilon finalUsedBudget : ℚ} (hpos : 0 < epsilon)
    {run : K → DSL → ℕ → Outcome R}
    (hrun : ∀ k dsl draws, dsl.used ≤ dsl.total → (run k dsl draws).Sound dsl) :
    ∀ (keys : List K) (dsl : DSL) (draws : ℕ), dsl.used = finalUsedBudget → dsl.used ≤ dsl.total →
      (partitionLoop epsilon finalUsedBudget run keys dsl draws).1.Restored dsl := by
  intro keys
  induction keys with
  | nil =>
    intro dsl draws _ hle
    exact ⟨rfl, hle, fun s hs => by simp [partitionLoop, Outcome.plain] at hs, fun a _ => rfl⟩
  | cons k keys ih =>
    intro dsl draws hfinal hle
    unfold partitionLoop
    dsimp only
    have hrefund : dsl.used - epsilon ≤ dsl.total := by linarith
    have hr := hrun k { dsl with used := dsl.used - epsilon } draws hrefund
    generalize run k { dsl with used := dsl.used - epsilon } draws = o at hr ⊢
    have hpoints : ∀ s ∈ { dsl with used := dsl.used - epsilon } :: o.points, s.used ≤ s.total := by
      intro s hs
      rcases List.mem_cons.mp hs with rfl | hs
      · exact hrefund
      · exact hr.points s hs
    have htotal : o.dsl.total = dsl.total := hr.total
    cases hres : o.result with
    | error e => exact ⟨htotal, hr.used_le, hpoints, fun a ha => by cases ha⟩
    | ok res =>
      -- the account is where it was before the refund
      have hrestored : finalUsedBudget ≤ o.dsl.total := by rw [htotal, ← hfinal]; exact hle
      have hrest := ih { o.dsl with used := finalUsedBudget } o.draws rfl hrestored
      generalize partitionLoop epsilon finalUsedBudget run keys
        { o.dsl with used := finalUsedBudget } o.draws = rest at hrest ⊢
      refine ⟨hrest.total.trans htotal, hrest.used_le, fun s hs => ?_, fun a ha => ?_⟩
      · rcases List.mem_append.mp hs with hs | hs
        · exact hpoints s hs
        · rcases List.mem_cons.mp hs with rfl | hs
          · exact hrestored
          · exact hrest.points s hs
      · cases hok : rest.1.result with
        | error e =>
          simp only [Outcome.plain, hok] at ha
          cases ha
        | ok results => exact (hrest.restored results hok).trans hfinal.symm

theorem sound_partition [DecidableEq K] (keys : List K) {run : K → DSL → ℕ → Outcome R}
    (hrun : ∀ k dsl draws, dsl.used ≤ dsl.total → (run k dsl draws).Sound dsl) (epsilon : ℚ)
    {dsl : DSL} (h : dsl.used ≤ dsl.total) (draws : ℕ) :
    (partition keys run epsilon dsl draws).Sound dsl := by
  unfold partition
  split
  · exact sound_plain _ h draws
  · next dsl' hc =>
    obtain ⟨hpos, h1, h2, h3⟩ := DSL.consumeBudget_eq_ok hc
    have hloop := restored_partitionLoop hpos hrun keys dsl' draws rfl h3
    dsimp only
    refine ⟨hloop.total.trans h1, hloop.used_le, fun s hs => ?_, fun a ha => ?_⟩
    · rcases List.mem_cons.mp hs with rfl | hs
      · exact h3
      · exact hloop.points s hs
    · have hused := hloop.restored a ha
      simp only [List.map_cons, List.map_nil, List.sum_cons, List.sum_nil]
      linarith

/-- **Every program keeps the account**: it is never overdrawn, and what it gains
is the loss, up to the outermost partitions. -/
theorem exec_sound (laplace : ℕ → ℚ → ℚ) (p : Program α) :
    ∀ (dsl : DSL) (draws : ℕ), dsl.used ≤ dsl.total → (exec laplace p dsl draws).Sound dsl := by
  induction p with
  | ret a => exact fun dsl draws h => sound_plain _ h draws
  | raise e => exact fun dsl draws h => sound_plain _ h draws
  | count dataset epsilon next ih =>
    intro dsl draws h
    have hm := sound_measure laplace h draws dataset.trueCount dataset.countSensitivity epsilon
    exact hm.andThen fun r draws => ih r _ draws hm.used_le
  | sum dataset epsilon lowerBound upperBound next ih =>
    intro dsl draws h
    have hm := sound_measure laplace h draws (dataset.trueSum lowerBound upperBound)
      (dataset.sumSensitivity lowerBound upperBound) epsilon
    exact hm.andThen fun r draws => ih r _ draws hm.used_le
  | partition keys classifier dataset computation epsilon next ihc ih =>
    intro dsl draws h
    have hm :=
      sound_partition keys (fun k => ihc k (dataset.part keys classifier k)) epsilon h draws
    exact hm.andThen fun r draws => ih r _ draws hm.used_le

/-! ### Losses -/

/-- A partition loses no more than it charges if no key does. -/
theorem partitionLoss_le_iff [DecidableEq K] (losses : List (K × ℚ)) {epsilon : ℚ}
    (h : 0 ≤ epsilon) :
    partitionLoss losses ≤ epsilon ↔ ∀ p ∈ losses, keyLoss losses p.1 ≤ epsilon := by
  have hfold : ∀ l : List ℚ, l.foldr max 0 ≤ epsilon ↔ ∀ x ∈ l, x ≤ epsilon := by
    intro l
    induction l with
    | nil => simpa using h
    | cons x l ih => simp [ih]
  simp only [partitionLoss, hfold, List.forall_mem_map]

/-- **Accounting is sound exactly if partitions charge enough.**  A program that
raises nothing never overdraws the account; its loss is at most what the account
gains if and only if its outermost partitions lose, all in all, no more than they
charge, where a partition loses what its computations for one key do at most. -/
theorem loss_le_iff (laplace : ℕ → ℚ → ℚ) (p : Program α) {dsl : DSL}
    (h : dsl.getUsedBudget ≤ dsl.getTotalBudget) (draws : ℕ) {a : α}
    (hok : (exec laplace p dsl draws).result = .ok a) :
    ((exec laplace p dsl draws).loss ≤
        (exec laplace p dsl draws).dsl.getUsedBudget - dsl.getUsedBudget ∧
      ∀ s ∈ dsl :: (exec laplace p dsl draws).points, s.getUsedBudget ≤ s.getTotalBudget) ↔
    ((exec laplace p dsl draws).partitions.map Prod.snd).sum ≤
      ((exec laplace p dsl draws).partitions.map Prod.fst).sum := by
  have hs := exec_sound laplace p dsl draws h
  have hacc := hs.account a hok
  have hpoints : ∀ s ∈ dsl :: (exec laplace p dsl draws).points,
      s.getUsedBudget ≤ s.getTotalBudget := by
    intro s hmem
    rcases List.mem_cons.mp hmem with rfl | hmem
    · exact h
    · exact hs.points s hmem
  unfold DSL.getUsedBudget at *
  constructor
  · rintro ⟨hle, -⟩
    linarith
  · exact fun hle => ⟨by linarith, hpoints⟩

/-- A partition of the one row `1` by one key, at the price of `1`, whose
computation counts it at the given price. -/
def countPart (epsilon : ℚ) : Program (List (ℕ × DPResult)) :=
  .partition [1] (fun x : ℕ => x) (createDataset [1])
    (fun _ part => .count part epsilon fun r => .ret r) 1 .ret

private theorem exists_of_isOk {x : Except Error α} (h : x.isOk = true) : ∃ a, x = .ok a := by
  cases x with
  | error e => cases h
  | ok a => exact ⟨a, rfl⟩

theorem loss_le_iff_countPart :
    (exec (fun _ _ => 0) (countPart 1) { total := 10, used := 0 } 0).loss ≤
      (exec (fun _ _ => 0) (countPart 1) { total := 10, used := 0 } 0).dsl.getUsedBudget -
        DSL.getUsedBudget { total := 10, used := 0 } := by
  obtain ⟨r, hr⟩ : ∃ r, (exec (fun _ _ => 0) (countPart 1) { total := 10, used := 0 } 0).result =
      .ok r := exists_of_isOk (by decide +kernel)
  exact ((loss_le_iff (fun _ _ => 0) (countPart 1) (by decide +kernel) 0 hr).mpr
    (by decide +kernel)).1

/-- **A computation that spends more** than its partition charges is not charged for it. -/
theorem not_loss_le :
    (∃ r, (exec (fun _ _ => 0) (countPart 5) { total := 10, used := 0 } 0).result = .ok r) ∧
    (exec (fun _ _ => 0) (countPart 5) { total := 10, used := 0 } 0).loss = 5 ∧
    (exec (fun _ _ => 0) (countPart 5) { total := 10, used := 0 } 0).dsl.getUsedBudget = 1 :=
  ⟨exists_of_isOk (by decide +kernel), by decide +kernel, by decide +kernel⟩

end ExchangeLabs.Privacy
