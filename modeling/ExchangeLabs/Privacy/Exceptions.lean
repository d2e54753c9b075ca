import ExchangeLabs.Privacy.Budget
import ExchangeLabs.Privacy.Stability

/-!
# The account after an exception

`count`, `sum` and `partition` charge before they do anything else, and nothing takes
the charge back when they raise later.  `partition` also gives its charge back for the
time of each computation, and an exception of a computation leaves it given back: what
the computations before it have released is then paid for by nobody.

## Main definitions

* `partitionCall` — `partition` with a classifier that may raise.
* `Call`, `Call.run` — the calls that charge the account.
* `callbacks` — the computations of a partition, each from the account of the caller, up
  to the first that raises.
* `Call.Covered` — the exceptions after which the account is right.

## Main results

* `partitionLoop_spec` — each computation starts from the caller's account, and what the
  raising one has charged is all that an exception leaves of the charges.
* `used_eq_iff` — **after an exception the account has grown by the loss** exactly if it is
  covered.
* `not_used_eq` — a released count that nobody pays for.
-/

namespace ExchangeLabs.Privacy

variable {α K R T : Type}

/-! ### The calls -/

/-- The loop of `partition` over the rows, with a classifier that may raise. -/
def classify (classifier : T → Except Error K) : List T → Except Error (List (K × T))
  | [] => .ok []
  | item :: data => do
    let k ← classifier item
    let rows ← classify classifier data
    .ok ((k, item) :: rows)

/-- The dataset that the loop hands to the computation for the key `k`. -/
def partOfRows [DecidableEq K] (keys : List K) (rows : List (K × T)) (dataset : Dataset T) (k : K) :
    Dataset T :=
  .createNew ((Dataset.buckets keys Prod.fst rows k).map Prod.snd) dataset.stability dataset.one_le

/-- `partition`; the classifier and the computation are a caller's. -/
def partitionCall [DecidableEq K] (keys : List K) (classifier : T → Except Error K)
    (dataset : Dataset T) (computation : K → Dataset T → DSL → ℕ → Outcome R) (epsilon : ℚ)
    (dsl : DSL) (draws : ℕ) : Outcome (List (K × R)) :=
  match dsl.consumeBudget epsilon with
  | .error e => .plain (.error e) dsl draws
  | .ok dsl' =>
    match classify classifier dataset.data with
    | .error e => { Outcome.plain (.error e) dsl' draws with points := [dsl'] }
    | .ok rows =>
      partition keys (fun k => computation k (partOfRows keys rows dataset k)) epsilon dsl draws

/-- A call that charges the account. -/
inductive Call : Type 1
  | count {T : Type} (dataset : Dataset T) (epsilon : ℚ)
  | sum (dataset : Dataset ℚ) (epsilon lowerBound upperBound : ℚ)
  | partition {K T R : Type} [DecidableEq K] (keys : List K) (classifier : T → Except Error K)
      (dataset : Dataset T) (computation : K → Dataset T → DSL → ℕ → Outcome R) (epsilon : ℚ)

namespace Call

/-- What the call returns. -/
def Result : Call → Type
  | count _ _ => DPResult
  | sum _ _ _ _ => DPResult
  | @partition K _ R _ _ _ _ _ _ => List (K × R)

def epsilon : Call → ℚ
  | count _ epsilon => epsilon
  | sum _ epsilon _ _ => epsilon
  | partition _ _ _ _ epsilon => epsilon

def run (laplace : ℕ → ℚ → ℚ) : (c : Call) → DSL → ℕ → Outcome c.Result
  | count dataset epsilon => Privacy.count laplace dataset epsilon
  | sum dataset epsilon lowerBound upperBound =>
    Privacy.sum laplace dataset epsilon lowerBound upperBound
  | partition keys classifier dataset computation epsilon =>
    partitionCall keys classifier dataset computation epsilon

end Call

/-! ### A classifier that never raises -/

theorem classify_total (classifier : T → K) (data : List T) :
    classify (fun item => .ok (classifier item)) data =
      .ok (data.map fun item => (classifier item, item)) := by
  induction data with
  | nil => rfl
  | cons item data ih =>
    unfold classify
    rw [ih]
    rfl

/-- **A partition of a program** is such a call. -/
theorem partitionCall_total [DecidableEq K] {keys : List K} (classifier : T → K)
    (dataset : Dataset T) (computation : K → Dataset T → DSL → ℕ → Outcome R) (epsilon : ℚ)
    (dsl : DSL) (draws : ℕ) :
    partitionCall keys (fun item => .ok (classifier item)) dataset computation epsilon dsl draws =
      partition keys (fun k => computation k (dataset.part keys classifier k)) epsilon dsl
        draws := by
  -- the rows of the classifier have the buckets of the data
  have hbuckets : ∀ k, (Dataset.buckets keys Prod.fst
      (dataset.data.map fun item => (classifier item, item)) k).map Prod.snd =
      Dataset.buckets keys classifier dataset.data k := by
    intro k
    unfold Dataset.buckets
    rw [List.foldl_map]
    generalize hf : (fun _ => [] : K → List (K × T)) = f
    generalize hg : (fun _ => [] : K → List T) = g
    have hfg : ∀ k, (f k).map Prod.snd = g k := by
      intro k
      rw [← hf, ← hg]
      rfl
    clear hf hg
    induction dataset.data generalizing f g with
    | nil => exact hfg k
    | cons item data ih =>
      refine ih _ _ fun k => ?_
      dsimp only
      split
      · by_cases hk : k = classifier item
        · subst hk
          rw [Function.update_self, Function.update_self, List.map_append, hfg]
          rfl
        · rw [Function.update_of_ne hk, Function.update_of_ne hk, hfg]
      · exact hfg k
  unfold partitionCall
  split
  · next e he =>
    unfold partition
    rw [he]
  · rw [classify_total]
    unfold partOfRows
    dsimp only
    simp only [hbuckets]
    rfl

/-! ### The computations of a partition -/

/-- The computations for the keys, each from the account of the caller, up to the first that
raises: the losses, and what the raising one has charged. -/
def callbacks (run : K → DSL → ℕ → Outcome R) : List K → DSL → ℕ → List (K × ℚ) × Option ℚ
  | [], _, _ => ([], none)
  | k :: keys, dsl, draws =>
    let o := run k dsl draws
    match o.result with
    | .error _ => ([(k, o.loss)], some (o.dsl.used - dsl.used))
    | .ok _ =>
      let (losses, charged) := callbacks run keys { o.dsl with used := dsl.used } o.draws
      ((k, o.loss) :: losses, charged)

/-- **The loop of `partition`** runs each computation from the account of the caller, and when one
raises, what this one has charged is all that has been charged. -/
theorem partitionLoop_spec (epsilon used : ℚ) (run : K → DSL → ℕ → Outcome R) :
    ∀ (keys : List K) (dsl : DSL) (draws : ℕ), dsl.used = used + epsilon →
      (partitionLoop epsilon (used + epsilon) run keys dsl draws).2 =
          (callbacks run keys { dsl with used := used } draws).1 ∧
        ((partitionLoop epsilon (used + epsilon) run keys dsl draws).1.result.isOk = false →
          (callbacks run keys { dsl with used := used } draws).2 =
            some
              ((partitionLoop epsilon (used + epsilon) run keys dsl draws).1.dsl.used - used)) := by
  intro keys
  induction keys with
  | nil => exact fun dsl draws _ => ⟨rfl, fun h => by cases h⟩
  | cons k keys ih =>
    intro dsl draws hused
    -- each computation starts from the account without the charge for the partition
    have hrefund : dsl.used - epsilon = used := by linarith
    unfold partitionLoop callbacks
    rw [hrefund]
    dsimp only
    generalize run k { dsl with used := used } draws = o
    cases hres : o.result with
    | error e => exact ⟨rfl, fun _ => rfl⟩
    | ok res =>
      obtain ⟨hlosses, hcharged⟩ := ih { o.dsl with used := used + epsilon } o.draws rfl
      refine ⟨congrArg _ hlosses, fun hraise => hcharged ?_⟩
      dsimp only [Outcome.plain] at hraise
      cases hrest : (partitionLoop epsilon (used + epsilon) run keys
        { o.dsl with used := used + epsilon } o.draws).1.result with
      | error e => rfl
      | ok results =>
        rw [hrest] at hraise
        cases hraise

/-! ### Which exceptions leave the account right -/

/-- A computation of the partition raises, and has charged by then exactly the loss of all that
the computations have released. -/
def ChargesLoss [DecidableEq K] (keys : List K) (classifier : T → Except Error K)
    (dataset : Dataset T) (computation : K → Dataset T → DSL → ℕ → Outcome R) (dsl : DSL)
    (draws : ℕ) : Prop :=
  match classify classifier dataset.data with
  | .error _ => False
  | .ok rows =>
    let (losses, charged) :=
      callbacks (fun k => computation k (partOfRows keys rows dataset k)) keys dsl draws
    charged = some (partitionLoss losses)

/-- `_consume_budget` refuses the call, or it is a partition whose raising computation has charged
the loss. -/
def Call.Covered : Call → DSL → ℕ → Prop
  | .count _ epsilon, dsl, _ => (dsl.consumeBudget epsilon).isOk = false
  | .sum _ epsilon _ _, dsl, _ => (dsl.consumeBudget epsilon).isOk = false
  | @Call.partition _ _ _ _ keys classifier dataset computation epsilon, dsl, draws =>
    (dsl.consumeBudget epsilon).isOk = false ∨
      ChargesLoss keys classifier dataset computation dsl draws

/-- A measurement that raises has charged for nothing, unless it was refused. -/
theorem measure_used_eq_iff (laplace : ℕ → ℚ → ℚ) (dsl : DSL) (draws : ℕ)
    (value sensitivity epsilon : ℚ)
    (h : (measure laplace dsl draws value sensitivity epsilon).result.isOk = false) :
    (measure laplace dsl draws value sensitivity epsilon).dsl.used =
        dsl.used + (measure laplace dsl draws value sensitivity epsilon).loss ↔
      (dsl.consumeBudget epsilon).isOk = false := by
  unfold measure at h ⊢
  cases hc : dsl.consumeBudget epsilon with
  | error e => exact ⟨fun _ => rfl, fun _ => (add_zero dsl.used).symm⟩
  | ok dsl' =>
    obtain ⟨hpos, -, hused, -⟩ := DSL.consumeBudget_eq_ok hc
    rw [hc] at h
    dsimp only at h ⊢
    cases hn : addLaplaceNoise laplace draws value sensitivity epsilon with
    | ok res =>
      rw [hn] at h
      cases h
    | error e =>
      refine ⟨fun heq => ?_, fun hrefused => by cases hrefused⟩
      have heq' : dsl'.used = dsl.used + 0 := heq
      linarith

theorem partitionCall_used_eq_iff [DecidableEq K] (keys : List K)
    (classifier : T → Except Error K) (dataset : Dataset T)
    (computation : K → Dataset T → DSL → ℕ → Outcome R) (epsilon : ℚ) (dsl : DSL) (draws : ℕ)
    (h : (partitionCall keys classifier dataset computation epsilon dsl draws).result.isOk =
      false) :
    (partitionCall keys classifier dataset computation epsilon dsl draws).dsl.used =
        dsl.used + (partitionCall keys classifier dataset computation epsilon dsl draws).loss ↔
      (dsl.consumeBudget epsilon).isOk = false ∨
        ChargesLoss keys classifier dataset computation dsl draws := by
  unfold partitionCall ChargesLoss at *
  cases hc : dsl.consumeBudget epsilon with
  | error e => exact ⟨fun _ => Or.inl rfl, fun _ => (add_zero dsl.used).symm⟩
  | ok dsl' =>
    obtain ⟨hpos, htotal, hused, -⟩ := DSL.consumeBudget_eq_ok hc
    rw [hc] at h
    dsimp only at h ⊢
    cases hrows : classify classifier dataset.data with
    | error e =>
      -- the classifier raises when the call has been charged for
      refine ⟨fun heq => ?_, fun hor => ?_⟩
      · have heq' : dsl'.used = dsl.used + 0 := heq
        linarith
      · rcases hor with hrefused | hfalse
        · cases hrefused
        · exact hfalse.elim
    | ok rows =>
      rw [hrows] at h
      dsimp only at h ⊢
      unfold partition at h ⊢
      rw [hc] at h ⊢
      dsimp only at h ⊢
      rw [hused] at h ⊢
      obtain ⟨hlosses, hcharged⟩ := partitionLoop_spec epsilon dsl.used
        (fun k => computation k (partOfRows keys rows dataset k)) keys dsl' draws hused
      have hsame : { dsl' with used := dsl.used } = dsl := by
        cases dsl
        cases dsl'
        cases htotal
        rfl
      rw [hsame] at hlosses hcharged
      rw [hcharged h, hlosses]
      constructor
      · intro heq
        refine Or.inr (congrArg some ?_)
        rw [heq, add_sub_cancel_left]
      · intro hor
        rcases hor with hrefused | heq
        · cases hrefused
        · rw [← Option.some.inj heq, add_sub_cancel]

/-- **After an exception** the account has grown by the loss of what was released exactly if the
call was refused, or it was a partition whose raising computation has charged the loss. -/
theorem used_eq_iff (laplace : ℕ → ℚ → ℚ) (c : Call) (dsl : DSL) (draws : ℕ)
    (h : (c.run laplace dsl draws).result.isOk = false) :
    (c.run laplace dsl draws).dsl.getUsedBudget =
        dsl.getUsedBudget + (c.run laplace dsl draws).loss ↔ c.Covered dsl draws := by
  cases c with
  | count dataset epsilon =>
    exact measure_used_eq_iff laplace dsl draws dataset.trueCount dataset.countSensitivity epsilon h
  | sum dataset epsilon lowerBound upperBound =>
    exact measure_used_eq_iff laplace dsl draws (dataset.trueSum lowerBound upperBound)
      (dataset.sumSensitivity lowerBound upperBound) epsilon h
  | partition keys classifier dataset computation epsilon =>
    exact partitionCall_used_eq_iff keys classifier dataset computation epsilon dsl draws h

/-- Two parts of one row each, at the price of `1`: the first is counted at that price, and the
computation for the second raises. -/
def raisingCall : Call :=
  .partition [1, 2] (fun x : ℕ => .ok x) (createDataset [1, 2])
    (fun k part => exec (fun _ _ => 0)
      (if k = 1 then .count part 1 fun r => .ret r else .raise .other)) 1

theorem used_eq_iff_raisingCall :
    (raisingCall.run (fun _ _ => 0) { total := 10, used := 0 } 0).dsl.getUsedBudget =
        DSL.getUsedBudget { total := 10, used := 0 } +
          (raisingCall.run (fun _ _ => 0) { total := 10, used := 0 } 0).loss ↔
      raisingCall.Covered { total := 10, used := 0 } 0 :=
  used_eq_iff (fun _ _ => 0) raisingCall { total := 10, used := 0 } 0 (by decide +kernel)

/-- **A count that was released and is not paid for.** -/
theorem not_used_eq :
    (raisingCall.run (fun _ _ => 0) { total := 10, used := 0 } 0).result.isOk = false ∧
      (raisingCall.run (fun _ _ => 0) { total := 10, used := 0 } 0).loss = 1 ∧
      (raisingCall.run (fun _ _ => 0) { total := 10, used := 0 } 0).dsl.getUsedBudget = 0 := by
  decide +kernel

end ExchangeLabs.Privacy
