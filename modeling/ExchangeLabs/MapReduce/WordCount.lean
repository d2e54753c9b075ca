import ExchangeLabs.Lib.Text
import ExchangeLabs.MapReduce.JobOutput
import Mathlib.Data.List.Dedup

/-!
# Counting words

The application `wc.go`: a word is a run of letters, and the job counts how often each word
occurs in the input files.  What `strings.FieldsFunc` does with the runes of a file is put in
terms of splitting, and from what is known of the output of a job it follows that the output files
have one line for each word, with the number of its occurrences.

`unicode.IsLetter` is a parameter.

## Main definitions

* `runes`, `codePoint`, `fieldsFunc` — what `strings.FieldsFunc` does.
* `map`, `reduce` — the two functions of the application.
* `wordsIn`, `words` — the words of a file and of all files.

## Main results

* `fieldsFunc_eq` — the fields are the runs between separators that are not empty.
* `job_counts_words` — **the output of a job is the number of occurrences of each word.**
-/

namespace ExchangeLabs.MapReduce.WordCount

open Worker Worker.Env Local

variable {isLetter f : ℕ → Bool} {env : Env} {files : List String}

/-! ### Fields -/

/-- The first `n` runes of a string.  A byte that is no UTF-8 is a rune of its own. -/
def splitRunes : ℕ → GoString → List GoString
  | 0, _ => []
  | _ + 1, [] => []
  | n + 1, b :: s =>
    let more := if b < 0x80 then 0 else moreBytes b s
    (b :: s.take more) :: splitRunes n (s.drop more)

/-- The runes of a string, each one with its bytes. -/
def runes (s : GoString) : List GoString := splitRunes s.length s

/-- The number of a rune; that of a byte that is no UTF-8 is `utf8.RuneError`. -/
def codePoint : GoString → ℕ
  | [b₀] => if b₀ < 0x80 then b₀ else 0xFFFD
  | [b₀, b₁] => b₀ % 32 * 64 + b₁ % 64
  | [b₀, b₁, b₂] => (b₀ % 16 * 64 + b₁ % 64) * 64 + b₂ % 64
  | [b₀, b₁, b₂, b₃] => ((b₀ % 8 * 64 + b₁ % 64) * 64 + b₂ % 64) * 64 + b₃ % 64
  | _ => 0xFFFD

/-- The loop of `strings.FieldsFunc` over the runes, with the field that has been started. -/
def fieldsLoop (f : ℕ → Bool) : Option GoString → List GoString → List GoString
  | none, [] => []
  | some field, [] => [field]
  | none, r :: rs => if f (codePoint r) then fieldsLoop f none rs else fieldsLoop f (some r) rs
  | some field, r :: rs =>
    if f (codePoint r) then field :: fieldsLoop f none rs else fieldsLoop f (some (field ++ r)) rs

/-- `strings.FieldsFunc` -/
def fieldsFunc (f : ℕ → Bool) (s : GoString) : List GoString := fieldsLoop f none (runes s)

/-- The runs between separators that are not empty. -/
def fields (f : ℕ → Bool) (rs : List GoString) : List GoString :=
  ((rs.splitOnP fun r => f (codePoint r)).filter fun run => run ≠ []).map List.flatten

theorem fieldsLoop_eq (f : ℕ → Bool) (rs : List GoString) :
    fieldsLoop f none rs = fields f rs ∧
      ∀ run, run ≠ [] → fieldsLoop f (some run.flatten) rs =
        (((rs.splitOnP fun r => f (codePoint r)).modifyHead (run ++ ·)).filter
          fun run => run ≠ []).map List.flatten := by
  induction rs with
  | nil =>
    refine ⟨by simp [fieldsLoop, fields], fun run hrun => ?_⟩
    simp [fieldsLoop, hrun]
  | cons r rs ih =>
    obtain ⟨hnone, hsome⟩ := ih
    constructor
    · by_cases hr : f (codePoint r) = true
      · simp [fieldsLoop, fields, hr, List.splitOnP_cons_eq_if_modifyHead, hnone]
      · have := hsome [r] (List.cons_ne_nil _ _)
        rw [List.flatten_singleton] at this
        simp [fieldsLoop, fields, hr, List.splitOnP_cons_eq_if_modifyHead, this]
    · intro run hrun
      by_cases hr : f (codePoint r) = true
      · simp [fieldsLoop, fields, hr, List.splitOnP_cons_eq_if_modifyHead, hnone, hrun]
      · have := hsome (run ++ [r]) (by simp)
        rw [List.flatten_append, List.flatten_singleton] at this
        simp [fieldsLoop, hr, List.splitOnP_cons_eq_if_modifyHead, this, Function.comp_def]

/-- **The fields** are the runs between separators that are not empty. -/
theorem fieldsFunc_eq (f : ℕ → Bool) (s : GoString) : fieldsFunc f s = fields f (runes s) :=
  (fieldsLoop_eq f (runes s)).1

/-- A newline is a rune of its own. -/
theorem newline_rune {r : GoString} (hnewline : newline ∈ r) :
    ∀ (n : ℕ) (s : GoString), r ∈ splitRunes n s → codePoint r = 10 := by
  intro n
  induction n with
  | zero =>
    intro s hr
    cases hr
  | succ n ih =>
    intro s hr
    cases s with
    | nil => cases hr
    | cons b s =>
      rcases List.mem_cons.mp hr with rfl | hr
      · by_cases hb : b < 0x80
        · simp only [hb, if_true, List.take_zero, List.mem_singleton] at hnewline ⊢
          subst hnewline
          rfl
        · -- the bytes of a longer rune are no ASCII
          simp only [hb, if_false] at hnewline
          rcases List.mem_cons.mp hnewline with rfl | hmem
          · exact absurd (by decide) hb
          · exact absurd (le_of_mem_take_moreBytes hmem) (by decide)
      · exact ih _ hr

/-- A run of letters has no newline. -/
theorem newline_notMem_fields (hf : f 10 = true) {s w : GoString} (hw : w ∈ fields f (runes s)) :
    newline ∉ w := by
  intro hnewline
  obtain ⟨run, hrun, rfl⟩ := List.mem_map.mp hw
  obtain ⟨hrun, -⟩ := List.mem_filter.mp hrun
  obtain ⟨r, hr, hmem⟩ := List.mem_flatten.mp hnewline
  obtain ⟨hrunes, hfalse⟩ := of_mem_splitOnP hrun hr
  rw [newline_rune hmem _ _ hrunes, hf] at hfalse
  cases hfalse

/-! ### The application -/

/-- `Map` of `wc.go` -/
def map (isLetter : ℕ → Bool) (_filename contents : GoString) : List KeyValue :=
  (fieldsFunc (fun r => !isLetter r) contents).map fun w => { key := w, value := bytes "1" }

/-- `Reduce` of `wc.go`; the result of `strconv.Itoa`. -/
def reduce (_key : GoString) (values : List GoString) : GoString := bytes (toString values.length)

/-- A worker that has loaded `wc.go`. -/
def wc (isLetter : ℕ → Bool) (env : Env) : Env :=
  { env with mapf := map isLetter, reducef := reduce }

/-- The words in a file: the longest runs of letters. -/
def wordsIn (isLetter : ℕ → Bool) (contents : GoString) : List GoString :=
  fields (fun r => !isLetter r) (runes contents)

/-- The words in all files. -/
def words (isLetter : ℕ → Bool) (env : Env) (files : List GoString) : List GoString :=
  files.flatMap fun filename => ((env.readFile filename).map (wordsIn isLetter)).getD []

/-- The line for a word. -/
def countLine (ws : List GoString) (w : GoString) : GoString :=
  w ++ [blank] ++ bytes (toString (ws.count w))

theorem emitted_eq (files : List GoString) : (wc isLetter env).emitted files =
    (words isLetter env files).map fun w => { key := w, value := bytes "1" } := by
  rw [emitted, words, List.map_flatMap]
  refine List.flatMap_congr fun filename _ => ?_
  show mapOutput _ _ = _
  unfold mapOutput
  cases hread : env.readFile filename with
  | none => simp [wc, hread]
  | some contents => simp [wc, hread, map, wordsIn, fieldsFunc_eq]

theorem reduceComm_wc : (wc isLetter env).ReduceComm := by
  intro k vs vs' h
  simp only [wc, reduce, h.length_eq]

theorem line_eq (files : List GoString) (w : GoString) : (wc isLetter env).line files w =
    countLine (words isLetter env files) w ++ [newline] := by
  have hlength : (valuesOf w ((wc isLetter env).emitted files)).length =
      (words isLetter env files).count w := by
    rw [valuesOf, emitted_eq, List.length_map, ← List.countP_eq_length_filter, List.countP_map,
      List.count]
    refine List.countP_congr fun v _ => ?_
    simp
  simp only [line, outputLine, countLine, List.append_assoc]
  rw [← hlength]
  rfl

theorem keys_perm (isLetter : ℕ → Bool) (env : Env) (files : List GoString) :
    (keys KeyValue.key ((wc isLetter env).emitted files)).Perm
    (words isLetter env files).dedup := by
  refine (List.perm_ext_iff_of_nodup (nodup_keys _ _) (List.nodup_dedup _)).mpr fun w => ?_
  rw [mem_keys, emitted_eq, List.mem_dedup]
  simp

/-- A decimal numeral has no newline. -/
theorem newline_notMem_toString (k : ℕ) : newline ∉ bytes (toString k) := by
  intro hmem
  obtain ⟨c, hc, hnewline⟩ := List.mem_map.mp hmem
  have hdigit := isDigit_of_mem_toString hc
  simp only [Char.isDigit, ge_iff_le, Bool.and_eq_true, decide_eq_true_iff, UInt32.le_iff_toNat_le]
    at hdigit
  have hval := congrArg Fin.val hnewline
  simp only [Fin.val_ofNat, newline] at hval
  have h48 : 48 ≤ c.toNat := hdigit.1
  have h57 : c.toNat ≤ 57 := hdigit.2
  rw [Nat.mod_eq_of_lt (by omega)] at hval
  have : c.toNat = 10 := hval
  omega

/-- The line for a word is one line. -/
theorem linesOf_countLine (hletter : isLetter 10 = false) {files : List GoString} {w : GoString}
    (hw : w ∈ words isLetter env files) :
    linesOf (countLine (words isLetter env files) w ++ [newline]) =
      [countLine (words isLetter env files) w] := by
  have hword : newline ∉ w := by
    obtain ⟨filename, -, hw⟩ := List.mem_flatMap.mp hw
    cases hread : env.readFile filename with
    | none => simp [hread] at hw
    | some contents =>
      rw [hread, Option.map_some, Option.getD_some, wordsIn] at hw
      exact newline_notMem_fields (by simp [hletter]) hw
  have hcount := newline_notMem_toString ((words isLetter env files).count w)
  have hline : newline ∉ countLine (words isLetter env files) w := by
    simp only [countLine, List.mem_append, List.mem_singleton, not_or]
    exact ⟨⟨hword, by decide⟩, hcount⟩
  rw [linesOf, List.splitOn_append_cons_self, List.splitOn_eq_singleton hline]
  rfl

/-- **The output of a job is the number of occurrences of each word**: whenever the job is done and
no worker is in the middle of an output file, the lines of the output files are those of the words
that occur in the input files, one for each. -/
theorem job_counts_words {n : ℕ} (hn : 1 ≤ n) (hfiles : files.Nodup) (hletter : isLetter 10 = false)
    (hjson : (wc isLetter env).JsonOk (inputs files)) {dir : Directory}
    (hdir : Prepared (wc isLetter env) files n dir) {job : Job}
    (h : ReachWhile (Job.step (wc isLetter env)) Job.Orderly (Job.make files n dir) job)
    (hdone : job.system.coordinator.done = true)
    (hidle : ∀ ex ∈ job.running, ex.halfway = false) :
    ((outputFiles job.dir).flatMap linesOf).Perm
      ((words isLetter env (inputs files)).dedup.map
        (countLine (words isLetter env (inputs files)))) := by
  have hinv := Job.inv_of_reach hfiles hjson reduceComm_wc hdir h
  have hperm := keys_perm isLetter env (inputs files)
  refine (hinv.writesSame hn hdone hidle).lines.trans ?_
  -- the output of the sequential program, line by line
  rw [List.map_congr_left fun w _ => line_eq (inputs files) w, linesOf_flatten]
  refine (hperm.flatMap_right _).trans (List.Perm.of_eq ?_)
  rw [List.map_eq_flatMap]
  exact List.flatMap_congr fun w hw => linesOf_countLine hletter (List.mem_dedup.mp hw)

/-- Two files of text. -/
def twoTexts : Env :=
  { letterCount with
    readFile := fun filename =>
      if filename = bytes "a" then some (bytes "to be, or")
      else if filename = bytes "b" then some (bytes "not to be")
      else none }

/-- The small letters. -/
def isSmall (r : ℕ) : Bool := decide (97 ≤ r ∧ r ≤ 122)

/-- One worker does all tasks. -/
def singleRun : List Action :=
  [.coordinator (.getTask 0 ⟨some "a", none⟩), .work 0 0, .work 0 0, .report 0,
    .coordinator (.getTask 0 ⟨some "b", none⟩), .work 0 0, .work 0 0, .report 0,
    .coordinator (.getTask 0 ⟨none, some "0"⟩), .work 0 0, .work 0 0, .work 0 0, .work 0 0,
    .work 0 0, .work 0 0, .work 0 0, .work 0 0, .work 0 0, .report 0]

theorem job_counts_words_twoTexts : ∃ job,
    run (restrict (Job.step (wc isSmall twoTexts)) Job.Orderly) (Job.make ["a", "b"] 1 ∅)
      singleRun = some job ∧ job.system.coordinator.done = true ∧
    ((outputFiles job.dir).flatMap linesOf).Perm
      [bytes "or 1", bytes "not 1", bytes "to 2", bytes "be 2"] := by
  have hobs : (run (restrict (Job.step (wc isSmall twoTexts)) Job.Orderly)
      (Job.make ["a", "b"] 1 ∅) singleRun).map (fun job => (job.system.coordinator.done,
        job.running.all fun ex => !ex.halfway)) = some (true, true) := by decide +kernel
  obtain ⟨job, hrun, hval⟩ := Option.map_eq_some_iff.mp hobs
  simp only [Prod.mk.injEq, List.all_eq_true, Bool.not_eq_true'] at hval
  have hjson : (wc isSmall twoTexts).JsonOk (inputs ["a", "b"]) := by
    show ∀ kv ∈ (wc isSmall twoTexts).emitted _, letterCount.unmarshal (marshal kv) = some kv
    decide +kernel
  have hlines := job_counts_words (by decide) (by decide) (by decide) hjson
    (fun name content hname => by cases hname) (reachWhile_of_run _ _ _ hrun) hval.1 hval.2
  have hwords : ((words isSmall twoTexts (inputs ["a", "b"])).dedup.map
      (countLine (words isSmall twoTexts (inputs ["a", "b"])))) =
      [bytes "or 1", bytes "not 1", bytes "to 2", bytes "be 2"] := by decide +kernel
  exact ⟨job, hrun, hval.1, hwords ▸ hlines⟩

end ExchangeLabs.MapReduce.WordCount
