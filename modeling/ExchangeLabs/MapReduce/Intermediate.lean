import ExchangeLabs.MapReduce.Task
import ExchangeLabs.MapReduce.Worker

/-!
# Intermediate files

What the map tasks leave in the working directory, and what a reduce task reads
there: the pattern of `WalkDir` finds exactly the files of the partition, and the
lines that were written are read back.

## Main definitions

* `bucket n j kvs` — the pairs for partition `j` of `n`.
* `Env.RoundTrips` — what is asked of the JSON of a pair.
* `Env.encode` — the lines of a file.

## Main results

* `isIntermediate_intermediateName`, `isIntermediate_outputName` — the pattern.
* `Env.readLines_encode` — **what was written is read back.**
* `Env.lookup_executeMapTask` — the files that a map task leaves.
-/

namespace ExchangeLabs.MapReduce.Worker

/-! ### Names -/

theorem toList_toString (n : ℕ) : (toString n).toList = Nat.toDigits 10 n := by
  rw [Nat.toString_eq_repr, Nat.toList_repr]

theorem isDigit_of_mem_toString {n : ℕ} {c : Char} (h : c ∈ (toString n).toList) :
    c.isDigit = true := by
  rw [toList_toString] at h
  exact Nat.isDigit_of_mem_toDigits (by decide) (by decide) h

theorem toList_toString_ne_nil (n : ℕ) : (toString n).toList ≠ [] := by
  rw [toList_toString]
  exact Nat.toDigits_ne_nil

theorem toList_intermediateName (i j : ℕ) :
    (intermediateName i j).toList =
      'm' :: 'r' :: '-' :: ((toString i).toList ++ '-' :: (toString j).toList) := by
  simp [intermediateName, String.toList_append]

theorem toList_outputName (p : ℕ) :
    (outputName p).toList =
      'm' :: 'r' :: '-' :: 'o' :: 'u' :: 't' :: '-' :: (toString p).toList := by
  simp [outputName, String.toList_append]

/-- The digits of the first number end at the hyphen. -/
theorem takeWhile_isDigit_toString (n : ℕ) (rest : List Char) :
    ((toString n).toList ++ '-' :: rest).takeWhile Char.isDigit = (toString n).toList := by
  rw [List.takeWhile_append_of_pos fun c hc => isDigit_of_mem_toString hc]
  simp

/-- Where there is no other `m`, the expression can only match at the start. -/
theorem any_tails_matchHere (R : ℕ) {l : List Char} (h : 'm' ∉ l) :
    ('m' :: l).tails.any (matchHere R) = matchHere R ('m' :: l) := by
  have hnone : l.tails.any (matchHere R) = false := by
    rw [List.any_eq_false]
    intro t ht hmatch
    have hsuffix := (List.mem_tails t l).mp ht
    unfold matchHere at hmatch
    split at hmatch
    · exact h (hsuffix.subset List.mem_cons_self)
    · cases hmatch
  rw [List.tails_cons, List.any_cons, hnone, Bool.or_false]

theorem not_mem_toDigits {c : Char} (hc : c.isDigit = false) (n : ℕ) : c ∉ Nat.toDigits 10 n := by
  intro h
  rw [Nat.isDigit_of_mem_toDigits (by decide) (by decide) h] at hc
  cases hc

/-- **The pattern finds the intermediate files of its partition**, whatever digits the
numbers end with. -/
theorem isIntermediate_intermediateName (R i j : ℕ) :
    isIntermediate R (intermediateName i j) = decide (j = R) := by
  have hm : 'm' ∉ 'r' :: '-' :: ((toString i).toList ++ '-' :: (toString j).toList) := by
    simp [not_mem_toDigits (c := 'm') rfl]
  rw [isIntermediate, toList_intermediateName, any_tails_matchHere R hm, matchHere,
    takeWhile_isDigit_toString, List.drop_left]
  rw [Bool.eq_iff_iff]
  simp only [Bool.and_eq_true, beq_iff_eq, List.cons.injEq, true_and, decide_eq_true_iff,
    Bool.not_eq_true', List.isEmpty_eq_false_iff]
  constructor
  · intro h
    exact toString_injective (String.toList_inj.mp h.2)
  · rintro rfl
    exact ⟨toList_toString_ne_nil i, rfl⟩

/-- The pattern does not find output files. -/
theorem isIntermediate_outputName (R p : ℕ) : isIntermediate R (outputName p) = false := by
  have hm : 'm' ∉ 'r' :: '-' :: 'o' :: 'u' :: 't' :: '-' :: (toString p).toList := by
    simp [not_mem_toDigits (c := 'm') rfl]
  rw [isIntermediate, toList_outputName, any_tails_matchHere R hm, matchHere]
  simp

theorem intermediateName_inj {i j i' j' : ℕ} (h : intermediateName i j = intermediateName i' j') :
    i = i' ∧ j = j' := by
  have hlist := congrArg String.toList h
  rw [toList_intermediateName, toList_intermediateName] at hlist
  simp only [List.cons.injEq, true_and] at hlist
  have hi := congrArg (List.takeWhile Char.isDigit) hlist
  rw [takeWhile_isDigit_toString, takeWhile_isDigit_toString] at hi
  rw [hi, List.append_cancel_left_eq, List.cons.injEq] at hlist
  exact ⟨toString_injective (String.toList_inj.mp hi),
    toString_injective (String.toList_inj.mp hlist.2)⟩

theorem outputName_injective : Function.Injective outputName := by
  intro p q h
  have hlist := congrArg String.toList h
  rw [toList_outputName, toList_outputName] at hlist
  simp only [List.cons.injEq, true_and] at hlist
  exact toString_injective (String.toList_inj.mp hlist)

theorem intermediateName_ne_outputName (i j p : ℕ) : intermediateName i j ≠ outputName p := by
  intro h
  have := isIntermediate_intermediateName j i j
  rw [h, isIntermediate_outputName] at this
  simp at this

/-- An intermediate file is not taken for an output file. -/
theorem isPrefixOf_intermediateName (i j : ℕ) :
    "mr-out-".toList.isPrefixOf (intermediateName i j).toList = false := by
  rw [toList_intermediateName]
  obtain ⟨c, l, hcl⟩ := List.exists_cons_of_ne_nil (toList_toString_ne_nil i)
  have hc : c ≠ 'o' := by
    rintro rfl
    rw [toList_toString] at hcl
    exact not_mem_toDigits (c := 'o') rfl i (hcl ▸ List.mem_cons_self)
  rw [hcl]
  simp [List.isPrefixOf, Ne.symm hc]

theorem isPrefixOf_outputName (p : ℕ) :
    "mr-out-".toList.isPrefixOf (outputName p).toList = true := by
  rw [toList_outputName]
  simp [List.isPrefixOf]

/-! ### JSON -/

/-- An ASCII character does not yield a newline. -/
theorem newline_notMem_escape {b : Byte} (hb : b < 0x80) : newline ∉ escape b := by
  revert b
  decide +kernel

theorem newline_ne_of_le {b : Byte} (hb : 0x80 ≤ b) : newline ≠ b := by
  rintro rfl
  exact absurd hb (by decide)

theorem le_of_continuation {b : Byte} (h : continuation b = true) : 0x80 ≤ b :=
  (of_decide_eq_true h).1

theorem le_of_secondByte {b₀ b₁ : Byte} (h : secondByte b₀ b₁ = true) : 0x80 ≤ b₁ := by
  unfold secondByte at h
  split at h
  · exact le_trans (by decide) (of_decide_eq_true h).1
  split at h
  · exact (of_decide_eq_true h).1
  split at h
  · exact le_trans (by decide) (of_decide_eq_true h).1
  split at h
  · exact (of_decide_eq_true h).1
  · exact le_of_continuation h

/-- The bytes of a rune after the first are not ASCII. -/
theorem le_of_mem_take_moreBytes {b c : Byte} {s : GoString} (h : c ∈ s.take (moreBytes b s)) :
    0x80 ≤ c := by
  obtain ⟨i, hi, hget⟩ : ∃ i < moreBytes b s, s[i]? = some c := by
    obtain ⟨i, hi, rfl⟩ := List.mem_take_iff_getElem.mp h
    exact ⟨i, by omega, List.getElem?_eq_getElem _⟩
  -- by the number of bytes that the first one announces
  unfold moreBytes at hi
  split at hi
  · split at hi
    · next h₀ =>
      obtain rfl : i = 0 := by omega
      rw [hget] at h₀
      exact le_of_continuation h₀
    · omega
  split at hi
  · split at hi
    · next hall =>
      obtain ⟨h₀, h₁⟩ := Bool.and_eq_true_iff.mp hall
      obtain rfl | rfl : i = 0 ∨ i = 1 := by omega
      · rw [hget] at h₀
        exact le_of_secondByte h₀
      · rw [hget] at h₁
        exact le_of_continuation h₁
    · omega
  split at hi
  · split at hi
    · next hall =>
      obtain ⟨hall, h₂⟩ := Bool.and_eq_true_iff.mp hall
      obtain ⟨h₀, h₁⟩ := Bool.and_eq_true_iff.mp hall
      obtain rfl | rfl | rfl : i = 0 ∨ i = 1 ∨ i = 2 := by omega
      · rw [hget] at h₀
        exact le_of_secondByte h₀
      · rw [hget] at h₁
        exact le_of_continuation h₁
      · rw [hget] at h₂
        exact le_of_continuation h₂
    · omega
  · omega

/-- There is no newline in a JSON string. -/
theorem newline_notMem_escapeString (copy : ℕ) (s : GoString) (h : ∀ c ∈ s.take copy, 0x80 ≤ c) :
    newline ∉ escapeString copy s := by
  fun_induction escapeString copy s with
  | case1 copy => simp
  | case2 copy b s ih =>
    have hb := newline_ne_of_le (h b (by simp))
    have hs := ih fun c hc => h c (by simp [hc])
    simp [hb, hs]
  | case3 b s hb ih =>
    have hs := ih (by simp)
    simp [newline_notMem_escape hb, hs]
  | case4 b hb s hmore ih =>
    have hs := ih (by simp)
    rw [hmore]
    exact fun hmem => (List.mem_append.mp hmem).elim (by decide) hs
  | case5 b hb b₁ b₂ s hsep hmore ih =>
    have hs := ih (by simp)
    rw [hmore]
    change newline ∉ ite _ _ _
    rw [if_pos hsep]
    obtain ⟨-, -, rfl | rfl⟩ := hsep
    all_goals exact fun hmem => (List.mem_append.mp hmem).elim (by decide) hs
  -- three bytes that are not a line separator are copied
  | case6 b hb b₁ b₂ s hsep hmore ih =>
    have hs := ih (by simp)
    have hrest : ∀ c ∈ [b₁, b₂], newline ≠ c := fun c hc =>
      newline_ne_of_le <| le_of_mem_take_moreBytes (b := b) (s := b₁ :: b₂ :: s) <| by
        rw [hmore]
        exact hc
    rw [hmore]
    change newline ∉ ite _ _ _
    rw [if_neg hsep]
    simp [newline_ne_of_le (not_lt.mp hb), hrest b₁, hrest b₂, hs]
  | case7 b hb s hzero htwo ih =>
    have hs := ih fun c hc => le_of_mem_take_moreBytes hc
    split
    · next hmore => exact absurd hmore hzero
    · next hmore => exact absurd rfl (htwo _ _ _ hmore)
    · simp [newline_ne_of_le (not_lt.mp hb), hs]

theorem newline_notMem_marshal (kv : KeyValue) : newline ∉ marshal kv := by
  have hkey := newline_notMem_escapeString 0 kv.key (by simp)
  have hvalue := newline_notMem_escapeString 0 kv.value (by simp)
  simp only [marshal, List.mem_append, not_or]
  exact ⟨⟨⟨⟨by decide, hkey⟩, by decide⟩, hvalue⟩, by decide⟩

/-! ### Lines -/

namespace Env

variable {env : Env} {n j : ℕ}

/-- The JSON of the pair can be read back. -/
def RoundTrips (env : Env) (kv : KeyValue) : Prop := env.unmarshal (marshal kv) = some kv

/-- The lines of the pairs. -/
def encode (kvs : List KeyValue) : GoString := kvs.flatMap fun kv => marshal kv ++ [newline]

/-- There is no white space around an object. -/
theorem trimSpace_eq_self {s : GoString} (hhead : s.head? = some 123)
    (hlast : s.getLast? = some 125) : trimSpace s = s := by
  obtain ⟨t, rfl⟩ : ∃ t, s = 123 :: t := by
    cases s with
    | nil => cases hhead
    | cons b t =>
      cases hhead
      exact ⟨t, rfl⟩
  obtain ⟨u, hu⟩ : ∃ u, (123 :: t).reverse = 125 :: u := by
    rw [← List.head?_reverse] at hlast
    cases hr : (123 :: t).reverse with
    | nil => rw [hr] at hlast; cases hlast
    | cons b u =>
      rw [hr] at hlast
      cases hlast
      exact ⟨u, rfl⟩
  have hfront : dropSpace whiteSpace (123 :: t).length (123 :: t) = 123 :: t := rfl
  rw [trimSpace, hfront, hu]
  have hback : dropSpace (whiteSpace.map List.reverse) (123 :: t).length (125 :: u) = 125 :: u :=
    rfl
  rw [hback, ← hu, List.reverse_reverse]

theorem trimSpace_marshal (kv : KeyValue) : trimSpace (marshal kv) = marshal kv :=
  trimSpace_eq_self rfl (by rw [marshal, List.getLast?_append]; rfl)

/-- **What was written is read back.** -/
theorem readLines_encode {kvs : List KeyValue} (h : ∀ kv ∈ kvs, env.RoundTrips kv) :
    env.readLines ((encode kvs).splitOn newline) = some kvs := by
  induction kvs with
  | nil => rfl
  | cons kv kvs ih =>
    have hsplit : (encode (kv :: kvs)).splitOn newline =
        marshal kv :: (encode kvs).splitOn newline := by
      rw [encode, List.flatMap_cons, List.append_assoc, List.singleton_append,
        List.splitOn_append_cons_self, List.splitOn_eq_singleton (newline_notMem_marshal kv)]
      rfl
    have hne : (trimSpace (marshal kv)).length ≠ 0 := by
      rw [trimSpace_marshal]
      exact Nat.succ_ne_zero _
    rw [hsplit, readLines, if_neg hne, trimSpace_marshal, h kv List.mem_cons_self,
      Option.bind_some, ih fun kv hkv => h kv (List.mem_cons_of_mem _ hkv), Option.map_some]

/-! ### The files of a map task -/

/-- The pairs for partition `j` of `n`. -/
def bucket (n j : ℕ) (kvs : List KeyValue) : List KeyValue :=
  kvs.filter fun kv => ihash kv.key % n = j

/-- The file for a partition has the lines of its bucket, and there is none if the
bucket is empty. -/
theorem lookup_foldl_writePair (kvs : List KeyValue) (mp : Table ℕ GoString) :
    (kvs.foldl (writePair n) mp).lookup j =
      if bucket n j kvs = [] then mp.lookup j
      else some ((mp.lookup j).getD [] ++ encode (bucket n j kvs)) := by
  induction kvs generalizing mp with
  | nil => rfl
  | cons kv kvs ih =>
    rw [List.foldl_cons, ih, writePair]
    by_cases hkv : ihash kv.key % n = j
    · have hbucket : bucket n j (kv :: kvs) = kv :: bucket n j kvs := by simp [bucket, hkv]
      rw [hbucket, if_neg (List.cons_ne_nil _ _), hkv, AList.lookup_insert]
      split
      · next hnil => simp [hnil, encode]
      · simp [encode]
    · have hbucket : bucket n j (kv :: kvs) = bucket n j kvs := by simp [bucket, hkv]
      rw [hbucket, AList.lookup_insert_ne (Ne.symm hkv)]

/-- What the map function makes of an input file; nothing, if it cannot be read. -/
def mapOutput (env : Env) (filename : GoString) : List KeyValue :=
  match env.readFile filename with
  | some content => env.mapf filename content
  | none => []

section MapTask

variable {filename : GoString} {mapNumber : ℕ} {dir dir' : Directory}

theorem readFile_of_executeMapTask
    (h : env.executeMapTask filename mapNumber n dir = some dir') :
    ∃ content, env.readFile filename = some content := by
  obtain ⟨content, hread, -⟩ := Option.map_eq_some_iff.mp h
  exact ⟨content, hread⟩

/-- The renames of a map task, as files to be put in the directory. -/
theorem executeMapTask_eq (h : env.executeMapTask filename mapNumber n dir = some dir') :
    ∃ files : List (String × GoString), (files.map Prod.fst).Nodup ∧
      dir' = files.foldl (fun dir f => AList.insert f.1 f.2 dir) dir ∧
      ∀ name content, (name, content) ∈ files ↔ ∃ j, name = intermediateName mapNumber j ∧
        bucket n j (env.mapOutput filename) ≠ [] ∧
        content = encode (bucket n j (env.mapOutput filename)) := by
  obtain ⟨text, hread, rfl⟩ := Option.map_eq_some_iff.mp h
  have hout : env.mapf filename text = env.mapOutput filename := by rw [mapOutput, hread]
  dsimp only
  rw [hout]
  generalize hmp : (env.mapOutput filename).foldl (writePair n) ∅ = mp
  refine ⟨mp.entries.map fun f => (intermediateName mapNumber f.1, f.2), ?_, ?_, ?_⟩
  · -- one file for each partition, and their names are different
    have hnodup : (mp.entries.map Sigma.fst).Nodup := mp.nodupKeys
    rw [List.map_map]
    have hcomp : (Prod.fst ∘ fun f : (Σ _ : ℕ, GoString) => (intermediateName mapNumber f.1, f.2)) =
        intermediateName mapNumber ∘ Sigma.fst := rfl
    rw [hcomp, ← List.map_map]
    exact hnodup.map fun j j' hjj => (intermediateName_inj hjj).2
  · rw [List.foldl_map]
  · intro name content
    rw [List.mem_map]
    constructor
    · rintro ⟨⟨j, f⟩, hmem, heq⟩
      cases heq
      have hlookup := Table.mem_entries.mp hmem
      rw [← hmp, lookup_foldl_writePair] at hlookup
      split at hlookup
      · cases hlookup
      · next hne => exact ⟨j, rfl, hne, (Option.some.inj hlookup).symm⟩
    · rintro ⟨j, rfl, hne, rfl⟩
      refine ⟨⟨j, encode (bucket n j (env.mapOutput filename))⟩, Table.mem_entries.mpr ?_, rfl⟩
      rw [← hmp, lookup_foldl_writePair, if_neg hne]
      rfl

/-- **A map task leaves one file for each bucket that is not empty.** -/
theorem lookup_executeMapTask (h : env.executeMapTask filename mapNumber n dir = some dir')
    (hne : bucket n j (env.mapOutput filename) ≠ []) :
    dir'.lookup (intermediateName mapNumber j) =
      some (encode (bucket n j (env.mapOutput filename))) := by
  obtain ⟨files, hnodup, rfl, hfiles⟩ := executeMapTask_eq h
  exact Table.lookup_foldl_insert_of_mem hnodup ((hfiles _ _).mpr ⟨j, rfl, hne, rfl⟩) dir

/-- A file is new or was there before. -/
theorem lookup_executeMapTask_cases (h : env.executeMapTask filename mapNumber n dir = some dir')
    {name : String} {content : GoString} (hname : dir'.lookup name = some content) :
    (∃ j, name = intermediateName mapNumber j ∧ bucket n j (env.mapOutput filename) ≠ [] ∧
      content = encode (bucket n j (env.mapOutput filename))) ∨
    dir.lookup name = some content := by
  obtain ⟨files, hnodup, rfl, hfiles⟩ := executeMapTask_eq h
  by_cases hmem : name ∈ files.map Prod.fst
  · obtain ⟨⟨name', content'⟩, hnew, rfl⟩ := List.mem_map.mp hmem
    rw [Table.lookup_foldl_insert_of_mem hnodup hnew, Option.some.injEq] at hname
    subst hname
    exact .inl ((hfiles _ _).mp hnew)
  · rw [Table.lookup_foldl_insert_of_notMem hmem] at hname
    exact .inr hname

/-- No file is taken away. -/
theorem lookup_executeMapTask_of_ne (h : env.executeMapTask filename mapNumber n dir = some dir')
    {name : String} (hne : ∀ j, name ≠ intermediateName mapNumber j) :
    dir'.lookup name = dir.lookup name := by
  obtain ⟨files, -, rfl, hfiles⟩ := executeMapTask_eq h
  refine Table.lookup_foldl_insert_of_notMem (fun hmem => ?_) dir
  obtain ⟨⟨name', content⟩, hnew, rfl⟩ := List.mem_map.mp hmem
  obtain ⟨j, hj, -⟩ := (hfiles _ _).mp hnew
  exact hne j hj

end MapTask

end Env

end ExchangeLabs.MapReduce.Worker
