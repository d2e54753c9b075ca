import Mathlib.Algebra.GroupWithZero.Nat
import Mathlib.Data.List.Sort
import Mathlib.Data.String.Basic
import Mathlib.Order.Fin.Basic
import ExchangeLabs.Lib.Grouping
import ExchangeLabs.Lib.Table

/-!
# Workers on one machine, and the sequential program

What a worker of the single-machine version does for a task, and what the sequential
program does instead of all the tasks.  A map task writes what it emits as lines of
JSON to one file for each partition, named `mr-<task>-<partition>`; a reduce task
reads the files of its partition that it finds in the working directory.

The input files are outside the working directory, which is flat.  Temporary files
are only seen when they are renamed, which succeeds.  An exit by `log.Fatal` is `none`.

## Main definitions

* `ihash`, `trimSpace`, `isIntermediate` — hashing, trimming, and the file pattern.
* `Env` — the files and functions that a worker is given.
* `executeMapTask`, `executeReduceTask` — the tasks.
* `mrsequential` — the sequential program.
-/

namespace ExchangeLabs.MapReduce.Worker

/-! ### Strings -/

abbrev Byte := Fin 256

instance neZeroByte : NeZero 256 := ⟨by decide⟩

/-- A string of Go: bytes, which are also what two strings are compared by. -/
abbrev GoString := List Byte

def newline : Byte := 10

def blank : Byte := 32

/-- The white space of Unicode, in UTF-8. -/
def whiteSpace : List GoString :=
  [[9], [10], [11], [12], [13], [32], [0xC2, 0x85], [0xC2, 0xA0], [0xE1, 0x9A, 0x80],
    [0xE2, 0x80, 0x80], [0xE2, 0x80, 0x81], [0xE2, 0x80, 0x82], [0xE2, 0x80, 0x83],
    [0xE2, 0x80, 0x84], [0xE2, 0x80, 0x85], [0xE2, 0x80, 0x86], [0xE2, 0x80, 0x87],
    [0xE2, 0x80, 0x88], [0xE2, 0x80, 0x89], [0xE2, 0x80, 0x8A], [0xE2, 0x80, 0xA8],
    [0xE2, 0x80, 0xA9], [0xE2, 0x80, 0xAF], [0xE2, 0x81, 0x9F], [0xE3, 0x80, 0x80]]

/-- Drop white space from the front, at most `n` times. -/
def dropSpace (spaces : List GoString) : ℕ → GoString → GoString
  | 0, s => s
  | n + 1, s =>
    match spaces.find? (·.isPrefixOf s) with
    | some rune => dropSpace spaces n (s.drop rune.length)
    | none => s

/-- `strings.TrimSpace`. -/
def trimSpace (s : GoString) : GoString :=
  (dropSpace (whiteSpace.map List.reverse) s.length
    (dropSpace whiteSpace s.length s).reverse).reverse

/-- `ihash`: 32-bit FNV-1a without the sign bit. -/
def ihash (key : GoString) : ℕ :=
  let sum32 := key.foldl (fun h b => (h ^^^ UInt32.ofNat b) * 16777619) (2166136261 : UInt32)
  (sum32 &&& 0x7fffffff).toNat

example : ihash [97] = 0x640c292c := by decide +kernel

/-! ### Names of files -/

def intermediateName (mapNumber rNum : ℕ) : String :=
  "mr-" ++ toString mapNumber ++ "-" ++ toString rNum

def outputName (partitionNumber : ℕ) : String := "mr-out-" ++ toString partitionNumber

/-- The expression `mr-\d+-R$` matches from here to the end. -/
def matchHere (reduceNumber : ℕ) : List Char → Bool
  | 'm' :: 'r' :: '-' :: rest =>
    let digits := rest.takeWhile Char.isDigit
    !digits.isEmpty && rest.drop digits.length == '-' :: (toString reduceNumber).toList
  | _ => false

/-- `reg.Match` of `WalkDir`: the expression matches from some place on. -/
def isIntermediate (reduceNumber : ℕ) (name : String) : Bool :=
  name.toList.tails.any (matchHere reduceNumber)

/-- The files in the working directory. -/
abbrev Directory := Table String GoString

/-- `WalkDir`: the matching files, in lexical order. -/
def walkDir (dir : Directory) (reduceNumber : ℕ) : List String :=
  (dir.keys.insertionSort (· ≤ ·)).filter (isIntermediate reduceNumber)

/-! ### JSON -/

structure KeyValue where
  key : GoString
  value : GoString
  deriving DecidableEq

def continuation (b : Byte) : Bool := decide (0x80 ≤ b ∧ b ≤ 0xBF)

/-- What may follow the first byte of a rune of three or four bytes. -/
def secondByte (b₀ b₁ : Byte) : Bool :=
  if b₀ = 0xE0 then decide (0xA0 ≤ b₁ ∧ b₁ ≤ 0xBF)
  else if b₀ = 0xED then decide (0x80 ≤ b₁ ∧ b₁ ≤ 0x9F)
  else if b₀ = 0xF0 then decide (0x90 ≤ b₁ ∧ b₁ ≤ 0xBF)
  else if b₀ = 0xF4 then decide (0x80 ≤ b₁ ∧ b₁ ≤ 0x8F)
  else continuation b₁

/-- How many bytes of `s` belong to a rune in UTF-8 that starts with `b`; none if there
is no such rune. -/
def moreBytes (b : Byte) (s : GoString) : ℕ :=
  if 0xC2 ≤ b ∧ b ≤ 0xDF then
    if s[0]?.any continuation then 1 else 0
  else if 0xE0 ≤ b ∧ b ≤ 0xEF then
    if s[0]?.any (secondByte b) && s[1]?.any continuation then 2 else 0
  else if 0xF0 ≤ b ∧ b ≤ 0xF4 then
    if s[0]?.any (secondByte b) && s[1]?.any continuation && s[2]?.any continuation then 3 else 0
  else 0

/-- `0123456789abcdef`. -/
def hexDigit (d : ℕ) : Byte := Fin.ofNat 256 (if d < 10 then 48 + d else 87 + d)

/-- An ASCII character in a JSON string.  The characters of HTML are escaped, too. -/
def escape (b : Byte) : GoString :=
  if b = 34 ∨ b = 92 then [92, b]
  else if b = 8 then [92, 98]
  else if b = 12 then [92, 102]
  else if b = 10 then [92, 110]
  else if b = 13 then [92, 114]
  else if b = 9 then [92, 116]
  else if b < 32 ∨ b = 38 ∨ b = 60 ∨ b = 62 then
    [92, 117, 48, 48, hexDigit (b / 16), hexDigit (b % 16)]
  else [b]

/-- The inside of a JSON string; the first `copy` bytes are the rest of a rune.  A byte
that is no UTF-8 becomes `\ufffd`, and the line separators U+2028 and U+2029 are escaped. -/
def escapeString : ℕ → GoString → GoString
  | _, [] => []
  | copy + 1, b :: s => b :: escapeString copy s
  | 0, b :: s =>
    if b < 0x80 then escape b ++ escapeString 0 s
    else
      match moreBytes b s, s with
      | 0, s => [92, 117, 102, 102, 102, 100] ++ escapeString 0 s
      | 2, b₁ :: b₂ :: s =>
        if b = 0xE2 ∧ b₁ = 0x80 ∧ (b₂ = 0xA8 ∨ b₂ = 0xA9) then
          [92, 117, 50, 48, 50, hexDigit (b₂ % 16)] ++ escapeString 0 s
        else b :: b₁ :: b₂ :: escapeString 0 s
      | more, s => b :: escapeString more s

/-- `json.Marshal` of a `KeyValue`: `{"Key":"..","Value":".."}`. -/
def marshal (kv : KeyValue) : GoString :=
  [123, 34, 75, 101, 121, 34, 58, 34] ++ escapeString 0 kv.key ++
    [34, 44, 34, 86, 97, 108, 117, 101, 34, 58, 34] ++ escapeString 0 kv.value ++ [34, 125]

/-! ### Tasks -/

/-- One round of the loop of `ExecuteMapTask`: `mp` has the files that are open. -/
def writePair (numberofReduce : ℕ) (mp : Table ℕ GoString) (kv : KeyValue) : Table ℕ GoString :=
  let currentPartition := ihash kv.key % numberofReduce
  let f := (mp.lookup currentPartition).getD []
  AList.insert currentPartition (f ++ (marshal kv ++ [newline])) mp

/-- What a worker is given: the input files, the functions of the application,
`json.Unmarshal` into a `KeyValue`, and `sort.Sort(ByKey(..))`, which sorts by key but
need not be stable. -/
structure Env where
  readFile : GoString → Option GoString
  mapf : GoString → GoString → List KeyValue
  reducef : GoString → List GoString → GoString
  unmarshal : GoString → Option KeyValue
  sort : List KeyValue → List KeyValue
  sort_perm : ∀ data, (sort data).Perm data
  sort_sorted : ∀ data, (sort data).Pairwise fun a b => a.key ≤ b.key

namespace Env

variable (env : Env)

def executeMapTask (filename : GoString) (mapNumber numberofReduce : ℕ) (dir : Directory) :
    Option Directory :=
  (env.readFile filename).map fun content =>
    let initVal := env.mapf filename content
    let mp := initVal.foldl (writePair numberofReduce) ∅
    -- the order of the renames does not matter
    mp.entries.foldl (fun dir f => AList.insert (intermediateName mapNumber f.1) f.2 dir) dir

/-- The loop of `ExecuteReduceTask` over the lines of a file. -/
def readLines : List GoString → Option (List KeyValue)
  | [] => some []
  | kvstring :: rest =>
    let trimmed := trimSpace kvstring
    if trimmed.length = 0 then readLines rest
    else (env.unmarshal trimmed).bind fun kv => (readLines rest).map (kv :: ·)

/-- The loop of `ExecuteReduceTask` over the files. -/
def readFiles (dir : Directory) : List String → Option (List KeyValue)
  | [] => some []
  | filename :: rest =>
    (dir.lookup filename).bind fun content =>
      (env.readLines (content.splitOn newline)).bind fun kvs =>
        (readFiles dir rest).map (kvs ++ ·)

/-- The output line for a key. -/
def outputLine (key : GoString) (values : List GoString) : GoString :=
  key ++ [blank] ++ env.reducef key values ++ [newline]

/-- The loop over the sorted data that calls the reduce function, in `ExecuteReduceTask`
and in the sequential program: one line for each run of equal keys. -/
def reduceRuns (data : List KeyValue) : List GoString :=
  (runs KeyValue.key data).map fun (key, run) => env.outputLine key (run.map KeyValue.value)

def executeReduceTask (partitionNumber : ℕ) (dir : Directory) : Option Directory :=
  (env.readFiles dir (walkDir dir partitionNumber)).map fun data =>
    AList.insert (outputName partitionNumber) (env.reduceRuns (env.sort data)).flatten dir

/-! ### The sequential program -/

/-- The loop of `main` over the input files. -/
def readInputs : List GoString → Option (List KeyValue)
  | [] => some []
  | filename :: rest =>
    (env.readFile filename).bind fun content =>
      (readInputs rest).map (env.mapf filename content ++ ·)

/-- `main` of `mrsequential`: what it writes to its output file. -/
def mrsequential (files : List GoString) : Option GoString :=
  (env.readInputs files).map fun intermediate =>
    (env.reduceRuns (env.sort intermediate)).flatten

/-! ### Jobs -/

/-- Executions of map tasks, in any order. -/
def runMapTasks (files : List GoString) (nReduce : ℕ) : List ℕ → Directory → Option Directory
  | [], dir => some dir
  | i :: rest, dir =>
    files[i]?.bind fun filename =>
      (env.executeMapTask filename i nReduce dir).bind (runMapTasks files nReduce rest)

/-- Executions of reduce tasks, in any order. -/
def runReduceTasks : List ℕ → Directory → Option Directory
  | [], dir => some dir
  | p :: rest, dir => (env.executeReduceTask p dir).bind (runReduceTasks rest)

end Env

/-- The contents of the files `mr-out-*`. -/
def outputFiles (dir : Directory) : List GoString :=
  (dir.entries.filter fun f => "mr-out-".toList.isPrefixOf f.1.toList).map fun f => f.2

/-- The lines of a file, without their newlines. -/
def linesOf (content : GoString) : List GoString := (content.splitOn newline).dropLast

end ExchangeLabs.MapReduce.Worker
