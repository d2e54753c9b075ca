import ExchangeLabs.Lib.Text

/-!
# The command parser of the shell

`parse.c`.  A line is a list of characters without the end of the string.  The parser
copies tokens to a buffer of 256 characters, pointers to them to one of 50, and programs
to one of 20, all of which are used from the start by each call.  What does not fit is
undefined.

A redirection at the end of the line takes for its file name what an earlier call has left
in the buffer.

## Main definitions

* `Command` — a parsed command; the last program comes first.
* `nextToken`, `acmd`, `isIdentifier`, `parse` — the functions of the parser.

## Main results

* `parse_pgm` — a parsed command has programs, and each of them has a name.
-/

namespace ExchangeLabs.Shell

/-- The words of a program: its name and its arguments. -/
abbrev Pgm := List (List Char)

structure Command where
  /-- The last program of the line comes first. -/
  pgm : List Pgm
  rstdin : Option (List Char)
  rstdout : Option (List Char)
  background : Bool
  deriving DecidableEq

inductive Fault
  /-- `parse` returns -1. -/
  | illegal
  /-- A buffer of the parser is overrun. -/
  | overrun
  deriving DecidableEq

/-- How much of the buffers `cbuf` and `pbuf` has been used. -/
structure Store where
  cp : ℕ
  pp : ℕ

/-! ### Tokens -/

def isSpec (c : Char) : Bool := c == '|' || c == '&' || c == '<' || c == '>'

/-- `nexttoken`: the token and the text behind it; no token at the end of the line. -/
def nextToken (store : Store) (text : List Char) :
    Except Fault (Option (List Char × List Char) × Store) :=
  match text.dropWhile isSpace with
  | [] => .ok (none, store)
  | c :: rest =>
    let word := rest.takeWhile fun d => !isSpace d && !isSpec d
    let tok := if isSpec c then [c] else c :: word
    let rest := if isSpec c then rest else rest.drop word.length
    if store.cp + tok.length + 1 > 256 then .error .overrun
    else .ok (some (tok, rest), { store with cp := store.cp + tok.length + 1 })

/-- Whether a token is one of the special ones. -/
def isSpecToken (tok : List Char) : Bool := tok.head?.any isSpec

/-- `acmd`: the words of one program.  Each turn writes a pointer, so that there are no more
turns than there are pointers left. -/
def acmd : ℕ → Store → List Char → Except Fault (Pgm × Store × List Char)
  | 0, _, _ => .error .overrun
  | pointers + 1, store, text => do
    let (next, store) ← nextToken store text
    match next with
    | none => .ok ([], { store with pp := store.pp + 1 }, text)
    | some (tok, rest) =>
      if isSpecToken tok then .ok ([], { store with pp := store.pp + 1 }, text)
      else do
        let (words, store, text) ← acmd pointers { store with pp := store.pp + 1 } rest
        .ok (tok :: words, store, text)

/-- `IDCHARS` -/
def idChars : List Char := "_-.,/~+".toList

def isIdentifier (s : List Char) : Bool := s.all fun c => c.isAlphanum || idChars.contains c

/-! ### Commands -/

/-- What follows the words of a program. -/
inductive Next
  | done (c : Command)
  | newcmd (c : Command) (store : Store) (text : List Char)

/-- The file name of a redirection; `stale` is what is found in `cbuf` from a place on. -/
def fileName (stale : ℕ → List Char) (store : Store) (text : List Char) :
    Except Fault (List Char × Store × List Char) := do
  let (next, store) ← nextToken store text
  let (name, rest) := next.getD (stale store.cp, text)
  if isIdentifier name then .ok (name, store, rest) else .error .illegal

/-- The label `newtoken`.  There is no third turn after two redirections, since one of them
would be a duplicate. -/
def newToken (stale : ℕ → List Char) : ℕ → Command → Store → List Char → Except Fault Next
  | 0, _, _, _ => .error .illegal
  | turns + 1, c, store, text => do
    let (next, store) ← nextToken store text
    match next with
    | none => .ok (.done c)
    | some (['|'], rest) => .ok (.newcmd c store rest)
    | some (['&'], rest) => do
      let (next, _) ← nextToken store rest
      if next.isNone then .ok (.done { c with background := true }) else .error .illegal
    | some (['<'], rest) =>
      if c.rstdin.isSome then .error .illegal
      else do
        let (name, store, rest) ← fileName stale store rest
        newToken stale turns { c with rstdin := some name } store rest
    | some (['>'], rest) =>
      if c.rstdout.isSome then .error .illegal
      else do
        let (name, store, rest) ← fileName stale store rest
        newToken stale turns { c with rstdout := some name } store rest
    | some _ => .error .illegal

/-- The label `newcmd`, with the places left in `cmdbuf`. -/
def newCmd (stale : ℕ → List Char) : ℕ → Command → Store → List Char → Except Fault Command
  | 0, _, _, _ => .error .overrun
  | places + 1, c, store, text => do
    let (words, store, text) ← acmd (50 - store.pp) store text
    if words = [] then .error .illegal
    else do
      match ← newToken stale 3 { c with pgm := words :: c.pgm } store text with
      | .done c => .ok c
      | .newcmd c store text => newCmd stale places c store text

def parse (stale : ℕ → List Char) (buf : List Char) : Except Fault Command :=
  newCmd stale 20 ⟨[], none, none, false⟩ ⟨0, 0⟩ buf

/-! ### What is parsed -/

theorem exists_of_bind_eq_ok {ε α β : Type} {x : Except ε α} {f : α → Except ε β} {b : β}
    (h : (x >>= f) = .ok b) : ∃ a, x = .ok a ∧ f a = .ok b := by
  cases x with
  | error e => cases h
  | ok a => exact ⟨a, rfl, h⟩

/-- The command that the parser goes on with, or ends with. -/
def Next.command : Next → Command
  | .done c => c
  | .newcmd c _ _ => c

/-- Redirections and the sign for the background leave the programs alone. -/
theorem newToken_pgm {stale : ℕ → List Char} (turns : ℕ) {c : Command} {store : Store}
    {text : List Char} {next : Next} (h : newToken stale turns c store text = .ok next) :
    next.command.pgm = c.pgm := by
  induction turns generalizing c store text with
  | zero => cases h
  | succ turns ih =>
    rw [newToken] at h
    obtain ⟨⟨token, store'⟩, -, h⟩ := exists_of_bind_eq_ok h
    dsimp only at h
    split at h
    · cases h
      rfl
    · cases h
      rfl
    · obtain ⟨⟨behind, store''⟩, -, h⟩ := exists_of_bind_eq_ok h
      dsimp only at h
      split at h
      · cases h
        rfl
      · cases h
    · split at h
      · cases h
      · obtain ⟨⟨name, store'', rest⟩, -, h⟩ := exists_of_bind_eq_ok h
        have hpgm := ih h
        exact hpgm
    · split at h
      · cases h
      · obtain ⟨⟨name, store'', rest⟩, -, h⟩ := exists_of_bind_eq_ok h
        have hpgm := ih h
        exact hpgm
    · cases h

theorem newCmd_pgm {stale : ℕ → List Char} (places : ℕ) {c cmd : Command} {store : Store}
    {text : List Char} (hc : ∀ words ∈ c.pgm, words ≠ [])
    (h : newCmd stale places c store text = .ok cmd) :
    cmd.pgm ≠ [] ∧ ∀ words ∈ cmd.pgm, words ≠ [] := by
  induction places generalizing c store text with
  | zero => cases h
  | succ places ih =>
    rw [newCmd] at h
    obtain ⟨⟨words, store', text'⟩, -, h⟩ := exists_of_bind_eq_ok h
    dsimp only at h
    split at h
    · cases h
    · next hwords =>
      obtain ⟨next, hnext, h⟩ := exists_of_bind_eq_ok h
      have hpgm := newToken_pgm 3 hnext
      have hall : ∀ words' ∈ next.command.pgm, words' ≠ [] := by
        rw [hpgm]
        exact List.forall_mem_cons.mpr ⟨hwords, hc⟩
      cases next with
      | done c =>
        cases h
        refine ⟨?_, hall⟩
        rw [show cmd.pgm = _ from hpgm]
        exact List.cons_ne_nil _ _
      | newcmd c store text => exact ih hall h

/-- **A parsed command has programs**, each of which has a name. -/
theorem parse_pgm {stale : ℕ → List Char} {buf : List Char} {cmd : Command}
    (h : parse stale buf = .ok cmd) : cmd.pgm ≠ [] ∧ ∀ words ∈ cmd.pgm, words ≠ [] :=
  newCmd_pgm 20 (by simp) h

example : parse (fun _ => []) "ls -l | wc > out &".toList =
    .ok ⟨[["wc".toList], ["ls".toList, "-l".toList]], none, some "out".toList, true⟩ := by
  decide

end ExchangeLabs.Shell
