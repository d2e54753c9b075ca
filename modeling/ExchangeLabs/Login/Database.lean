import Mathlib.Data.List.Nodup
import ExchangeLabs.Lib.Text

/-!
# The password database

The file of `pwent.c`: one line for each user, with the fields separated by colons.
`getDatabaseEntry` reads the lines one by one with `sscanf`, and gives up at the first one
that it cannot read; `updateDatabaseEntry` copies the file and puts another line in the
place of the user's.

## Main definitions

* `DatabaseEntry`, `DatabaseEntry.print`, `DatabaseEntry.scan`.
* `getDatabaseEntry`, `updateDatabaseEntry`.
* `DatabaseEntry.Ok` — the entry can be written and read back.

## Main results

* `getDatabaseEntry_printAll`, `updateDatabaseEntry_printAll` — **what they do on a file of
  such entries.**
-/

namespace ExchangeLabs.Login

/-- `databaseEntry`. -/
structure DatabaseEntry where
  name : List Char
  uid : ℤ
  password : List Char
  passwordSalt : List Char
  attemptsFailed : ℤ
  passwordAge : ℤ
  deriving DecidableEq

/-- `DATABASE_STRING_LENGTH`. -/
def databaseStringLength : ℕ := 1000

/-- `DATABASE_ENTRY_LENGTH`. -/
def databaseEntryLength : ℕ := databaseStringLength * 3 + 4 * 3

namespace DatabaseEntry

/-- `DATABASE_ENTRY_SET_FORMAT`, without the end of the line. -/
def line (e : DatabaseEntry) : List Char :=
  e.name ++ ':' :: (printInt e.uid ++ ':' :: (e.password ++ ':' :: (e.passwordSalt ++ ':' ::
    (printInt e.attemptsFailed ++ ':' :: printInt e.passwordAge))))

/-- `DATABASE_ENTRY_SET_FORMAT`. -/
def print (e : DatabaseEntry) : List Char := e.line ++ ['\n']

/-- `sscanf` with `DATABASE_ENTRY_SCAN_FORMAT`, if it reads all six fields. -/
def scan (text : List Char) : Option DatabaseEntry := do
  let (name, text) ← scanUntil ':' text
  let text ← scanChar ':' text
  let (uid, text) ← scanInt text
  let text ← scanChar ':' text
  let (password, text) ← scanUntil ':' text
  let text ← scanChar ':' text
  let (passwordSalt, text) ← scanUntil ':' text
  let text ← scanChar ':' text
  let (attemptsFailed, text) ← scanInt text
  let text ← scanChar ':' text
  let (passwordAge, _) ← scanInt text
  return {
    name := name
    uid := uid
    password := password
    passwordSalt := passwordSalt
    attemptsFailed := attemptsFailed
    passwordAge := passwordAge }

end DatabaseEntry

/-- The loop of `getDatabaseEntry`. -/
def findEntry (name : List Char) : List (List Char) → Option DatabaseEntry
  | [] => none
  | text :: texts =>
    match DatabaseEntry.scan text with
    | none => none
    | some e => if e.name = name then some e else findEntry name texts

/-- `getDatabaseEntry`; it has no result for `NULL`. -/
def getDatabaseEntry (file : List Char) (name : List Char) : Option DatabaseEntry :=
  findEntry name (lines databaseStringLength file [])

/-- The loop of `updateDatabaseEntry`: whether the entry was found, and the new file. -/
def replaceEntry (name : List Char) (newDatabaseEntry : DatabaseEntry) :
    List (List Char) → Option (Bool × List Char)
  | [] => some (false, [])
  | text :: texts =>
    match scanUntil ':' text with
    | none => none
    | some (nameBuffer, _) =>
      if nameBuffer = name then
        if databaseEntryLength ≤ newDatabaseEntry.print.length then none
        else (replaceEntry name newDatabaseEntry texts).map fun r =>
          (true, newDatabaseEntry.print ++ r.2)
      else (replaceEntry name newDatabaseEntry texts).map fun r => (r.1, text ++ r.2)

/-- `updateDatabaseEntry`: the new file, or no result for `-1`. -/
def updateDatabaseEntry (file : List Char) (name : List Char) (newDatabaseEntry : DatabaseEntry) :
    Option (List Char) :=
  match replaceEntry name newDatabaseEntry (lines databaseEntryLength file []) with
  | some (true, newFile) => some newFile
  | _ => none

/-! ### Entries that can be read back -/

/-- A field is not empty, and has no separator and no end of line in it. -/
structure Field (text : List Char) : Prop where
  ne_nil : text ≠ []
  colon : ':' ∉ text
  newline : '\n' ∉ text

/-- The strings are fields, and the line fits the buffer of `getDatabaseEntry`. -/
structure DatabaseEntry.Ok (e : DatabaseEntry) : Prop where
  name : Field e.name
  password : Field e.password
  passwordSalt : Field e.passwordSalt
  length : e.print.length < databaseStringLength

instance (text : List Char) : Decidable (Field text) :=
  decidable_of_iff (text ≠ [] ∧ ':' ∉ text ∧ '\n' ∉ text)
    ⟨fun h => ⟨h.1, h.2.1, h.2.2⟩, fun h => ⟨h.ne_nil, h.colon, h.newline⟩⟩

instance (e : DatabaseEntry) : Decidable e.Ok :=
  decidable_of_iff (Field e.name ∧ Field e.password ∧ Field e.passwordSalt ∧
      e.print.length < databaseStringLength)
    ⟨fun h => ⟨h.1, h.2.1, h.2.2.1, h.2.2.2⟩,
      fun h => ⟨h.name, h.password, h.passwordSalt, h.length⟩⟩

/-- A file with these entries. -/
def printAll (entries : List DatabaseEntry) : List Char :=
  (entries.map DatabaseEntry.print).flatten

theorem newline_not_mem_printInt (i : ℤ) : '\n' ∉ printInt i := by
  have hdigits : ∀ n : ℕ, '\n' ∉ Nat.toDigits 10 n := fun n hn =>
    absurd (Nat.isDigit_of_mem_toDigits (by omega) (by omega) hn) (by decide)
  cases i with
  | ofNat n => exact hdigits n
  | negSucc n => exact fun h => hdigits (n + 1) (List.mem_of_ne_of_mem (by decide) h)

namespace DatabaseEntry

variable {e : DatabaseEntry}

theorem Ok.newline_not_mem_line (h : e.Ok) : '\n' ∉ e.line := by
  simp [line, h.name.newline, h.password.newline, h.passwordSalt.newline,
    newline_not_mem_printInt]

/-- **The entry is read back.** -/
theorem Ok.scan_print (h : e.Ok) : scan e.print = some e := by
  have hcolon : (':' : Char).isDigit = false := by decide
  have hnewline : ('\n' : Char).isDigit = false := by decide
  simp [scan, print, line, scanUntil_append, scanInt_printInt_cons, hcolon, hnewline,
    h.name.ne_nil, h.name.colon, h.password.ne_nil, h.password.colon, h.passwordSalt.ne_nil,
    h.passwordSalt.colon]

/-- What `updateDatabaseEntry` takes for the name of the entry. -/
theorem Ok.scanUntil_print (h : e.Ok) :
    ∃ text, scanUntil ':' e.print = some (e.name, text) := by
  have hfirst : (scanUntil ':' e.print).map Prod.fst = some e.name := by
    rw [print, line, List.append_assoc, List.cons_append,
      scanUntil_append h.name.ne_nil h.name.colon]
    rfl
  obtain ⟨⟨name, text⟩, hscan, rfl⟩ := Option.map_eq_some_iff.mp hfirst
  exact ⟨text, hscan⟩

end DatabaseEntry

/-! ### Files of such entries -/

variable {entries : List DatabaseEntry}

theorem lines_printAll (h : ∀ e ∈ entries, e.Ok) {size : ℕ} (hsize : databaseStringLength ≤ size) :
    lines size (printAll entries) [] = entries.map DatabaseEntry.print := by
  refine lines_flatten (List.forall_mem_map.mpr fun e he => ?_)
  exact ⟨e.line, rfl, (h e he).newline_not_mem_line, Nat.lt_of_lt_of_le (h e he).length hsize⟩

/-- **`getDatabaseEntry` finds the first entry of the name.** -/
theorem getDatabaseEntry_printAll (h : ∀ e ∈ entries, e.Ok) (name : List Char) :
    getDatabaseEntry (printAll entries) name = entries.find? fun e => decide (e.name = name) := by
  rw [getDatabaseEntry, lines_printAll h (Nat.le_refl _)]
  induction entries with
  | nil => rfl
  | cons e entries ih =>
    obtain ⟨he, hentries⟩ := List.forall_mem_cons.mp h
    rw [List.map_cons, findEntry, he.scan_print, List.find?_cons]
    dsimp only
    -- the loop ends at the first entry of the name
    by_cases hname : e.name = name
    · rw [if_pos hname, decide_eq_true hname]
    · rw [if_neg hname, decide_eq_false hname]
      exact ih hentries

/-- The entries after one was replaced. -/
def replaceIn (entries : List DatabaseEntry) (name : List Char) (e' : DatabaseEntry) :
    List DatabaseEntry :=
  entries.map fun e => if e.name = name then e' else e

/-- **`updateDatabaseEntry` replaces the entry of the name.** -/
theorem updateDatabaseEntry_printAll (h : ∀ e ∈ entries, e.Ok) {name : List Char}
    (hname : ∃ e ∈ entries, e.name = name) {e' : DatabaseEntry}
    (hlength : e'.print.length < databaseEntryLength) :
    updateDatabaseEntry (printAll entries) name e' =
      some (printAll (replaceIn entries name e')) := by
  have hreplace : replaceEntry name e' (entries.map DatabaseEntry.print) =
      some (decide (∃ e ∈ entries, e.name = name), printAll (replaceIn entries name e')) := by
    clear hname
    induction entries with
    | nil => simp [replaceEntry, printAll, replaceIn]
    | cons e entries ih =>
      obtain ⟨he, hentries⟩ := List.forall_mem_cons.mp h
      obtain ⟨text, htext⟩ := he.scanUntil_print
      rw [List.map_cons, replaceEntry, htext]
      dsimp only
      rw [ih hentries]
      -- the line of the entry is replaced, and any other one is copied
      by_cases hname : e.name = name
      · rw [if_pos hname, if_neg (Nat.not_le.mpr hlength)]
        simp [printAll, replaceIn, hname]
      · rw [if_neg hname]
        simp [printAll, replaceIn, hname]
  rw [updateDatabaseEntry, lines_printAll h (by decide), hreplace, decide_eq_true hname]

end ExchangeLabs.Login
