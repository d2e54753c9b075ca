import ExchangeLabs.Lib.Run
import ExchangeLabs.Login.Database

/-!
# Logging in

One turn of the loop in `login_linux.c`: a name and a password are read, and the password
is hashed with the salt of the user's entry and compared with what is stored there.
Failures are counted, the third one locks the user out, and a login at the password age
nine asks for a new password.

`crypt` is a parameter.  Beside the file the accounts are kept: for each registered name
the password that was set last and the number of failures since the last success.

## Main definitions

* `attempt crypt file a` — the outcome of an attempt, and the file after it.
* `Registered crypt s` — the file holds the accounts.
* `Faithful crypt s` — an attempt succeeds if and only if it should.
* `Sound crypt s a` — the name fits its buffer, the password is not another one with the
  same hash, and no new password is asked for.

## Main results

* `login_faithful` — **after such attempts it does.**
* `not_login_faithful` — the new password of a forced change does not log in.
-/

namespace ExchangeLabs.Login

/-- `LENGTH`, the size of the buffer for the name. -/
def nameLength : ℕ := 16

/-- What is typed in one turn; the new password only if it is asked for. -/
structure Attempt where
  user : List Char
  password : List Char
  newPassword : List Char

inductive Outcome
  /-- There is no entry for the name. -/
  | unknown
  /-- Three attempts have failed. -/
  | locked
  | incorrect
  | success
  /-- The login succeeds, and the password is changed. -/
  | changed
  /-- The entry is gone when it is read again. -/
  | crashed
  deriving DecidableEq

/-- Whether there was a login. -/
def Outcome.accepted : Outcome → Bool
  | .success | .changed => true
  | .unknown | .locked | .incorrect | .crashed => false

/-- The name as `fgets` has read it. -/
def Attempt.name (a : Attempt) : List Char := a.user.take (nameLength - 1)

variable (crypt : List Char → List Char → List Char)

/-- One turn of the loop in `main`. -/
def attempt (file : List Char) (a : Attempt) : Outcome × List Char :=
  match getDatabaseEntry file a.name with
  | none => (.unknown, file)
  | some userEntry =>
    if 3 ≤ userEntry.attemptsFailed then (.locked, file)
    else if userEntry.password = crypt a.password userEntry.passwordSalt then
      let file := (updateDatabaseEntry file a.name { userEntry with
        attemptsFailed := 0
        passwordAge := userEntry.passwordAge + 1 }).getD file
      -- the entry is read into the storage that `userEntry` points to
      match getDatabaseEntry file a.name with
      | none => (.crashed, file)
      | some userEntry =>
        if 10 ≤ userEntry.passwordAge then
          (.changed, (updateDatabaseEntry file a.name { userEntry with
            passwordAge := 0
            password := a.newPassword }).getD file)
        else (.success, file)
    else
      (.incorrect, (updateDatabaseEntry file a.name { userEntry with
        attemptsFailed := userEntry.attemptsFailed + 1 }).getD file)

/-! ### The accounts -/

structure Account where
  name : List Char
  /-- The password that was set last. -/
  password : List Char
  /-- The attempts that have failed since the last success. -/
  failures : ℕ
  deriving DecidableEq

def Account.after (account : Account) (newPassword : List Char) : Outcome → Account
  | .success => { account with failures := 0 }
  | .changed => { account with failures := 0, password := newPassword }
  | .unknown | .locked | .incorrect | .crashed =>
    { account with failures := account.failures + 1 }

structure System where
  file : List Char
  accounts : List Account

namespace System

def step (s : System) (a : Attempt) : Option System :=
  some
    { file := (attempt crypt s.file a).2
      accounts := s.accounts.map fun account =>
        if account.name = a.user then account.after a.newPassword (attempt crypt s.file a).1
        else account }

/-- The attempt should succeed: the user exists, is not locked out, and this is the password. -/
def Right (s : System) (a : Attempt) : Prop :=
  ∃ account ∈ s.accounts, account.name = a.user ∧ account.failures < 3 ∧
    a.password = account.password

/-- The buffer for the name is long enough, unless neither name is registered; no other password
has the hash of the typed one; and the login does not ask for a new password. -/
structure Sound (s : System) (a : Attempt) : Prop where
  fits : a.user.length < nameLength ∨
    ∀ account ∈ s.accounts, account.name ≠ a.user ∧ account.name ≠ a.name
  hash : ∀ e ∈ getDatabaseEntry s.file a.name, ∀ account ∈ s.accounts, account.name = a.name →
    crypt a.password e.passwordSalt = crypt account.password e.passwordSalt →
      a.password = account.password
  young : ∀ e ∈ getDatabaseEntry s.file a.name, e.attemptsFailed < 3 →
    e.password = crypt a.password e.passwordSalt → e.passwordAge + 1 < 10

instance (s : System) (a : Attempt) : Decidable (Sound crypt s a) :=
  decidable_of_iff (_ ∧ _ ∧ _) ⟨fun h => ⟨h.1, h.2.1, h.2.2⟩, fun h => ⟨h.fits, h.hash, h.young⟩⟩

/-- An attempt succeeds if and only if it should. -/
def Faithful (s : System) : Prop :=
  ∀ a, Sound crypt s a → ((attempt crypt s.file a).1.accepted = true ↔ s.Right a)

/-- The entry belongs to the account. -/
structure Agrees (account : Account) (e : DatabaseEntry) : Prop where
  name : account.name = e.name
  password : e.password = crypt account.password e.passwordSalt
  open_iff : e.attemptsFailed < 3 ↔ account.failures < 3
  failures : e.attemptsFailed < 3 → e.attemptsFailed = account.failures
  age : 0 ≤ e.passwordAge

instance (account : Account) (e : DatabaseEntry) : Decidable (Agrees crypt account e) :=
  decidable_of_iff (account.name = e.name ∧ e.password = crypt account.password e.passwordSalt ∧
      (e.attemptsFailed < 3 ↔ account.failures < 3) ∧
      (e.attemptsFailed < 3 → e.attemptsFailed = account.failures) ∧ 0 ≤ e.passwordAge)
    ⟨fun h => ⟨h.1, h.2.1, h.2.2.1, h.2.2.2.1, h.2.2.2.2⟩,
      fun h => ⟨h.name, h.password, h.open_iff, h.failures, h.age⟩⟩

/-- Every entry can be read, and belongs to its account. -/
structure Records (records : List (Account × DatabaseEntry)) : Prop where
  ok : ∀ r ∈ records, r.2.Ok ∧ Agrees crypt r.1 r.2
  nodup : (records.map fun r => r.1.name).Nodup

instance (records : List (Account × DatabaseEntry)) : Decidable (Records crypt records) :=
  decidable_of_iff ((∀ r ∈ records, r.2.Ok ∧ Agrees crypt r.1 r.2) ∧
      (records.map fun r => r.1.name).Nodup)
    ⟨fun h => ⟨h.1, h.2⟩, fun h => ⟨h.ok, h.nodup⟩⟩

/-- The file is a user database: it holds one entry for each account. -/
def Registered (s : System) : Prop :=
  ∃ records : List (Account × DatabaseEntry), Records crypt records ∧
    s.accounts = records.map Prod.fst ∧ s.file = printAll (records.map Prod.snd)

/-! ### One attempt -/

variable {crypt} {records : List (Account × DatabaseEntry)} {s t : System} {a : Attempt}

theorem Records.ok_entries (h : Records crypt records) : ∀ e ∈ records.map Prod.snd, e.Ok :=
  List.forall_mem_map.mpr fun r hr => (h.ok r hr).1

/-- No account has the name. -/
theorem Records.find_none (h : Records crypt records) {name : List Char}
    (hname : ∀ r ∈ records, r.1.name ≠ name) :
    getDatabaseEntry (printAll (records.map Prod.snd)) name = none := by
  rw [getDatabaseEntry_printAll h.ok_entries, List.find?_eq_none]
  refine List.forall_mem_map.mpr fun r hr => ?_
  rw [← (h.ok r hr).2.name]
  simpa using hname r hr

/-- Names are unique. -/
theorem Records.eq_of_name (h : Records crypt records) {r r' : Account × DatabaseEntry}
    (hr : r ∈ records) (hr' : r' ∈ records) (hname : r.1.name = r'.1.name) : r = r' :=
  List.inj_on_of_nodup_map h.nodup hr hr' hname

theorem Records.find_some (h : Records crypt records) {r : Account × DatabaseEntry}
    (hr : r ∈ records) :
    getDatabaseEntry (printAll (records.map Prod.snd)) r.1.name = some r.2 := by
  rw [getDatabaseEntry_printAll h.ok_entries]
  cases hfind : (records.map Prod.snd).find? fun e => decide (e.name = r.1.name) with
  | none =>
    have hnone := List.find?_eq_none.mp hfind r.2 (List.mem_map_of_mem hr)
    rw [(h.ok r hr).2.name] at hnone
    simp at hnone
  | some e =>
    obtain ⟨r', hr', rfl⟩ := List.mem_map.mp (List.mem_of_find?_eq_some hfind)
    have hname := List.find?_some hfind
    simp only [decide_eq_true_eq, ← (h.ok r' hr').2.name] at hname
    rw [h.eq_of_name hr' hr hname]

/-- The records after one was replaced. -/
def replaceRecord (records : List (Account × DatabaseEntry)) (r' : Account × DatabaseEntry) :
    List (Account × DatabaseEntry) :=
  records.map fun r => if r.1.name = r'.1.name then r' else r

theorem Records.replace (h : Records crypt records) {r' : Account × DatabaseEntry}
    (hr' : r'.2.Ok ∧ Agrees crypt r'.1 r'.2) : Records crypt (replaceRecord records r') := by
  constructor
  · refine List.forall_mem_map.mpr fun r hr => ?_
    split
    · exact hr'
    · exact h.ok r hr
  · have hnames : (replaceRecord records r').map (fun r => r.1.name) =
        records.map fun r => r.1.name := by
      rw [replaceRecord, List.map_map]
      refine List.map_congr_left fun r _ => ?_
      simp only [Function.comp_apply]
      split
      · next heq => exact heq.symm
      · rfl
    rw [hnames]
    exact h.nodup

theorem Records.mem_replace {r q : Account × DatabaseEntry} (hr : r ∈ records)
    (hname : r.1.name = q.1.name) : q ∈ replaceRecord records q :=
  List.mem_map.mpr ⟨r, hr, if_pos hname⟩

/-- The entry of an account is replaced in the file. -/
theorem Records.update (h : Records crypt records) {r q : Account × DatabaseEntry}
    (hr : r ∈ records) (hname : r.1.name = q.1.name) (hok : q.2.Ok) :
    updateDatabaseEntry (printAll (records.map Prod.snd)) q.1.name q.2 =
      some (printAll ((replaceRecord records q).map Prod.snd)) := by
  have hlength : q.2.print.length < databaseEntryLength := by
    have := hok.length
    unfold databaseEntryLength
    unfold databaseStringLength at this ⊢
    omega
  rw [updateDatabaseEntry_printAll h.ok_entries
    ⟨r.2, List.mem_map_of_mem hr, (h.ok r hr).2.name.symm.trans hname⟩ hlength]
  refine congrArg (some ∘ printAll) ?_
  rw [replaceIn, replaceRecord, List.map_map, List.map_map]
  refine List.map_congr_left fun q hq => ?_
  simp only [Function.comp_apply, (h.ok q hq).2.name]
  split <;> rfl

/-- The counters of an entry are written with as many digits as before. -/
theorem ok_of_counters {e : DatabaseEntry} (h : e.Ok) {attemptsFailed passwordAge : ℤ}
    (hfailed : (printInt attemptsFailed).length = (printInt e.attemptsFailed).length)
    (hage : (printInt passwordAge).length = (printInt e.passwordAge).length) :
    ({ e with attemptsFailed := attemptsFailed, passwordAge := passwordAge } :
    DatabaseEntry).Ok where
  name := h.name
  password := h.password
  passwordSalt := h.passwordSalt
  length := by
    have hlength := h.length
    simp only [DatabaseEntry.print, DatabaseEntry.line, List.length_append, List.length_cons,
      hfailed, hage] at hlength ⊢
    exact hlength

/-- The record after a login. -/
def loggedIn (r : Account × DatabaseEntry) : Account × DatabaseEntry :=
  (r.1.after [] .success,
    { r.2 with attemptsFailed := 0, passwordAge := r.2.passwordAge + 1 })

/-- The record after a failure. -/
def failedOnce (r : Account × DatabaseEntry) : Account × DatabaseEntry :=
  (r.1.after [] .incorrect, { r.2 with attemptsFailed := r.2.attemptsFailed + 1 })

theorem loggedIn_ok {r : Account × DatabaseEntry} (h : r.2.Ok ∧ Agrees crypt r.1 r.2)
    (hopen : r.2.attemptsFailed < 3) (hyoung : r.2.passwordAge + 1 < 10) :
    (loggedIn r).2.Ok ∧ Agrees crypt (loggedIn r).1 (loggedIn r).2 := by
  obtain ⟨hok, hagrees⟩ := h
  have hage := hagrees.age
  have hfailed := hagrees.failures hopen
  constructor
  · refine ok_of_counters hok ?_ ?_
    · rw [length_printInt (by omega) (by omega), length_printInt (by omega) (by omega)]
    · rw [length_printInt (by omega) (by omega), length_printInt (by omega) (by omega)]
  · exact ⟨hagrees.name, hagrees.password, by simp [loggedIn, Account.after],
      fun _ => rfl, by dsimp only [loggedIn]; omega⟩

theorem failedOnce_ok {r : Account × DatabaseEntry} (h : r.2.Ok ∧ Agrees crypt r.1 r.2)
    (hopen : r.2.attemptsFailed < 3) :
    (failedOnce r).2.Ok ∧ Agrees crypt (failedOnce r).1 (failedOnce r).2 := by
  obtain ⟨hok, hagrees⟩ := h
  have hfailed := hagrees.failures hopen
  constructor
  · refine ok_of_counters hok ?_ rfl
    rw [length_printInt (by omega) (by omega), length_printInt (by omega) (by omega)]
  · refine ⟨hagrees.name, hagrees.password, ?_, fun _ => ?_, hagrees.age⟩
    · dsimp only [failedOnce, Account.after]
      omega
    · dsimp only [failedOnce, Account.after]
      omega

theorem attempt_unknown (h : Records crypt records) (hname : ∀ r ∈ records, r.1.name ≠ a.name) :
    attempt crypt (printAll (records.map Prod.snd)) a =
      (.unknown, printAll (records.map Prod.snd)) := by
  rw [attempt, h.find_none hname]

section Known

variable {r : Account × DatabaseEntry}

theorem attempt_locked (h : Records crypt records) (hr : r ∈ records) (hname : r.1.name = a.name)
    (hlocked : 3 ≤ r.2.attemptsFailed) :
    attempt crypt (printAll (records.map Prod.snd)) a =
      (.locked, printAll (records.map Prod.snd)) := by
  rw [attempt, ← hname, h.find_some hr]
  exact if_pos hlocked

theorem attempt_incorrect (h : Records crypt records) (hr : r ∈ records)
    (hname : r.1.name = a.name) (hopen : r.2.attemptsFailed < 3)
    (hne : r.2.password ≠ crypt a.password r.2.passwordSalt) :
    attempt crypt (printAll (records.map Prod.snd)) a =
      (.incorrect, printAll ((replaceRecord records (failedOnce r)).map Prod.snd)) := by
  have hupdate := h.update (q := failedOnce r) hr rfl (failedOnce_ok (h.ok r hr) hopen).1
  change updateDatabaseEntry _ r.1.name { r.2 with
    attemptsFailed := r.2.attemptsFailed + 1 } = _ at hupdate
  dsimp only at hupdate
  rw [attempt, ← hname, h.find_some hr]
  dsimp only
  rw [if_neg (Int.not_le.mpr hopen), if_neg hne, hupdate, Option.getD_some]

theorem attempt_success (h : Records crypt records) (hr : r ∈ records)
    (hname : r.1.name = a.name) (hopen : r.2.attemptsFailed < 3)
    (heq : r.2.password = crypt a.password r.2.passwordSalt) (hyoung : r.2.passwordAge + 1 < 10) :
    attempt crypt (printAll (records.map Prod.snd)) a =
      (.success, printAll ((replaceRecord records (loggedIn r)).map Prod.snd)) := by
  have hok := loggedIn_ok (h.ok r hr) hopen hyoung
  have hupdate := h.update (q := loggedIn r) hr rfl hok.1
  change updateDatabaseEntry _ r.1.name { r.2 with
    attemptsFailed := 0, passwordAge := r.2.passwordAge + 1 } = _ at hupdate
  have hagain := (h.replace hok).find_some (Records.mem_replace (q := loggedIn r) hr rfl)
  change getDatabaseEntry _ r.1.name = some { r.2 with
    attemptsFailed := 0, passwordAge := r.2.passwordAge + 1 } at hagain
  dsimp only at hupdate hagain
  rw [attempt, ← hname, h.find_some hr]
  dsimp only
  rw [if_neg (Int.not_le.mpr hopen), if_pos heq, hupdate, Option.getD_some, hagain]
  dsimp only
  rw [if_neg (Int.not_le.mpr hyoung)]

end Known

/-- The record of the user after the outcome, and the others as they were. -/
theorem Records.accounts_replace (h : Records crypt records) {r : Account × DatabaseEntry}
    (hr : r ∈ records) {outcome : Outcome} (hchanged : outcome ≠ .changed) (newPassword : List Char)
    (e : DatabaseEntry) :
    (records.map Prod.fst).map (fun account =>
      if account.name = r.1.name then account.after newPassword outcome else account) =
      (replaceRecord records (r.1.after [] outcome, e)).map Prod.fst := by
  have hsame : ∀ account : Account,
      account.after newPassword outcome = account.after [] outcome := by
    intro account
    cases outcome <;> first | rfl | exact absurd rfl hchanged
  have hname : (r.1.after [] outcome).name = r.1.name := by
    cases outcome <;> rfl
  rw [replaceRecord, List.map_map, List.map_map]
  refine List.map_congr_left fun q hq => ?_
  simp only [Function.comp_apply, hname]
  split
  · next heq => rw [hsame, h.eq_of_name hq hr heq]
  · rfl

/-- **What an attempt does** if it does not ask for a new password. -/
theorem Records.attempt_cases (h : Records crypt records) {file : List Char}
    (hfile : file = printAll (records.map Prod.snd))
    (hyoung : ∀ e ∈ getDatabaseEntry file a.name, e.attemptsFailed < 3 →
      e.password = crypt a.password e.passwordSalt → e.passwordAge + 1 < 10) :
    ((∀ r ∈ records, r.1.name ≠ a.name) ∧ attempt crypt file a = (.unknown, file)) ∨
    ∃ r ∈ records, r.1.name = a.name ∧ getDatabaseEntry file a.name = some r.2 ∧
      ∃ outcome e, attempt crypt file a =
          (outcome, printAll ((replaceRecord records (r.1.after [] outcome, e)).map Prod.snd)) ∧
        outcome ≠ .changed ∧ (e.Ok ∧ Agrees crypt (r.1.after [] outcome) e) ∧
        (outcome.accepted = true ↔
          r.1.failures < 3 ∧ r.2.password = crypt a.password r.2.passwordSalt) := by
  subst hfile
  by_cases hname : ∀ r ∈ records, r.1.name ≠ a.name
  · exact .inl ⟨hname, attempt_unknown h hname⟩
  right
  simp only [not_forall, not_not] at hname
  obtain ⟨r, hr, hname⟩ := hname
  have hfind := h.find_some hr
  rw [hname] at hfind
  obtain ⟨hok, hagrees⟩ := h.ok r hr
  refine ⟨r, hr, hname, hfind, ?_⟩
  by_cases hopen : r.2.attemptsFailed < 3
  · have hfailures := hagrees.open_iff.mp hopen
    -- the entry is open, so the hash decides
    by_cases heq : r.2.password = crypt a.password r.2.passwordSalt
    · have hyoung := hyoung r.2 hfind hopen heq
      exact ⟨.success, (loggedIn r).2, attempt_success h hr hname hopen heq hyoung, by decide,
        loggedIn_ok ⟨hok, hagrees⟩ hopen hyoung, fun _ => ⟨hfailures, heq⟩, fun _ => rfl⟩
    · exact ⟨.incorrect, (failedOnce r).2, attempt_incorrect h hr hname hopen heq, by decide,
        failedOnce_ok ⟨hok, hagrees⟩ hopen, fun hacc => (by cases hacc),
        fun hright => absurd hright.2 heq⟩
  · -- the file stays as it is, and so does the entry
    have hlocked := Int.not_lt.mp hopen
    have hclosed : ¬ r.1.failures < 3 := mt hagrees.open_iff.mpr hopen
    refine ⟨.locked, r.2, ?_, by decide, ⟨hok, ?_⟩, fun hacc => (by cases hacc),
      fun hright => absurd hright.1 hclosed⟩
    · rw [attempt_locked h hr hname hlocked]
      refine congrArg (Prod.mk Outcome.locked ∘ printAll) ?_
      rw [replaceRecord, List.map_map]
      refine List.map_congr_left fun q hq => ?_
      by_cases heq : q.1.name = r.1.name
      · simp [h.eq_of_name hq hr heq, Account.after]
      · simp [heq, Account.after]
    · refine ⟨hagrees.name, hagrees.password, ?_, fun hlt => absurd hlt hopen, hagrees.age⟩
      dsimp only [Account.after]
      omega

/-- A name that fits the buffer is read to its end. -/
theorem name_eq_user (h : a.user.length < nameLength) : a.name = a.user := by
  refine List.take_of_length_le ?_
  unfold nameLength at h ⊢
  omega

/-- **The step lemma**: the file holds the accounts after the attempt. -/
theorem Registered.of_step (h : Registered crypt s) (hok : Sound crypt s a)
    (hstep : s.step crypt a = some t) : Registered crypt t := by
  obtain ⟨records, hrecords, haccounts, hfile⟩ := h
  cases hstep
  rcases hrecords.attempt_cases hfile hok.young with ⟨hname, hattempt⟩ |
    ⟨r, hr, hname, -, outcome, e, hattempt, hchanged, hnew, -⟩
  · refine ⟨records, hrecords, ?_, by dsimp only; rw [hattempt, hfile]⟩
    dsimp only
    rw [haccounts]
    -- the name that was typed is not registered either
    have huser : ∀ account ∈ records.map Prod.fst, account.name ≠ a.user := by
      intro account haccount
      rcases hok.fits with hfits | hfits
      · obtain ⟨r, hr, rfl⟩ := List.mem_map.mp haccount
        rw [← name_eq_user hfits]
        exact hname r hr
      · exact (hfits account (haccounts ▸ haccount)).1
    rw [List.map_congr_left fun account haccount => if_neg (huser account haccount), List.map_id']
  · -- the name that was found is the one that was typed, not a cut one
    have huser : a.user = r.1.name := by
      rcases hok.fits with hfits | hfits
      · rw [hname, name_eq_user hfits]
      · have hmem : r.1 ∈ s.accounts := haccounts ▸ List.mem_map_of_mem hr
        exact absurd hname (hfits r.1 hmem).2
    refine ⟨_, hrecords.replace hnew, ?_, by dsimp only; rw [hattempt]⟩
    dsimp only
    rw [hattempt, haccounts, huser]
    exact hrecords.accounts_replace hr hchanged _ _

theorem Registered.faithful (h : Registered crypt s) : Faithful crypt s := by
  intro a hok
  obtain ⟨records, hrecords, haccounts, hfile⟩ := h
  rcases hrecords.attempt_cases hfile hok.young with ⟨hname, hattempt⟩ |
    ⟨r, hr, hname, hfind, outcome, e, hattempt, -, -, haccepted⟩
  · rw [hattempt]
    refine ⟨fun hacc => (by cases hacc), fun hright => ?_⟩
    obtain ⟨account, haccount, huser, -⟩ := hright
    rcases hok.fits with hfits | hfits
    · rw [haccounts] at haccount
      obtain ⟨r, hr, rfl⟩ := List.mem_map.mp haccount
      exact absurd (huser.trans (name_eq_user hfits).symm) (hname r hr)
    · exact absurd huser (hfits account haccount).1
  · have hmem : r.1 ∈ s.accounts := haccounts ▸ List.mem_map_of_mem hr
    -- a name that is cut off is the name of no account
    have hfits : a.user.length < nameLength := by
      rcases hok.fits with hfits | hfits
      · exact hfits
      · exact absurd hname (hfits r.1 hmem).2
    have hagrees := (hrecords.ok r hr).2
    rw [hattempt, haccepted]
    constructor
    · rintro ⟨hopen, heq⟩
      refine ⟨r.1, hmem, hname.trans (name_eq_user hfits), hopen, ?_⟩
      exact hok.hash r.2 hfind r.1 hmem hname (heq.symm.trans hagrees.password)
    · rintro ⟨account, haccount, huser, hopen, hpassword⟩
      rw [haccounts] at haccount
      obtain ⟨r', hr', rfl⟩ := List.mem_map.mp haccount
      have hsame := hrecords.eq_of_name hr' hr
        ((huser.trans (name_eq_user hfits).symm).trans hname.symm)
      subst hsame
      rw [hpassword]
      exact ⟨hopen, hagrees.password⟩

/-- **The current password logs in, and no other** in every run in which the names fit their
buffer, no two passwords have the same hash, and no new password is asked for. -/
theorem login_faithful (h₀ : Registered crypt s) (h : ReachWhile (step crypt) (Sound crypt) s t) :
    Faithful crypt t :=
  (h.invariant h₀ fun _ _ _ hregistered hok hstep => hregistered.of_step hok hstep).faithful

/-! ### A database with two users -/

/-- Some values of `crypt`; what it does elsewhere does not matter. -/
def someCrypt (password salt : List Char) : List Char :=
  if password = "secret".toList ∧ salt = "ab".toList then "abNANd1rDfiNc".toList
  else if password = "wrong".toList ∧ salt = "ab".toList then "abMTYwD2z53TY".toList
  else if password = "fresh".toList ∧ salt = "ab".toList then "abWf.6i0lYUUE".toList
  else if password = "letmein".toList ∧ salt = "xy".toList then "xylZLdHhwgG1k".toList
  else if password = "wrong".toList ∧ salt = "xy".toList then "xyptRnUPgtsao".toList
  else salt ++ '$' :: password

def bob (passwordAge : ℤ) : Account × DatabaseEntry :=
  ({ name := "bob".toList, password := "secret".toList, failures := 0 },
    { name := "bob".toList
      uid := 1001
      password := "abNANd1rDfiNc".toList
      passwordSalt := "ab".toList
      attemptsFailed := 0
      passwordAge := passwordAge })

/-- Two attempts of hers have failed. -/
def eve : Account × DatabaseEntry :=
  ({ name := "eve".toList, password := "letmein".toList, failures := 2 },
    { name := "eve".toList
      uid := 1002
      password := "xylZLdHhwgG1k".toList
      passwordSalt := "xy".toList
      attemptsFailed := 2
      passwordAge := 0 })

def database (records : List (Account × DatabaseEntry)) : System where
  file := printAll (records.map Prod.snd)
  accounts := records.map Prod.fst

theorem registered_database (h : Records crypt records) : Registered crypt (database records) :=
  ⟨records, h, rfl, rfl⟩

/-- Bob mistypes his password and then logs in; Eve is locked out. -/
def attempts : List Attempt :=
  [⟨"bob".toList, "wrong".toList, []⟩, ⟨"bob".toList, "secret".toList, []⟩,
    ⟨"eve".toList, "wrong".toList, []⟩, ⟨"eve".toList, "letmein".toList, []⟩,
    ⟨"mallory".toList, "secret".toList, []⟩]

theorem faithful_attempts : ∃ t,
    run (restrict (step someCrypt) (Sound someCrypt)) (database [bob 3, eve]) attempts = some t ∧
    t.file = "bob:1001:abNANd1rDfiNc:ab:0:4\neve:1002:xylZLdHhwgG1k:xy:3:0\n".toList ∧
    Faithful someCrypt t := by
  have hobs : (run (restrict (step someCrypt) (Sound someCrypt)) (database [bob 3, eve])
      attempts).map (·.file) =
      some "bob:1001:abNANd1rDfiNc:ab:0:4\neve:1002:xylZLdHhwgG1k:xy:3:0\n".toList := by
    decide +kernel
  obtain ⟨t, ht, hfile⟩ := Option.map_eq_some_iff.mp hobs
  exact ⟨t, ht, hfile, login_faithful (registered_database (by decide +kernel))
    (reachWhile_of_run _ _ _ ht)⟩

/-- The tenth login asks for a new password. -/
def change : Attempt := ⟨"bob".toList, "secret".toList, "fresh".toList⟩

/-- And the new password is not accepted. -/
def afterChange : Attempt := ⟨"bob".toList, "fresh".toList, []⟩

theorem someCrypt_ne (password salt : List Char) : someCrypt password salt ≠ password := by
  intro h
  unfold someCrypt at h
  split at h
  · next heq =>
    rw [heq.1] at h
    exact absurd h (by decide)
  split at h
  · next heq =>
    rw [heq.1] at h
    exact absurd h (by decide)
  split at h
  · next heq =>
    rw [heq.1] at h
    exact absurd h (by decide)
  split at h
  · next heq =>
    rw [heq.1] at h
    exact absurd h (by decide)
  split at h
  · next heq =>
    rw [heq.1] at h
    exact absurd h (by decide)
  have hlength := congrArg List.length h
  rw [List.length_append, List.length_cons] at hlength
  omega

/-- A forced change stores the new password without `crypt`. -/
theorem not_login_faithful : ∃ s t, (∀ password salt, someCrypt password salt ≠ password) ∧
    Registered someCrypt s ∧ s.step someCrypt change = some t ∧
    (attempt someCrypt s.file change).1 = .changed ∧
    t.file = "bob:1001:fresh:ab:0:0\neve:1002:xylZLdHhwgG1k:xy:2:0\n".toList ∧
    Right t afterChange ∧ (attempt someCrypt t.file afterChange).1 = .incorrect ∧
    ¬ Faithful someCrypt t := by
  have hobs : ((database [bob 9, eve]).step someCrypt change).map (fun t => decide (
      (attempt someCrypt (database [bob 9, eve]).file change).1 = .changed ∧
      t.file = "bob:1001:fresh:ab:0:0\neve:1002:xylZLdHhwgG1k:xy:2:0\n".toList ∧
      (∃ account ∈ t.accounts, account.name = afterChange.user ∧ account.failures < 3 ∧
        afterChange.password = account.password) ∧
      (attempt someCrypt t.file afterChange).1 = .incorrect ∧ Sound someCrypt t afterChange)) =
      some true := by decide +kernel
  obtain ⟨t, ht, hval⟩ := Option.map_eq_some_iff.mp hobs
  obtain ⟨hchanged, hfile, hright, hincorrect, hsound⟩ := of_decide_eq_true hval
  refine ⟨_, t, someCrypt_ne, registered_database (by decide +kernel), ht, hchanged, hfile,
    hright, hincorrect, fun hf => ?_⟩
  have haccepted := (hf afterChange hsound).mpr hright
  rw [hincorrect] at haccepted
  cases haccepted

end System

end ExchangeLabs.Login
