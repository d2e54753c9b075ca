import Mathlib.Tactic.Common

/-!
# Slash-separated paths

The lexical rules for file names of Unix, without a look at the file system.  Of the bytes
of a name only `/` and `.` mean something; each byte is written as the character with its
number.

## Main definitions

* `clean` — the shortest name that means the same: no `.`, no empty element, and no `..`
  that has something to take away.
* `join` — elements put together, and the result cleaned.
* `Plain elem` — an element that goes one directory down.

## Main results

* `clean_rooted` — a cleaned name that begins with `/` goes down only.
* `join_clean_rooted` — so does what is joined to a directory.
-/

namespace ExchangeLabs.Path

/-! ### Names -/

/-- What the next element does to the elements that are left, the last one first. -/
def push (rooted : Bool) (out : List (List Char)) (elem : List Char) : List (List Char) :=
  if elem = [] ∨ elem = ['.'] then out
  else if elem = ['.', '.'] then
    match out with
    | [] => if rooted then [] else [elem]
    | last :: rest => if last = ['.', '.'] then elem :: out else rest
  else elem :: out

/-- The elements that are left of a name. -/
def kept (rooted : Bool) (path : List Char) : List (List Char) :=
  ((path.splitOn '/').foldl (push rooted) []).reverse

/-- `Clean`. -/
def clean (path : List Char) : List Char :=
  let rooted : Bool := path.head? = some '/'
  let text := ['/'].intercalate (kept rooted path)
  if rooted then '/' :: text else if text = [] then ['.'] else text

/-- `Join`. -/
def join (elems : List (List Char)) : List Char :=
  let elems := elems.filter (· ≠ [])
  if elems = [] then [] else clean (['/'].intercalate elems)

/-- An element that is the name of a file or directory in the one before it. -/
structure Plain (elem : List Char) : Prop where
  ne_nil : elem ≠ []
  ne_dot : elem ≠ ['.']
  ne_dotdot : elem ≠ ['.', '.']
  noSlash : '/' ∉ elem

/-! ### Elements -/

/-- There is no separator in an element. -/
theorem notMem_of_mem_splitOn {path elem : List Char} (h : elem ∈ path.splitOn '/') :
    '/' ∉ elem := by
  induction path generalizing elem with
  | nil =>
    rw [List.splitOn_nil, List.mem_singleton] at h
    rw [h]
    exact List.not_mem_nil
  | cons c path ih =>
    rw [List.splitOn_cons_eq_if_modifyHead] at h
    -- a separator begins a new element, and any other character goes to the first one
    split at h
    · rcases List.mem_cons.mp h with rfl | h
      · exact List.not_mem_nil
      · exact ih h
    · next hc =>
      cases hsplit : path.splitOn '/' with
      | nil => exact absurd hsplit (List.splitOn_ne_nil _ _)
      | cons first rest =>
        rw [hsplit, List.modifyHead_cons] at h
        rcases List.mem_cons.mp h with rfl | h
        · intro hmem
          rcases List.mem_cons.mp hmem with heq | hmem
          · exact hc (by rw [← heq, beq_self_eq_true])
          · exact ih (by rw [hsplit]; exact List.mem_cons_self) hmem
        · exact ih (by rw [hsplit]; exact List.mem_cons_of_mem _ h)

theorem splitOn_cons_slash (path : List Char) :
    ('/' :: path).splitOn '/' = [] :: path.splitOn '/' := by
  rw [List.splitOn_cons_eq_if_modifyHead, if_pos (beq_self_eq_true _)]

@[simp] theorem push_nil (rooted : Bool) (out : List (List Char)) : push rooted out [] = out :=
  if_pos (.inl rfl)

@[simp] theorem push_dot (rooted : Bool) (out : List (List Char)) :
    push rooted out ['.'] = out := if_pos (.inr rfl)

/-- A plain element is put on top. -/
theorem push_plain {elem : List Char} (h : Plain elem) (rooted : Bool) (out : List (List Char)) :
    push rooted out elem = elem :: out := by
  unfold push
  rw [if_neg (not_or.mpr ⟨h.ne_nil, h.ne_dot⟩), if_neg h.ne_dotdot]

theorem foldl_push_plain (rooted : Bool) {elems : List (List Char)} (h : ∀ elem ∈ elems, Plain elem)
    (out : List (List Char)) : elems.foldl (push rooted) out = elems.reverse ++ out := by
  induction elems generalizing out with
  | nil => rfl
  | cons elem elems ih =>
    obtain ⟨helem, helems⟩ := List.forall_mem_cons.mp h
    rw [List.foldl_cons, push_plain helem, ih helems, List.reverse_cons, List.append_assoc]
    rfl

/-- At the root only plain elements are left: `..` takes one away, or does nothing. -/
theorem plain_push {out : List (List Char)} (hout : ∀ e ∈ out, Plain e) {elem : List Char}
    (hslash : '/' ∉ elem) : ∀ e ∈ push true out elem, Plain e := by
  unfold push
  by_cases hskip : elem = [] ∨ elem = ['.']
  · rw [if_pos hskip]
    exact hout
  rw [if_neg hskip]
  by_cases hup : elem = ['.', '.']
  · rw [if_pos hup]
    -- `..` at the root does nothing, and below it takes the last element away
    cases out with
    | nil => exact hout
    | cons last rest =>
      obtain ⟨hlast, hrest⟩ := List.forall_mem_cons.mp hout
      simp only [hlast.ne_dotdot, if_false]
      exact hrest
  · obtain ⟨hne, hdot⟩ := not_or.mp hskip
    rw [if_neg hup]
    exact List.forall_mem_cons.mpr ⟨⟨hne, hdot, hup, hslash⟩, hout⟩

theorem plain_foldl_push {elems : List (List Char)} (h : ∀ elem ∈ elems, '/' ∉ elem)
    {out : List (List Char)} (hout : ∀ e ∈ out, Plain e) :
    ∀ e ∈ elems.foldl (push true) out, Plain e := by
  induction elems generalizing out with
  | nil => exact hout
  | cons elem elems ih =>
    obtain ⟨helem, helems⟩ := List.forall_mem_cons.mp h
    exact ih helems (plain_push hout helem)

theorem plain_kept (path : List Char) : ∀ e ∈ kept true path, Plain e := by
  intro e he
  exact plain_foldl_push (fun elem => notMem_of_mem_splitOn) (by simp) e (List.mem_reverse.mp he)

/-! ### Cleaned names -/

/-- **A cleaned name that begins at the root** goes down only. -/
theorem clean_rooted {path : List Char} (h : path.head? = some '/') :
    clean path = '/' :: ['/'].intercalate (kept true path) := by
  unfold clean
  simp only [h, decide_true, if_true]

/-- The elements of a name of plain elements are these. -/
theorem splitOn_intercalate {elems : List (List Char)} (h : ∀ e ∈ elems, Plain e)
    (hne : elems ≠ []) :
    (['/'].intercalate elems).splitOn '/' = elems :=
  List.splitOn_intercalate '/' (fun e he => (h e he).noSlash) hne

/-- What a name of plain elements adds to those that are left. -/
theorem foldl_push_splitOn (rooted : Bool) {elems : List (List Char)} (h : ∀ e ∈ elems, Plain e)
    (out : List (List Char)) :
    ((['/'].intercalate elems).splitOn '/').foldl (push rooted) out = elems.reverse ++ out := by
  by_cases hne : elems = []
  · subst hne
    simp
  · rw [splitOn_intercalate h hne, foldl_push_plain rooted h]

theorem head?_append_of_plain {dir : List Char} (hdir : Plain dir) (rest : List Char) :
    (dir ++ rest).head? ≠ some '/' := by
  cases dir with
  | nil => exact absurd rfl hdir.ne_nil
  | cons c dir =>
    intro h
    have hc : c = '/' := Option.some.inj h
    exact hdir.noSlash (by rw [hc]; exact List.mem_cons_self)

/-- A directory with a name behind it, where the elements of the name are left as they are. -/
theorem join_eq {dir path : List Char} (hdir : Plain dir) (hpath : path ≠ [])
    {elems : List (List Char)}
    (hkept : (path.splitOn '/').foldl (push false) [dir] = elems.reverse ++ [dir]) :
    join [dir, path] = ['/'].intercalate (dir :: elems) := by
  have hfilter : [dir, path].filter (· ≠ []) = [dir, path] := by
    simp [hdir.ne_nil, hpath]
  have hinter : ['/'].intercalate [dir, path] = dir ++ '/' :: path := by
    simp
  have hsplit : (dir ++ '/' :: path).splitOn '/' = dir :: path.splitOn '/' := by
    rw [List.splitOn_append_cons_self, List.splitOn_eq_singleton hdir.noSlash]
    rfl
  -- the directory stays at the bottom, as the name never goes above it
  have hall : kept false (dir ++ '/' :: path) = dir :: elems := by
    unfold kept
    rw [hsplit, List.foldl_cons, push_plain hdir, hkept]
    simp
  have hne : ['/'].intercalate (dir :: elems) ≠ [] := by
    intro hnil
    cases elems with
    | nil => exact hdir.ne_nil (by simpa using hnil)
    | cons e elems => simp at hnil
  unfold join clean
  simp only [hfilter, hinter, head?_append_of_plain hdir, decide_false, hall, hne, if_false,
    reduceCtorEq, Bool.false_eq_true]

/-- **What is joined to a directory** after it has been cleaned at the root is below it. -/
theorem join_clean_rooted {dir path : List Char} (hdir : Plain dir) (h : path.head? = some '/') :
    join [dir, clean path] = ['/'].intercalate (dir :: kept true path) := by
  rw [clean_rooted h]
  refine join_eq hdir (List.cons_ne_nil _ _) ?_
  rw [splitOn_cons_slash, List.foldl_cons, push_nil, foldl_push_splitOn false (plain_kept path)]

end ExchangeLabs.Path
