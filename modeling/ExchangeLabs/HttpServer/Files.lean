import ExchangeLabs.Lib.Path

/-!
# The files of the HTTP server

What `handleGet` and `handlePost` do for a request, which is the same in both servers: the
file system is asked for a file below one directory, and the answer decides the response.
Symbolic links are not looked at.

The name of the file is put together from the path of the request.  The test for the
directory as a prefix of it does not ask for a separator, and is never what keeps a request
out: a path that begins with `/` is cleaned at the root, where there is nothing above.

## Main definitions

* `Request` — a request with a path that can be parsed from one.
* `Os` — the answers of the file system; `Call` — what it is asked.
* `handleGet`, `handlePost`, `handleRequest` — the handlers.
* `Confined dir name` — the name is `dir`, or below it.

## Main results

* `join_clean_path` — the name that a handler computes.
* `handle_confined` — **no handler leaves its directory.**
-/

namespace ExchangeLabs.HttpServer

open ExchangeLabs.Path

def staticDir : List Char := "static".toList

def uploadDir : List Char := "uploads".toList

/-- The extensions that are served, with their types. -/
def supportedTypes : List (List Char × String) :=
  [(".html".toList, "text/html"), (".txt".toList, "text/plain"), (".gif".toList, "image/gif"),
    (".jpeg".toList, "image/jpeg"), (".jpg".toList, "image/jpeg"), (".css".toList, "text/css")]

/-- `filepath.Ext`: the last element from its last dot on. -/
def ext (path : List Char) : List Char :=
  let back := path.reverse.takeWhile fun c => c ≠ '.' ∧ c ≠ '/'
  if (path.reverse.drop back.length).head? = some '.' then '.' :: back.reverse else []

/-! ### Requests and responses -/

/-- A request as `http.ReadRequest` returns it, with the path decoded. -/
structure Request where
  method : String
  path : List Char
  body : List Char
  /-- The path of an absolute URL may be empty, and `*` stands alone. -/
  path_eq : path = [] ∨ path = ['*'] ∨ path.head? = some '/'

structure Response where
  status : ℕ
  headers : List (String × List Char)
  body : List Char

/-- `http.StatusText` of the codes that occur. -/
def statusText : ℕ → String
  | 400 => "Bad Request"
  | 404 => "Not Found"
  | 500 => "Internal Server Error"
  | 501 => "Not Implemented"
  | _ => ""

def handleError (statusCode : ℕ) : Response where
  status := statusCode
  headers :=
    [("Content-Type", "text/plain".toList),
      ("Content-Length", Nat.toDigits 10 (statusText statusCode).length)]
  body := (statusText statusCode).toList ++ ['\n']

/-! ### The file system -/

inductive FileError
  /-- `os.IsNotExist` -/
  | notExist
  | other
  deriving DecidableEq

/-- A file that has been opened. -/
structure File where
  /-- What `Stat` reports; `none` for an error. -/
  size : Option ℕ
  content : List Char

/-- The answers of the file system. -/
structure Os where
  openFile : List Char → Except FileError File
  /-- The error of `os.Stat`, if there is one. -/
  stat : List Char → Option FileError
  mkdir : List Char → Bool
  create : List Char → Bool
  copy : List Char → List Char → Bool

/-- What the file system is asked to open, to create and to make a directory of. -/
inductive Call
  | opened (name : List Char)
  | created (name : List Char)
  | made (name : List Char)

/-! ### The handlers -/

def handleGet (os : Os) (req : Request) : List Call × Response :=
  let path := join [staticDir, clean req.path]
  if ¬ staticDir.isPrefixOf path then ([], handleError 400)
  else
    match supportedTypes.lookup (ext path) with
    | none => ([], handleError 400)
    | some fileType =>
      match os.openFile path with
      | .error .notExist => ([.opened path], handleError 404)
      | .error .other => ([.opened path], handleError 500)
      | .ok file =>
        match file.size with
        | none => ([.opened path], handleError 500)
        | some size =>
          ([.opened path],
            { status := 200
              headers :=
                [("Content-Type", fileType.toList), ("Content-Length", Nat.toDigits 10 size)]
              body := file.content })

def handlePost (os : Os) (req : Request) : List Call × Response :=
  let missing := os.stat uploadDir = some .notExist
  let calls := if missing then [Call.made uploadDir] else []
  if missing ∧ os.mkdir uploadDir = false then (calls, handleError 500)
  else
    let path := join [uploadDir, clean req.path]
    if ¬ uploadDir.isPrefixOf path then (calls, handleError 400)
    else if os.create path = false then (calls ++ [.created path], handleError 500)
    else if os.copy path req.body = false then (calls ++ [.created path], handleError 500)
    else
      (calls ++ [.created path],
        { status := 201
          headers := [("Content-Type", "text/plain".toList), ("Location", req.path)]
          body := "File successfully uploaded.\n".toList })

/-- The switch on the method in `handleConnection`. -/
def handleRequest (os : Os) (req : Request) : List Call × Response :=
  if req.method = "GET" then handleGet os req
  else if req.method = "POST" then handlePost os req
  else ([], handleError 501)

/-! ### Names -/

/-- The name is the directory or below it: the directory is followed by a separator, and no
element behind that goes up. -/
def Confined (dir name : List Char) : Prop :=
  name = dir ∨ ∃ rest, name = dir ++ '/' :: rest ∧ ['.', '.'] ∉ rest.splitOn '/'

theorem plain_staticDir : Plain staticDir := ⟨by decide, by decide, by decide, by decide⟩

theorem plain_uploadDir : Plain uploadDir := ⟨by decide, by decide, by decide, by decide⟩

/-- **The name that a handler computes**: the elements of the path that are left, below the
directory. -/
theorem join_clean_path {dir : List Char} (hdir : Plain dir) (req : Request) :
    join [dir, clean req.path] = ['/'].intercalate (dir :: kept true req.path) := by
  rcases req.path_eq with h | h | h
  · rw [h]
    exact join_eq hdir (by decide) rfl
  · rw [h]
    refine join_eq hdir (by decide) ?_
    have hstar : ∀ e ∈ [['*']], Plain e := by
      intro e he
      rw [List.mem_singleton.mp he]
      exact ⟨by decide, by decide, by decide, by decide⟩
    exact foldl_push_plain false hstar [dir]
  · exact join_clean_rooted hdir h

/-- Plain elements do not lead out of the directory. -/
theorem confined_intercalate {dir : List Char} {elems : List (List Char)}
    (h : ∀ e ∈ elems, Plain e) : Confined dir (['/'].intercalate (dir :: elems)) := by
  cases elems with
  | nil =>
    refine .inl ?_
    simp
  | cons e elems =>
    refine .inr ⟨['/'].intercalate (e :: elems), by simp, ?_⟩
    rw [splitOn_intercalate h (List.cons_ne_nil _ _)]
    intro hmem
    exact (h _ hmem).ne_dotdot rfl

theorem confined_path {dir : List Char} (hdir : Plain dir) (req : Request) :
    Confined dir (join [dir, clean req.path]) := by
  rw [join_clean_path hdir]
  exact confined_intercalate (plain_kept req.path)

/-- The test for the prefix does not fail for a request. -/
theorem isPrefixOf_path {dir : List Char} (hdir : Plain dir) (req : Request) :
    dir.isPrefixOf (join [dir, clean req.path]) = true := by
  rw [List.isPrefixOf_iff_prefix]
  rcases confined_path hdir req with h | ⟨rest, h, -⟩
  · simp only [h, List.prefix_rfl]
  · rw [h]
    exact List.prefix_append dir _

-- the test would let a path out that does not begin with `/`
example : join [staticDir, clean "../static-old/a.html".toList] = "static-old/a.html".toList := by
  decide

/-! ### What the handlers ask for -/

theorem handleGet_calls (os : Os) (req : Request) :
    (handleGet os req).1 = [] ∨
      (handleGet os req).1 = [.opened (join [staticDir, clean req.path])] := by
  unfold handleGet
  dsimp only
  split
  · exact .inl rfl
  split
  · exact .inl rfl
  split
  · exact .inr rfl
  · exact .inr rfl
  split
  · exact .inr rfl
  · exact .inr rfl

theorem mem_handlePost_calls {os : Os} {req : Request} {call : Call}
    (h : call ∈ (handlePost os req).1) :
    call = .made uploadDir ∨ call = .created (join [uploadDir, clean req.path]) := by
  have hmade (missing : Prop) [Decidable missing]
      (hcall : call ∈ if missing then [Call.made uploadDir] else []) : call = .made uploadDir := by
    split at hcall
    · exact List.mem_singleton.mp hcall
    · cases hcall
  have hboth {missing : Prop} [Decidable missing] {name : List Char}
      (hcall : call ∈ (if missing then [Call.made uploadDir] else []) ++ [.created name]) :
      call = .made uploadDir ∨ call = .created name := by
    rcases List.mem_append.mp hcall with hcall | hcall
    · exact .inl (hmade missing hcall)
    · exact .inr (List.mem_singleton.mp hcall)
  unfold handlePost at h
  dsimp only at h
  split at h
  · exact .inl (hmade _ h)
  split at h
  · exact .inl (hmade _ h)
  split at h
  · exact hboth h
  split at h
  · exact hboth h
  · exact hboth h

/-- A file is opened in the one directory and created in the other. -/
def Call.Stays : Call → Prop
  | .opened name => Confined staticDir name
  | .created name => Confined uploadDir name
  | .made name => name = uploadDir

theorem handleGet_stays (os : Os) (req : Request) : ∀ call ∈ (handleGet os req).1, call.Stays := by
  intro call h
  rcases handleGet_calls os req with hcalls | hcalls
  · rw [hcalls] at h
    cases h
  · rw [hcalls, List.mem_singleton] at h
    rw [h]
    exact confined_path plain_staticDir req

theorem handlePost_stays (os : Os) (req : Request) :
    ∀ call ∈ (handlePost os req).1, call.Stays := by
  intro call h
  rcases mem_handlePost_calls h with rfl | rfl
  · rfl
  · exact confined_path plain_uploadDir req

/-- Whatever the method is. -/
theorem handleRequest_stays (os : Os) (req : Request) :
    ∀ call ∈ (handleRequest os req).1, call.Stays := by
  unfold handleRequest
  split
  · exact handleGet_stays os req
  split
  · exact handlePost_stays os req
  · intro call h
    cases h

/-- **No handler leaves its directory.** -/
theorem handle_confined (os : Os) (req : Request) :
    (∀ name, Call.opened name ∈ (handleGet os req).1 → Confined staticDir name) ∧
      ∀ name, Call.created name ∈ (handlePost os req).1 → Confined uploadDir name :=
  ⟨fun _ h => handleGet_stays os req _ h, fun _ h => handlePost_stays os req _ h⟩

end ExchangeLabs.HttpServer
