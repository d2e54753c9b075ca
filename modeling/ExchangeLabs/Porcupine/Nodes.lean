import ExchangeLabs.Lib.Backtracking
import ExchangeLabs.Porcupine.Checker

/-!
# The list of calls and returns

`makeLinkedEntries` builds the list of the entries of a history.  `lift` takes a call and its
return out of it, and `unlift` puts them back to where they were.

## Main definitions

* `Entry.event`, `Node.event` — what an entry or a node records.
* `IsHistory op es` — the entries are the calls and returns of the operations `op`.
* `Wired op nodes` — the nodes are these calls and returns, each call with a pointer to its return.

## Main results

* `lift_spec` — **`lift` takes one operation out, and `unlift` undoes it.**
* `prepare_spec` — **the list of the nodes is the list of the entries.**
-/

namespace ExchangeLabs.Porcupine

open ExchangeLabs.Linearization

variable {S I O : Type} {h h' : Heap I O} {l₁ l₂ : Links ℕ} {p r : ℕ} {node : Node I O}

/-! ### Taking an operation out -/

/-- `lift` in terms of its two nodes. -/
theorem lift_eq (hnode : h.nodes[p]? = some node) (hmatching : node.matching = some r)
    (hself : h.links.prev p ≠ some p) (hnext : h.links.next p ≠ none)
    (hp : h.links.unlink p = some l₁) (hself' : l₁.prev r ≠ some r)
    (hr : l₁.unlink r = some l₂) : lift h p = some { h with links := l₂ } := by
  obtain ⟨x, hx, hl₁⟩ := Option.map_eq_some_iff.mp hp
  obtain ⟨z, hz⟩ := Option.ne_none_iff_exists'.mp hnext
  obtain ⟨x', hx', hl₂⟩ := Option.map_eq_some_iff.mp hr
  have hxp : p ≠ x := by
    rintro rfl
    exact hself hx
  have hxr : r ≠ x' := by
    rintro rfl
    exact hself' hx'
  rw [hz] at hl₁
  dsimp only at hl₁
  simp only [lift, hnode, hx, hz, hmatching, Option.bind_eq_bind, Option.bind_some,
    Links.next_setNext_of_ne hxp, Links.prev_setNext, hl₁, hx', Links.next_setNext_of_ne hxr]
  cases hz' : l₁.next r with
  | none =>
    rw [hz'] at hl₂
    exact congrArg some (congrArg _ hl₂)
  | some z' =>
    rw [hz'] at hl₂
    exact congrArg some (congrArg _ hl₂)

/-- `unlift` in terms of its two nodes. -/
theorem unlift_eq (hnode : h.nodes[p]? = some node) (hmatching : node.matching = some r)
    (hself : h.links.prev r ≠ some r) (hr : h.links.relink r = some l₁)
    (hself' : l₁.prev p ≠ some p) (hnext : l₁.next p ≠ none) (hp : l₁.relink p = some l₂) :
    unlift h p = some { h with links := l₂ } := by
  obtain ⟨x', hx', hl₁⟩ := Option.map_eq_some_iff.mp hr
  obtain ⟨x, hx, hl₂⟩ := Option.map_eq_some_iff.mp hp
  obtain ⟨z, hz⟩ := Option.ne_none_iff_exists'.mp hnext
  have hxp : p ≠ x := by
    rintro rfl
    exact hself' hx
  have hxr : r ≠ x' := by
    rintro rfl
    exact hself hx'
  rw [hz] at hl₂
  dsimp only at hl₂
  -- the return was the last node, or one before another
  cases hz' : h.links.next r with
  | none =>
    rw [hz'] at hl₁
    dsimp only at hl₁
    have hz₁ : l₁.next r = none := by rw [← hl₁, Links.next_setNext_of_ne hxr, hz']
    simp only [unlift, hnode, hmatching, hx', Option.bind_eq_bind, Option.bind_some, hl₁, hz₁, hx,
      hz, Links.next_setNext_of_ne hxp, hl₂]
  | some z' =>
    rw [hz'] at hl₁
    dsimp only at hl₁
    simp only [unlift, hnode, hmatching, hx', Option.bind_eq_bind, Option.bind_some,
      Links.next_setNext_of_ne hxr, hz', hl₁, hx, hz, Links.next_setNext_of_ne hxp, hl₂]

/-- **`lift` takes a call and its return out of the list, and `unlift` undoes it.** -/
theorem lift_spec {head : ℕ} {front middle back : List ℕ} (hnode : h.nodes[p]? = some node)
    (hmatching : node.matching = some r)
    (hlinked : Linked h.links (head :: (front ++ p :: (middle ++ r :: back))))
    (hnodup : (head :: (front ++ p :: (middle ++ r :: back))).Nodup) :
    ∃ h', lift h p = some h' ∧ h'.nodes = h.nodes ∧
      Linked h'.links (head :: (front ++ (middle ++ back))) ∧ unlift h' p = some h := by
  -- the node before the call
  obtain ⟨front₁, x, hfront₁⟩ : ∃ front₁ x, head :: front = front₁ ++ [x] :=
    ⟨_, _, (List.dropLast_append_getLast (List.cons_ne_nil head front)).symm⟩
  have hcells : head :: (front ++ p :: (middle ++ r :: back)) =
      front₁ ++ x :: p :: (middle ++ r :: back) := by
    rw [← List.cons_append, hfront₁, List.append_assoc, List.singleton_append]
  rw [hcells] at hlinked hnodup
  obtain ⟨l₁, hl₁, hlinked₁, hnext₁, hprev₁⟩ := hlinked.unlink hnodup
  have hcells₁ : front₁ ++ x :: (middle ++ r :: back) =
      (head :: (front ++ middle)) ++ r :: back := by
    rw [← List.cons_append, ← List.append_assoc, ← List.cons_append, hfront₁]
    simp
  have hnodup₁ : (front₁ ++ x :: (middle ++ r :: back)).Nodup := by
    refine hnodup.sublist ?_
    exact ((List.sublist_cons_self p _).cons_cons x).append_left front₁
  -- the node before the return
  obtain ⟨front₂, x', hfront₂⟩ : ∃ front₂ x', head :: (front ++ middle) = front₂ ++ [x'] :=
    ⟨_, _, (List.dropLast_append_getLast (List.cons_ne_nil head (front ++ middle))).symm⟩
  have hcells₂ : front₁ ++ x :: (middle ++ r :: back) = front₂ ++ x' :: r :: back := by
    rw [hcells₁, hfront₂, List.append_assoc, List.singleton_append]
  rw [hcells₂] at hlinked₁ hnodup₁
  obtain ⟨l₂, hl₂, hlinked₂, hnext₂, hprev₂⟩ := hlinked₁.unlink hnodup₁
  have hresult : front₂ ++ x' :: back = head :: (front ++ (middle ++ back)) := by
    rw [← List.append_assoc front, ← List.cons_append, hfront₂, List.append_assoc,
      List.singleton_append]
  obtain ⟨-, hprevp, hnextp, -⟩ := hlinked.around
  obtain ⟨-, hprevr, -, -⟩ := hlinked₁.around
  have hpx : p ≠ x := by
    rintro rfl
    exact (List.nodup_append.mp hnodup).2.1.notMem List.mem_cons_self
  have hrx' : r ≠ x' := by
    rintro rfl
    exact (List.nodup_append.mp hnodup₁).2.1.notMem List.mem_cons_self
  have hnextp' : h.links.next p ≠ none := by
    rw [hnextp]
    simp
  refine ⟨_, lift_eq hnode hmatching (by simp [hprevp, hpx.symm]) hnextp' hl₁
    (by simp [hprevr, hrx'.symm]) hl₂, rfl, hresult ▸ hlinked₂, ?_⟩
  have hrelink := hlinked.relink_unlink hnodup hl₁
  have hrelink' := hlinked₁.relink_unlink hnodup₁ hl₂
  -- the two nodes still know where they have been
  have hprevr' : l₂.prev r = some x' := by
    refine (hprev₂ r fun hmem => ?_).trans hprevr
    have := (List.nodup_append.mp hnodup₁).2.1
    simp only [List.nodup_cons] at this
    exact this.2.1 (List.mem_of_mem_head? hmem)
  have hprevp' : l₁.prev p = some x := by
    refine (hprev₁ p fun hmem => ?_).trans hprevp
    have := (List.nodup_append.mp hnodup).2.1
    simp only [List.nodup_cons] at this
    exact this.2.1 (List.mem_of_mem_head? hmem)
  exact unlift_eq (h := { h with links := l₂ }) hnode hmatching (by simp [hprevr', hrx'.symm])
    hrelink' (by simp [hprevp', hpx.symm]) (by rwa [hnext₁ p hpx]) hrelink

/-! ### Building the list -/

/-- What an entry records. -/
def Entry.event (e : Entry I O) : Event ℕ :=
  match e.kind with
  | .callEntry => .call e.id
  | .returnEntry => .ret e.id

/-- The entries are the calls and returns of the operations `op`, with their inputs and outputs. -/
structure IsHistory (op : ℕ → I × O) (es : List (Entry I O)) : Prop where
  wellFormed : WellFormed (es.map Entry.event)
  /-- The operations have the numbers below `n`. -/
  lt : ∀ e ∈ es, e.id < es.length / 2
  input : ∀ e ∈ es, e.kind = .callEntry → e.value = .inl (op e.id).1
  output : ∀ e ∈ es, e.kind = .returnEntry → e.value = .inr (op e.id).2

/-- What a node records. -/
def Node.event (node : Node I O) : Event ℕ :=
  match node.matching with
  | none => .ret node.id.toNat
  | some _ => .call node.id.toNat

/-- The nodes of a list of `n` entries, the last one that was allocated first. -/
def cells (n : ℕ) : List ℕ := (List.range n).reverse

theorem cells_succ (n : ℕ) : cells (n + 1) = n :: cells n := by
  rw [cells, List.range_succ, List.reverse_append]
  rfl

theorem mem_cells {n p : ℕ} : p ∈ cells n ↔ p < n := by
  rw [cells, List.mem_reverse, List.mem_range]

theorem nodup_cells (n : ℕ) : (cells n).Nodup := List.nodup_reverse.mpr List.nodup_range

/-- The node of the entry `e` of the entries `rs`, which are in the order of allocation. -/
structure Holds (rs : List (Entry I O)) (node : Node I O) (e : Entry I O) : Prop where
  value : node.value = some e.value
  id : node.id = e.id
  ret : e.kind = .returnEntry → node.matching = none
  call : e.kind = .callEntry → ∃ r e', node.matching = some r ∧ rs[r]? = some e' ∧
    e'.kind = .returnEntry ∧ e'.id = e.id

/-- What `makeLinkedEntries` has built of the entries `rs`. -/
structure Built (rs : List (Entry I O)) (b : Builder I O) : Prop where
  length : b.heap.nodes.length = rs.length
  linked : Linked b.heap.links (cells rs.length)
  root : b.root = (cells rs.length).head?
  first : ∀ p, b.root = some p → b.heap.links.prev p = none
  matching : ∀ a r, b.matching a = some r →
    ∃ e, rs[r]? = some e ∧ e.kind = .returnEntry ∧ e.id = a
  matched : ∀ e ∈ rs, e.kind = .returnEntry → b.matching e.id ≠ none
  node : ∀ (p : ℕ) e, rs[p]? = some e → ∃ node, b.heap.nodes[p]? = some node ∧ Holds rs node e

variable {op : ℕ → I × O} {es rs : List (Entry I O)} {b : Builder I O} {e : Entry I O}

theorem Holds.append (hnode : Holds rs node e) (e' : Entry I O) : Holds (rs ++ [e']) node e where
  value := hnode.value
  id := hnode.id
  ret := hnode.ret
  call := by
    intro hkind
    obtain ⟨r, e₂, hmatching, hr, he₂⟩ := hnode.call hkind
    exact ⟨r, e₂, hmatching, List.getElem?_append_left (List.getElem?_eq_some_iff.mp hr).1 ▸ hr,
      he₂⟩

/-- A node is allocated and put before the first one. -/
theorem insertBefore_alloc {n : ℕ} (hlength : h.nodes.length = n)
    (hlinked : Linked h.links (cells n)) {root : Option ℕ} (hroot : root = (cells n).head?)
    (hfirst : ∀ p, root = some p → h.links.prev p = none) (node : Node I O) :
    ∃ h', insertBefore (h.alloc node).2 (h.alloc node).1 root = h' ∧
      h'.nodes = h.nodes ++ [node] ∧ Linked h'.links (n :: cells n) ∧ h'.links.prev n = none := by
  subst hlength
  have hfresh : h.nodes.length ∉ cells h.nodes.length := fun hmem =>
    lt_irrefl _ (mem_cells.mp hmem)
  have halloc : Linked (h.alloc node).2.links (cells h.nodes.length) := by
    refine hlinked.congr (fun u hu => Links.next_setNext_of_ne ?_ _ _)
      fun u hu => Links.prev_setPrev_of_ne ?_ _ _
    · rintro rfl
      exact hfresh hu
    · rintro rfl
      exact hfresh (List.mem_of_mem_tail hu)
  have hprev : (h.alloc node).2.links.prev h.nodes.length = none := Links.prev_setPrev_self _ _ _
  -- the list is empty, or has a first node, which is told of the new one
  cases hcells : cells h.nodes.length with
  | nil =>
    rw [hcells] at hroot
    subst hroot
    exact ⟨_, rfl, rfl, Links.next_setNext_self h.links _ none, hprev⟩
  | cons p rest =>
    rw [hcells] at hroot hfresh halloc
    obtain rfl : root = some p := hroot
    have hp : p ≠ h.nodes.length := fun heq => hfresh (heq ▸ List.mem_cons_self)
    have hbefore : (h.alloc node).2.links.prev p = none := by
      rw [← hfirst p rfl]
      exact Links.prev_setPrev_of_ne hp _ _
    have hnodup := nodup_cells h.nodes.length
    rw [hcells, List.nodup_cons] at hnodup
    refine ⟨_, rfl, ?_, ?_, ?_⟩ <;> simp only [insertBefore, hbefore]
    · rfl
    · exact halloc.cons hfresh hnodup.1
    · rw [Links.prev_setNext, Links.prev_setPrev_of_ne hp.symm, ← hprev]

/-- The entries that were added before keep their nodes. -/
theorem getElem?_append_some {α : Type} {xs : List α} {x y : α} {i : ℕ} (h : xs[i]? = some x) :
    (xs ++ [y])[i]? = some x :=
  (List.getElem?_append_left (List.getElem?_eq_some_iff.mp h).1).trans h

theorem getElem?_concat_cases {α : Type} {xs : List α} {x y : α} {i : ℕ}
    (h : (xs ++ [y])[i]? = some x) : xs[i]? = some x ∨ i = xs.length ∧ x = y := by
  rcases Nat.lt_trichotomy i xs.length with hlt | rfl | hgt
  · rw [List.getElem?_append_left hlt] at h
    exact .inl h
  · rw [List.getElem?_concat_length] at h
    exact .inr ⟨rfl, (Option.some.inj h).symm⟩
  · rw [List.getElem?_eq_none (by rw [List.length_append, List.length_singleton]; omega)] at h
    cases h

/-- A node for one more entry is put before the others. -/
theorem Built.put (hb : Built rs b) (hnode : Holds (rs ++ [e]) node e) {matching : ℕ → Option ℕ}
    (hmatching : ∀ a r, matching a = some r →
      ∃ e', (rs ++ [e])[r]? = some e' ∧ e'.kind = .returnEntry ∧ e'.id = a)
    (hmatched : ∀ e' ∈ rs ++ [e], e'.kind = .returnEntry → matching e'.id ≠ none) :
    Built (rs ++ [e])
      { heap := insertBefore (b.heap.alloc node).2 (b.heap.alloc node).1 b.root
        matching := matching
        root := some (b.heap.alloc node).1 } := by
  obtain ⟨h', hh', hnodes, hlinked, hprev⟩ :=
    insertBefore_alloc hb.length hb.linked hb.root hb.first node
  have hroot : (b.heap.alloc node).1 = rs.length := hb.length
  rw [hh', hroot]
  have hlength : (rs ++ [e]).length = rs.length + 1 := by simp
  refine ⟨?_, ?_, ?_, ?_, hmatching, hmatched, fun p e' hp => ?_⟩
  · simp [hnodes, hb.length]
  · rw [hlength, cells_succ]
    exact hlinked
  · rw [hlength, cells_succ]
    rfl
  · rintro p ⟨⟩
    exact hprev
  · show ∃ node, h'.nodes[p]? = some node ∧ Holds (rs ++ [e]) node e'
    rw [hnodes]
    rcases getElem?_concat_cases hp with hp | ⟨rfl, rfl⟩
    · obtain ⟨node', hnode', hholds⟩ := hb.node p e' hp
      exact ⟨node', getElem?_append_some hnode', hholds.append e⟩
    · refine ⟨node, ?_, hnode⟩
      rw [← hb.length, List.getElem?_concat_length]

/-- **One more entry** is put before the others; the return of a call is one of them. -/
theorem Built.add (hb : Built rs b) (e : Entry I O)
    (hreturn : e.kind = .callEntry → ∃ e' ∈ rs, e'.kind = .returnEntry ∧ e'.id = e.id) :
    Built (rs ++ [e]) (b.add e) := by
  cases hkind : e.kind with
  | returnEntry =>
    rw [Builder.add, hkind]
    have hroot : b.heap.nodes.length = rs.length := hb.length
    refine hb.put ⟨rfl, rfl, fun _ => rfl, ?_⟩ (fun a r hr => ?_) fun e' he' hkind' => ?_
    · intro hcall
      rw [hkind] at hcall
      cases hcall
    · by_cases ha : a = e.id
      · subst ha
        rw [Function.update_self] at hr
        obtain rfl := Option.some.inj hr
        exact ⟨e, hroot ▸ List.getElem?_concat_length, hkind, rfl⟩
      · rw [Function.update_of_ne ha] at hr
        obtain ⟨e', he', hret⟩ := hb.matching a r hr
        exact ⟨e', getElem?_append_some he', hret⟩
    · by_cases ha : e'.id = e.id
      · rw [ha, Function.update_self]
        simp
      · rw [Function.update_of_ne ha]
        rcases List.mem_append.mp he' with he' | he'
        · exact hb.matched e' he' hkind'
        · rw [List.mem_singleton] at he'
          exact absurd (congrArg _ he') ha
  -- the return of a call is among the entries after it, which are there already
  | callEntry =>
    rw [Builder.add, hkind]
    refine hb.put ⟨rfl, rfl, ?_, fun _ => ?_⟩ (fun a r hr => ?_) fun e' he' hkind' => ?_
    · intro hret
      rw [hkind] at hret
      cases hret
    · obtain ⟨e', he', hret, hid⟩ := hreturn hkind
      obtain ⟨r, hr⟩ := Option.ne_none_iff_exists'.mp (hb.matched e' he' hret)
      obtain ⟨e₂, he₂, hret₂, hid₂⟩ := hb.matching _ r hr
      exact ⟨r, e₂, hid ▸ hr, getElem?_append_some he₂, hret₂, hid₂.trans hid⟩
    · obtain ⟨e', he', hret⟩ := hb.matching a r hr
      exact ⟨e', getElem?_append_some he', hret⟩
    · rcases List.mem_append.mp he' with he' | he'
      · exact hb.matched e' he' hkind'
      · rw [List.mem_singleton.mp he', hkind] at hkind'
        cases hkind'

/-- What `makeLinkedEntries` builds, if the return of every call is behind it. -/
theorem built_foldl (hreturn : ∀ rs' e rest, rs = rs' ++ e :: rest → e.kind = .callEntry →
      ∃ e' ∈ rs', e'.kind = .returnEntry ∧ e'.id = e.id) :
    Built rs (rs.foldl Builder.add
      { heap := { nodes := [], links := { next := fun _ => none, prev := fun _ => none } }
        matching := fun _ => none
        root := none }) := by
  induction rs using List.reverseRecOn with
  | nil =>
    refine ⟨rfl, trivial, rfl, ?_, ?_, ?_, ?_⟩
    · intro p hp
      cases hp
    · intro a r hr
      cases hr
    · intro e he
      cases he
    · intro p e hp
      cases hp
  | append_singleton rs e ih =>
    rw [List.foldl_append, List.foldl_cons, List.foldl_nil]
    refine (ih fun rs' e' rest heq hkind => ?_).add e fun hkind => hreturn rs e [] rfl hkind
    refine hreturn rs' e' (rest ++ [e]) ?_ hkind
    rw [heq, List.append_assoc, List.cons_append]

/-- The return of a call is recorded behind it. -/
theorem IsHistory.exists_return {front back : List (Entry I O)} (hes : IsHistory op es)
    (heq : es = front ++ e :: back) (hkind : e.kind = .callEntry) :
    ∃ e' ∈ back, e'.kind = .returnEntry ∧ e'.id = e.id := by
  have hwf := hes.wellFormed
  have hevent : e.event = .call e.id := by rw [Entry.event, hkind]
  rw [heq, List.map_append, List.map_cons, hevent] at hwf
  have hpair := hwf.returns e.id (by simp)
  have hret : Event.ret e.id ∈ back.map Entry.event := by
    rcases List.mem_append.mp (hpair.subset (List.mem_cons_of_mem _ List.mem_cons_self)) with
      hmem | hmem
    · refine absurd hpair (not_sublist_swap hwf.nodup ?_)
      exact (List.singleton_sublist.mpr hmem).append
        (List.singleton_sublist.mpr List.mem_cons_self)
    · exact (List.mem_cons.mp hmem).resolve_left fun heq => by cases heq
  obtain ⟨e', he', hevent'⟩ := List.mem_map.mp hret
  refine ⟨e', he', ?_⟩
  unfold Entry.event at hevent'
  split at hevent'
  · cases hevent'
  · next hkind' => exact ⟨hkind', Event.ret.inj hevent'⟩

/-! ### The list before the search -/

/-- What is recorded at a node. -/
def eventAt (nodes : List (Node I O)) (p : ℕ) : Event ℕ :=
  match nodes[p]? with
  | some node => node.event
  | none => .ret 0

/-- The first `n` nodes are the calls and returns of the operations `op`. -/
structure Wired (op : ℕ → I × O) (n : ℕ) (nodes : List (Node I O)) : Prop where
  call : ∀ p < n, ∀ a, eventAt nodes p = .call a → ∃ node r node', nodes[p]? = some node ∧
    node.id = a ∧ node.value = some (.inl (op a).1) ∧ node.matching = some r ∧
    nodes[r]? = some node' ∧ node'.value = some (.inr (op a).2) ∧ r < n ∧ eventAt nodes r = .ret a
  ret : ∀ p < n, ∀ a, eventAt nodes p = .ret a → ∃ node, nodes[p]? = some node ∧
    node.matching = none

theorem Holds.event (hnode : Holds rs node e) : node.event = e.event := by
  unfold Node.event Entry.event
  cases hkind : e.kind with
  | returnEntry =>
    rw [hnode.ret hkind, hnode.id]
    rfl
  | callEntry =>
    obtain ⟨r, -, hmatching, -⟩ := hnode.call hkind
    rw [hmatching, hnode.id]
    rfl

theorem eventAt_eq {nodes : List (Node I O)} (hnode : nodes[p]? = some node) :
    eventAt nodes p = node.event := by
  rw [eventAt, hnode]

/-- The nodes of the entries are wired. -/
theorem wired_of_holds (hes : IsHistory op es) {nodes : List (Node I O)}
    (hnodes : ∀ (p : ℕ) e, es.reverse[p]? = some e →
      ∃ node, nodes[p]? = some node ∧ Holds es.reverse node e) : Wired op es.length nodes := by
  have hentry : ∀ p < es.length, ∃ e node, es.reverse[p]? = some e ∧ e ∈ es ∧
      nodes[p]? = some node ∧ Holds es.reverse node e := by
    intro p hp
    have hp' : p < es.reverse.length := by simpa using hp
    have he := List.getElem?_eq_getElem hp'
    obtain ⟨node, hnode, hholds⟩ := hnodes p _ he
    exact ⟨_, node, he, List.mem_reverse.mp (List.getElem_mem hp'), hnode, hholds⟩
  refine ⟨fun p hp a ha => ?_, fun p hp a ha => ?_⟩
  · obtain ⟨e, node, -, hmem, hnode, hholds⟩ := hentry p hp
    rw [eventAt_eq hnode, hholds.event] at ha
    cases hkind : e.kind with
    | returnEntry =>
      rw [Entry.event, hkind] at ha
      cases ha
    | callEntry =>
      rw [Entry.event, hkind] at ha
      obtain rfl := Event.call.inj ha
      obtain ⟨r, e', hmatching, hr, hkind', hid'⟩ := hholds.call hkind
      have hlt : r < es.length := by
        have := (List.getElem?_eq_some_iff.mp hr).1
        rwa [List.length_reverse] at this
      obtain ⟨e₂, node', he₂, hmem', hnode', hholds'⟩ := hentry r hlt
      obtain rfl : e' = e₂ := Option.some.inj (hr.symm.trans he₂)
      refine ⟨node, r, node', hnode, hholds.id, ?_, hmatching, hnode', ?_, hlt, ?_⟩
      · rw [hholds.value, hes.input e hmem hkind]
      · rw [hholds'.value, hes.output e' hmem' hkind', hid']
      · rw [eventAt_eq hnode', hholds'.event, Entry.event, hkind', hid']
  · obtain ⟨e, node, -, -, hnode, hholds⟩ := hentry p hp
    rw [eventAt_eq hnode, hholds.event] at ha
    refine ⟨node, hnode, hholds.ret ?_⟩
    cases hkind : e.kind with
    | returnEntry => rfl
    | callEntry =>
      rw [Entry.event, hkind] at ha
      cases ha

theorem map_eventAt {nodes : List (Node I O)} (hnodes : ∀ (p : ℕ) e, es.reverse[p]? = some e →
      ∃ node, nodes[p]? = some node ∧ Holds es.reverse node e) :
    (cells es.length).map (eventAt nodes) = es.map Entry.event := by
  have hreverse : (List.range es.length).map (eventAt nodes) = es.reverse.map Entry.event := by
    refine List.ext_getElem (by simp) fun p hp hp' => ?_
    rw [List.length_map] at hp'
    obtain ⟨node, hnode, hholds⟩ := hnodes p _ (List.getElem?_eq_getElem hp')
    rw [List.getElem_map, List.getElem_map, List.getElem_range, eventAt_eq hnode, hholds.event]
  rw [cells, List.map_reverse, hreverse, List.map_reverse, List.reverse_reverse]

theorem length_of_linked {links : Links ℕ} {cs : List ℕ} (hlinked : Linked links cs) {fuel : ℕ}
    (hfuel : cs.length ≤ fuel) : length links fuel cs.head? = some cs.length := by
  induction cs generalizing fuel with
  | nil => cases fuel <;> rfl
  | cons p cs ih =>
    cases fuel with
    | zero => simp at hfuel
    | succ fuel =>
      rw [List.head?_cons, length, hlinked.next_head, ih hlinked.tail (by simpa using hfuel)]
      rfl

/-- **The list of the nodes is the list of the entries**, behind `headEntry`. -/
theorem prepare_spec (hes : IsHistory op es) (model : Model S I O) :
    ∃ s, prepare model es = some (es.length, es.length / 2, s) ∧
      Linked s.heap.links (es.length :: cells es.length) ∧ Wired op es.length s.heap.nodes ∧
      (cells es.length).map (eventAt s.heap.nodes) = es.map Entry.event ∧
      s.entry = (cells es.length).head? ∧ s.state = model.init ∧
      s.linearized = newBitset (es.length / 2) ∧ s.cache = (fun _ => []) ∧ s.calls = [] ∧
      s.longest = List.replicate (es.length / 2) none := by
  have hb : Built es.reverse (makeLinkedEntries es) := by
    refine built_foldl fun rs' e rest heq hkind => ?_
    have heq' : es = rest.reverse ++ e :: rs'.reverse := by
      have := congrArg List.reverse heq
      simpa using this
    obtain ⟨e', he', hret⟩ := hes.exists_return heq' hkind
    exact ⟨e', List.mem_reverse.mp he', hret⟩
  have hlength : (makeLinkedEntries es).heap.nodes.length = es.length :=
    hb.length.trans List.length_reverse
  have hlinked := hb.linked
  have hroot := hb.root
  rw [List.length_reverse] at hlinked hroot
  obtain ⟨h', hh', hnodes', hlinked', -⟩ := insertBefore_alloc hlength hlinked hroot hb.first
    { value := none, matching := none, id := -1 }
  have hholds : ∀ (p : ℕ) e, es.reverse[p]? = some e →
      ∃ node, h'.nodes[p]? = some node ∧ Holds es.reverse node e := by
    intro p e hp
    obtain ⟨node, hnode, hholds⟩ := hb.node p e hp
    exact ⟨node, hnodes' ▸ getElem?_append_some hnode, hholds⟩
  have hlen : length (makeLinkedEntries es).heap.links (makeLinkedEntries es).heap.nodes.length
      (makeLinkedEntries es).root = some es.length := by
    rw [hroot, length_of_linked hlinked (by rw [hlength, cells, List.length_reverse,
      List.length_range]), cells, List.length_reverse, List.length_range]
  refine ⟨{ heap := h'
            entry := (makeLinkedEntries es).root
            state := model.init
            linearized := newBitset (es.length / 2)
            cache := fun _ => []
            calls := []
            longest := List.replicate (es.length / 2) none }, ?_, hlinked',
    wired_of_holds hes hholds, map_eventAt hholds, hroot, rfl, rfl, rfl, rfl, rfl⟩
  rw [prepare, hlen, ← hh']
  simp only [Option.bind_eq_bind, Option.bind_some, Heap.alloc, hlength]

end ExchangeLabs.Porcupine
