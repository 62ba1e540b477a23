import Exec02.Lib.Heap
import Exec02.Lib.Machine
import Mathlib.Data.List.InsertIdx

/-!
# The singly linked list

`MyList.h` and `MyList.c`. A list is a header (`size`, `head`, `tail`) over nodes allocated one at
a time, and its two operations work behind a node the caller names: `element == NULL` stands for
the front. Nothing in the header is recomputed, so `tail` is right only if every branch of both
operations keeps it so.

## Reading the model

* a pointer is an `Option`, with `none` for `NULL`; a `void *` is an opaque `Option δ`
* `malloc` is an input: the address it answers, or `none`. Its cell keeps whatever was there
* dereferencing `NULL` or a node that is not live is undefined behaviour: the result is `none`
* an out parameter is passed in and returned, so a call that must not write it returns it as is
* `size` counts the nodes without a bound: a list does not come to `2 ^ 31` of them

## Main results

* `listInsNext_front`, `listInsNext_after`, `listRemNext_front`, `listRemNext_after` — what each
  branch does to a represented list; every other module goes through these
* `listMachine_refines` — the list refines the reference operations on sequences
* `list_run_refines` — hence every run from `listInit` does
-/

namespace Exec02

variable {δ : Type}

/-- A node: `struct ListElmt_`. -/
structure ListElmt (δ : Type) where
  data : Option δ
  next : Option Addr

/-- The header: `struct List_`, without the `match` callback, which no list function touches. -/
structure MyList where
  size : ℤ
  destroy : Option Addr
  head : Option Addr
  tail : Option Addr

/-- A list header together with the heap its nodes live in. -/
structure ListMem (δ : Type) where
  list : MyList
  nodes : Heap Addr (ListElmt δ)

namespace ListMem

variable {s s' : ListMem δ} {a e x : Addr} {d : Option δ} {ns l₁ l₂ : List Addr}

/-! ### Memory accesses -/

/-- The live nodes. -/
abbrev live (s : ListMem δ) : Finset Addr := s.nodes.live

/-- The `next` field stored at an address. -/
def next (s : ListMem δ) (a : Addr) : Option Addr := (s.nodes.cell a).next

/-- The `data` field stored at an address. -/
def data (s : ListMem δ) (a : Addr) : Option δ := (s.nodes.cell a).data

/-- `element->next`. -/
def getNext (s : ListMem δ) (a : Addr) : Option (Option Addr) := (s.nodes.load a).map (·.next)

/-- `element->data`. -/
def getData (s : ListMem δ) (a : Addr) : Option (Option δ) := (s.nodes.load a).map (·.data)

/-- `element->next = p`. -/
def setNext (s : ListMem δ) (a : Addr) (p : Option Addr) : Option (ListMem δ) := do
  let cell ← s.nodes.load a
  let nodes ← s.nodes.store a { cell with next := p }
  return { s with nodes := nodes }

/-- `element->data = d`. -/
def setData (s : ListMem δ) (a : Addr) (d : Option δ) : Option (ListMem δ) := do
  let cell ← s.nodes.load a
  let nodes ← s.nodes.store a { cell with data := d }
  return { s with nodes := nodes }

/-- A successful `malloc(sizeof(ListElmt))`. -/
def allocNode (s : ListMem δ) (a : Addr) : ListMem δ := { s with nodes := s.nodes.alloc a }

/-- `free(element)`. -/
def freeNode (s : ListMem δ) (a : Addr) : Option (ListMem δ) :=
  (s.nodes.free a).map fun nodes => { s with nodes := nodes }

/-- `list->head = p`. -/
def setHead (s : ListMem δ) (p : Option Addr) : ListMem δ :=
  { s with list := { s.list with head := p } }

/-- `list->tail = p`. -/
def setTail (s : ListMem δ) (p : Option Addr) : ListMem δ :=
  { s with list := { s.list with tail := p } }

/-- `list->size = n`. -/
def setSize (s : ListMem δ) (n : ℤ) : ListMem δ := { s with list := { s.list with size := n } }

end ListMem

/-! ### The operations -/

/-- `list_init`. -/
def listInit (s : ListMem δ) (destroy : Option Addr) : ListMem δ :=
  { s with list := { size := 0, destroy := destroy, head := none, tail := none } }

/-- `list_ins_next`, with the answer of its `malloc`. -/
def listInsNext (s : ListMem δ) (element : Option Addr) (data : Option δ) (malloc : Option Addr) :
    Option (ℤ × ListMem δ) :=
  match malloc with
  | none => some (-1, s)
  | some newElement => do
    let s ← (s.allocNode newElement).setData newElement data
    let s ← match element with
      | none => do
        let s := if s.list.size = 0 then s.setTail (some newElement) else s
        let s ← s.setNext newElement s.list.head
        pure (s.setHead (some newElement))
      | some element => do
        let s := if (← s.getNext element) = none then s.setTail (some newElement) else s
        let s ← s.setNext newElement (← s.getNext element)
        s.setNext element (some newElement)
    return (0, s.setSize (s.list.size + 1))

/-- The common end of both branches of `list_rem_next`. -/
def listRemNext.release (s : ListMem δ) (oldElement : Addr) (data : Option δ) :
    Option (ℤ × ListMem δ × Option δ) := do
  let s ← s.setData oldElement none
  let s ← s.setNext oldElement none
  let s ← s.freeNode oldElement
  return (0, s.setSize (s.list.size - 1), data)

/-- `list_rem_next`; `data` is what `*data` held before the call. -/
def listRemNext (s : ListMem δ) (element : Option Addr) (data : Option δ) :
    Option (ℤ × ListMem δ × Option δ) :=
  if s.list.size = 0 then some (-1, s, data)
  else
    match element with
    | none => do
      let oldElement ← s.list.head
      let data ← s.getData oldElement
      let s := s.setHead (← s.getNext oldElement)
      let s := if s.list.size = 1 then s.setTail none else s
      listRemNext.release s oldElement data
    | some element => do
      match ← s.getNext element with
      | none => return (-1, s, data)
      | some oldElement =>
        let data ← s.getData oldElement
        let s ← s.setNext element (← s.getNext oldElement)
        let s := if (← s.getNext element) = none then s.setTail (some element) else s
        listRemNext.release s oldElement data

/-! ### What the accesses do

On live nodes every access succeeds; what it changes is one field of one node, and the lemmas say
so in terms of `next` and `data`, so that no later proof looks inside a cell. -/

namespace ListMem

variable {s s' : ListMem δ} {a e x : Addr} {d : Option δ} {p : Option Addr}
  {ns l₁ l₂ : List Addr}

theorem getNext_of_mem (ha : a ∈ s.live) : s.getNext a = some (s.next a) := by
  rw [getNext, Heap.load_of_mem ha]
  rfl

theorem getData_of_mem (ha : a ∈ s.live) : s.getData a = some (s.data a) := by
  rw [getData, Heap.load_of_mem ha]
  rfl

/-- The state after a store to one node. -/
def putCell (s : ListMem δ) (a : Addr) (c : ListElmt δ) : ListMem δ :=
  { s with nodes := ⟨Function.update s.nodes.cell a c, s.nodes.live⟩ }

theorem next_putCell (s : ListMem δ) (a : Addr) (c : ListElmt δ) :
    (s.putCell a c).next = Function.update s.next a c.next := by
  funext b
  by_cases hb : b = a
  · subst hb; simp [next, putCell]
  · simp [next, putCell, Function.update_of_ne hb]

theorem data_putCell (s : ListMem δ) (a : Addr) (c : ListElmt δ) :
    (s.putCell a c).data = Function.update s.data a c.data := by
  funext b
  by_cases hb : b = a
  · subst hb; simp [data, putCell]
  · simp [data, putCell, Function.update_of_ne hb]

theorem setNext_of_mem (ha : a ∈ s.live) (p : Option Addr) :
    ∃ s', s.setNext a p = some s' ∧ s'.list = s.list ∧ s'.live = s.live ∧ s'.data = s.data ∧
      s'.next = Function.update s.next a p := by
  refine ⟨s.putCell a ⟨s.data a, p⟩, ?_, rfl, rfl, ?_, next_putCell ..⟩
  · simp [setNext, Heap.load_of_mem ha, Heap.store_of_mem ha, putCell, data]
  · rw [data_putCell, Function.update_eq_self]

theorem setData_of_mem (ha : a ∈ s.live) (d : Option δ) :
    ∃ s', s.setData a d = some s' ∧ s'.list = s.list ∧ s'.live = s.live ∧ s'.next = s.next ∧
      s'.data = Function.update s.data a d := by
  refine ⟨s.putCell a ⟨d, s.next a⟩, ?_, rfl, rfl, ?_, data_putCell ..⟩
  · simp [setData, Heap.load_of_mem ha, Heap.store_of_mem ha, putCell, next]
  · rw [next_putCell, Function.update_eq_self]

theorem freeNode_of_mem (ha : a ∈ s.live) :
    s.freeNode a = some { s with nodes := ⟨s.nodes.cell, s.live.erase a⟩ } := by
  rw [freeNode, Heap.free_of_mem ha]
  rfl

/-! ### Represented lists -/

/-- `s.Represents ns`: the list of `s` is the chain of live nodes `ns`, and its header agrees. -/
structure Represents (s : ListMem δ) (ns : List Addr) : Prop where
  /-- The nodes met from `head` through `next`. -/
  chain : Chain s.next s.list.head ns
  /-- They are allocated. -/
  live : ∀ a ∈ ns, a ∈ s.live
  /-- `size` counts them. -/
  size : s.list.size = ns.length
  /-- `tail` is the last of them. -/
  tail : s.list.tail = ns.getLast?

/-- The nodes of the list, found by walking it: at most `size` of them, starting at `head`. -/
def chain (s : ListMem δ) : List Addr := walk s.next s.list.size.toNat s.list.head

/-- The data read along the list. -/
def contents (s : ListMem δ) : List (Option δ) := s.chain.map s.data

namespace Represents

theorem chain_eq (hs : s.Represents ns) : s.chain = ns := by
  have h := hs.chain.walk_eq
  rwa [show ns.length = s.list.size.toNat by rw [hs.size]; rfl] at h

theorem contents_eq (hs : s.Represents ns) : s.contents = ns.map s.data := by
  rw [contents, hs.chain_eq]

theorem head (hs : s.Represents ns) : s.list.head = ns.head? := hs.chain.head_eq

theorem nodup (hs : s.Represents ns) : ns.Nodup := hs.chain.nodup

theorem size_eq_zero_iff (hs : s.Represents ns) : s.list.size = 0 ↔ ns = [] := by
  rw [hs.size]
  simp

end Represents

/-! ### Header updates

They touch no node. -/

@[simp] theorem next_setHead (s : ListMem δ) (p : Option Addr) : (s.setHead p).next = s.next := rfl

@[simp] theorem next_setTail (s : ListMem δ) (p : Option Addr) : (s.setTail p).next = s.next := rfl

@[simp] theorem next_setSize (s : ListMem δ) (n : ℤ) : (s.setSize n).next = s.next := rfl

@[simp] theorem data_setHead (s : ListMem δ) (p : Option Addr) : (s.setHead p).data = s.data := rfl

@[simp] theorem data_setTail (s : ListMem δ) (p : Option Addr) : (s.setTail p).data = s.data := rfl

@[simp] theorem data_setSize (s : ListMem δ) (n : ℤ) : (s.setSize n).data = s.data := rfl

@[simp] theorem live_setHead (s : ListMem δ) (p : Option Addr) : (s.setHead p).live = s.live := rfl

@[simp] theorem live_setTail (s : ListMem δ) (p : Option Addr) : (s.setTail p).live = s.live := rfl

@[simp] theorem live_setSize (s : ListMem δ) (n : ℤ) : (s.setSize n).live = s.live := rfl

@[simp] theorem list_setHead (s : ListMem δ) (p : Option Addr) :
    (s.setHead p).list = { s.list with head := p } := rfl

@[simp] theorem list_setTail (s : ListMem δ) (p : Option Addr) :
    (s.setTail p).list = { s.list with tail := p } := rfl

@[simp] theorem list_setSize (s : ListMem δ) (n : ℤ) :
    (s.setSize n).list = { s.list with size := n } := rfl

/-- A conditional assignment to `tail`, as an assignment. -/
theorem ite_setTail (s : ListMem δ) (c : Prop) [Decidable c] (p : Option Addr) :
    (if c then s.setTail p else s) = s.setTail (if c then p else s.list.tail) := by
  split <;> rfl

theorem represents_listInit (s : ListMem δ) (destroy : Option Addr) :
    (listInit s destroy).Represents [] :=
  ⟨.nil, by simp, rfl, rfl⟩

end ListMem

/-! ### What the operations do to a represented list -/

section Operations

open ListMem

variable {s : ListMem δ} {a e x : Addr} {ns l₁ l₂ : List Addr}

/-- `list_ins_next` at the front. -/
theorem listInsNext_front (hs : s.Represents ns) (hx : x ∉ s.live) (d : Option δ) :
    ∃ s', listInsNext s none d (some x) = some (0, s') ∧ s'.Represents (x :: ns) ∧
      s'.data = Function.update s.data x d ∧ s'.live = insert x s.live := by
  obtain ⟨s₁, h₁, hlist₁, hlive₁, hnext₁, hdata₁⟩ :
      ∃ s₁, (s.allocNode x).setData x d = some s₁ ∧ s₁.list = s.list ∧ s₁.live = insert x s.live ∧
        s₁.next = s.next ∧ s₁.data = Function.update s.data x d :=
    setData_of_mem (s := s.allocNode x) (Finset.mem_insert_self ..) d
  obtain ⟨s₂, h₂, hlist₂, hlive₂, hdata₂, hnext₂⟩ :=
    setNext_of_mem (s := s₁.setTail (if s₁.list.size = 0 then some x else s₁.list.tail)) (a := x)
      (by rw [live_setTail, hlive₁]; exact Finset.mem_insert_self ..) s₁.list.head
  rw [list_setTail, hlist₁] at hlist₂
  rw [live_setTail, hlive₁] at hlive₂
  rw [data_setTail, hdata₁] at hdata₂
  rw [next_setTail, hnext₁, hlist₁] at hnext₂
  have hxns : x ∉ ns := fun hmem => hx (hs.live x hmem)
  refine ⟨(s₂.setHead (some x)).setSize (s.list.size + 1), ?_, ⟨?_, ?_, ?_, ?_⟩, hdata₂, hlive₂⟩
  · simp only [listInsNext, h₁, Option.bind_eq_bind, Option.bind_some, ite_setTail, list_setTail,
      h₂, Option.pure_def, list_setHead, hlist₂]
  · refine .cons ?_
    rw [next_setSize, next_setHead, hnext₂, Function.update_self]
    refine hs.chain.congr ?_
    intro a ha
    rw [Function.update_of_ne (by rintro rfl; exact hxns ha)]
  · intro a ha
    rw [live_setSize, live_setHead, hlive₂]
    rcases List.mem_cons.mp ha with rfl | ha
    · exact Finset.mem_insert_self ..
    · exact Finset.mem_insert_of_mem (hs.live a ha)
  · simp [hs.size]
  · simp only [list_setSize, list_setHead, hlist₂, hs.size_eq_zero_iff, hs.tail]
    cases ns with
    | nil => rfl
    | cons a ns => simp

/-- `list_ins_next` behind a node of the list. -/
theorem listInsNext_after (hs : s.Represents (l₁ ++ e :: l₂)) (hx : x ∉ s.live) (d : Option δ) :
    ∃ s', listInsNext s (some e) d (some x) = some (0, s') ∧
      s'.Represents (l₁ ++ e :: x :: l₂) ∧ s'.data = Function.update s.data x d ∧
      s'.live = insert x s.live := by
  have he : e ∈ s.live := hs.live e (by simp)
  have hxe : x ≠ e := by rintro rfl; exact hx he
  obtain ⟨s₁, h₁, hlist₁, hlive₁, hnext₁, hdata₁⟩ :
      ∃ s₁, (s.allocNode x).setData x d = some s₁ ∧ s₁.list = s.list ∧ s₁.live = insert x s.live ∧
        s₁.next = s.next ∧ s₁.data = Function.update s.data x d :=
    setData_of_mem (s := s.allocNode x) (Finset.mem_insert_self ..) d
  have hget : s₁.getNext e = some (s.next e) := by
    rw [getNext_of_mem (by rw [hlive₁]; exact Finset.mem_insert_of_mem he), hnext₁]
  have hget' : ∀ p, (s₁.setTail p).getNext e = some (s.next e) := fun p => hget
  obtain ⟨s₂, h₂, hlist₂, hlive₂, hdata₂, hnext₂⟩ :=
    setNext_of_mem (s := s₁.setTail (if s.next e = none then some x else s₁.list.tail)) (a := x)
      (by rw [live_setTail, hlive₁]; exact Finset.mem_insert_self ..) (s.next e)
  rw [list_setTail, hlist₁] at hlist₂
  rw [live_setTail, hlive₁] at hlive₂
  rw [data_setTail, hdata₁] at hdata₂
  rw [next_setTail, hnext₁] at hnext₂
  obtain ⟨s₃, h₃, hlist₃, hlive₃, hdata₃, hnext₃⟩ :=
    setNext_of_mem (s := s₂) (a := e) (by rw [hlive₂]; exact Finset.mem_insert_of_mem he) (some x)
  have hxns : x ∉ l₁ ++ e :: l₂ := fun hmem => hx (hs.live x hmem)
  refine ⟨s₃.setSize (s.list.size + 1), ?_, ⟨?_, ?_, ?_, ?_⟩, by rw [data_setSize, hdata₃, hdata₂],
    by rw [live_setSize, hlive₃, hlive₂]⟩
  · simp only [listInsNext, h₁, Option.bind_eq_bind, Option.bind_some, hget, ite_setTail, hget', h₂,
      h₃, hlist₃, hlist₂, Option.pure_def]
  · rw [list_setSize, hlist₃, hlist₂]
    refine hs.chain.insertAfter hxns ?_ ?_ ?_
    · rw [next_setSize, hnext₃, Function.update_self]
    · rw [next_setSize, hnext₃, Function.update_of_ne hxe, hnext₂, Function.update_self]
    · intro a ha hae
      rw [next_setSize, hnext₃, Function.update_of_ne hae, hnext₂,
        Function.update_of_ne (by rintro rfl; exact hxns ha)]
  · intro a ha
    rw [live_setSize, hlive₃, hlive₂]
    by_cases hax : a = x
    · exact hax ▸ Finset.mem_insert_self ..
    · exact Finset.mem_insert_of_mem (hs.live a (by simpa [hax] using ha))
  · simp [hs.size]
    omega
  · simp only [list_setSize, hlist₃, hlist₂, hs.chain.next_eq_none_iff, hs.tail]
    cases l₂ with
    | nil => simp
    | cons a l₂ => simp [List.getLast?_append, List.getLast?_cons]

/-- The end of `list_rem_next` only forgets the node it is given. -/
theorem listRemNext_release (ha : a ∈ s.live) (d : Option δ) :
    ∃ s', listRemNext.release s a d = some (0, s', d) ∧
      s'.list = { s.list with size := s.list.size - 1 } ∧ s'.live = s.live.erase a ∧
      (∀ b, b ≠ a → s'.next b = s.next b) ∧ ∀ b, b ≠ a → s'.data b = s.data b := by
  obtain ⟨s₁, h₁, hlist₁, hlive₁, hnext₁, hdata₁⟩ := setData_of_mem ha none
  obtain ⟨s₂, h₂, hlist₂, hlive₂, hdata₂, hnext₂⟩ := setNext_of_mem (hlive₁ ▸ ha) none
  refine ⟨_, by simp only [listRemNext.release, h₁, h₂, Option.bind_eq_bind, Option.bind_some,
    freeNode_of_mem (hlive₂ ▸ hlive₁ ▸ ha)]; rfl, ?_, ?_, ?_, ?_⟩
  · simp [hlist₂, hlist₁]
  · change s₂.live.erase a = _
    rw [hlive₂, hlive₁]
  · intro b hb
    change s₂.next b = _
    rw [hnext₂, Function.update_of_ne hb, hnext₁]
  · intro b hb
    change s₂.data b = _
    rw [hdata₂, hdata₁, Function.update_of_ne hb]

/-- `list_rem_next` at the front. -/
theorem listRemNext_front (hs : s.Represents (a :: ns)) (out : Option δ) :
    ∃ s', listRemNext s none out = some (0, s', s.data a) ∧ s'.Represents ns ∧
      (∀ b, b ≠ a → s'.data b = s.data b) ∧ s'.live = s.live.erase a := by
  have ha : a ∈ s.live := hs.live a (List.mem_cons_self ..)
  have hnd := List.nodup_cons.mp hs.nodup
  obtain ⟨s', h', hlist', hlive', hnext', hdata'⟩ :=
    listRemNext_release (s := (s.setHead (s.next a)).setTail
      (if s.list.size = 1 then none else s.list.tail)) ha (s.data a)
  have hchain : Chain s.next (s.next a) ns := hs.chain.tail
  refine ⟨s', ?_, ⟨?_, ?_, ?_, ?_⟩, hdata', hlive'⟩
  · have hsize : s.list.size ≠ 0 := by rw [hs.size]; simp; omega
    simp only [listRemNext, hsize, if_false, hs.head, List.head?_cons, Option.bind_eq_bind,
      Option.bind_some, getData_of_mem ha, getNext_of_mem ha]
    rw [ite_setTail]
    exact h'
  · rw [hlist']
    exact hchain.congr fun b hb => hnext' b (by rintro rfl; exact hnd.1 hb)
  · intro b hb
    rw [hlive']
    exact Finset.mem_erase_of_ne_of_mem (by rintro rfl; exact hnd.1 hb)
      (hs.live b (List.mem_cons_of_mem _ hb))
  · simp [hlist', hs.size]
  · simp only [hlist', list_setTail, list_setHead, hs.size, hs.tail]
    cases ns with
    | nil => simp
    | cons b ns => simp; omega

/-- Nothing is removed from an empty list. -/
theorem listRemNext_empty (hs : s.Represents []) (element : Option Addr) (out : Option δ) :
    listRemNext s element out = some (-1, s, out) := by
  unfold listRemNext
  rw [if_pos (hs.size_eq_zero_iff.mpr rfl)]

/-- Nothing is removed behind the last node. -/
theorem listRemNext_last (hs : s.Represents (l₁ ++ [e])) (out : Option δ) :
    listRemNext s (some e) out = some (-1, s, out) := by
  have hsize : s.list.size ≠ 0 := by rw [hs.size]; simp; omega
  have hnext : s.next e = none := hs.chain.next_eq_none_iff.mpr rfl
  simp [listRemNext, hsize, getNext_of_mem (hs.live e (by simp)), hnext]

/-- The node removed behind `e` is none of those that stay. -/
theorem ListMem.Represents.ne_of_mem_erased (hs : s.Represents (l₁ ++ e :: a :: l₂)) {b : Addr}
    (hb : b ∈ l₁ ++ e :: l₂) : b ≠ a := by
  rintro rfl
  have hnd := hs.nodup
  rw [show l₁ ++ e :: b :: l₂ = (l₁ ++ [e]) ++ b :: l₂ by simp] at hnd
  exact (List.nodup_middle.mp hnd).notMem (by simpa using hb)

/-- `list_rem_next` behind a node that has a successor. -/
theorem listRemNext_after (hs : s.Represents (l₁ ++ e :: a :: l₂)) (out : Option δ) :
    ∃ s', listRemNext s (some e) out = some (0, s', s.data a) ∧ s'.Represents (l₁ ++ e :: l₂) ∧
      (∀ b, b ≠ a → s'.data b = s.data b) ∧ s'.live = s.live.erase a := by
  have he : e ∈ s.live := hs.live e (by simp)
  have ha : a ∈ s.live := hs.live a (by simp)
  have hane : ∀ b ∈ l₁ ++ e :: l₂, b ≠ a := fun b hb => hs.ne_of_mem_erased hb
  have hnexte : s.next e = some a := by simpa using hs.chain.next_eq
  obtain ⟨s₁, h₁, hlist₁, hlive₁, hdata₁, hnext₁⟩ := setNext_of_mem he (s.next a)
  obtain ⟨s', h', hlist', hlive', hnext', hdata'⟩ :=
    listRemNext_release (s := s₁.setTail (if s.next a = none then some e else s₁.list.tail))
      (by rw [live_setTail, hlive₁]; exact ha) (s.data a)
  refine ⟨s', ?_, ⟨?_, ?_, ?_, ?_⟩, ?_, by rw [hlive', live_setTail, hlive₁]⟩
  · have hsize : s.list.size ≠ 0 := by rw [hs.size]; simp; omega
    have hget : s₁.getNext e = some (s.next a) := by
      rw [getNext_of_mem (hlive₁ ▸ he), hnext₁, Function.update_self]
    simp only [listRemNext, hsize, if_false, getNext_of_mem he, hnexte, Option.bind_eq_bind,
      Option.bind_some, getData_of_mem ha, getNext_of_mem ha, h₁, hget, ite_setTail]
    exact h'
  · rw [hlist', list_setTail, hlist₁]
    refine hs.chain.eraseAfter ?_ ?_
    · rw [hnext' e (hane e (by simp)), next_setTail, hnext₁, Function.update_self]
    · intro b hb hbe
      rw [hnext' b (hane b hb), next_setTail, hnext₁, Function.update_of_ne hbe]
  · intro b hb
    rw [hlive', live_setTail, hlive₁]
    refine Finset.mem_erase_of_ne_of_mem (hane b hb) (hs.live b ?_)
    simp only [List.mem_append, List.mem_cons] at hb ⊢
    tauto
  · simp only [hlist', list_setTail, hlist₁, hs.size, List.length_append, List.length_cons]
    omega
  · have hchain : Chain s.next s.list.head ((l₁ ++ [e]) ++ a :: l₂) := by simpa using hs.chain
    have hlast := hchain.next_eq_none_iff
    simp only [hlist', list_setTail, hlist₁, hlast, hs.tail]
    cases l₂ with
    | nil => simp
    | cons b l₂ => simp [List.getLast?_append, List.getLast?_cons]
  · intro b hb
    rw [hdata' b hb, data_setTail, hdata₁]

end Operations

/-! ### The reference operations

What the two calls mean for the sequence a list stands for. A position takes the place of the
node pointer, and `none` is the front again. -/

/-- Insert `x` at the front, or right behind a position. -/
def seqInsNext {α : Type*} (pos : Option ℕ) (x : α) (xs : List α) : List α :=
  match pos with
  | none => x :: xs
  | some i => xs.insertIdx (i + 1) x

/-- Remove the front, or the successor of a position, and return it. -/
def seqRemNext {α : Type*} (pos : Option ℕ) (xs : List α) : Option (α × List α) :=
  match pos with
  | none => xs.head?.map fun x => (x, xs.tail)
  | some i => xs[i + 1]?.map fun x => (x, xs.eraseIdx (i + 1))

theorem seqInsNext_append {α : Type*} (l₁ l₂ : List α) (e x : α) :
    seqInsNext (some l₁.length) x (l₁ ++ e :: l₂) = l₁ ++ e :: x :: l₂ := by
  induction l₁ with
  | nil => rfl
  | cons a l₁ ih => simpa [seqInsNext] using ih

theorem seqRemNext_append {α : Type*} (l₁ l₂ : List α) (e x : α) :
    seqRemNext (some l₁.length) (l₁ ++ e :: x :: l₂) = some (x, l₁ ++ e :: l₂) := by
  induction l₁ with
  | nil => rfl
  | cons a l₁ ih => simpa [seqRemNext] using ih

theorem seqRemNext_last {α : Type*} (l₁ : List α) (e : α) :
    seqRemNext (some l₁.length) (l₁ ++ [e]) = none := by
  simp [seqRemNext]

/-- One observed call: where it worked, what it was given and what it answered. -/
inductive ListEvent (δ : Type)
  | insNext (pos : Option ℕ) (data : Option δ) (allocated : Bool) (ret : ℤ)
  | remNext (pos : Option ℕ) (before : Option δ) (ret : ℤ) (after : Option δ)

/-- The return value of an observed call. -/
def ListEvent.ret : ListEvent δ → ℤ
  | .insNext _ _ _ ret => ret
  | .remNext _ _ ret _ => ret

/-- The sequence a list is meant to be, and the calls it answers. -/
inductive SeqStep : List (Option δ) → ListEvent δ → List (Option δ) → Prop
  | insNext {xs pos x} (hpos : ∀ i ∈ pos, i < xs.length) :
      SeqStep xs (.insNext pos x true 0) (seqInsNext pos x xs)
  | noMemory {xs pos x} : SeqStep xs (.insNext pos x false (-1)) xs
  | remNext {xs pos x ys out} (h : seqRemNext pos xs = some (x, ys)) :
      SeqStep xs (.remNext pos out 0 x) ys
  | noElement {xs pos out} (h : seqRemNext pos xs = none) :
      SeqStep xs (.remNext pos out (-1) out) xs

/-! ### Runs of calls -/

/-- A call of one of the two operations, together with the answer of the `malloc` it makes. -/
inductive ListCall (δ : Type)
  | insNext (element : Option Addr) (data : Option δ) (malloc : Option Addr)
  | remNext (element : Option Addr) (data : Option δ)

/-- What a caller owes, and what the allocator does: `element` is `NULL` or a node of the list,
and memory handed out is not in use. -/
def ListCall.Allowed (s : ListMem δ) : ListCall δ → Prop
  | .insNext element _ malloc => (∀ a ∈ element, a ∈ s.chain) ∧ ∀ x ∈ malloc, x ∉ s.live
  | .remNext element _ => ∀ a ∈ element, a ∈ s.chain

instance (s : ListMem δ) : (c : ListCall δ) → Decidable (c.Allowed s)
  | .insNext element _ malloc =>
    inferInstanceAs (Decidable ((∀ a ∈ element, a ∈ s.chain) ∧ ∀ x ∈ malloc, x ∉ s.live))
  | .remNext element _ => inferInstanceAs (Decidable (∀ a ∈ element, a ∈ s.chain))

/-- Where in the list a caller's `element` points. -/
def ListMem.position (s : ListMem δ) (element : Option Addr) : Option ℕ :=
  element.map s.chain.idxOf

/-- The list as a machine: one call per step, observed with the position it names. -/
def listMachine (δ : Type) : Machine (ListMem δ) (ListCall δ) (ListEvent δ) where
  allowed s c := c.Allowed s
  step s
    | .insNext element data malloc => do
      let (ret, s') ← listInsNext s element data malloc
      return (s', [.insNext (s.position element) data malloc.isSome ret])
    | .remNext element data => do
      let (ret, s', data') ← listRemNext s element data
      return (s', [.remNext (s.position element) data ret data'])

instance (s : ListMem δ) (c : ListCall δ) : Decidable ((listMachine δ).allowed s c) :=
  inferInstanceAs (Decidable (c.Allowed s))

namespace ListMem

variable {s : ListMem δ} {e : Addr} {ns l₁ l₂ : List Addr}

/-- A node of a represented list splits it, and its position is the length of what precedes. -/
theorem Represents.split (hs : s.Represents ns) (he : e ∈ s.chain) :
    ∃ l₁ l₂, ns = l₁ ++ e :: l₂ ∧ s.position (some e) = some l₁.length := by
  rw [hs.chain_eq] at he
  obtain ⟨l₁, l₂, rfl⟩ := List.append_of_mem he
  have hnot : e ∉ l₁ := fun hmem =>
    (List.nodup_append.mp hs.nodup).2.2 e hmem e (List.mem_cons_self ..) rfl
  refine ⟨l₁, l₂, rfl, ?_⟩
  rw [position, hs.chain_eq, Option.map_some, List.idxOf_append_of_notMem hnot,
    List.idxOf_cons_self, Nat.add_zero]

/-- Storing to a fresh node does not change the data of the others. -/
theorem Represents.map_update (hs : s.Represents ns) {x : Addr} (hx : x ∉ s.live) (d : Option δ) :
    ns.map (Function.update s.data x d) = ns.map s.data := by
  refine List.map_congr_left fun a ha => Function.update_of_ne ?_ _ _
  rintro rfl
  exact hx (hs.live a ha)

end ListMem

/-- One insertion, as the machine takes it. -/
theorem listMachine_insNext {s : ListMem δ} {ns : List Addr} {element : Option Addr}
    {data : Option δ} {malloc : Option Addr} (hs : s.Represents ns)
    (hc : (listMachine δ).allowed s (.insNext element data malloc)) :
    ∃ s' ev ns', (listMachine δ).step s (.insNext element data malloc) = some (s', [ev]) ∧
      s'.Represents ns' ∧ SeqStep (ns.map s.data) ev (ns'.map s'.data) ∧
      (ev.ret = -1 → s' = s) := by
  obtain ⟨helem, hfresh⟩ := hc
  cases malloc with
  | none => exact ⟨s, _, ns, rfl, hs, .noMemory, fun _ => rfl⟩
  | some x =>
    have hx : x ∉ s.live := hfresh x rfl
    cases element with
    | none =>
      obtain ⟨s', hret, hs', hdata, -⟩ := listInsNext_front hs hx data
      refine ⟨s', _, x :: ns, by simp only [listMachine, hret]; rfl, hs', ?_, ?_⟩
      swap
      · simp [ListEvent.ret]
      rw [List.map_cons, hdata, hs.map_update hx, Function.update_self]
      exact .insNext (by simp [ListMem.position])
    | some e =>
      obtain ⟨l₁, l₂, rfl, hpos⟩ := hs.split (helem e rfl)
      obtain ⟨s', hret, hs', hdata, -⟩ := listInsNext_after hs hx data
      refine ⟨s', _, _, by simp only [listMachine, hret]; rfl, hs', ?_, by simp [ListEvent.ret]⟩
      have hmap := hs.map_update hx data
      simp only [List.map_append, List.map_cons] at hmap
      obtain ⟨h₁, h₂⟩ := List.append_inj' hmap (by simp)
      rw [List.cons.injEq] at h₂
      have hseq := seqInsNext_append (l₁.map s.data) (l₂.map s.data) (s.data e) data
      rw [List.length_map] at hseq
      simp only [List.map_append, List.map_cons, hdata, hpos, Option.isSome_some]
      rw [h₁, h₂.1, h₂.2, Function.update_self, ← hseq]
      exact .insNext (by simp)

/-- One removal, as the machine takes it. -/
theorem listMachine_remNext {s : ListMem δ} {ns : List Addr} {element : Option Addr}
    {data : Option δ} (hs : s.Represents ns)
    (hc : (listMachine δ).allowed s (.remNext element data)) :
    ∃ s' ev ns', (listMachine δ).step s (.remNext element data) = some (s', [ev]) ∧
      s'.Represents ns' ∧ SeqStep (ns.map s.data) ev (ns'.map s'.data) ∧
      (ev.ret = -1 → s' = s) := by
  cases element with
  | none =>
    cases ns with
    | nil =>
      refine ⟨s, _, [], by simp only [listMachine, listRemNext_empty hs]; rfl, hs, ?_, fun _ => rfl⟩
      exact .noElement rfl
    | cons a ns =>
      obtain ⟨s', hret, hs', hdata, -⟩ := listRemNext_front hs data
      refine ⟨s', _, ns, by simp only [listMachine, hret]; rfl, hs', ?_, by simp [ListEvent.ret]⟩
      have ha := (List.nodup_cons.mp hs.nodup).1
      rw [List.map_congr_left fun b hb => hdata b (by rintro rfl; exact ha hb)]
      exact .remNext rfl
  | some e =>
    obtain ⟨l₁, l₂, rfl, hpos⟩ := hs.split (hc e rfl)
    cases l₂ with
    | nil =>
      refine ⟨s, _, _, by simp only [listMachine, listRemNext_last hs]; rfl, hs, ?_, fun _ => rfl⟩
      have hlen : l₁.length = (l₁.map s.data).length := (List.length_map _).symm
      rw [hpos, List.map_append, hlen]
      exact .noElement (seqRemNext_last ..)
    | cons a l₂ =>
      obtain ⟨s', hret, hs', hdata, -⟩ := listRemNext_after hs data
      refine ⟨s', _, _, by simp only [listMachine, hret]; rfl, hs', ?_, by simp [ListEvent.ret]⟩
      have hmap : (l₁ ++ e :: l₂).map s'.data = (l₁ ++ e :: l₂).map s.data :=
        List.map_congr_left fun b hb => hdata b (hs.ne_of_mem_erased hb)
      have hseq := seqRemNext_append (l₁.map s.data) (l₂.map s.data) (s.data e) (s.data a)
      rw [List.length_map] at hseq
      rw [hmap, hpos]
      simp only [List.map_append, List.map_cons]
      exact .remNext hseq

/-- **One call.** In a represented state every allowed call is safe, answers as the reference
operation does, and leaves a represented state; when it answers `-1` it changes nothing. -/
theorem listMachine_step {s : ListMem δ} {ns : List Addr} {c : ListCall δ}
    (hs : s.Represents ns) (hc : (listMachine δ).allowed s c) :
    ∃ s' ev ns', (listMachine δ).step s c = some (s', [ev]) ∧ s'.Represents ns' ∧
      SeqStep (ns.map s.data) ev (ns'.map s'.data) ∧ (ev.ret = -1 → s' = s) := by
  cases c with
  | insNext element data malloc => exact listMachine_insNext hs hc
  | remNext element data => exact listMachine_remNext hs hc

/-- **The list refines the sequence it stands for.** -/
theorem listMachine_refines : (listMachine δ).Refines SeqStep
    fun s xs => ∃ ns, s.Represents ns ∧ xs = ns.map s.data where
  step := by
    rintro s _ c ⟨ns, hs, rfl⟩ hc
    obtain ⟨s', ev, ns', hstep, hs', hseq, -⟩ := listMachine_step hs hc
    exact ⟨s', [ev], _, hstep, .single hseq, ns', hs', rfl⟩

/-- What a list looks like between calls. -/
structure ListMem.WellFormed (s : ListMem δ) : Prop where
  /-- The nodes from `head` through `next` end at a null link. -/
  chain : Chain s.next s.list.head s.chain
  /-- No node occurs twice. -/
  nodup : s.chain.Nodup
  /-- There are exactly `size` of them. -/
  size : s.list.size = s.chain.length
  /-- `tail` is the last one. -/
  tail : s.list.tail = s.chain.getLast?
  /-- `head` and `tail` are `NULL` exactly when the list is empty. -/
  null : (s.list.head = none ∧ s.list.tail = none) ↔ s.list.size = 0

theorem ListMem.Represents.wellFormed {s : ListMem δ} {ns : List Addr} (hs : s.Represents ns) :
    s.WellFormed := by
  rw [← hs.chain_eq] at hs
  refine ⟨hs.chain, hs.nodup, hs.size, hs.tail, ?_⟩
  rw [hs.head, hs.tail, hs.size_eq_zero_iff]
  simp

/-- **Every run of the list.** After `list_init`, any sequence of allowed calls leaves the list
well formed, with the contents the reference operations give; the next allowed call is safe again,
and changes nothing when it answers `-1`. -/
theorem list_run_refines {s₀ s : ListMem δ} {destroy : Option Addr} {calls : List (ListCall δ)}
    {evs : List (ListEvent δ)} (h : (listMachine δ).Run (listInit s₀ destroy) calls s evs) :
    s.WellFormed ∧ Trace SeqStep [] evs s.contents ∧
      ∀ c, (listMachine δ).allowed s c →
        ∃ s' ev, (listMachine δ).step s c = some (s', [ev]) ∧ (ev.ret = -1 → s' = s) := by
  obtain ⟨xs, htrace, ns, hs, rfl⟩ :=
    listMachine_refines.run ⟨[], ListMem.represents_listInit s₀ destroy, rfl⟩ h
  refine ⟨hs.wellFormed, by rwa [hs.contents_eq], ?_⟩
  intro c hc
  obtain ⟨s', ev, -, hstep, -, -, hfail⟩ := listMachine_step hs hc
  exact ⟨s', ev, hstep, hfail⟩

/-- A list header and heap with nothing in them. -/
def ListMem.blank (δ : Type) : ListMem δ :=
  ⟨⟨0, none, none, none⟩, ⟨fun _ => ⟨none, none⟩, ∅⟩⟩

/-- Calls through every branch: both insertions, a failed allocation, removals behind a node, at the
front and behind the last node, and the re-use of a freed address. -/
def ListCall.sample : List (ListCall ℕ) :=
  [.insNext none (some 7) (some 1), .insNext (some 1) (some 8) (some 2),
    .insNext none (some 9) none, .remNext (some 1) none, .insNext (some 1) (some 5) (some 2),
    .remNext none none, .remNext (some 2) none]

theorem list_run_refines_sample : ∃ s evs,
    (listMachine ℕ).Run (listInit (.blank ℕ) none) ListCall.sample s evs ∧
      s.contents = [some 5] ∧ s.WellFormed ∧ Trace SeqStep [] evs s.contents := by
  have hrun : (listMachine ℕ).Run (listInit (.blank ℕ) none) ListCall.sample _ _ :=
    Machine.run_of_exec rfl
  exact ⟨_, _, hrun, rfl, (list_run_refines hrun).1, (list_run_refines hrun).2.1⟩

end Exec02
