import Mathlib.Data.Finset.Basic
import Mathlib.Data.Finset.Dedup
import Mathlib.Data.Finset.Lattice.Fold
import Mathlib.Data.Finset.SDiff
import Mathlib.Logic.Function.Basic
import Mathlib.Order.Lattice.Nat

/-!
# Typed heaps and null-terminated chains

A heap is a total map of cells together with the finite set of addresses that are live. Memory
that is not live still has contents — that is what uninitialised storage is — but loading from it
or storing to it is undefined behaviour, answered by `none`. So is freeing what is not live.

A chain is the part of a heap that a list lives in: the nodes met by following a link until it is
null. `Chain next p l` names those nodes, and a chain that ends at all determines them, which is
why a node can never occur twice in one.

## Main definitions

* `Heap`, `Heap.alloc`, `Heap.load`, `Heap.store`, `Heap.free`, `Heap.freeAll`
* `OperatorNew` — where there is room for another block
* `Chain` — the nodes from a link to the null at the end
* `walk` — the same nodes, computed with a bound on their number

## Main results

* `Chain.unique`, `Chain.nodup` — a chain is determined by its first link, and repeats no node
* `Chain.insertAfter`, `Chain.eraseAfter` — the two pointer updates a singly linked list makes
* `Chain.walk_eq` — `walk` finds the chain
-/

namespace Exec02

/-- Addresses of heap blocks. -/
abbrev Addr := ℕ

variable {α β : Type*}

/-! ### Heaps -/

/-- A heap of cells of one type, with the set of addresses currently allocated. -/
structure Heap (α β : Type*) where
  /-- What each address holds, allocated or not. -/
  cell : α → β
  /-- The allocated addresses. -/
  live : Finset α

namespace Heap

variable [DecidableEq α] {h h' : Heap α β} {a b : α} {v : β}

/-- Allocate `a`. Its contents are whatever they were. -/
def alloc (h : Heap α β) (a : α) : Heap α β := { h with live := insert a h.live }

/-- Read a live cell. -/
def load (h : Heap α β) (a : α) : Option β := if a ∈ h.live then some (h.cell a) else none

/-- Overwrite a live cell. -/
def store (h : Heap α β) (a : α) (v : β) : Option (Heap α β) :=
  if a ∈ h.live then some { h with cell := Function.update h.cell a v } else none

/-- Release a live cell. -/
def free (h : Heap α β) (a : α) : Option (Heap α β) :=
  if a ∈ h.live then some { h with live := h.live.erase a } else none

theorem load_of_mem (ha : a ∈ h.live) : h.load a = some (h.cell a) := if_pos ha

theorem mem_of_load (h : Heap α β) (hv : h.load a = some v) : a ∈ h.live := by
  rw [load] at hv
  split_ifs at hv with ha
  exact ha

theorem store_of_mem (ha : a ∈ h.live) (v : β) :
    h.store a v = some ⟨Function.update h.cell a v, h.live⟩ := if_pos ha

theorem free_of_mem (ha : a ∈ h.live) : h.free a = some ⟨h.cell, h.live.erase a⟩ := if_pos ha

/-- A cell that is allocated and written is read by itself only. -/
theorem load_write_of_ne (hab : a ≠ b) :
    (Heap.mk (Function.update h.cell b v) (insert b h.live)).load a = h.load a := by
  simp only [load, Finset.mem_insert, hab, false_or, Function.update_of_ne hab]

theorem load_write_self (h : Heap α β) (b : α) (v : β) :
    (Heap.mk (Function.update h.cell b v) (insert b h.live)).load b = some v := by
  rw [load_of_mem (Finset.mem_insert_self b h.live)]
  exact congrArg some (Function.update_self b v h.cell)

theorem load_alloc_of_ne (hab : a ≠ b) : (h.alloc b).load a = h.load a := by
  simp only [load, alloc, Finset.mem_insert, hab, false_or]

/-- Release one cell after the other. -/
def freeAll (h : Heap α β) (as : List α) : Option (Heap α β) := as.foldlM free h

theorem freeAll_append (as bs : List α) :
    h.freeAll (as ++ bs) = (h.freeAll as).bind (·.freeAll bs) := List.foldlM_append

/-- The cells have to be live, and different. -/
theorem freeAll_eq (h : Heap α β) (as : List α) :
    h.freeAll as = if as.Nodup ∧ ∀ a ∈ as, a ∈ h.live then
      some ⟨h.cell, h.live \ as.toFinset⟩ else none := by
  induction as generalizing h with
  | nil => simp [freeAll]
  | cons a as ih =>
    rw [freeAll, List.foldlM_cons]
    by_cases ha : a ∈ h.live
    · rw [free_of_mem ha]
      refine (ih ⟨h.cell, h.live.erase a⟩).trans ?_
      have hset : h.live.erase a \ as.toFinset = h.live \ (a :: as).toFinset := by
        rw [List.toFinset_cons, Finset.sdiff_insert, Finset.erase_sdiff_comm]
      rw [hset]
      refine if_congr ?_ rfl rfl
      simp only [List.nodup_cons, List.forall_mem_cons, Finset.mem_erase]
      constructor
      · rintro ⟨hnd, hlive⟩
        exact ⟨⟨fun hmem => (hlive a hmem).1 rfl, hnd⟩, ha, fun b hb => (hlive b hb).2⟩
      · rintro ⟨⟨hmem, hnd⟩, -, hlive⟩
        refine ⟨hnd, fun b hb => ⟨?_, hlive b hb⟩⟩
        rintro rfl
        exact hmem hb
    · rw [free, if_neg ha, if_neg fun hall => ha (hall.2 a (List.mem_cons_self ..))]
      rfl

theorem load_sdiff_of_notMem {as : List α} (ha : a ∉ as) :
    (Heap.mk h.cell (h.live \ as.toFinset)).load a = h.load a := by
  simp only [load, Finset.mem_sdiff, List.mem_toFinset, ha, not_false_iff, and_true]

end Heap

/-- `operator new`: an address that is not in use. -/
structure OperatorNew where
  addr : Finset Addr → Addr
  fresh : ∀ live, addr live ∉ live

/-- An address past all those in use. -/
def OperatorNew.next : OperatorNew where
  addr live := live.sup id + 1
  fresh _ h := absurd (Finset.le_sup (f := id) h) (Nat.not_succ_le_self _)

/-! ### Chains -/

/-- `Chain next p l`: following `next` from the link `p` meets the nodes `l` and then null. -/
inductive Chain (next : α → Option α) : Option α → List α → Prop
  | nil : Chain next none []
  | cons {a l} (rest : Chain next (next a) l) : Chain next (some a) (a :: l)

namespace Chain

variable {next next' : α → Option α} {p : Option α} {l l' l₁ l₂ : List α} {a e x : α}

theorem head_eq (h : Chain next p l) : p = l.head? := by
  cases h <;> rfl

theorem next_eq (h : Chain next p (l₁ ++ e :: l₂)) : next e = l₂.head? := by
  induction l₁ generalizing p with
  | nil => cases h with | cons rest => exact rest.head_eq
  | cons a l₁ ih => cases h with | cons rest => exact ih rest

/-- Only the last node of a chain has a null link. -/
theorem next_eq_none_iff (h : Chain next p (l₁ ++ e :: l₂)) : next e = none ↔ l₂ = [] := by
  rw [h.next_eq, List.head?_eq_none_iff]

/-- What follows the first node is the chain from that node's link. -/
theorem tail (h : Chain next p (a :: l)) : Chain next (next a) l := by
  cases h with | cons rest => exact rest

theorem unique (h : Chain next p l) (h' : Chain next p l') : l = l' := by
  induction h generalizing l' with
  | nil => cases h'; rfl
  | cons _ ih => cases h' with | cons rest => rw [ih rest]

/-- The chain from a node of a chain is the rest of that chain. -/
theorem suffix (h : Chain next p (l₁ ++ e :: l₂)) : Chain next (some e) (e :: l₂) := by
  induction l₁ generalizing p with
  | nil => cases h with | cons rest => exact .cons rest
  | cons a l₁ ih => cases h with | cons rest => exact ih rest

/-- A chain that ends repeats no node: a repetition would put two different chains behind it. -/
theorem nodup (h : Chain next p l) : l.Nodup := by
  induction h with
  | nil => exact List.nodup_nil
  | @cons a l rest ih =>
    refine List.nodup_cons.mpr ⟨?_, ih⟩
    intro hmem
    obtain ⟨l₁, l₂, rfl⟩ := List.append_of_mem hmem
    have hlen := congrArg List.length ((Chain.cons rest).unique rest.suffix)
    simp only [List.length_cons, List.length_append] at hlen
    omega

/-- A chain does not see links outside it. -/
theorem congr (h : Chain next p l) (hn : ∀ a ∈ l, next' a = next a) : Chain next' p l := by
  induction h with
  | nil => exact .nil
  | cons _ ih =>
    refine .cons ?_
    rw [hn _ (List.mem_cons_self ..)]
    exact ih fun a ha => hn a (List.mem_cons_of_mem _ ha)

/-- Linking a new node behind `e`: the new node takes over `e`'s link, and `e` points to it. -/
theorem insertAfter (h : Chain next p (l₁ ++ e :: l₂)) (hx : x ∉ l₁ ++ e :: l₂)
    (hne : next' e = some x) (hnx : next' x = next e)
    (hn : ∀ a ∈ l₁ ++ e :: l₂, a ≠ e → next' a = next a) :
    Chain next' p (l₁ ++ e :: x :: l₂) := by
  induction l₁ generalizing p with
  | nil =>
    have hnd := List.nodup_cons.mp h.nodup
    cases h with
    | cons rest =>
      refine .cons ?_
      rw [hne]
      refine .cons ?_
      rw [hnx]
      refine rest.congr fun a ha => hn a (List.mem_cons_of_mem _ ha) ?_
      rintro rfl
      exact hnd.1 ha
  | cons a l₁ ih =>
    have hnd := List.nodup_cons.mp h.nodup
    cases h with
    | cons rest =>
      refine .cons ?_
      rw [hn a (List.mem_cons_self ..) fun hae => hnd.1 (by simp [hae])]
      exact ih rest (fun hmem => hx (List.mem_cons_of_mem _ hmem))
        fun b hb => hn b (List.mem_cons_of_mem _ hb)

/-- Unlinking the node behind `e`: `e` takes over that node's link. -/
theorem eraseAfter (h : Chain next p (l₁ ++ e :: x :: l₂)) (hne : next' e = next x)
    (hn : ∀ a ∈ l₁ ++ e :: l₂, a ≠ e → next' a = next a) : Chain next' p (l₁ ++ e :: l₂) := by
  induction l₁ generalizing p with
  | nil =>
    have hnd := List.nodup_cons.mp h.nodup
    have hfront : Chain next p ([] ++ e :: x :: l₂) := h
    have hnx : next e = some x := hfront.next_eq
    cases h with
    | cons rest =>
      rw [hnx] at rest
      cases rest with
      | cons rest =>
        refine .cons ?_
        rw [hne]
        refine rest.congr fun a ha => hn a (List.mem_cons_of_mem _ ha) ?_
        rintro rfl
        exact hnd.1 (List.mem_cons_of_mem _ ha)
  | cons a l₁ ih =>
    have hnd := List.nodup_cons.mp h.nodup
    cases h with
    | cons rest =>
      refine .cons ?_
      rw [hn a (List.mem_cons_self ..) fun hae => hnd.1 (by simp [hae])]
      exact ih rest fun b hb => hn b (List.mem_cons_of_mem _ hb)

end Chain

/-- The nodes met by following `next` from a link, at most `n` of them. -/
def walk (next : α → Option α) : ℕ → Option α → List α
  | 0, _ => []
  | _ + 1, none => []
  | n + 1, some a => a :: walk next n (next a)

theorem Chain.walk_eq {next : α → Option α} {p : Option α} {l : List α} (h : Chain next p l) :
    walk next l.length p = l := by
  induction h with
  | nil => rfl
  | cons _ ih => rw [List.length_cons, walk, ih]

end Exec02
