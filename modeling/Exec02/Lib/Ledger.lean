import Mathlib.Data.Finset.Card
import Mathlib.Data.Finset.SDiff
import Mathlib.Data.List.Perm.Lattice
import Mathlib.Data.List.Perm.Subperm

/-!
# Ledgers of blocks

A program that allocates and frees is asked where its blocks are. A `Ledger` is the answer at one
moment: of the blocks allocated since the start, some have been freed, each of them once, and the
others are live and held, each by one holder. Addresses may be handed out again, so that what was
allocated and what was freed are multisets; what is held is a set.

A block that is live and that nobody holds is a leak. There is no room for one in a ledger, and
none appears later: two ledgers of one memory hold the same blocks.

## Main results

* `Ledger.make`, `Ledger.free` — the two entries
* `Ledger.freeAll` — several of the second
* `Ledger.perm_of_live` — the live blocks determine what is held
* `Ledger.card_live` — and how many they are
-/

namespace Exec02

variable {α : Type*}

/-- What happens to a block. -/
inductive BlockEvent (α : Type*)
  | made (a : α)
  | freed (a : α)
  deriving DecidableEq

namespace BlockEvent

def asMade : BlockEvent α → Option α
  | made a => some a
  | freed _ => none

def asFreed : BlockEvent α → Option α
  | made _ => none
  | freed a => some a

end BlockEvent

/-- The blocks allocated, in order of time. -/
def madeBlocks (evs : List (BlockEvent α)) : List α := evs.filterMap BlockEvent.asMade

/-- The blocks freed, in order of time. -/
def freedBlocks (evs : List (BlockEvent α)) : List α := evs.filterMap BlockEvent.asFreed

/-- The blocks `base` were there before; the others that are live are held. -/
structure Ledger (base live : Finset α) (evs : List (BlockEvent α)) (held : List α) : Prop where
  /-- No block has two holders. -/
  nodup : held.Nodup
  /-- No live block is without one. -/
  live_iff {a : α} : a ∈ live ↔ a ∈ base ∨ a ∈ held
  /-- What was there is held by someone else. -/
  base_notMem {a : α} : a ∈ base → a ∉ held
  /-- What was allocated has been freed once, or is held. -/
  balance : (madeBlocks evs).Perm (freedBlocks evs ++ held)

namespace Ledger

variable {base live : Finset α} {evs : List (BlockEvent α)} {held held' : List α} {a : α}

theorem nil (base : Finset α) : Ledger base base [] [] where
  nodup := List.nodup_nil
  live_iff := by simp
  base_notMem := by simp
  balance := .nil

/-- Blocks change hands. -/
theorem perm (h : Ledger base live evs held) (hp : held.Perm held') :
    Ledger base live evs held' where
  nodup := hp.nodup h.nodup
  live_iff := h.live_iff.trans (or_congr_right hp.mem_iff)
  base_notMem ha hmem := h.base_notMem ha (hp.mem_iff.mpr hmem)
  balance := h.balance.trans (hp.append_left _)

/-- What is live determines what is held. -/
theorem perm_of_live {evs' : List (BlockEvent α)} (h : Ledger base live evs held)
    (h' : Ledger base live evs' held') : held.Perm held' := by
  refine (List.perm_ext_iff_of_nodup h.nodup h'.nodup).mpr fun a => ⟨?_, ?_⟩
  · intro ha
    exact (h'.live_iff.mp (h.live_iff.mpr (Or.inr ha))).resolve_left fun hb => h.base_notMem hb ha
  · intro ha
    exact (h.live_iff.mp (h'.live_iff.mpr (Or.inr ha))).resolve_left fun hb => h'.base_notMem hb ha

variable [DecidableEq α]

/-- A block that was not live is allocated. -/
theorem make (h : Ledger base live evs held) (ha : a ∉ live) :
    Ledger base (insert a live) (evs ++ [.made a]) (a :: held) where
  nodup := List.nodup_cons.mpr ⟨fun hmem => ha (h.live_iff.mpr (Or.inr hmem)), h.nodup⟩
  live_iff := by
    intro b
    rw [Finset.mem_insert, h.live_iff, List.mem_cons]
    tauto
  base_notMem hb hmem := by
    rcases List.mem_cons.mp hmem with rfl | hmem
    · exact ha (h.live_iff.mpr (Or.inl hb))
    · exact h.base_notMem hb hmem
  balance := by
    have hmade : madeBlocks (evs ++ [.made a]) = madeBlocks evs ++ [a] := by
      simp [madeBlocks, BlockEvent.asMade]
    have hfreed : freedBlocks (evs ++ [.made a]) = freedBlocks evs := by
      simp [freedBlocks, BlockEvent.asFreed]
    rw [hmade, hfreed]
    refine (h.balance.append_right [a]).trans ?_
    rw [List.append_assoc]
    exact (List.perm_append_singleton a held).append_left _

/-- A block that is held is freed. -/
theorem free (h : Ledger base live evs (a :: held)) :
    Ledger base (live.erase a) (evs ++ [.freed a]) held where
  nodup := (List.nodup_cons.mp h.nodup).2
  live_iff := by
    intro b
    rw [Finset.mem_erase, h.live_iff, List.mem_cons]
    constructor
    · rintro ⟨hne, hb | rfl | hb⟩
      · exact Or.inl hb
      · exact absurd rfl hne
      · exact Or.inr hb
    · rintro (hb | hb)
      · refine ⟨?_, Or.inl hb⟩
        rintro rfl
        exact h.base_notMem hb (List.mem_cons_self ..)
      · refine ⟨?_, Or.inr (Or.inr hb)⟩
        rintro rfl
        exact (List.nodup_cons.mp h.nodup).1 hb
  base_notMem hb hmem := h.base_notMem hb (List.mem_cons_of_mem _ hmem)
  balance := by
    have hmade : madeBlocks (evs ++ [.freed a]) = madeBlocks evs := by
      simp [madeBlocks, BlockEvent.asMade]
    have hfreed : freedBlocks (evs ++ [.freed a]) ++ held = freedBlocks evs ++ a :: held := by
      simp [freedBlocks, BlockEvent.asFreed]
    rw [hmade, hfreed]
    exact h.balance

/-- Blocks that are held are freed one after the other. -/
theorem freeAll {as : List α} (h : Ledger base live evs (as ++ held)) :
    Ledger base (live \ as.toFinset) (evs ++ as.map .freed) held := by
  induction as generalizing live evs with
  | nil => simpa using h
  | cons a as ih =>
    have hrest := ih h.free
    rw [List.append_assoc, List.singleton_append, ← List.map_cons] at hrest
    rwa [List.toFinset_cons, Finset.sdiff_insert, ← Finset.erase_sdiff_comm]

/-- What is live is counted once. -/
theorem card_live (h : Ledger base live evs held) : live.card = base.card + held.length := by
  have hlive : live = base ∪ held.toFinset := by
    ext a
    rw [h.live_iff, Finset.mem_union, List.mem_toFinset]
  have hdisjoint : Disjoint base held.toFinset := by
    rw [Finset.disjoint_left]
    intro a ha hmem
    exact h.base_notMem ha (List.mem_toFinset.mp hmem)
  rw [hlive, Finset.card_union_of_disjoint hdisjoint, List.toFinset_card_of_nodup h.nodup]

end Ledger

end Exec02
