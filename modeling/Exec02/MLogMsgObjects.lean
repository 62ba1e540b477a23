import Exec02.Lib.Ledger
import Exec02.Lib.Machine
import Exec02.MLogger
import Mathlib.Data.List.Flatten

/-!
# The objects of class `MLogMsg`

`MLogger.cpp` gives its messages two blocks each, a `timeb` and a buffer of characters, and writes
out all five special members. Not all of them keep the blocks apart: the copy constructor leaves
`tm` to be what the storage held, and the two moves leave the source as it was, so that both objects
have its blocks. Every one of them frees a block with the next `clearMsg`.

## Reading the model

The objects that exist are a list, and a call names them by their places in it. Storage that has not
been initialised holds anything, and so do the members in it. `new` always finds memory, of its
choice, that is not in use; the buffer is one of `sizeof(char*)` bytes, and a text that does not fit
is undefined behaviour. So is freeing what is not live.

## Main results

* `msgMachine_step` — a call that is sound keeps the blocks accounted for
* `msgMachine_count` — one that is not makes holders without a block
* `message_blocks_owned_iff` — the runs in which every block has its holder
-/

namespace Exec02

variable {τ : Type}

/-- What a block holds: a time, or the characters up to a NUL. -/
inductive MsgBlock (τ : Type)
  | time (tm : τ)
  | chars (msg : Text)

/-- The members of an `MLogMsg`. -/
structure MsgMembers where
  tm : Option Addr
  msg : Option Addr
  deriving DecidableEq

/-- `delete`, of a pointer that may be null. -/
def deleteBlock (heap : Heap Addr (MsgBlock τ)) : Option Addr → Option (Heap Addr (MsgBlock τ))
  | none => some heap
  | some a => heap.free a

namespace MsgMembers

/-- The blocks the members point to. -/
def held (m : MsgMembers) : List Addr := m.tm.toList ++ m.msg.toList

/-- `*getTime()`. -/
def getTime (m : MsgMembers) (heap : Heap Addr (MsgBlock τ)) : Option τ := do
  match ← heap.load (← m.tm) with
  | .time tm => some tm
  | .chars _ => none

/-- The string at `getMsg()`. -/
def getMsg (m : MsgMembers) (heap : Heap Addr (MsgBlock τ)) : Option Text := do
  match ← heap.load (← m.msg) with
  | .time _ => none
  | .chars msg => some msg

/-- `clearMsg()`. -/
def clearMsg (m : MsgMembers) (heap : Heap Addr (MsgBlock τ)) :
    Option (MsgMembers × Heap Addr (MsgBlock τ)) := do
  let heap ← deleteBlock heap m.tm
  let heap ← deleteBlock heap m.msg
  return (⟨none, none⟩, heap)

end MsgMembers

variable (pl : Platform)

/-- `strcpy(msg, text)`, to a buffer of `sizeof(char*)` bytes. -/
def strcpyMsg (heap : Heap Addr (MsgBlock τ)) (msg : Addr) (text : Text) :
    Option (Heap Addr (MsgBlock τ)) := do
  let filled ← MLogMsg.new pl text
  heap.store msg (.chars filled.msg)

/-- The blocks that several objects hold, as often as they do. -/
def heldBy (objects : List MsgMembers) : List Addr := objects.flatMap MsgMembers.held

/-- The objects that exist, in the order of their construction, and the heap. -/
structure MsgStore (τ : Type) where
  objects : List MsgMembers
  heap : Heap Addr (MsgBlock τ)

/-- A call of a special member, with the time it reads, what the storage of a new object held, and
the addresses that `new` answers. -/
inductive MsgCall (τ : Type)
  | construct (text : Text) (now : τ) (newTm newMsg : Addr)
  | copyConstruct (prior : MsgMembers) (other : ℕ) (newMsg : Addr)
  | copyAssign (this other : ℕ) (newMsg : Addr)
  | moveConstruct (prior : MsgMembers) (other : ℕ)
  | moveAssign (this other : ℕ)
  | destroy (this : ℕ)

namespace MsgStore

/-- `MLogMsg(text)`. -/
def construct (s : MsgStore τ) (text : Text) (now : τ) (newTm newMsg : Addr) :
    Option (MsgStore τ × List (BlockEvent Addr)) := do
  let heap ← ((s.heap.alloc newTm).alloc newMsg).store newTm (.time now)
  let heap ← strcpyMsg pl heap newMsg text
  return (⟨s.objects ++ [⟨some newTm, some newMsg⟩], heap⟩, [.made newTm, .made newMsg])

/-- `MLogMsg(const MLogMsg& other)`, which does not set `tm`. -/
def copyConstruct (s : MsgStore τ) (prior : MsgMembers) (other : ℕ) (newMsg : Addr) :
    Option (MsgStore τ × List (BlockEvent Addr)) := do
  let o ← s.objects[other]?
  let heap := s.heap.alloc newMsg
  let heap ← strcpyMsg pl heap newMsg (← o.getMsg heap)
  return (⟨s.objects ++ [{ prior with msg := some newMsg }], heap⟩, [.made newMsg])

/-- `operator=(const MLogMsg& other)`, which does not set `tm` either. -/
def copyAssign (s : MsgStore τ) (this other : ℕ) (newMsg : Addr) :
    Option (MsgStore τ × List (BlockEvent Addr)) :=
  if this = other then some (s, [])
  else do
    let m ← s.objects[this]?
    let o ← s.objects[other]?
    let (cleared, heap) ← m.clearMsg s.heap
    let heap := heap.alloc newMsg
    let heap ← strcpyMsg pl heap newMsg (← o.getMsg heap)
    return (⟨s.objects.set this { cleared with msg := some newMsg }, heap⟩,
      m.held.map .freed ++ [.made newMsg])

/-- `MLogMsg(MLogMsg&& other)`: the members are cleared before they have been set, and `other` keeps
its own. -/
def moveConstruct (s : MsgStore τ) (prior : MsgMembers) (other : ℕ) :
    Option (MsgStore τ × List (BlockEvent Addr)) := do
  let o ← s.objects[other]?
  let (_, heap) ← prior.clearMsg s.heap
  return (⟨s.objects ++ [⟨o.tm, o.msg⟩], heap⟩, prior.held.map .freed)

/-- `operator=(MLogMsg&& other)`, where `other` keeps its members as well. -/
def moveAssign (s : MsgStore τ) (this other : ℕ) :
    Option (MsgStore τ × List (BlockEvent Addr)) :=
  if this = other then some (s, [])
  else do
    let m ← s.objects[this]?
    let o ← s.objects[other]?
    let (_, heap) ← m.clearMsg s.heap
    return (⟨s.objects.set this ⟨o.tm, o.msg⟩, heap⟩, m.held.map .freed)

/-- `~MLogMsg()`. -/
def destroy (s : MsgStore τ) (this : ℕ) : Option (MsgStore τ × List (BlockEvent Addr)) := do
  let m ← s.objects[this]?
  let (_, heap) ← m.clearMsg s.heap
  return (⟨s.objects.eraseIdx this, heap⟩, m.held.map .freed)

/-- In front of the first construction. -/
def start (heap : Heap Addr (MsgBlock τ)) : MsgStore τ := ⟨[], heap⟩

end MsgStore

/-- The objects named exist, and memory handed out is not in use. An assignment gets its memory
after it has freed that of its target. -/
def MsgCall.Allowed (s : MsgStore τ) : MsgCall τ → Prop
  | .construct _ _ newTm newMsg =>
    newTm ∉ s.heap.live ∧ newMsg ∉ s.heap.live ∧ newTm ≠ newMsg
  | .copyConstruct _ other newMsg => other < s.objects.length ∧ newMsg ∉ s.heap.live
  | .copyAssign this other newMsg => other < s.objects.length ∧
      ∃ m ∈ s.objects[this]?, newMsg ∉ s.heap.live \ m.held.toFinset
  | .moveConstruct _ other => other < s.objects.length
  | .moveAssign this other => this < s.objects.length ∧ other < s.objects.length
  | .destroy this => this < s.objects.length

instance MsgCall.decidableAllowed (s : MsgStore τ) : (c : MsgCall τ) → Decidable (c.Allowed s)
  | .construct _ _ newTm newMsg =>
    inferInstanceAs (Decidable (newTm ∉ s.heap.live ∧ newMsg ∉ s.heap.live ∧ newTm ≠ newMsg))
  | .copyConstruct _ other newMsg =>
    inferInstanceAs (Decidable (other < s.objects.length ∧ newMsg ∉ s.heap.live))
  | .copyAssign this other newMsg => inferInstanceAs (Decidable (other < s.objects.length ∧
      ∃ m ∈ s.objects[this]?, newMsg ∉ s.heap.live \ m.held.toFinset))
  | .moveConstruct _ other => inferInstanceAs (Decidable (other < s.objects.length))
  | .moveAssign this other =>
    inferInstanceAs (Decidable (this < s.objects.length ∧ other < s.objects.length))
  | .destroy this => inferInstanceAs (Decidable (this < s.objects.length))

/-- The objects as a machine, observed at the blocks made and freed. -/
def msgMachine (τ : Type) : Machine (MsgStore τ) (MsgCall τ) (BlockEvent Addr) where
  allowed s c := c.Allowed s
  step s
    | .construct text now newTm newMsg => s.construct pl text now newTm newMsg
    | .copyConstruct prior other newMsg => s.copyConstruct pl prior other newMsg
    | .copyAssign this other newMsg => s.copyAssign pl this other newMsg
    | .moveConstruct prior other => s.moveConstruct prior other
    | .moveAssign this other => s.moveAssign this other
    | .destroy this => s.destroy this

instance MsgCall.decidableAllowedMachine (s : MsgStore τ) (c : MsgCall τ) :
    Decidable ((msgMachine pl τ).allowed s c) :=
  inferInstanceAs (Decidable (c.Allowed s))

/-- Nothing is moved to another object, and nothing copied to storage whose `tm` is not null. -/
def MsgCall.Sound : MsgCall τ → Prop
  | .copyConstruct prior _ _ => prior.tm = none
  | .moveConstruct _ _ => False
  | .moveAssign this other => this = other
  | _ => True

instance MsgCall.decidableSound : (c : MsgCall τ) → Decidable c.Sound
  | .copyConstruct prior _ _ => inferInstanceAs (Decidable (prior.tm = none))
  | .moveConstruct _ _ => inferInstanceAs (Decidable False)
  | .moveAssign this other => inferInstanceAs (Decidable (this = other))
  | .construct _ _ _ _ | .copyAssign _ _ _ | .destroy _ => inferInstanceAs (Decidable True)

/-- The text fits the buffer. -/
def MsgCall.Fits : MsgCall τ → Prop
  | .construct text _ _ _ => text.length + 1 ≤ pl.sizeofPointer
  | _ => True

variable {pl} {s t : MsgStore τ} {m o : MsgMembers} {heap heap' : Heap Addr (MsgBlock τ)}
  {evs outs : List (BlockEvent Addr)} {base : Finset Addr} {this other : ℕ} {rest : List Addr}
  {objects : List MsgMembers}

/-! ### The parts of an operation -/

theorem deleteBlock_eq (heap : Heap Addr (MsgBlock τ)) (p : Option Addr) :
    deleteBlock heap p = heap.freeAll p.toList := by
  cases p with
  | none => rfl
  | some a => exact (bind_pure (heap.free a)).symm

theorem clearMsg_eq (m : MsgMembers) (heap : Heap Addr (MsgBlock τ)) :
    m.clearMsg heap = (heap.freeAll m.held).map (⟨none, none⟩, ·) := by
  rw [MsgMembers.held, Heap.freeAll_append, MsgMembers.clearMsg]
  simp only [deleteBlock_eq, Option.bind_eq_bind]
  cases heap.freeAll m.tm.toList with
  | none => rfl
  | some heap' => cases hmsg : heap'.freeAll m.msg.toList <;> simp [hmsg]

/-- What `clearMsg` comes to, if the blocks are there. -/
theorem clearMsg_cases {m' : MsgMembers} (h : m.clearMsg heap = some (m', heap')) :
    m' = ⟨none, none⟩ ∧ m.held.Nodup ∧ (∀ a ∈ m.held, a ∈ heap.live) ∧
      heap' = ⟨heap.cell, heap.live \ m.held.toFinset⟩ := by
  rw [clearMsg_eq, Heap.freeAll_eq] at h
  split_ifs at h with hheld
  · obtain ⟨rfl, rfl⟩ := Prod.mk.inj (Option.some.inj h)
    exact ⟨rfl, hheld.1, hheld.2, rfl⟩
  · cases h

/-- So every block is one less. -/
theorem card_of_clearMsg {m' : MsgMembers} (h : m.clearMsg heap = some (m', heap')) :
    heap'.live.card + m.held.length = heap.live.card := by
  obtain ⟨-, hnd, hlive, rfl⟩ := clearMsg_cases h
  rw [← List.toFinset_card_of_nodup hnd]
  exact Finset.card_sdiff_add_card_eq_card fun a ha => hlive a (List.mem_toFinset.mp ha)

/-- Blocks that are accounted for can be freed. -/
theorem clearMsg_of_ledger (h : Ledger base heap.live evs (m.held ++ rest)) :
    m.clearMsg heap = some (⟨none, none⟩, ⟨heap.cell, heap.live \ m.held.toFinset⟩) := by
  have hnd : m.held.Nodup := (List.nodup_append.mp h.nodup).1
  have hlive : ∀ a ∈ m.held, a ∈ heap.live :=
    fun a ha => h.live_iff.mpr (Or.inr (List.mem_append_left _ ha))
  rw [clearMsg_eq, Heap.freeAll_eq, if_pos ⟨hnd, hlive⟩]
  rfl

theorem strcpyMsg_alloc (pl : Platform) (heap : Heap Addr (MsgBlock τ)) (a : Addr) (text : Text) :
    strcpyMsg pl (heap.alloc a) a text = if text.length + 1 ≤ pl.sizeofPointer then
      some ⟨Function.update heap.cell a (.chars text), insert a heap.live⟩ else none := by
  rw [strcpyMsg, MLogMsg.new]
  split_ifs with hfit
  · exact Heap.store_of_mem (h := heap.alloc a) (Finset.mem_insert_self a heap.live) _
  · rfl

theorem construct_eq (s : MsgStore τ) (text : Text) (now : τ) (newTm newMsg : Addr) :
    s.construct pl text now newTm newMsg = if text.length + 1 ≤ pl.sizeofPointer then
      some (⟨s.objects ++ [⟨some newTm, some newMsg⟩],
        ⟨Function.update (Function.update s.heap.cell newTm (.time now)) newMsg (.chars text),
          insert newMsg (insert newTm s.heap.live)⟩⟩, [.made newTm, .made newMsg])
      else none := by
  have hstore := Heap.store_of_mem (h := (s.heap.alloc newTm).alloc newMsg) (a := newTm)
    (Finset.mem_insert_of_mem (Finset.mem_insert_self newTm s.heap.live)) (MsgBlock.time now)
  have hcopy := strcpyMsg_alloc pl
    ⟨Function.update s.heap.cell newTm (MsgBlock.time now), insert newTm s.heap.live⟩ newMsg text
  rw [MsgStore.construct, hstore]
  simp only [Option.bind_eq_bind, Option.bind_some]
  refine (congrArg (Option.bind · _) hcopy).trans ?_
  split_ifs with hfit
  · rfl
  · rfl

/-- A copy construction, where there is a text that fits. -/
theorem copyConstruct_of_getMsg (prior : MsgMembers) {newMsg : Addr} {text : Text}
    (ho : s.objects[other]? = some o) (htext : o.getMsg (s.heap.alloc newMsg) = some text)
    (hfit : text.length + 1 ≤ pl.sizeofPointer) :
    s.copyConstruct pl prior other newMsg = some (⟨s.objects ++ [⟨prior.tm, some newMsg⟩],
      ⟨Function.update s.heap.cell newMsg (.chars text), insert newMsg s.heap.live⟩⟩,
      [.made newMsg]) := by
  rw [MsgStore.copyConstruct, ho]
  simp only [Option.bind_eq_bind, Option.bind_some, htext, strcpyMsg_alloc, if_pos hfit]
  rfl

/-- What a copy construction comes to. -/
theorem copyConstruct_cases {prior : MsgMembers} {newMsg : Addr}
    (h : s.copyConstruct pl prior other newMsg = some (t, outs)) :
    ∃ o text, s.objects[other]? = some o ∧ o.getMsg (s.heap.alloc newMsg) = some text ∧
      text.length + 1 ≤ pl.sizeofPointer ∧ outs = [.made newMsg] ∧
      t = ⟨s.objects ++ [⟨prior.tm, some newMsg⟩],
        ⟨Function.update s.heap.cell newMsg (.chars text), insert newMsg s.heap.live⟩⟩ := by
  obtain ⟨o, ho, h⟩ := Option.bind_eq_some_iff.mp h
  obtain ⟨text, htext, h⟩ := Option.bind_eq_some_iff.mp h
  obtain ⟨heap, hheap, h⟩ := Option.bind_eq_some_iff.mp h
  rw [strcpyMsg_alloc] at hheap
  split_ifs at hheap with hfit
  · obtain rfl := Option.some.inj hheap
    obtain ⟨rfl, rfl⟩ := Prod.mk.inj (Option.some.inj h)
    exact ⟨o, text, ho, htext, hfit, rfl, rfl⟩

/-- What a copy assignment comes to, from another object. -/
theorem copyAssign_cases {newMsg : Addr} (hne : this ≠ other)
    (h : s.copyAssign pl this other newMsg = some (t, outs)) :
    ∃ m heap o text, s.objects[this]? = some m ∧ m.clearMsg s.heap = some (⟨none, none⟩, heap) ∧
      s.objects[other]? = some o ∧ o.getMsg (heap.alloc newMsg) = some text ∧
      text.length + 1 ≤ pl.sizeofPointer ∧ outs = m.held.map .freed ++ [.made newMsg] ∧
      t = ⟨s.objects.set this ⟨none, some newMsg⟩,
        ⟨Function.update heap.cell newMsg (.chars text), insert newMsg heap.live⟩⟩ := by
  rw [MsgStore.copyAssign, if_neg hne] at h
  obtain ⟨m, hm, h⟩ := Option.bind_eq_some_iff.mp h
  obtain ⟨o, ho, h⟩ := Option.bind_eq_some_iff.mp h
  obtain ⟨⟨m', heap⟩, hclear, h⟩ := Option.bind_eq_some_iff.mp h
  obtain ⟨text, htext, h⟩ := Option.bind_eq_some_iff.mp h
  obtain ⟨heap', hheap, h⟩ := Option.bind_eq_some_iff.mp h
  obtain ⟨rfl, -, -, -⟩ := clearMsg_cases hclear
  rw [strcpyMsg_alloc] at hheap
  split_ifs at hheap with hfit
  · obtain rfl := Option.some.inj hheap
    obtain ⟨rfl, rfl⟩ := Prod.mk.inj (Option.some.inj h)
    exact ⟨m, heap, o, text, hm, hclear, ho, htext, hfit, rfl, rfl⟩

/-- What a move construction comes to. -/
theorem moveConstruct_cases {prior : MsgMembers}
    (h : s.moveConstruct prior other = some (t, outs)) :
    ∃ o heap, s.objects[other]? = some o ∧ prior.clearMsg s.heap = some (⟨none, none⟩, heap) ∧
      outs = prior.held.map .freed ∧ t = ⟨s.objects ++ [o], heap⟩ := by
  obtain ⟨o, ho, h⟩ := Option.bind_eq_some_iff.mp h
  obtain ⟨⟨m', heap⟩, hclear, h⟩ := Option.bind_eq_some_iff.mp h
  obtain ⟨rfl, -, -, -⟩ := clearMsg_cases hclear
  obtain ⟨rfl, rfl⟩ := Prod.mk.inj (Option.some.inj h)
  exact ⟨o, heap, ho, hclear, rfl, rfl⟩

/-- What a move assignment comes to, from another object. -/
theorem moveAssign_cases (hne : this ≠ other) (h : s.moveAssign this other = some (t, outs)) :
    ∃ m o heap, s.objects[this]? = some m ∧ s.objects[other]? = some o ∧
      m.clearMsg s.heap = some (⟨none, none⟩, heap) ∧ outs = m.held.map .freed ∧
      t = ⟨s.objects.set this o, heap⟩ := by
  rw [MsgStore.moveAssign, if_neg hne] at h
  obtain ⟨m, hm, h⟩ := Option.bind_eq_some_iff.mp h
  obtain ⟨o, ho, h⟩ := Option.bind_eq_some_iff.mp h
  obtain ⟨⟨m', heap⟩, hclear, h⟩ := Option.bind_eq_some_iff.mp h
  obtain ⟨rfl, -, -, -⟩ := clearMsg_cases hclear
  obtain ⟨rfl, rfl⟩ := Prod.mk.inj (Option.some.inj h)
  exact ⟨m, o, heap, hm, ho, hclear, rfl, rfl⟩

/-- What a destruction comes to. -/
theorem destroy_cases (h : s.destroy this = some (t, outs)) :
    ∃ m heap, s.objects[this]? = some m ∧ m.clearMsg s.heap = some (⟨none, none⟩, heap) ∧
      outs = m.held.map .freed ∧ t = ⟨s.objects.eraseIdx this, heap⟩ := by
  obtain ⟨m, hm, h⟩ := Option.bind_eq_some_iff.mp h
  obtain ⟨⟨m', heap⟩, hclear, h⟩ := Option.bind_eq_some_iff.mp h
  obtain ⟨rfl, -, -, -⟩ := clearMsg_cases hclear
  obtain ⟨rfl, rfl⟩ := Prod.mk.inj (Option.some.inj h)
  exact ⟨m, heap, hm, hclear, rfl, rfl⟩

/-! ### What the objects hold -/

theorem heldBy_append (objects : List MsgMembers) (m : MsgMembers) :
    heldBy (objects ++ [m]) = heldBy objects ++ m.held := by
  simp [heldBy]

/-- What one object holds, and the others. -/
theorem heldBy_perm (hm : objects[this]? = some m) :
    (heldBy objects).Perm (m.held ++ heldBy (objects.eraseIdx this)) := by
  obtain ⟨hlt, rfl⟩ := List.getElem?_eq_some_iff.mp hm
  exact ((List.getElem_cons_eraseIdx_perm hlt).flatMap_right MsgMembers.held).symm

/-- The same, after the object was given other members. -/
theorem heldBy_set (hm : objects[this]? = some m) (o : MsgMembers) :
    (heldBy (objects.set this o)).Perm (o.held ++ heldBy (objects.eraseIdx this)) := by
  obtain ⟨hlt, -⟩ := List.getElem?_eq_some_iff.mp hm
  exact (List.set_perm_cons_eraseIdx hlt o).flatMap_right MsgMembers.held

/-! ### Counting -/

/-- Every object has a buffer, or what it takes for one. -/
def MsgStore.Buffered (s : MsgStore τ) : Prop := ∀ m ∈ s.objects, m.msg ≠ none

theorem held_length_pos (h : m.msg ≠ none) : 0 < m.held.length := by
  obtain ⟨a, ha⟩ := Option.ne_none_iff_exists'.mp h
  simp [MsgMembers.held, ha]

theorem MsgStore.Buffered.append (h : s.Buffered) (hm : m.msg ≠ none) :
    (MsgStore.mk (s.objects ++ [m]) heap).Buffered :=
  List.forall_mem_append.mpr ⟨h, List.forall_mem_singleton.mpr hm⟩

theorem MsgStore.Buffered.set (h : s.Buffered) (hm : m.msg ≠ none) :
    (MsgStore.mk (s.objects.set this m) heap).Buffered := by
  intro o ho
  rcases List.mem_or_eq_of_mem_set ho with ho | rfl
  · exact h o ho
  · exact hm

theorem MsgStore.Buffered.of_getElem? (h : s.Buffered) (hm : s.objects[this]? = some m) :
    m.msg ≠ none := h m (List.mem_of_getElem? hm)

/-- **Counting.** Each holder that a call makes beyond the blocks it makes is one too many, and a
call makes none exactly if it is sound. -/
theorem msgMachine_count {c : MsgCall τ} (hs : s.Buffered) (ha : (msgMachine pl τ).allowed s c)
    (h : (msgMachine pl τ).step s c = some (t, outs)) :
    t.Buffered ∧ ∃ k, (heldBy t.objects).length + s.heap.live.card =
      (heldBy s.objects).length + t.heap.live.card + k ∧ (k = 0 ↔ c.Sound) := by
  cases c with
  | construct text now newTm newMsg =>
    obtain ⟨hTm, hMsg, hne⟩ := ha
    have h : s.construct pl text now newTm newMsg = some (t, outs) := h
    rw [construct_eq] at h
    split_ifs at h with hfit
    obtain ⟨rfl, -⟩ := Prod.mk.inj (Option.some.inj h)
    have hnew : newMsg ∉ insert newTm s.heap.live := by
      rw [Finset.mem_insert, not_or]
      exact ⟨hne.symm, hMsg⟩
    refine ⟨hs.append (Option.some_ne_none _), 0, ?_, iff_of_true rfl trivial⟩
    have hheld : (MsgMembers.mk (some newTm) (some newMsg)).held.length = 2 := rfl
    rw [heldBy_append, List.length_append, Finset.card_insert_of_notMem hnew,
      Finset.card_insert_of_notMem hTm]
    omega
  | copyConstruct prior other newMsg =>
    obtain ⟨o, text, -, -, -, -, rfl⟩ := copyConstruct_cases h
    refine ⟨hs.append (Option.some_ne_none _), prior.tm.toList.length, ?_, ?_⟩
    · have hheld : (MsgMembers.mk prior.tm (some newMsg)).held.length =
        prior.tm.toList.length + 1 := List.length_append
      rw [heldBy_append, List.length_append, Finset.card_insert_of_notMem ha.2]
      omega
    · rw [List.length_eq_zero_iff, Option.toList_eq_nil_iff]
      exact Iff.rfl
  | copyAssign this other newMsg =>
    by_cases hne : this = other
    · obtain ⟨rfl, -⟩ := Prod.mk.inj (Option.some.inj ((if_pos hne).symm.trans h))
      exact ⟨hs, 0, rfl, iff_of_true rfl trivial⟩
    · obtain ⟨m, heap, o, text, hm, hclear, -, -, -, -, rfl⟩ := copyAssign_cases hne h
      obtain ⟨-, m', hm', hnew⟩ := ha
      obtain rfl : m' = m := Option.some.inj (hm'.symm.trans hm)
      obtain ⟨-, -, -, rfl⟩ := clearMsg_cases hclear
      have hcard := card_of_clearMsg hclear
      have hlen := (heldBy_perm hm).length_eq
      have hlen' := (heldBy_set hm ⟨none, some newMsg⟩).length_eq
      have hheld : (MsgMembers.mk none (some newMsg)).held.length = 1 := rfl
      refine ⟨hs.set (Option.some_ne_none _), 0, ?_, iff_of_true rfl trivial⟩
      rw [List.length_append] at hlen hlen'
      rw [Finset.card_insert_of_notMem hnew]
      dsimp only at hcard ⊢
      omega
  | moveConstruct prior other =>
    obtain ⟨o, heap, ho, hclear, -, rfl⟩ := moveConstruct_cases h
    have hcard := card_of_clearMsg hclear
    have hpos := held_length_pos (hs.of_getElem? ho)
    refine ⟨hs.append (hs.of_getElem? ho), o.held.length + prior.held.length, ?_,
      iff_of_false (by omega) not_false⟩
    rw [heldBy_append, List.length_append]
    dsimp only
    omega
  | moveAssign this other =>
    by_cases hne : this = other
    · obtain ⟨rfl, -⟩ := Prod.mk.inj (Option.some.inj ((if_pos hne).symm.trans h))
      exact ⟨hs, 0, rfl, iff_of_true rfl hne⟩
    · obtain ⟨m, o, heap, hm, ho, hclear, -, rfl⟩ := moveAssign_cases hne h
      have hcard := card_of_clearMsg hclear
      have hlen := (heldBy_perm hm).length_eq
      have hlen' := (heldBy_set hm o).length_eq
      have hpos := held_length_pos (hs.of_getElem? ho)
      refine ⟨hs.set (hs.of_getElem? ho), o.held.length, ?_, iff_of_false (by omega) hne⟩
      rw [List.length_append] at hlen hlen'
      dsimp only
      omega
  | destroy this =>
    obtain ⟨m, heap, hm, hclear, -, rfl⟩ := destroy_cases h
    have hcard := card_of_clearMsg hclear
    have hlen := (heldBy_perm hm).length_eq
    refine ⟨fun o ho => hs o (List.mem_of_mem_eraseIdx ho), 0, ?_, iff_of_true rfl trivial⟩
    rw [List.length_append] at hlen
    dsimp only
    omega

/-! ### Accounting -/

/-- Every live block is held by one member of one object, and every buffer has a text that fits. -/
structure MsgStore.Accounted (pl : Platform) (base : Finset Addr) (evs : List (BlockEvent Addr))
    (s : MsgStore τ) : Prop where
  ledger : Ledger base s.heap.live evs (heldBy s.objects)
  texts : ∀ m ∈ s.objects, ∃ text, m.getMsg s.heap = some text ∧
    text.length + 1 ≤ pl.sizeofPointer

theorem mem_heldBy_of_msg {a : Addr} (hm : m ∈ objects) (ha : m.msg = some a) :
    a ∈ heldBy objects :=
  List.mem_flatMap.mpr ⟨m, hm, List.mem_append_right _ (by simp [ha])⟩

/-- A text is read from the buffer only. -/
theorem getMsg_congr (h : ∀ a, m.msg = some a → heap'.load a = heap.load a) :
    m.getMsg heap' = m.getMsg heap := by
  cases hmsg : m.msg with
  | none => simp [MsgMembers.getMsg, hmsg]
  | some a => simp [MsgMembers.getMsg, hmsg, h a hmsg]

namespace MsgStore.Accounted

/-- Where the blocks in use are as they were, so are the texts. -/
theorem texts_congr (h : s.Accounted pl base evs)
    (hsub : ∀ m ∈ objects, m ∈ s.objects)
    (hload : ∀ a ∈ heldBy objects, heap'.load a = s.heap.load a) (hm : m ∈ objects) :
    ∃ text, m.getMsg heap' = some text ∧ text.length + 1 ≤ pl.sizeofPointer := by
  rw [getMsg_congr fun a ha => hload a (mem_heldBy_of_msg hm ha)]
  exact h.texts m (hsub m hm)

/-- The order of the objects does not matter. -/
theorem perm (h : s.Accounted pl base evs) (hp : s.objects.Perm objects) :
    (MsgStore.mk objects s.heap).Accounted pl base evs where
  ledger := h.ledger.perm (hp.flatMap_right MsgMembers.held)
  texts m hm := h.texts m (hp.mem_iff.mpr hm)

theorem ne_of_fresh (h : s.Accounted pl base evs) {a b : Addr} (ha : a ∈ heldBy s.objects)
    (hb : b ∉ s.heap.live) : a ≠ b := by
  rintro rfl
  exact hb (h.ledger.live_iff.mpr (Or.inr ha))

/-- A new object with a text that fits, and the blocks it holds: these are made before, and then
written. -/
theorem append (h : s.Accounted pl base evs) (hm : Ledger base heap.live outs
    (m.held ++ heldBy s.objects)) (hload : ∀ a ∈ heldBy s.objects, heap.load a = s.heap.load a)
    {text : Text} (htext : m.getMsg heap = some text)
    (hfit : text.length + 1 ≤ pl.sizeofPointer) :
    (MsgStore.mk (s.objects ++ [m]) heap).Accounted pl base outs where
  ledger := by
    rw [heldBy_append]
    exact hm.perm List.perm_append_comm
  texts o ho := by
    rcases List.mem_append.mp ho with ho | ho
    · exact h.texts_congr (fun _ => id) hload ho
    · obtain rfl := List.mem_singleton.mp ho
      exact ⟨text, htext, hfit⟩

/-- An object without a time stamp, and its buffer. -/
theorem appendMsg (h : s.Accounted pl base evs) {b : Addr} (hb : b ∉ s.heap.live) {text : Text}
    (hfit : text.length + 1 ≤ pl.sizeofPointer) :
    (MsgStore.mk (s.objects ++ [⟨none, some b⟩])
      ⟨Function.update s.heap.cell b (.chars text), insert b s.heap.live⟩).Accounted pl base
        (evs ++ [.made b]) := by
  refine h.append (h.ledger.make hb) (fun a ha => Heap.load_write_of_ne (h.ne_of_fresh ha hb))
    ?_ hfit
  simp [MsgMembers.getMsg, Heap.load_write_self]

/-- A text is there to be copied. -/
theorem exists_text (h : s.Accounted pl base evs) (ho : o ∈ s.objects) {b : Addr}
    (hb : b ∉ s.heap.live) :
    ∃ text, o.getMsg (s.heap.alloc b) = some text ∧ text.length + 1 ≤ pl.sizeofPointer := by
  obtain ⟨text, htext, hfit⟩ := h.texts o ho
  refine ⟨text, ?_, hfit⟩
  rw [← htext]
  exact getMsg_congr fun a ha =>
    Heap.load_alloc_of_ne (h.ne_of_fresh (mem_heldBy_of_msg ho ha) hb)

/-- Clearing an object, which then is left out. -/
theorem clear (h : s.Accounted pl base evs) (hm : s.objects[this]? = some m) :
    ∃ heap, m.clearMsg s.heap = some (⟨none, none⟩, heap) ∧
      (MsgStore.mk (s.objects.eraseIdx this) heap).Accounted pl base
        (evs ++ m.held.map .freed) ∧
      heap.live = s.heap.live \ m.held.toFinset := by
  have hledger := h.ledger.perm (heldBy_perm hm)
  have hload : ∀ a ∈ heldBy (s.objects.eraseIdx this),
      (Heap.mk s.heap.cell (s.heap.live \ m.held.toFinset)).load a = s.heap.load a := by
    intro a ha
    refine Heap.load_sdiff_of_notMem ?_
    intro hmem
    exact (List.nodup_append.mp hledger.nodup).2.2 a hmem a ha rfl
  refine ⟨_, clearMsg_of_ledger hledger, ⟨hledger.freeAll, ?_⟩, rfl⟩
  intro o ho
  exact h.texts_congr (fun _ => List.mem_of_mem_eraseIdx) hload ho

end MsgStore.Accounted

/-- What another object has is not among the blocks of this one. -/
theorem mem_eraseIdx_of_ne (hne : this ≠ other) (ho : objects[other]? = some o) :
    o ∈ objects.eraseIdx this :=
  List.mem_eraseIdx_iff_getElem?.mpr ⟨other, hne.symm, ho⟩

/-- A new object with both blocks. -/
theorem MsgStore.Accounted.construct (h : s.Accounted pl base evs) {text : Text} {now : τ}
    {newTm newMsg : Addr} (hTm : newTm ∉ s.heap.live) (hMsg : newMsg ∉ s.heap.live)
    (hne : newTm ≠ newMsg) (hfit : text.length + 1 ≤ pl.sizeofPointer) :
    (MsgStore.mk (s.objects ++ [⟨some newTm, some newMsg⟩])
      ⟨Function.update (Function.update s.heap.cell newTm (.time now)) newMsg (.chars text),
        insert newMsg (insert newTm s.heap.live)⟩).Accounted pl base
          (evs ++ [.made newTm, .made newMsg]) := by
  have hnew : newMsg ∉ insert newTm s.heap.live := by
    rw [Finset.mem_insert, not_or]
    exact ⟨hne.symm, hMsg⟩
  have hledger := ((h.ledger.make hTm).make hnew).perm (List.Perm.swap newTm newMsg _)
  rw [List.append_assoc, List.singleton_append] at hledger
  refine h.append hledger ?_ ?_ hfit
  · intro a ha
    exact (Heap.load_write_of_ne (h := ⟨_, _⟩) (h.ne_of_fresh ha hMsg)).trans
      (Heap.load_write_of_ne (h.ne_of_fresh ha hTm))
  · simp only [MsgMembers.getMsg, Option.bind_eq_bind, Option.bind_some]
    rw [Heap.load_write_self ⟨_, _⟩]
    rfl

/-- **One call.** As long as the calls are sound, every block has its holder, and nothing goes wrong
but a text that does not fit. -/
theorem msgMachine_step {c : MsgCall τ} (h : s.Accounted pl base evs)
    (ha : (msgMachine pl τ).allowed s c) (hc : c.Sound) :
    (c.Fits pl → ∃ t o, (msgMachine pl τ).step s c = some (t, o) ∧
      t.Accounted pl base (evs ++ o)) ∧
    (¬ c.Fits pl → (msgMachine pl τ).step s c = none) := by
  cases c with
  | construct text now newTm newMsg =>
    obtain ⟨hTm, hMsg, hne⟩ := ha
    have hstep : (msgMachine pl τ).step s (.construct text now newTm newMsg) = _ :=
      construct_eq s text now newTm newMsg
    rw [hstep]
    exact ⟨fun hfit => ⟨_, _, if_pos hfit, h.construct hTm hMsg hne hfit⟩,
      fun hlong => if_neg hlong⟩
  | copyConstruct prior other newMsg =>
    obtain ⟨hlt, hnew⟩ := ha
    obtain ⟨o, ho⟩ : ∃ o, s.objects[other]? = some o := ⟨_, List.getElem?_eq_getElem hlt⟩
    obtain ⟨text, htext, hfit⟩ := h.exists_text (List.mem_of_getElem? ho) hnew
    obtain ⟨tm, msg⟩ := prior
    obtain rfl : tm = none := hc
    exact ⟨fun _ => ⟨_, _, copyConstruct_of_getMsg _ ho htext hfit, h.appendMsg hnew hfit⟩,
      fun hlong => absurd trivial hlong⟩
  | copyAssign this other newMsg =>
    refine ⟨?_, fun hlong => absurd trivial hlong⟩
    intro _
    by_cases hne : this = other
    · exact ⟨s, [], if_pos hne, by rwa [List.append_nil]⟩
    · obtain ⟨hlt, m, hm, hnew⟩ := ha
      obtain ⟨o, ho⟩ : ∃ o, s.objects[other]? = some o := ⟨_, List.getElem?_eq_getElem hlt⟩
      obtain ⟨heap, hclear, hacc, hlive⟩ := h.clear hm
      rw [← hlive] at hnew
      obtain ⟨text, htext, hfit⟩ := hacc.exists_text (mem_eraseIdx_of_ne hne ho) hnew
      have hset := List.set_perm_cons_eraseIdx (List.getElem?_eq_some_iff.mp hm).1
        (⟨none, some newMsg⟩ : MsgMembers)
      have hacc' := (hacc.appendMsg hnew hfit).perm
        ((List.perm_append_singleton _ _).trans hset.symm)
      rw [List.append_assoc] at hacc'
      refine ⟨_, _, ?_, hacc'⟩
      show s.copyAssign pl this other newMsg = _
      rw [MsgStore.copyAssign, if_neg hne, hm, ho]
      simp only [Option.bind_eq_bind, Option.bind_some, hclear, htext, strcpyMsg_alloc,
        if_pos hfit]
      rfl
  | moveConstruct prior other => exact absurd hc not_false
  | moveAssign this other =>
    exact ⟨fun _ => ⟨s, [], if_pos hc, by rwa [List.append_nil]⟩, fun hlong => absurd trivial hlong⟩
  | destroy this =>
    obtain ⟨heap, hclear, hacc, -⟩ := h.clear (List.getElem?_eq_getElem ha)
    refine ⟨fun _ => ⟨_, _, ?_, hacc⟩, fun hlong => absurd trivial hlong⟩
    show s.destroy this = _
    rw [MsgStore.destroy, List.getElem?_eq_getElem ha]
    simp only [Option.bind_eq_bind, Option.bind_some, hclear]
    rfl

/-! ### Whole runs -/

/-- A moment of a run: there are as many holders too many as the calls have made. -/
theorem count_of_run {heap₀ : Heap Addr (MsgBlock τ)} {calls : List (MsgCall τ)}
    (h : (msgMachine pl τ).Run (.start heap₀) calls t evs) :
    t.Buffered ∧ ∃ k, (heldBy t.objects).length + heap₀.live.card = t.heap.live.card + k ∧
      (k = 0 ↔ ((msgMachine pl τ).restrict fun _ c => c.Sound).Run (.start heap₀) calls t evs) := by
  have hrecord := h.exists_record_iff (C := fun _ c => c.Sound)
    (I := fun _ t _ k => t.Buffered ∧
      (heldBy t.objects).length + heap₀.live.card = t.heap.live.card + k)
    (Q := fun _ _ _ k => k = 0)
    ⟨0, ⟨fun _ hm => absurd hm List.not_mem_nil, Nat.add_comm ..⟩, rfl⟩ ?_
  · obtain ⟨k, ⟨hbuffered, hk⟩, hsound⟩ := hrecord
    exact ⟨hbuffered, k, hk, hsound⟩
  · rintro calls t evs c u o k hrun ⟨hbuffered, hk⟩ ha hstep
    obtain ⟨hbuffered', k', hk', hsound'⟩ := msgMachine_count hbuffered ha hstep
    refine ⟨k + k', ⟨hbuffered', by omega⟩, ?_⟩
    rw [← hsound', Nat.add_eq_zero_iff]

/-- As long as all of the calls are sound, every block is accounted for. -/
theorem accounted_of_run {heap₀ : Heap Addr (MsgBlock τ)} {calls : List (MsgCall τ)}
    (h : ((msgMachine pl τ).restrict fun _ c => c.Sound).Run (.start heap₀) calls t evs) :
    t.Accounted pl heap₀.live evs := by
  refine h.invariant (P := fun _ t evs => t.Accounted pl heap₀.live evs)
    ⟨.nil _, fun _ hm => absurd hm List.not_mem_nil⟩ ?_
  intro calls t evs c u o _ hacc ha hstep
  obtain ⟨hfits, hlong⟩ := msgMachine_step hacc ha.1 ha.2
  by_cases hfit : c.Fits pl
  · obtain ⟨u', o', hstep', hacc'⟩ := hfits hfit
    obtain ⟨rfl, rfl⟩ := Prod.mk.inj (Option.some.inj (hstep'.symm.trans hstep))
    exact hacc'
  · cases (hlong hfit).symm.trans hstep

/-- **Owning the blocks.** At the end of a run every block that is live has one holder, and every
other one that was made has been freed once, exactly if the calls of the run were sound. From there
a sound call never frees what is not live, and when all objects are gone so are the blocks. -/
theorem message_blocks_owned_iff {heap₀ : Heap Addr (MsgBlock τ)} {calls : List (MsgCall τ)}
    (h : (msgMachine pl τ).Run (.start heap₀) calls t evs) :
    (Ledger heap₀.live t.heap.live evs (heldBy t.objects) ↔
      ((msgMachine pl τ).restrict fun _ c => c.Sound).Run (.start heap₀) calls t evs) ∧
    (Ledger heap₀.live t.heap.live evs (heldBy t.objects) →
      (∀ c, (msgMachine pl τ).allowed t c → c.Sound →
        ((∃ u o, (msgMachine pl τ).step t c = some (u, o)) ↔ c.Fits pl)) ∧
      (t.objects = [] → t.heap.live = heap₀.live)) := by
  obtain ⟨-, k, hk, hsound⟩ := count_of_run h
  have howned : Ledger heap₀.live t.heap.live evs (heldBy t.objects) ↔
      ((msgMachine pl τ).restrict fun _ c => c.Sound).Run (.start heap₀) calls t evs := by
    refine ⟨fun hledger => hsound.mp ?_, fun hrun => (accounted_of_run hrun).ledger⟩
    have hcard := hledger.card_live
    omega
  refine ⟨howned, fun hledger => ⟨?_, ?_⟩⟩
  · intro c ha hc
    obtain ⟨hfits, hlong⟩ := msgMachine_step (accounted_of_run (howned.mp hledger)) ha hc
    refine ⟨?_, ?_⟩
    · rintro ⟨u, o, hstep⟩
      by_contra hfit
      cases (hlong hfit).symm.trans hstep
    · intro hfit
      obtain ⟨u, o, hstep, -⟩ := hfits hfit
      exact ⟨u, o, hstep⟩
  · intro hnone
    ext a
    rw [hledger.live_iff, hnone]
    exact or_iff_left List.not_mem_nil

/-- A message, a copy of it in zeroed storage, an assignment between the two, and their ends. -/
def MsgCall.sample : List (MsgCall ℕ) :=
  [.construct [97] 5 1 2, .copyConstruct ⟨none, none⟩ 0 3, .copyAssign 1 0 3, .destroy 0,
    .destroy 0]

theorem message_blocks_owned_sample : ∃ t evs,
    (msgMachine ⟨8, fun _ => []⟩ ℕ).Run (.start ⟨fun _ => .time 0, ∅⟩) MsgCall.sample t evs ∧
      Ledger ∅ t.heap.live evs (heldBy t.objects) ∧ t.heap.live = ∅ := by
  have hrun : ((msgMachine ⟨8, fun _ => []⟩ ℕ).restrict fun _ c => c.Sound).Run
      (.start ⟨fun _ => .time 0, ∅⟩) MsgCall.sample _ _ := Machine.run_of_exec rfl
  have hledger := (message_blocks_owned_iff hrun.of_restrict).1.mpr hrun
  exact ⟨_, _, hrun.of_restrict, hledger,
    ((message_blocks_owned_iff hrun.of_restrict).2 hledger).2 rfl⟩

/-- Two messages, and one is moved to the other: both have its blocks, and their ends would free
them twice. -/
theorem not_message_blocks_owned : ∃ t evs u o,
    (msgMachine ⟨8, fun _ => []⟩ ℕ).Run (.start ⟨fun _ => .time 0, ∅⟩)
      [.construct [97] 5 1 2, .construct [98] 6 3 4, .moveAssign 0 1] t evs ∧
    heldBy t.objects = [3, 4, 3, 4] ∧ ¬ Ledger ∅ t.heap.live evs (heldBy t.objects) ∧
    (msgMachine ⟨8, fun _ => []⟩ ℕ).step t (.destroy 0) = some (u, o) ∧
    (msgMachine ⟨8, fun _ => []⟩ ℕ).step u (.destroy 0) = none := by
  have hrun : (msgMachine ⟨8, fun _ => []⟩ ℕ).Run (.start ⟨fun _ => .time 0, ∅⟩)
      [.construct [97] 5 1 2, .construct [98] 6 3 4, .moveAssign 0 1] _ _ :=
    Machine.run_of_exec rfl
  exact ⟨_, _, _, _, hrun, rfl, fun hledger => absurd hledger.nodup (by decide), rfl, rfl⟩

end Exec02
