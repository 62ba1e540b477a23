import Exec02.Lib.CString
import Exec02.MyTestMain01HeapRuns
import Mathlib.Data.List.Sort

/-!
# Listing the priority queue

`operator<<` of `MyTestMain01.cpp` lists a `Heap` by emptying a copy of it: it prints what
`deleteMax` answers until that is `-1`. This is the answer of an empty heap, but also of one whose
greatest value is `-1`, and then the listing stops although there is more.

## Reading the model

Memory is the arrays that exist, by their addresses. The copy gets one that was not in use, and its
destructor frees it, so what there was before the listing can be compared with what there is
afterwards.

## Main results

* `Removes.spec` — what `deleteMax` removes comes in order
* `removes_of_print`, `print_of_removes` — what is listed is what it removes
* `heap_listing_iff` — the listings that are complete
-/

namespace Exec02

open HeapFault

/-! ### The source -/

/-- The arrays that exist. -/
abbrev IntArrays := Heap Addr (Heap ℕ ℤ)

/-- A heap as it is in memory. -/
abbrev HeapPtr := HeapOf Addr

/-- The same heap, with another pointer to its array or with the array itself. -/
def HeapOf.withAr {π ρ : Type} (heap : HeapOf π) (ar : ρ) : HeapOf ρ :=
  ⟨heap.capacity, heap.count, ar, heap.heapType⟩

/-- `os << data << " "`. -/
def listingItem (data : ℤ) : List UInt8 := formatInt 0 data ++ ascii " "

namespace HeapPtr

/-- `copyAr(src, n)`, where `new` answers `dst`. -/
def copyAr (mem : IntArrays) (src : Addr) (n : ℤ) (dst : Addr) : Except HeapFault IntArrays := do
  let mem := mem.alloc dst
  let ar ← orOutside (mem.load src)
  if (newInts n ar.cell).live ⊆ ar.live then orOutside (mem.store dst (newInts n ar.cell))
  else .error .outside

/-- `Heap(const Heap& src)`. -/
def copy (src : HeapPtr) (mem : IntArrays) (dst : Addr) :
    Except HeapFault (HeapPtr × IntArrays) := do
  let mem ← copyAr mem src.ar src.capacity dst
  return (src.withAr dst, mem)

/-- `deleteMax()`. -/
def deleteMax (heap : HeapPtr) (mem : IntArrays) :
    Except HeapFault (ℤ × HeapPtr × IntArrays) := do
  let ar ← orOutside (mem.load heap.ar)
  let (data, s) ← IntHeap.deleteMax (heap.withAr ar)
  let mem ← orOutside (mem.store heap.ar s.ar)
  return (data, s.withAr heap.ar, mem)

/-- `while (-1 != (data = cp.deleteMax())) os << data << " ";`. -/
def drain : ℕ → HeapPtr → IntArrays → Except HeapFault (List UInt8 × HeapPtr × IntArrays)
  | 0, _, _ => .error .endless
  | fuel + 1, cp, mem => do
    let (data, cp, mem) ← cp.deleteMax mem
    if -1 ≠ data then
      let (text, cp, mem) ← drain fuel cp mem
      return (listingItem data ++ text, cp, mem)
    return ([], cp, mem)

/-- `os << heap`, where the array of the copy is at `dst`. -/
def print (heap : HeapPtr) (mem : IntArrays) (dst : Addr) :
    Except HeapFault (List UInt8 × IntArrays) := do
  let (cp, mem) ← heap.copy mem dst
  let size := ascii "size = " ++ formatInt 0 cp.count ++ ascii ", data=["
  let (text, cp, mem) ← drain (cp.count.toNat + 1) cp mem
  let mem ← orOutside (mem.free cp.ar)
  return (size ++ text ++ ascii "]" ++ [10], mem)

end HeapPtr

/-- The listing of so many values. -/
def heapListing (size : ℤ) (data : List ℤ) : List UInt8 :=
  ascii "size = " ++ formatInt 0 size ++ ascii ", data=[" ++ data.flatMap listingItem ++
    ascii "]" ++ [10]

/-! ### Removing one value after the other -/

namespace IntHeap

/-- `deleteMax` removes these values, one after the other. -/
inductive Removes : IntHeap → List ℤ → IntHeap → Prop
  | nil (s : IntHeap) : Removes s [] s
  | cons {s t u : IntHeap} {v : ℤ} {vs : List ℤ} (hne : 0 < s.count)
    (first : s.deleteMax = .ok (v, t)) (rest : Removes t vs u) : Removes s (v :: vs) u

/-- All the values can be removed without an `int` that gets too large. -/
def Drains (s : IntHeap) : Prop := ∃ vs t, Removes s vs t ∧ t.count = 0

variable {s t u : IntHeap} {n : ℕ} {vs : List ℤ}

/-- **In order.** What is removed comes in order, and is not less than what is left. -/
theorem Removes.spec (h : s.Removes vs t) (hs : s.Ordered n) : ∃ m, n = vs.length + m ∧
    t.Ordered m ∧ s.contents.Perm (vs ++ t.contents) ∧ vs.Pairwise (· ≥ ·) ∧
      ∀ v ∈ vs, ∀ x ∈ t.contents, x ≤ v := by
  induction h generalizing n with
  | nil s =>
    refine ⟨n, (Nat.zero_add n).symm, hs, .refl _, .nil, ?_⟩
    intro v hv
    exact absurd hv List.not_mem_nil
  | @cons s t u v vs hne first rest ih =>
    have hcount := hs.count
    obtain ⟨n, rfl⟩ := Nat.exists_eq_succ_of_ne_zero (show n ≠ 0 by omega)
    obtain ⟨ht, hmax, hperm⟩ := deleteMax_ok hs first
    obtain ⟨m, rfl, hu, hperm', hsorted, hrest⟩ := ih ht
    have hperm := hperm.trans (hperm'.cons v)
    refine ⟨m, by rw [List.length_cons]; omega, hu, hperm, ?_, ?_⟩
    · refine List.pairwise_cons.mpr ⟨?_, hsorted⟩
      intro w hw
      exact hmax w (hperm.mem_iff.mpr (List.mem_cons_of_mem _ (List.mem_append_left _ hw)))
    · refine List.forall_mem_cons.mpr ⟨?_, hrest⟩
      intro x hx
      exact hmax x (hperm.mem_iff.mpr (List.mem_cons_of_mem _ (List.mem_append_right _ hx)))

/-- A heap of at most `2 ^ 30` values can be emptied. -/
theorem drains_of_le (h : s.Ordered n) (hn : n ≤ 2 ^ 30) : s.Drains := by
  induction n generalizing s with
  | zero => exact ⟨[], s, .nil s, h.count⟩
  | succ n ih =>
    have hcount := h.count
    rcases deleteMax_spec h with ⟨-, hlarge⟩ | ⟨v, t, hdelete, ht, -⟩
    · omega
    · obtain ⟨vs, u, hrest, hempty⟩ := ih ht (by omega)
      exact ⟨v :: vs, u, .cons (by omega) hdelete hrest, hempty⟩

end IntHeap

/-! ### The loop -/

namespace HeapPtr

open IntHeap

variable {s t u : IntHeap} {n fuel : ℕ} {vs : List ℤ} {mem mem' : IntArrays} {a b : Addr}
  {text : List UInt8} {cp : HeapPtr}

/-- In memory, it is the array that changes. -/
theorem deleteMax_eq (hload : mem.load a = some s.ar) :
    deleteMax (s.withAr a) mem = (do
      let (data, t) ← s.deleteMax
      return (data, t.withAr a, ⟨Function.update mem.cell a t.ar, mem.live⟩)) := by
  have ha := mem.mem_of_load hload
  have hload : orOutside (mem.load (s.withAr a).ar) = .ok s.ar := congrArg orOutside hload
  rw [deleteMax, hload, ok_bind]
  refine congrArg (s.deleteMax >>= ·) ?_
  funext r
  have hstore : orOutside (mem.store (s.withAr a).ar r.2.ar) =
      .ok ⟨Function.update mem.cell a r.2.ar, mem.live⟩ :=
    congrArg orOutside (Heap.store_of_mem ha r.2.ar)
  simp only [hstore, ok_bind]
  rfl

/-- The array is there again for the next round. -/
theorem load_update (hload : mem.load a = some s.ar) (ar : Heap ℕ ℤ) :
    (Heap.mk (Function.update mem.cell a ar) mem.live).load a = some ar := by
  rw [Heap.load_of_mem (h := ⟨Function.update mem.cell a ar, mem.live⟩) (mem.mem_of_load hload)]
  exact congrArg some (Function.update_self ..)

/-- What the loop has printed is what was removed, and nothing but the array has changed. -/
theorem removes_of_drain (hload : mem.load a = some s.ar)
    (h : drain fuel (s.withAr a) mem = .ok (text, cp, mem')) :
    ∃ vs t, s.Removes vs t ∧ -1 ∉ vs ∧ text = vs.flatMap listingItem ∧ cp.ar = a ∧
      mem'.live = mem.live ∧ ∀ x, x ≠ a → mem'.cell x = mem.cell x := by
  induction fuel generalizing s mem text with
  | zero => cases h
  | succ fuel ih =>
    rw [drain, deleteMax_eq hload] at h
    cases hdelete : s.deleteMax with
    | error fault =>
      rw [hdelete] at h
      cases h
    | ok r =>
      obtain ⟨v, t⟩ := r
      simp only [hdelete, ok_bind, pure_eq] at h
      split_ifs at h with hv
      · cases hdrain : drain fuel (t.withAr a) ⟨Function.update mem.cell a t.ar, mem.live⟩ with
        | error fault =>
          rw [hdrain] at h
          cases h
        | ok r =>
          obtain ⟨rest, cp', mem''⟩ := r
          rw [hdrain] at h
          cases h
          obtain ⟨vs, u, hremoves, hvs, rfl, hcp, hlive, hcells⟩ := ih (load_update hload _) hdrain
          have hne : 0 < s.count := by
            by_contra hempty
            rw [IntHeap.deleteMax, if_pos (not_lt.mp hempty)] at hdelete
            cases hdelete
            exact hv rfl
          refine ⟨v :: vs, u, .cons hne hdelete hremoves, ?_, rfl, hcp, hlive, ?_⟩
          · exact List.not_mem_cons_of_ne_of_not_mem hv hvs
          · intro x hx
            exact (hcells x hx).trans (Function.update_of_ne hx ..)
      · cases h
        refine ⟨[], s, .nil s, List.not_mem_nil, rfl, rfl, rfl, ?_⟩
        intro x hx
        exact Function.update_of_ne hx ..

/-- The loop prints what can be removed, up to the end. -/
theorem drain_of_removes (h : s.Removes vs t) (hvs : -1 ∉ vs) (hend : t.deleteMax = .ok (-1, u))
    (hload : mem.load a = some s.ar) (hfuel : vs.length < fuel) :
    ∃ cp mem', drain fuel (s.withAr a) mem = .ok (vs.flatMap listingItem, cp, mem') := by
  induction h generalizing fuel mem with
  | nil s =>
    obtain ⟨fuel, rfl⟩ := Nat.exists_eq_succ_of_ne_zero (Nat.ne_of_gt hfuel)
    rw [drain, deleteMax_eq hload, hend]
    exact ⟨_, _, rfl⟩
  | @cons s t u v vs hne first rest ih =>
    obtain ⟨fuel, rfl⟩ := Nat.exists_eq_succ_of_ne_zero (Nat.ne_of_gt (Nat.zero_lt_of_lt hfuel))
    obtain ⟨hv, hvs⟩ := not_or.mp (mt List.mem_cons.mpr hvs)
    obtain ⟨cp, mem', hdrain⟩ := ih hvs hend (load_update hload t.ar) (Nat.lt_of_succ_lt_succ hfuel)
    refine ⟨cp, mem', ?_⟩
    rw [drain, deleteMax_eq hload, first]
    simp only [ok_bind, pure_eq, if_pos hv, hdrain]
    rfl

/-- The copy is the same heap, with an array of its own. -/
theorem copy_eq (hs : s.Shaped n) (hload : mem.load a = some s.ar) (hb : b ∉ mem.live) :
    copy (s.withAr a) mem b =
      .ok (s.withAr b, ⟨Function.update mem.cell b s.ar, insert b mem.live⟩) := by
  have hab : a ≠ b := by
    rintro rfl
    exact hb (mem.mem_of_load hload)
  have hsrc : orOutside ((mem.alloc b).load a) = .ok s.ar := by
    rw [Heap.load_alloc_of_ne hab, hload]
    rfl
  have hsame : newInts s.capacity s.ar.cell = s.ar := by
    rw [newInts, ← hs.live]
  have hstore : (mem.alloc b).store b s.ar =
      some ⟨Function.update mem.cell b s.ar, insert b mem.live⟩ :=
    Heap.store_of_mem (Finset.mem_insert_self b mem.live) s.ar
  have hcopy : copyAr mem a s.capacity b =
      .ok ⟨Function.update mem.cell b s.ar, insert b mem.live⟩ := by
    rw [copyAr]
    simp only [hsrc, ok_bind, hsame, hstore, if_pos (Finset.Subset.refl s.ar.live)]
    rfl
  exact congrArg (· >>= fun mem => pure (s.withAr b, mem)) hcopy

/-- What is printed, and then the array of the copy is freed. -/
theorem print_eq (hs : s.Shaped n) (hload : mem.load a = some s.ar) (hb : b ∉ mem.live) :
    print (s.withAr a) mem b = (do
      let (text, cp, mem) ← drain (n + 1) (s.withAr b)
        ⟨Function.update mem.cell b s.ar, insert b mem.live⟩
      let mem ← orOutside (mem.free cp.ar)
      return (ascii "size = " ++ formatInt 0 s.count ++ ascii ", data=[" ++ text ++ ascii "]" ++
        [10], mem)) := by
  have hcount : (s.withAr b).count.toNat = n := by
    show s.count.toNat = n
    rw [hs.count, Int.toNat_natCast]
  rw [print, copy_eq hs hload hb, ok_bind]
  simp only [hcount]
  rfl

/-- The array of the copy is there. -/
theorem load_copy (mem : IntArrays) (b : Addr) (ar : Heap ℕ ℤ) :
    (Heap.mk (Function.update mem.cell b ar) (insert b mem.live)).load b = some ar :=
  Heap.load_write_self mem b ar

/-- **What is listed.** It is some of the values, removed one after the other, and what was there is
as it was. -/
theorem removes_of_print (hs : s.Shaped n) (hload : mem.load a = some s.ar) (hb : b ∉ mem.live)
    (h : print (s.withAr a) mem b = .ok (text, mem')) : ∃ vs t, s.Removes vs t ∧ -1 ∉ vs ∧
      text = heapListing s.count vs ∧ mem'.live = mem.live ∧
        ∀ x ∈ mem.live, mem'.cell x = mem.cell x := by
  rw [print_eq hs hload hb] at h
  cases hdrain : drain (n + 1) (s.withAr b)
      ⟨Function.update mem.cell b s.ar, insert b mem.live⟩ with
  | error fault =>
    rw [hdrain] at h
    cases h
  | ok r =>
    obtain ⟨text', cp, mem''⟩ := r
    obtain ⟨vs, t, hremoves, hvs, rfl, rfl, hlive, hcells⟩ :=
      removes_of_drain (load_copy mem b s.ar) hdrain
    have hfree := Heap.free_of_mem (h := mem'') (a := cp.ar) (hlive ▸ Finset.mem_insert_self ..)
    simp only [hdrain, ok_bind, hfree, orOutside, pure_eq] at h
    cases h
    refine ⟨vs, t, hremoves, hvs, rfl, ?_, ?_⟩
    · show mem''.live.erase cp.ar = mem.live
      rw [hlive, Finset.erase_insert hb]
    · intro x hx
      have hne : x ≠ cp.ar := ne_of_mem_of_not_mem hx hb
      exact (hcells x hne).trans (Function.update_of_ne hne ..)

/-- **Listing.** What can be removed up to the end is listed. -/
theorem print_of_removes (hs : s.Shaped n) (hload : mem.load a = some s.ar) (hb : b ∉ mem.live)
    (h : s.Removes vs t) (hvs : -1 ∉ vs) (hend : t.deleteMax = .ok (-1, u))
    (hlen : vs.length ≤ n) :
    ∃ mem', print (s.withAr a) mem b = .ok (heapListing s.count vs, mem') := by
  obtain ⟨cp, mem', hdrain⟩ := drain_of_removes h hvs hend (load_copy mem b s.ar)
    (Nat.lt_succ_of_le hlen)
  obtain ⟨-, -, -, -, -, hcp, hlive, -⟩ := removes_of_drain (load_copy mem b s.ar) hdrain
  have hfree := Heap.free_of_mem (h := mem') (a := cp.ar)
    (hlive ▸ hcp ▸ Finset.mem_insert_self ..)
  rw [print_eq hs hload hb]
  simp only [hdrain, ok_bind, hfree, orOutside]
  exact ⟨_, rfl⟩

end HeapPtr

/-! ### Complete listings -/

/-- A listing that goes on is another text. -/
theorem eq_nil_of_heapListing {size : ℤ} {vs rest : List ℤ}
    (h : heapListing size (vs ++ rest) = heapListing size vs) : rest = [] := by
  have hlen := congrArg List.length h
  simp only [heapListing, List.flatMap_append, List.length_append] at hlen
  have hnil : rest.flatMap listingItem = [] := List.eq_nil_of_length_eq_zero (by omega)
  refine List.eq_nil_iff_forall_not_mem.mpr ?_
  intro v hv
  have hitem := List.flatMap_eq_nil_iff.mp hnil v hv
  have hspace : ascii " " = [] := (List.append_eq_nil_iff.mp hitem).2
  exact absurd hspace (by decide)

variable {s₀ t : IntHeap} {calls : List HeapCall} {outs : List ℤ} {capacity : Int32}
  {heapType : HeapType} {prior : ℕ → ℤ} {mem : IntArrays} {a b : Addr}

/-- **Complete listings.** A heap is listed with all its values, in order and itself unchanged,
exactly if none of them is `-1` and they can all be removed; which is so if there are at most
`2 ^ 30` of them. -/
theorem heap_listing_iff (hnew : IntHeap.new capacity heapType prior = some s₀)
    (h : heapMachine.Run s₀ calls t outs) (hload : mem.load a = some t.ar) (hb : b ∉ mem.live) :
    ((∃ values mem', HeapPtr.print (t.withAr a) mem b = .ok (heapListing t.count values, mem') ∧
        values.length = t.count ∧ values.Perm t.contents ∧ values.Pairwise (· ≥ ·) ∧
        mem'.live = mem.live ∧ ∀ x ∈ mem.live, mem'.cell x = mem.cell x) ↔
      -1 ∉ t.contents ∧ t.Drains) ∧
    (t.count ≤ 2 ^ 30 → t.Drains) := by
  obtain ⟨n, ht⟩ := exists_ordered_of_run hnew h
  have hcount := ht.count
  refine ⟨⟨?_, ?_⟩, fun hle => IntHeap.drains_of_le ht (by omega)⟩
  · rintro ⟨values, mem', hprint, -, hperm, hsorted, -⟩
    obtain ⟨vs, u, hremoves, hvs, htext, -⟩ := HeapPtr.removes_of_print ht.toShaped hload hb hprint
    obtain ⟨m, rfl, hu, hperm', hsorted', hrest⟩ := hremoves.spec ht
    -- the values are those removed, with the others behind them
    have hvalues : values = vs ++ u.contents.insertionSort (· ≥ ·) := by
      refine List.Perm.eq_of_pairwise' hsorted ?_ ?_
      · refine List.pairwise_append.mpr ⟨hsorted', List.pairwise_insertionSort .., ?_⟩
        exact fun v hv x hx => hrest v hv x ((List.perm_insertionSort ..).mem_iff.mp hx)
      · exact hperm.trans (hperm'.trans ((List.perm_insertionSort ..).symm.append_left vs))
    rw [hvalues] at htext
    have hleft := List.perm_insertionSort (· ≥ ·) u.contents
    rw [eq_nil_of_heapListing htext] at hleft
    have hnil : u.contents = [] := hleft.symm.eq_nil
    refine ⟨fun hmem => hvs ?_, vs, u, hremoves, ?_⟩
    · rw [hnil, List.append_nil] at hperm'
      exact hperm'.mem_iff.mp hmem
    · have hlen := hu.length_contents
      rw [hnil, List.length_nil] at hlen
      rw [hu.count, ← hlen]
      rfl
  · rintro ⟨hnot, vs, u, hremoves, hempty⟩
    obtain ⟨m, rfl, hu, hperm, hsorted, -⟩ := hremoves.spec ht
    obtain rfl : m = 0 := by
      have := hu.count
      omega
    rw [hu.contents_eq, segment_self, List.append_nil] at hperm
    have hvs : -1 ∉ vs := fun hmem => hnot (hperm.mem_iff.mpr hmem)
    obtain ⟨mem', hprint⟩ := HeapPtr.print_of_removes ht.toShaped hload hb hremoves hvs
      (IntHeap.deleteMax_zero hu.toShaped) le_rfl
    obtain ⟨-, -, -, -, -, hlive, hcells⟩ :=
      HeapPtr.removes_of_print ht.toShaped hload hb hprint
    exact ⟨vs, mem', hprint, hcount.symm, hperm.symm, hsorted, hlive, hcells⟩

/-- Two values are in the heap, whose array is at `0`, and at `1` there is room for the copy. -/
theorem heap_listing_sample : ∃ s₀ t outs, IntHeap.new 1 .max (fun _ => 7) = some s₀ ∧
    heapMachine.Run s₀ [.insert 2 fun _ => 0, .insert 5 fun _ => 0] t outs ∧
      ∃ values mem', HeapPtr.print (t.withAr 0) ⟨fun _ => t.ar, {0}⟩ 1 =
        .ok (heapListing t.count values, mem') ∧ values.Perm [5, 2] ∧ values.Pairwise (· ≥ ·) := by
  have hnew : IntHeap.new 1 .max (fun _ => 7) = some ⟨1, 0, newInts 1 fun _ => 7, .max⟩ := rfl
  obtain ⟨t, outs, hrun, hcontents, hcount⟩ : ∃ t outs,
      heapMachine.Run ⟨1, 0, newInts 1 fun _ => 7, .max⟩
        [.insert 2 fun _ => 0, .insert 5 fun _ => 0] t outs ∧ t.contents = [5, 2] ∧ t.count = 2 :=
    ⟨_, _, Machine.run_of_exec rfl, rfl, rfl⟩
  have hload : (⟨fun _ => t.ar, {0}⟩ : IntArrays).load 0 = some t.ar := rfl
  obtain ⟨hiff, hdrains⟩ :=
    heap_listing_iff hnew hrun hload (show 1 ∉ ({0} : Finset ℕ) by decide)
  rw [hcontents] at hiff
  rw [hcount] at hdrains
  obtain ⟨values, mem', hprint, -, hperm, hsorted, -⟩ :=
    hiff.mpr ⟨by decide, hdrains (by decide)⟩
  exact ⟨_, t, outs, hnew, hrun, values, mem', hprint, hperm, hsorted⟩

/-- A heap whose only value is `-1` is listed as one without values. -/
theorem not_heap_listing : ∃ s₀ t outs, IntHeap.new 1 .max (fun _ => 7) = some s₀ ∧
    heapMachine.Run s₀ [.insert (-1) fun _ => 0] t outs ∧ t.contents = [-1] ∧
      (∃ mem', HeapPtr.print (t.withAr 0) ⟨fun _ => t.ar, {0}⟩ 1 =
        .ok (heapListing 1 [], mem')) ∧
      ¬ ∃ values mem', HeapPtr.print (t.withAr 0) ⟨fun _ => t.ar, {0}⟩ 1 =
        .ok (heapListing 1 values, mem') ∧ values.Perm t.contents := by
  obtain ⟨t, u, outs, hrun, hcontents, hcount, hshape, hend⟩ : ∃ t u outs,
      heapMachine.Run ⟨1, 0, newInts 1 fun _ => 7, .max⟩ [.insert (-1) fun _ => 0] t outs ∧
        t.contents = [-1] ∧ t.count = 1 ∧ t.Shaped 1 ∧ t.deleteMax = .ok (-1, u) :=
    ⟨_, _, _, Machine.run_of_exec rfl, rfl, rfl, ⟨rfl, by decide, by decide, rfl⟩, rfl⟩
  have hload : (⟨fun _ => t.ar, {0}⟩ : IntArrays).load 0 = some t.ar := rfl
  obtain ⟨mem', hprint⟩ := HeapPtr.print_of_removes hshape hload
    (show 1 ∉ ({0} : Finset ℕ) by decide) (.nil t) List.not_mem_nil hend (Nat.zero_le 1)
  rw [hcount] at hprint
  refine ⟨_, t, outs, rfl, hrun, hcontents, ⟨mem', hprint⟩, ?_⟩
  rintro ⟨values, mem'', hprint', hperm⟩
  have htext := (Prod.mk.inj (Except.ok.inj (hprint'.symm.trans hprint))).1
  have htext : heapListing 1 ([] ++ values) = heapListing 1 [] := htext
  have hnil : values = [] := eq_nil_of_heapListing htext
  rw [hnil, hcontents] at hperm
  exact absurd hperm.length_eq (by decide)

end Exec02
