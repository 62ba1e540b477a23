import Exec02.MyList
import Mathlib.Data.Finset.SDiff
import Mathlib.Data.List.Dedup
import Mathlib.Data.Finset.Dedup

/-!
# Destroying a list

`list_destroy` of `MyList.c` removes from the front until `size` says that nothing is left, and
hands each data value to the callback the list was initialised with. The loop looks at `size` and
the removal at the nodes, so that it ends, and frees each node once, because the two agree.

The callback gets one data value and does not reach the list. Its calls are what is observed here,
each with the function called; that no node is freed twice is part of the calls being defined at
all, since freeing what is not live is not.

## Main results

* `listDestroy_spec` — on a represented list
* `list_run_destroy` — after every run of the list
-/

namespace Exec02

open ListMem

variable {δ : Type}

/-- `list->destroy(data)` for one value after the other, unless `destroy` is `NULL`. -/
def destroyCalls (destroy : Option Addr) (ds : List (Option δ)) : List (Addr × Option δ) :=
  match destroy with
  | none => []
  | some destroy => ds.map (destroy, ·)

/-- `list_destroy`, with what its variable `data` holds: the list behind it, and the calls of
`destroy`. -/
def listDestroy : ℕ → ListMem δ → Option δ → Option (ListMem δ × List (Addr × Option δ))
  | 0, _, _ => none
  | fuel + 1, s, data =>
    if s.list.size > 0 then do
      let (ret, s, data) ← listRemNext s none data
      let call := if ret = 0 then destroyCalls s.list.destroy [data] else []
      let (s, calls) ← listDestroy fuel s data
      return (s, call ++ calls)
    else some ((s.setHead none).setTail none, [])

variable {s s' : ListMem δ} {a x : Addr} {d out : Option δ} {p element malloc : Option Addr}
  {ret : ℤ} {ns : List Addr}

/-! ### The callback stays -/

theorem ListMem.list_of_setNext (h : s.setNext a p = some s') : s'.list = s.list := by
  obtain ⟨c, -, h⟩ := Option.bind_eq_some_iff.mp h
  obtain ⟨nodes, -, h⟩ := Option.bind_eq_some_iff.mp h
  rw [← Option.some.inj h]

theorem ListMem.list_of_setData (h : s.setData a d = some s') : s'.list = s.list := by
  obtain ⟨c, -, h⟩ := Option.bind_eq_some_iff.mp h
  obtain ⟨nodes, -, h⟩ := Option.bind_eq_some_iff.mp h
  rw [← Option.some.inj h]

theorem ListMem.list_of_freeNode (h : s.freeNode a = some s') : s'.list = s.list := by
  obtain ⟨nodes, -, rfl⟩ := Option.map_eq_some_iff.mp h
  rfl

theorem destroy_of_listInsNext (h : listInsNext s element d malloc = some (ret, s')) :
    s'.list.destroy = s.list.destroy := by
  cases malloc with
  | none =>
    obtain ⟨-, rfl⟩ := Prod.mk.inj (Option.some.inj h)
    rfl
  | some newElement =>
    obtain ⟨s₁, h₁, h⟩ := Option.bind_eq_some_iff.mp h
    have hlist₁ : s₁.list = s.list := by
      rw [list_of_setData h₁]
      rfl
    rw [← hlist₁]
    cases element with
    | none =>
      obtain ⟨s₂, h₂, h⟩ := Option.bind_eq_some_iff.mp h
      obtain ⟨-, rfl⟩ := Prod.mk.inj (Option.some.inj h)
      rw [ite_setTail] at h₂
      rw [list_setSize, list_setHead, list_of_setNext h₂, list_setTail]
    | some element =>
      obtain ⟨next, -, h⟩ := Option.bind_eq_some_iff.mp h
      obtain ⟨next', -, h⟩ := Option.bind_eq_some_iff.mp h
      obtain ⟨s₂, h₂, h⟩ := Option.bind_eq_some_iff.mp h
      obtain ⟨s₃, h₃, h⟩ := Option.bind_eq_some_iff.mp h
      obtain ⟨-, rfl⟩ := Prod.mk.inj (Option.some.inj h)
      rw [ite_setTail] at h₂
      rw [list_setSize, list_of_setNext h₃, list_of_setNext h₂, list_setTail]

theorem destroy_of_release (h : listRemNext.release s a d = some (ret, s', out)) :
    s'.list.destroy = s.list.destroy := by
  obtain ⟨s₁, h₁, h⟩ := Option.bind_eq_some_iff.mp h
  obtain ⟨s₂, h₂, h⟩ := Option.bind_eq_some_iff.mp h
  obtain ⟨s₃, h₃, h⟩ := Option.bind_eq_some_iff.mp h
  obtain ⟨-, hs⟩ := Prod.mk.inj (Option.some.inj h)
  obtain ⟨rfl, -⟩ := Prod.mk.inj hs
  rw [list_setSize, list_of_freeNode h₃, list_of_setNext h₂, list_of_setData h₁]

theorem destroy_of_listRemNext (h : listRemNext s element d = some (ret, s', out)) :
    s'.list.destroy = s.list.destroy := by
  unfold listRemNext at h
  split at h
  · obtain ⟨-, hs⟩ := Prod.mk.inj (Option.some.inj h)
    rw [(Prod.mk.inj hs).1]
  · cases element with
    | none =>
      obtain ⟨oldElement, -, h⟩ := Option.bind_eq_some_iff.mp h
      obtain ⟨data, -, h⟩ := Option.bind_eq_some_iff.mp h
      obtain ⟨next, -, h⟩ := Option.bind_eq_some_iff.mp h
      rw [destroy_of_release h, ite_setTail, list_setTail, list_setHead]
    | some element =>
      obtain ⟨next, -, h⟩ := Option.bind_eq_some_iff.mp h
      cases next with
      | none =>
        obtain ⟨-, hs⟩ := Prod.mk.inj (Option.some.inj h)
        rw [(Prod.mk.inj hs).1]
      | some oldElement =>
        obtain ⟨data, -, h⟩ := Option.bind_eq_some_iff.mp h
        obtain ⟨next, -, h⟩ := Option.bind_eq_some_iff.mp h
        obtain ⟨s₁, h₁, h⟩ := Option.bind_eq_some_iff.mp h
        obtain ⟨next', -, h⟩ := Option.bind_eq_some_iff.mp h
        rw [destroy_of_release h, ite_setTail, list_setTail, list_of_setNext h₁]

/-- No call of the two operations touches the callback. -/
theorem destroy_of_run {calls : List (ListCall δ)} {evs : List (ListEvent δ)}
    (h : (listMachine δ).Run s calls s' evs) : s'.list.destroy = s.list.destroy := by
  refine h.invariant (P := fun _ t _ => t.list.destroy = s.list.destroy) rfl ?_
  intro _ t _ c u o _ ih _ hstep
  rw [← ih]
  cases c with
  | insNext element data malloc =>
    obtain ⟨⟨ret, t'⟩, hret, hr⟩ := Option.bind_eq_some_iff.mp hstep
    obtain ⟨rfl, -⟩ := Prod.mk.inj (Option.some.inj hr)
    exact destroy_of_listInsNext hret
  | remNext element data =>
    obtain ⟨⟨ret, t', data'⟩, hret, hr⟩ := Option.bind_eq_some_iff.mp hstep
    obtain ⟨rfl, -⟩ := Prod.mk.inj (Option.some.inj hr)
    exact destroy_of_listRemNext hret

/-! ### The loop -/

theorem destroyCalls_cons (destroy : Option Addr) (d : Option δ) (ds : List (Option δ)) :
    destroyCalls destroy (d :: ds) = destroyCalls destroy [d] ++ destroyCalls destroy ds := by
  cases destroy <;> rfl

/-- **Destroying a represented list.** The data is handed over from front to back, the nodes are
freed, and the header is that of an empty list. -/
theorem listDestroy_spec {fuel : ℕ} (hs : s.Represents ns) (hfuel : ns.length < fuel)
    (data : Option δ) :
    ∃ t, listDestroy fuel s data = some (t, destroyCalls s.list.destroy (ns.map s.data)) ∧
      t.list = ⟨0, s.list.destroy, none, none⟩ ∧ t.live = s.live \ ns.toFinset := by
  induction ns generalizing fuel s data with
  | nil =>
    obtain ⟨fuel, rfl⟩ := Nat.exists_eq_add_of_le' (show 1 ≤ fuel from hfuel)
    have hsize : s.list.size = 0 := hs.size_eq_zero_iff.mpr rfl
    refine ⟨(s.setHead none).setTail none, ?_, ?_, ?_⟩
    · rw [listDestroy, if_neg (by omega)]
      cases s.list.destroy <;> rfl
    · simp only [list_setTail, list_setHead, hsize]
    · simp
  | cons a ns ih =>
    obtain ⟨fuel, rfl⟩ := Nat.exists_eq_add_of_le' (Nat.zero_lt_of_lt hfuel)
    have hsize : s.list.size > 0 := by
      rw [hs.size, List.length_cons]
      omega
    have ha := (List.nodup_cons.mp hs.nodup).1
    obtain ⟨s₁, hret, hs₁, hdata₁, hlive₁⟩ := listRemNext_front hs data
    obtain ⟨t, hrest, hlist, hlive⟩ := ih hs₁ (Nat.lt_of_succ_lt_succ hfuel) (s.data a)
    have hmap : ns.map s₁.data = ns.map s.data :=
      List.map_congr_left fun b hb => hdata₁ b (by rintro rfl; exact ha hb)
    rw [hmap, destroy_of_listRemNext hret] at hrest
    rw [destroy_of_listRemNext hret] at hlist
    refine ⟨t, ?_, hlist, ?_⟩
    · rw [listDestroy, if_pos hsize, hret]
      simp only [Option.bind_eq_bind, Option.bind_some, hrest, destroy_of_listRemNext hret, if_true]
      rw [List.map_cons, ← destroyCalls_cons]
      rfl
    · rw [hlive, hlive₁, List.toFinset_cons]
      ext b
      simp only [Finset.mem_sdiff, Finset.mem_erase, Finset.mem_insert]
      tauto

/-- **Every list is destroyed.** After `list_init` and any calls of the two operations,
`list_destroy` ends; it hands over each data value once, in order; the nodes of the list, each of
them once, are what it frees; and what is left is a list as `list_init` leaves it. -/
theorem list_run_destroy {s₀ s : ListMem δ} {destroy : Option Addr} {calls : List (ListCall δ)}
    {evs : List (ListEvent δ)} (h : (listMachine δ).Run (listInit s₀ destroy) calls s evs)
    {fuel : ℕ} (hfuel : s.list.size < fuel) (data : Option δ) :
    ∃ t, listDestroy fuel s data = some (t, destroyCalls destroy s.contents) ∧
      s.chain.Nodup ∧ (∀ a ∈ s.chain, a ∈ s.live) ∧ t.live = s.live \ s.chain.toFinset ∧
      t = listInit t destroy := by
  obtain ⟨-, -, ns, hs, rfl⟩ :=
    listMachine_refines.run ⟨[], represents_listInit s₀ destroy, rfl⟩ h
  have hlen : ns.length < fuel := by
    rw [hs.size] at hfuel
    exact_mod_cast hfuel
  obtain ⟨t, hrun, hlist, hlive⟩ := listDestroy_spec hs hlen data
  have hdestroy : s.list.destroy = destroy := destroy_of_run h
  rw [hdestroy] at hrun hlist
  rw [hs.contents_eq, hs.chain_eq]
  refine ⟨t, hrun, hs.nodup, hs.live, hlive, ?_⟩
  rw [listInit, ← hlist]

theorem list_run_destroy_sample : ∃ s evs t,
    (listMachine ℕ).Run (listInit (.blank ℕ) (some 99)) ListCall.sample s evs ∧
      listDestroy 2 s none = some (t, destroyCalls (some 99) s.contents) ∧
      destroyCalls (some 99) s.contents = [(99, some 5)] ∧ t.live = ∅ := by
  have hrun : (listMachine ℕ).Run (listInit (.blank ℕ) (some 99)) ListCall.sample _ _ :=
    Machine.run_of_exec rfl
  obtain ⟨t, hdestroyed, -, -, hlive, -⟩ :=
    list_run_destroy hrun (show (1 : ℤ) < (2 : ℕ) by decide) none
  exact ⟨_, _, t, hrun, hdestroyed, rfl, hlive.trans (by decide)⟩

end Exec02
