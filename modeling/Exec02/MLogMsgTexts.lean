import Exec02.MLogMsgObjects

/-!
# The text and the time of an `MLogMsg`

Every `MLogMsg` goes back to one that was made of a text at a time, and copies are to show both. The
buffer of a copy is as large as that of its source, and has the same text. Its `tm` is another
matter: a copy construction leaves it to be what the storage held, and a copy assignment deletes
it. And a buffer is as large as a pointer, whatever the text.

## Main results

* `msgMachine_keeps_iff` — which calls keep the text and the time of every object
* `message_kept_iff` — the runs that keep them, all the way
-/

namespace Exec02

variable {τ : Type}

/-- The text and the time that each object goes back to. -/
def MsgCall.origins (os : List (Text × τ)) : MsgCall τ → List (Text × τ)
  | .construct text now _ _ => os ++ [(text, now)]
  | .copyConstruct _ other _ | .moveConstruct _ other => os ++ os[other]?.toList
  | .copyAssign this other _ | .moveAssign this other =>
    match os[other]? with
    | none => os
    | some o => os.set this o
  | .destroy this => os.eraseIdx this

/-- The same, after several calls. -/
def originsOf (calls : List (MsgCall τ)) : List (Text × τ) := calls.foldl MsgCall.origins []

/-- An object shows a text and a time. -/
def MsgMembers.Shows (m : MsgMembers) (heap : Heap Addr (MsgBlock τ)) (o : Text × τ) : Prop :=
  m.getMsg heap = some o.1 ∧ m.getTime heap = some o.2

/-- Every object shows what it goes back to. -/
def MsgStore.Keeps (s : MsgStore τ) (os : List (Text × τ)) : Prop :=
  List.Forall₂ (fun m o => m.Shows s.heap o) s.objects os

/-- A construction from a text, a copy construction, or a copy assignment. -/
def MsgCall.Copies : MsgCall τ → Prop
  | .construct _ _ _ _ | .copyConstruct _ _ _ | .copyAssign _ _ _ => True
  | .moveConstruct _ _ | .moveAssign _ _ | .destroy _ => False

/-- What an object is copied to is itself, or storage that happens to point to the same time. -/
def MsgCall.KeepsTime (s : MsgStore τ) : MsgCall τ → Prop
  | .copyConstruct prior other _ => ∃ o ∈ s.objects[other]?, ∃ tm ∈ o.getTime s.heap,
      prior.getTime s.heap = some tm
  | .copyAssign this other _ => this = other
  | _ => True

instance MsgCall.decidableKeepsTime [DecidableEq τ] (s : MsgStore τ) :
    (c : MsgCall τ) → Decidable (c.KeepsTime s)
  | .copyConstruct prior other _ => inferInstanceAs (Decidable (∃ o ∈ s.objects[other]?,
      ∃ tm ∈ o.getTime s.heap, prior.getTime s.heap = some tm))
  | .copyAssign this other _ => inferInstanceAs (Decidable (this = other))
  | .construct _ _ _ _ | .moveConstruct _ _ | .moveAssign _ _ | .destroy _ =>
    inferInstanceAs (Decidable True)

variable {pl : Platform} {s t : MsgStore τ} {m o : MsgMembers} {heap : Heap Addr (MsgBlock τ)}
  {o' : Text × τ} {os : List (Text × τ)} {evs outs : List (BlockEvent Addr)} {this other : ℕ}

/-! ### New blocks -/

theorem getMsg_eq_some_iff {text : Text} : m.getMsg heap = some text ↔
    ∃ a, m.msg = some a ∧ heap.load a = some (.chars text) := by
  simp only [MsgMembers.getMsg, Option.bind_eq_bind, Option.bind_eq_some_iff]
  refine exists_congr fun a => and_congr_right ?_
  intro _
  constructor
  · rintro ⟨v, hv, h⟩
    cases v with
    | time tm => cases h
    | chars msg => exact Option.some.inj h ▸ hv
  · exact fun h => ⟨_, h, rfl⟩

theorem getTime_eq_some_iff {tm : τ} : m.getTime heap = some tm ↔
    ∃ a, m.tm = some a ∧ heap.load a = some (.time tm) := by
  simp only [MsgMembers.getTime, Option.bind_eq_bind, Option.bind_eq_some_iff]
  refine exists_congr fun a => and_congr_right ?_
  intro _
  constructor
  · rintro ⟨v, hv, h⟩
    cases v with
    | time tm => exact Option.some.inj h ▸ hv
    | chars msg => cases h
  · exact fun h => ⟨_, h, rfl⟩

/-- A text is read from a block that is in use. -/
theorem getMsg_alloc {b : Addr} (hb : b ∉ heap.live) {text : Text} (h : m.getMsg heap = some text) :
    m.getMsg (heap.alloc b) = some text := by
  obtain ⟨a, ha, hload⟩ := getMsg_eq_some_iff.mp h
  have hab : a ≠ b := by
    rintro rfl
    exact hb (heap.mem_of_load hload)
  rw [← Heap.load_alloc_of_ne hab] at hload
  exact getMsg_eq_some_iff.mpr ⟨a, ha, hload⟩

/-- What is read now is still read after a new block was made and written. -/
theorem load_write {a b : Addr} (hb : b ∉ heap.live) {v w : MsgBlock τ} (h : heap.load a = some w) :
    (Heap.mk (Function.update heap.cell b v) (insert b heap.live)).load a = some w := by
  rw [← h]
  refine Heap.load_write_of_ne ?_
  rintro rfl
  exact hb (heap.mem_of_load h)

theorem MsgMembers.Shows.write (h : m.Shows heap o') {b : Addr} (hb : b ∉ heap.live)
    (v : MsgBlock τ) : m.Shows ⟨Function.update heap.cell b v, insert b heap.live⟩ o' := by
  obtain ⟨a, ha, htext⟩ := getMsg_eq_some_iff.mp h.1
  obtain ⟨a', ha', htm⟩ := getTime_eq_some_iff.mp h.2
  exact ⟨getMsg_eq_some_iff.mpr ⟨a, ha, load_write hb htext⟩,
    getTime_eq_some_iff.mpr ⟨a', ha', load_write hb htm⟩⟩

theorem MsgStore.Keeps.write (h : s.Keeps os) {b : Addr} (hb : b ∉ s.heap.live)
    (v : MsgBlock τ) :
    (MsgStore.mk s.objects ⟨Function.update s.heap.cell b v, insert b s.heap.live⟩).Keeps os :=
  List.Forall₂.imp (fun _ _ hm => hm.write hb v) h

/-- A new buffer is not a time. -/
theorem getTime_write {b : Addr} (hb : b ∉ heap.live) (text : Text) (tm : τ) :
    m.getTime ⟨Function.update heap.cell b (.chars text), insert b heap.live⟩ = some tm ↔
      m.getTime heap = some tm := by
  rw [getTime_eq_some_iff, getTime_eq_some_iff]
  refine exists_congr fun a => and_congr_right fun _ => ⟨?_, load_write hb⟩
  intro h
  have hab : a ≠ b := by
    rintro rfl
    rw [Heap.load_write_self] at h
    cases h
  rwa [Heap.load_write_of_ne hab] at h

/-! ### One call -/

theorem keeps_append_iff : (MsgStore.mk (s.objects ++ [m]) heap).Keeps (os ++ [o']) ↔
    (MsgStore.mk s.objects heap).Keeps os ∧ m.Shows heap o' := by
  rw [MsgStore.Keeps, ← List.forall₂_reverse_iff, List.reverse_append, List.reverse_append]
  simp only [List.reverse_singleton, List.singleton_append, List.forall₂_cons,
    List.forall₂_reverse_iff]
  exact and_comm

theorem MsgStore.Keeps.shows (h : s.Keeps os) {k : ℕ} (hm : s.objects[k]? = some m) :
    ∃ o, os[k]? = some o ∧ m.Shows s.heap o := by
  obtain ⟨hlt, rfl⟩ := List.getElem?_eq_some_iff.mp hm
  have hlt' : k < os.length := by rwa [← List.Forall₂.length_eq h]
  exact ⟨_, List.getElem?_eq_getElem hlt', List.Forall₂.get h hlt hlt'⟩

/-- **One call.** A call keeps the text and the time of every object if it keeps the time of the one
that it makes or assigns to, and only then. -/
theorem msgMachine_keeps_iff {c : MsgCall τ} (h : s.Keeps os) (hc : c.Copies)
    (ha : (msgMachine pl τ).allowed s c) (hstep : (msgMachine pl τ).step s c = some (t, outs)) :
    t.Keeps (c.origins os) ↔ c.KeepsTime s := by
  cases c with
  | construct text now newTm newMsg =>
    obtain ⟨hTm, hMsg, hne⟩ := ha
    have hstep : s.construct pl text now newTm newMsg = some (t, outs) := hstep
    rw [construct_eq] at hstep
    split_ifs at hstep with hfit
    obtain ⟨rfl, -⟩ := Prod.mk.inj (Option.some.inj hstep)
    have hnew : newMsg ∉ insert newTm s.heap.live := by
      rw [Finset.mem_insert, not_or]
      exact ⟨hne.symm, hMsg⟩
    refine iff_of_true (keeps_append_iff.mpr ⟨(h.write hTm _).write hnew _, ?_, ?_⟩) trivial
    · exact getMsg_eq_some_iff.mpr ⟨newMsg, rfl, Heap.load_write_self ⟨_, _⟩ _ _⟩
    · have htime := Heap.load_write_self s.heap newTm (MsgBlock.time now)
      refine getTime_eq_some_iff.mpr ⟨newTm, rfl, load_write ?_ htime⟩
      exact hnew
  | copyConstruct prior other newMsg =>
    obtain ⟨-, hnew⟩ := ha
    obtain ⟨m, text, hm, htext, -, -, rfl⟩ := copyConstruct_cases hstep
    obtain ⟨o, ho, hshows⟩ := h.shows hm
    have horigins : (MsgCall.copyConstruct prior other newMsg).origins os = os ++ [o] := by
      simp [MsgCall.origins, ho]
    obtain rfl : text = o.1 := Option.some.inj (htext.symm.trans (getMsg_alloc hnew hshows.1))
    have hmsg := getMsg_eq_some_iff (m := ⟨prior.tm, some newMsg⟩).mpr
      ⟨newMsg, rfl, Heap.load_write_self s.heap newMsg (.chars o.1)⟩
    rw [horigins, keeps_append_iff, and_iff_right (h.write hnew _), MsgMembers.Shows,
      and_iff_right hmsg]
    refine (getTime_write hnew _ o.2).trans ⟨fun htm => ⟨m, hm, o.2, hshows.2, htm⟩, ?_⟩
    rintro ⟨m', hm', tm, htm', htm⟩
    obtain rfl : m' = m := Option.some.inj (hm'.symm.trans hm)
    rwa [Option.some.inj (htm'.symm.trans hshows.2)] at htm
  | copyAssign this other newMsg =>
    by_cases hne : this = other
    · obtain ⟨rfl, -⟩ := Prod.mk.inj (Option.some.inj ((if_pos hne).symm.trans hstep))
      refine iff_of_true ?_ hne
      obtain ⟨o, ho, -⟩ := h.shows (List.getElem?_eq_getElem ha.1)
      have horigins : (MsgCall.copyAssign this other newMsg).origins os = os := by
        obtain ⟨hlt, rfl⟩ := List.getElem?_eq_some_iff.mp ho
        simp [MsgCall.origins, hne, hlt]
      rwa [horigins]
    · -- the time of the target is deleted, and not set again
      refine iff_of_false ?_ hne
      intro hkeeps
      obtain ⟨m, heap, o, text, hm, -, -, -, -, -, rfl⟩ := copyAssign_cases hne hstep
      obtain ⟨hlt, -⟩ := List.getElem?_eq_some_iff.mp hm
      obtain ⟨o', -, hshows⟩ := hkeeps.shows (List.getElem?_set_self hlt)
      obtain ⟨a, ha, -⟩ := getTime_eq_some_iff.mp hshows.2
      cases ha
  | moveConstruct prior other => exact absurd hc not_false
  | moveAssign this other => exact absurd hc not_false
  | destroy this => exact absurd hc not_false

/-! ### Whole runs -/

theorem originsOf_snoc (calls : List (MsgCall τ)) (c : MsgCall τ) :
    originsOf (calls ++ [c]) = c.origins (originsOf calls) := List.foldl_concat ..

/-- A text that a copy goes back to is one that has fit its buffer. -/
theorem fits_of_run {heap₀ : Heap Addr (MsgBlock τ)} {calls : List (MsgCall τ)}
    (h : (msgMachine pl τ).Run (.start heap₀) calls t evs) :
    ∀ o ∈ originsOf calls, o.1.length + 1 ≤ pl.sizeofPointer := by
  refine h.invariant (P := fun calls _ _ => ∀ o ∈ originsOf calls,
    o.1.length + 1 ≤ pl.sizeofPointer) (fun _ ho => absurd ho List.not_mem_nil) ?_
  intro calls t evs c u o _ ih _ hstep x hx
  rw [originsOf_snoc] at hx
  cases c with
  | construct text now newTm newMsg =>
    have hstep : t.construct pl text now newTm newMsg = some (u, o) := hstep
    rw [construct_eq] at hstep
    split_ifs at hstep with hfit
    rcases List.mem_append.mp hx with hx | hx
    · exact ih x hx
    · obtain rfl := List.mem_singleton.mp hx
      exact hfit
  | copyConstruct _ other _ | moveConstruct _ other =>
    rcases List.mem_append.mp hx with hx | hx
    · exact ih x hx
    · exact ih x (List.mem_of_getElem? (Option.mem_toList.mp hx))
  | copyAssign this other _ | moveAssign this other =>
    simp only [MsgCall.origins] at hx
    split at hx
    · exact ih x hx
    · next o' ho' =>
      rcases List.mem_or_eq_of_mem_set hx with hx | rfl
      · exact ih x hx
      · exact ih _ (List.mem_of_getElem? ho')
  | destroy this => exact ih x (List.mem_of_mem_eraseIdx hx)

/-- A call that keeps the time of the object is one that goes wrong only with a text that does not
fit. -/
theorem msgMachine_isSome_iff {c : MsgCall τ} (h : s.Keeps os)
    (hfits : ∀ o ∈ os, o.1.length + 1 ≤ pl.sizeofPointer) (hc : c.Copies)
    (ha : (msgMachine pl τ).allowed s c) (hkeeps : c.KeepsTime s) :
    (∃ t o, (msgMachine pl τ).step s c = some (t, o)) ↔ c.Fits pl := by
  cases c with
  | construct text now newTm newMsg =>
    have hstep : (msgMachine pl τ).step s (.construct text now newTm newMsg) = _ :=
      construct_eq s text now newTm newMsg
    rw [hstep]
    constructor
    · rintro ⟨t, o, ht⟩
      split_ifs at ht with hfit
      exact hfit
    · exact fun hfit => ⟨_, _, if_pos hfit⟩
  | copyConstruct prior other newMsg =>
    obtain ⟨hlt, hnew⟩ := ha
    obtain ⟨m, hm⟩ : ∃ m, s.objects[other]? = some m := ⟨_, List.getElem?_eq_getElem hlt⟩
    obtain ⟨o, ho, hshows⟩ := h.shows hm
    have hfit := hfits o (List.mem_of_getElem? ho)
    exact iff_of_true
      ⟨_, _, copyConstruct_of_getMsg prior hm (getMsg_alloc hnew hshows.1) hfit⟩ trivial
  | copyAssign this other newMsg => exact iff_of_true ⟨s, [], if_pos hkeeps⟩ trivial
  | moveConstruct prior other => exact absurd hc not_false
  | moveAssign this other => exact absurd hc not_false
  | destroy this => exact absurd hc not_false

/-- **Keeping text and time.** In a run of constructions, copy constructions and copy assignments,
every object shows at every moment what it goes back to exactly if each call has kept the time of
the object it makes or assigns to. From there such a call stays inside its buffer exactly if its
text fits. -/
theorem message_kept_iff {heap₀ : Heap Addr (MsgBlock τ)} {calls : List (MsgCall τ)}
    (hcopies : ∀ c ∈ calls, c.Copies)
    (h : (msgMachine pl τ).Run (.start heap₀) calls t evs) :
    ((∀ calls' u evs', calls' <+: calls → (msgMachine pl τ).Run (.start heap₀) calls' u evs' →
        u.Keeps (originsOf calls')) ↔
      ((msgMachine pl τ).restrict fun s c => c.KeepsTime s).Run (.start heap₀) calls t evs) ∧
    (t.Keeps (originsOf calls) → ∀ c, (msgMachine pl τ).allowed t c → c.Copies → c.KeepsTime t →
      ((∃ u o, (msgMachine pl τ).step t c = some (u, o)) ↔ c.Fits pl)) := by
  refine ⟨?_, fun hkeeps c ha hc hc' =>
    msgMachine_isSome_iff hkeeps (fits_of_run h) hc ha hc'⟩
  refine h.forall_prefix_iff (P := fun calls t _ => t.Keeps (originsOf calls)) .nil ?_
  intro calls' t evs' c u o hpfx _ hkeeps ha hstep
  rw [originsOf_snoc]
  have hc : c ∈ calls := hpfx.subset (List.mem_append_right _ (List.mem_singleton_self c))
  exact msgMachine_keeps_iff hkeeps (hcopies c hc) ha hstep

/-- Two messages, one of which is assigned to itself. -/
def MsgCall.keptSample : List (MsgCall ℕ) :=
  [.construct [97] 5 1 2, .construct [98] 6 3 4, .copyAssign 1 1 9]

theorem message_kept_sample : ∃ t evs,
    (msgMachine ⟨8, fun _ => []⟩ ℕ).Run (.start ⟨fun _ => .time 0, ∅⟩) MsgCall.keptSample t evs ∧
      t.Keeps [([97], 5), ([98], 6)] ∧ ∃ u o,
        (msgMachine ⟨8, fun _ => []⟩ ℕ).step t (.construct [99] 7 5 6) = some (u, o) := by
  have hcopies : ∀ c ∈ MsgCall.keptSample, c.Copies := by
    simp [MsgCall.keptSample, MsgCall.Copies]
  have hrun : ((msgMachine ⟨8, fun _ => []⟩ ℕ).restrict fun s c => c.KeepsTime s).Run
      (.start ⟨fun _ => .time 0, ∅⟩) MsgCall.keptSample _ _ := Machine.run_of_exec rfl
  have hkeeps := (message_kept_iff hcopies hrun.of_restrict).1.mpr hrun _ _ _ List.prefix_rfl
    hrun.of_restrict
  refine ⟨_, _, hrun.of_restrict, hkeeps, ?_⟩
  exact ((message_kept_iff hcopies hrun.of_restrict).2 hkeeps (.construct [99] 7 5 6)
    ⟨by decide, by decide, by decide⟩ trivial trivial).mpr (show 1 + 1 ≤ 8 by decide)

/-- A copy has no time, and for a text of eight characters there is no room. -/
theorem not_message_kept : ∃ t evs,
    (msgMachine ⟨8, fun _ => []⟩ ℕ).Run (.start ⟨fun _ => .time 0, ∅⟩)
      [.construct [97] 5 1 2, .copyConstruct ⟨none, none⟩ 0 3] t evs ∧
    ¬ t.Keeps [([97], 5), ([97], 5)] ∧
    ∀ now newTm newMsg, (msgMachine ⟨8, fun _ => []⟩ ℕ).step t
      (.construct [97, 98, 99, 100, 101, 102, 103, 104] now newTm newMsg) = none := by
  have hrun : (msgMachine ⟨8, fun _ => []⟩ ℕ).Run (.start ⟨fun _ => .time 0, ∅⟩)
      [.construct [97] 5 1 2, .copyConstruct ⟨none, none⟩ 0 3] _ _ := Machine.run_of_exec rfl
  refine ⟨_, _, hrun, ?_, ?_⟩
  · intro hkeeps
    obtain ⟨-, hshows⟩ := keeps_append_iff.mp (show MsgStore.Keeps _ ([([97], 5)] ++ [([97], 5)])
      from hkeeps)
    cases hshows.2
  · intro now newTm newMsg
    exact (construct_eq _ _ now newTm newMsg).trans (if_neg (by decide))

end Exec02
