import Exec02.Lib.Machine
import Mathlib.Data.Multiset.Filter
import Mathlib.Logic.Function.Basic

/-!
# Stop and wait, over a network that can do anything

Any number of parties each send a message to one place that sends it back, and then wait for an
answer before they send the next one. Messages have no numbers, nobody has a clock, and what is
under way may be lost, overtaken or kept for another time.

Whatever the network does, a party gets messages of its own, and as many as it has sent or one less.
Which ones is up to the network, unless it keeps nothing; then the answers are those to the
messages, in order. But who has lost a message waits for ever.

## Main definitions

* `Exchange.machine` — the parties and the network
* `Exchange.flight` — what is under way for a party

## Main results

* `Exchange.run_sound` — what is received, whatever the network does
* `Exchange.run_inStep` — what is received if the network keeps nothing
* `Exchange.stuck_iff` — who waits for ever
-/

namespace Exec02

variable {π ι α : Type*} [DecidableEq π]

/-- Who waits for an answer, and what is under way in the two directions, with whose it is. -/
structure Exchange (π α : Type*) where
  waiting : π → Bool
  up : List (π × α)
  down : List (π × α)

/-- What can happen: a party sends what `x` stands for, the `k`-th message under way is answered,
or received by the party it is for, and stays under way or not, or it is lost. -/
inductive ExchangeInput (π ι : Type*)
  | send (p : π) (x : ι)
  | serve (k : ℕ) (keep : Bool)
  | receive (k : ℕ) (keep : Bool)
  | loseUp (k : ℕ)
  | loseDown (k : ℕ)

/-- Whether a message is received that stays under way. -/
def ExchangeInput.keeps : ExchangeInput π ι → Bool
  | .serve _ keep | .receive _ keep => keep
  | _ => false

/-- What is seen of the parties. -/
inductive ExchangeEvent (π α : Type*)
  | sent (p : π) (m : α)
  | received (p : π) (m : α)

namespace Exchange

/-- What is under way when the `k`-th message has arrived. -/
def rest (k : ℕ) (keep : Bool) (l : List α) : List α := if keep then l else l.eraseIdx k

/-- Nobody has sent anything. -/
def start : Exchange π α := ⟨fun _ => false, [], []⟩

/-- The parties and the network, as a machine. -/
def machine (encode : ι → α) : Machine (Exchange π α) (ExchangeInput π ι) (ExchangeEvent π α) where
  allowed s
    | .send p _ => s.waiting p = false
    | .serve k _ | .loseUp k => k < s.up.length
    | .receive k _ => ∃ d ∈ s.down[k]?, s.waiting d.1
    | .loseDown k => k < s.down.length
  step s
    | .send p x => some ({ s with
        waiting := Function.update s.waiting p true
        up := s.up ++ [(p, encode x)] }, [.sent p (encode x)])
    | .serve k keep => s.up[k]?.map fun d =>
        ({ s with up := rest k keep s.up, down := s.down ++ [d] }, [])
    | .receive k keep => s.down[k]?.map fun d => ({ s with
        waiting := Function.update s.waiting d.1 false
        down := rest k keep s.down }, [.received d.1 d.2])
    | .loseUp k => some ({ s with up := s.up.eraseIdx k }, [])
    | .loseDown k => some ({ s with down := s.down.eraseIdx k }, [])

/-- What is under way, in either direction. -/
def flying (s : Exchange π α) : Multiset (π × α) := s.up + s.down

/-- What is under way for a party. -/
def flight (s : Exchange π α) (p : π) : Multiset (π × α) := s.flying.filter (·.1 = p)

end Exchange

/-- The messages that a party has sent, and those it has received. -/
def sentBy (p : π) : List (ExchangeEvent π α) → List α :=
  List.filterMap fun
    | .sent q m => if q = p then some m else none
    | _ => none

def receivedBy (p : π) : List (ExchangeEvent π α) → List α :=
  List.filterMap fun
    | .received q m => if q = p then some m else none
    | _ => none

theorem sentBy_append (p : π) (evs evs' : List (ExchangeEvent π α)) :
    sentBy p (evs ++ evs') = sentBy p evs ++ sentBy p evs' := List.filterMap_append

theorem receivedBy_append (p : π) (evs evs' : List (ExchangeEvent π α)) :
    receivedBy p (evs ++ evs') = receivedBy p evs ++ receivedBy p evs' := List.filterMap_append

theorem sentBy_sent (p q : π) (m : α) : sentBy p [.sent q m] = if q = p then [m] else [] := by
  by_cases h : q = p <;> simp [sentBy, h]

theorem receivedBy_received (p q : π) (m : α) :
    receivedBy p [.received q m] = if q = p then [m] else [] := by
  by_cases h : q = p <;> simp [receivedBy, h]

namespace Exchange

/-! ### What a step can do -/

theorem coe_eraseIdx {l : List α} {k : ℕ} {d : α} (h : l[k]? = some d) :
    (l : Multiset α) = d ::ₘ (l.eraseIdx k : Multiset α) := by
  obtain ⟨hk, rfl⟩ := List.getElem?_eq_some_iff.mp h
  exact Multiset.coe_eq_coe.mpr (List.getElem_cons_eraseIdx_perm hk).symm

theorem coe_snoc (l : List α) (d : α) : ((l ++ [d] : List α) : Multiset α) = d ::ₘ ↑l :=
  Multiset.coe_eq_coe.mpr (List.perm_append_singleton d l)

variable {encode : ι → α} {s t : Exchange π α} {i : ExchangeInput π ι}
  {o evs : List (ExchangeEvent π α)} {ins : List (ExchangeInput π ι)} {p : π}

/-- **A step.** A message is sent; or one that is under way is received by a party that waits; or
nobody notices, and what is under way is the same, or it is more by a message that was kept, or less
by one that was lost. -/
theorem step_cases (ha : (machine encode).allowed s i)
    (hs : (machine encode).step s i = some (t, o)) :
    (∃ p x, i = .send p x ∧ s.waiting p = false ∧ t.waiting = Function.update s.waiting p true ∧
      t.flying = (p, encode x) ::ₘ s.flying ∧ o = [.sent p (encode x)]) ∨
    (∃ d, d ∈ s.flying ∧ s.waiting d.1 ∧ t.waiting = Function.update s.waiting d.1 false ∧
      (if i.keeps then t.flying = s.flying else s.flying = d ::ₘ t.flying) ∧
      o = [.received d.1 d.2]) ∨
    (t.waiting = s.waiting ∧ o = [] ∧ (t.flying = s.flying ∨
      (∃ d ∈ s.flying, i.keeps ∧ t.flying = d ::ₘ s.flying) ∨
        ∃ d, s.flying = d ::ₘ t.flying)) := by
  cases i with
  | send p x =>
    obtain ⟨rfl, rfl⟩ := Prod.mk.inj (Option.some.inj hs)
    refine Or.inl ⟨p, x, rfl, ha, rfl, ?_, rfl⟩
    rw [flying, coe_snoc, Multiset.cons_add]
    rfl
  | serve k keep =>
    obtain ⟨d, hd, hs⟩ := Option.map_eq_some_iff.mp hs
    obtain ⟨rfl, rfl⟩ := Prod.mk.inj hs
    refine Or.inr (Or.inr ⟨rfl, rfl, ?_⟩)
    simp only [flying, coe_snoc, Multiset.add_cons]
    cases keep with
    | true =>
      have hmem : d ∈ (s.up : Multiset (π × α)) := List.mem_of_getElem? hd
      exact Or.inr (Or.inl ⟨d, Multiset.mem_add.mpr (Or.inl hmem), rfl, rfl⟩)
    | false =>
      left
      rw [coe_eraseIdx hd, Multiset.cons_add]
      rfl
  | receive k keep =>
    obtain ⟨d, hd, hs⟩ := Option.map_eq_some_iff.mp hs
    obtain ⟨rfl, rfl⟩ := Prod.mk.inj hs
    obtain ⟨d', hd', hwaiting⟩ := ha
    obtain rfl : d' = d := Option.some.inj (hd'.symm.trans hd)
    have hmem : d' ∈ (s.down : Multiset (π × α)) := List.mem_of_getElem? hd
    refine Or.inr (Or.inl ⟨d', Multiset.mem_add.mpr (Or.inr hmem), hwaiting, rfl, ?_, rfl⟩)
    cases keep with
    | true => rfl
    | false =>
      show (s.up : Multiset (π × α)) + s.down = d' ::ₘ (s.up + s.down.eraseIdx k)
      rw [coe_eraseIdx hd, Multiset.add_cons]
  | loseUp k =>
    obtain ⟨rfl, rfl⟩ := Prod.mk.inj (Option.some.inj hs)
    have hd : s.up[k]? = some (s.up.get ⟨k, ha⟩) := List.getElem?_eq_getElem ha
    refine Or.inr (Or.inr ⟨rfl, rfl, Or.inr (Or.inr ⟨s.up.get ⟨k, ha⟩, ?_⟩)⟩)
    rw [flying, coe_eraseIdx hd, Multiset.cons_add]
    rfl
  | loseDown k =>
    obtain ⟨rfl, rfl⟩ := Prod.mk.inj (Option.some.inj hs)
    have hd : s.down[k]? = some (s.down.get ⟨k, ha⟩) := List.getElem?_eq_getElem ha
    refine Or.inr (Or.inr ⟨rfl, rfl, Or.inr (Or.inr ⟨s.down.get ⟨k, ha⟩, ?_⟩)⟩)
    rw [flying, coe_eraseIdx hd, Multiset.add_cons]
    rfl

/-! ### Whatever the network does -/

/-- What is under way for a party it has sent, what it has received it has sent, and it waits for
the answer to one message at most. -/
structure Sound (s : Exchange π α) (evs : List (ExchangeEvent π α)) : Prop where
  flying : ∀ d ∈ s.flying, d.2 ∈ sentBy d.1 evs
  received : ∀ p, receivedBy p evs ⊆ sentBy p evs
  count : ∀ p, (sentBy p evs).length =
    (receivedBy p evs).length + if s.waiting p then 1 else 0

/-- A step in which nobody sends or receives, and nothing new gets under way. -/
theorem Sound.quiet (h : s.Sound evs) (hwaiting : t.waiting = s.waiting)
    (hflying : ∀ d ∈ t.flying, d ∈ s.flying) : t.Sound evs where
  flying d hd := h.flying d (hflying d hd)
  received := h.received
  count p := by rw [hwaiting, h.count p]

theorem Sound.step (h : s.Sound evs) (ha : (machine encode).allowed s i)
    (hs : (machine encode).step s i = some (t, o)) : t.Sound (evs ++ o) := by
  obtain ⟨p, x, -, hp, hwaiting, hflying, rfl⟩ | ⟨d, hd, hd', hwaiting, hflying, rfl⟩ |
    ⟨hwaiting, rfl, hcase⟩ := step_cases ha hs
  · have hsent (q : π) : sentBy q evs ⊆ sentBy q (evs ++ [.sent p (encode x)]) := by
      rw [sentBy_append]
      exact List.subset_append_left _ _
    have hsame (q : π) : receivedBy q (evs ++ [.sent p (encode x)]) = receivedBy q evs := by
      rw [receivedBy_append]
      exact List.append_nil _
    refine ⟨?_, ?_, ?_⟩
    · intro d hd
      rw [hflying] at hd
      rcases Multiset.mem_cons.mp hd with rfl | hd
      · rw [sentBy_append, sentBy_sent, if_pos rfl]
        exact List.mem_append_right _ (List.mem_singleton_self _)
      · exact hsent d.1 (h.flying d hd)
    · intro q
      rw [hsame]
      exact List.Subset.trans (h.received q) (hsent q)
    · intro q
      rw [hsame, sentBy_append, sentBy_sent, List.length_append, h.count q, hwaiting]
      by_cases hq : p = q
      · subst hq
        simp [hp]
      · rw [Function.update_of_ne (Ne.symm hq), if_neg hq]
        rfl
  · have hsame (q : π) : sentBy q (evs ++ [.received d.1 d.2]) = sentBy q evs := by
      rw [sentBy_append]
      exact List.append_nil _
    refine ⟨?_, ?_, ?_⟩
    · intro e he
      rw [hsame]
      refine h.flying e ?_
      split_ifs at hflying
      · rwa [hflying] at he
      · rw [hflying]
        exact Multiset.mem_cons_of_mem he
    · intro q
      rw [hsame, receivedBy_append, receivedBy_received]
      refine List.append_subset.mpr ⟨h.received q, ?_⟩
      by_cases hq : d.1 = q
      · subst hq
        rw [if_pos rfl]
        exact List.cons_subset.mpr ⟨h.flying d hd, List.nil_subset _⟩
      · rw [if_neg hq]
        exact List.nil_subset _
    · intro q
      rw [hsame, receivedBy_append, receivedBy_received, List.length_append, h.count q, hwaiting]
      by_cases hq : d.1 = q
      · subst hq
        simp [hd']
      · rw [Function.update_of_ne (Ne.symm hq), if_neg hq]
        rfl
  · rw [List.append_nil]
    refine h.quiet hwaiting ?_
    intro e he
    obtain hflying | ⟨d, hd, -, hflying⟩ | ⟨d, hflying⟩ := hcase
    · rwa [hflying] at he
    · rw [hflying] at he
      rcases Multiset.mem_cons.mp he with rfl | he
      · exact hd
      · exact he
    · rw [hflying]
      exact Multiset.mem_cons_of_mem he

/-- **Whatever the network does.** A party receives messages of its own, and as many as it has sent
or one less. -/
theorem run_sound (h : (machine encode).Run start ins s evs) : s.Sound evs := by
  refine h.invariant (P := fun _ s evs => s.Sound evs) ?_ ?_
  · exact ⟨by simp [start, flying], fun _ => List.Subset.refl _, fun _ => rfl⟩
  · intro ins s evs i t o _ hs ha hstep
    exact hs.step ha hstep

/-! ### A network that keeps nothing -/

/-- A party that waits for nothing has received what it has sent, and nothing is under way for it;
if it waits, the answer to its last message is the only one missing, and if something is under way
for it, then that message. -/
def InStep (s : Exchange π α) (evs : List (ExchangeEvent π α)) (p : π) : Prop :=
  if s.waiting p then
    ∃ m, sentBy p evs = receivedBy p evs ++ [m] ∧ (s.flight p = 0 ∨ s.flight p = {(p, m)})
  else sentBy p evs = receivedBy p evs ∧ s.flight p = 0

theorem flight_of_cons {d : π × α} (h : s.flying = d ::ₘ t.flying) (p : π) :
    s.flight p = if d.1 = p then d ::ₘ t.flight p else t.flight p := by
  rw [flight, h]
  split_ifs with hd
  · exact Multiset.filter_cons_of_pos _ hd
  · exact Multiset.filter_cons_of_neg _ hd

/-- What has been under way for a party, one of its messages, is so no more. -/
theorem eq_zero_of_cons {d : π × α} {m : α} (h : s.flight p = 0 ∨ s.flight p = {(p, m)})
    (hcons : s.flight p = d ::ₘ t.flight p) : d = (p, m) ∧ t.flight p = 0 := by
  rw [hcons] at h
  rcases h with h | h
  · exact absurd h Multiset.cons_ne_zero
  · obtain ⟨hd, hnil⟩ := (Multiset.singleton_eq_cons_iff _).mp h.symm
    exact ⟨hd.symm, hnil⟩

theorem InStep.step (h : ∀ p, s.InStep evs p) (ha : (machine encode).allowed s i)
    (hkeeps : i.keeps = false) (hs : (machine encode).step s i = some (t, o)) (p : π) :
    t.InStep (evs ++ o) p := by
  have hp := h p
  rw [InStep] at hp
  obtain ⟨q, x, -, hq, hwaiting, hflying, rfl⟩ | ⟨d, -, hd, hwaiting, hflying, rfl⟩ |
    ⟨hwaiting, rfl, hcase⟩ := step_cases ha hs
  · have hflight := flight_of_cons hflying p
    rw [InStep, hwaiting, sentBy_append, sentBy_sent, receivedBy_append,
      show receivedBy p [.sent q (encode x)] = [] from rfl, List.append_nil]
    by_cases hpq : q = p
    · subst hpq
      rw [if_neg (by simp [hq])] at hp
      rw [if_pos rfl] at hflight ⊢
      rw [hp.2] at hflight
      rw [Function.update_self, if_pos rfl, hp.1]
      exact ⟨encode x, rfl, Or.inr hflight⟩
    · rw [if_neg hpq] at hflight ⊢
      rw [Function.update_of_ne (Ne.symm hpq), List.append_nil, hflight]
      exact hp
  · rw [hkeeps, if_neg Bool.false_ne_true] at hflying
    have hflight := flight_of_cons hflying p
    rw [InStep, hwaiting, sentBy_append, receivedBy_append, receivedBy_received,
      show sentBy p [.received d.1 d.2] = [] from rfl, List.append_nil]
    by_cases hpd : d.1 = p
    · subst hpd
      rw [if_pos rfl] at hflight
      rw [if_pos hd] at hp
      obtain ⟨m, hsent, hm⟩ := hp
      obtain ⟨hdm, hnil⟩ := eq_zero_of_cons hm hflight
      have hdm : d.2 = m := congrArg Prod.snd hdm
      rw [Function.update_self, if_neg Bool.false_ne_true, if_pos rfl, hsent, hdm]
      exact ⟨rfl, hnil⟩
    · rw [if_neg hpd] at hflight ⊢
      rw [Function.update_of_ne (Ne.symm hpd), List.append_nil, ← hflight]
      exact hp
  · rw [InStep, hwaiting, List.append_nil]
    obtain hflying | ⟨d, -, hd, -⟩ | ⟨d, hflying⟩ := hcase
    · rw [flight, hflying]
      exact hp
    · rw [hkeeps] at hd
      cases hd
    · have hflight := flight_of_cons hflying p
      by_cases hpd : d.1 = p
      · rw [if_pos hpd] at hflight
        split_ifs at hp ⊢
        · obtain ⟨m, hsent, hm⟩ := hp
          exact ⟨m, hsent, Or.inl (eq_zero_of_cons hm hflight).2⟩
        · rw [hp.2] at hflight
          exact absurd hflight.symm Multiset.cons_ne_zero
      · rw [if_neg hpd] at hflight
        rw [← hflight]
        exact hp

/-- **If the network keeps nothing.** The answers are those to the messages, in order. -/
theorem run_inStep (h : (machine encode).Run start ins s evs)
    (hkeeps : ∀ i ∈ ins, i.keeps = false) : ∀ p, s.InStep evs p := by
  suffices (∀ i ∈ ins, i.keeps = false) → ∀ p, s.InStep evs p from this hkeeps
  refine h.invariant (P := fun ins s evs =>
    (∀ i ∈ ins, i.keeps = false) → ∀ p, s.InStep evs p) ?_ ?_
  · intro _ p
    exact ⟨rfl, rfl⟩
  · intro ins s evs i t o _ ih ha hs hall
    rw [List.forall_mem_append, List.forall_mem_singleton] at hall
    exact InStep.step (ih hall.1) ha hall.2 hs

theorem InStep.received_isPrefix (h : s.InStep evs p) : receivedBy p evs <+: sentBy p evs := by
  rw [InStep] at h
  split_ifs at h
  · obtain ⟨m, hsent, -⟩ := h
    rw [hsent]
    exact List.prefix_append _ _
  · rw [h.1]

/-! ### Who waits for ever -/

/-- **A loss.** A party that waits while nothing is under way for it goes on so, and neither sends
nor receives anything. -/
theorem silent (hp : s.waiting p) (hflight : s.flight p = 0)
    (h : (machine encode).Run s ins t evs) :
    t.waiting p ∧ t.flight p = 0 ∧ sentBy p evs = [] ∧ receivedBy p evs = [] := by
  refine h.invariant (P := fun _ t evs => t.waiting p ∧ t.flight p = 0 ∧ sentBy p evs = [] ∧
    receivedBy p evs = []) ⟨hp, hflight, rfl, rfl⟩ ?_
  rintro ins s evs i t o - ⟨hp, hnil, hsent, hreceived⟩ ha hs
  rw [sentBy_append, receivedBy_append, hsent, hreceived]
  have hnone {d : π × α} (hd : d ∈ s.flying) : d.1 ≠ p := by
    intro hdp
    have hmem : d ∈ s.flight p := Multiset.mem_filter.mpr ⟨hd, hdp⟩
    rw [hnil] at hmem
    exact Multiset.notMem_zero d hmem
  obtain ⟨q, x, -, hq, hwaiting, hflying, rfl⟩ | ⟨d, hd, -, hwaiting, hflying, rfl⟩ |
    ⟨hwaiting, rfl, hcase⟩ := step_cases ha hs
  · have hqp : q ≠ p := by
      rintro rfl
      rw [hp] at hq
      cases hq
    have hflight := flight_of_cons hflying p
    rw [if_neg hqp, hnil] at hflight
    rw [hwaiting, Function.update_of_ne (Ne.symm hqp), sentBy_sent, if_neg hqp]
    exact ⟨hp, hflight, rfl, rfl⟩
  · have hdp := hnone hd
    rw [hwaiting, Function.update_of_ne (Ne.symm hdp), receivedBy_received, if_neg hdp]
    refine ⟨hp, ?_, rfl, rfl⟩
    split_ifs at hflying
    · rw [flight, hflying]
      exact hnil
    · have hflight := flight_of_cons hflying p
      rw [if_neg hdp, hnil] at hflight
      exact hflight.symm
  · rw [hwaiting]
    refine ⟨hp, ?_, rfl, rfl⟩
    obtain hflying | ⟨d, hd, -, hflying⟩ | ⟨d, hflying⟩ := hcase
    · rw [flight, hflying]
      exact hnil
    · have hflight := flight_of_cons hflying p
      rwa [if_neg (hnone hd), hnil] at hflight
    · have hflight := flight_of_cons hflying p
      rw [if_neg (hnone (hflying ▸ Multiset.mem_cons_self d _)), hnil] at hflight
      exact hflight.symm

/-- A party that waits can get what is under way for it. -/
theorem exists_received (encode : ι → α) (hp : s.waiting p) (hflight : s.flight p ≠ 0) :
    ∃ ins t evs, (machine encode).Run s ins t evs ∧ receivedBy p evs ≠ [] := by
  obtain ⟨d, hd⟩ := Multiset.exists_mem_of_ne_zero hflight
  obtain ⟨hmem, rfl⟩ := Multiset.mem_filter.mp hd
  have hreceive {s : Exchange π α} (hp : s.waiting d.1) {k : ℕ} (hk : s.down[k]? = some d) :
      ∃ t, (machine encode).Run s [.receive k false] t [.received d.1 d.2] :=
    ⟨_, Machine.Run.single ⟨d, hk, hp⟩ (by simp only [machine, hk]; rfl)⟩
  have hgot (evs : List (ExchangeEvent π α)) :
      receivedBy d.1 (evs ++ [.received d.1 d.2]) ≠ [] := by
    rw [receivedBy_append, receivedBy_received, if_pos rfl]
    exact List.append_ne_nil_of_right_ne_nil _ (List.cons_ne_nil _ _)
  rcases Multiset.mem_add.mp hmem with hup | hdown
  · obtain ⟨k, hk⟩ := List.getElem?_of_mem (Multiset.mem_coe.mp hup)
    have hserve : (machine encode).Run s [.serve k false]
        { s with up := s.up.eraseIdx k, down := s.down ++ [d] } [] :=
      Machine.Run.single (List.getElem?_eq_some_iff.mp hk).1 (by simp only [machine, hk]; rfl)
    obtain ⟨t, ht⟩ := hreceive (s := { s with up := s.up.eraseIdx k, down := s.down ++ [d] }) hp
      (List.getElem?_concat_length ..)
    exact ⟨_, t, _, hserve.append ht, hgot []⟩
  · obtain ⟨k, hk⟩ := List.getElem?_of_mem (Multiset.mem_coe.mp hdown)
    obtain ⟨t, ht⟩ := hreceive hp hk
    exact ⟨_, t, _, ht, hgot []⟩

/-- **Who waits for ever.** A party that waits will do so whatever happens, and neither send nor
receive, exactly if nothing is under way for it. -/
theorem stuck_iff (encode : ι → α) (hp : s.waiting p) :
    (∀ ins t evs, (machine encode).Run s ins t evs →
      t.waiting p ∧ sentBy p evs = [] ∧ receivedBy p evs = []) ↔ s.flight p = 0 := by
  constructor
  · intro hall
    by_contra hflight
    obtain ⟨ins, t, evs, hrun, hne⟩ := exists_received encode hp hflight
    exact hne (hall ins t evs hrun).2.2
  · intro hflight ins t evs hrun
    obtain ⟨hwaiting, -, hsent, hreceived⟩ := silent hp hflight hrun
    exact ⟨hwaiting, hsent, hreceived⟩

end Exchange

end Exec02
