import Exec02.Lib.SortedSet
import Mathlib.Data.List.DropRight

/-!
# The chat room

`chat_room` of `MyTCPChatSrv01.cpp`: the set of participants, and the last hundred messages, which
every newcomer is told first. What a participant hears therefore has two sources, the replay of
`join` and the fan-out of `deliver`, and `room_delivery` says that they meet without a gap.

A participant is named by its place in the order of `participants_`, which is a `std::set` of
pointers. A message is whatever the room is asked to pass on; it is only ever copied. Every call
answers with the calls of `participant->deliver(msg)` that it makes, in order. None of those calls
comes back to the room, since an `async_write` never completes inline.

## Main results

* `trim_eq` — the trimming loop keeps the last hundred messages
* `ChatRoom.handed_of_mem`, `ChatRoom.handed_of_notMem` — what members and others are handed
* `room_delivery` — what a participant hears over a whole run
-/

namespace Exec02

/-- `max_recent_msgs`. -/
def maxRecentMsgs : ℕ := 100

section Trim

variable {μ : Type}

/-- `while (recent_msgs_.size() > max_recent_msgs) recent_msgs_.pop_front()`. -/
def trim : List μ → List μ
  | [] => []
  | msg :: msgs => if (msg :: msgs).length > maxRecentMsgs then trim msgs else msg :: msgs

theorem trim_eq (msgs : List μ) : trim msgs = msgs.rtake maxRecentMsgs := by
  induction msgs with
  | nil => simp [trim]
  | cons msg msgs ih =>
    rw [trim]
    split_ifs with hlong
    · rw [ih, List.rtake, List.rtake]
      have hdrop : (msg :: msgs).length - maxRecentMsgs = msgs.length - maxRecentMsgs + 1 := by
        simp only [List.length_cons] at hlong ⊢
        omega
      rw [hdrop, List.drop_succ_cons]
    · rw [List.rtake, Nat.sub_eq_zero_of_le (not_lt.mp hlong), List.drop_zero]

/-- Forgetting early or late is the same. -/
theorem rtake_append_rtake (n : ℕ) (as bs : List μ) :
    (as.rtake n ++ bs).rtake n = (as ++ bs).rtake n := by
  have hmin : min (n - bs.reverse.length) n = n - bs.reverse.length := min_eq_left (Nat.sub_le _ _)
  simp only [List.rtake_eq_reverse_take_reverse, List.reverse_append, List.reverse_reverse,
    List.take_append, List.take_take, hmin]

end Trim

section Calls

variable {π μ : Type}

/-- A call of a member function of the room. -/
inductive RoomCall (π μ : Type)
  | join (participant : π)
  | leave (participant : π)
  | deliver (msg : μ)

/-- The messages delivered to the room. -/
def delivered : List (RoomCall π μ) → List μ :=
  List.filterMap fun
    | .deliver msg => some msg
    | _ => none

/-- The participants that join. -/
def joined : List (RoomCall π μ) → List π :=
  List.filterMap fun
    | .join participant => some participant
    | _ => none

@[simp] theorem delivered_cons_join (p : π) (cs : List (RoomCall π μ)) :
    delivered (.join p :: cs) = delivered cs := rfl

@[simp] theorem delivered_cons_leave (p : π) (cs : List (RoomCall π μ)) :
    delivered (.leave p :: cs) = delivered cs := rfl

theorem delivered_append (cs ds : List (RoomCall π μ)) :
    delivered (cs ++ ds) = delivered cs ++ delivered ds := List.filterMap_append

@[simp] theorem joined_cons_join (p : π) (cs : List (RoomCall π μ)) :
    joined (.join p :: cs) = p :: joined cs := rfl

theorem joined_append (cs ds : List (RoomCall π μ)) :
    joined (cs ++ ds) = joined cs ++ joined ds := List.filterMap_append

/-- Whoever joins does so in some call. -/
theorem exists_of_mem_joined {p : π} {cs : List (RoomCall π μ)} (h : p ∈ joined cs) :
    ∃ before after, cs = before ++ .join p :: after := by
  obtain ⟨c, hc, hp⟩ := List.mem_filterMap.mp h
  cases c with
  | join q =>
    obtain rfl : q = p := by simpa using hp
    exact List.append_of_mem hc
  | leave q => cases hp
  | deliver msg => cases hp

end Calls

variable {π μ : Type} [LinearOrder π]

/-- `class chat_room`. -/
structure ChatRoom (π μ : Type) [LinearOrder π] where
  participants : SortedSet π
  recentMsgs : List μ

namespace ChatRoom

/-- A room as it is constructed. -/
def empty : ChatRoom π μ := ⟨.empty, []⟩

/-- `join(participant)`. -/
def join (room : ChatRoom π μ) (participant : π) : ChatRoom π μ × List (π × μ) :=
  ({ room with participants := room.participants.insert participant },
    room.recentMsgs.map (participant, ·))

/-- `leave(participant)`. -/
def leave (room : ChatRoom π μ) (participant : π) : ChatRoom π μ :=
  { room with participants := room.participants.erase participant }

/-- `deliver(msg)`. -/
def deliver (room : ChatRoom π μ) (msg : μ) : ChatRoom π μ × List (π × μ) :=
  ({ room with recentMsgs := trim (room.recentMsgs ++ [msg]) },
    room.participants.toList.map (·, msg))

/-- One call. -/
def call (room : ChatRoom π μ) : RoomCall π μ → ChatRoom π μ × List (π × μ)
  | .join participant => room.join participant
  | .leave participant => (room.leave participant, [])
  | .deliver msg => room.deliver msg

/-- One call after the other. -/
def calls (room : ChatRoom π μ) : List (RoomCall π μ) → ChatRoom π μ × List (π × μ)
  | [] => (room, [])
  | c :: cs =>
    let (room, out) := room.call c
    let (room, outs) := room.calls cs
    (room, out ++ outs)

theorem calls_append (room : ChatRoom π μ) (cs ds : List (RoomCall π μ)) :
    room.calls (cs ++ ds) = (((room.calls cs).1.calls ds).1,
      (room.calls cs).2 ++ ((room.calls cs).1.calls ds).2) := by
  induction cs generalizing room with
  | nil => rfl
  | cons c cs ih => simp [calls, ih, List.append_assoc]

end ChatRoom

/-! ### What a participant is handed -/

/-- Whether a call lets `p` stay. -/
def RoomCall.stays (p : π) : RoomCall π μ → Bool
  | .leave participant => participant ≠ p
  | _ => true

/-- The messages handed to the `deliver` of `p`. -/
def handed (p : π) (out : List (π × μ)) : List μ := (out.filter (·.1 = p)).map (·.2)

theorem handed_append (p : π) (out out' : List (π × μ)) :
    handed p (out ++ out') = handed p out ++ handed p out' := by
  simp [handed]

theorem handed_replay (p q : π) (msgs : List μ) :
    handed p (msgs.map (q, ·)) = if q = p then msgs else [] := by
  by_cases h : q = p
  · simp [handed, h, List.filter_map, Function.comp_def]
  · simp [handed, h, List.filter_map, Function.comp_def]

theorem handed_fanout (p : π) (s : SortedSet π) (msg : μ) :
    handed p (s.toList.map (·, msg)) = if p ∈ s then [msg] else [] := by
  have hfilter : s.toList.filter ((fun x : π × μ => decide (x.1 = p)) ∘ (·, msg)) =
      s.toList.filter (· = p) := rfl
  rw [handed, List.filter_map, hfilter, s.filter_eq]
  split_ifs <;> rfl

namespace ChatRoom

/-! ### Members, and others -/

/-- The history a room keeps is the end of what it has been told. -/
theorem recentMsgs_calls (room : ChatRoom π μ) (h : room.recentMsgs.length ≤ maxRecentMsgs)
    (cs : List (RoomCall π μ)) :
    (room.calls cs).1.recentMsgs = (room.recentMsgs ++ delivered cs).rtake maxRecentMsgs := by
  induction cs generalizing room with
  | nil => simp [calls, delivered, List.rtake, Nat.sub_eq_zero_of_le h]
  | cons c cs ih =>
    cases c with
    | join p => exact ih (room.join p).1 h
    | leave p => exact ih (room.leave p) h
    | deliver msg =>
      have htrim : (room.deliver msg).1.recentMsgs =
          (room.recentMsgs ++ [msg]).rtake maxRecentMsgs := trim_eq _
      have hshort : (room.deliver msg).1.recentMsgs.length ≤ maxRecentMsgs := by
        rw [htrim, List.rtake, List.length_drop]
        omega
      have hrest := ih (room.deliver msg).1 hshort
      rw [htrim, rtake_append_rtake, List.append_assoc] at hrest
      exact hrest

/-- Whoever is not in the room, and does not come in, is handed nothing. -/
theorem handed_of_notMem {p : π} {cs : List (RoomCall π μ)} (hcs : p ∉ joined cs)
    (room : ChatRoom π μ) (h : p ∉ room.participants) :
    handed p (room.calls cs).2 = [] ∧ p ∉ (room.calls cs).1.participants := by
  induction cs generalizing room with
  | nil => exact ⟨rfl, h⟩
  | cons c cs ih =>
    cases c with
    | join q =>
      obtain ⟨hq, hcs⟩ : ¬ p = q ∧ p ∉ joined cs := by simpa using hcs
      have hroom : p ∉ (room.join q).1.participants := by simp [join, hq, h]
      obtain ⟨hrest, hout⟩ := ih hcs _ hroom
      refine ⟨?_, hout⟩
      show handed p (room.recentMsgs.map (q, ·) ++ ((room.join q).1.calls cs).2) = []
      rw [handed_append, hrest, handed_replay, if_neg (Ne.symm hq), List.nil_append]
    | leave q =>
      have hroom : p ∉ (room.leave q).participants := by simp [leave, h]
      exact ih hcs _ hroom
    | deliver msg =>
      obtain ⟨hrest, hout⟩ := ih hcs (room.deliver msg).1 h
      refine ⟨?_, hout⟩
      show handed p (room.participants.toList.map (·, msg) ++
        ((room.deliver msg).1.calls cs).2) = []
      rw [handed_append, hrest, handed_fanout, if_neg h, List.nil_append]

/-- Whoever is in the room is handed every message until it leaves. -/
theorem handed_of_mem {p : π} {cs : List (RoomCall π μ)} (hcs : p ∉ joined cs)
    (room : ChatRoom π μ) (h : p ∈ room.participants) :
    handed p (room.calls cs).2 = delivered (cs.takeWhile (·.stays p)) := by
  induction cs generalizing room with
  | nil => rfl
  | cons c cs ih =>
    cases c with
    | join q =>
      obtain ⟨hq, hcs⟩ : ¬ p = q ∧ p ∉ joined cs := by simpa using hcs
      have hrest := ih hcs (room.join q).1 (by simp [join, h])
      show handed p (room.recentMsgs.map (q, ·) ++ ((room.join q).1.calls cs).2) = _
      rw [handed_append, hrest, handed_replay, if_neg (Ne.symm hq)]
      rfl
    | leave q =>
      show handed p ((room.leave q).calls cs).2 = _
      by_cases hq : q = p
      · subst hq
        have hroom : q ∉ (room.leave q).participants := by simp [leave]
        have hcs : q ∉ joined cs := hcs
        rw [(handed_of_notMem hcs _ hroom).1]
        simp [RoomCall.stays, delivered]
      · have hroom : p ∈ (room.leave q).participants := by simp [leave, Ne.symm hq, h]
        rw [ih hcs _ hroom]
        simp [RoomCall.stays, hq]
    | deliver msg =>
      have hrest := ih hcs (room.deliver msg).1 h
      show handed p (room.participants.toList.map (·, msg) ++
        ((room.deliver msg).1.calls cs).2) = _
      rw [handed_append, hrest, handed_fanout, if_pos h]
      rfl

end ChatRoom

/-! ### Whole runs -/

/-- What `p` is handed over a whole sequence of calls on a new room. -/
def received (p : π) (cs : List (RoomCall π μ)) : List μ :=
  handed p ((ChatRoom.empty : ChatRoom π μ).calls cs).2

/-- A participant that never joins hears nothing. -/
theorem received_of_notMem {p : π} {cs : List (RoomCall π μ)} (h : p ∉ joined cs) :
    received p cs = [] :=
  (ChatRoom.handed_of_notMem h _ (SortedSet.notMem_empty p)).1

/-- A participant that joins once hears the recent messages and then all of them, until it
leaves. -/
theorem received_of_join {p : π} {before after : List (RoomCall π μ)} (hbefore : p ∉ joined before)
    (hafter : p ∉ joined after) :
    received p (before ++ .join p :: after) =
      (delivered before).rtake maxRecentMsgs ++ delivered (after.takeWhile (·.stays p)) := by
  let room := ((ChatRoom.empty : ChatRoom π μ).calls before).1
  have hrecent : room.recentMsgs = (delivered before).rtake maxRecentMsgs :=
    ChatRoom.recentMsgs_calls .empty (Nat.zero_le _) before
  have hsilent := (ChatRoom.handed_of_notMem hbefore (ChatRoom.empty : ChatRoom π μ)
    (SortedSet.notMem_empty p)).1
  have hlive := ChatRoom.handed_of_mem hafter (room.join p).1 (by simp [ChatRoom.join])
  rw [received, ChatRoom.calls_append, handed_append, hsilent, List.nil_append]
  show handed p (room.recentMsgs.map (p, ·) ++ ((room.join p).1.calls after).2) = _
  rw [handed_append, hlive, handed_replay, if_pos rfl, hrecent]

/-- The positions, among all messages, of what a participant hears: the end of those before it
joins, and those up to when it leaves. -/
theorem window_eq (n : ℕ) (as bs cs : List μ) :
    (as.rtake n ++ bs).map some =
      (List.range' (as.length - n) (as.length - (as.length - n) + bs.length)).map
        ((as ++ (bs ++ cs))[·]?) := by
  refine List.ext_getElem? ?_
  intro i
  have hle : as.length - n ≤ as.length := Nat.sub_le _ _
  have hdrop : as.rtake n ++ bs = (as ++ bs).drop (as.length - n) :=
    (List.drop_append_of_le_length hle).symm
  rw [hdrop, List.getElem?_map, List.getElem?_map, List.getElem?_drop, ← List.append_assoc]
  by_cases hi : i < as.length - (as.length - n) + bs.length
  · have hin : as.length - n + i < (as ++ bs).length := by
      rw [List.length_append]
      omega
    rw [List.getElem?_range' hi, Option.map_some, Nat.one_mul, List.getElem?_append_left hin,
      List.getElem?_eq_getElem hin, Option.map_some]
  · have hout : (as ++ bs).length ≤ as.length - n + i := by
      rw [List.length_append]
      omega
    rw [List.getElem?_eq_none hout, List.getElem?_eq_none (by rw [List.length_range']; omega)]
    rfl

/-- Two stretches of positions list what they share in the same order. -/
theorem range'_filter_mem (a m b n : ℕ) :
    (List.range' a m).filter (· ∈ List.range' b n) =
      (List.range' b n).filter (· ∈ List.range' a m) := by
  have hsorted (k l : ℕ) : (List.range' k l).Pairwise (· < ·) := List.pairwise_lt_range'
  exact ((hsorted a m).filter _).eq_of_mem_iff ((hsorted b n).filter _) fun i => by
    simp only [List.mem_filter, decide_eq_true_eq, and_comm]

/-- **Room delivery.** Where every participant joins at most once, whoever never joins hears
nothing, and whoever joins hears the last hundred messages before that and then every message until
it leaves. So each hears one stretch of the messages, without a gap, and any two hear what they have
in common in the same order. -/
theorem room_delivery (cs : List (RoomCall π μ)) (honce : (joined cs).Nodup) :
    (∀ p ∉ joined cs, received p cs = []) ∧
    (∀ p before after, cs = before ++ .join p :: after →
      received p cs =
        (delivered before).rtake maxRecentMsgs ++ delivered (after.takeWhile (·.stays p))) ∧
    ∃ heard : π → List ℕ,
      (∀ p, (received p cs).map some = (heard p).map ((delivered cs)[·]?)) ∧
      (∀ p, ∃ first count, heard p = List.range' first count) ∧
      ∀ p q, (heard p).filter (· ∈ heard q) = (heard q).filter (· ∈ heard p) := by
  have hjoin : ∀ p before after, cs = before ++ .join p :: after → received p cs =
      (delivered before).rtake maxRecentMsgs ++ delivered (after.takeWhile (·.stays p)) := by
    rintro p before after rfl
    rw [joined_append, joined_cons_join, List.nodup_append] at honce
    obtain ⟨-, hafter, hdisjoint⟩ := honce
    exact received_of_join (fun h => hdisjoint p h p List.mem_cons_self rfl)
      (List.nodup_cons.mp hafter).1
  have hwindow : ∀ p, ∃ first count,
      (received p cs).map some = (List.range' first count).map ((delivered cs)[·]?) := by
    intro p
    by_cases hp : p ∈ joined cs
    · obtain ⟨before, after, hcs⟩ := exists_of_mem_joined hp
      have hall : delivered cs = delivered before ++ (delivered (after.takeWhile (·.stays p)) ++
          delivered (after.dropWhile (·.stays p))) := by
        rw [← delivered_append, List.takeWhile_append_dropWhile, hcs, delivered_append,
          delivered_cons_join]
      rw [hjoin p before after hcs, hall]
      exact ⟨_, _, window_eq _ _ _ _⟩
    · rw [received_of_notMem hp]
      exact ⟨0, 0, rfl⟩
  choose first count hheard using hwindow
  exact ⟨fun p hp => received_of_notMem hp, hjoin, fun p => List.range' (first p) (count p),
    hheard, fun p => ⟨_, _, rfl⟩, fun p q => range'_filter_mem _ _ _ _⟩

/-- One participant hears two messages and leaves; the other comes late and hears all three. -/
theorem room_delivery_sample :
    let cs : List (RoomCall ℕ ℕ) :=
      [.join 1, .deliver 10, .deliver 11, .leave 1, .join 0, .deliver 12]
    received 1 cs = [10, 11] ∧ received 0 cs = [10, 11, 12] := by
  intro cs
  obtain ⟨-, hjoin, -⟩ := room_delivery cs (by decide)
  exact ⟨hjoin 1 [] _ rfl, hjoin 0 [.join 1, .deliver 10, .deliver 11, .leave 1] _ rfl⟩

end Exec02
