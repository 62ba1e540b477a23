import Exec02.Lib.CString
import Exec02.Lib.Deque
import Exec02.MyList
import Mathlib.Data.Finset.Lattice.Fold
import Mathlib.Order.Lattice.Nat

/-!
# The word list shell

The main loop of `FileTransMain.cpp`: a line is read and cut into words, the first of them names a
command, and the commands push copies of words to the front of a list and remove them there again.
Nothing looks at what `list_rem_next` answers. That the loop of `remove` prints and frees words that
were in the list rests on the comparison of its count with the `size` of the list in front of it.

## Reading the model

* a command is a line together with the string that ends up in `word` when the user is asked; lines
  come as `fgets` hands them out, and both are read up to their first NUL
* `Allocator` is what `malloc` does: it answers a block that is not in use, or `NULL`. Which one may
  depend on everything that has happened
* what goes to the screen is left out, but for the words that are removed
* `size` counts the nodes without a bound: a list does not come to `2 ^ 31` of them
* the end of the process inside `remove all`, when there is no memory, is the end of the loop

## Main results

* `Shell.add_spec`, `Shell.madd_spec`, `Shell.remove_spec` — what the commands do to the list
* `Shell.command_spec` — one line, and one round of `WordStack`
* `shell_refines_stack` — the shell is a stack of words
-/

namespace Exec02

/-- What `malloc` answers: at its `n`-th call, with the given blocks in use. -/
structure Allocator where
  malloc : ℕ → Finset Addr → Option Addr
  fresh {n : ℕ} {live : Finset Addr} {a : Addr} : malloc n live = some a → a ∉ live

/-- There is always memory. -/
def Allocator.Succeeds (al : Allocator) : Prop := ∀ n live, (al.malloc n live).isSome

/-- A line, and what is answered to the question it may lead to. -/
structure Command where
  line : List UInt8
  answer : List UInt8

/-- `" \n"`. -/
def isBlank (b : UInt8) : Bool := b = 32 || b = 10

/-- `!strcmp("y", word) || !strcmp("Y", word)`. -/
def isYes (word : List UInt8) : Bool := word = ascii "y" || word = ascii "Y"

/-- What an observer sees: copies put into the list, and copies removed, printed and freed. -/
abbrev WordLog := List (DequeEvent (Addr × List UInt8))

/-- The variables of the loop, and the memory: `lp` with its nodes, the blocks words are copied to,
and the number of calls of `malloc`. -/
structure Shell where
  isRun : Bool
  lp : ListMem Addr
  words : Heap Addr (List UInt8)
  mallocs : ℕ

namespace Shell

variable (al : Allocator)

/-- `main`, in front of the loop. -/
def init (lp : ListMem Addr) (destroy : Option Addr) (words : Heap Addr (List UInt8))
    (mallocs : ℕ) : Shell :=
  ⟨true, listInit lp destroy, words, mallocs⟩

/-- `malloc`. -/
def malloc (s : Shell) : Option Addr × Shell :=
  (al.malloc s.mallocs (s.words.live ∪ s.lp.live), { s with mallocs := s.mallocs + 1 })

/-- `malloc`, and where it answers a block, `memcpy` and `memset`: a copy of a word. -/
def copy (s : Shell) (data : List UInt8) : Option (Option Addr × Shell) :=
  match s.malloc al with
  | (none, s) => some (none, s)
  | (some newData, s) => do
    let words ← (s.words.alloc newData).store newData data
    return (some newData, { s with words })

/-- `list_ins_next(&lp, NULL, newData)`. -/
def insNext (s : Shell) (newData : Addr) : Option (ℤ × Shell) := do
  let (node, s) := s.malloc al
  let (ret, lp) ← listInsNext s.lp none (some newData) node
  return (ret, { s with lp })

/-- The loop of `add`. A copy that `malloc` has no memory for is made at `NULL`. -/
def add (s : Shell) (context : List UInt8) : Option (Shell × WordLog) :=
  match _h : strtokS isBlank context with
  | none => some (s, [])
  | some (data, rest) => do
    let (newData, s) ← s.copy al data
    let newData ← newData
    let (ret, s) ← s.insNext al newData
    if ret < 0 then return ({ s with isRun := false }, [])
    let (s, log) ← s.add rest
    return (s, .pushFront (newData, data) :: log)
termination_by context.length
decreasing_by exact length_lt_of_strtokS _h

/-- The inner loop of `madd`, with what is left of its count. -/
def maddWord (s : Shell) (data : List UInt8) : ℕ → Option (Shell × WordLog)
  | 0 => some (s, [])
  | n + 1 => do
    let (newData, s) ← s.copy al data
    match newData with
    | none => return ({ s with isRun := false }, [])
    | some newData =>
      let (ret, s) ← s.insNext al newData
      if ret < 0 then
        let words ← s.words.free newData
        return ({ s with words, isRun := false }, [])
      let (s, log) ← s.maddWord data n
      return (s, .pushFront (newData, data) :: log)

/-- The outer loop of `madd`. -/
def madd (s : Shell) (n : ℕ) (context : List UInt8) : Option (Shell × WordLog) :=
  if s.isRun then
    match _h : strtokS isBlank context with
    | none => some (s, [])
    | some (data, rest) => do
      let (s, log) ← s.maddWord al data n
      let (s, log') ← s.madd n rest
      return (s, log ++ log')
  else some (s, [])
termination_by context.length
decreasing_by exact length_lt_of_strtokS _h

/-- The question of `remove`, if there is memory for the answer: whether it was `y` or `Y`. -/
def confirm (s : Shell) (answer : List UInt8) : Option (Option Bool × Shell) :=
  match s.malloc al with
  | (none, s) => some (none, s)
  | (some word, s) => do
    let words ← (s.words.alloc word).store word answer
    let read ← words.load word
    let words ← words.free word
    return (some (isYes (cstr read)), { s with words })

/-- The loop of `remove`, with what is left of its count. `data` is not set in the first round, and
`NULL` in the others: printing it unless `list_rem_next` has set it is undefined. -/
def removeLoop (s : Shell) : ℕ → Option (Shell × WordLog)
  | 0 => some (s, [])
  | cnt + 1 => do
    let (ret, lp, data) ← listRemNext s.lp none none
    let data ← data
    let word ← s.words.load data
    let words ← s.words.free data
    let (s, log) ← removeLoop { s with lp, words } cnt
    return (s, .ofTake ret (data, word) :: log)

/-- `remove`, once `cnt` is known. -/
def removeCnt (s : Shell) (cnt : ℤ) : Option (Shell × WordLog) :=
  if cnt > s.lp.list.size then some (s, []) else s.removeLoop cnt.toNat

/-- `remove`. -/
def remove (s : Shell) (context answer : List UInt8) : Option (Shell × WordLog) :=
  match strtokS isBlank context with
  | none => s.removeCnt 1
  | some (word, _) =>
    if word = ascii "all" then do
      let (confirmed, s) ← s.confirm al answer
      match confirmed with
      | none => return ({ s with isRun := false }, [])
      | some confirmed => s.removeCnt (if confirmed then s.lp.list.size else 0)
    else if 0 < atoi word then do
      let (confirmed, s) ← s.confirm al answer
      match confirmed with
      | none => return ({ s with isRun := false }, [])
      | some confirmed => s.removeCnt (if confirmed then atoi word else 0)
    else s.removeCnt (atoi word)

/-- A round of the loop. -/
def command (s : Shell) (c : Command) : Option (Shell × WordLog) :=
  match strtokS isBlank (cstr c.line) with
  | none => some (s, [])
  | some (cmd, context) =>
    if cmd = ascii "exit" then some ({ s with isRun := false }, [])
    else if cmd = ascii "cls" ∨ cmd = ascii "clear" then some (s, [])
    else if cmd = ascii "size" ∨ cmd = ascii "info" then some (s, [])
    else if cmd = ascii "print" then some (s, [])
    else if cmd = ascii "print2" then some (s, [])
    else if cmd = ascii "remove" then s.remove al context c.answer
    else if cmd = ascii "add" then s.add al context
    else if cmd = ascii "madd" then
      match strtokS isBlank context with
      | none => some (s, [])
      | some (data, rest) =>
        if atoi data < 1 then some (s, []) else s.madd al (atoi data).toNat rest
    -- `printUsage()`
    else some (s, [])

end Shell

/-- The shell as a machine. When the loop has ended no line is read. -/
def shellMachine (al : Allocator) :
    Machine Shell Command (DequeEvent (Addr × List UInt8)) where
  allowed _ _ := True
  step s c := if s.isRun then s.command al c else some (s, [])

/-! ### The reference -/

/-- What the shell is for: a stack of words, until it is told to `exit`. -/
structure WordStack where
  isRun : Bool
  words : List (List UInt8)

namespace WordStack

/-- Push words, one after the other. -/
def push (st : WordStack) (words : List (List UInt8)) : WordStack :=
  { st with words := words.reverse ++ st.words }

/-- Pop a number of words, if there are so many. -/
def pop (st : WordStack) (cnt : ℤ) : WordStack :=
  if st.words.length < cnt then st else { st with words := st.words.drop cnt.toNat }

/-- How many words a `remove` is about, of so many. -/
def removal (size : ℕ) (confirmed : Bool) : List (List UInt8) → ℤ
  | [] => 1
  | word :: _ =>
    if word = ascii "all" then if confirmed then size else 0
    else if confirmed ∧ 0 < atoi word then atoi word
    else 0

/-- A command. -/
def step (st : WordStack) (c : Command) : WordStack :=
  if st.isRun then
    match tokens isBlank (cstr c.line) with
    | [] => st
    | cmd :: args =>
      if cmd = ascii "exit" then { st with isRun := false }
      else if cmd = ascii "add" then st.push args
      else if cmd = ascii "madd" then
        match args with
        | [] => st
        | n :: words => st.push (words.flatMap (List.replicate (atoi n).toNat))
      else if cmd = ascii "remove" then
        st.pop (removal st.words.length (isYes (cstr c.answer)) args)
      else st
  else st

theorem isRun_pop (st : WordStack) (cnt : ℤ) : (st.pop cnt).isRun = st.isRun := by
  rw [pop]
  split <;> rfl

end WordStack

/-! ### What the list holds -/

namespace Shell

variable {al : Allocator} {s s' : Shell} {ps qs : List (Addr × List UInt8)}
  {words : List (List UInt8)}

/-- `s.Holds ps`: the list is one of pointers to the copies `ps`, latest first, each in a live block
of its own with the word given. -/
structure Holds (s : Shell) (ps : List (Addr × List UInt8)) : Prop where
  /-- The list is one of pointers to the copies. -/
  list : ∃ ns, s.lp.Represents ns ∧ ns.map s.lp.data = ps.map fun p => some p.1
  /-- No copy is in it twice. -/
  nodup : (ps.map Prod.fst).Nodup
  /-- Each copy is live. -/
  live : ∀ p ∈ ps, p.1 ∈ s.words.live
  /-- Each copy still reads like its word. -/
  cell : ∀ p ∈ ps, s.words.cell p.1 = p.2

/-- A command goes through: it takes the list from the copies `ps` to some that read `words`, and
what it shows are pushes and pops that lead from one to the other. -/
def Moves (ps : List (Addr × List UInt8)) (words : List (List UInt8)) (isRun : Bool)
    (r : Option (Shell × WordLog)) : Prop :=
  ∃ s log qs, r = some (s, log) ∧ s.isRun = isRun ∧ s.Holds qs ∧ qs.map Prod.snd = words ∧
    Trace (DequeStep ⊤) ps log qs ∧ (∀ e ∈ log, e.IsStack) ∧ .empty ∉ log

theorem Holds.size_eq (hs : s.Holds ps) : s.lp.list.size = ps.length := by
  obtain ⟨ns, hns, hdata⟩ := hs.list
  have hlen := congrArg List.length hdata
  rw [List.length_map, List.length_map] at hlen
  rw [hns.size, hlen]

/-- Nothing changes. -/
theorem Holds.moves_nil (hs : s.Holds ps) : Moves ps (ps.map Prod.snd) s.isRun (some (s, [])) :=
  ⟨s, [], ps, rfl, rfl, hs, rfl, .nil ps, fun _ => nofun, nofun⟩

/-- One push or pop, and the rest. -/
theorem Moves.cons {e : DequeEvent (Addr × List UInt8)} {isRun : Bool}
    {r : Option (Shell × WordLog)} (h : Moves qs words isRun r) (hstep : DequeStep ⊤ ps e qs)
    (hstack : e.IsStack) (hne : e ≠ .empty) :
    Moves ps words isRun (do
      let (s, log) ← r
      return (s, e :: log)) := by
  obtain ⟨s, log, qs, rfl, hrun, hs, hwords, htrace, hlog, hempty⟩ := h
  exact ⟨s, e :: log, qs, rfl, hrun, hs, hwords, .cons hstep htrace,
    List.forall_mem_cons.mpr ⟨hstack, hlog⟩,
    fun hmem => (List.mem_cons.mp hmem).elim (fun h => hne h.symm) hempty⟩

/-- One part of a command, and then the other. -/
theorem Moves.append {words' : List (List UInt8)} {isRun isRun' : Bool}
    {r : Option (Shell × WordLog)} {f : Shell → Option (Shell × WordLog)}
    (h : Moves ps words isRun r) (hf : ∀ {s qs}, s.isRun = isRun → s.Holds qs →
      qs.map Prod.snd = words → Moves qs words' isRun' (f s)) :
    Moves ps words' isRun' (do
      let (s, log) ← r
      let (s, log') ← f s
      return (s, log ++ log')) := by
  obtain ⟨s, log, qs, rfl, hrun, hs, hwords, htrace, hlog, hempty⟩ := h
  obtain ⟨t, log', qs', ht, hrun', hqs', hwords', htrace', hlog', hempty'⟩ := hf hrun hs hwords
  refine ⟨t, log ++ log', qs', by simp [ht], hrun', hqs', hwords', htrace.append htrace',
    List.forall_mem_append.mpr ⟨hlog, hlog'⟩, ?_⟩
  intro hmem
  exact (List.mem_append.mp hmem).elim hempty hempty'

/-! ### Memory -/

/-- A block that is not in use. -/
theorem malloc_spec (hal : al.Succeeds) (s : Shell) :
    ∃ a, s.malloc al = (some a, { s with mallocs := s.mallocs + 1 }) ∧ a ∉ s.words.live ∧
      a ∉ s.lp.live := by
  obtain ⟨a, ha⟩ := Option.isSome_iff_exists.mp (hal s.mallocs (s.words.live ∪ s.lp.live))
  obtain ⟨hwords, hlp⟩ := not_or.mp (Finset.mem_union.not.mp (al.fresh ha))
  exact ⟨a, by rw [malloc, ha], hwords, hlp⟩

/-- A block that is not in use is no copy. -/
theorem Holds.fresh (hs : s.Holds ps) {a : Addr} (ha : a ∉ s.words.live) :
    a ∉ ps.map Prod.fst := by
  intro hmem
  obtain ⟨p, hp, rfl⟩ := List.mem_map.mp hmem
  exact ha (hs.live p hp)

/-- A block is taken and written to. -/
theorem Holds.alloc (hs : s.Holds ps) {a : Addr} (ha : a ∉ s.words.live) (data : List UInt8)
    (mallocs : ℕ) :
    Holds ⟨s.isRun, s.lp, ⟨Function.update s.words.cell a data, insert a s.words.live⟩, mallocs⟩
      ps := by
  refine ⟨hs.list, hs.nodup, fun p hp => Finset.mem_insert_of_mem (hs.live p hp), ?_⟩
  intro p hp
  have hne : p.1 ≠ a := fun hpa => ha (hpa ▸ hs.live p hp)
  exact (Function.update_of_ne hne ..).trans (hs.cell p hp)

/-- A block that is no copy is freed. -/
theorem Holds.free (hs : s.Holds ps) {a : Addr} (ha : a ∉ ps.map Prod.fst) :
    Holds { s with words := ⟨s.words.cell, s.words.live.erase a⟩ } ps := by
  refine ⟨hs.list, hs.nodup, ?_, hs.cell⟩
  intro p hp
  have hne : p.1 ≠ a := fun hpa => ha (List.mem_map.mpr ⟨p, hp, hpa⟩)
  exact Finset.mem_erase_of_ne_of_mem hne (hs.live p hp)

/-! ### Pushing -/

/-- A block that is not in use, with the word in it. -/
theorem copy_spec (hal : al.Succeeds) (hs : s.Holds ps) (data : List UInt8) :
    ∃ a s', s.copy al data = some (some a, s') ∧ s'.isRun = s.isRun ∧ s'.Holds ps ∧
      a ∉ ps.map Prod.fst ∧ a ∈ s'.words.live ∧ s'.words.cell a = data := by
  obtain ⟨a, ha, hfresh, -⟩ := malloc_spec hal s
  have hstore : (s.words.alloc a).store a data =
      some ⟨Function.update s.words.cell a data, insert a s.words.live⟩ :=
    Heap.store_of_mem (Finset.mem_insert_self ..) data
  refine ⟨a, ⟨s.isRun, s.lp, ⟨Function.update s.words.cell a data, insert a s.words.live⟩,
    s.mallocs + 1⟩, ?_, rfl, hs.alloc hfresh data _, hs.fresh hfresh, Finset.mem_insert_self ..,
    Function.update_self ..⟩
  simp [copy, ha, hstore]

/-- A copy that is not in the list yet is its front now. -/
theorem insNext_spec (hal : al.Succeeds) (hs : s.Holds ps) {a : Addr} {data : List UInt8}
    (ha : a ∉ ps.map Prod.fst) (hlive : a ∈ s.words.live) (hcell : s.words.cell a = data) :
    ∃ s', s.insNext al a = some (0, s') ∧ s'.isRun = s.isRun ∧ s'.Holds ((a, data) :: ps) := by
  obtain ⟨ns, hns, hdata⟩ := hs.list
  obtain ⟨node, hnode, -, hfresh⟩ := malloc_spec hal s
  obtain ⟨lp, hret, hlp, hdata', -⟩ := listInsNext_front hns hfresh (some a)
  refine ⟨{ s with lp, mallocs := s.mallocs + 1 }, ?_, rfl, ⟨node :: ns, hlp, ?_⟩,
    List.nodup_cons.mpr ⟨ha, hs.nodup⟩, List.forall_mem_cons.mpr ⟨hlive, hs.live⟩,
    List.forall_mem_cons.mpr ⟨hcell, hs.cell⟩⟩
  · simp [insNext, hnode, hret]
  · rw [List.map_cons, List.map_cons, hdata', hns.map_update hfresh, hdata, Function.update_self]

/-- A copy is made, and is the front of the list. -/
theorem push_spec (hal : al.Succeeds) (hs : s.Holds ps) (data : List UInt8) :
    ∃ a s₁ s₂, s.copy al data = some (some a, s₁) ∧ s₁.insNext al a = some (0, s₂) ∧
      s₂.isRun = s.isRun ∧ s₂.Holds ((a, data) :: ps) := by
  obtain ⟨a, s₁, hcopy, hrun₁, hs₁, ha, hlive, hcell⟩ := copy_spec hal hs data
  obtain ⟨s₂, hins, hrun₂, hs₂⟩ := insNext_spec hal hs₁ ha hlive hcell
  exact ⟨a, s₁, s₂, hcopy, hins, hrun₂.trans hrun₁, hs₂⟩

theorem add_of_none {context : List UInt8} (h : strtokS isBlank context = none) :
    s.add al context = some (s, []) := by
  rw [add]
  split
  · rfl
  · next h' => cases h.symm.trans h'

/-- A word of `add`, copied and put in front. -/
theorem add_of_some {context data rest : List UInt8} {a : Addr} {s₁ s₂ : Shell}
    (h : strtokS isBlank context = some (data, rest)) (hcopy : s.copy al data = some (some a, s₁))
    (hins : s₁.insNext al a = some (0, s₂)) : s.add al context = do
      let (s, log) ← s₂.add al rest
      return (s, .pushFront (a, data) :: log) := by
  rw [add]
  split
  · next h' => cases h.symm.trans h'
  · next h' =>
    obtain ⟨rfl, rfl⟩ := Prod.mk.inj (Option.some.inj (h.symm.trans h'))
    simp [hcopy, hins]

/-- **`add`** pushes the words that are left of the line. -/
theorem add_spec (hal : al.Succeeds) : ∀ {args : List (List UInt8)} {s : Shell}
    {ps : List (Addr × List UInt8)} (context : List UInt8), tokens isBlank context = args →
      s.Holds ps → Moves ps (args.reverse ++ ps.map Prod.snd) s.isRun (s.add al context) := by
  intro args
  induction args with
  | nil =>
    intro s ps context hargs hs
    rw [add_of_none (tokens_eq_nil_iff.mp hargs)]
    exact hs.moves_nil
  | cons data args ih =>
    intro s ps context hargs hs
    obtain ⟨rest, h, hrest⟩ := tokens_eq_cons_iff.mp hargs
    obtain ⟨a, s₁, s₂, hcopy, hins, hrun, hs₂⟩ := push_spec hal hs data
    have hmoves := (ih rest hrest hs₂).cons (.pushFront (ENat.natCast_lt_top _)) trivial nofun
    rw [hrun, List.map_cons] at hmoves
    rw [add_of_some h hcopy hins]
    simpa using hmoves

theorem maddWord_spec (hal : al.Succeeds) (data : List UInt8) : ∀ {n : ℕ} {s : Shell}
    {ps : List (Addr × List UInt8)}, s.Holds ps →
      Moves ps (List.replicate n data ++ ps.map Prod.snd) s.isRun (s.maddWord al data n) := by
  intro n
  induction n with
  | zero => exact fun hs => hs.moves_nil
  | succ n ih =>
    intro s ps hs
    obtain ⟨a, s₁, s₂, hcopy, hins, hrun, hs₂⟩ := push_spec hal hs data
    have hmoves := (ih hs₂).cons (.pushFront (ENat.natCast_lt_top _)) trivial nofun
    have hwords : List.replicate n data ++ ((a, data) :: ps).map Prod.snd =
        List.replicate (n + 1) data ++ ps.map Prod.snd := by
      rw [List.replicate_succ', List.append_assoc, List.map_cons, List.singleton_append]
    rw [hrun, hwords] at hmoves
    simpa [maddWord, hcopy, hins] using hmoves

theorem madd_of_none {n : ℕ} {context : List UInt8} (h : strtokS isBlank context = none) :
    s.madd al n context = some (s, []) := by
  rw [madd]
  split
  · split
    · rfl
    · next h' => cases h.symm.trans h'
  · rfl

/-- A word of `madd`, and the others. -/
theorem madd_of_some {n : ℕ} {context data rest : List UInt8} (hrun : s.isRun = true)
    (h : strtokS isBlank context = some (data, rest)) : s.madd al n context = do
      let (s, log) ← s.maddWord al data n
      let (s, log') ← s.madd al n rest
      return (s, log ++ log') := by
  rw [madd, if_pos hrun]
  split
  · next h' => cases h.symm.trans h'
  · next h' =>
    obtain ⟨rfl, rfl⟩ := Prod.mk.inj (Option.some.inj (h.symm.trans h'))
    rfl

/-- **`madd`** pushes each of the words that are left of the line `n` times. -/
theorem madd_spec (hal : al.Succeeds) (n : ℕ) : ∀ {args : List (List UInt8)} {s : Shell}
    {ps : List (Addr × List UInt8)} (context : List UInt8), tokens isBlank context = args →
      s.isRun = true → s.Holds ps →
      Moves ps ((args.flatMap (List.replicate n)).reverse ++ ps.map Prod.snd) true
        (s.madd al n context) := by
  intro args
  induction args with
  | nil =>
    intro s ps context hargs hrun hs
    rw [madd_of_none (tokens_eq_nil_iff.mp hargs), ← hrun]
    exact hs.moves_nil
  | cons data args ih =>
    intro s ps context hargs hrun hs
    obtain ⟨rest, h, hrest⟩ := tokens_eq_cons_iff.mp hargs
    rw [madd_of_some hrun h]
    have hword := maddWord_spec hal data (n := n) hs
    refine hword.append (f := fun s => s.madd al n rest) ?_
    intro t qs hrun' ht hwords
    have hmoves := ih rest hrest (hrun'.trans hrun) ht
    rwa [hwords, ← List.append_assoc, ← List.reverse_replicate, ← List.reverse_append,
      ← List.flatMap_cons] at hmoves

/-! ### Popping -/

/-- The front is removed, printed and freed. -/
theorem pop_spec {p : Addr × List UInt8} (hs : s.Holds (p :: ps)) :
    ∃ lp words, listRemNext s.lp none none = some (0, lp, some p.1) ∧
      s.words.load p.1 = some p.2 ∧ s.words.free p.1 = some words ∧
      Holds { s with lp, words } ps := by
  obtain ⟨ns, hns, hdata⟩ := hs.list
  have hlive := hs.live p (List.mem_cons_self ..)
  cases ns with
  | nil => cases hdata
  | cons node ns =>
    obtain ⟨hfront, hrest⟩ := List.cons.inj hdata
    obtain ⟨lp, hret, hlp, hdata', -⟩ := listRemNext_front hns none
    have hnode := (List.nodup_cons.mp hns.nodup).1
    have hp := (List.nodup_cons.mp hs.nodup).1
    have hfront' : s.lp.data node = some p.1 := hfront
    rw [hfront'] at hret
    have hdata'' : ns.map lp.data = ps.map fun p => some p.1 := by
      rw [← hrest]
      exact List.map_congr_left fun b hb => hdata' b (by rintro rfl; exact hnode hb)
    have hs' : Holds { s with lp } ps :=
      ⟨⟨ns, hlp, hdata''⟩, (List.nodup_cons.mp hs.nodup).2,
        fun q hq => hs.live q (List.mem_cons_of_mem _ hq),
        fun q hq => hs.cell q (List.mem_cons_of_mem _ hq)⟩
    refine ⟨lp, _, hret, ?_, Heap.free_of_mem hlive, hs'.free hp⟩
    rw [Heap.load_of_mem hlive, hs.cell p (List.mem_cons_self ..)]

/-- As many copies as the list holds can be removed. -/
theorem removeLoop_spec : ∀ {cnt : ℕ} {s : Shell} {ps : List (Addr × List UInt8)}, s.Holds ps →
    cnt ≤ ps.length → Moves ps ((ps.map Prod.snd).drop cnt) s.isRun (s.removeLoop cnt) := by
  intro cnt
  induction cnt with
  | zero => exact fun hs _ => hs.moves_nil
  | succ cnt ih =>
    intro s ps hs hcnt
    cases ps with
    | nil => cases hcnt
    | cons p ps =>
      obtain ⟨lp, words, hret, hload, hfree, hs'⟩ := pop_spec hs
      have hmoves :=
        (ih hs' (Nat.le_of_succ_le_succ hcnt)).cons (DequeStep.take (x := p)) trivial nofun
      simpa [removeLoop, hret, hload, hfree, DequeEvent.ofTake] using hmoves

/-- With `cnt` known, a `remove` pops as the reference does. -/
theorem removeCnt_spec (hs : s.Holds ps) (cnt : ℤ) :
    Moves ps (WordStack.pop ⟨s.isRun, ps.map Prod.snd⟩ cnt).words s.isRun (s.removeCnt cnt) := by
  have hlen : (ps.map Prod.snd).length = ps.length := List.length_map _
  rw [removeCnt, WordStack.pop, hs.size_eq, hlen]
  by_cases hcnt : (ps.length : ℤ) < cnt
  · rw [if_pos hcnt, if_pos hcnt]
    exact hs.moves_nil
  · rw [if_neg hcnt, if_neg hcnt]
    exact removeLoop_spec hs (by omega)

/-- The question is asked, and the block for the answer is gone. -/
theorem confirm_spec (hal : al.Succeeds) (hs : s.Holds ps) (answer : List UInt8) :
    ∃ s', s.confirm al answer = some (some (isYes (cstr answer)), s') ∧ s'.isRun = s.isRun ∧
      s'.Holds ps := by
  obtain ⟨word, hword, hfresh, -⟩ := malloc_spec hal s
  let words : Heap Addr (List UInt8) :=
    ⟨Function.update s.words.cell word answer, insert word s.words.live⟩
  have hstore : (s.words.alloc word).store word answer = some words :=
    Heap.store_of_mem (Finset.mem_insert_self ..) answer
  have hload : words.load word = some answer :=
    (Heap.load_of_mem (Finset.mem_insert_self ..)).trans
      (congrArg some (Function.update_self ..))
  have hfree : words.free word = some ⟨words.cell, words.live.erase word⟩ :=
    Heap.free_of_mem (Finset.mem_insert_self ..)
  refine ⟨⟨s.isRun, s.lp, ⟨words.cell, words.live.erase word⟩, s.mallocs + 1⟩, ?_, rfl,
    (hs.alloc hfresh answer _).free (hs.fresh hfresh)⟩
  simp [confirm, hword, hstore, hload, hfree]

/-- **`remove`** pops what the reference does. -/
theorem remove_spec (hal : al.Succeeds) (hs : s.Holds ps) (context answer : List UInt8) :
    Moves ps (WordStack.pop ⟨s.isRun, ps.map Prod.snd⟩
        (WordStack.removal ps.length (isYes (cstr answer)) (tokens isBlank context))).words s.isRun
      (s.remove al context answer) := by
  rw [remove, tokens_of_strtokS]
  cases h : strtokS isBlank context with
  | none => exact removeCnt_spec hs 1
  | some r =>
    obtain ⟨word, rest⟩ := r
    obtain ⟨s', hconfirm, hrun, hs'⟩ := confirm_spec hal hs answer
    by_cases hall : word = ascii "all"
    · have hmoves := removeCnt_spec hs' (if isYes (cstr answer) then ps.length else 0)
      rw [hrun] at hmoves
      simpa [WordStack.removal, hall, hconfirm, hs'.size_eq] using hmoves
    · by_cases hpos : 0 < atoi word
      · have hmoves := removeCnt_spec hs' (if isYes (cstr answer) then atoi word else 0)
        rw [hrun] at hmoves
        simpa [WordStack.removal, hall, hpos, hconfirm] using hmoves
      · -- a number that is not positive removes nothing
        have hnone : ∀ cnt : ℤ, ¬ 0 < cnt → WordStack.pop ⟨s.isRun, ps.map Prod.snd⟩ cnt =
            ⟨s.isRun, ps.map Prod.snd⟩ := by
          intro cnt hcnt
          have hzero : cnt.toNat = 0 := by omega
          rw [WordStack.pop, if_neg (by omega), hzero, List.drop_zero]
        have hmoves := removeCnt_spec hs (atoi word)
        rw [hnone _ hpos] at hmoves
        simpa [WordStack.removal, hall, hpos, hnone] using hmoves

/-- **`madd`**, with its count. -/
theorem command_madd (hal : al.Succeeds) (hs : s.Holds ps) (hrun : s.isRun = true) {c : Command}
    {context : List UInt8} (h : strtokS isBlank (cstr c.line) = some (ascii "madd", context)) :
    Moves ps (WordStack.step ⟨true, ps.map Prod.snd⟩ c).words
      (WordStack.step ⟨true, ps.map Prod.snd⟩ c).isRun (s.command al c) := by
  have hnothing : Moves ps (ps.map Prod.snd) true (some (s, [])) := hrun ▸ hs.moves_nil
  have hline := tokens_eq_cons_iff.mpr ⟨context, h, rfl⟩
  cases hargs : tokens isBlank context with
  | nil =>
    have hn := tokens_eq_nil_iff.mp hargs
    simpa +decide [command, WordStack.step, h, hline, hargs, hn] using hnothing
  | cons n words =>
    obtain ⟨rest, hn, hwords⟩ := tokens_eq_cons_iff.mp hargs
    by_cases hlt : atoi n < 1
    · have hzero : (atoi n).toNat = 0 := by omega
      have hnil : words.flatMap (List.replicate (atoi n).toNat) = [] := by
        simp [hzero, List.flatMap_eq_nil_iff]
      simpa +decide [command, WordStack.step, h, hline, hargs, hn, hlt, hnil, WordStack.push]
        using hnothing
    · have hmoves := madd_spec hal (atoi n).toNat rest hwords hrun hs
      simpa +decide [command, WordStack.step, h, hline, hargs, hn, hlt, WordStack.push]
        using hmoves

/-- **A command** does to the list what it does to the reference. -/
theorem command_spec (hal : al.Succeeds) (hs : s.Holds ps) (hrun : s.isRun = true) (c : Command) :
    Moves ps (WordStack.step ⟨true, ps.map Prod.snd⟩ c).words
      (WordStack.step ⟨true, ps.map Prod.snd⟩ c).isRun (s.command al c) := by
  have hnothing : Moves ps (ps.map Prod.snd) true (some (s, [])) := hrun ▸ hs.moves_nil
  cases h : strtokS isBlank (cstr c.line) with
  | none =>
    rw [command, WordStack.step, if_pos rfl, tokens_of_strtokS, h]
    exact hnothing
  | some r =>
    obtain ⟨cmd, context⟩ := r
    by_cases hmadd : cmd = ascii "madd"
    · subst hmadd
      exact command_madd hal hs hrun h
    rw [command, WordStack.step, if_pos rfl, tokens_of_strtokS, h]
    by_cases hexit : cmd = ascii "exit"
    · subst hexit
      exact ⟨{ s with isRun := false }, [], ps, rfl, rfl, ⟨hs.list, hs.nodup, hs.live, hs.cell⟩,
        rfl, .nil ps, fun _ => nofun, nofun⟩
    by_cases hadd : cmd = ascii "add"
    · subst hadd
      have hmoves := add_spec hal context rfl hs
      rw [hrun] at hmoves
      exact hmoves
    by_cases hremove : cmd = ascii "remove"
    · subst hremove
      have hmoves := remove_spec hal hs context c.answer
      rw [hrun] at hmoves
      simpa +decide [WordStack.isRun_pop] using hmoves
    simp only [hexit, hadd, hmadd, hremove, if_false]
    repeat' split
    all_goals exact hnothing

theorem holds_init (lp : ListMem Addr) (destroy : Option Addr) (words : Heap Addr (List UInt8))
    (mallocs : ℕ) : (init lp destroy words mallocs).Holds [] :=
  ⟨⟨[], ListMem.represents_listInit lp destroy, rfl⟩, List.nodup_nil, fun _ => nofun,
    fun _ => nofun⟩

end Shell

/-! ### Runs -/

/-- **A stack of words.** With memory at hand the shell goes through every sequence of commands, and
after each of them its list holds the words of the reference. What is removed, printed and freed is
the front of the list every time; so no copy is freed twice, and those that were made are the ones
freed and the ones held. -/
theorem shell_refines_stack (al : Allocator) (hal : al.Succeeds) (lp : ListMem Addr)
    (destroy : Option Addr) (words : Heap Addr (List UInt8)) (mallocs : ℕ) (cs : List Command) :
    ∃ s log ps, (shellMachine al).Run (Shell.init lp destroy words mallocs) cs s log ∧
      s.Holds ps ∧ cs.foldl WordStack.step ⟨true, []⟩ = ⟨s.isRun, ps.map Prod.snd⟩ ∧
      Trace (DequeStep ⊤) [] log ps ∧ (∀ e ∈ log, e.IsStack) ∧ .empty ∉ log ∧
      (accepted log).Perm (taken log ++ ps) := by
  suffices hrun : ∃ s log ps, (shellMachine al).Run (Shell.init lp destroy words mallocs) cs s log ∧
      s.Holds ps ∧ cs.foldl WordStack.step ⟨true, []⟩ = ⟨s.isRun, ps.map Prod.snd⟩ ∧
      Trace (DequeStep ⊤) [] log ps ∧ (∀ e ∈ log, e.IsStack) ∧ .empty ∉ log by
    obtain ⟨s, log, ps, hrun, hs, hwords, htrace, hlog, hempty⟩ := hrun
    exact ⟨s, log, ps, hrun, hs, hwords, htrace, hlog, hempty, by simpa using htrace.accepted_perm⟩
  induction cs using List.reverseRecOn with
  | nil =>
    exact ⟨_, [], [], .nil, Shell.holds_init lp destroy words mallocs, rfl, .nil [],
      fun _ => nofun, nofun⟩
  | append_singleton cs c ih =>
    obtain ⟨s, log, ps, hrun, hs, hwords, htrace, hlog, hempty⟩ := ih
    rw [List.foldl_append, hwords]
    cases hisRun : s.isRun with
    | false =>
      refine ⟨s, log ++ [], ps, hrun.snoc trivial (by simp [shellMachine, hisRun]), hs, ?_⟩
      rw [List.append_nil, hisRun]
      exact ⟨rfl, htrace, hlog, hempty⟩
    | true =>
      obtain ⟨t, log', qs, ht, hisRun', hqs, hwords', htrace', hlog', hempty'⟩ :=
        Shell.command_spec hal hs hisRun c
      refine ⟨t, log ++ log', qs, hrun.snoc trivial ?_, hqs, ?_, htrace.append htrace',
        List.forall_mem_append.mpr ⟨hlog, hlog'⟩, ?_⟩
      · simp only [shellMachine, hisRun, if_true, ht]
      · rw [hisRun', hwords']
        rfl
      · intro hmem
        exact (List.mem_append.mp hmem).elim hempty hempty'

/-- An allocator that never runs out: the block behind all that are in use. -/
def Allocator.next : Allocator where
  malloc _ live := some (live.sup id + 1)
  fresh := by
    rintro n live a h hmem
    obtain rfl := Option.some.inj h
    exact absurd (Finset.le_sup (f := id) hmem) (Nat.not_succ_le_self _)

/-- Pushes of both kinds, and removals of every kind: confirmed, refused, and of more words than
there are. -/
def Command.sample : List Command :=
  [⟨ascii "add a b\n", []⟩, ⟨ascii "madd 2 c\n", []⟩, ⟨ascii "remove\n", []⟩,
    ⟨ascii "remove 2\n", ascii "y"⟩, ⟨ascii "remove 9\n", ascii "Y"⟩,
    ⟨ascii "remove all\n", ascii "n"⟩]

theorem shell_refines_stack_sample : ∃ s log ps,
    (shellMachine .next).Run (.init (.blank Addr) none ⟨fun _ => [], ∅⟩ 0) Command.sample s log ∧
      s.Holds ps ∧ ps.map Prod.snd = [ascii "a"] ∧ Trace (DequeStep ⊤) [] log ps ∧
      .empty ∉ log := by
  obtain ⟨s, log, ps, hrun, hs, hwords, htrace, -, hempty, -⟩ :=
    shell_refines_stack .next (fun _ _ => rfl) (.blank Addr) none ⟨fun _ => [], ∅⟩ 0 Command.sample
  have hfinal : Command.sample.foldl WordStack.step ⟨true, []⟩ = ⟨true, [ascii "a"]⟩ := by rfl
  rw [hfinal] at hwords
  exact ⟨s, log, ps, hrun, hs, (congrArg WordStack.words hwords).symm, htrace, hempty⟩

end Exec02
