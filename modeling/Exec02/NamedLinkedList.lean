import Exec02.Lib.Heap
import Exec02.Lib.Words

/-!
# Names in a list

`NamedLinkedList.cpp`: names are read from the standard input up to the word `exit`, each put in
front of a list, and then the list is printed. Where the input ends before that word comes,
`cin >> name` reads nothing any more, and the name that is put in front of the list is empty: there
is no end to that.

## Reading the model

`fuel` bounds the loops, and running out of it is a fault, as is an access of an object that is not
there. The answer of `new` depends on what is in use, and is not in use. The output is what
`std::cout` is given.

## Main results

* `readAll_cases` — the loop ends at the first `exit`, or not at all
* `printAll_eq` — what is printed of a list
* `named_list_iff` — the inputs that come to an end, and what is printed then
-/

namespace Exec02

/-- What may go wrong with a list. -/
inductive ListFault
  | wild
  | endless
  deriving DecidableEq

/-- An access that fails is one of an object that is not there. -/
def ListFault.orWild {α : Type} : Option α → Except ListFault α
  | some a => .ok a
  | none => .error .wild

open ListFault

/-- `NamedLinkedList`. -/
structure NamedLinkedList where
  sName : List UInt8
  pNext : Option Addr

/-- The objects, and the static `pHead`. -/
structure NamedObjects where
  mem : Heap Addr NamedLinkedList
  pHead : Option Addr

namespace NamedLinkedList

/-! ### The source -/

/-- `cin >> name`: the next word, or nothing at the end of the input, and what is left of that. -/
def extract (input : List UInt8) : List UInt8 × List UInt8 :=
  let input := input.dropWhile isSpace
  (input.takeWhile (!isSpace ·), input.dropWhile (!isSpace ·))

/-- `add()`. -/
def add (s : NamedObjects) (this : Addr) : Except ListFault NamedObjects := do
  let node ← orWild (s.mem.load this)
  let mem ← orWild (s.mem.store this { node with pNext := s.pHead })
  return ⟨mem, some this⟩

/-- `getData()`: its answer, the objects, and what is left of the input. -/
def getData (new : OperatorNew) (mem : Heap Addr NamedLinkedList) (input : List UInt8) :
    Except ListFault (Option Addr × Heap Addr NamedLinkedList × List UInt8) :=
  let (name, input) := extract input
  if name = ascii "exit" then return (none, mem, input)
  else do
    let a := new.addr mem.live
    let mem ← orWild ((mem.alloc a).store a ⟨name, none⟩)
    return (some a, mem, input)

/-- `while (pNDS = getData()) pNDS->add();`, with what is printed. -/
def readAll (new : OperatorNew) : ℕ → NamedObjects → List UInt8 →
    Except ListFault (NamedObjects × List UInt8)
  | 0, _, _ => .error .endless
  | fuel + 1, s, input => do
    let (pNDS, mem, input) ← getData new s.mem input
    match pNDS with
    | none => return (⟨mem, s.pHead⟩, ascii "Enter name:")
    | some pNDS =>
      let s ← add ⟨mem, s.pHead⟩ pNDS
      let (s, text) ← readAll new fuel s input
      return (s, ascii "Enter name:" ++ text)

/-- The loop that prints, from `pIter` on. -/
def printAll (mem : Heap Addr NamedLinkedList) : ℕ → Option Addr → Except ListFault (List UInt8)
  | 0, _ => .error .endless
  | _ + 1, none => return []
  | fuel + 1, some pIter => do
    let node ← orWild (mem.load pIter)
    let text ← printAll mem fuel node.pNext
    return node.sName ++ (if node.pNext.isSome then ascii ", " else []) ++ text

/-- `main`, with what is printed. -/
def main (new : OperatorNew) (fuel : ℕ) (mem : Heap Addr NamedLinkedList) (input : List UInt8) :
    Except ListFault (List UInt8) := do
  let (s, text) ← readAll new fuel ⟨mem, none⟩ input
  let entries ← printAll s.mem fuel s.pHead
  return ascii "Enter 'exit' for first name to exit\n" ++ text ++ ascii "\nEntries:\n" ++
    entries ++ ascii "\n"

/-! ### The words of the input -/

/-- `cin >> name` reads word after word. -/
theorem extract_cases (input : List UInt8) :
    (tokens isSpace input = [] ∧ extract input = ([], [])) ∨
      ∃ word rest, extract input = (word, rest) ∧
        tokens isSpace input = word :: tokens isSpace rest := by
  rw [tokens_of_strtokS, strtokS, extract]
  cases hskip : input.dropWhile isSpace with
  | nil => exact .inl ⟨rfl, rfl⟩
  | cons b rest =>
    have hb : isSpace b = false := by
      have h := List.head?_dropWhile_not isSpace input
      rw [hskip] at h
      simpa using h
    refine .inr ⟨b :: rest.takeWhile (!isSpace ·), rest.dropWhile (!isSpace ·), ?_, ?_⟩
    · simp [hb]
    · dsimp only
      congr 1
      cases hrest : rest.dropWhile (!isSpace ·) with
      | nil => rfl
      | cons c behind =>
        have hc : isSpace c := by
          have h := List.head?_dropWhile_not (!isSpace ·) rest
          rw [hrest] at h
          simpa using h
        exact (tokens_cons_of_delim hc behind).symm

/-! ### The list -/

variable {new : OperatorNew} {s t : NamedObjects} {nodes : List Addr}
  {names before after : List (List UInt8)} {input : List UInt8} {fuel : ℕ}

/-- The list is in these objects, and has these names. -/
structure Names (s : NamedObjects) (nodes : List Addr) (names : List (List UInt8)) : Prop where
  chain : Chain (fun a => (s.mem.cell a).pNext) s.pHead nodes
  live : ∀ a ∈ nodes, a ∈ s.mem.live
  names : nodes.map (fun a => (s.mem.cell a).sName) = names

/-- The objects with one more, at `a`, in front of the list. -/
def inFront (s : NamedObjects) (name : List UInt8) (a : Addr) : NamedObjects :=
  ⟨⟨Function.update s.mem.cell a ⟨name, s.pHead⟩, insert a s.mem.live⟩, some a⟩

/-- A name that is not `exit` is put in front. -/
theorem getData_add (new : OperatorNew) (s : NamedObjects) {name rest : List UInt8}
    (hextract : extract input = (name, rest)) (hname : name ≠ ascii "exit") : ∃ mem,
      getData new s.mem input = .ok (some (new.addr s.mem.live), mem, rest) ∧
        add ⟨mem, s.pHead⟩ (new.addr s.mem.live) =
          .ok (inFront s name (new.addr s.mem.live)) := by
  generalize ha : new.addr s.mem.live = a
  have hmem : a ∈ insert a s.mem.live := Finset.mem_insert_self a s.mem.live
  refine ⟨⟨Function.update s.mem.cell a ⟨name, none⟩, insert a s.mem.live⟩, ?_, ?_⟩
  · have hstore : (s.mem.alloc a).store a ⟨name, none⟩ =
        some ⟨Function.update s.mem.cell a ⟨name, none⟩, insert a s.mem.live⟩ :=
      Heap.store_of_mem hmem _
    rw [getData, hextract]
    dsimp only
    rw [if_neg hname, ha, hstore]
    rfl
  · have hstore : Heap.store ⟨Function.update s.mem.cell a ⟨name, none⟩, insert a s.mem.live⟩ a
        ⟨name, s.pHead⟩ = some (inFront s name a).mem := by
      rw [Heap.store_of_mem hmem, Function.update_idem]
      rfl
    rw [add, Heap.load_write_self s.mem a, orWild]
    exact congrArg (fun r => orWild r >>= fun mem => pure (⟨mem, some a⟩ : NamedObjects)) hstore

/-- A turn of the loop that is not the last. -/
theorem readAll_succ {name rest : List UInt8} (hextract : extract input = (name, rest))
    (hname : name ≠ ascii "exit") (fuel : ℕ) : readAll new (fuel + 1) s input =
      (readAll new fuel (inFront s name (new.addr s.mem.live)) rest).map
        fun r => (r.1, ascii "Enter name:" ++ r.2) := by
  obtain ⟨mem, hget, hadd⟩ := getData_add new s hextract hname
  rw [readAll, hget]
  show (add ⟨mem, s.pHead⟩ _ >>= _) = _
  rw [hadd]
  show (readAll new fuel _ rest >>= _) = _
  cases readAll new fuel (inFront s name (new.addr s.mem.live)) rest <;> rfl

theorem Names.inFront (h : Names s nodes names) (name : List UInt8) {a : Addr}
    (ha : a ∉ s.mem.live) : Names (inFront s name a) (a :: nodes) (name :: names) := by
  have hself : (NamedLinkedList.inFront s name a).mem.cell a = ⟨name, s.pHead⟩ :=
    Function.update_self ..
  have hcell (b : Addr) (hb : b ∈ nodes) :
      (NamedLinkedList.inFront s name a).mem.cell b = s.mem.cell b := by
    refine Function.update_of_ne ?_ ..
    rintro rfl
    exact ha (h.live b hb)
  refine ⟨.cons ?_, ?_, ?_⟩
  · rw [hself]
    exact h.chain.congr fun b hb => congrArg pNext (hcell b hb)
  · intro b hb
    rcases List.mem_cons.mp hb with rfl | hb
    · exact Finset.mem_insert_self ..
    · exact Finset.mem_insert_of_mem (h.live b hb)
  · rw [List.map_cons, hself, ← h.names]
    exact congrArg (name :: ·) (List.map_congr_left fun b hb => congrArg sName (hcell b hb))

/-- **The loop.** It ends at the first `exit`, and then the names before that are in the list, or it
does not end. -/
theorem readAll_cases (new : OperatorNew) (fuel : ℕ) (input : List UInt8)
    (h : Names s nodes names) :
    (readAll new fuel s input = .error .endless ∧ ∀ before after,
      tokens isSpace input = before ++ ascii "exit" :: after → ascii "exit" ∉ before →
        fuel ≤ before.length) ∨
    ∃ before after t nodes', tokens isSpace input = before ++ ascii "exit" :: after ∧
      ascii "exit" ∉ before ∧ before.length < fuel ∧ Names t nodes' (before.reverse ++ names) ∧
        readAll new fuel s input =
          .ok (t, (List.replicate (before.length + 1) (ascii "Enter name:")).flatten) := by
  induction fuel generalizing s nodes names input with
  | zero => exact .inl ⟨rfl, fun _ _ _ _ => Nat.zero_le _⟩
  | succ fuel ih =>
    rcases extract_cases input with ⟨hnil, hextract⟩ | ⟨word, rest, hextract, hwords⟩
    · -- There is no word left, and none will come.
      have hempty : tokens isSpace [] = [] := rfl
      refine .inl ⟨?_, ?_⟩
      · rw [readAll_succ hextract (by decide)]
        rcases ih [] (h.inFront [] (new.fresh _)) with ⟨hend, -⟩ | hexit
        · rw [hend]
          rfl
        · obtain ⟨before, after, t, nodes', hwords, -⟩ := hexit
          rw [hempty] at hwords
          cases before <;> cases hwords
      · intro before after hwords
        rw [hnil] at hwords
        cases before <;> cases hwords
    · by_cases hexit : word = ascii "exit"
      · refine .inr ⟨[], tokens isSpace rest, s, nodes, hexit ▸ hwords, List.not_mem_nil,
          Nat.succ_pos fuel, h, ?_⟩
        rw [readAll, getData, hextract]
        dsimp only
        rw [if_pos hexit]
        rfl
      · rw [readAll_succ hextract hexit]
        rcases ih rest (h.inFront word (new.fresh _)) with ⟨hend, hlate⟩ | hexit'
        · refine .inl ⟨by rw [hend]; rfl, ?_⟩
          intro before after hsplit hbefore
          rw [hwords] at hsplit
          cases before with
          | nil => exact absurd (List.cons.inj hsplit).1 hexit
          | cons name before =>
            have hrest := (List.cons.inj hsplit).2
            exact Nat.succ_le_succ (hlate before after hrest
              fun hmem => hbefore (List.mem_cons_of_mem _ hmem))
        · obtain ⟨before, after, t, nodes', hrest, hbefore, hlt, ht, hread⟩ := hexit'
          refine .inr ⟨word :: before, after, t, nodes', ?_, ?_, Nat.succ_lt_succ hlt, ?_, ?_⟩
          · rw [hwords, hrest, List.cons_append]
          · exact List.not_mem_cons_of_ne_of_not_mem (Ne.symm hexit) hbefore
          · rw [List.reverse_cons, List.append_assoc]
            exact ht
          · rw [hread, List.length_cons, List.replicate_succ (n := before.length + 1),
              List.flatten_cons]
            rfl

/-- **The list.** Its names are printed, with commas between them. -/
theorem printAll_eq {mem : Heap Addr NamedLinkedList} {p : Option Addr}
    (hchain : Chain (fun a => (mem.cell a).pNext) p nodes) (hlive : ∀ a ∈ nodes, a ∈ mem.live)
    (hfuel : nodes.length < fuel) : printAll mem fuel p =
      .ok ((ascii ", ").intercalate (nodes.map fun a => (mem.cell a).sName)) := by
  induction hchain generalizing fuel with
  | nil =>
    obtain ⟨fuel, rfl⟩ := Nat.exists_eq_succ_of_ne_zero (Nat.ne_of_gt hfuel)
    rfl
  | @cons a nodes rest ih =>
    obtain ⟨fuel, rfl⟩ := Nat.exists_eq_succ_of_ne_zero (Nat.ne_of_gt (Nat.zero_lt_of_lt hfuel))
    have ih := ih (fun b hb => hlive b (List.mem_cons_of_mem _ hb)) (Nat.lt_of_succ_lt_succ hfuel)
    rw [printAll, Heap.load_of_mem (hlive a (List.mem_cons_self ..)), orWild]
    show (printAll mem fuel (mem.cell a).pNext >>= _) = _
    rw [ih, rest.head_eq]
    cases nodes with
    | nil => simp [List.intercalate]
    | cons b nodes => simp [List.intercalate]

/-- The words before the first `exit`. -/
theorem takeWhile_eq (hbefore : ascii "exit" ∉ before) (after : List (List UInt8)) :
    (before ++ ascii "exit" :: after).takeWhile (· ≠ ascii "exit") = before := by
  have hall : ∀ name ∈ before, decide (name ≠ ascii "exit") := by
    intro name hname
    exact decide_eq_true (ne_of_mem_of_not_mem hname hbefore)
  rw [List.takeWhile_append_of_pos hall, List.takeWhile_cons_of_neg (by simp), List.append_nil]

/-- The text that is printed, for these names. -/
def listing (names : List (List UInt8)) : List UInt8 :=
  ascii "Enter 'exit' for first name to exit\n" ++
    (List.replicate (names.length + 1) (ascii "Enter name:")).flatten ++
    ascii "\nEntries:\n" ++ (ascii ", ").intercalate names.reverse ++ ascii "\n"

/-- `main` ends with the loop that reads, if that ends. -/
theorem main_cases (new : OperatorNew) (fuel : ℕ) (mem : Heap Addr NamedLinkedList)
    (input : List UInt8) :
    (main new fuel mem input = .error .endless ∧ ∀ before after,
      tokens isSpace input = before ++ ascii "exit" :: after → ascii "exit" ∉ before →
        fuel ≤ before.length) ∨
    ∃ before after, tokens isSpace input = before ++ ascii "exit" :: after ∧
      ascii "exit" ∉ before ∧ main new fuel mem input = .ok (listing before) := by
  have hstart : Names ⟨mem, none⟩ [] [] := ⟨.nil, fun a ha => absurd ha List.not_mem_nil, rfl⟩
  rcases readAll_cases new fuel input hstart with ⟨hend, hlate⟩ | hexit
  · exact .inl ⟨by rw [main, hend]; rfl, hlate⟩
  · obtain ⟨before, after, t, nodes, hwords, hbefore, hlt, ht, hread⟩ := hexit
    have hlen : nodes.length < fuel := by
      have hnames := congrArg List.length ht.names
      simp only [List.length_map, List.append_nil, List.length_reverse] at hnames
      rwa [hnames]
    have hprint := printAll_eq ht.chain ht.live hlen
    rw [ht.names, List.append_nil] at hprint
    refine .inr ⟨before, after, hwords, hbefore, ?_⟩
    rw [main, hread]
    show (printAll t.mem fuel t.pHead >>= _) = _
    rw [hprint]
    rfl

/-- **The program.** It comes to an end exactly if the word `exit` is in the input, whatever `new`
answers, and then it has printed the names before the first of these words, the last one first; it
never accesses an object that is not there. -/
theorem named_list_iff (new : OperatorNew) (mem : Heap Addr NamedLinkedList) (input : List UInt8) :
    ((∃ fuel out, main new fuel mem input = .ok out) ↔ ascii "exit" ∈ tokens isSpace input) ∧
    (∀ fuel, main new fuel mem input ≠ .error .wild) ∧
    ∀ before after fuel, tokens isSpace input = before ++ ascii "exit" :: after →
      ascii "exit" ∉ before → before.length < fuel →
        main new fuel mem input = .ok (listing before) := by
  have hcases := fun fuel => main_cases new fuel mem input
  have hlast : ∀ before after fuel, tokens isSpace input = before ++ ascii "exit" :: after →
      ascii "exit" ∉ before → before.length < fuel →
        main new fuel mem input = .ok (listing before) := by
    intro before after fuel hwords hbefore hlt
    rcases hcases fuel with ⟨-, hlate⟩ | ⟨before', after', hwords', hbefore', hmain⟩
    · exact absurd (hlate before after hwords hbefore) (Nat.not_le.mpr hlt)
    · rw [hmain, ← takeWhile_eq hbefore' after', ← hwords', hwords, takeWhile_eq hbefore]
  refine ⟨⟨?_, ?_⟩, ?_, hlast⟩
  · rintro ⟨fuel, out, hout⟩
    rcases hcases fuel with ⟨hend, -⟩ | ⟨before, after, hwords, -⟩
    · rw [hend] at hout
      cases hout
    · rw [hwords]
      exact List.mem_append_right _ (List.mem_cons_self ..)
  · intro hmem
    obtain ⟨before, after, hwords, hbefore⟩ := List.eq_append_cons_of_mem hmem
    exact ⟨_, _, hlast before after _ hwords hbefore (Nat.lt_succ_self _)⟩
  · intro fuel hwild
    rcases hcases fuel with ⟨hend, -⟩ | ⟨before, after, -, -, hmain⟩
    · rw [hend] at hwild
      cases hwild
    · rw [hmain] at hwild
      cases hwild

/-- `ann bob exit`. -/
theorem named_list_iff_sample : ∃ out,
    main .next 3 ⟨fun _ => ⟨[], none⟩, ∅⟩ (ascii "ann bob exit") = .ok out ∧
      out = listing [ascii "ann", ascii "bob"] := by
  obtain ⟨-, -, hlast⟩ :=
    named_list_iff .next ⟨fun _ => ⟨[], none⟩, ∅⟩ (ascii "ann bob exit")
  exact ⟨_, hlast [ascii "ann", ascii "bob"] [] 3 (by decide) (by decide) (by decide), rfl⟩

end NamedLinkedList

end Exec02
