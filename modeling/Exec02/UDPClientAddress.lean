import Exec02.UDPClient

/-!
# The address of the UDP client

`udpclient.c`: the address prompt in front of each message. The line goes straight into
`str_target_addr`, over the address that was there; if it is a host name, the address it resolves to
goes over it in turn, without a NUL; and if it does not resolve, it stays there. `str_addr_temp`
keeps what was there before the line, so that an empty line can bring it back.

## Reading the model

A line is an address, a host name or empty. What the resolver answers for it comes with it. A line
has at most 17 characters, so `fgets` reads all of it. Whatever starts with a digit is taken for an
address. What was entered last is no part of the program, and nothing of the program reads it.

## Main results

* `prompt_spec` — one line, with what is left behind in the buffer
* `address_sent_iff` — the runs that send to the address entered last
-/

namespace Exec02

/-- `ADDR_LEN`. -/
def addrLen : ℕ := 20

/-- An IPv4 address. -/
structure InAddr where
  sb1 : UInt8
  sb2 : UInt8
  sb3 : UInt8
  sb4 : UInt8

/-- `inet_ntoa`. -/
def inetNtoa (a : InAddr) : List UInt8 :=
  decimal a.sb1.toNat ++ 46 :: (decimal a.sb2.toNat ++ 46 :: (decimal a.sb3.toNat ++
    46 :: decimal a.sb4.toNat))

/-- `strcpy`. -/
def strcpy {m n : ℕ} (dst : Buffer n) (src : Buffer m) : Option (Buffer n) :=
  if 0 ∈ src.bytes then dst.write 0 (cstr src.bytes ++ [0]) else none

/-- `hostnameToIp(hostname, ip)`, given what `gethostbyname` answers. -/
def hostnameToIp {n : ℕ} (he : Option (List InAddr)) (ip : Buffer n) : Option (ℕ × Buffer n) :=
  match he with
  | none => some (1, ip)
  | some [] => some (1, ip)
  | some (addr :: _) => do
    let ip ← ip.write 0 (inetNtoa addr ++ [0])
    return (0, ip)

/-- The first character is a digit. -/
def startsWithDigit (s : List UInt8) : Bool := s.head?.any isDigit

/-- A line typed at the prompt, and what the resolver answers for it. -/
structure AddressEntry where
  line : TypedLine
  he : Option (List InAddr)

/-- The two buffers. -/
structure AddressPrompt where
  strTargetAddr : Buffer addrLen
  strAddrTemp : Buffer addrLen

namespace AddressPrompt

/-- A round of the loop as far as the message, with the string that is given to `inet_addr`. There
is none where the round ends here. -/
def prompt (s : AddressPrompt) (entry : AddressEntry) :
    Option (AddressPrompt × Option (List UInt8)) := do
  let strAddrTemp ← strcpy s.strAddrTemp s.strTargetAddr
  let strTargetAddr ← fgets s.strTargetAddr (addrLen - 1) entry.line
  let cp := cstr strTargetAddr.bytes
  if 0 < cp.length ∧ cp.head? ≠ some 10 then
    let strTargetAddr ←
      if cp.getLast? = some 10 then strTargetAddr.write (cp.length - 1) [0] else some strTargetAddr
    let cp := cstr strTargetAddr.bytes
    if 0 < cp.length ∧ ¬ startsWithDigit cp then
      let strAddrTemp ← memsetZero strAddrTemp addrLen
      let (failed, strAddrTemp) ← hostnameToIp entry.he strAddrTemp
      if failed = 0 then
        let strTargetAddr ← strTargetAddr.write 0 (cstr strAddrTemp.bytes)
        return (⟨strTargetAddr, strAddrTemp⟩, some (cstr strTargetAddr.bytes))
      else return (⟨strTargetAddr, strAddrTemp⟩, none)
    else return (⟨strTargetAddr, strAddrTemp⟩, some cp)
  else
    let strTargetAddr ← memsetZero strTargetAddr addrLen
    let strTargetAddr ← strcpy strTargetAddr strAddrTemp
    return (⟨strTargetAddr, strAddrTemp⟩, some (cstr strAddrTemp.bytes))

/-- `main`, in front of its loop. -/
def init (strTargetAddr strAddrTemp : Buffer addrLen) : Option AddressPrompt := do
  let strTargetAddr ← memsetZero strTargetAddr addrLen
  return ⟨strTargetAddr, strAddrTemp⟩

end AddressPrompt

/-! ### The address entered last -/

/-- Digits and dots, and a digit first. -/
def isDotted (s : List UInt8) : Bool := startsWithDigit s && s.all fun c => isDigit c || c = 46

/-- The address a line stands for: itself, or the first address that it resolves to. -/
def AddressEntry.address (entry : AddressEntry) : Option (List UInt8) :=
  if entry.line.text = [] then none
  else if isDotted entry.line.text then some entry.line.text
  else (entry.he.bind List.head?).map inetNtoa

/-- The client, and the address entered last. -/
structure AddressRun where
  buffers : AddressPrompt
  entered : Option (List UInt8)

/-- A string given to `inet_addr`, and the address entered last. -/
structure AddressSend where
  sent : List UInt8
  entered : Option (List UInt8)

/-- A line of at most 17 characters. -/
def AddressEntry.Allowed (entry : AddressEntry) : Prop :=
  entry.line.text.length ≤ 17 ∧ 0 ∉ entry.line.text

instance AddressEntry.decidableAllowed (entry : AddressEntry) : Decidable entry.Allowed :=
  inferInstanceAs (Decidable (_ ∧ _))

/-- The prompt as a machine, observed at the rounds that send. -/
def addressMachine : Machine AddressRun AddressEntry AddressSend where
  allowed _ entry := entry.Allowed
  step s entry := do
    let (buffers, sent) ← s.buffers.prompt entry
    let entered := entry.address.orElse fun _ => s.entered
    return (⟨buffers, entered⟩, sent.toList.map fun sent => ⟨sent, entered⟩)

instance (s : AddressRun) (entry : AddressEntry) : Decidable (addressMachine.allowed s entry) :=
  inferInstanceAs (Decidable entry.Allowed)

/-- Sent is the address entered last, if there is one. -/
def AddressSend.Right (o : AddressSend) : Prop := ∀ a ∈ o.entered, o.sent = a

/-- The line keeps what is sent right. An empty line follows an address, or nothing has been entered
yet. A host name does not start with a digit; and the address it resolves to, if it does, ends
where the buffer has a NUL: it is as long as the name, or one longer, or longer still and there was
a NUL in the buffer. Or the name does not resolve, and nothing has been entered yet. -/
def AddressEntry.Kept (s : AddressRun) (entry : AddressEntry) : Prop :=
  if entry.line.text = [] then
    s.entered = none ∨ startsWithDigit (cstr s.buffers.strTargetAddr.bytes)
  else if isDotted entry.line.text then True
  else
    (¬ startsWithDigit entry.line.text ∧ ∀ ip ∈ entry.address,
      entry.line.text.length ≤ ip.length ∧ (entry.line.text.length + 2 ≤ ip.length →
        s.buffers.strTargetAddr.bytes[ip.length]? = some 0)) ∨
    (entry.address = none ∧ s.entered = none)

instance (s : AddressRun) (entry : AddressEntry) : Decidable (entry.Kept s) :=
  inferInstanceAs (Decidable (ite _ _ (ite _ _ _)))

/-! ### The buffers -/

section Buffers

variable {m n : ℕ}

theorem strcpy_spec (dst : Buffer n) {src : Buffer m} (hnul : 0 ∈ src.bytes) (h : m ≤ n) :
    ∃ b, strcpy dst src = some b ∧
      b.bytes = cstr src.bytes ++ 0 :: dst.bytes.drop ((cstr src.bytes).length + 1) := by
  have hlt := length_cstr_lt hnul
  rw [src.size_eq] at hlt
  obtain ⟨b, hb, hbytes⟩ := dst.exists_write_zero
    (show (cstr src.bytes ++ [0]).length ≤ n by
      rw [List.length_append, List.length_singleton]; omega)
  refine ⟨b, (if_pos hnul).trans hb, ?_⟩
  rw [hbytes, List.length_append, List.append_assoc]
  rfl

theorem memsetZero_spec (b : Buffer n) :
    ∃ b', memsetZero b n = some b' ∧ b'.bytes = List.replicate n 0 := by
  obtain ⟨b', hb', hbytes⟩ := b.exists_write_zero (List.length_replicate (n := n) (a := 0)).le
  refine ⟨b', hb', ?_⟩
  rw [hbytes, List.length_replicate, List.drop_of_length_le b.size_eq.le, List.append_nil]

/-- A line that fits is read with its newline. -/
theorem fgets_line (b : Buffer n) {k : ℕ} (hk : k ≤ n) (line : TypedLine)
    (hline : line.text.length + 2 ≤ k) : ∃ b', fgets b k line = some b' ∧
      b'.bytes = line.text ++ 10 :: 0 :: b.bytes.drop (line.text.length + 2) := by
  have htake : (line.text ++ [10]).take (k - 1) = line.text ++ [10] :=
    List.take_of_length_le (by rw [List.length_append, List.length_singleton]; omega)
  obtain ⟨b', hb', hbytes⟩ := b.exists_write_zero
    (show (line.text ++ [10] ++ [0]).length ≤ n by
      simp only [List.length_append, List.length_singleton]; omega)
  refine ⟨b', by rw [fgets, htake, hb'], ?_⟩
  rw [hbytes]
  simp

theorem hostnameToIp_of_none {he : Option (List InAddr)} (h : he.bind List.head? = none)
    (ip : Buffer n) : hostnameToIp he ip = some (1, ip) := by
  rcases he with _ | _ | ⟨addr, addrs⟩
  · rfl
  · rfl
  · cases h

theorem hostnameToIp_of_some {he : Option (List InAddr)} {addr : InAddr}
    (h : he.bind List.head? = some addr) {ip ip' : Buffer n}
    (hwrite : ip.write 0 (inetNtoa addr ++ [0]) = some ip') :
    hostnameToIp he ip = some (0, ip') := by
  rcases he with _ | _ | ⟨addr', addrs⟩
  · cases h
  · cases h
  · obtain rfl : addr' = addr := Option.some.inj h
    simp [hostnameToIp, hwrite]

/-- A string that is empty, in the middle of a buffer. -/
theorem cstr_drop_eq_nil_iff {bytes : List UInt8} {k : ℕ} (hk : k < bytes.length) :
    cstr (bytes.drop k) = [] ↔ bytes[k]? = some 0 := by
  rw [List.drop_eq_getElem_cons hk, List.getElem?_eq_getElem hk, cstr, List.takeWhile_cons,
    Option.some_inj]
  split_ifs with h
  · exact iff_of_false not_false (of_decide_eq_true h)
  · exact iff_of_true rfl (by simpa using h)

/-- What is not written over ends as it did. -/
theorem getLast?_append_drop {bytes : List UInt8} (h : bytes.getLast? = some 0) {k : ℕ}
    (hk : k < bytes.length) (data : List UInt8) : (data ++ bytes.drop k).getLast? = some 0 := by
  rw [List.getLast?_append, List.getLast?_drop, if_neg (by omega), h]
  rfl

end Buffers

/-! ### Addresses -/

theorem startsWithDigit_iff {s : List UInt8} :
    startsWithDigit s ↔ ∃ c s', s = c :: s' ∧ isDigit c := by
  cases s with
  | nil => exact iff_of_false Bool.false_ne_true nofun
  | cons c s =>
    exact ⟨fun h => ⟨c, s, rfl, h⟩, fun ⟨_, _, hs, hc⟩ => (List.cons.inj hs).1 ▸ hc⟩

theorem length_decimal_le (c : UInt8) : (decimal c.toNat).length ≤ 3 := by
  rw [decimal, List.length_map, Nat.length_toDigits_le_iff (by decide) (by decide)]
  exact c.toNat_lt.trans (by decide)

theorem length_inetNtoa_le (a : InAddr) : (inetNtoa a).length ≤ 15 := by
  have h₁ := length_decimal_le a.sb1
  have h₂ := length_decimal_le a.sb2
  have h₃ := length_decimal_le a.sb3
  have h₄ := length_decimal_le a.sb4
  simp only [inetNtoa, List.length_append, List.length_cons]
  omega

theorem isDotted_inetNtoa (a : InAddr) : isDotted (inetNtoa a) := by
  have hdigits : ∀ n, ∀ c ∈ decimal n, isDigit c || c = 46 := fun n c hc => by
    rw [isDigit_of_mem_decimal hc]
    rfl
  obtain ⟨c, cs, hc⟩ : ∃ c cs, decimal a.sb1.toNat = c :: cs :=
    List.exists_cons_of_ne_nil fun h => Nat.toDigits_ne_nil (List.map_eq_nil_iff.mp h)
  rw [isDotted, Bool.and_eq_true]
  constructor
  · refine startsWithDigit_iff.mpr ⟨c, _, congrArg (· ++ _) hc, ?_⟩
    exact isDigit_of_mem_decimal (hc ▸ List.mem_cons_self)
  · rw [List.all_eq_true]
    intro c hc
    simp only [inetNtoa, List.mem_append, List.mem_cons] at hc
    rcases hc with hc | rfl | hc | rfl | hc | rfl | hc
    · exact hdigits _ c hc
    · rfl
    · exact hdigits _ c hc
    · rfl
    · exact hdigits _ c hc
    · rfl
    · exact hdigits _ c hc

theorem nul_notMem_of_isDotted {s : List UInt8} (h : isDotted s) : 0 ∉ s := by
  intro h0
  rw [isDotted, Bool.and_eq_true, List.all_eq_true] at h
  exact absurd (h.2 0 h0) (by decide)

theorem startsWithDigit_of_isDotted {s : List UInt8} (h : isDotted s) : startsWithDigit s :=
  (Bool.and_eq_true_iff.mp h).1

/-! ### One line -/

namespace AddressPrompt

variable {s : AddressPrompt} {entry : AddressEntry}

/-- An empty line: the address is copied away, and back. -/
theorem prompt_empty (hs : s.strTargetAddr.bytes.getLast? = some 0) (htext : entry.line.text = []) :
    ∃ t, s.prompt entry = some (t, some (cstr s.strTargetAddr.bytes)) ∧
      cstr t.strTargetAddr.bytes = cstr s.strTargetAddr.bytes ∧
      t.strTargetAddr.bytes.getLast? = some 0 := by
  have hnul : 0 ∈ s.strTargetAddr.bytes := List.mem_of_getLast? hs
  have hcstr : 0 ∉ cstr s.strTargetAddr.bytes := fun h => by
    simpa using List.mem_takeWhile_imp h
  obtain ⟨temp, htemp, htempBytes⟩ := strcpy_spec s.strAddrTemp hnul le_rfl
  obtain ⟨target, htarget, htargetBytes⟩ := fgets_line s.strTargetAddr (k := addrLen - 1)
    (Nat.sub_le _ _) entry.line (by rw [htext]; decide)
  obtain ⟨zeroed, hzeroed, hzeroedBytes⟩ := memsetZero_spec target
  have hsame : cstr temp.bytes = cstr s.strTargetAddr.bytes := by
    rw [htempBytes, cstr_append_nul hcstr]
  have hnul' : 0 ∈ temp.bytes := by
    rw [htempBytes]
    exact List.mem_append_right _ List.mem_cons_self
  obtain ⟨copied, hcopied, hcopiedBytes⟩ := strcpy_spec zeroed hnul' le_rfl
  have hcp : cstr target.bytes = [10] := by
    rw [htargetBytes, htext]
    rfl
  refine ⟨⟨copied, temp⟩, ?_, ?_, ?_⟩
  · simp [prompt, htemp, htarget, hcp, hzeroed, hcopied, hsame]
  · rw [hcopiedBytes, hsame, cstr_append_nul hcstr]
  · rw [hcopiedBytes, hzeroedBytes, List.drop_replicate, ← List.replicate_succ,
      List.getLast?_append, List.getLast?_replicate, if_neg (Nat.succ_ne_zero _)]
    rfl

/-- A line that is not empty, once its newline is off: with a digit in front it is the address, and
otherwise it is looked up. -/
theorem prompt_line (hs : s.strTargetAddr.bytes.getLast? = some 0) (ha : entry.Allowed)
    (htext : entry.line.text ≠ []) : ∃ temp target : Buffer addrLen,
      target.bytes = entry.line.text ++ 0 :: 0 ::
        s.strTargetAddr.bytes.drop (entry.line.text.length + 2) ∧
      target.bytes.getLast? = some 0 ∧ s.prompt entry =
        if startsWithDigit entry.line.text then some (⟨target, temp⟩, some entry.line.text)
        else do
          let temp ← memsetZero temp addrLen
          let (failed, temp) ← hostnameToIp entry.he temp
          if failed = 0 then
            let target ← target.write 0 (cstr temp.bytes)
            return (⟨target, temp⟩, some (cstr target.bytes))
          else return (⟨target, temp⟩, none) := by
  obtain ⟨hlength, hnul⟩ := ha
  obtain ⟨temp, htemp, -⟩ := strcpy_spec s.strAddrTemp (List.mem_of_getLast? hs) le_rfl
  obtain ⟨read, hread, hreadBytes⟩ := fgets_line s.strTargetAddr (k := addrLen - 1)
    (Nat.sub_le _ _) entry.line (by rw [addrLen]; omega)
  have hcp : cstr read.bytes = entry.line.text ++ [10] := by
    rw [hreadBytes, cstr_append hnul]
    rfl
  have hhead : entry.line.text.head?.getD 10 ≠ 10 := by
    obtain ⟨c, cs, hcs⟩ := List.exists_cons_of_ne_nil htext
    rw [hcs]
    have hc : c ∈ entry.line.text := hcs ▸ List.mem_cons_self
    exact ne_of_mem_of_not_mem hc entry.line.no_newline
  obtain ⟨target, htarget⟩ := read.write_isSome
    (show entry.line.text.length + [(0 : UInt8)].length ≤ addrLen by
      rw [List.length_singleton, addrLen]; omega)
  have htargetBytes : target.bytes = entry.line.text ++ 0 :: 0 ::
      s.strTargetAddr.bytes.drop (entry.line.text.length + 2) := by
    rw [Buffer.bytes_of_write htarget, hreadBytes]
    simp
  have hcp' : cstr target.bytes = entry.line.text := by
    rw [htargetBytes, cstr_append_nul hnul]
  have hpos : 0 < entry.line.text.length := List.length_pos_of_ne_nil htext
  have hlast : target.bytes.getLast? = some 0 := by
    have hlt : entry.line.text.length + 2 < s.strTargetAddr.bytes.length := by
      rw [s.strTargetAddr.size_eq, addrLen]
      omega
    have hlast := getLast?_append_drop hs hlt (entry.line.text ++ [0, 0])
    rw [List.append_assoc] at hlast
    rw [htargetBytes]
    exact hlast
  refine ⟨temp, target, htargetBytes, hlast, ?_⟩
  by_cases hdigit : startsWithDigit entry.line.text
  · simp [prompt, htemp, hread, hcp, hhead, htarget, hcp', hdigit]
  · simp [prompt, htemp, hread, hcp, hhead, htarget, hcp', hdigit, hpos]

/-- An address stays in the buffer. -/
theorem prompt_digit (hs : s.strTargetAddr.bytes.getLast? = some 0) (ha : entry.Allowed)
    (hdigit : startsWithDigit entry.line.text) : ∃ t,
      s.prompt entry = some (t, some entry.line.text) ∧
        cstr t.strTargetAddr.bytes = entry.line.text ∧ t.strTargetAddr.bytes.getLast? = some 0 := by
  have htext : entry.line.text ≠ [] := by
    intro htext
    rw [htext] at hdigit
    cases hdigit
  obtain ⟨temp, target, hbytes, hlast, hprompt⟩ := prompt_line hs ha htext
  refine ⟨⟨target, temp⟩, hprompt.trans (if_pos hdigit), ?_, hlast⟩
  rw [hbytes, cstr_append_nul ha.2]

/-- A host name that does not resolve stays in the buffer. -/
theorem prompt_unresolved (hs : s.strTargetAddr.bytes.getLast? = some 0) (ha : entry.Allowed)
    (htext : entry.line.text ≠ []) (hdigit : ¬ startsWithDigit entry.line.text)
    (he : entry.he.bind List.head? = none) : ∃ t, s.prompt entry = some (t, none) ∧
        cstr t.strTargetAddr.bytes = entry.line.text ∧ t.strTargetAddr.bytes.getLast? = some 0 := by
  obtain ⟨temp, target, hbytes, hlast, hprompt⟩ := prompt_line hs ha htext
  obtain ⟨zeroed, hzeroed, -⟩ := memsetZero_spec temp
  have hfailed := hostnameToIp_of_none he zeroed
  refine ⟨⟨target, zeroed⟩, ?_, ?_, hlast⟩
  · rw [hprompt, if_neg hdigit]
    simp [hzeroed, hfailed]
  · rw [hbytes, cstr_append_nul ha.2]

/-- A host name that resolves: the address goes over it, and ends where there is a NUL already. -/
theorem prompt_resolved (hs : s.strTargetAddr.bytes.getLast? = some 0) (ha : entry.Allowed)
    (htext : entry.line.text ≠ []) (hdigit : ¬ startsWithDigit entry.line.text) {addr : InAddr}
    (he : entry.he.bind List.head? = some addr) : ∃ t,
      s.prompt entry = some (t, some (cstr t.strTargetAddr.bytes)) ∧
      t.strTargetAddr.bytes.getLast? = some 0 ∧
      (cstr t.strTargetAddr.bytes = inetNtoa addr ↔
        entry.line.text.length ≤ (inetNtoa addr).length ∧
        (entry.line.text.length + 2 ≤ (inetNtoa addr).length →
          s.strTargetAddr.bytes[(inetNtoa addr).length]? = some 0)) := by
  obtain ⟨temp, target, hbytes, hlast, hprompt⟩ := prompt_line hs ha htext
  obtain ⟨zeroed, hzeroed, -⟩ := memsetZero_spec temp
  have hip := length_inetNtoa_le addr
  have hnul := nul_notMem_of_isDotted (isDotted_inetNtoa addr)
  obtain ⟨ip, hwrite, hipBytes⟩ := zeroed.exists_write_zero
    (show (inetNtoa addr ++ [0]).length ≤ addrLen by
      rw [List.length_append, List.length_singleton, addrLen]; omega)
  have hresolved := hostnameToIp_of_some he hwrite
  have hcstr : cstr ip.bytes = inetNtoa addr := by
    rw [hipBytes, List.append_assoc]
    exact cstr_append_nul hnul _
  obtain ⟨copied, hcopied, hcopiedBytes⟩ := target.exists_write_zero
    (show (inetNtoa addr).length ≤ addrLen by rw [addrLen]; omega)
  have hlt : (inetNtoa addr).length < target.bytes.length := by
    rw [target.size_eq, addrLen]
    omega
  refine ⟨⟨copied, ip⟩, ?_, ?_, ?_⟩
  · rw [hprompt, if_neg hdigit]
    simp [hzeroed, hresolved, hcstr, hcopied]
  · rw [hcopiedBytes]
    exact getLast?_append_drop hlast hlt _
  · rw [hcopiedBytes, cstr_append hnul, List.append_right_eq_self, cstr_drop_eq_nil_iff hlt, hbytes]
    rcases Nat.lt_or_ge (inetNtoa addr).length entry.line.text.length with hlong | hshort
    · -- a character of the name is left behind the address
      rw [List.getElem?_append_left hlong, List.getElem?_eq_getElem hlong]
      refine iff_of_false (fun h0 => ha.2 ?_) fun h => absurd h.1 (by omega)
      rw [← Option.some.inj h0]
      exact List.getElem_mem hlong
    · rw [List.getElem?_append_right hshort, and_iff_right hshort]
      obtain ⟨k, hk⟩ := Nat.exists_eq_add_of_le hshort
      rw [hk, Nat.add_sub_cancel_left]
      match k with
      | 0 => exact iff_of_true rfl fun h => absurd h (by omega)
      | 1 => exact iff_of_true rfl fun h => absurd h (by omega)
      | k + 2 =>
        have hle : entry.line.text.length + 2 ≤ entry.line.text.length + (k + 2) := by omega
        rw [List.getElem?_cons_succ, List.getElem?_cons_succ, List.getElem?_drop,
          show entry.line.text.length + 2 + k = entry.line.text.length + (k + 2) by omega]
        exact ⟨fun h _ => h, fun h => h hle⟩

end AddressPrompt

/-! ### Runs -/

variable {s : AddressRun} {entry : AddressEntry}

/-- The buffer ends with a NUL, and an address was entered last. -/
structure AddressRun.Ready (s : AddressRun) : Prop where
  getLast? : s.buffers.strTargetAddr.bytes.getLast? = some 0
  isDotted : ∀ a ∈ s.entered, isDotted a

/-- The address entered last is in the buffer, or a host name is. -/
def AddressRun.Holds (s : AddressRun) : Prop :=
  ∀ a ∈ s.entered, cstr s.buffers.strTargetAddr.bytes = a ∨
    ¬ startsWithDigit (cstr s.buffers.strTargetAddr.bytes)

theorem step_of_prompt {buffers : AddressPrompt} {sent : Option (List UInt8)}
    (h : s.buffers.prompt entry = some (buffers, sent)) :
    addressMachine.step s entry =
      some (⟨buffers, entry.address.orElse fun _ => s.entered⟩, sent.toList.map fun sent =>
        ⟨sent, entry.address.orElse fun _ => s.entered⟩) := by
  simp [addressMachine, h]

theorem AddressEntry.isDotted_of_address {ip : List UInt8} (h : entry.address = some ip) :
    isDotted ip := by
  rw [address] at h
  split_ifs at h with htext hdotted
  · obtain rfl := Option.some.inj h
    exact hdotted
  · obtain ⟨addr, -, rfl⟩ := Option.map_eq_some_iff.mp h
    exact isDotted_inetNtoa addr

theorem AddressRun.Ready.next (h : s.Ready) {buffers : AddressPrompt}
    (hlast : buffers.strTargetAddr.bytes.getLast? = some 0) :
    AddressRun.Ready ⟨buffers, entry.address.orElse fun _ => s.entered⟩ where
  getLast? := hlast
  isDotted a ha := by
    cases haddress : entry.address with
    | none =>
      rw [haddress] at ha
      exact h.isDotted a ha
    | some ip =>
      rw [haddress] at ha
      obtain rfl := Option.some.inj ha
      exact entry.isDotted_of_address haddress

/-- What one line does: the buffers are ready for the next one, and if the last address is there
now, what is sent is right exactly if the line keeps it, and then it is there again. -/
def AddressEntry.Does (s : AddressRun) (entry : AddressEntry) : Prop :=
  ∃ t outs, addressMachine.step s entry = some (t, outs) ∧ t.Ready ∧
    (s.Holds → ((∀ o ∈ outs, o.Right) ↔ entry.Kept s) ∧ (entry.Kept s → t.Holds))

theorem does_empty (h : s.Ready) (htext : entry.line.text = []) : entry.Does s := by
  obtain ⟨buffers, hprompt, hcstr, hlast⟩ := AddressPrompt.prompt_empty h.getLast? htext
  have haddress : entry.address = none := if_pos htext
  have hkept : entry.Kept s ↔ s.entered = none ∨
      startsWithDigit (cstr s.buffers.strTargetAddr.bytes) := by
    rw [AddressEntry.Kept, if_pos htext]
  refine ⟨_, _, step_of_prompt hprompt, h.next hlast, ?_⟩
  intro hs
  rw [haddress, hkept]
  refine ⟨List.forall_mem_singleton.trans ?_, ?_⟩
  · cases hentered : s.entered with
    | none => exact iff_of_true nofun (Or.inl rfl)
    | some a =>
      constructor
      · intro hright
        have hsame : cstr s.buffers.strTargetAddr.bytes = a := hright a rfl
        exact Or.inr (hsame ▸ startsWithDigit_of_isDotted (h.isDotted a hentered))
      · rintro (hnone | hdigit) b hb
        · cases hnone
        · exact (hs b (hentered.trans hb)).resolve_right (not_not_intro hdigit)
  · intro _ a ha
    rw [hcstr]
    exact hs a ha

theorem does_dotted (h : s.Ready) (ha : entry.Allowed) (htext : entry.line.text ≠ [])
    (hdotted : isDotted entry.line.text) : entry.Does s := by
  obtain ⟨buffers, hprompt, hcstr, hlast⟩ :=
    AddressPrompt.prompt_digit h.getLast? ha (startsWithDigit_of_isDotted hdotted)
  have haddress : entry.address = some entry.line.text := by
    rw [AddressEntry.address, if_neg htext, if_pos hdotted]
  have hkept : entry.Kept s := by
    rw [AddressEntry.Kept, if_neg htext, if_pos hdotted]
    trivial
  refine ⟨_, _, step_of_prompt hprompt, h.next hlast, ?_⟩
  intro _
  rw [haddress]
  refine ⟨iff_of_true (List.forall_mem_singleton.mpr ?_) hkept, ?_⟩
  · intro a ha
    exact Option.some.inj ha
  · intro _ a ha
    exact Or.inl (hcstr.trans (Option.some.inj ha))

/-- A host name that starts with a digit is sent as it is. -/
theorem does_digit (h : s.Ready) (ha : entry.Allowed) (htext : entry.line.text ≠ [])
    (hdotted : ¬ isDotted entry.line.text) (hdigit : startsWithDigit entry.line.text) :
    entry.Does s := by
  obtain ⟨buffers, hprompt, -, hlast⟩ := AddressPrompt.prompt_digit h.getLast? ha hdigit
  have hne : ∀ a, isDotted a → entry.line.text ≠ a := by
    rintro a ha rfl
    exact hdotted ha
  refine ⟨_, _, step_of_prompt hprompt, h.next hlast, ?_⟩
  intro _
  rw [AddressEntry.Kept, if_neg htext, if_neg hdotted]
  rw [or_iff_right fun hkept => hkept.1 hdigit]
  cases haddress : entry.address with
  | some ip =>
    refine ⟨iff_of_false ?_ fun hkept => absurd hkept.1 nofun, fun hkept => absurd hkept.1 nofun⟩
    intro hright
    exact hne ip (entry.isDotted_of_address haddress) (List.forall_mem_singleton.mp hright ip rfl)
  | none =>
    rw [and_iff_right rfl]
    refine ⟨List.forall_mem_singleton.trans ⟨?_, ?_⟩, ?_⟩
    · intro hright
      rw [Option.eq_none_iff_forall_not_mem]
      exact fun a ha => hne a (h.isDotted a ha) (hright a ha)
    · intro hnone a ha
      rw [hnone] at ha
      cases ha
    · intro hnone a ha
      rw [hnone] at ha
      cases ha

theorem does_host (h : s.Ready) (ha : entry.Allowed) (htext : entry.line.text ≠ [])
    (hdigit : ¬ startsWithDigit entry.line.text) : entry.Does s := by
  have hdotted : ¬ isDotted entry.line.text := fun hdotted =>
    hdigit (startsWithDigit_of_isDotted hdotted)
  have haddress : entry.address = (entry.he.bind List.head?).map inetNtoa := by
    rw [AddressEntry.address, if_neg htext, if_neg hdotted]
  cases he : entry.he.bind List.head? with
  | none =>
    obtain ⟨buffers, hprompt, hcstr, hlast⟩ :=
      AddressPrompt.prompt_unresolved h.getLast? ha htext hdigit he
    have hkept : entry.Kept s := by
      rw [AddressEntry.Kept, if_neg htext, if_neg hdotted, haddress, he]
      exact Or.inl ⟨hdigit, nofun⟩
    refine ⟨_, _, step_of_prompt hprompt, h.next hlast, ?_⟩
    intro _
    refine ⟨iff_of_true (fun o ho => absurd ho List.not_mem_nil) hkept, fun _ a _ => Or.inr ?_⟩
    rwa [hcstr]
  | some addr =>
    obtain ⟨buffers, hprompt, hlast, hcstr⟩ :=
      AddressPrompt.prompt_resolved h.getLast? ha htext hdigit he
    have hkept : entry.Kept s ↔ cstr buffers.strTargetAddr.bytes = inetNtoa addr := by
      rw [AddressEntry.Kept, if_neg htext, if_neg hdotted, haddress, he, hcstr,
        and_iff_right hdigit, or_iff_left fun hnone => absurd hnone.1 nofun]
      exact ⟨fun hall => hall _ rfl, fun hip ip h => Option.some.inj h ▸ hip⟩
    refine ⟨_, _, step_of_prompt hprompt, h.next hlast, ?_⟩
    intro _
    rw [haddress, he, hkept]
    refine ⟨List.forall_mem_singleton.trans ⟨fun hright => hright _ rfl, ?_⟩,
      fun hsame a ha => Or.inl ?_⟩
    · intro hsame a ha
      exact hsame.trans (Option.some.inj ha)
    · exact hsame.trans (Option.some.inj ha)

/-- **One line.** -/
theorem address_step (h : s.Ready) (ha : entry.Allowed) : entry.Does s := by
  by_cases htext : entry.line.text = []
  · exact does_empty h htext
  · by_cases hdotted : isDotted entry.line.text
    · exact does_dotted h ha htext hdotted
    · by_cases hdigit : startsWithDigit entry.line.text
      · exact does_digit h ha htext hdotted hdigit
      · exact does_host h ha htext hdigit

/-- At every moment of a run: once something that was sent is wrong, it stays wrong; and as long as
everything is right, the last address is in the buffer. -/
theorem right_of_run {s t : AddressRun} {entries : List AddressEntry} {outs : List AddressSend}
    (hs : s.Ready) (hs' : s.Holds) (h : addressMachine.Run s entries t outs) :
    t.Ready ∧ ((∀ o ∈ outs, o.Right) → t.Holds) ∧ ((∀ o ∈ outs, o.Right) ↔
      (addressMachine.restrict fun s entry => entry.Kept s).Run s entries t outs) := by
  have hrecord := h.exists_record_iff (C := fun s entry => entry.Kept s)
    (I := fun _ t outs (_ : Unit) => t.Ready ∧ ((∀ o ∈ outs, o.Right) → t.Holds))
    (Q := fun _ _ outs _ => ∀ o ∈ outs, o.Right)
    ⟨(), ⟨hs, fun _ => hs'⟩, fun _ ho => absurd ho List.not_mem_nil⟩ ?_
  · obtain ⟨-, ⟨hready, hholds⟩, hiff⟩ := hrecord
    exact ⟨hready, hholds, hiff⟩
  · rintro entries t outs entry u o - - ⟨hready, hholds⟩ ha hstep
    obtain ⟨u', o', hstep', hready', hdoes⟩ := address_step hready ha
    obtain ⟨rfl, rfl⟩ := Prod.mk.inj (Option.some.inj (hstep'.symm.trans hstep))
    have hright : (∀ o ∈ outs ++ o', o.Right) ↔ (∀ o ∈ outs, o.Right) ∧ entry.Kept t := by
      rw [List.forall_mem_append]
      exact and_congr_right fun hall => (hdoes (hholds hall)).1
    refine ⟨(), ⟨hready', ?_⟩, hright⟩
    intro hall
    obtain ⟨hbefore, hkept⟩ := hright.mp hall
    exact (hdoes (hholds hbefore)).2 hkept

/-- **The address entered last.** A client takes every line; and whenever it sends, it sends to the
address entered last, if there is one, exactly if every line has kept it. -/
theorem address_sent_iff (strTargetAddr strAddrTemp : Buffer addrLen) :
    ∃ buffers, AddressPrompt.init strTargetAddr strAddrTemp = some buffers ∧
      (∀ entries : List AddressEntry, (∀ entry ∈ entries, entry.Allowed) →
        ∃ t outs, addressMachine.Run ⟨buffers, none⟩ entries t outs) ∧
      ∀ entries t outs, addressMachine.Run ⟨buffers, none⟩ entries t outs →
        ((∀ o ∈ outs, o.Right) ↔
          (addressMachine.restrict fun s entry => entry.Kept s).Run
            ⟨buffers, none⟩ entries t outs) := by
  obtain ⟨zeroed, hzeroed, hbytes⟩ := memsetZero_spec strTargetAddr
  have hready : AddressRun.Ready ⟨⟨zeroed, strAddrTemp⟩, none⟩ := by
    refine ⟨?_, nofun⟩
    show zeroed.bytes.getLast? = some 0
    rw [hbytes]
    rfl
  refine ⟨⟨zeroed, strAddrTemp⟩, ?_, ?_, ?_⟩
  · simp [AddressPrompt.init, hzeroed]
  · intro entries hallowed
    refine Machine.exists_run ?_
    intro entries' entry t outs hpfx hrun
    have ha : entry.Allowed :=
      hallowed entry (hpfx.subset (List.mem_append_right _ (List.mem_singleton_self entry)))
    obtain ⟨u, o, hstep, -⟩ := address_step (right_of_run hready nofun hrun).1 ha
    exact ⟨ha, u, o, hstep⟩
  · intro entries t outs h
    exact (right_of_run hready nofun h).2.2

/-- A buffer of zeros. -/
def zeroAddress : Buffer addrLen := ⟨List.replicate addrLen 0, List.length_replicate⟩

/-- An address, a name that is as long as the address it resolves to, and an empty line. -/
def AddressEntry.sample : List AddressEntry :=
  [⟨⟨[49, 46, 49, 46, 49, 46, 49], by decide, by decide⟩, none⟩,
    ⟨⟨[97, 97, 97, 97, 97, 97, 97], by decide, by decide⟩, some [⟨1, 2, 3, 4⟩]⟩,
    ⟨⟨[], by decide, by decide⟩, none⟩]

theorem address_sent_sample : ∃ buffers t outs,
    AddressPrompt.init zeroAddress zeroAddress = some buffers ∧
      addressMachine.Run ⟨buffers, none⟩ AddressEntry.sample t outs ∧ ∀ o ∈ outs, o.Right := by
  obtain ⟨buffers, hinit, -, hiff⟩ := address_sent_iff zeroAddress zeroAddress
  obtain rfl := Option.some.inj hinit
  have hrun : (addressMachine.restrict fun s entry => entry.Kept s).Run
      ⟨⟨zeroAddress, zeroAddress⟩, none⟩ AddressEntry.sample _ _ := Machine.run_of_exec rfl
  exact ⟨_, _, _, hinit, hrun.of_restrict, (hiff _ _ _ hrun.of_restrict).mpr hrun⟩

/-- The address `1.2.3.4` goes over `example.org`, and `1.2.3.4.org` is sent. -/
theorem not_address_sent : ∃ buffers t outs,
    AddressPrompt.init zeroAddress zeroAddress = some buffers ∧
      addressMachine.Run ⟨buffers, none⟩
        [⟨⟨[101, 120, 97, 109, 112, 108, 101, 46, 111, 114, 103], by decide, by decide⟩,
          some [⟨1, 2, 3, 4⟩]⟩] t outs ∧ ¬ ∀ o ∈ outs, o.Right := by
  refine ⟨⟨zeroAddress, zeroAddress⟩, _, _, rfl, Machine.run_of_exec rfl, ?_⟩
  intro hall
  have hright := hall ⟨inetNtoa ⟨1, 2, 3, 4⟩ ++ [46, 111, 114, 103], some (inetNtoa ⟨1, 2, 3, 4⟩)⟩
    List.mem_cons_self _ rfl
  exact absurd hright (by decide)

end Exec02
