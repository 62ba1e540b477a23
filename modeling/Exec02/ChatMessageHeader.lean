import Exec02.ChatMessage

/-!
# Headers that are not what `encode_header` writes

What `decode_header` of `MyChatMessage.hpp` does with any four bytes. A full header, with no NUL in
it, never gets as far as `atoi`, and that includes all those that `encode_header` writes. A header
with a NUL is read up to there, and `atoi` reads whatever it finds: a shorter number, or `0` where
there is none. Only a number that is negative or too large makes it answer `false`.

## Main results

* `decodeHeader_of_nul` — what becomes of a header with a NUL, next to `decodeHeader_of_full`
* `decodeHeader_exact_iff` — the headers that are accepted and rejected as they should be
-/

namespace Exec02

namespace ChatMessage

variable {crt : InvalidParameter} {n : ℕ} {bytes : List UInt8}

/-- `bytes` is what `encode_header` writes for a body of `n` bytes. -/
def WritesHeader (crt : InvalidParameter) (n : ℕ) (bytes : List UInt8) : Prop :=
  ∃ msg msg', msg.bodyLength = n ∧ encodeHeader crt msg = some msg' ∧
    msg'.data.slice 0 headerLength = bytes

/-- The header at the front of the message is accepted with the length it was written for, and
rejected if it was not written for any. -/
structure DecodesExactly (crt : InvalidParameter) (msg : ChatMessage) : Prop where
  accepts (n : ℕ) : (∃ msg', msg.decodeHeader crt = some (true, msg') ∧ msg'.bodyLength = n) ↔
    n ≤ maxBodyLength ∧ WritesHeader crt n (msg.data.slice 0 headerLength)
  rejects : (∀ n ≤ maxBodyLength, ¬ WritesHeader crt n (msg.data.slice 0 headerLength)) →
    ∃ msg', msg.decodeHeader crt = some (false, msg')

/-! ### What is written -/

theorem writesHeader_iff (hn : n ≤ maxBodyLength) :
    WritesHeader crt n bytes ↔ bytes = header n := by
  constructor
  · rintro ⟨msg, msg', rfl, hencode, rfl⟩
    obtain ⟨data, hdata, hwritten⟩ := encodeHeader_of_le crt msg hn
    rw [hencode] at hwritten
    obtain rfl := Option.some.inj hwritten
    have hslice := Buffer.slice_write hdata
    rwa [header_length hn] at hslice
  · rintro rfl
    obtain ⟨data, hdata, hwritten⟩ := encodeHeader_of_le crt ⟨blank.data, n⟩ hn
    have hslice := Buffer.slice_write hdata
    rw [header_length hn] at hslice
    exact ⟨_, _, rfl, hwritten, hslice⟩

/-- A header is written for one length only. -/
theorem header_injective {m : ℕ} (hm : m ≤ maxBodyLength) (hn : n ≤ maxBodyLength)
    (h : header m = header n) : m = n := by
  have hm : m ≤ 512 := hm
  have hn : n ≤ 512 := hn
  have hatoi := congrArg atoi h
  rw [header, header, atoi_formatInt 4 (by omega), atoi_formatInt 4 (by omega)] at hatoi
  exact_mod_cast hatoi

/-! ### What is read -/

theorem sizeOfInt_gt_iff {i : ℤ} (hi : -2 ^ 31 ≤ i ∧ i ≤ 2 ^ 31 - 1) :
    sizeOfInt i > maxBodyLength ↔ i < 0 ∨ maxBodyLength < i := by
  have hmax : maxBodyLength = 512 := rfl
  rw [sizeOfInt, hmax]
  omega

/-- **The fate of a header with a NUL.** What is in front of the NUL is read by `atoi`, and no
handler is called. -/
theorem decodeHeader_of_nul (crt : InvalidParameter) (msg : ChatMessage)
    (hnul : 0 ∈ msg.data.slice 0 headerLength) :
    msg.decodeHeader crt =
      let bodyLength := sizeOfInt (atoi (msg.data.slice 0 headerLength))
      if bodyLength > maxBodyLength then some (false, { msg with bodyLength := 0 })
      else some (true, { msg with bodyLength := bodyLength }) := by
  generalize hbytes : msg.data.slice 0 headerLength = bytes at hnul
  have hlen : bytes.length ≤ headerLength := by
    rw [← hbytes, Buffer.slice]
    exact List.length_take_le ..
  have hshort := length_cstr_lt hnul
  have hfit : ([] : List UInt8).length + (cstr bytes).length + 1 ≤ headerLength := by
    simp only [List.length_nil]
    omega
  simp only [decodeHeader, hbytes, strncatS, List.take_of_length_le hlen]
  rw [if_pos hfit, List.nil_append, Option.bind_eq_bind, Option.bind_some, atoi_cstr]
  split
  · rfl
  · rfl

/-- With a NUL, a header was not written by anyone: it should be rejected. -/
theorem decodesExactly_of_nul {msg : ChatMessage} (hnul : 0 ∈ msg.data.slice 0 headerLength) :
    msg.DecodesExactly crt ↔ atoi (msg.data.slice 0 headerLength) < 0 ∨
      maxBodyLength < atoi (msg.data.slice 0 headerLength) := by
  have hnone : ∀ n ≤ maxBodyLength, ¬ WritesHeader crt n (msg.data.slice 0 headerLength) := by
    intro n hn hw
    rw [(writesHeader_iff hn).mp hw] at hnul
    exact header_ne_nul hnul rfl
  have hdecode := decodeHeader_of_nul crt msg hnul
  rw [← sizeOfInt_gt_iff (atoi_range _)]
  constructor
  · intro h
    by_contra hsmall
    rw [if_neg hsmall] at hdecode
    obtain ⟨msg', hreject⟩ := h.rejects hnone
    rw [hdecode] at hreject
    cases hreject
  · intro hbig
    rw [if_pos hbig] at hdecode
    refine ⟨fun n => iff_of_false ?_ fun ⟨hn, hw⟩ => hnone n hn hw, fun _ => ⟨_, hdecode⟩⟩
    rintro ⟨msg', haccept, -⟩
    rw [hdecode] at haccept
    cases haccept

/-- Without a NUL, the handler decides: it ends the process, or leaves the length of an empty
body. -/
theorem decodesExactly_of_full {msg : ChatMessage} (hnul : 0 ∉ msg.data.slice 0 headerLength) :
    msg.DecodesExactly crt ↔
      crt = .returns ∧ msg.data.slice 0 headerLength = header 0 := by
  have hdecode := decodeHeader_of_full crt msg (msg.data.length_slice (by omega))
    fun b hb hb0 => hnul (hb0 ▸ hb)
  cases crt with
  | terminates =>
    -- the process is gone, with a header that was written or without one
    refine iff_of_false ?_ nofun
    intro h
    by_cases hw : ∃ n, n ≤ maxBodyLength ∧
        WritesHeader .terminates n (msg.data.slice 0 headerLength)
    · obtain ⟨n, hw⟩ := hw
      obtain ⟨msg', haccept, -⟩ := (h.accepts n).mpr hw
      rw [hdecode] at haccept
      cases haccept
    · obtain ⟨msg', hreject⟩ := h.rejects fun n hn h => hw ⟨n, hn, h⟩
      rw [hdecode] at hreject
      cases hreject
  | returns =>
    rw [and_iff_right rfl, ← writesHeader_iff (Nat.zero_le _)]
    constructor
    · exact fun h => ((h.accepts 0).mp ⟨_, hdecode, rfl⟩).2
    · intro hzero
      refine ⟨?_, fun h => absurd hzero (h 0 (Nat.zero_le _))⟩
      intro n
      constructor
      · rintro ⟨msg', haccept, rfl⟩
        rw [hdecode] at haccept
        obtain ⟨-, rfl⟩ := Prod.mk.inj (Option.some.inj haccept)
        exact ⟨Nat.zero_le _, hzero⟩
      · rintro ⟨hn, hw⟩
        have hheader := (writesHeader_iff (Nat.zero_le _)).mp hzero
        rw [(writesHeader_iff hn).mp hw] at hheader
        exact ⟨_, hdecode, (header_injective hn (Nat.zero_le _) hheader).symm⟩

/-- **Exactness.** Of the four bytes that arrive, `decode_header` decides as it should in two cases
only: they are the header of an empty body and the runtime's handler returns, or they have a NUL
with a number in front of it that is negative or too large. A header that is rejected makes the
reader give up. -/
theorem decodeHeader_exact_iff (crt : InvalidParameter) (r : Reader)
    (hlen : bytes.length = headerLength) :
    ∃ data, r.readMsg.data.write 0 bytes = some data ∧
      (DecodesExactly crt { r.readMsg with data := data } ↔
        crt = .returns ∧ bytes = header 0 ∨
          0 ∈ bytes ∧ (atoi bytes < 0 ∨ maxBodyLength < atoi bytes)) ∧
      ∀ msg', decodeHeader crt { r.readMsg with data := data } = some (false, msg') →
        r.onReadHeader crt (some bytes) = some (⟨msg', none⟩, .stop) := by
  obtain ⟨data, hdata, hslice⟩ := readHeader_spec r.readMsg.data hlen
  refine ⟨data, hdata, ?_, fun msg' hreject => by simp [Reader.onReadHeader, hdata, hreject]⟩
  by_cases hnul : 0 ∈ bytes
  · rw [decodesExactly_of_nul (by rwa [hslice]), hslice, and_iff_right hnul, iff_comm,
      or_iff_right]
    rintro ⟨-, rfl⟩
    exact header_ne_nul hnul rfl
  · rw [decodesExactly_of_full (by rwa [hslice]), hslice, or_iff_left fun h => hnul h.1]

theorem decodeHeader_exact_iff_five :
    ∃ data, blank.data.write 0 [32, 32, 32, 53] = some data ∧
      (DecodesExactly .returns { blank with data := data } ↔
        InvalidParameter.returns = .returns ∧ [32, 32, 32, 53] = header 0 ∨
          (0 : UInt8) ∈ [32, 32, 32, 53] ∧
            (atoi [32, 32, 32, 53] < 0 ∨ maxBodyLength < atoi [32, 32, 32, 53])) ∧
      ∀ msg', decodeHeader .returns { blank with data := data } = some (false, msg') →
        Reader.onReadHeader .returns ⟨blank, none⟩ (some [32, 32, 32, 53]) =
          some (⟨msg', none⟩, .stop) :=
  decodeHeader_exact_iff .returns ⟨blank, none⟩ rfl

/-- The header of a body of five bytes: the process is ended, or the body is taken to be empty. -/
theorem not_decodesExactly_five :
    ∃ msg : ChatMessage, WritesHeader .terminates 5 (msg.data.slice 0 headerLength) ∧
      msg.decodeHeader .terminates = none ∧
      (∃ msg', msg.decodeHeader .returns = some (true, msg') ∧ msg'.bodyLength = 0) ∧
      ¬ msg.DecodesExactly .terminates ∧ ¬ msg.DecodesExactly .returns := by
  obtain ⟨data, hdata, hencode⟩ := encodeHeader_of_le .terminates ⟨blank.data, 5⟩ (by decide)
  have hslice : data.slice 0 headerLength = header 5 := by
    have hslice := Buffer.slice_write hdata
    rwa [header_length (by decide)] at hslice
  have hnul : 0 ∉ data.slice 0 headerLength := by
    rw [hslice]
    exact fun h => header_ne_nul h rfl
  have hdecode := fun crt => decodeHeader_of_full crt ⟨data, 5⟩ (data.length_slice (by omega))
    fun b hb hb0 => hnul (hb0 ▸ hb)
  refine ⟨⟨data, 5⟩, (writesHeader_iff (by decide)).mpr hslice, hdecode .terminates,
    ⟨_, hdecode .returns, rfl⟩, ?_, ?_⟩
  · rw [decodesExactly_of_full hnul]
    exact nofun
  · rw [decodesExactly_of_full hnul, hslice]
    rintro ⟨-, heq⟩
    exact absurd (header_injective (by decide) (by decide) heq) (by decide)

end ChatMessage

end Exec02
