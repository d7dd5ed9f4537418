import Xrpld.Basics.Uint256

/-!
# The numbers of the node store's codec

`read_varint`, `size_varint` and `write_varint` of `xrpld/nodestore/format/codec.rs`: a number in base 127, the lowest
digit first, one digit a byte, with the high bit set on every byte but the last.

## The model

A `usize` is a `UInt64`. `readVarint` returns the number of bytes used and what it leaves in the caller's variable.

## What is proved

What is written is read back. Of what is read, the code refuses less than it means to: the digit 127, which is never
written, and a sum that leaves `usize` and comes back above the value before it are both taken.
`varint_exact_iff`: apart from these two the encoding is unambiguous.
-/

namespace Xrpld.NodeStore

open List Nat

/-- The first loop of `read_varint`: the number of bytes up to the first one without the high bit, `none` where the
buffer ends before it. -/
def usedBytes : List UInt8 → Option ℕ
  | [] => none
  | b :: rest => if b &&& 0x80 ≠ 0 then (usedBytes rest).map (· + 1) else some 1

/-- The second loop of `read_varint`, from the last byte to the first. An error is the value at which it gives up. -/
def accumulate : List UInt8 → Except UInt64 UInt64
  | [] => .ok 0
  | b :: rest => do
    let previous ← accumulate rest
    let next := previous * 127 + (b &&& 0x7f).toUInt64
    if next ≤ previous then .error previous else .ok next

def readVarint (buf : List UInt8) (value : UInt64) : ℕ × UInt64 :=
  if buf.isEmpty then (0, value)
  else match usedBytes buf with
    | none => (0, 0)
    | some n =>
      if n = 1 ∧ buf.head? = some 0 then (1, 0)
      else match accumulate (buf.take n) with
        | .error v => (0, v)
        | .ok v => (n, v)

def sizeVarint (value : UInt64) : ℕ :=
  if value / 127 = 0 then 1 else sizeVarint (value / 127) + 1
termination_by value.toNat
decreasing_by
  have : value.toNat / 127 ≠ 0 := fun h => ‹¬value / 127 = 0› (UInt64.toNat_inj.mp h)
  simp only [UInt64.toNat_div, UInt64.reduceToNat]
  omega

/-- The loop of `write_varint`, at the place of the buffer it has come to. -/
def writeDigits : List UInt8 → UInt64 → Run (ℕ × List UInt8)
  | [], _ => .error .indexOutOfBounds
  | _ :: rest, value =>
    let digit := (value % 127).toUInt8
    if value / 127 = 0 then .ok (1, digit :: rest)
    else do
      let (written, rest) ← writeDigits rest (value / 127)
      .ok (written + 1, (digit ||| 0x80) :: rest)

/-- `write_varint`: the number of bytes written, and the buffer after it. -/
def writeVarint (buf : List UInt8) (value : UInt64) : Run (ℕ × List UInt8) :=
  if buf.length < sizeVarint value then .error (.assertion "write_varint buffer must hold the encoded value")
  else writeDigits buf value

/-- Into every buffer with room for them `write_varint` writes these bytes. -/
def Writes (value : UInt64) (bytes : List UInt8) : Prop :=
  ∀ room tail, room.length = bytes.length → writeVarint (room ++ tail) value = .ok (bytes.length, bytes ++ tail)

/-- The sum of the digits with their powers of 127, which no machine type bounds. -/
def digitSum : List UInt8 → ℕ
  | [] => 0
  | b :: rest => b.toNat % 128 + 127 * digitSum rest

/-! ### The bytes of a number -/

/-- The encoding of a number. -/
def encoding (n : ℕ) : List UInt8 :=
  if n < 127 then [.ofNat n] else .ofNat (n % 127 + 128) :: encoding (n / 127)

variable {b : UInt8} {buf bytes : List UInt8} {vl v : UInt64} {n : ℕ}

theorem digit_toNat : (b &&& 0x7f).toNat = b.toNat % 128 := by
  rw [UInt8.toNat_and]
  exact Nat.and_two_pow_sub_one_eq_mod b.toNat 7

theorem highBit_iff : b &&& 0x80 ≠ 0 ↔ 128 ≤ b.toNat := by
  have h : ∀ i : Fin 256, UInt8.ofNat i &&& 0x80 ≠ 0 ↔ 128 ≤ i.val := by decide +kernel
  simpa using h ⟨b.toNat, b.toNat_lt⟩

theorem or_highBit (h : n < 128) : UInt8.ofNat n ||| 0x80 = UInt8.ofNat (n + 128) := by
  have h' : ∀ i : Fin 128, UInt8.ofNat i ||| 0x80 = UInt8.ofNat (i + 128) := by decide +kernel
  exact h' ⟨n, h⟩

theorem div127_toNat : (vl / 127).toNat = vl.toNat / 127 := UInt64.toNat_div ..

theorem div127_eq_zero : vl / 127 = 0 ↔ vl.toNat < 127 := by
  rw [← UInt64.toNat_inj, div127_toNat, UInt64.toNat_zero]
  omega

theorem encoding_ne_nil : encoding n ≠ [] := by
  rw [encoding]
  split <;> simp

theorem sizeVarint_eq (vl : UInt64) : sizeVarint vl = (encoding vl.toNat).length := by
  fun_induction sizeVarint vl with
  | case1 vl h =>
    rw [encoding, if_pos (div127_eq_zero.mp h), length_singleton]
  | case2 vl h ih =>
    rw [encoding, if_neg (mt div127_eq_zero.mpr h), ih, length_cons, div127_toNat]

theorem writeDigits_eq : ∀ (room tail : List UInt8) (vl : UInt64),
    room.length = (encoding vl.toNat).length →
    writeDigits (room ++ tail) vl = .ok ((encoding vl.toNat).length, encoding vl.toNat ++ tail) := by
  intro room
  induction room with
  | nil =>
    intro tail vl h
    exact absurd (List.length_eq_zero_iff.mp h.symm) encoding_ne_nil
  | cons _ room ih =>
    intro tail vl h
    have hd : (vl % 127).toUInt8 = UInt8.ofNat (vl.toNat % 127) := by
      rw [← UInt8.toNat_inj]
      simp
    rw [encoding] at h ⊢
    rw [List.cons_append, writeDigits]
    by_cases hv : vl.toNat < 127
    · rw [if_pos hv] at h ⊢
      obtain rfl : room = [] := by simpa using h
      rw [if_pos (div127_eq_zero.mpr hv), hd, Nat.mod_eq_of_lt hv]
      rfl
    · rw [if_neg hv] at h ⊢
      have hr := ih tail (vl / 127) (by simpa [div127_toNat] using h)
      rw [if_neg (mt div127_eq_zero.mp hv), hr, hd, or_highBit (by omega), div127_toNat]
      rfl

/-- **What is written** is the encoding and nothing else. -/
theorem writes_iff : Writes vl bytes ↔ bytes = encoding vl.toNat := by
  have hw : Writes vl (encoding vl.toNat) := by
    intro room tail h
    rw [writeVarint, sizeVarint_eq, if_neg (by simp [h]), writeDigits_eq room tail vl h]
  constructor
  · intro h
    -- both are written into one buffer that has room for either
    have h1 := h (.replicate bytes.length 0) (.replicate (encoding vl.toNat).length 0) (by simp)
    have h2 := hw (.replicate (encoding vl.toNat).length 0) (.replicate bytes.length 0) (by simp)
    rw [← replicate_add, add_comm, replicate_add, h2] at h1
    injection h1 with h1
    injection h1 with hl he
    exact (append_inj he hl).1.symm
  · rintro rfl
    exact hw

/-! ### Reading -/

theorem usedBytes_encoding (n : ℕ) (tail : List UInt8) : usedBytes (encoding n ++ tail) = some (encoding n).length := by
  fun_induction encoding n with
  | case1 n h =>
    rw [singleton_append, usedBytes, if_neg]
    · rfl
    · rw [highBit_iff, UInt8.toNat_ofNat']
      omega
  | case2 n h ih =>
    rw [cons_append, usedBytes, if_pos, ih]
    · rfl
    · rw [highBit_iff, UInt8.toNat_ofNat']
      omega

theorem digitSum_encoding (n : ℕ) : digitSum (encoding n) = n := by
  fun_induction encoding n with
  | case1 n h =>
    simp [digitSum]
    omega
  | case2 n h ih =>
    simp [digitSum, ih]
    omega

/-- One step of the second loop, while the sum fits. -/
theorem next_toNat (h : digitSum (b :: buf) < 2 ^ 64) (hv : v.toNat = digitSum buf) :
    (v * 127 + (b &&& 0x7f).toUInt64).toNat = digitSum (b :: buf) := by
  rw [digitSum] at h ⊢
  rw [UInt64.toNat_add, UInt64.toNat_mul, UInt8.toNat_toUInt64, digit_toNat, hv]
  change (digitSum buf * 127 % _ + _) % _ = _
  omega

theorem accumulate_cons_ok : accumulate (b :: buf) = .ok v ↔ ∃ u, accumulate buf = .ok u ∧
    u < v ∧ v = u * 127 + (b &&& 0x7f).toUInt64 := by
  rw [accumulate]
  cases accumulate buf with
  | error u =>
    constructor
    · exact nofun
    · exact nofun
  | ok u =>
    change (if _ then _ else _) = _ ↔ _
    split <;> rename_i h
    · constructor
      · exact nofun
      · rintro ⟨_, ⟨⟩, hu, rfl⟩
        exact absurd hu (UInt64.not_lt.mpr h)
    · constructor
      · rintro ⟨⟩
        exact ⟨u, rfl, UInt64.not_le.mp h, rfl⟩
      · rintro ⟨_, ⟨⟩, -, rfl⟩
        rfl

/-- While the sum fits, the second loop finds it. -/
theorem accumulate_toNat (h : accumulate buf = .ok v) (hs : digitSum buf < 2 ^ 64) : v.toNat = digitSum buf := by
  induction buf generalizing v with
  | nil =>
    cases h
    rfl
  | cons b buf ih =>
    obtain ⟨u, hu, -, rfl⟩ := accumulate_cons_ok.mp h
    refine next_toNat hs (ih hu ?_)
    rw [digitSum] at hs
    omega

/-- It gives up at a leading zero only. -/
theorem accumulate_encoding (n : ℕ) (h0 : 0 < n) (h : n < 2 ^ 64) : accumulate (encoding n) = .ok (.ofNat n) := by
  have step : ∀ b buf (u : UInt64), accumulate buf = .ok u → digitSum buf = u.toNat → u.toNat < n →
      digitSum (b :: buf) = n → accumulate (b :: buf) = .ok (.ofNat n) := by
    intro b buf u hu ht hl hn
    have hs := next_toNat (hn ▸ h) ht.symm
    have hv : u * 127 + (b &&& 0x7f).toUInt64 = .ofNat n := by
      rw [← UInt64.toNat_inj, hs, hn, UInt64.toNat_ofNat', Nat.mod_eq_of_lt h]
    refine accumulate_cons_ok.mpr ⟨u, hu, ?_, hv.symm⟩
    rw [UInt64.lt_iff_toNat_lt, UInt64.toNat_ofNat', Nat.mod_eq_of_lt h]
    exact hl
  have hs := digitSum_encoding n
  rw [encoding] at hs ⊢
  by_cases hn : n < 127
  · rw [if_pos hn] at hs ⊢
    exact step _ [] 0 rfl rfl h0 hs
  · rw [if_neg hn] at hs ⊢
    have hq : (UInt64.ofNat (n / 127)).toNat = n / 127 := by
      rw [UInt64.toNat_ofNat', Nat.mod_eq_of_lt (by omega)]
    refine step _ _ _ (accumulate_encoding (n / 127) (by omega) (by omega)) ?_ (by omega) hs
    rw [digitSum_encoding, hq]

theorem readVarint_encoding (tail : List UInt8) (old : UInt64) :
    readVarint (encoding vl.toNat ++ tail) old = ((encoding vl.toNat).length, vl) := by
  simp only [readVarint, List.isEmpty_iff, List.append_eq_nil_iff, encoding_ne_nil, false_and, if_false,
    usedBytes_encoding, take_left]
  by_cases h0 : vl = 0
  · subst h0
    simp [encoding]
  · have hp : 0 < vl.toNat := Nat.pos_of_ne_zero fun h => h0 (UInt64.toNat_inj.mp h)
    rw [accumulate_encoding _ hp vl.toNat_lt, UInt64.ofNat_toNat]
    refine if_neg ?_
    rintro ⟨hl, hz⟩
    rw [encoding] at hl hz
    split at hz
    · injection hz with hz
      have h : vl.toNat % 2 ^ 8 = 0 := (UInt8.toNat_ofNat' ..).symm.trans (congrArg UInt8.toNat hz)
      omega
    · rw [if_neg ‹_›] at hl
      exact encoding_ne_nil (length_eq_zero_iff.mp (succ_inj.mp hl))

/-- Bytes that are read, with digits below 127 and a sum that fits, are the encoding of what is read. -/
theorem take_eq_encoding (hn : usedBytes buf = some n) (h : accumulate (buf.take n) = .ok v)
    (hd : ∀ b ∈ buf.take n, b.toNat % 128 < 127) (hs : digitSum (buf.take n) < 2 ^ 64) :
    buf.take n = encoding (digitSum (buf.take n)) := by
  induction buf generalizing n v with
  | nil => nomatch hn
  | cons b buf ih =>
    rw [usedBytes] at hn
    have hb := b.toNat_lt
    split at hn
    · rename_i hc
      rw [highBit_iff] at hc
      obtain ⟨m, hm, rfl⟩ := Option.map_eq_some_iff.mp hn
      rw [take_succ_cons] at h hd hs ⊢
      obtain ⟨u, hu, -, -⟩ := accumulate_cons_ok.mp h
      have hb' := hd b mem_cons_self
      rw [digitSum] at hs ⊢
      have ht := accumulate_toNat hu (by omega)
      have he := ih hm hu (fun c hc => hd c (mem_cons_of_mem b hc)) (by omega)
      -- the rest is not empty, so what the loop has found before is above zero
      have hp : 0 < u.toNat := by
        rw [he, encoding] at hu
        split at hu
        all_goals
          obtain ⟨_, -, hl, -⟩ := accumulate_cons_ok.mp hu
          exact (zero_le _).trans_lt (UInt64.lt_iff_toNat_lt.mp hl)
      have hq : (b.toNat % 128 + 127 * digitSum (buf.take m)) / 127 = digitSum (buf.take m) := by omega
      rw [encoding, if_neg (by omega), hq, ← he]
      congr
      rw [← UInt8.toNat_inj, UInt8.toNat_ofNat']
      omega
    · rename_i hc
      rw [highBit_iff] at hc
      injection hn with hn
      subst hn
      have hb' := hd b mem_cons_self
      change [b] = encoding (b.toNat % 128 + 127 * 0)
      rw [encoding, if_pos (by omega)]
      congr
      rw [← UInt8.toNat_inj, UInt8.toNat_ofNat']
      omega

theorem usedBytes_le (h : usedBytes buf = some n) : n ≤ buf.length := by
  induction buf generalizing n with
  | nil => nomatch h
  | cons b buf ih =>
    rw [usedBytes] at h
    split at h
    · obtain ⟨m, hm, rfl⟩ := Option.map_eq_some_iff.mp h
      exact succ_le_succ (ih hm)
    · cases h
      exact succ_le_succ (zero_le _)

theorem digit_lt_of_mem_encoding (n : ℕ) (h : b ∈ encoding n) : b.toNat % 128 < 127 := by
  fun_induction encoding n with
  | case1 n hn =>
    rw [mem_singleton] at h
    rw [h, UInt8.toNat_ofNat']
    omega
  | case2 n hn ih =>
    rcases mem_cons.mp h with rfl | h
    · rw [UInt8.toNat_ofNat']
      omega
    · exact ih h

/-- **The encoding is exact.** What is written is read back, whatever stands behind it. Where something is read, the
value is the sum of its digits and would be written in the same bytes, just when every digit is below 127 and the sum
fits into a `usize`. -/
theorem varint_exact_iff (value old : UInt64) (bytes tail : List UInt8) :
    (∃ bytes, Writes value bytes) ∧
    (Writes value bytes → readVarint (bytes ++ tail) old = (bytes.length, value)) ∧
    ∀ buf n v, readVarint buf old = (n, v) → 0 < n → n ≤ buf.length ∧
      (v.toNat = digitSum (buf.take n) ∧ Writes v (buf.take n) ↔
        (∀ b ∈ buf.take n, b.toNat % 128 < 127) ∧ digitSum (buf.take n) < 2 ^ 64) := by
  refine ⟨⟨_, writes_iff.mpr rfl⟩, ?_, ?_⟩
  · intro h
    rw [writes_iff.mp h]
    exact readVarint_encoding tail old
  intro buf n v h hn
  have found : usedBytes buf = some n ∧
      (buf.take n = [0] ∧ v = 0 ∨ accumulate (buf.take n) = .ok v) := by
    rw [readVarint] at h
    split at h
    · cases h
      exact absurd hn (lt_irrefl 0)
    split at h
    · cases h
      exact absurd hn (lt_irrefl 0)
    split at h
    · rename_i hu hz
      cases h
      cases buf with
      | nil => nomatch hu
      | cons b buf =>
        obtain ⟨rfl, hb⟩ := hz
        cases hb
        exact ⟨hu, .inl ⟨rfl, rfl⟩⟩
    split at h
    · cases h
      exact absurd hn (lt_irrefl 0)
    · cases h
      exact ⟨‹_›, .inr ‹_›⟩
  obtain ⟨hu, hv⟩ := found
  refine ⟨usedBytes_le hu, ?_⟩
  rw [writes_iff]
  constructor
  · rintro ⟨hs, he⟩
    constructor
    · intro b hb
      rw [he] at hb
      exact digit_lt_of_mem_encoding _ hb
    · rw [← hs]
      exact v.toNat_lt
  · rintro ⟨hd, hs⟩
    rcases hv with ⟨hz, rfl⟩ | hv
    · rw [hz]
      exact ⟨rfl, by rw [encoding]; rfl⟩
    · rw [accumulate_toNat hv hs]
      exact ⟨rfl, take_eq_encoding hu hv hd hs⟩

/-- 300 is written in two bytes; the third one is another's. -/
theorem varint_exact_iff_twoBytes : Writes 300 [0xae, 2] ∧ readVarint [0xae, 2, 9] 0 = (2, 300) := by
  have h := (varint_exact_iff 300 0 [0xae, 2] [9]).2
  have hr : readVarint [0xae, 2, 9] 0 = (2, 300) := by decide +kernel
  have hw := ((h.2 [0xae, 2, 9] 2 300 hr (by decide)).2.mpr (by decide +kernel)).2
  exact ⟨hw, h.1 hw⟩

/-- The digit 127 is read as a number that is written otherwise; a digit 0 below the encoding of `2 ^ 58` gives
`127 * 2 ^ 58`, which leaves `usize` and comes back as `2 ^ 64 - 2 ^ 58`. -/
theorem readVarint_ambiguous : (readVarint [0x7f] 0 = (1, 127) ∧ ¬Writes 127 [0x7f]) ∧
    readVarint [0x80, 0x84, 0xa0, 0xf0, 0xe1, 0x9b, 0xe3, 0xf1, 0xa0, 0x04] 0 = (10, 2 ^ 64 - 2 ^ 58) ∧
    digitSum [0x80, 0x84, 0xa0, 0xf0, 0xe1, 0x9b, 0xe3, 0xf1, 0xa0, 0x04] = 127 * 2 ^ 58 := by
  refine ⟨⟨by decide +kernel, ?_⟩, by decide +kernel, by decide +kernel⟩
  rw [writes_iff, encoding]
  simp

end Xrpld.NodeStore
