import CreditChain.Jellyfish.NodeKey
import Mathlib.Data.Nat.Bitwise

/-!
# The version varint of internal nodes

`serialize_u64_varint` and `deserialize_u64_varint` of `jellyfish-merkle/src/node_type/mod.rs`:
seven bits a byte, low bits first, the high bit set when more bytes follow, for at most eight
bytes; what is left after eight turns (the top eight bits of the version) is written raw as a
ninth byte.

* `serializeU64Varint_append`: the writer only appends to the buffer it is given;
* `deserializeU64Varint_serializeU64Varint`: the writer never panics, and the reader reads the
  version back from what it wrote, whatever follows it;
* `deserializeU64Varint_of_serializeU64Varint`: the same, for bytes the writer is known to have
  written.
-/

namespace CreditChain

/-- The eight turns of the loop of `serialize_u64_varint`: the bytes written, and the value left
when the loop runs to its end without returning. -/
def serializeVarintLoop : Nat → UInt64 → List UInt8 → List UInt8 × Option UInt64
  | 0, num, binary => (binary, some num)
  | k + 1, num, binary =>
    let lowBits := num.toUInt8 &&& 0x7F
    let num := num >>> 7
    let more : UInt8 := if num = 0 then 0 else 0x80
    let binary := binary ++ [lowBits ||| more]
    if more = 0 then (binary, none) else serializeVarintLoop k num binary

theorem serializeVarintLoop_zero (num : UInt64) (binary : List UInt8) :
    serializeVarintLoop 0 num binary = (binary, some num) := rfl

theorem serializeVarintLoop_succ (k : Nat) (num : UInt64) (binary : List UInt8) :
    serializeVarintLoop (k + 1) num binary =
      let more : UInt8 := if num >>> 7 = 0 then 0 else 0x80
      let binary := binary ++ [num.toUInt8 &&& 0x7F ||| more]
      if more = 0 then (binary, none) else serializeVarintLoop k (num >>> 7) binary := rfl

/-- `serialize_u64_varint`; `none` is a failed assertion on the ninth, raw byte. -/
def serializeU64Varint (num : UInt64) (binary : List UInt8) : Option (List UInt8) :=
  match serializeVarintLoop 8 num binary with
  | (binary, none) => some binary
  | (binary, some num) => if num ≠ 0 ∧ num ≤ 0xFF then some (binary ++ [num.toUInt8]) else none

/-- The loop of `deserialize_u64_varint` from turn `i`, `k` turns left: the value read, whether it
returned early, and the rest of the input. -/
def deserializeVarintLoop :
    Nat → Nat → UInt64 → List UInt8 → Except DecodeError (UInt64 × Bool × List UInt8)
  | 0, _, num, reader => .ok (num, false, reader)
  | k + 1, i, num, reader =>
    match reader with
    | [] => .error .unexpectedEof
    | byte :: reader =>
      let num := num ||| (byte &&& 0x7F).toUInt64 <<< (i * 7).toUInt64
      if byte &&& 0x80 = 0 then .ok (num, true, reader) else deserializeVarintLoop k (i + 1) num reader

/-- `deserialize_u64_varint`, returning the rest of the input. -/
def deserializeU64Varint (reader : List UInt8) : Except DecodeError (UInt64 × List UInt8) :=
  match deserializeVarintLoop 8 0 0 reader with
  | .error e => .error e
  | .ok (num, true, reader) => .ok (num, reader)
  | .ok (num, false, reader) =>
    match reader with
    | [] => .error .unexpectedEof
    | byte :: reader => .ok (num ||| byte.toUInt64 <<< 56, reader)

theorem serializeU64Varint_eq (num : UInt64) (binary : List UInt8) :
    serializeU64Varint num binary =
      match serializeVarintLoop 8 num binary with
      | (binary, none) => some binary
      | (binary, some num) =>
        if num ≠ 0 ∧ num ≤ 0xFF then some (binary ++ [num.toUInt8]) else none := rfl

theorem deserializeVarintLoop_succ_cons (k i : Nat) (num : UInt64) (byte : UInt8)
    (reader : List UInt8) :
    deserializeVarintLoop (k + 1) i num (byte :: reader) =
      let num := num ||| (byte &&& 0x7F).toUInt64 <<< (i * 7).toUInt64
      if byte &&& 0x80 = 0 then .ok (num, true, reader)
      else deserializeVarintLoop k (i + 1) num reader := rfl

theorem deserializeU64Varint_eq (reader : List UInt8) :
    deserializeU64Varint reader =
      match deserializeVarintLoop 8 0 0 reader with
      | .error e => .error e
      | .ok (num, true, reader) => .ok (num, reader)
      | .ok (num, false, reader) =>
        match reader with
        | [] => .error .unexpectedEof
        | byte :: reader => .ok (num ||| byte.toUInt64 <<< 56, reader) := rfl

theorem serializeVarintLoop_append (k : Nat) (num : UInt64) (binary : List UInt8) :
    serializeVarintLoop k num binary =
      (binary ++ (serializeVarintLoop k num []).1, (serializeVarintLoop k num []).2) := by
  induction k generalizing num binary with
  | zero => simp [serializeVarintLoop_zero]
  | succ k ih =>
    simp only [serializeVarintLoop_succ]
    split
    · simp
    · rw [ih, ih (num >>> 7) ([] ++ _)]
      simp

theorem serializeU64Varint_append (num : UInt64) (binary : List UInt8) :
    serializeU64Varint num binary = (serializeU64Varint num []).map (binary ++ ·) := by
  unfold serializeU64Varint
  rw [serializeVarintLoop_append 8 num binary]
  rcases serializeVarintLoop 8 num [] with ⟨bytes, _ | top⟩
  · simp
  · simp only
    split <;> simp

/-! ### One byte -/

section Byte

private theorem toNat_shiftRight_seven (num : UInt64) : (num >>> 7).toNat = num.toNat / 128 := by
  rw [UInt64.toNat_shiftRight]
  simp [Nat.shiftRight_eq_div_pow]

private theorem toNat_and_low (b : UInt8) : (b &&& 0x7F).toNat = b.toNat % 128 := by
  rw [UInt8.toNat_and, show (0x7F : UInt8).toNat = 2 ^ 7 - 1 from rfl,
    Nat.and_two_pow_sub_one_eq_mod]

private theorem and_high_eq_zero_iff (b : UInt8) : b &&& 0x80 = 0 ↔ b.toNat < 128 := by
  rw [← UInt8.toNat_inj, UInt8.toNat_and, show (0x80 : UInt8).toNat = 2 ^ 7 from rfl,
    Nat.and_two_pow]
  have := b.toNat_lt
  simp [Nat.testBit_eq_decide_div_mod_eq]
  omega

/-- The byte a turn of the writer appends: the low seven bits, and the high bit when more
follow. -/
private theorem toNat_varintByte (num : UInt64) :
    (num.toUInt8 &&& 0x7F ||| (if num >>> 7 = 0 then 0 else 0x80 : UInt8)).toNat =
      num.toNat % 128 + if num.toNat / 128 = 0 then 0 else 128 := by
  have hlow : (num.toUInt8 &&& 0x7F).toNat = num.toNat % 128 := by
    rw [toNat_and_low, UInt64.toNat_toUInt8, Nat.mod_mod_of_dvd _ (by decide)]
  have hshift : num >>> 7 = 0 ↔ num.toNat / 128 = 0 := by
    rw [← UInt64.toNat_inj, toNat_shiftRight_seven]
    rfl
  by_cases h : num.toNat / 128 = 0
  · simp [hshift.mpr h, h, hlow]
  · rw [if_neg (mt hshift.mp h), if_neg h, UInt8.toNat_or, hlow,
      show (0x80 : UInt8).toNat = 2 ^ 7 * 1 from rfl, Nat.or_comm,
      ← Nat.two_pow_add_eq_or_of_lt (Nat.mod_lt _ (by decide))]
    omega

/-- A byte's seven bits read into the accumulator at turn `i` land above the bits already read. -/
private theorem toNat_or_shiftLeft (acc : UInt64) (c : UInt8) (i : Nat) (hi : i < 8)
    (hc : c.toNat < 128) (hacc : acc.toNat < 2 ^ (7 * i)) :
    (acc ||| c.toUInt64 <<< (i * 7).toUInt64).toNat = acc.toNat + 2 ^ (7 * i) * c.toNat := by
  have hpow : 2 ^ (7 * i) * c.toNat < 2 ^ 64 :=
    calc 2 ^ (7 * i) * c.toNat < 2 ^ (7 * i) * 2 ^ 7 := by
          exact Nat.mul_lt_mul_of_pos_left hc (Nat.two_pow_pos _)
      _ = 2 ^ (7 * i + 7) := (Nat.pow_add _ _ _).symm
      _ ≤ 2 ^ 64 := Nat.pow_le_pow_right (by decide) (by omega)
  have hshl : (c.toUInt64 <<< (i * 7).toUInt64).toNat = 2 ^ (7 * i) * c.toNat := by
    rw [UInt64.toNat_shiftLeft, UInt8.toNat_toUInt64, Nat.shiftLeft_eq, Nat.mul_comm]
    have : ((i * 7).toUInt64).toNat % 64 = 7 * i := by
      rw [Nat.toUInt64_eq, UInt64.toNat_ofNat']
      omega
    rw [this]
    exact Nat.mod_eq_of_lt hpow
  rw [UInt64.toNat_or, hshl, Nat.or_comm, ← Nat.two_pow_add_eq_or_of_lt hacc, Nat.add_comm]

/-- The ninth byte, raw, lands above the 56 bits of the eight turns. -/
private theorem toNat_or_shiftLeft_top (acc : UInt64) (c : UInt8) (hacc : acc.toNat < 2 ^ 56) :
    (acc ||| c.toUInt64 <<< 56).toNat = acc.toNat + 2 ^ 56 * c.toNat := by
  have hc := c.toNat_lt
  have hshl : (c.toUInt64 <<< 56).toNat = 2 ^ 56 * c.toNat := by
    rw [UInt64.toNat_shiftLeft, UInt8.toNat_toUInt64, Nat.shiftLeft_eq, Nat.mul_comm]
    exact Nat.mod_eq_of_lt (by simp; omega)
  rw [UInt64.toNat_or, hshl, Nat.or_comm, ← Nat.two_pow_add_eq_or_of_lt hacc, Nat.add_comm]

end Byte

/-! ### The round trip -/

/-- The two loops from turn `i` with `k` turns left, the bits below `7 i` of `x` already read back
and `num` holding those above: the bytes the writer appends are read back either to `x`, when
the writer returns early, or to the low 56 bits of `x`, with the top byte left over, after the
eighth turn. -/
theorem deserializeVarintLoop_serializeVarintLoop (x : UInt64) (k : Nat) :
    ∀ (i : Nat) (num acc : UInt64), i + k = 8 →
      num.toNat = x.toNat / 2 ^ (7 * i) → acc.toNat = x.toNat % 2 ^ (7 * i) →
      (0 < i → num ≠ 0) →
      ∃ bytes, serializeVarintLoop k num [] = (bytes, none) ∧
          (∀ rest, deserializeVarintLoop k i acc (bytes ++ rest) = .ok (x, true, rest)) ∨
        ∃ top, serializeVarintLoop k num [] = (bytes, some top) ∧
          top.toNat = x.toNat / 2 ^ 56 ∧ top ≠ 0 ∧
          ∀ rest, deserializeVarintLoop k i acc (bytes ++ rest) =
            .ok (UInt64.ofNat (x.toNat % 2 ^ 56), false, rest) := by
  induction k with
  | zero =>
    -- the loop has run its eight turns: `num` is what is left above bit 56
    intro i num acc hik hnum hacc hne
    obtain rfl : i = 8 := by omega
    refine ⟨[], Or.inr ⟨num, rfl, hnum, hne (by decide), fun rest => ?_⟩⟩
    rw [← hacc, UInt64.ofNat_toNat]
    rfl
  | succ k ih =>
    intro i num acc hik hnum hacc _
    have hx := x.toNat_lt
    have hdiv : num.toNat / 128 = x.toNat / 2 ^ (7 * (i + 1)) := by
      rw [hnum, Nat.div_div_eq_div_mul, show 7 * (i + 1) = 7 * i + 7 by ring, Nat.pow_add]
    have hmod : x.toNat % 2 ^ (7 * (i + 1)) =
        x.toNat % 2 ^ (7 * i) + 2 ^ (7 * i) * (num.toNat % 128) := by
      rw [hnum, show 7 * (i + 1) = 7 * i + 7 by ring, Nat.pow_add, Nat.mod_mul]
    have hbyte := toNat_varintByte num
    set b := num.toUInt8 &&& 0x7F ||| (if num >>> 7 = 0 then 0 else 0x80 : UInt8) with hb
    -- the accumulator after reading the byte this turn writes
    have hacc' : (acc ||| (b &&& 0x7F).toUInt64 <<< (i * 7).toUInt64).toNat =
        x.toNat % 2 ^ (7 * (i + 1)) := by
      have hlow : (b &&& 0x7F).toNat = num.toNat % 128 := by
        rw [toNat_and_low, hbyte]
        split <;> omega
      rw [toNat_or_shiftLeft acc _ i (by omega) (by omega) (hacc ▸ Nat.mod_lt _ (Nat.two_pow_pos _)),
        hlow, hacc, hmod]
    by_cases hlast : num.toNat / 128 = 0
    · -- nothing is left above: the writer returns and the reader stops at this byte
      have hshift : num >>> 7 = 0 := by
        rw [← UInt64.toNat_inj, toNat_shiftRight_seven]
        exact hlast
      have hfits : x.toNat < 2 ^ (7 * (i + 1)) :=
        (Nat.div_eq_zero_iff_lt (Nat.two_pow_pos _)).mp (hdiv ▸ hlast)
      refine ⟨[b], Or.inl ⟨?_, ?_⟩⟩
      · simp [serializeVarintLoop_succ, hshift, hb]
      · intro rest
        have hstop : b &&& 0x80 = 0 := by
          rw [and_high_eq_zero_iff, hbyte, if_pos hlast]
          omega
        simp only [List.singleton_append, deserializeVarintLoop_succ_cons, hstop, if_true]
        rw [← UInt64.toNat_inj.mp (hacc'.trans (Nat.mod_eq_of_lt hfits))]
    · -- more bits follow: one byte with the high bit set, then the loop from turn `i + 1`
      have hshift : num >>> 7 ≠ 0 := by
        rw [ne_eq, ← UInt64.toNat_inj, toNat_shiftRight_seven]
        exact hlast
      have hgo : b &&& 0x80 ≠ 0 := by
        rw [ne_eq, and_high_eq_zero_iff, hbyte, if_neg hlast]
        omega
      obtain ⟨bytes, hrun⟩ := ih (i + 1) (num >>> 7)
        (acc ||| (b &&& 0x7F).toUInt64 <<< (i * 7).toUInt64) (by omega)
        (by rw [toNat_shiftRight_seven, hdiv]) hacc' (fun _ => hshift)
      have hwrite : serializeVarintLoop (k + 1) num [] =
          (b :: (serializeVarintLoop k (num >>> 7) []).1, (serializeVarintLoop k (num >>> 7) []).2) := by
        rw [hb]
        simp only [serializeVarintLoop_succ, hshift, if_false]
        rw [serializeVarintLoop_append]
        simp
      have hread : ∀ rest, deserializeVarintLoop (k + 1) i acc (b :: bytes ++ rest) =
          deserializeVarintLoop k (i + 1) (acc ||| (b &&& 0x7F).toUInt64 <<< (i * 7).toUInt64)
            (bytes ++ rest) := by
        intro rest
        simp only [List.cons_append, deserializeVarintLoop_succ_cons, hgo, if_false]
      refine ⟨b :: bytes, ?_⟩
      rcases hrun with ⟨hw, hr⟩ | ⟨top, hw, htop, hne, hr⟩
      · exact Or.inl ⟨by rw [hwrite, hw], fun rest => by rw [hread, hr]⟩
      · exact Or.inr ⟨top, by rw [hwrite, hw], htop, hne, fun rest => by rw [hread, hr]⟩

/-- The writer never panics, and the reader reads the version back from what it wrote, whatever
follows it. -/
theorem deserializeU64Varint_serializeU64Varint (x : UInt64) (rest : List UInt8) :
    ∃ bytes, serializeU64Varint x [] = some bytes ∧
      deserializeU64Varint (bytes ++ rest) = .ok (x, rest) := by
  have hx := x.toNat_lt
  rcases deserializeVarintLoop_serializeVarintLoop x 8 0 x 0 rfl (by simp) (by simp [Nat.mod_one])
      (fun h => absurd h (Nat.lt_irrefl 0)) with ⟨bytes, ⟨hw, hr⟩ | ⟨top, hw, htop, hne, hr⟩⟩
  · refine ⟨bytes, by simp [serializeU64Varint_eq, hw], ?_⟩
    simp [deserializeU64Varint_eq, hr]
  · -- the eighth turn still had bits above: the ninth byte is `x`'s top byte, raw
    have hle : top ≤ 0xFF := by
      rw [UInt64.le_iff_toNat_le, htop]
      show _ ≤ 255
      omega
    have htopByte : top.toUInt8.toNat = x.toNat / 2 ^ 56 := by
      rw [UInt64.toNat_toUInt8, ← htop]
      exact Nat.mod_eq_of_lt (by rw [htop]; omega)
    have hlow : (UInt64.ofNat (x.toNat % 2 ^ 56)).toNat = x.toNat % 2 ^ 56 := by
      rw [UInt64.toNat_ofNat']
      omega
    refine ⟨bytes ++ [top.toUInt8], by simp [serializeU64Varint_eq, hw, hne, hle], ?_⟩
    rw [List.append_assoc, List.singleton_append, deserializeU64Varint_eq, hr]
    simp only [Except.ok.injEq, Prod.mk.injEq, and_true]
    rw [← UInt64.toNat_inj, toNat_or_shiftLeft_top _ _ (by omega), hlow, htopByte,
      Nat.mod_add_div]

theorem deserializeU64Varint_of_serializeU64Varint {x : UInt64} {bytes : List UInt8}
    (h : serializeU64Varint x [] = some bytes) (rest : List UInt8) :
    deserializeU64Varint (bytes ++ rest) = .ok (x, rest) := by
  obtain ⟨bytes', hw, hr⟩ := deserializeU64Varint_serializeU64Varint x rest
  rw [h, Option.some.injEq] at hw
  rw [hw]
  exact hr

end CreditChain
