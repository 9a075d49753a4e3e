import Mathlib.Tactic.Ring
import Mathlib.Tactic.Positivity

/-!
# Fixed-width byte strings of numbers

The `k` low bytes of a number, most significant first (`toBe`, read back by `ofBe`) or least
significant first (`toLe`, read back by `ofLe`), as `byteorder`'s `write_u64::<BigEndian>`,
`write_u16::<LittleEndian>` and their kin write them and the matching `read_*` read them back
(`readBe_toBe_append`, `readLe_toLe_append`).

Big-endian strings of one width compare, byte by byte, as the numbers they spell do
(`toBe_lt_toBe_iff`); with `append_lt_append_iff`, a key that starts with such a string is
ordered by that number first.
-/

namespace Bytes

/-- The `k` low bytes of `v`, most significant first. -/
def toBe : Nat → Nat → List UInt8
  | 0, _ => []
  | k + 1, v => UInt8.ofNat (v / 256 ^ k) :: toBe k v

/-- The `k` low bytes of `v`, least significant first. -/
def toLe : Nat → Nat → List UInt8
  | 0, _ => []
  | k + 1, v => UInt8.ofNat v :: toLe k (v / 256)

theorem toBe_zero (v : Nat) : toBe 0 v = [] := rfl

theorem toBe_succ (k v : Nat) : toBe (k + 1) v = UInt8.ofNat (v / 256 ^ k) :: toBe k v := rfl

theorem toLe_zero (v : Nat) : toLe 0 v = [] := rfl

theorem toLe_succ (k v : Nat) : toLe (k + 1) v = UInt8.ofNat v :: toLe k (v / 256) := rfl

/-- A byte string read as a number, most significant byte first. -/
def ofBe (bytes : List UInt8) : Nat :=
  bytes.foldl (fun acc b => acc * 256 + b.toNat) 0

theorem ofBe_nil : ofBe [] = 0 := rfl

/-- A byte string read as a number, least significant byte first. -/
def ofLe : List UInt8 → Nat
  | [] => 0
  | b :: bytes => b.toNat + 256 * ofLe bytes

theorem ofLe_nil : ofLe [] = 0 := rfl

theorem ofLe_cons (b : UInt8) (bytes : List UInt8) : ofLe (b :: bytes) = b.toNat + 256 * ofLe bytes :=
  rfl

/-- `k` bytes from a reader, most significant first; `none` when fewer are left. -/
def readBe (k : Nat) (reader : List UInt8) : Option (Nat × List UInt8) :=
  if k ≤ reader.length then some (ofBe (reader.take k), reader.drop k) else none

theorem readBe_eq (k : Nat) (reader : List UInt8) :
    readBe k reader = if k ≤ reader.length then some (ofBe (reader.take k), reader.drop k) else none :=
  rfl

/-- `k` bytes from a reader, least significant first; `none` when fewer are left. -/
def readLe (k : Nat) (reader : List UInt8) : Option (Nat × List UInt8) :=
  if k ≤ reader.length then some (ofLe (reader.take k), reader.drop k) else none

theorem readLe_eq (k : Nat) (reader : List UInt8) :
    readLe k reader = if k ≤ reader.length then some (ofLe (reader.take k), reader.drop k) else none :=
  rfl

@[simp] theorem length_toBe (k v : Nat) : (toBe k v).length = k := by
  induction k with
  | zero => rfl
  | succ k ih => simp [toBe_succ, ih]

@[simp] theorem length_toLe (k v : Nat) : (toLe k v).length = k := by
  induction k generalizing v with
  | zero => rfl
  | succ k ih => simp [toLe_succ, ih]

theorem toNat_ofNat_byte (v : Nat) : (UInt8.ofNat v).toNat = v % 256 := UInt8.toNat_ofNat'

theorem ofNat_lt_ofNat_iff (x y : Nat) : UInt8.ofNat x < UInt8.ofNat y ↔ x % 256 < y % 256 := by
  rw [UInt8.lt_iff_toNat_lt, toNat_ofNat_byte, toNat_ofNat_byte]

theorem ofNat_eq_ofNat_iff (x y : Nat) : UInt8.ofNat x = UInt8.ofNat y ↔ x % 256 = y % 256 := by
  rw [← UInt8.toNat_inj, toNat_ofNat_byte, toNat_ofNat_byte]

/-! ### Reading back -/

theorem ofLe_toLe (k v : Nat) : ofLe (toLe k v) = v % 256 ^ k := by
  induction k generalizing v with
  | zero => simp [toLe_zero, ofLe_nil, Nat.mod_one]
  | succ k ih =>
    -- the low byte, then the rest shifted by one byte
    rw [toLe_succ, ofLe_cons, ih, toNat_ofNat_byte, pow_succ', Nat.mod_mul]

theorem foldl_ofBe (acc : Nat) (bytes : List UInt8) :
    bytes.foldl (fun acc b => acc * 256 + b.toNat) acc = acc * 256 ^ bytes.length + ofBe bytes := by
  induction bytes generalizing acc with
  | nil => simp [ofBe_nil]
  | cons b bytes ih =>
    delta ofBe
    simp only [List.foldl_cons, Nat.zero_mul, Nat.zero_add, List.length_cons]
    rw [ih, ih b.toNat, pow_succ]
    ring

theorem ofBe_cons (b : UInt8) (bytes : List UInt8) :
    ofBe (b :: bytes) = b.toNat * 256 ^ bytes.length + ofBe bytes := by
  delta ofBe
  rw [List.foldl_cons, Nat.zero_mul, Nat.zero_add, foldl_ofBe]
  rfl

theorem ofBe_toBe (k v : Nat) : ofBe (toBe k v) = v % 256 ^ k := by
  induction k with
  | zero => simp [toBe_zero, ofBe_nil, Nat.mod_one]
  | succ k ih =>
    -- the top byte, above the `k` bytes below it
    rw [toBe_succ, ofBe_cons, ih, length_toBe, toNat_ofNat_byte, pow_succ, Nat.mod_mul]
    ring

theorem ofBe_lt (bytes : List UInt8) : ofBe bytes < 256 ^ bytes.length := by
  induction bytes with
  | nil => simp [ofBe_nil]
  | cons b bytes ih =>
    have hb : b.toNat < 256 := b.toNat_lt
    have hmul : b.toNat * 256 ^ bytes.length + 256 ^ bytes.length ≤ 256 ^ (bytes.length + 1) := by
      rw [pow_succ, ← Nat.succ_mul, Nat.mul_comm]
      exact Nat.mul_le_mul_left _ hb
    rw [ofBe_cons, List.length_cons]
    omega

/-- The `k` bytes of a number only read it modulo `256^k`. -/
theorem toBe_mod (k v : Nat) : toBe k (v % 256 ^ k) = toBe k v := by
  induction k generalizing v with
  | zero => rfl
  | succ k ih =>
    have hdvd : 256 ^ k ∣ 256 ^ (k + 1) := pow_dvd_pow 256 (Nat.le_succ k)
    rw [toBe_succ, toBe_succ, ← ih (v % 256 ^ (k + 1)), Nat.mod_mod_of_dvd _ hdvd, ih, pow_succ,
      Nat.mod_mul_right_div_self, (ofNat_eq_ofNat_iff _ _).mpr (Nat.mod_mod _ _)]

theorem toBe_ofBe (bytes : List UInt8) : toBe bytes.length (ofBe bytes) = bytes := by
  induction bytes with
  | nil => rfl
  | cons b bytes ih =>
    have hlt := ofBe_lt bytes
    have hP : 0 < 256 ^ bytes.length := by positivity
    -- the top byte is `b`, and below it are `bytes`
    have htop : ofBe (b :: bytes) / 256 ^ bytes.length = b.toNat := by
      rw [ofBe_cons, Nat.add_comm, Nat.add_mul_div_right _ _ hP, Nat.div_eq_of_lt hlt, Nat.zero_add]
    have hlow : ofBe (b :: bytes) % 256 ^ bytes.length = ofBe bytes := by
      rw [ofBe_cons, Nat.mul_add_mod_self_right, Nat.mod_eq_of_lt hlt]
    rw [List.length_cons, toBe_succ, htop, ← toBe_mod, hlow, ih, UInt8.ofNat_toNat]

/-- What `readBe` reads is the big-endian string of a number of that width. -/
theorem readBe_eq_some {k v : Nat} {reader rest : List UInt8}
    (h : readBe k reader = some (v, rest)) : reader = toBe k v ++ rest ∧ v < 256 ^ k := by
  unfold readBe at h
  split at h
  · rename_i hk
    simp only [Option.some.injEq, Prod.mk.injEq] at h
    obtain ⟨rfl, rfl⟩ := h
    have hlen : (reader.take k).length = k := List.length_take_of_le hk
    have hlt := ofBe_lt (reader.take k)
    rw [hlen] at hlt
    have hbytes : toBe k (ofBe (reader.take k)) = reader.take k := by
      have := toBe_ofBe (reader.take k)
      rwa [hlen] at this
    refine ⟨?_, hlt⟩
    rw [hbytes, List.take_append_drop]
  · cases h

theorem readBe_toBe_append (k v : Nat) (rest : List UInt8) :
    readBe k (toBe k v ++ rest) = some (v % 256 ^ k, rest) := by
  simp [readBe_eq, ofBe_toBe]

theorem readLe_toLe_append (k v : Nat) (rest : List UInt8) :
    readLe k (toLe k v ++ rest) = some (v % 256 ^ k, rest) := by
  simp [readLe_eq, ofLe_toLe]

/-! ### Order -/

/-- Numbers in a mixed radix compare by their top digit first. -/
theorem mul_add_lt_mul_add_iff {P qa qb ra rb : Nat} (ha : ra < P) (hb : rb < P) :
    qa * P + ra < qb * P + rb ↔ qa < qb ∨ qa = qb ∧ ra < rb := by
  rcases Nat.lt_trichotomy qa qb with hq | rfl | hq
  · have : (qa + 1) * P ≤ qb * P := Nat.mul_le_mul_right P hq
    rw [Nat.add_mul, Nat.one_mul] at this
    exact ⟨fun _ => .inl hq, fun _ => by omega⟩
  · simp
  · have : (qb + 1) * P ≤ qa * P := Nat.mul_le_mul_right P hq
    rw [Nat.add_mul, Nat.one_mul] at this
    constructor
    · intro h
      omega
    · rintro (h | ⟨rfl, -⟩) <;> omega

/-- Big-endian strings of one width compare as the numbers they spell. -/
theorem toBe_lt_toBe_iff_mod (k a b : Nat) : toBe k a < toBe k b ↔ a % 256 ^ k < b % 256 ^ k := by
  induction k with
  | zero => simp [toBe_zero, List.not_lt_nil, Nat.mod_one]
  | succ k ih =>
    -- the top bytes decide, and on a tie the bytes below
    have hsplit : ∀ v, v % 256 ^ (k + 1) = v / 256 ^ k % 256 * 256 ^ k + v % 256 ^ k := by
      intro v
      rw [pow_succ, Nat.mod_mul]
      ring
    have hP : 0 < 256 ^ k := by positivity
    rw [toBe_succ, toBe_succ, List.cons_lt_cons_iff, ih, ofNat_lt_ofNat_iff, ofNat_eq_ofNat_iff, hsplit a,
      hsplit b]
    exact (mul_add_lt_mul_add_iff (Nat.mod_lt _ hP) (Nat.mod_lt _ hP)).symm

theorem toBe_lt_toBe_iff {k a b : Nat} (ha : a < 256 ^ k) (hb : b < 256 ^ k) :
    toBe k a < toBe k b ↔ a < b := by
  rw [toBe_lt_toBe_iff_mod, Nat.mod_eq_of_lt ha, Nat.mod_eq_of_lt hb]

/-- Two strings that start with prefixes of one length compare by the prefixes first. -/
theorem append_lt_append_iff {α : Type} [LT α] {p₁ p₂ s₁ s₂ : List α}
    (h : p₁.length = p₂.length) : p₁ ++ s₁ < p₂ ++ s₂ ↔ p₁ < p₂ ∨ p₁ = p₂ ∧ s₁ < s₂ := by
  induction p₁ generalizing p₂ with
  | nil =>
    obtain rfl : p₂ = [] := List.eq_nil_of_length_eq_zero h.symm
    simp [List.not_lt_nil]
  | cons a p₁ ih =>
    obtain ⟨b, p₂, rfl⟩ := List.exists_cons_of_length_eq_add_one h.symm
    simp only [List.length_cons, Nat.add_right_cancel_iff] at h
    simp only [List.cons_append, List.cons_lt_cons_iff, ih h, List.cons.injEq]
    constructor
    · rintro (hab | ⟨rfl, hp | ⟨rfl, hs⟩⟩)
      · exact .inl (.inl hab)
      · exact .inl (.inr ⟨rfl, hp⟩)
      · exact .inr ⟨⟨rfl, rfl⟩, hs⟩
    · rintro ((hab | ⟨rfl, hp⟩) | ⟨⟨rfl, rfl⟩, hs⟩)
      · exact .inl hab
      · exact .inr ⟨rfl, .inl hp⟩
      · exact .inr ⟨rfl, .inr ⟨rfl, hs⟩⟩

end Bytes
