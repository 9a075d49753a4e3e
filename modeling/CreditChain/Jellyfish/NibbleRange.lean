import CreditChain.Jellyfish.Node
import CreditChain.Lib.Iter

/-!
# The nibble ranges of a sorted batch

`NibbleRangeIterator` of `jellyfish-merkle/src/lib.rs`, which `batch_insert_at` uses to split a
batch of key-value pairs sorted by key into the runs that go under each child of an internal
node: starting at `pos`, it reads the nibble `cur_nibble` of the key at `pos` and finds by binary
search the last index holding that nibble.

* `nibble_le_of_le`: the byte order of `HashValue` orders the nibble that follows a shared prefix,
  so the nibbles of such a batch never decrease (`nibblesMonotone_of_sorted`);
* `searchLast_spec`: the binary search keeps "`i` holds `cur_nibble`, and everything after `j`
  holds a greater nibble", so it ends on the last index of `cur_nibble` and never panics: `mid - 1`
  is only taken when `mid > i`;
* `items_spec`: the ranges the iterator yields partition the batch, each range holds one nibble,
  and the nibbles strictly increase from range to range.
-/

namespace CreditChain

namespace Jellyfish

namespace HashValue

/-- `HashValue::nibble`: the high half of byte `index / 2` for an even index, the low half for an
odd one. Its callers keep `index` below `ROOT_NIBBLE_HEIGHT`, hence within the 32 bytes. -/
def nibble (self : HashValue) (index : Nat) : UInt8 :=
  let pos := index / 2
  let shift : UInt8 := if index % 2 = 0 then 4 else 0
  (self.bytes.getD pos 0 >>> shift) &&& 0x0F

theorem toNat_nibble (h : HashValue) (index : Nat) :
    (h.nibble index).toNat =
      if index % 2 = 0 then (h.bytes.getD (index / 2) 0).toNat / 16
      else (h.bytes.getD (index / 2) 0).toNat % 16 := by
  have hlt := (h.bytes.getD (index / 2) 0).toNat_lt
  have h15 : (15 : Nat) = 2 ^ 4 - 1 := rfl
  unfold nibble
  split
  · simp only [UInt8.toNat_and, UInt8.toNat_shiftRight, Nat.shiftRight_eq_div_pow]
    rw [show (0x0F : UInt8).toNat = 2 ^ 4 - 1 from rfl, Nat.and_two_pow_sub_one_eq_mod]
    simp only [show (4 : UInt8).toNat % 8 = 4 from rfl]
    omega
  · simp only [UInt8.toNat_and, UInt8.toNat_shiftRight, Nat.shiftRight_eq_div_pow]
    rw [show (0x0F : UInt8).toNat = 2 ^ 4 - 1 from rfl, Nat.and_two_pow_sub_one_eq_mod]
    simp only [show (0 : UInt8).toNat % 8 = 0 from rfl, Nat.pow_zero, Nat.div_one]

/-- Two hashes with the same two nibbles at byte `m` have the same byte `m`. -/
theorem getD_eq_of_nibble_eq {a b : HashValue} {m : Nat}
    (hhi : a.nibble (2 * m) = b.nibble (2 * m)) (hlo : a.nibble (2 * m + 1) = b.nibble (2 * m + 1)) :
    a.bytes.getD m 0 = b.bytes.getD m 0 := by
  have h1 := congrArg UInt8.toNat hhi
  have h2 := congrArg UInt8.toNat hlo
  have heven : (2 * m) % 2 = 0 ∧ (2 * m) / 2 = m := by omega
  have hodd : (2 * m + 1) % 2 = 1 ∧ (2 * m + 1) / 2 = m := by omega
  rw [toNat_nibble, toNat_nibble, if_pos heven.1, if_pos heven.1, heven.2] at h1
  rw [toNat_nibble, toNat_nibble, if_neg (by omega), if_neg (by omega), hodd.2] at h2
  apply UInt8.toNat_inj.mp
  omega

/-- The byte order of two hashes sharing their first `k` nibbles orders their nibble `k`:
otherwise the later hash would be below the earlier one at byte `k / 2`. -/
theorem nibble_le_of_le {a b : HashValue} {k : Nat} (hk : k < 64) (hle : a.bytes ≤ b.bytes)
    (hshared : ∀ i < k, a.nibble i = b.nibble i) : a.nibble k ≤ b.nibble k := by
  have ha := a.length_bytes
  have hb := b.length_bytes
  by_contra hgt
  apply List.not_lt.mpr hle
  rw [List.lt_iff_exists]
  refine Or.inr ⟨k / 2, by omega, by omega, fun j hj => ?_, ?_⟩
  · -- the bytes before `k / 2` are fixed by the prefix
    have hbyte := getD_eq_of_nibble_eq (hshared (2 * j) (by omega)).symm
      (hshared (2 * j + 1) (by omega)).symm
    rwa [List.getD_eq_getElem _ _ (by omega), List.getD_eq_getElem _ _ (by omega)] at hbyte
  · -- at byte `k / 2`, `b`'s nibble `k` is below `a`'s, and for an odd `k` the high nibbles agree
    have hlt : (b.nibble k).toNat < (a.nibble k).toNat := by
      rw [UInt8.le_iff_toNat_le] at hgt
      omega
    rw [toNat_nibble, toNat_nibble] at hlt
    rw [UInt8.lt_iff_toNat_lt, ← List.getD_eq_getElem _ 0, ← List.getD_eq_getElem _ 0]
    split at hlt
    · omega
    · have hhigh := congrArg UInt8.toNat (hshared (k - 1) (by omega))
      rw [toNat_nibble, toNat_nibble, if_pos (by omega), if_pos (by omega),
        show (k - 1) / 2 = k / 2 by omega] at hhigh
      omega

end HashValue

/-- `NibbleRangeIterator`: the index ranges, both ends included, of the successive nibbles at
`nibble_idx` of a batch sorted by key. -/
structure NibbleRangeIterator (K : Type) where
  sortedKvs : List (HashValue × K)
  nibbleIdx : Nat
  pos : Nat

namespace NibbleRangeIterator

variable {K : Type}

/-- `NibbleRangeIterator::new`; `none` is its failed assertion. -/
def new (sortedKvs : List (HashValue × K)) (nibbleIdx : Nat) : Option (NibbleRangeIterator K) :=
  if nibbleIdx < rootNibbleHeight then some ⟨sortedKvs, nibbleIdx, 0⟩ else none

/-- `self.sorted_kvs[idx].0.nibble(self.nibble_idx)`; `none` is an index out of bounds. -/
def nibbleAt (self : NibbleRangeIterator K) (idx : Nat) : Option UInt8 :=
  self.sortedKvs[idx]?.map fun kv => kv.1.nibble self.nibbleIdx

/-- The loop of `next`, finding the last index of `cur_nibble` in `[i, j]`. Under `i < j` neither
`j - i` nor `j - (j - i) / 2` goes below zero; `mid - 1` would panic there. -/
def searchLast (self : NibbleRangeIterator K) (curNibble : UInt8) (i j : Nat) : Option Nat :=
  if i < j then
    let mid := j - (j - i) / 2
    match self.nibbleAt mid with
    | none => none
    | some nibble =>
      if nibble > curNibble then
        if mid = 0 then none else self.searchLast curNibble i (mid - 1)
      else self.searchLast curNibble mid j
  else some i
termination_by j - i
decreasing_by all_goals omega

/-- `Iterator::next`: the range of the nibble at `pos`, and the iterator moved past it; `none` is
a panic. -/
def next (self : NibbleRangeIterator K) : Option (Option (Nat × Nat) × NibbleRangeIterator K) :=
  let left := self.pos
  if self.pos < self.sortedKvs.length then do
    let curNibble ← self.nibbleAt left
    let i ← self.searchLast curNibble left (self.sortedKvs.length - 1)
    pure (some (left, i), { self with pos := i + 1 })
  else some (none, self)

theorem next_of_not_lt (self : NibbleRangeIterator K) (h : ¬ self.pos < self.sortedKvs.length) :
    self.next = some (none, self) := if_neg h

/-- The ranges a `for` loop over the iterator receives, in at most `fuel` calls of `next`. -/
def items (fuel : Nat) (self : NibbleRangeIterator K) : Option (List (Nat × Nat)) :=
  Iter.collect next fuel self

/-! ### The nibbles of a sorted batch -/

/-- The nibbles at `nibble_idx` of the batch. -/
def nibbles (self : NibbleRangeIterator K) : List UInt8 :=
  self.sortedKvs.map fun kv => kv.1.nibble self.nibbleIdx

theorem nibbles_eq (self : NibbleRangeIterator K) :
    self.nibbles = self.sortedKvs.map fun kv => kv.1.nibble self.nibbleIdx := rfl

/-- The nibbles at `nibble_idx` never decrease along the batch. -/
def NibblesMonotone (self : NibbleRangeIterator K) : Prop :=
  ∀ x y, x ≤ y → y < self.sortedKvs.length → self.nibbles.getD x 0 ≤ self.nibbles.getD y 0

theorem nibbleAt_of_lt (self : NibbleRangeIterator K) {idx : Nat} (h : idx < self.sortedKvs.length) :
    self.nibbleAt idx = some (self.nibbles.getD idx 0) := by
  simp [nibbleAt, nibbles_eq, List.getElem?_eq_getElem h, List.getD_eq_getElem?_getD]

/-- A batch sorted by key whose keys share their first `nibble_idx` nibbles has monotone nibbles
at `nibble_idx`. -/
theorem nibblesMonotone_of_sorted (self : NibbleRangeIterator K) (hidx : self.nibbleIdx < 64)
    (hsorted : self.sortedKvs.Pairwise fun a b => a.1.bytes ≤ b.1.bytes)
    (hshared : ∀ a ∈ self.sortedKvs, ∀ b ∈ self.sortedKvs, ∀ i < self.nibbleIdx,
      a.1.nibble i = b.1.nibble i) :
    self.NibblesMonotone := by
  intro x y hxy hy
  have hx : x < self.sortedKvs.length := by omega
  simp only [nibbles_eq, List.getD_eq_getElem?_getD, List.getElem?_map, List.getElem?_eq_getElem hx,
    List.getElem?_eq_getElem hy, Option.map_some, Option.getD_some]
  rcases Nat.lt_or_eq_of_le hxy with hlt | rfl
  · exact HashValue.nibble_le_of_le hidx (List.pairwise_iff_getElem.mp hsorted x y hx hy hlt)
      fun i hi => hshared _ (List.getElem_mem hx) _ (List.getElem_mem hy) i hi
  · exact UInt8.le_refl _

/-! ### The binary search -/

section Search

variable (self : NibbleRangeIterator K) (hmono : self.NibblesMonotone)
include hmono

/-- The binary search keeps "`i` holds a nibble at most `cur_nibble`, and every index after `j`
holds a greater one", and ends on the last index at most `cur_nibble` without a panic. -/
theorem searchLast_spec {cur : UInt8} {i j : Nat} (hj : j < self.sortedKvs.length) (hij : i ≤ j)
    (hi : self.nibbles.getD i 0 ≤ cur)
    (habove : ∀ x, j < x → x < self.sortedKvs.length → cur < self.nibbles.getD x 0) :
    ∃ r, self.searchLast cur i j = some r ∧ i ≤ r ∧ r ≤ j ∧ self.nibbles.getD r 0 ≤ cur ∧
      ∀ x, r < x → x < self.sortedKvs.length → cur < self.nibbles.getD x 0 := by
  fun_induction self.searchLast cur i j with
  | case1 i j hlt mid hnone =>
    rw [nibbleAt_of_lt self (by omega)] at hnone
    exact absurd hnone (Option.some_ne_none _)
  | case2 i j hlt mid nibble hsome hgt hzero =>
    -- `mid` lies above `i`, so it is not zero
    omega
  | case3 i j hlt mid nibble hsome hgt hzero ih =>
    rw [nibbleAt_of_lt self (by omega), Option.some.injEq] at hsome
    -- `mid` and everything after it hold a nibble above `cur_nibble`
    have habove' : ∀ x, mid - 1 < x → x < self.sortedKvs.length → cur < self.nibbles.getD x 0 := by
      intro x hx hxlen
      rcases Nat.lt_or_ge j x with hjx | hxj
      · exact habove x hjx hxlen
      · exact Nat.lt_of_lt_of_le (hsome ▸ hgt) (hmono _ _ (by omega) hxlen)
    obtain ⟨r, hr, hir, hrj, hrcur, hrabove⟩ := ih (by omega) (by omega) hi habove'
    exact ⟨r, hr, hir, by omega, hrcur, hrabove⟩
  | case4 i j hlt mid nibble hsome hle ih =>
    rw [nibbleAt_of_lt self (by omega), Option.some.injEq] at hsome
    obtain ⟨r, hr, hir, hrj, hrcur, hrabove⟩ := ih hj (by omega) (hsome ▸ Nat.le_of_not_lt hle)
      habove
    exact ⟨r, hr, by omega, hrj, hrcur, hrabove⟩
  | case5 i j hge =>
    exact ⟨i, rfl, Nat.le_refl _, hij, hi, fun x hx hxlen => habove x (by omega) hxlen⟩

/-- `next` at a position within the batch yields the range of the nibble there, which holds that
nibble throughout and is followed by a greater nibble. -/
theorem next_spec (hpos : self.pos < self.sortedKvs.length) :
    ∃ r, self.next = some (some (self.pos, r), { self with pos := r + 1 }) ∧ self.pos ≤ r ∧
      r < self.sortedKvs.length ∧
      (∀ x, self.pos ≤ x → x ≤ r → self.nibbles.getD x 0 = self.nibbles.getD self.pos 0) ∧
      (r + 1 < self.sortedKvs.length → self.nibbles.getD self.pos 0 < self.nibbles.getD (r + 1) 0) := by
  obtain ⟨r, hr, hposr, hrlen, hrcur, hrabove⟩ :=
    searchLast_spec self hmono (i := self.pos) (j := self.sortedKvs.length - 1) (by omega) (by omega)
      (UInt8.le_refl _) fun x hx hxlen => absurd hxlen (by omega)
  refine ⟨r, ?_, hposr, by omega, fun x hx hxr => ?_, fun hr1 => hrabove _ (by omega) hr1⟩
  · simp only [next, if_pos hpos, nibbleAt_of_lt self hpos, Option.bind_eq_bind, Option.bind_some,
      hr, Option.pure_def]
  · -- squeezed between the nibble at `pos` and the one at `r`
    exact UInt8.le_antisymm (Nat.le_trans (hmono _ _ hxr (by omega)) hrcur) (hmono _ _ hx (by omega))

end Search

/-- The iterator, with more fuel than positions left, yields ranges that partition the rest of the
batch, each holding one nibble, with nibbles strictly increasing from range to range. -/
theorem items_spec (fuel : Nat) (self : NibbleRangeIterator K) (hmono : self.NibblesMonotone)
    (hpos : self.pos ≤ self.sortedKvs.length) (hfuel : self.sortedKvs.length - self.pos < fuel) :
    ∃ rs, self.items fuel = some rs ∧
      rs.flatMap (fun p => List.range' p.1 (p.2 + 1 - p.1)) =
        List.range' self.pos (self.sortedKvs.length - self.pos) ∧
      (∀ p ∈ rs, self.pos ≤ p.1 ∧ p.1 ≤ p.2 ∧ p.2 < self.sortedKvs.length ∧
        ∀ x, p.1 ≤ x → x ≤ p.2 → self.nibbles.getD x 0 = self.nibbles.getD p.1 0) ∧
      (rs.map fun p => self.nibbles.getD p.1 0).Pairwise (· < ·) := by
  induction fuel generalizing self with
  | zero => omega
  | succ fuel ih =>
    by_cases hlt : self.pos < self.sortedKvs.length
    · -- one range, then the rest of the batch from past its end
      obtain ⟨r, hnext, hposr, hrlen, hconst, hgreater⟩ := next_spec self hmono hlt
      obtain ⟨rs, hrs, hcover, hranges, hincr⟩ :=
        ih { self with pos := r + 1 } hmono (by simp only; omega) (by simp only; omega)
      refine ⟨(self.pos, r) :: rs, ?_, ?_, ?_, ?_⟩
      · simp only [items] at hrs ⊢
        rw [Iter.collect_succ_of_yield hnext, hrs, Option.map_some]
      · rw [List.flatMap_cons, hcover]
        have hsplit := @List.range'_append self.pos (r + 1 - self.pos)
          (self.sortedKvs.length - (r + 1)) 1
        rw [show self.pos + 1 * (r + 1 - self.pos) = r + 1 by omega,
          show r + 1 - self.pos + (self.sortedKvs.length - (r + 1)) =
            self.sortedKvs.length - self.pos by omega] at hsplit
        exact hsplit
      · intro p hp
        rcases List.mem_cons.mp hp with rfl | hp
        · exact ⟨Nat.le_refl _, hposr, hrlen, hconst⟩
        · obtain ⟨hp1, hp12, hp2, hpconst⟩ := hranges p hp
          exact ⟨by simp only at hp1; omega, hp12, hp2, hpconst⟩
      · rw [List.map_cons, List.pairwise_cons]
        refine ⟨fun n hn => ?_, hincr⟩
        obtain ⟨p, hp, rfl⟩ := List.mem_map.mp hn
        obtain ⟨hp1, hp12, hp2, -⟩ := hranges p hp
        simp only at hp1 hp2
        -- the next nibble is greater, and the nibbles do not decrease after it
        exact Nat.lt_of_lt_of_le (hgreater (by omega)) (hmono _ _ hp1 (by omega))
    · -- the batch is exhausted
      have hend : self.pos = self.sortedKvs.length := by omega
      exact ⟨[], Iter.collect_succ_of_done (next_of_not_lt self hlt), by simp [hend], by simp, List.Pairwise.nil⟩

/-- For a batch sorted by key whose keys share their first `nibble_idx` nibbles, the iterator
asserts nothing false, never panics, and stops: its ranges `(l, r)` cover `0, 1, …, len - 1` in
order, each range is non-empty (so the first starts at `0`, each starts right after the previous
one ends, and the last ends at `len - 1`), every key of a range has the same nibble at
`nibble_idx`, and that nibble strictly increases from range to range. -/
theorem nibbleRangeIterator_partitions (sortedKvs : List (HashValue × K)) (nibbleIdx fuel : Nat)
    (hidx : nibbleIdx < rootNibbleHeight)
    (hsorted : sortedKvs.Pairwise fun a b => a.1.bytes ≤ b.1.bytes)
    (hshared : ∀ a ∈ sortedKvs, ∀ b ∈ sortedKvs, ∀ i < nibbleIdx, a.1.nibble i = b.1.nibble i)
    (hfuel : sortedKvs.length < fuel) :
    ∃ it rs, new sortedKvs nibbleIdx = some it ∧ it.items fuel = some rs ∧
      rs.flatMap (fun p => List.range' p.1 (p.2 + 1 - p.1)) = List.range sortedKvs.length ∧
      (∀ p ∈ rs, p.1 ≤ p.2 ∧ ∀ x, p.1 ≤ x → x ≤ p.2 →
        (sortedKvs.map fun kv => kv.1.nibble nibbleIdx).getD x 0 =
          (sortedKvs.map fun kv => kv.1.nibble nibbleIdx).getD p.1 0) ∧
      (rs.map fun p => (sortedKvs.map fun kv => kv.1.nibble nibbleIdx).getD p.1 0).Pairwise
        (· < ·) := by
  have hmono := nibblesMonotone_of_sorted ⟨sortedKvs, nibbleIdx, 0⟩ hidx hsorted hshared
  obtain ⟨rs, hrs, hcover, hranges, hincr⟩ :=
    items_spec fuel ⟨sortedKvs, nibbleIdx, 0⟩ hmono (Nat.zero_le _) (by simpa using hfuel)
  refine ⟨_, rs, if_pos hidx, hrs, ?_, fun p hp => ?_, hincr⟩
  · simpa [List.range_eq_range'] using hcover
  · obtain ⟨-, h12, -, hconst⟩ := hranges p hp
    exact ⟨h12, hconst⟩

/-- A hash whose first byte is `b`, the others zero. -/
def hashOfFirstByte (b : UInt8) : HashValue :=
  ⟨b :: List.replicate 31 0, rfl⟩

/-- Four keys with first nibble 1 and second nibbles 0, 2, 2 and 15. -/
def sampleBatch : List (HashValue × Unit) :=
  [(hashOfFirstByte 0x10, ()), (hashOfFirstByte 0x12, ()), (hashOfFirstByte 0x12, ()),
    (hashOfFirstByte 0x1F, ())]

theorem nibbleRangeIterator_partitions_sampleBatch :
    ∃ it rs, new sampleBatch 1 = some it ∧ it.items 5 = some rs ∧
      rs.flatMap (fun p => List.range' p.1 (p.2 + 1 - p.1)) = List.range sampleBatch.length ∧
      (∀ p ∈ rs, p.1 ≤ p.2 ∧ ∀ x, p.1 ≤ x → x ≤ p.2 →
        (sampleBatch.map fun kv => kv.1.nibble 1).getD x 0 =
          (sampleBatch.map fun kv => kv.1.nibble 1).getD p.1 0) ∧
      (rs.map fun p => (sampleBatch.map fun kv => kv.1.nibble 1).getD p.1 0).Pairwise (· < ·) :=
  nibbleRangeIterator_partitions sampleBatch 1 5 (by decide) (by decide) (by decide) (by decide)

end NibbleRangeIterator

end Jellyfish

end CreditChain
