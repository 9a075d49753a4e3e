import Mathlib.Data.List.Basic

/-!
# Merkle paths

A Merkle path lists, from the root down, the sibling met at each level together with the side
the path takes there (`true`: the path goes right, so the sibling is the left child).
`pathRoot` hashes a node up such a path with a two-input hash `node`.

Two paths that take the same sides and reach the same root bind their ends (`pathRoot_binding`):
the shorter path ends at the node the longer one passes at that depth, unless `node` maps two
different pairs to one value (`Collision`).  Verifiers fold from the bottom up over reversed
lists; `foldl_reverse_eq_pathRoot` turns such a fold into `pathRoot`.
-/

namespace MerklePath

variable {α : Type}

/-- Hash `x` up a path given from the root down as pairs of a sibling and the side taken. -/
def pathRoot (node : α → α → α) : List (α × Bool) → α → α
  | [], x => x
  | (sibling, right) :: path, x =>
    if right then node sibling (pathRoot node path x) else node (pathRoot node path x) sibling

/-- Two different pairs hashed to one value. -/
def Collision (node : α → α → α) : Prop :=
  ∃ a b c d, (a, b) ≠ (c, d) ∧ node a b = node c d

variable {node : α → α → α}

@[simp] theorem pathRoot_nil (x : α) : pathRoot node [] x = x := rfl

theorem pathRoot_cons (sibling : α) (right : Bool) (path : List (α × Bool)) (x : α) :
    pathRoot node ((sibling, right) :: path) x =
      if right then node sibling (pathRoot node path x) else node (pathRoot node path x) sibling :=
  rfl

theorem pathRoot_append (p q : List (α × Bool)) (x : α) :
    pathRoot node (p ++ q) x = pathRoot node p (pathRoot node q x) := by
  induction p with
  | nil => rfl
  | cons e p ih =>
    obtain ⟨sibling, right⟩ := e
    simp [pathRoot_cons, ih]

/-- One level: equal hashes of children on the same side come from equal children, or collide. -/
theorem eq_or_collision_of_level {right : Bool} {s₁ s₂ x₁ x₂ : α}
    (h : (if right then node s₁ x₁ else node x₁ s₁) = if right then node s₂ x₂ else node x₂ s₂) :
    Collision node ∨ x₁ = x₂ := by
  by_cases hx : x₁ = x₂
  · exact .inr hx
  · cases right
    · exact .inl ⟨x₁, s₁, x₂, s₂, by simp [hx], h⟩
    · exact .inl ⟨s₁, x₁, s₂, x₂, by simp [hx], h⟩

/-- Binding: a path no longer than another, taking the same sides from the root, reaches the same
root only if its end is the node the other passes at that depth, or the hash collides. -/
theorem pathRoot_binding {p q : List (α × Bool)} {x y : α} (hlen : p.length ≤ q.length)
    (hsides : p.map Prod.snd = (q.map Prod.snd).take p.length)
    (h : pathRoot node p x = pathRoot node q y) :
    Collision node ∨ x = pathRoot node (q.drop p.length) y := by
  -- induction on the shorter path, one level of both paths at a time from the root
  induction p generalizing q with
  | nil => exact .inr h
  | cons e p ih =>
    obtain ⟨s₁, right⟩ := e
    obtain _ | ⟨⟨s₂, right'⟩, q⟩ := q
    · simp at hlen
    · simp only [List.map_cons, List.length_cons, List.take_succ_cons, List.cons.injEq] at hsides
      obtain ⟨rfl, hsides⟩ := hsides
      simp only [pathRoot_cons] at h
      rcases eq_or_collision_of_level h with hc | hx
      · exact .inl hc
      · exact ih (by simpa using hlen) hsides hx

/-- Two paths of one length taking the same sides bind their ends. -/
theorem pathRoot_binding_of_length_eq {p q : List (α × Bool)} {x y : α}
    (hlen : p.length = q.length) (hsides : p.map Prod.snd = q.map Prod.snd)
    (h : pathRoot node p x = pathRoot node q y) : Collision node ∨ x = y := by
  have hsides' : p.map Prod.snd = (q.map Prod.snd).take p.length := by
    rw [hsides, hlen, ← List.length_map (f := Prod.snd), List.take_length]
  simpa [hlen] using pathRoot_binding (Nat.le_of_eq hlen) hsides' h

/-- Hashing up from the bottom, as a left fold over the reversed path does, reaches `pathRoot`. -/
theorem foldl_reverse_eq_pathRoot (p : List (α × Bool)) (x : α) :
    p.reverse.foldl (fun hash (e : α × Bool) => if e.2 then node e.1 hash else node hash e.1) x =
      pathRoot node p x := by
  rw [List.foldl_reverse]
  induction p with
  | nil => rfl
  | cons e p ih =>
    obtain ⟨sibling, right⟩ := e
    simp [pathRoot_cons, ih]

theorem zip_take_length {β : Type} (l₁ : List α) (l₂ : List β) :
    l₁.zip (l₂.take l₁.length) = l₁.zip l₂ := by
  induction l₁ generalizing l₂ with
  | nil => rfl
  | cons a l₁ ih =>
    cases l₂ with
    | nil => rfl
    | cons b l₂ => simp [ih l₂]

/-- Zipping reversed lists, the second cut to the first's length, reverses the zip. -/
theorem zip_reverse_take {β : Type} (l₁ : List α) (l₂ : List β) (h : l₁.length ≤ l₂.length) :
    l₁.reverse.zip (l₂.take l₁.length).reverse = (l₁.zip l₂).reverse := by
  rw [← zip_take_length l₁ l₂, List.zip_eq_zipWith, List.zip_eq_zipWith,
    List.reverse_zipWith (List.length_take_of_le h).symm]

theorem map_snd_zip_eq_take {β : Type} (l₁ : List α) (l₂ : List β) :
    (l₁.zip l₂).map Prod.snd = l₂.take l₁.length := by
  induction l₁ generalizing l₂ with
  | nil => rfl
  | cons a l₁ ih =>
    cases l₂ with
    | nil => rfl
    | cons b l₂ => simp [ih l₂]

/-- The pairing of a bottom-up fold that zips the reversed siblings with the bits of a key read
backwards and cut to the siblings' depth: sibling `j` from the top meets bit `depth + j`. -/
theorem zip_reverse_drop_reverse {β : Type} (l : List α) (bits : List β) (depth : Nat)
    (h : l.length + depth ≤ bits.length) :
    l.reverse.zip (bits.reverse.drop (bits.length - l.length - depth)) =
      (l.zip (bits.drop depth)).reverse := by
  have hcut : bits.length - (bits.length - l.length - depth) = depth + l.length := by omega
  have hrest : l.reverse.length ≤ ((bits.drop depth).take l.length).reverse.length := by
    simp [List.length_take, List.length_drop]
    omega
  rw [List.drop_reverse, hcut, List.take_add, List.reverse_append,
    ← zip_take_length l.reverse, List.take_append_of_le_length hrest, zip_take_length,
    zip_reverse_take l (bits.drop depth) (by simp [List.length_drop]; omega)]

end MerklePath
