import Mathlib

/-!
# Pieces of an address space

A buffer that is scattered over memory is a list of pieces, each an address and a length, and
what it denotes is the list of its addresses.  A piece may be empty.

A **cursor** is the index of a piece and a place in it; `At ps i ii n` says that it stands before
the byte `n` of the buffer.  A cursor with bytes before it is inside the list (`At.piece`), the
addresses before it in its piece are those of the buffer (`At.address`), and moving it over some of
them, to the next piece when they are all, moves it as far in the buffer (`At.advance`).

`Transferred D S m₀ n m` says that the first `n` bytes at the addresses `S` of the memory `m₀` are
now at the addresses `D` of `m`, with nothing else changed; copying one run of addresses to another
extends it (`Transferred.copy`).
-/

universe u

namespace Scatter

/-- An address and a length. -/
structure Piece where
  base : ℕ
  len : ℕ
  deriving DecidableEq, Repr

/-- The addresses of a piece. -/
def Piece.addresses (p : Piece) : List ℕ := (List.range p.len).map (p.base + ·)

/-- The addresses of a buffer. -/
def addresses (ps : List Piece) : List ℕ := ps.flatMap Piece.addresses

/-- The length of a buffer. -/
def total (ps : List Piece) : ℕ := (ps.map Piece.len).sum

@[simp] theorem addresses_nil : addresses [] = [] := rfl

@[simp] theorem addresses_cons (p : Piece) (ps : List Piece) :
    addresses (p :: ps) = p.addresses ++ addresses ps := List.flatMap_cons

@[simp] theorem addresses_append (ps qs : List Piece) :
    addresses (ps ++ qs) = addresses ps ++ addresses qs := List.flatMap_append

@[simp] theorem total_nil : total [] = 0 := rfl

@[simp] theorem total_cons (p : Piece) (ps : List Piece) : total (p :: ps) = p.len + total ps :=
  List.sum_cons

@[simp] theorem total_append (ps qs : List Piece) : total (ps ++ qs) = total ps + total qs := by
  simp [total]

@[simp] theorem Piece.length_addresses (p : Piece) : p.addresses.length = p.len := by
  simp [Piece.addresses]

@[simp] theorem length_addresses (ps : List Piece) : (addresses ps).length = total ps := by
  induction ps with
  | nil => rfl
  | cons p ps ih => simp [ih]

theorem Piece.getElem?_addresses {p : Piece} {k : ℕ} (hk : k < p.len) :
    p.addresses[k]? = some (p.base + k) := by
  simp [Piece.addresses, hk]

/-! ## Parts -/

/-- A part of a piece. -/
theorem Piece.addresses_part (p : Piece) {a b : ℕ} (hb : b ≤ p.len) :
    Piece.addresses ⟨p.base + a, b - a⟩ = (p.addresses.take b).drop a := by
  apply List.ext_getElem?
  intro k
  simp only [Piece.addresses, List.getElem?_map, List.getElem?_drop, List.getElem?_take]
  by_cases hk : k < b - a
  · have hkb : a + k < b := by omega
    have hkl : a + k < p.len := by omega
    simp [hk, hkb, hkl, Nat.add_assoc]
  · have hkb : ¬ a + k < b := by omega
    simp [hk, hkb]

/-- The part of a buffer is made of the parts of its pieces. -/
theorem part_cons (p : Piece) (ps : List Piece) (a b : ℕ) :
    ((addresses (p :: ps)).take b).drop a =
      (p.addresses.take b).drop a ++ ((addresses ps).take (b - p.len)).drop (a - p.len) := by
  rw [addresses_cons, List.take_append, List.drop_append, List.length_take,
    Piece.length_addresses]
  by_cases hb : b ≤ p.len
  · rw [Nat.sub_eq_zero_of_le hb]
    simp
  · rw [min_eq_right (by omega)]

/-! ## Cursors -/

/-- The cursor in the piece `i`, `ii` bytes behind its start, stands before the byte `n`. -/
structure At (ps : List Piece) (i ii n : ℕ) : Prop where
  le : i ≤ ps.length
  place : total (ps.take i) + ii = n
  inside : ii = 0 ∨ ∃ p, ps[i]? = some p ∧ ii < p.len

theorem At.zero (ps : List Piece) : At ps 0 0 0 := ⟨Nat.zero_le _, rfl, .inl rfl⟩

section Cursor

variable {ps : List Piece} {i ii n : ℕ} {p : Piece}

/-- **A cursor with bytes before it is inside the list.** -/
theorem At.piece (h : At ps i ii n) (hn : n < total ps) : ∃ p, ps[i]? = some p ∧ ii ≤ p.len := by
  rcases h.inside with rfl | ⟨p, hp, hii⟩
  · by_cases hi : i < ps.length
    · exact ⟨ps[i], List.getElem?_eq_getElem hi, Nat.zero_le _⟩
    · have hplace := h.place
      rw [List.take_of_length_le (by omega)] at hplace
      omega
  · exact ⟨p, hp, hii.le⟩

theorem split_at (hp : ps[i]? = some p) : ps = ps.take i ++ p :: ps.drop (i + 1) := by
  obtain ⟨hi, rfl⟩ := List.getElem?_eq_some_iff.mp hp
  rw [← List.drop_eq_getElem_cons hi, List.take_append_drop]

/-- **The addresses before the cursor.** -/
theorem At.address (h : At ps i ii n) (hp : ps[i]? = some p) {k : ℕ} (hk : ii + k < p.len) :
    (addresses ps)[n + k]? = some (p.base + ii + k) := by
  rw [split_at hp, addresses_append, addresses_cons,
    List.getElem?_append_right (by rw [length_addresses, ← h.place]; omega), length_addresses,
    ← h.place, Nat.add_assoc, Nat.add_sub_cancel_left,
    List.getElem?_append_left (by rwa [Piece.length_addresses]), Piece.getElem?_addresses hk,
    Nat.add_assoc]

theorem total_take_succ (hp : ps[i]? = some p) :
    total (ps.take (i + 1)) = total (ps.take i) + p.len := by
  rw [List.take_add_one, hp, total_append]
  simp

/-- The bytes before the cursor in its piece are bytes of the buffer. -/
theorem At.le_total (h : At ps i ii n) (hp : ps[i]? = some p) (hii : ii ≤ p.len) :
    n + (p.len - ii) ≤ total ps := by
  have hsplit := congrArg total (split_at hp)
  rw [total_append, total_cons] at hsplit
  have := h.place
  omega

/-- **The cursor moves.** -/
theorem At.advance (h : At ps i ii n) (hp : ps[i]? = some p) {m : ℕ} (hm : ii + m ≤ p.len) :
    At ps (if ii + m = p.len then i + 1 else i) (if ii + m = p.len then 0 else ii + m) (n + m) := by
  have hplace := h.place
  split_ifs with hall
  · refine ⟨(List.getElem?_eq_some_iff.mp hp).1, ?_, .inl rfl⟩
    rw [total_take_succ hp]
    omega
  · exact ⟨h.le, by omega, .inr ⟨p, hp, by omega⟩⟩

end Cursor

/-! ## Copying -/

section Copy

variable {β : Type u}

/-- `memcpy`. -/
def memcpy (memory : ℕ → β) (dst src n : ℕ) : ℕ → β := fun x =>
  if dst ≤ x ∧ x < dst + n then memory (src + (x - dst)) else memory x

/-- The first `n` bytes at `S` are at `D` too, and the rest of the memory is as it was. -/
structure Transferred (D S : List ℕ) (before : ℕ → β) (n : ℕ) (memory : ℕ → β) : Prop where
  bytes : ∀ k < n, ∀ d s, D[k]? = some d → S[k]? = some s → memory d = before s
  rest : ∀ x ∉ D, memory x = before x

theorem Transferred.zero (D S : List ℕ) (before : ℕ → β) : Transferred D S before 0 before :=
  ⟨fun k hk => absurd hk (Nat.not_lt_zero k), fun _ _ => rfl⟩

/-- **Copying the next run of addresses.** -/
theorem Transferred.copy {D S : List ℕ} {before memory : ℕ → β} {n m d s : ℕ}
    (h : Transferred D S before n memory) (hnodup : D.Nodup) (hdisjoint : ∀ x ∈ S, x ∉ D)
    (hD : ∀ k < m, D[n + k]? = some (d + k)) (hS : ∀ k < m, S[n + k]? = some (s + k)) :
    Transferred D S before (n + m) (memcpy memory d s m) := by
  have hmem : ∀ x, d ≤ x → x < d + m → x ∈ D := by
    intro x hlo hhi
    have hx := hD (x - d) (by omega)
    rw [Nat.add_sub_cancel' hlo] at hx
    exact List.mem_of_getElem? hx
  refine ⟨fun k hk x y hx hy => ?_, fun x hx => ?_⟩
  · by_cases hold : k < n
    · -- an earlier byte: no address of the run is its address
      have hout : ¬ (d ≤ x ∧ x < d + m) := by
        rintro ⟨hlo, hhi⟩
        have hsame := hD (x - d) (by omega)
        rw [Nat.add_sub_cancel' hlo] at hsame
        have := (List.nodup_iff_getElem?_ne_getElem?.mp hnodup) k (n + (x - d)) (by omega)
          (List.getElem?_eq_some_iff.mp hsame).1
        exact this (hx.trans hsame.symm)
      rw [memcpy, if_neg hout]
      exact h.bytes k hold x y hx hy
    · have hk' : k - n < m := by omega
      have hxd := hD (k - n) hk'
      have hys := hS (k - n) hk'
      rw [Nat.add_sub_cancel' (by omega)] at hxd hys
      obtain rfl := Option.some.inj (hx.symm.trans hxd)
      obtain rfl := Option.some.inj (hy.symm.trans hys)
      rw [memcpy, if_pos ⟨by omega, by omega⟩, Nat.add_sub_cancel_left]
      exact h.rest _ (hdisjoint _ (List.mem_of_getElem? hy))
  · have hout : ¬ (d ≤ x ∧ x < d + m) := fun ⟨hlo, hhi⟩ => hx (hmem x hlo hhi)
    rw [memcpy, if_neg hout]
    exact h.rest x hx

/-- The bytes that were copied, as they are read in their order. -/
theorem Transferred.map_take {D S : List ℕ} {before memory : ℕ → β} {n : ℕ}
    (h : Transferred D S before n memory) (hD : n ≤ D.length) (hS : n ≤ S.length) :
    (D.take n).map memory = (S.take n).map before := by
  apply List.ext_getElem
  · simp [hD, hS]
  · intro k hk hk'
    have hkn : k < n := by
      rw [List.length_map, List.length_take] at hk
      omega
    rw [List.getElem_map, List.getElem_map, List.getElem_take, List.getElem_take]
    exact h.bytes k hkn _ _ (List.getElem?_eq_getElem _) (List.getElem?_eq_getElem _)

end Copy

end Scatter
