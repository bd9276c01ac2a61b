import GlusterFS.CommonUtils.IovLength
import GlusterFS.Lib.Scatter

/-!
# Vectors of buffers

`iov_subset` and `iov_copy` of the common utilities.  The first gives the pieces of a part of a
buffer, or only their number when there is no vector to store them in; it is what the page caches
put their replies together with.  The second copies one scattered buffer over another.

Both mix signed and unsigned numbers of different widths: offsets are `off_t`, lengths `size_t`,
the places in the pieces `int`, and `iov_length` returns an `int`.  The model converts where the
source does, and the proofs show that below `2 ^ 31` bytes the conversions change nothing.
`iov_copy` takes the smaller of two `iov_length`, and copies right exactly if this is the smaller of
the two lengths (`iovSubset_iovCopy_iff`); otherwise it may leave the shorter buffer
(`iovCopy_outside`).
-/

namespace GlusterFS.CommonUtils

open Scatter

/-! ## A part of a vector -/

/-- The variables of the loop of `iov_subset`. -/
structure SubsetLoop where
  offset : ℤ
  newCount : ℕ
  new : List Piece

/-- One round of the loop; `store` is whether `new` is not `NULL`. -/
def iovSubsetRound (srcOffset dstOffset : ℤ) (store : Bool) (s : SubsetLoop) (orig : Piece) :
    SubsetLoop :=
  let next := offT (s.offset + orig.len)
  if sizeT (s.offset + orig.len) < sizeT srcOffset ∨ s.offset > dstOffset then
    { s with offset := next }
  else if store = false then { s with offset := next, newCount := s.newCount + 1 }
  else
    let startOffset := if srcOffset ≥ s.offset then sizeT (srcOffset - s.offset) else 0
    let endOffset :=
      if sizeT dstOffset ≤ sizeT (s.offset + orig.len) then sizeT (dstOffset - s.offset)
      else orig.len
    { offset := next
      newCount := s.newCount + 1
      new := s.new ++ [⟨orig.base + startOffset, sizeT ((endOffset : ℤ) - startOffset)⟩] }

/-- `iov_subset`: the number it returns and what it stores in `new`. -/
def iovSubset (orig : List Piece) (srcOffset dstOffset : ℤ) (store : Bool) : ℕ × List Piece :=
  let s := orig.foldl (iovSubsetRound srcOffset dstOffset store) ⟨0, 0, []⟩
  (s.newCount, s.new)

/-- One round, in numbers that do not overflow. -/
theorem iovSubsetRound_eq {a b o : ℕ} (hab : a ≤ b) (hb : b < 2 ^ 31) {p : Piece}
    (hsmall : o + p.len < 2 ^ 31) (count : ℕ) (new : List Piece) (store : Bool) :
    iovSubsetRound a b store ⟨o, count, new⟩ p =
      if o + p.len < a ∨ b < o then ⟨(o + p.len : ℕ), count, new⟩
      else ⟨(o + p.len : ℕ), count + 1,
        if store = true then new ++ [⟨p.base + (a - o), min p.len (b - o) - (a - o)⟩] else new⟩ := by
  have hsum : sizeT ((o : ℤ) + p.len) = o + p.len := by
    rw [← Nat.cast_add, sizeT_natCast (by omega)]
  have hnext : offT ((o : ℤ) + p.len) = ((o + p.len : ℕ) : ℤ) := by
    rw [← Nat.cast_add, offT_natCast (by omega)]
  have ha : sizeT (a : ℤ) = a := sizeT_natCast (by omega)
  have hb' : sizeT (b : ℤ) = b := sizeT_natCast (by omega)
  simp only [iovSubsetRound, hsum, hnext, ha, hb', gt_iff_lt, Nat.cast_lt, ge_iff_le, Nat.cast_le]
  by_cases hout : o + p.len < a ∨ b < o
  · rw [if_pos hout, if_pos hout]
  rw [if_neg hout, if_neg hout]
  cases store with
  | false => rfl
  | true =>
      have hstart : (if o ≤ a then sizeT ((a : ℤ) - o) else 0) = a - o := by
        split_ifs with hle
        · rw [← Nat.cast_sub hle, sizeT_natCast (by omega)]
        · omega
      have hend : (if b ≤ o + p.len then sizeT ((b : ℤ) - o) else p.len) = min p.len (b - o) := by
        split_ifs with hle
        · rw [← Nat.cast_sub (by omega), sizeT_natCast (by omega)]
          omega
        · omega
      have hlen : sizeT (((min p.len (b - o) : ℕ) : ℤ) - ((a - o : ℕ) : ℤ)) =
          min p.len (b - o) - (a - o) := by
        rw [← Nat.cast_sub (by omega), sizeT_natCast (by omega)]
      simp only [hstart, hend, hlen, Bool.true_eq_false, if_false, if_true]

/-- The pieces behind the offset `o`: those stored are the part between `a` and `b`, and their
number does not depend on storing them. -/
theorem iovSubset_loop {a b : ℕ} (hab : a ≤ b) (hb : b < 2 ^ 31) (orig : List Piece) {o : ℕ}
    (hsmall : o + total orig < 2 ^ 31) (new new' : List Piece) :
    let stored := orig.foldl (iovSubsetRound a b true) ⟨o, new.length, new⟩
    stored.newCount = stored.new.length ∧
      addresses stored.new = addresses new ++ ((addresses orig).take (b - o)).drop (a - o) ∧
      (orig.foldl (iovSubsetRound a b false) ⟨o, new.length, new'⟩).newCount =
        stored.newCount := by
  induction orig generalizing o new with
  | nil => simp
  | cons p orig ih =>
      rw [total_cons] at hsmall
      have hround := fun store new' =>
        iovSubsetRound_eq hab hb (p := p) (o := o) (by omega) new.length new' store
      have hb' : b - (o + p.len) = b - o - p.len := by omega
      have ha' : a - (o + p.len) = a - o - p.len := by omega
      simp only [List.foldl_cons, hround, if_true, Bool.false_eq_true, if_false]
      rw [part_cons, ← hb', ← ha']
      by_cases hout : o + p.len < a ∨ b < o
      · -- the piece is outside, and so is its part
        have hempty : (p.addresses.take (b - o)).drop (a - o) = [] := by
          rw [List.drop_eq_nil_iff, List.length_take, Piece.length_addresses]
          omega
        rw [if_pos hout, if_pos hout, hempty, List.nil_append]
        exact ih (by omega) new
      · have hpart : Piece.addresses ⟨p.base + (a - o), min p.len (b - o) - (a - o)⟩ =
            (p.addresses.take (b - o)).drop (a - o) := by
          rw [p.addresses_part (min_le_left _ _), min_comm, ← p.length_addresses,
            ← List.take_eq_take_min]
        rw [if_neg hout, if_neg hout]
        have hnext := ih (o := o + p.len) (by omega)
          (new ++ [⟨p.base + (a - o), min p.len (b - o) - (a - o)⟩])
        rw [List.length_append, List.length_singleton] at hnext
        rw [addresses_append, addresses_cons, addresses_nil, List.append_nil, hpart,
          List.append_assoc] at hnext
        exact hnext

/-- **The part of a vector.** -/
theorem iovSubset_spec {orig : List Piece} (hsmall : total orig < 2 ^ 31) {a b : ℕ} (hab : a ≤ b)
    (hb : b ≤ total orig) :
    (iovSubset orig a b false).1 = (iovSubset orig a b true).1 ∧
      (iovSubset orig a b true).1 = (iovSubset orig a b true).2.length ∧
      addresses (iovSubset orig a b true).2 = ((addresses orig).take b).drop a := by
  obtain ⟨hcount, hpart, hsame⟩ :=
    iovSubset_loop hab (by omega) orig (o := 0) (by omega) [] []
  exact ⟨hsame, hcount, hpart⟩

/-! ## Copying -/

/-- The variables of the loop of `iov_copy`. -/
structure CopyLoop (β : Type) where
  memory : ℕ → β
  left : ℕ
  dI : ℕ
  dIi : ℤ
  sI : ℕ
  sIi : ℤ

/-- How a copy ends. -/
inductive CopyEnd (β : Type)
  /-- All is copied, and the number is returned. -/
  | done (memory : ℕ → β) (ret : ℕ)
  /-- An index is outside its list. -/
  | outside

variable {β : Type}

/-- The piece and the place in it after `min_i` more bytes. -/
def advance (p : Piece) (i : ℕ) (ii : ℤ) (minI : ℕ) : ℕ × ℤ :=
  let ii := cInt (ii + minI)
  if sizeT ii = p.len then (i + 1, 0) else (i, ii)

/-- One round of the loop of `iov_copy` with the pieces `d` and `r`. -/
def iovCopyRound (d r : Piece) (s : CopyLoop β) : CopyLoop β :=
  let minI := min (sizeT (d.len - s.dIi)) (sizeT (r.len - s.sIi))
  let memory := memcpy s.memory (d.base + s.dIi).toNat (r.base + s.sIi).toNat minI
  let dst := advance d s.dI s.dIi minI
  let src := advance r s.sI s.sIi minI
  { memory := memory
    left := sizeT (s.left - minI)
    dI := dst.1
    dIi := dst.2
    sI := src.1
    sIi := src.2 }

/-- The loop of `iov_copy`, which returns `ret`. -/
def iovCopyLoop (dst src : List Piece) (ret : ℕ) : ℕ → CopyLoop β → Option (CopyEnd β)
  | 0, _ => none
  | fuel + 1, s =>
      if s.left = 0 then some (.done s.memory ret)
      else
        match dst[s.dI]?, src[s.sI]? with
        | some d, some r => iovCopyLoop dst src ret fuel (iovCopyRound d r s)
        | _, _ => some .outside

/-- `iov_copy`. -/
def iovCopy (dst src : List Piece) (fuel : ℕ) (memory : ℕ → β) : Option (CopyEnd β) :=
  let ret := sizeT (min (iovLength (dst.map Piece.len)) (iovLength (src.map Piece.len)))
  iovCopyLoop dst src ret fuel ⟨memory, ret, 0, 0, 0, 0⟩

/-- A cursor moves over some bytes of its piece, among the first `2 ^ 31` of the buffer. -/
theorem advance_spec {ps : List Piece} {i ii n : ℕ} {p : Piece} (h : At ps i ii n)
    (hp : ps[i]? = some p) {m : ℕ} (hm : ii + m ≤ p.len) (hsmall : n + m < 2 ^ 31) :
    ∃ i' ii' : ℕ, advance p i ii m = (i', (ii' : ℤ)) ∧ At ps i' ii' (n + m) ∧
      i ≤ i' ∧ (ii + m = p.len → i' = i + 1) := by
  have hplace := h.place
  have hcint : cInt ((ii : ℤ) + m) = ((ii + m : ℕ) : ℤ) := by
    rw [← Nat.cast_add, cInt_natCast (by omega)]
  have hsize : sizeT ((ii + m : ℕ) : ℤ) = ii + m := sizeT_natCast (by omega)
  have hadvance := h.advance hp hm
  simp only [advance, hcint, hsize]
  split_ifs at hadvance ⊢ with hall
  · exact ⟨i + 1, 0, rfl, hadvance, by omega, fun _ => rfl⟩
  · exact ⟨i, ii + m, rfl, hadvance, le_rfl, fun h => absurd h hall⟩

section Copy

variable {dst src : List Piece} {before : ℕ → β}

/-- What a copy needs: the shorter buffer is below `2 ^ 31` bytes, lengths are `size_t`, and no byte
is written twice or read after it was written. -/
structure Copyable (dst src : List Piece) : Prop where
  short : min (total dst) (total src) < 2 ^ 31
  dstLen : ∀ p ∈ dst, p.len < 2 ^ 64
  srcLen : ∀ p ∈ src, p.len < 2 ^ 64
  nodup : (addresses dst).Nodup
  disjoint : ∀ x ∈ addresses src, x ∉ addresses dst

/-- After `n` bytes: both cursors stand before the byte `n`. -/
structure Copying (dst src : List Piece) (before : ℕ → β) (n : ℕ) (s : CopyLoop β) : Prop where
  left : s.left + n = min (total dst) (total src)
  dstAt : ∃ ii : ℕ, s.dIi = ii ∧ At dst s.dI ii n
  srcAt : ∃ ii : ℕ, s.sIi = ii ∧ At src s.sI ii n
  transferred : Transferred (addresses dst) (addresses src) before n s.memory

/-- **One round**: the pieces exist, and one of them is used up. -/
theorem Copying.round {n : ℕ} {s : CopyLoop β} (h : Copying dst src before n s)
    (hcopy : Copyable dst src) (hleft : s.left ≠ 0) :
    ∃ d r m, dst[s.dI]? = some d ∧ src[s.sI]? = some r ∧
      Copying dst src before (n + m) (iovCopyRound d r s) ∧
      s.dI + s.sI < (iovCopyRound d r s).dI + (iovCopyRound d r s).sI := by
  obtain ⟨dIi, hdIi, hdAt⟩ := h.dstAt
  obtain ⟨sIi, hsIi, hsAt⟩ := h.srcAt
  have hsum := h.left
  have hshort := hcopy.short
  obtain ⟨d, hd, hdle⟩ := hdAt.piece (by omega)
  obtain ⟨r, hr, hrle⟩ := hsAt.piece (by omega)
  have hdlen := hcopy.dstLen d (List.mem_of_getElem? hd)
  have hrlen := hcopy.srcLen r (List.mem_of_getElem? hr)
  have hdtotal := hdAt.le_total hd hdle
  have hrtotal := hsAt.le_total hr hrle
  obtain ⟨m, hm⟩ : ∃ m, m = min (d.len - dIi) (r.len - sIi) := ⟨_, rfl⟩
  have hmin : min (sizeT (d.len - s.dIi)) (sizeT (r.len - s.sIi)) = m := by
    rw [hdIi, hsIi, ← Nat.cast_sub hdle, ← Nat.cast_sub hrle, sizeT_natCast (by omega),
      sizeT_natCast (by omega), hm]
  have hdm : dIi + m ≤ d.len := by omega
  have hrm : sIi + m ≤ r.len := by omega
  have hm_left : m ≤ s.left := by omega
  have hfull : dIi + m = d.len ∨ sIi + m = r.len := by omega
  clear hm
  obtain ⟨dI', dIi', hdadv, hdAt', hdmono, hdfull⟩ := advance_spec hdAt hd hdm (by omega)
  obtain ⟨sI', sIi', hsadv, hsAt', hsmono, hsfull⟩ := advance_spec hsAt hr hrm (by omega)
  have hdbase : (d.base + s.dIi).toNat = d.base + dIi := by omega
  have hrbase : (r.base + s.sIi).toNat = r.base + sIi := by omega
  have hround : iovCopyRound d r s =
      ⟨memcpy s.memory (d.base + dIi) (r.base + sIi) m, s.left - m, dI', dIi', sI', sIi'⟩ := by
    have hleft' : sizeT ((s.left : ℤ) - m) = s.left - m := by
      rw [← Nat.cast_sub hm_left, sizeT_natCast (by omega)]
    simp only [iovCopyRound, hmin, hdbase, hrbase, hleft']
    rw [hdIi, hsIi, hdadv, hsadv]
  refine ⟨d, r, m, hd, hr, ?_, ?_⟩
  · rw [hround]
    refine ⟨?_, ⟨dIi', rfl, hdAt'⟩, ⟨sIi', rfl, hsAt'⟩,
      h.transferred.copy hcopy.nodup hcopy.disjoint (fun k hk => ?_) fun k hk => ?_⟩
    · show s.left - m + (n + m) = _
      omega
    · exact hdAt.address hd (by omega)
    · exact hsAt.address hr (by omega)
  · rw [hround]
    show s.dI + s.sI < dI' + sI'
    rcases hfull with hfull | hfull
    · have := hdfull hfull
      omega
    · have := hsfull hfull
      omega

/-- **The loop**, with fuel for every piece of the two buffers. -/
theorem Copying.loop {n : ℕ} {s : CopyLoop β} (h : Copying dst src before n s)
    (hcopy : Copyable dst src) (ret : ℕ) {fuel : ℕ}
    (hfuel : dst.length + src.length < fuel + (s.dI + s.sI)) :
    ∃ memory, iovCopyLoop dst src ret fuel s = some (.done memory ret) ∧
      Transferred (addresses dst) (addresses src) before (min (total dst) (total src)) memory := by
  induction fuel generalizing n s with
  | zero =>
      obtain ⟨_, _, hdAt⟩ := h.dstAt
      obtain ⟨_, _, hsAt⟩ := h.srcAt
      have := hdAt.le
      have := hsAt.le
      omega
  | succ fuel ih =>
      by_cases hleft : s.left = 0
      · refine ⟨s.memory, if_pos hleft, ?_⟩
        have hsum := h.left
        rw [hleft, Nat.zero_add] at hsum
        exact hsum ▸ h.transferred
      · obtain ⟨d, r, m, hd, hr, hnext, hmore⟩ := h.round hcopy hleft
        obtain ⟨memory, hloop, htransferred⟩ := ih hnext (by omega)
        refine ⟨memory, ?_, htransferred⟩
        rw [iovCopyLoop, if_neg hleft, hd, hr]
        exact hloop

/-- The smaller of two `iov_length`, as `iov_copy` uses it. -/
def minLength (dst src : List Piece) : ℤ :=
  min (iovLength (dst.map Piece.len)) (iovLength (src.map Piece.len))

/-- The copy ends without using an index outside the lists, returns the length of the shorter buffer
and fills the first bytes of the destination, with fuel for every piece of the two. -/
def CopiesShorter (β : Type) (dst src : List Piece) : Prop :=
  ∀ (before : ℕ → β) (fuel : ℕ), dst.length + src.length < fuel →
    ∃ memory, iovCopy dst src fuel before = some (.done memory (min (total dst) (total src))) ∧
      ((addresses dst).take (min (total dst) (total src))).map memory =
        ((addresses src).take (min (total dst) (total src))).map before

/-- **The copy**, when the smaller `iov_length` is the smaller length. -/
theorem iovCopy_spec (hcopy : Copyable dst src)
    (hlength : minLength dst src = (min (total dst) (total src) : ℕ)) : CopiesShorter β dst src := by
  intro before fuel hfuel
  have hret : sizeT (minLength dst src) = min (total dst) (total src) := by
    have hshort := hcopy.short
    rw [hlength, sizeT_natCast (by omega)]
  have hstart : Copying dst src before 0
      ⟨before, min (total dst) (total src), 0, 0, 0, 0⟩ :=
    ⟨rfl, ⟨0, rfl, .zero dst⟩, ⟨0, rfl, .zero src⟩, .zero _ _ _⟩
  obtain ⟨memory, hloop, htransferred⟩ := hstart.loop hcopy (min (total dst) (total src)) hfuel
  refine ⟨memory, ?_, htransferred.map_take ?_ ?_⟩
  · rw [iovCopy]
    rw [minLength] at hret
    rw [hret]
    exact hloop
  · exact (min_le_left _ _).trans (length_addresses dst).ge
  · exact (min_le_right _ _).trans (length_addresses src).ge

/-- The loop returns the number that it began with. -/
theorem ret_eq_of_done {ret ret' fuel : ℕ} {s : CopyLoop β} {memory : ℕ → β}
    (h : iovCopyLoop dst src ret fuel s = some (.done memory ret')) : ret' = ret := by
  induction fuel generalizing s with
  | zero => cases h
  | succ fuel ih =>
      rw [iovCopyLoop] at h
      split_ifs at h
      · exact (CopyEnd.done.inj (Option.some.inj h)).2.symm
      · split at h
        · exact ih h
        · cases h

/-- Another number is not the length of the shorter buffer, not even as a `size_t`. -/
theorem minLength_eq_of_copies [Inhabited β] (hcopy : Copyable dst src)
    (h : CopiesShorter β dst src) : minLength dst src = (min (total dst) (total src) : ℕ) := by
  obtain ⟨memory, hdone, -⟩ := h default _ (Nat.lt_succ_self _)
  have hret : min (total dst) (total src) = sizeT (minLength dst src) := ret_eq_of_done hdone
  have hshort := hcopy.short
  have hbounds := iovLength_bounds (dst.map Piece.len)
  have hbounds' := iovLength_bounds (src.map Piece.len)
  have hmin : -2 ^ 31 ≤ minLength dst src ∧ minLength dst src < 2 ^ 31 := by
    rw [minLength]
    omega
  rw [hret] at hshort ⊢
  unfold sizeT at hshort ⊢
  omega

end Copy

/-- **A part of a vector below `2 ^ 31` bytes is that part of its bytes, counted or stored; and a copy
between it and another buffer, in either direction, fills the shorter one if and only if the smaller
`iov_length` is the smaller length.** -/
theorem iovSubset_iovCopy_iff [Inhabited β] {orig other : List Piece} (horig : total orig < 2 ^ 31)
    (hother : ∀ p ∈ other, p.len < 2 ^ 64)
    (hdisjoint : ∀ x ∈ addresses orig, x ∉ addresses other) :
    (∀ a b : ℕ, a ≤ b → b ≤ total orig →
      (iovSubset orig a b false).1 = (iovSubset orig a b true).1 ∧
        (iovSubset orig a b true).1 = (iovSubset orig a b true).2.length ∧
        addresses (iovSubset orig a b true).2 = ((addresses orig).take b).drop a) ∧
      ∀ dst src, (dst = orig ∧ src = other ∨ dst = other ∧ src = orig) → (addresses dst).Nodup →
        (CopiesShorter β dst src ↔ minLength dst src = (min (total dst) (total src) : ℕ)) := by
  have hlen : ∀ p ∈ orig, p.len < 2 ^ 64 := fun p hp =>
    lt_of_le_of_lt (List.single_le_sum (fun _ _ => Nat.zero_le _) _ (List.mem_map_of_mem hp))
      (horig.trans (by norm_num))
  refine ⟨fun a b hab hb => iovSubset_spec horig hab hb, fun dst src hwhich hnodup => ?_⟩
  have hcopy : Copyable dst src := by
    obtain ⟨rfl, rfl⟩ | ⟨rfl, rfl⟩ := hwhich
    · exact ⟨(min_le_left _ _).trans_lt horig, hlen, hother, hnodup,
        fun x hx hx' => hdisjoint x hx' hx⟩
    · exact ⟨(min_le_right _ _).trans_lt horig, hother, hlen, hnodup, hdisjoint⟩
  exact ⟨minLength_eq_of_copies hcopy, iovCopy_spec hcopy⟩

/-- Two pieces with an empty one between them, copied over three. -/
theorem iovSubset_iovCopy_iff_pieces :
    ∃ memory, iovCopy [⟨10, 1⟩, ⟨20, 3⟩, ⟨30, 2⟩] [⟨100, 2⟩, ⟨0, 0⟩, ⟨200, 3⟩] 7 id =
        some (.done memory 5) ∧
      ([10, 20, 21, 22, 30] : List ℕ).map memory = [100, 101, 200, 201, 202] := by
  have hdst : total [⟨10, 1⟩, ⟨20, 3⟩, ⟨30, 2⟩] < 2 ^ 31 := by decide
  have hcopy := ((iovSubset_iovCopy_iff (β := ℕ) hdst (by decide) (by decide)).2 _
    [⟨100, 2⟩, ⟨0, 0⟩, ⟨200, 3⟩] (.inl ⟨rfl, rfl⟩) (by decide)).mpr (by decide)
  exact hcopy id 7 (by decide)

/-- A source of `2 ^ 31` bytes has a negative `iov_length`, which is the smaller one: the copy of
its first byte is followed by one to a piece that the destination does not have. -/
theorem iovCopy_outside :
    total [⟨0, 1⟩] = 1 ∧ total [⟨1, 2 ^ 31⟩] = 2 ^ 31 ∧
      ∀ memory : ℕ → ℕ, iovCopy [⟨0, 1⟩] [⟨1, 2 ^ 31⟩] 2 memory = some .outside := by
  refine ⟨rfl, rfl, fun memory => ?_⟩
  have hret : sizeT (min (iovLength [1]) (iovLength [2 ^ 31])) = 2 ^ 64 - 2 ^ 31 := by decide
  have hround : ∃ memory' : ℕ → ℕ, ∃ sI sIi,
      iovCopyRound ⟨0, 1⟩ ⟨1, 2 ^ 31⟩ ⟨memory, 2 ^ 64 - 2 ^ 31, 0, 0, 0, 0⟩ =
        ⟨memory', 2 ^ 64 - 2 ^ 31 - 1, 1, 0, sI, sIi⟩ := by
    have hmin : min (sizeT ((1 : ℕ) - 0)) (sizeT ((2 ^ 31 : ℕ) - 0)) = 1 := by decide
    have hleft : sizeT (((2 ^ 64 - 2 ^ 31 : ℕ) : ℤ) - (1 : ℕ)) = 2 ^ 64 - 2 ^ 31 - 1 := by decide
    have hadvance : advance ⟨0, 1⟩ 0 0 1 = (1, 0) := by decide
    simp only [iovCopyRound, hmin, hleft, hadvance]
    exact ⟨_, _, _, rfl⟩
  obtain ⟨memory', sI, sIi, hround⟩ := hround
  rw [iovCopy]
  simp only [List.map_cons, List.map_nil]
  rw [hret, iovCopyLoop, if_neg (show 2 ^ 64 - 2 ^ 31 ≠ 0 by decide)]
  simp only [List.getElem?_cons_zero]
  rw [hround, iovCopyLoop, if_neg (show 2 ^ 64 - 2 ^ 31 - 1 ≠ 0 by decide)]
  rfl

end GlusterFS.CommonUtils
