import GlusterFS.Lib.IndexedOffset

/-!
# Directory offsets through distribute and disperse

`ec_itransform` puts the index of a brick into the offsets of a directory that it lists, and
`dht_itransform` above it puts the index of the subvolume into the result.  Both use the
same code (`IndexedOffset`), with their own number of places.  An application gets the
offset that comes out on top, and gives it back to go on.

The index of the outer layer always comes back.  The one of the inner layer need not: it
stands in the lowest bits of the offset, and these are what the outer layer drops when the
offset is huge for it.  `Resumes` is the exact condition for it to survive.
-/

namespace GlusterFS.Dht

open IndexedOffset

/-! ## The model -/

/-- The loop of `dht_bits_for` and of `ec_parse_options`, which counts the bits that a number
of places needs. -/
def bitsLoop (num : ℕ) : ℕ → ℕ → ℕ → ℕ
  | 0, _, bits => bits
  | fuel + 1, ctrl, bits =>
      if ctrl < num then bitsLoop num fuel (ctrl * 2 % 2 ^ 64) (bits + 1) else bits

/-- `dht_bits_for`. -/
def dhtBitsFor (num : ℕ) : ℕ := bitsLoop num 64 1 0

/-- `ec->bits_for_nodes`. -/
def bitsForNodes (nodes : ℕ) : ℕ := bitsLoop nodes 64 2 1

/-- `dht_itransform`; `max` is `conf->subvolume_cnt` and `cnt` the index of the subvolume. -/
def dhtItransform (max cnt : ℕ) (x : BitVec 64) : BitVec 64 :=
  if x = -1 then -1
  else if max = 1 then x
  else transform (dhtBitsFor max) max cnt x

/-- `dht_deitransform`. -/
def dhtDeitransform (max : ℕ) (y : BitVec 64) : ℕ × BitVec 64 :=
  if max = 1 then (0, y) else detransform (dhtBitsFor max) max y

/-- `ec_itransform`. -/
def ecItransform (nodes idx : ℕ) (offset : BitVec 64) : BitVec 64 :=
  if offset = -1 then -1 else transform (bitsForNodes nodes) nodes idx offset

/-- `ec_deitransform`. -/
def ecDeitransform (nodes : ℕ) (offset : BitVec 64) : ℕ × BitVec 64 :=
  detransform (bitsForNodes nodes) nodes offset

/-! ## The condition -/

/-- The subvolume and the brick that a presented offset leads to. -/
def resumeAt (max nodes cnt idx : ℕ) (off : BitVec 64) : ℕ × ℕ :=
  let presented := dhtItransform max cnt (ecItransform nodes idx off)
  let (subvol, x) := dhtDeitransform max presented
  (subvol, (ecDeitransform nodes x).1)

/-- There is one subvolume only; or the offset is small for disperse, and what disperse makes
of it is small for distribute or loses a multiple of the number of bricks; or the offset is
huge, and the index of the brick has no bits where distribute drops them. -/
def Resumes (max nodes idx off : ℕ) : Prop :=
  max = 1 ∨
    if off < 2 ^ (62 - Nat.max 1 (Nat.clog 2 nodes)) then
      off * nodes + idx < 2 ^ (62 - Nat.clog 2 max) ∨
        nodes ∣ (off * nodes + idx) % 2 ^ (Nat.clog 2 max + 1)
    else 2 ^ (Nat.clog 2 max + 1) ∣ idx

instance (max nodes idx off : ℕ) : Decidable (Resumes max nodes idx off) :=
  inferInstanceAs (Decidable (_ ∨ _))

/-! ## Counting bits -/

/-- The loop ends at the first power of two that is large enough. -/
theorem bitsLoop_eq {num : ℕ} (hnum : num ≤ 2 ^ 62) {fuel bits : ℕ} (hfuel : 62 ≤ fuel + bits) :
    bitsLoop num fuel (2 ^ bits) bits = Nat.max bits (Nat.clog 2 num) := by
  induction fuel generalizing bits with
  | zero =>
      have hclog : Nat.clog 2 num ≤ 62 := Nat.clog_le_of_le_pow hnum
      rw [bitsLoop]
      exact (Nat.max_eq_left (hclog.trans (by omega))).symm
  | succ fuel ih =>
      rw [bitsLoop]
      split
      · next hlt =>
        have hclog : bits < Nat.clog 2 num := (Nat.lt_clog_iff_pow_lt one_lt_two).mpr hlt
        have hbits : bits + 1 < 64 := by
          have : Nat.clog 2 num ≤ 62 := Nat.clog_le_of_le_pow hnum
          omega
        rw [← pow_succ, Nat.mod_eq_of_lt (Nat.pow_lt_pow_right one_lt_two hbits), ih (by omega)]
        exact (Nat.max_eq_right hclog).trans (Nat.max_eq_right hclog.le).symm
      · next hge =>
        exact (Nat.max_eq_left (Nat.clog_le_of_le_pow (by omega))).symm

theorem dhtBitsFor_eq {num : ℕ} (hnum : num ≤ 2 ^ 62) : dhtBitsFor num = Nat.clog 2 num :=
  (@bitsLoop_eq num hnum 64 0 (by norm_num)).trans (Nat.max_eq_right (Nat.zero_le _))

theorem bitsForNodes_eq {nodes : ℕ} (hnodes : nodes ≤ 2 ^ 62) :
    bitsForNodes nodes = Nat.max 1 (Nat.clog 2 nodes) :=
  @bitsLoop_eq nodes hnodes 64 1 (by norm_num)

theorem dhtBitsFor_le {num : ℕ} (hnum : num < 2 ^ 31) : dhtBitsFor num ≤ 31 := by
  rw [dhtBitsFor_eq (by omega)]
  exact Nat.clog_le_of_le_pow hnum.le

theorem le_pow_dhtBitsFor {num : ℕ} (hnum : num < 2 ^ 31) : num ≤ 2 ^ dhtBitsFor num := by
  rw [dhtBitsFor_eq (by omega)]
  exact Nat.le_pow_clog one_lt_two num

theorem bitsForNodes_le {nodes : ℕ} (hnodes : nodes < 2 ^ 31) : bitsForNodes nodes ≤ 31 := by
  rw [bitsForNodes_eq (by omega)]
  exact Nat.max_le.mpr ⟨by norm_num, Nat.clog_le_of_le_pow hnodes.le⟩

theorem le_pow_bitsForNodes {nodes : ℕ} (hnodes : nodes < 2 ^ 31) :
    nodes ≤ 2 ^ bitsForNodes nodes := by
  rw [bitsForNodes_eq (by omega)]
  exact (Nat.le_pow_clog one_lt_two nodes).trans
    (Nat.pow_le_pow_right two_pos (Nat.le_max_right _ _))

/-! ## Dropped bits -/

/-- Low bits are dropped from a number that carries an index in its low bits: the index
survives when it has none of the dropped bits. -/
theorem dropped_mod_pow_iff {x idx b m : ℕ} (hx : x % 2 ^ b = idx) :
    x / 2 ^ m * 2 ^ m % 2 ^ b = idx ↔ 2 ^ m ∣ idx := by
  have hidx : idx < 2 ^ b := hx ▸ Nat.mod_lt _ (Nat.two_pow_pos b)
  rcases Nat.le_total m b with hmb | hbm
  · have hdvd : 2 ^ m ∣ 2 ^ b := Nat.pow_dvd_pow 2 hmb
    constructor
    · intro h
      rw [← h, Nat.dvd_mod_iff hdvd]
      exact Nat.dvd_mul_left _ _
    · intro h
      rw [← hx, Nat.dvd_mod_iff hdvd] at h
      rw [Nat.div_mul_cancel h, hx]
  · have hzero : x / 2 ^ m * 2 ^ m % 2 ^ b = 0 :=
      Nat.mod_eq_zero_of_dvd ((Nat.pow_dvd_pow 2 hbm).trans (Nat.dvd_mul_left _ _))
    have hpow : 2 ^ b ≤ 2 ^ m := Nat.pow_le_pow_right two_pos hbm
    rw [hzero]
    constructor
    · rintro rfl
      exact Nat.dvd_zero _
    · intro h
      exact (Nat.eq_zero_of_dvd_of_lt h (hidx.trans_le hpow)).symm

/-- The same for an index that is a remainder. -/
theorem dropped_mod_iff {x idx n p : ℕ} (hx : x % n = idx) :
    x / p * p % n = idx ↔ n ∣ x % p := by
  have hsplit : x / p * p + x % p = x := by
    rw [Nat.mul_comm]
    exact Nat.div_add_mod x p
  have hle : x / p * p ≤ x := Nat.div_mul_le_self x p
  have hrest : x - x / p * p = x % p := by omega
  rw [← hx, ← hrest]
  exact Nat.modEq_iff_dvd' hle

/-! ## Going on -/

section Resume

variable {max nodes cnt idx off : ℕ}

theorem toNat_ofNat_off (hoff : off < 2 ^ 63) : (BitVec.ofNat 64 off).toNat = off := by
  rw [BitVec.toNat_ofNat, Nat.mod_eq_of_lt (by omega)]

theorem ne_neg_one {x : BitVec 64} (hx : x.toNat < 2 ^ 63) : x ≠ -1 := by
  rintro rfl
  exact absurd hx (by decide)

/-- What disperse makes of a small offset. -/
theorem ecItransform_small (hnodes : nodes < 2 ^ 31) (hidx : idx < nodes) (hoff : off < 2 ^ 63)
    (hsmall : off < 2 ^ (62 - bitsForNodes nodes)) :
    (ecItransform nodes idx (BitVec.ofNat 64 off)).toNat = off * nodes + idx ∧
      off * nodes + idx < 2 ^ 62 := by
  have hbits : bitsForNodes nodes ≤ 62 := (bitsForNodes_le hnodes).trans (by norm_num)
  have htoNat := toNat_ofNat_off hoff
  rw [← htoNat] at hoff hsmall
  rw [ecItransform, if_neg (ne_neg_one hoff),
    toNat_transform_small hbits hidx (le_pow_bitsForNodes hnodes) hsmall]
  rw [htoNat] at hsmall ⊢
  exact ⟨rfl, mul_add_lt hbits hsmall (le_pow_bitsForNodes hnodes) hidx⟩

/-- What disperse makes of a huge offset: the top bit is set, and the index stands in the low
bits. -/
theorem ecItransform_huge (hnodes : nodes < 2 ^ 31) (hidx : idx < nodes) (hoff : off < 2 ^ 63)
    (hhuge : 2 ^ (62 - bitsForNodes nodes) ≤ off) :
    2 ^ 62 ≤ (ecItransform nodes idx (BitVec.ofNat 64 off)).toNat ∧
      (ecItransform nodes idx (BitVec.ofNat 64 off)).toNat < 2 ^ 63 ∧
      (ecItransform nodes idx (BitVec.ofNat 64 off)).toNat % 2 ^ bitsForNodes nodes = idx := by
  have hbits : bitsForNodes nodes ≤ 62 := (bitsForNodes_le hnodes).trans (by norm_num)
  rw [← toNat_ofNat_off hoff] at hhuge
  have hoff' : (BitVec.ofNat 64 off).toNat < 2 ^ 63 := (toNat_ofNat_off hoff).trans_lt hoff
  rw [ecItransform, if_neg (ne_neg_one hoff')]
  exact transform_huge hbits (hidx.trans_le (le_pow_bitsForNodes hnodes)) hoff' hhuge

/-- What distribute gives back to disperse when there are several subvolumes: the subvolume,
and the offset without the low bits if it was huge. -/
theorem dht_round_trip (hmax : max < 2 ^ 31) (hcnt : cnt < max) (hone : max ≠ 1) {x : BitVec 64}
    (hx : x.toNat < 2 ^ 63) :
    (dhtDeitransform max (dhtItransform max cnt x)).1 = cnt ∧
      (dhtDeitransform max (dhtItransform max cnt x)).2.toNat =
        if x.toNat < 2 ^ (62 - dhtBitsFor max) then x.toNat
        else x.toNat / 2 ^ (dhtBitsFor max + 1) * 2 ^ (dhtBitsFor max + 1) := by
  have hbits : dhtBitsFor max ≤ 62 := (dhtBitsFor_le hmax).trans (by norm_num)
  rw [dhtItransform, if_neg (ne_neg_one hx), if_neg hone, dhtDeitransform, if_neg hone]
  split
  · next hsmall =>
    rw [detransform_transform_small hbits hcnt (le_pow_dhtBitsFor hmax) hsmall]
    exact ⟨rfl, rfl⟩
  · next hhuge =>
    exact detransform_transform_huge hbits (hcnt.trans_le (le_pow_dhtBitsFor hmax)) hx
      (Nat.le_of_not_lt hhuge)

/-- Disperse finds its brick in an offset that is below the top bit by its remainder. -/
theorem ecDeitransform_low (hnodes : nodes < 2 ^ 31) {x : BitVec 64} (hx : x.toNat < 2 ^ 62) :
    (ecDeitransform nodes x).1 = x.toNat % nodes :=
  (detransform_low (by omega) hx).1

/-- Disperse finds its brick in an offset with the top bit in its low bits. -/
theorem ecDeitransform_top (hnodes : nodes < 2 ^ 31) {x : BitVec 64} (hx : x.toNat < 2 ^ 63)
    (htop : 2 ^ 62 ≤ x.toNat) :
    (ecDeitransform nodes x).1 = x.toNat % 2 ^ bitsForNodes nodes :=
  (detransform_top ((bitsForNodes_le hnodes).trans (by norm_num)) hx htop).1

/-- The index of the brick in what disperse makes of an offset. -/
theorem ecDeitransform_ecItransform (hnodes : nodes < 2 ^ 31) (hidx : idx < nodes)
    (hoff : off < 2 ^ 63) :
    (ecDeitransform nodes (ecItransform nodes idx (BitVec.ofNat 64 off))).1 = idx := by
  rcases Nat.lt_or_ge off (2 ^ (62 - bitsForNodes nodes)) with hsmall | hhuge
  · obtain ⟨hvalue, hlt⟩ := ecItransform_small hnodes hidx hoff hsmall
    rw [ecDeitransform_low hnodes (hvalue.trans_lt hlt), hvalue, Nat.mul_add_mod_self_right,
      Nat.mod_eq_of_lt hidx]
  · obtain ⟨htop, hlt, hmod⟩ := ecItransform_huge hnodes hidx hoff hhuge
    rw [ecDeitransform_top hnodes hlt htop, hmod]

/-- Dropping low bits keeps the top bit. -/
theorem dropped_top {x m : ℕ} (hm : m ≤ 62) (hx : 2 ^ 62 ≤ x) : 2 ^ 62 ≤ x / 2 ^ m * 2 ^ m := by
  have htop : 2 ^ 62 = 2 ^ (62 - m) * 2 ^ m := by
    rw [← pow_add]
    congr 1
    omega
  rw [htop] at hx ⊢
  exact Nat.mul_le_mul_right _ ((Nat.le_div_iff_mul_le (Nat.two_pow_pos m)).mpr hx)

/-- With several subvolumes, an offset that is small for disperse. -/
theorem resume_small_iff (hmax : max < 2 ^ 31) (hcnt : cnt < max) (hone : max ≠ 1)
    (hnodes : nodes < 2 ^ 31) (hidx : idx < nodes) (hoff : off < 2 ^ 63)
    (hsmall : off < 2 ^ (62 - bitsForNodes nodes)) :
    resumeAt max nodes cnt idx (BitVec.ofNat 64 off) = (cnt, idx) ↔
      off * nodes + idx < 2 ^ (62 - dhtBitsFor max) ∨
        nodes ∣ (off * nodes + idx) % 2 ^ (dhtBitsFor max + 1) := by
  obtain ⟨hvalue, hlt⟩ := ecItransform_small hnodes hidx hoff hsmall
  obtain ⟨hsubvol, hrest⟩ := dht_round_trip hmax hcnt hone
    (hvalue.trans_lt (hlt.trans (by norm_num)))
  rw [hvalue] at hrest
  have hmod : (off * nodes + idx) % nodes = idx := by
    rw [Nat.mul_add_mod_self_right, Nat.mod_eq_of_lt hidx]
  -- what comes back is not above what disperse has made, so it has no top bit
  have hle : (dhtDeitransform max (dhtItransform max cnt
      (ecItransform nodes idx (BitVec.ofNat 64 off)))).2.toNat ≤ off * nodes + idx := by
    rw [hrest]
    split
    · exact le_rfl
    · exact Nat.div_mul_le_self _ _
  simp only [resumeAt, Prod.mk.injEq, hsubvol, true_and,
    ecDeitransform_low hnodes (hle.trans_lt hlt), hrest]
  split
  · next hfits => exact iff_of_true hmod (.inl hfits)
  · next hover => rw [dropped_mod_iff hmod, or_iff_right hover]

/-- With several subvolumes, an offset that is huge for disperse. -/
theorem resume_huge_iff (hmax : max < 2 ^ 31) (hcnt : cnt < max) (hone : max ≠ 1)
    (hnodes : nodes < 2 ^ 31) (hidx : idx < nodes) (hoff : off < 2 ^ 63)
    (hhuge : 2 ^ (62 - bitsForNodes nodes) ≤ off) :
    resumeAt max nodes cnt idx (BitVec.ofNat 64 off) = (cnt, idx) ↔
      2 ^ (dhtBitsFor max + 1) ∣ idx := by
  obtain ⟨htop, hlt, hmod⟩ := ecItransform_huge hnodes hidx hoff hhuge
  obtain ⟨hsubvol, hrest⟩ := dht_round_trip hmax hcnt hone hlt
  have hbits := dhtBitsFor_le hmax
  have hpow : 2 ^ (62 - dhtBitsFor max) ≤ 2 ^ 62 := Nat.pow_le_pow_right two_pos (by omega)
  rw [if_neg (by omega)] at hrest
  have htop' := (dropped_top (show dhtBitsFor max + 1 ≤ 62 by omega) htop).trans_eq hrest.symm
  have hlt' := hrest.trans_lt ((Nat.div_mul_le_self _ _).trans_lt hlt)
  simp only [resumeAt, Prod.mk.injEq, hsubvol, true_and, ecDeitransform_top hnodes hlt' htop',
    hrest]
  exact dropped_mod_pow_iff hmod

/-- **A directory listing that goes on at a presented offset goes on in the subvolume and on
the brick that the offset is from, exactly when `Resumes` holds.** -/
theorem resume_iff (hmax : max < 2 ^ 31) (hcnt : cnt < max) (hnodes : nodes < 2 ^ 31)
    (hidx : idx < nodes) (hoff : off < 2 ^ 63) :
    resumeAt max nodes cnt idx (BitVec.ofNat 64 off) = (cnt, idx) ↔ Resumes max nodes idx off := by
  rw [Resumes, ← bitsForNodes_eq (by omega), ← dhtBitsFor_eq (by omega)]
  by_cases hone : max = 1
  · refine iff_of_true ?_ (.inl hone)
    have hround := ecDeitransform_ecItransform hnodes hidx hoff
    have hcnt0 : cnt = 0 := by omega
    have hsame : dhtItransform max cnt (ecItransform nodes idx (BitVec.ofNat 64 off)) =
        ecItransform nodes idx (BitVec.ofNat 64 off) := by
      rw [dhtItransform, if_pos hone]
      split
      · next h => exact h.symm
      · rfl
    rw [resumeAt, hsame, dhtDeitransform, if_pos hone, hcnt0]
    exact Prod.ext rfl hround
  · rw [or_iff_right hone]
    split
    · next hsmall => exact resume_small_iff hmax hcnt hone hnodes hidx hoff hsmall
    · next hhuge =>
      exact resume_huge_iff hmax hcnt hone hnodes hidx hoff (Nat.le_of_not_lt hhuge)

/-- Two subvolumes of three bricks each: an offset that is small for both layers. -/
theorem resume_iff_small_offset :
    resumeAt 2 3 1 2 (BitVec.ofNat 64 1000) = (1, 2) ∧ Resumes 2 3 2 1000 := by
  have hresumes : Resumes 2 3 2 1000 := by decide
  exact ⟨(resume_iff (by decide) (by decide) (by decide) (by decide) (by decide)).mpr hresumes,
    hresumes⟩

/-- **A huge offset of the second brick of the second subvolume leads to the first brick of
it.** -/
theorem huge_offset_leads_to_first_brick :
    resumeAt 2 3 1 1 (BitVec.ofNat 64 (2 ^ 62)) = (1, 0) := by
  decide

end Resume

end GlusterFS.Dht
