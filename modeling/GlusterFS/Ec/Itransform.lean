import GlusterFS.Dht.Itransform
import GlusterFS.Ec.Volume

/-!
# Directory offsets of a disperse volume

`ec_adjust_readdir` puts the index of the brick into every offset of a listing, with
`ec_itransform`, and `ec_readdir` takes it out again with `ec_deitransform`.  The room for the
index is `ec->bits_for_nodes`, which `ec_parse_options` counts up until it is enough for
`ec->nodes`.

For every volume that `ec_parse_options` accepts, **the brick always comes back**, an offset of
less than `62 - bits` bits comes back whole and a larger one without its low `bits + 1` bits
(`deitransform_itransform`).  Two bricks never present the same offset, and the offsets of one
brick keep their order within each of the two formats.
-/

namespace GlusterFS.Ec

open IndexedOffset Dht

/-- What comes back of an offset when `bits` bits are taken by the index. -/
def returned (bits : ℕ) (off : BitVec 64) : BitVec 64 :=
  if off.toNat < 2 ^ (62 - bits) then off else off &&& (mask <<< (bits + 1))

/-- Two offsets are presented in the same format. -/
def SameFormat (bits : ℕ) (off off' : BitVec 64) : Prop :=
  off.toNat < 2 ^ (62 - bits) ↔ off'.toNat < 2 ^ (62 - bits)

variable {n idx : ℕ} {redundancy : ℤ} {g : Geometry} {off off' : BitVec 64}

theorem nodes_lt_of_ecParseOptions (h : ecParseOptions n redundancy = some g) : n < 2 ^ 31 := by
  unfold ecParseOptions at h
  split_ifs at h with hrefused
  have hmax : ecMaxFragments = 16 := rfl
  omega

theorem deitransform_itransform (hn : n < 2 ^ 31) (hidx : idx < n) (hoff : off.toNat < 2 ^ 63) :
    ecDeitransform n (ecItransform n idx off) = (idx, returned (bitsForNodes n) off) := by
  have hbits : bitsForNodes n ≤ 62 := (bitsForNodes_le hn).trans (by norm_num)
  have hcount := le_pow_bitsForNodes hn
  rw [ecItransform, if_neg (ne_neg_one hoff), ecDeitransform, returned]
  split
  · next hsmall => exact detransform_transform_small hbits hidx hcount hsmall
  · next hhuge =>
    obtain ⟨hfst, hsnd⟩ := @detransform_transform_huge _ n _ _ hbits (hidx.trans_le hcount) hoff
      (Nat.le_of_not_lt hhuge)
    exact Prod.ext hfst (BitVec.eq_of_toNat_eq (hsnd.trans (toNat_and_mask _ _).symm))

/-- **Within a format the order is kept.** -/
theorem itransform_mono (hn : n < 2 ^ 31) (hidx : idx < n) (hoff' : off'.toNat < 2 ^ 63)
    (hformat : SameFormat (bitsForNodes n) off off') (hle : off ≤ off') :
    ecItransform n idx off ≤ ecItransform n idx off' := by
  have hbits : bitsForNodes n ≤ 62 := (bitsForNodes_le hn).trans (by norm_num)
  have hcount := le_pow_bitsForNodes hn
  have hle : off.toNat ≤ off'.toNat := hle
  have hoff : off.toNat < 2 ^ 63 := hle.trans_lt hoff'
  rw [BitVec.le_def, ecItransform, ecItransform, if_neg (ne_neg_one hoff),
    if_neg (ne_neg_one hoff')]
  by_cases hsmall : off.toNat < 2 ^ (62 - bitsForNodes n)
  · rw [toNat_transform_small hbits hidx hcount hsmall,
      toNat_transform_small hbits hidx hcount (hformat.mp hsmall)]
    exact Nat.add_le_add_right (Nat.mul_le_mul_right n hle) idx
  · have hhuge' := mt hformat.mpr hsmall
    have hidx' := hidx.trans_le hcount
    rw [toNat_transform_huge hbits hidx' hoff (Nat.le_of_not_lt hsmall),
      toNat_transform_huge hbits hidx' hoff' (Nat.le_of_not_lt hhuge')]
    have hdiv := Nat.div_le_div_right (c := 2 ^ (bitsForNodes n + 1)) hle
    have hmul := Nat.mul_le_mul_right (2 ^ bitsForNodes n) hdiv
    omega

/-- **The offsets that a disperse volume presents.**  For every number of nodes that
`ec_parse_options` accepts and every brick. -/
theorem itransform_offsets (h : ecParseOptions n redundancy = some g) (hidx : idx < n) :
    (∀ off : BitVec 64, off.toNat < 2 ^ 63 →
      ecDeitransform n (ecItransform n idx off) = (idx, returned (bitsForNodes n) off)) ∧
    (∀ idx' < n, idx ≠ idx' → ∀ off off' : BitVec 64, off.toNat < 2 ^ 63 → off'.toNat < 2 ^ 63 →
      ecItransform n idx off ≠ ecItransform n idx' off') ∧
    ∀ off off' : BitVec 64, off'.toNat < 2 ^ 63 → SameFormat (bitsForNodes n) off off' →
      off ≤ off' → ecItransform n idx off ≤ ecItransform n idx off' := by
  have hn := nodes_lt_of_ecParseOptions h
  refine ⟨fun off hoff => deitransform_itransform hn hidx hoff, ?_,
    fun off off' hoff' hformat hle => itransform_mono hn hidx hoff' hformat hle⟩
  intro idx' hidx' hne off off' hoff hoff' heq
  have hback := congrArg (ecDeitransform n) heq
  rw [deitransform_itransform hn hidx hoff, deitransform_itransform hn hidx' hoff'] at hback
  exact hne (congrArg Prod.fst hback)

/-- Four and two: an offset of the fourth brick in each format. -/
theorem itransform_offsets_six :
    (ecParseOptions 6 2).isSome = true ∧
      ecDeitransform 6 (ecItransform 6 3 1000#64) = (3, 1000#64) ∧
      ecDeitransform 6 (ecItransform 6 3 0x7fffffffffffffff#64) = (3, 0x7ffffffffffffff0#64) := by
  have h : ecParseOptions 6 2 = some ⟨6, 4, by decide, by decide, by decide⟩ := by decide
  have hback := (itransform_offsets h (show 3 < 6 by decide)).1
  exact ⟨by decide, hback 1000#64 (by decide), hback 0x7fffffffffffffff#64 (by decide)⟩

end GlusterFS.Ec
