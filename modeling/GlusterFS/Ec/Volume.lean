import Mathlib

/-!
# The geometry of a disperse volume

`ec_parse_options` accepts a redundancy of at least one brick that is smaller than
the number of fragments, so every set of `fragments` bricks is a majority.
-/

namespace GlusterFS.Ec

/-- `EC_MAX_FRAGMENTS`. -/
def ecMaxFragments : ℕ := 16

/-- What `ec_parse_options` accepts: `ec->nodes` and `ec->fragments`. -/
structure Geometry where
  nodes : ℕ
  fragments : ℕ
  /-- There is some redundancy. -/
  fragments_lt : fragments < nodes
  /-- The redundancy is smaller than the number of fragments. -/
  majority : nodes < 2 * fragments
  le_max : fragments ≤ ecMaxFragments
  deriving DecidableEq

/-- `ec_parse_options` with the value of the option `redundancy`. -/
def ecParseOptions (nodes : ℕ) (redundancy : ℤ) : Option Geometry :=
  if h : redundancy < 1 ∨ redundancy ≥ nodes - redundancy ∨
      nodes - redundancy > ecMaxFragments then none
  else
    some
      { nodes := nodes
        fragments := (nodes - redundancy).toNat
        fragments_lt := by omega
        majority := by omega
        le_max := by omega }

/-- Two fragments and one of redundancy. -/
def threeNodes : Geometry :=
  ⟨3, 2, Nat.lt_succ_self 2, Nat.lt_succ_self 3, Nat.le_add_right 2 14⟩

theorem Geometry.two_le (g : Geometry) : 2 ≤ g.fragments := by
  have := g.fragments_lt
  have := g.majority
  omega

end GlusterFS.Ec
