import GlusterFS.Lib.Machine
import GlusterFS.Lib.PointerList

/-!
# The table of open fds

A server keeps the fds of a client in a table, and the index of an fd in the table is what the
client sends.  This module embeds `gf_fd_chain_fd_entries`, `gf_fd_fdtable_expand`,
`gf_fd_fdtable_alloc`, `__gf_fd_fdtable_get_all_fds`, `gf_fd_unused_get`, `gf_fd_put` and
`gf_fdptr_put` of `fd.c`.

The entries that are free are a list in the table itself: `first_free` is the index of one of them,
and `next_free` of each is the index of the next.  An entry that is in use has
`GF_FDENTRY_ALLOCATED` there.  `Sound` says that these two cover the table.

**Taking all fds out of the table does not set `first_free` back**: the new entries are linked from
the first to the last, but the list begins where it began before, so the entries in front of
`first_free` are neither free nor in use (`sound_getAll_iff`), and all of them are if the table was
full.  Expanding counts the bytes that it copies in 32 bits, which is too few from `2 ^ 28` entries
on.
-/

namespace GlusterFS.Fd

open PointerList

/-! ## The table -/

/-- `GF_FDTABLE_END`. -/
def gfFdtableEnd : ℤ := -1

/-- `GF_FDENTRY_ALLOCATED`. -/
def gfFdentryAllocated : ℤ := -2

/-- `fdentry_t`; an fd is a number, and `none` is `NULL`. -/
structure FdEntry where
  fd : Option ℕ
  nextFree : ℤ
  deriving DecidableEq, Repr

/-- `fdtable_t`. -/
structure FdTable where
  maxFds : ℕ
  entries : ℕ → FdEntry
  firstFree : ℤ

/-- An entry of `GF_CALLOC`. -/
def zeroEntry : FdEntry := ⟨none, 0⟩

/-- `entries[i].next_free = next`. -/
def setNext (entries : ℕ → FdEntry) (i : ℕ) (next : ℤ) : ℕ → FdEntry :=
  Function.update entries i { entries i with nextFree := next }

/-- The loop of `gf_fd_chain_fd_entries`, from `i` on with `count` turns to come. -/
def chainLoop (entries : ℕ → FdEntry) (i : ℕ) : ℕ → ℕ → FdEntry
  | 0 => setNext entries i gfFdtableEnd
  | count + 1 => chainLoop (setNext entries i (i + 1)) (i + 1) count

/-- `gf_fd_chain_fd_entries`. -/
def chainFdEntries (entries : ℕ → FdEntry) (startidx endcount : ℕ) : ℕ → FdEntry :=
  chainLoop entries startidx (endcount - 1 - startidx)

/-- The loop of `gf_roundup_next_power_of_two`. -/
def doubleUntil (nr : ℕ) : ℕ → ℕ → ℕ
  | 0, result => result
  | turns + 1, result => if result ≤ nr then doubleUntil nr turns (result * 2) else result

/-- `gf_roundup_next_power_of_two`. -/
def roundupNextPowerOfTwo (nr : ℕ) : ℕ := doubleUntil nr nr.succ 1

/-- `sizeof (fdentry_t)`. -/
def sizeofFdentry : ℕ := 16

/-- The new number of entries in `gf_fd_fdtable_expand`, a `uint32_t`. -/
def expandedMax (nr : ℕ) : ℕ :=
  roundupNextPowerOfTwo (nr / (1024 / sizeofFdentry) + 1) * (1024 / sizeofFdentry) % 2 ^ 32

/-- The new entries after `memcpy`, whose size `cpy` is a `uint32_t`. -/
def copyEntries (old : ℕ → FdEntry) (oldmax : ℕ) : ℕ → FdEntry := fun i =>
  if i < oldmax * sizeofFdentry % 2 ^ 32 / sizeofFdentry then old i else zeroEntry

/-- `gf_fd_fdtable_expand`. -/
def fdtableExpand (t : FdTable) (nr : ℕ) : FdTable where
  maxFds := expandedMax nr
  entries := chainFdEntries (copyEntries t.entries t.maxFds) t.maxFds (expandedMax nr)
  firstFree := t.maxFds

/-- `gf_fd_fdtable_alloc`. -/
def fdtableAlloc : FdTable := fdtableExpand ⟨0, fun _ => zeroEntry, 0⟩ 0

/-- `__gf_fd_fdtable_get_all_fds`: the entries that the caller gets, and the table. -/
def fdtableGetAllFds (t : FdTable) : (ℕ → FdEntry) × FdTable :=
  (t.entries, { t with entries := chainFdEntries (fun _ => zeroEntry) 0 t.maxFds })

/-- The first free entry is taken. -/
def takeFirst (t : FdTable) (fdptr : ℕ) : FdTable where
  maxFds := t.maxFds
  entries := Function.update t.entries t.firstFree.toNat ⟨some fdptr, gfFdentryAllocated⟩
  firstFree := (t.entries t.firstFree.toNat).nextFree

/-- `gf_fd_unused_get`: the index, and the table.  After an expansion there is a free entry, so that
the second try takes it. -/
def fdUnusedGet (t : FdTable) (fdptr : ℕ) : ℤ × FdTable :=
  if t.firstFree ≠ gfFdtableEnd then (t.firstFree, takeFirst t fdptr)
  else ((fdtableExpand t (t.maxFds + 1)).firstFree,
    takeFirst (fdtableExpand t (t.maxFds + 1)) fdptr)

/-- The entry goes to the front of the free ones. -/
def putEntry (t : FdTable) (i : ℕ) : FdTable where
  maxFds := t.maxFds
  entries := Function.update t.entries i ⟨none, t.firstFree⟩
  firstFree := i

/-- `gf_fd_put`. -/
def fdPut (t : FdTable) (fd : ℤ) : FdTable :=
  if 0 ≤ fd ∧ fd < t.maxFds ∧ (t.entries fd.toNat).nextFree = gfFdentryAllocated then
    putEntry t fd.toNat
  else t

/-- The loop of `gf_fdptr_put`: the first entry that holds the fd. -/
def findFd (t : FdTable) (fdptr : ℕ) : Option ℕ :=
  (List.range t.maxFds).find? fun i => (t.entries i).fd = some fdptr

/-- `gf_fdptr_put`. -/
def fdptrPut (t : FdTable) (fdptr : ℕ) : FdTable :=
  match findFd t fdptr with
  | none => t
  | some i => if (t.entries i).nextFree = gfFdentryAllocated then putEntry t i else t

/-- The calls on a table. -/
inductive Action
  | unusedGet (fdptr : ℕ)
  | put (fd : ℤ)
  | fdptrPut (fdptr : ℕ)
  | getAllFds
  deriving DecidableEq, Repr

/-- A table, from `gf_fd_fdtable_alloc` on. -/
def fdMachine : Machine FdTable Action where
  start t := t = fdtableAlloc
  step t
    | .unusedGet fdptr => some (fdUnusedGet t fdptr).2
    | .put fd => some (fdPut t fd)
    | .fdptrPut fdptr => some (fdptrPut t fdptr)
    | .getAllFds => some (fdtableGetAllFds t).2

/-! ## The free list -/

/-- The entry behind a value of `next_free` or `first_free`. -/
def link (next : ℤ) : Option ℕ := if next = gfFdtableEnd then none else some next.toNat

/-- The entry behind an entry. -/
def FdTable.next (t : FdTable) (i : ℕ) : Option ℕ := link (t.entries i).nextFree

/-- `l` are the free entries, from `first_free` to `GF_FDTABLE_END`; all others are in use. -/
structure FreeList (t : FdTable) (l : List ℕ) : Prop where
  chain : Chain t.next (link t.firstFree) l
  first : gfFdtableEnd ≤ t.firstFree
  inside : ∀ i ∈ l, i < t.maxFds
  free : ∀ i ∈ l, (t.entries i).fd = none ∧ gfFdtableEnd ≤ (t.entries i).nextFree
  used : ∀ i < t.maxFds, i ∉ l → (t.entries i).fd.isSome = true ∧
    (t.entries i).nextFree = gfFdentryAllocated

/-- Every entry is in use, or is once on the free list. -/
def Sound (t : FdTable) : Prop := ∃ l, FreeList t l

theorem link_end : link gfFdtableEnd = none := rfl

theorem end_le_natCast (i : ℕ) : gfFdtableEnd ≤ (i : ℤ) := by
  rw [gfFdtableEnd]
  omega

theorem natCast_ne_end (i : ℕ) : (i : ℤ) ≠ gfFdtableEnd := by
  rw [gfFdtableEnd]
  omega

theorem link_natCast (i : ℕ) : link (i : ℤ) = some i := by
  rw [link, if_neg (natCast_ne_end i), Int.toNat_natCast]

theorem FreeList.not_mem_of_used {t : FdTable} {l : List ℕ} {i : ℕ} (h : FreeList t l)
    (hused : (t.entries i).nextFree = gfFdentryAllocated) : i ∉ l := by
  intro hi
  have hfree := (h.free i hi).2
  rw [hused] at hfree
  exact absurd hfree (by decide)

/-! ### Linking the entries -/

theorem chainLoop_of_lt (entries : ℕ → FdEntry) {i j : ℕ} (count : ℕ) (hj : j < i) :
    chainLoop entries i count j = entries j := by
  induction count generalizing entries i with
  | zero => exact Function.update_of_ne hj.ne _ _
  | succ count ih =>
    rw [chainLoop, ih _ (by omega)]
    exact Function.update_of_ne hj.ne _ _

theorem chainLoop_fd (entries : ℕ → FdEntry) (i count j : ℕ) :
    (chainLoop entries i count j).fd = (entries j).fd := by
  have hset (e : ℕ → FdEntry) (k : ℕ) (n : ℤ) : (setNext e k n j).fd = (e j).fd := by
    by_cases hk : j = k
    · subst hk
      simp [setNext]
    · rw [setNext, Function.update_of_ne hk]
  induction count generalizing entries i with
  | zero => exact hset _ _ _
  | succ count ih => rw [chainLoop, ih, hset]

theorem chainLoop_first (entries : ℕ → FdEntry) (i count : ℕ) :
    (chainLoop entries i (count + 1) i).nextFree = ((i + 1 : ℕ) : ℤ) := by
  rw [chainLoop, chainLoop_of_lt _ _ (Nat.lt_succ_self i)]
  simp [setNext]

/-- The loop links the entries from `i` on. -/
theorem chainLoop_chain (entries : ℕ → FdEntry) (i count : ℕ) :
    Chain (fun j => link (chainLoop entries i count j).nextFree) (some i)
      (List.range' i (count + 1)) := by
  induction count generalizing entries i with
  | zero =>
    refine ⟨rfl, ?_⟩
    simp [Segment, chainLoop, setNext, link_end]
  | succ count ih =>
    rw [List.range'_succ]
    refine ⟨rfl, ?_⟩
    simp only [chainLoop_first, link_natCast]
    exact ih _ _

theorem end_le_chainLoop_nextFree (entries : ℕ → FdEntry) (i count : ℕ) {j : ℕ}
    (hj : j ∈ List.range' i (count + 1)) :
    gfFdtableEnd ≤ (chainLoop entries i count j).nextFree := by
  induction count generalizing entries i with
  | zero =>
    obtain rfl : j = i := by simpa using hj
    simp [chainLoop, setNext]
  | succ count ih =>
    rw [List.range'_succ, List.mem_cons] at hj
    rcases hj with rfl | hj
    · rw [chainLoop_first]
      exact end_le_natCast _
    · exact ih _ _ hj

/-- `gf_fd_chain_fd_entries` makes a list of the entries from `start` to the end of the table. -/
theorem chainFdEntries_chain (entries : ℕ → FdEntry) {start endcount : ℕ} (h : start < endcount) :
    Chain (fun j => link (chainFdEntries entries start endcount j).nextFree) (some start)
      (List.range' start (endcount - start)) := by
  have hcount : endcount - start = endcount - 1 - start + 1 := by omega
  rw [hcount]
  exact chainLoop_chain entries start _

theorem end_le_chainFdEntries_nextFree (entries : ℕ → FdEntry) {start endcount j : ℕ}
    (hj : start ≤ j) (h : j < endcount) :
    gfFdtableEnd ≤ (chainFdEntries entries start endcount j).nextFree :=
  end_le_chainLoop_nextFree entries start _ (List.mem_range'_1.mpr ⟨hj, by omega⟩)

/-! ### Expanding -/

theorem lt_doubleUntil (nr turns result : ℕ) (hpos : 0 < result) (h : nr < result + turns) :
    nr < doubleUntil nr turns result := by
  induction turns generalizing result with
  | zero => exact h
  | succ turns ih =>
    rw [doubleUntil]
    split
    · exact ih _ (by omega) (by omega)
    · omega

theorem doubleUntil_le (nr turns result : ℕ) (h : result ≤ 2 * nr) :
    doubleUntil nr turns result ≤ 2 * nr := by
  induction turns generalizing result with
  | zero => exact h
  | succ turns ih =>
    rw [doubleUntil]
    split
    · exact ih _ (by omega)
    · exact h

theorem lt_expandedMax {nr : ℕ} (hnr : nr ≤ 2 ^ 28) : nr < expandedMax nr := by
  have hlt := lt_doubleUntil (nr / 64 + 1) (nr / 64 + 1).succ 1 (by omega) (by omega)
  have hle := doubleUntil_le (nr / 64 + 1) (nr / 64 + 1).succ 1 (by omega)
  have hmax : expandedMax nr =
      doubleUntil (nr / 64 + 1) (nr / 64 + 1).succ 1 * 64 % 2 ^ 32 := rfl
  rw [hmax, Nat.mod_eq_of_lt (by omega)]
  omega

theorem copyEntries_of_lt (old : ℕ → FdEntry) {oldmax i : ℕ} (hmax : oldmax < 2 ^ 28)
    (hi : i < oldmax) : copyEntries old oldmax i = old i := by
  rw [copyEntries, if_pos]
  rw [sizeofFdentry, Nat.mod_eq_of_lt (by omega), Nat.mul_div_cancel _ (by decide)]
  exact hi

theorem copyEntries_of_le (old : ℕ → FdEntry) {oldmax i : ℕ} (hi : oldmax ≤ i) :
    copyEntries old oldmax i = zeroEntry := by
  rw [copyEntries, if_neg]
  have hle : oldmax * sizeofFdentry % 2 ^ 32 ≤ oldmax * sizeofFdentry := Nat.mod_le _ _
  have hdiv := Nat.div_le_div_right (c := sizeofFdentry) hle
  rw [Nat.mul_div_cancel _ (by decide)] at hdiv
  omega

/-- A full table is expanded by free entries. -/
theorem freeList_expand {t : FdTable} {nr : ℕ} (hmax : t.maxFds < 2 ^ 28)
    (hused : ∀ i < t.maxFds, (t.entries i).fd.isSome = true ∧
      (t.entries i).nextFree = gfFdentryAllocated)
    (hlt : t.maxFds < expandedMax nr) :
    FreeList (fdtableExpand t nr) (List.range' t.maxFds (expandedMax nr - t.maxFds)) := by
  have hnew : (fdtableExpand t nr).maxFds = expandedMax nr := rfl
  refine ⟨?_, ?_, ?_, ?_, ?_⟩
  · have hchain := chainFdEntries_chain (copyEntries t.entries t.maxFds) hlt
    rw [fdtableExpand, link_natCast]
    exact hchain
  · exact end_le_natCast t.maxFds
  · intro i hi
    have := (List.mem_range'_1.mp hi).2
    omega
  · intro i hi
    obtain ⟨hge, hi⟩ := List.mem_range'_1.mp hi
    refine ⟨?_, end_le_chainFdEntries_nextFree _ hge (by omega)⟩
    rw [fdtableExpand, chainFdEntries, chainLoop_fd, copyEntries_of_le _ hge]
    rfl
  · intro i hi hmem
    have hold : i < t.maxFds := by
      by_contra hge
      exact hmem (List.mem_range'_1.mpr ⟨by omega, by omega⟩)
    have hsame : (fdtableExpand t nr).entries i = t.entries i :=
      (chainLoop_of_lt _ _ hold).trans (copyEntries_of_lt _ hmax hold)
    rw [hsame]
    exact hused i hold

theorem sound_fdtableAlloc : Sound fdtableAlloc :=
  ⟨_, freeList_expand (by decide) (fun _ hi => absurd hi (Nat.not_lt_zero _)) (by decide)⟩

/-! ### The calls -/

/-- A free entry that is on the list. -/
theorem FreeList.first_eq {t : FdTable} {l : List ℕ} (h : FreeList t l)
    (hfirst : t.firstFree ≠ gfFdtableEnd) : ∃ rest, l = t.firstFree.toNat :: rest := by
  have hstart := Segment.start_eq h.chain
  rw [link, if_neg hfirst] at hstart
  cases l with
  | nil => cases hstart
  | cons i rest =>
    obtain rfl := Option.some.inj hstart
    exact ⟨rest, rfl⟩

theorem expand_firstFree_ne (t : FdTable) (nr : ℕ) :
    (fdtableExpand t nr).firstFree ≠ gfFdtableEnd :=
  natCast_ne_end t.maxFds

/-- The list of a table without a free entry, after an expansion. -/
theorem FreeList.expand_of_end {t : FdTable} {l : List ℕ} (h : FreeList t l)
    (hend : t.firstFree = gfFdtableEnd) (hmax : t.maxFds < 2 ^ 28) :
    FreeList (fdtableExpand t (t.maxFds + 1))
      (List.range' t.maxFds (expandedMax (t.maxFds + 1) - t.maxFds)) := by
  have hlt := lt_expandedMax (show t.maxFds + 1 ≤ 2 ^ 28 by omega)
  have hnil : l = [] := by
    have hstart := Segment.start_eq h.chain
    rw [hend, link_end] at hstart
    exact List.head?_eq_none_iff.mp hstart.symm
  subst hnil
  exact freeList_expand hmax (fun i hi => h.used i hi List.not_mem_nil) (by omega)

/-- Taking the first free entry takes it from the list. -/
theorem FreeList.takeFirst {t : FdTable} {rest : List ℕ} (fdptr : ℕ)
    (h : FreeList t (t.firstFree.toNat :: rest)) : FreeList (takeFirst t fdptr) rest := by
  have hnodup := List.nodup_cons.mp (Chain.nodup h.chain)
  have hother {i : ℕ} (hi : i ∈ rest) : (Fd.takeFirst t fdptr).entries i = t.entries i := by
    refine Function.update_of_ne ?_ _ _
    rintro rfl
    exact hnodup.1 hi
  refine ⟨?_, (h.free _ List.mem_cons_self).2,
    fun i hi => h.inside i (List.mem_cons_of_mem _ hi), ?_, ?_⟩
  · refine Segment.congr h.chain.2 fun i hi => ?_
    rw [FdTable.next, hother hi, FdTable.next]
  · intro i hi
    rw [hother hi]
    exact h.free i (List.mem_cons_of_mem _ hi)
  · intro i hi hmem
    by_cases hfirst : i = t.firstFree.toNat
    · subst hfirst
      simp [Fd.takeFirst]
    · have hsame : (Fd.takeFirst t fdptr).entries i = t.entries i :=
        Function.update_of_ne hfirst _ _
      rw [hsame]
      exact h.used i hi fun hl => (List.mem_cons.mp hl).elim hfirst hmem

/-- Putting an entry that is in use adds it to the list. -/
theorem FreeList.putEntry {t : FdTable} {l : List ℕ} {i : ℕ} (h : FreeList t l)
    (hi : i < t.maxFds) (hused : (t.entries i).nextFree = gfFdentryAllocated) :
    FreeList (putEntry t i) (i :: l) := by
  have hmem : i ∉ l := h.not_mem_of_used hused
  have hother {j : ℕ} (hj : j ∈ l) : (Fd.putEntry t i).entries j = t.entries j := by
    refine Function.update_of_ne ?_ _ _
    rintro rfl
    exact hmem hj
  have hself : (Fd.putEntry t i).entries i = ⟨none, t.firstFree⟩ := Function.update_self ..
  refine ⟨?_, ?_, ?_, ?_, ?_⟩
  · refine ⟨link_natCast i, ?_⟩
    rw [FdTable.next, hself]
    refine Segment.congr h.chain fun j hj => ?_
    rw [FdTable.next, hother hj, FdTable.next]
  · exact end_le_natCast i
  · intro j hj
    rcases List.mem_cons.mp hj with rfl | hj
    · exact hi
    · exact h.inside j hj
  · intro j hj
    rcases List.mem_cons.mp hj with rfl | hj
    · rw [hself]
      exact ⟨rfl, h.first⟩
    · rw [hother hj]
      exact h.free j hj
  · intro j hj hnot
    obtain ⟨hne, hnot⟩ := not_or.mp (fun hl => hnot (List.mem_cons.mpr hl))
    have hsame : (Fd.putEntry t i).entries j = t.entries j := Function.update_of_ne hne _ _
    rw [hsame]
    exact h.used j hj hnot

theorem Sound.fdUnusedGet {t : FdTable} (fdptr : ℕ) (h : Sound t)
    (hmax : t.firstFree = gfFdtableEnd → t.maxFds < 2 ^ 28) : Sound (fdUnusedGet t fdptr).2 := by
  obtain ⟨l, hl⟩ := h
  rw [Fd.fdUnusedGet]
  split
  next hfirst =>
    obtain ⟨rest, rfl⟩ := hl.first_eq hfirst
    exact ⟨rest, hl.takeFirst fdptr⟩
  next hfirst =>
    have hend : t.firstFree = gfFdtableEnd := not_not.mp hfirst
    obtain ⟨rest, hrest⟩ := (hl.expand_of_end hend (hmax hend)).first_eq (expand_firstFree_ne t _)
    exact ⟨rest, FreeList.takeFirst fdptr (hrest ▸ hl.expand_of_end hend (hmax hend))⟩

theorem Sound.fdPut {t : FdTable} (fd : ℤ) (h : Sound t) : Sound (fdPut t fd) := by
  obtain ⟨l, hl⟩ := h
  rw [Fd.fdPut]
  split
  next hfd =>
    exact ⟨_, hl.putEntry (by omega) hfd.2.2⟩
  next => exact ⟨l, hl⟩

theorem Sound.fdptrPut {t : FdTable} (fdptr : ℕ) (h : Sound t) : Sound (fdptrPut t fdptr) := by
  obtain ⟨l, hl⟩ := h
  rw [Fd.fdptrPut]
  cases hfind : findFd t fdptr with
  | none => exact ⟨l, hl⟩
  | some i =>
    dsimp only
    split
    next hused =>
      have hi : i < t.maxFds := List.mem_range.mp (List.mem_of_find?_eq_some hfind)
      exact ⟨_, hl.putEntry hi hused⟩
    next => exact ⟨l, hl⟩

/-- After `gf_fd_fdtable_get_all_fds` every entry is linked to the one behind it. -/
theorem getAll_chain (t : FdTable) {k : ℕ} (hk : k < t.maxFds) :
    Chain (fdtableGetAllFds t).2.next (some k) (List.range' k (t.maxFds - k)) := by
  have hall : Chain (fdtableGetAllFds t).2.next (some 0) (List.range' 0 t.maxFds) :=
    chainFdEntries_chain (fun _ => zeroEntry) (by omega)
  have hsplit : List.range' 0 t.maxFds = List.range' 0 k ++ List.range' k (t.maxFds - k) := by
    have happend := @List.range'_append_1 0 k (t.maxFds - k)
    rw [Nat.zero_add, Nat.add_sub_cancel' hk.le] at happend
    exact happend.symm
  rw [hsplit] at hall
  obtain ⟨mid, -, hrest⟩ := Segment.append_iff.mp hall
  obtain ⟨n, hn⟩ : ∃ n, t.maxFds - k = n + 1 := ⟨t.maxFds - k - 1, by omega⟩
  rw [hn, List.range'_succ] at hrest ⊢
  exact ⟨rfl, hrest.2⟩

/-- The free list begins where it began before. -/
theorem getAll_chain_unique {t : FdTable} {k : ℕ} {l : List ℕ} (hfirst : t.firstFree = k)
    (hk : k < t.maxFds)
    (hl : Chain (fdtableGetAllFds t).2.next (link (fdtableGetAllFds t).2.firstFree) l) :
    l = List.range' k (t.maxFds - k) := by
  have hstart : link (fdtableGetAllFds t).2.firstFree = some k := by
    rw [fdtableGetAllFds, hfirst]
    exact link_natCast k
  rw [hstart] at hl
  exact Chain.unique hl (getAll_chain t hk)

theorem end_le_getAll_nextFree (t : FdTable) {i : ℕ} (hi : i < t.maxFds) :
    gfFdtableEnd ≤ ((fdtableGetAllFds t).2.entries i).nextFree :=
  end_le_chainFdEntries_nextFree _ (Nat.zero_le i) hi

/-- No entry is in use after `gf_fd_fdtable_get_all_fds`, so that the table is sound if and only if
its list begins with the first entry. -/
theorem sound_getAll_iff {t : FdTable} (h : Sound t) (hpos : 0 < t.maxFds) :
    Sound (fdtableGetAllFds t).2 ↔ t.firstFree = 0 := by
  constructor
  · rintro ⟨l, hl⟩
    have hzero : 0 ∈ l := by
      by_contra hnot
      have hle := end_le_getAll_nextFree t hpos
      rw [(hl.used 0 hpos hnot).2] at hle
      exact absurd hle (by decide)
    have hne : t.firstFree ≠ gfFdtableEnd := by
      intro hend
      have hstart : link (fdtableGetAllFds t).2.firstFree = l.head? := Segment.start_eq hl.chain
      have hnil : l = [] := List.head?_eq_none_iff.mp (hstart.symm.trans (by
        rw [fdtableGetAllFds, hend, link_end]))
      exact absurd hzero (hnil ▸ List.not_mem_nil)
    have hle : gfFdtableEnd ≤ t.firstFree := hl.first
    obtain ⟨k, hk⟩ : ∃ k : ℕ, t.firstFree = k := by
      rw [gfFdtableEnd] at hle hne
      exact Int.eq_ofNat_of_zero_le (by omega)
    obtain ⟨rest, hrest⟩ := hl.first_eq hne
    have hinside : t.firstFree.toNat < t.maxFds := hl.inside _ (hrest ▸ List.mem_cons_self)
    rw [getAll_chain_unique hk (by omega) hl.chain, List.mem_range'_1] at hzero
    omega
  · intro hfirst
    have hmem {i : ℕ} : i ∈ List.range' 0 (t.maxFds - 0) ↔ i < t.maxFds := by
      simp [List.mem_range'_1]
    refine ⟨_, ?_, h.elim fun l hl => hl.first, fun i hi => hmem.mp hi, ?_, ?_⟩
    · have hstart : link (fdtableGetAllFds t).2.firstFree = some 0 := by
        rw [fdtableGetAllFds, hfirst]
        rfl
      rw [hstart]
      exact getAll_chain t hpos
    · exact fun i hi => ⟨chainLoop_fd _ _ _ _, end_le_getAll_nextFree t (hmem.mp hi)⟩
    · exact fun i hi hnot => absurd (hmem.mpr hi) hnot

/-! ## Every run -/

/-- The entries of the table are taken out only when the list begins with the first, and a full
table is small enough to be copied. -/
def CallOk (t : FdTable) : Action → Prop
  | .unusedGet _ => t.firstFree = gfFdtableEnd → t.maxFds < 2 ^ 28
  | .getAllFds => t.firstFree = 0
  | .put _ | .fdptrPut _ => True

theorem fdUnusedGet_maxFds_pos {t : FdTable} (fdptr : ℕ) (hpos : 0 < t.maxFds)
    (hmax : t.firstFree = gfFdtableEnd → t.maxFds < 2 ^ 28) :
    0 < (fdUnusedGet t fdptr).2.maxFds := by
  rw [fdUnusedGet]
  split
  next => exact hpos
  next hfirst =>
    have hmax := hmax (not_not.mp hfirst)
    have hlt := lt_expandedMax (show t.maxFds + 1 ≤ 2 ^ 28 by omega)
    exact (Nat.zero_lt_succ _).trans hlt

theorem fdPut_maxFds (t : FdTable) (fd : ℤ) : (fdPut t fd).maxFds = t.maxFds := by
  rw [fdPut]
  split <;> rfl

theorem fdptrPut_maxFds (t : FdTable) (fdptr : ℕ) : (fdptrPut t fdptr).maxFds = t.maxFds := by
  rw [fdptrPut]
  split
  · rfl
  · split <;> rfl

theorem sound_step {t t' : FdTable} {a : Action} (h : Sound t ∧ 0 < t.maxFds) (hok : CallOk t a)
    (hstep : fdMachine.step t a = some t') : Sound t' ∧ 0 < t'.maxFds := by
  obtain ⟨hsound, hpos⟩ := h
  cases a with
  | unusedGet fdptr =>
    obtain rfl := Option.some.inj hstep
    exact ⟨hsound.fdUnusedGet fdptr hok, fdUnusedGet_maxFds_pos fdptr hpos hok⟩
  | put fd =>
    obtain rfl := Option.some.inj hstep
    exact ⟨hsound.fdPut fd, (fdPut_maxFds t fd).symm ▸ hpos⟩
  | fdptrPut fdptr =>
    obtain rfl := Option.some.inj hstep
    exact ⟨hsound.fdptrPut fdptr, (fdptrPut_maxFds t fdptr).symm ▸ hpos⟩
  | getAllFds =>
    obtain rfl := Option.some.inj hstep
    exact ⟨(sound_getAll_iff hsound hpos).mpr hok, hpos⟩

theorem sound_of_reachable {t : FdTable} (h : fdMachine.ReachableWhen CallOk t) : Sound t := by
  refine (h.invariant (fun t => Sound t ∧ 0 < t.maxFds) ?_ fun t a t' => sound_step).1
  rintro t rfl
  exact ⟨sound_fdtableAlloc, by decide⟩

/-- The index of `gf_fd_unused_get` is in the table, and was not in use. -/
theorem fdUnusedGet_fresh {t : FdTable} (fdptr : ℕ) (h : Sound t)
    (hmax : t.firstFree = gfFdtableEnd → t.maxFds < 2 ^ 28) :
    ∃ k : ℕ, (fdUnusedGet t fdptr).1 = k ∧ k < (fdUnusedGet t fdptr).2.maxFds ∧
      (k < t.maxFds → (t.entries k).nextFree ≠ gfFdentryAllocated) := by
  obtain ⟨l, hl⟩ := h
  rw [fdUnusedGet]
  split
  next hfirst =>
    obtain ⟨rest, rfl⟩ := hl.first_eq hfirst
    have hle := hl.first
    have hmem : t.firstFree.toNat ∈ t.firstFree.toNat :: rest := List.mem_cons_self
    refine ⟨t.firstFree.toNat, ?_, hl.inside _ hmem, fun _ hused => hl.not_mem_of_used hused hmem⟩
    rw [gfFdtableEnd] at hle hfirst
    exact (Int.toNat_of_nonneg (by omega)).symm
  next hfirst =>
    have hmax := hmax (not_not.mp hfirst)
    have hlt := lt_expandedMax (show t.maxFds + 1 ≤ 2 ^ 28 by omega)
    refine ⟨t.maxFds, rfl, (Nat.lt_succ_self _).trans hlt, fun hlt => absurd hlt (Nat.lt_irrefl _)⟩

/-- **Every entry is in use or once on the free list**: in every run that takes the entries out only
when the free list begins with the first, and that expands no table of `2 ^ 28` entries.  So the
index that `gf_fd_unused_get` hands out was not in use. -/
theorem every_index_used_or_free {t : FdTable} (h : fdMachine.ReachableWhen CallOk t) :
    (∃ l : List ℕ, Chain t.next (link t.firstFree) l ∧ l.Nodup ∧ (∀ i ∈ l, i < t.maxFds) ∧
      ∀ i < t.maxFds,
        i ∉ l ∧ (t.entries i).fd.isSome = true ∧ (t.entries i).nextFree = gfFdentryAllocated ∨
        i ∈ l ∧ (t.entries i).fd = none ∧ (t.entries i).nextFree ≠ gfFdentryAllocated) ∧
    ∀ fdptr, CallOk t (.unusedGet fdptr) →
      ∃ k : ℕ, (fdUnusedGet t fdptr).1 = k ∧ k < (fdUnusedGet t fdptr).2.maxFds ∧
        (k < t.maxFds → (t.entries k).nextFree ≠ gfFdentryAllocated) := by
  have hsound := sound_of_reachable h
  refine ⟨?_, fun fdptr hok => fdUnusedGet_fresh fdptr hsound hok⟩
  obtain ⟨l, hl⟩ := hsound
  refine ⟨l, hl.chain, Chain.nodup hl.chain, hl.inside, fun i hi => ?_⟩
  by_cases hmem : i ∈ l
  · exact .inr ⟨hmem, (hl.free i hmem).1, fun hused => hl.not_mem_of_used hused hmem⟩
  · exact .inl ⟨hmem, hl.used i hi hmem⟩

/-- A table whose only fd was put back. -/
theorem every_index_used_or_free_put :
    ∃ t, fdMachine.exec fdtableAlloc [.unusedGet 7, .put 0] = some t ∧
      ∃ l : List ℕ, Chain t.next (link t.firstFree) l ∧ l.Nodup ∧ (∀ i ∈ l, i < t.maxFds) ∧
        ∀ i < t.maxFds,
          i ∉ l ∧ (t.entries i).fd.isSome = true ∧ (t.entries i).nextFree = gfFdentryAllocated ∨
          i ∈ l ∧ (t.entries i).fd = none ∧ (t.entries i).nextFree ≠ gfFdentryAllocated := by
  have hget : fdMachine.ReachableWhen CallOk (fdUnusedGet fdtableAlloc 7).2 :=
    .next (a := .unusedGet 7) (.start rfl) (fun hend => absurd hend (by decide)) rfl
  exact ⟨_, rfl, (every_index_used_or_free (hget.next (a := .put 0) trivial rfl)).1⟩

/-- **Taking the entries out of a table with one fd loses entry 0**: it is not in use, and the list
from `first_free` does not have it. -/
theorem getAll_loses_index :
    ∃ t, fdMachine.exec fdtableAlloc [.unusedGet 7, .getAllFds] = some t ∧ 0 < t.maxFds ∧
      (t.entries 0).nextFree ≠ gfFdentryAllocated ∧
      ∀ l, Chain t.next (link t.firstFree) l → 0 ∉ l := by
  have hmax : expandedMax 0 = 128 := by decide
  have hfirst : (fdUnusedGet fdtableAlloc 7).2.firstFree = 1 := by
    rw [fdUnusedGet, if_pos (by decide), takeFirst, fdtableAlloc, fdtableExpand]
    simp only [chainFdEntries, hmax]
    exact chainLoop_first _ 0 126
  refine ⟨(fdtableGetAllFds (fdUnusedGet fdtableAlloc 7).2).2, rfl, by decide, ?_, fun l hl => ?_⟩
  · have hle := end_le_getAll_nextFree (fdUnusedGet fdtableAlloc 7).2 (by decide : 0 < _)
    intro hused
    rw [hused] at hle
    exact absurd hle (by decide)
  · rw [getAll_chain_unique (k := 1) hfirst (by decide) hl, List.mem_range'_1]
    omega

end GlusterFS.Fd
