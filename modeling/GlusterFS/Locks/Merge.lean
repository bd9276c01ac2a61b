import GlusterFS.Locks.Posix

/-!
# What a posix lock does to the bytes of a file

A list of locks says for every owner and every byte which lock the owner holds there
(`lockMap`).  A request should change this map in the range of the request and for the
owner of the request, and nowhere else (`LockMap.assign`).  `__insert_and_merge` works on
the list: it joins the new lock with the locks of the same type that it overlaps and cuts
those of another type, and it returns to the start of the list after each.

It also leaves the list early: when a read lock comes to a read lock of **another** owner
that it overlaps, it is added at once, without a look at the locks that stand behind.
The owner then holds two locks on the same bytes, which may be of different types:
`early_exit`.  The order of the list decides, and the lock grows on its way through the list:
`Orderly` says that no read lock of another owner that the lock meets, joined with the locks
before it, stands before a lock that must be merged.

Under this condition `insertAndMergeFuel_merged` gives the exact map, by induction on the
depth of the calls.  What carries the induction is that the locks of one owner do not
overlap (`OwnOk`): a piece that is cut off meets no other lock of the owner and is added as
it is, and the sum of two locks overlaps nothing of the owner that the new lock did not.
Without it two locks of the owner overlap in the end (`insertAndMergeFuel_early`), so that the
condition is exact (`insert_exact_iff`).
-/

namespace GlusterFS.Locks

/-! ## The map of the bytes -/

/-- Who holds which type of lock on which byte; the first two arguments are the client and
the owner. -/
def LockMap : Type := ℕ → ℕ → ℤ → LockType → Prop

/-- A lock covers a byte. -/
def PosixLock.Covers (l : PosixLock) (x : ℤ) : Prop := l.flStart ≤ x ∧ x ≤ l.flEnd

/-- The map of the granted locks of a list. -/
def lockMap (exts : List PosixLock) : LockMap := fun client owner x t =>
  ∃ l ∈ exts, l.blocked = false ∧ l.client = client ∧ l.owner = owner ∧ l.Covers x ∧ l.flType = t

/-- A byte that a lock is about. -/
def PosixLock.At (lock : PosixLock) (client owner : ℕ) (x : ℤ) : Prop :=
  lock.client = client ∧ lock.owner = owner ∧ lock.Covers x

/-- A byte of the file that a request is about. -/
def Flock.At (flock : Flock) (client owner : ℕ) (x : ℤ) : Prop :=
  flock.client = client ∧ flock.owner = owner ∧ x ∈ flock.bytes ∩ Set.Iio (2 ^ 63)

/-- **The map after a request**: its type on the bytes that it is about, nothing there after an
unlock, and the old map elsewhere. -/
def LockMap.assign (map : LockMap) (about : ℕ → ℕ → ℤ → Prop) (type : LockType) : LockMap :=
  fun client owner x t =>
    about client owner x ∧ t = type ∧ t ≠ .unlck ∨
      ¬ about client owner x ∧ map client owner x t

/-! ## The conditions -/

/-- A granted lock of the owner of `lock`. -/
def Own (lock c : PosixLock) : Prop := c.blocked = false ∧ sameOwner c lock = true

/-- A granted read lock of another owner. -/
def Reader (lock c : PosixLock) : Prop :=
  c.blocked = false ∧ sameOwner c lock = false ∧ c.flType = .rdlck

/-- `x` overlaps the lock, or a lock among those seen that it is joined with. -/
def Touches (lock : PosixLock) (seen : List PosixLock) (x : PosixLock) : Prop :=
  locksOverlap x lock = true ∨ ∃ d ∈ seen, Own lock d ∧ d.flType = lock.flType ∧
    locksOverlap d lock = true ∧ locksOverlap x d = true

/-- No read lock of another owner among those seen is touched. -/
def Clear (lock : PosixLock) (seen : List PosixLock) : Prop :=
  ∀ x ∈ seen, Reader lock x → ¬ Touches lock seen x

/-- The locks before each lock that must be merged are clear. -/
def OrderlyFrom (lock : PosixLock) : List PosixLock → List PosixLock → Prop
  | _, [] => True
  | seen, c :: rest =>
      (Own lock c → locksOverlap c lock = true → Clear lock seen) ∧
        OrderlyFrom lock (seen ++ [c]) rest

/-- **No lock that a read lock must be merged with stands behind a read lock of another owner that
it touches on its way.** -/
def Orderly (lock : PosixLock) (exts : List PosixLock) : Prop :=
  lock.flType = .rdlck → OrderlyFrom lock [] exts

/-- The granted locks of one owner do not overlap. -/
def OwnApart (exts : List PosixLock) : Prop :=
  exts.Pairwise fun a b => a.blocked = false → b.blocked = false → sameOwner a b = true →
    locksOverlap a b = false

/-- What the list keeps, as far as it is about a single owner. -/
structure OwnOk (exts : List PosixLock) : Prop where
  proper : ∀ l ∈ exts, l.Proper (-2 ^ 63)
  typed : ∀ l ∈ exts, l.flType ≠ .unlck
  apart : OwnApart exts

/-- No lock of the owner overlaps `lock`. -/
def Free (lock : PosixLock) (exts : List PosixLock) : Prop :=
  ∀ c ∈ exts, Own lock c → locksOverlap c lock = false

/-- What an insertion should do. -/
structure Merged (lock : PosixLock) (exts exts' : List PosixLock) : Prop where
  ok : OwnOk exts'
  map : lockMap exts' = (lockMap exts).assign lock.At lock.flType

/-! ## Ranges and bytes -/

/-- Locks that do not overlap cover no byte in common. -/
theorem not_covers_of_apart {a b : PosixLock} {x : ℤ} (h : locksOverlap a b = false)
    (ha : a.Covers x) : ¬ b.Covers x := fun hb =>
  Bool.eq_false_iff.mp h (locksOverlap_iff.mpr ⟨hb.1.trans ha.2, ha.1.trans hb.2⟩)

/-- Locks that overlap cover a byte in common. -/
theorem exists_covers {a b : PosixLock} (ha : a.Proper (-2 ^ 63)) (hb : b.Proper (-2 ^ 63))
    (h : locksOverlap a b = true) : ∃ x, a.Covers x ∧ b.Covers x := by
  rw [locksOverlap_iff] at h
  refine ⟨max a.flStart b.flStart, ?_, ?_⟩ <;>
    simp only [PosixLock.Covers, PosixLock.Proper] at * <;> omega

theorem addLocks_covers {lock conf fields : PosixLock} (h : locksOverlap conf lock = true)
    (x : ℤ) : (addLocks lock conf fields).Covers x ↔ lock.Covers x ∨ conf.Covers x := by
  simp only [locksOverlap_iff, addLocks, PosixLock.Covers] at *
  omega

theorem lockMap_append (exts exts' : List PosixLock) (client owner : ℕ) (x : ℤ) (t : LockType) :
    lockMap (exts ++ exts') client owner x t ↔
      lockMap exts client owner x t ∨ lockMap exts' client owner x t := by
  simp only [lockMap, List.mem_append, or_and_right, exists_or]

theorem lockMap_perm {exts exts' : List PosixLock} (h : exts.Perm exts') :
    lockMap exts = lockMap exts' := by
  funext client owner x t
  simp only [lockMap, h.mem_iff]

theorem lockMap_singleton {l : PosixLock} (hl : l.blocked = false) (client owner : ℕ) (x : ℤ)
    (t : LockType) : lockMap [l] client owner x t ↔ l.At client owner x ∧ l.flType = t := by
  simp only [lockMap, List.mem_singleton, exists_eq_left, hl, true_and, PosixLock.At, and_assoc]

/-- A lock that overlaps none of its owner is about bytes on which the owner holds nothing. -/
theorem Free.not_lockMap {lock : PosixLock} {exts : List PosixLock} (h : Free lock exts)
    {client owner : ℕ} {x : ℤ} (hat : lock.At client owner x) (t : LockType) :
    ¬ lockMap exts client owner x t := by
  rintro ⟨l, hl, hb, hclient, howner, hcovers, -⟩
  have hown : Own lock l :=
    ⟨hb, sameOwner_iff.mpr ⟨howner.trans hat.2.1.symm, hclient.trans hat.1.symm⟩⟩
  exact not_covers_of_apart (h l hl hown) hcovers hat.2.2

/-! ## Adding a lock that meets no other -/

theorem apart_symm {a b : PosixLock}
    (h : a.blocked = false → b.blocked = false → sameOwner a b = true → locksOverlap a b = false)
    (hb : b.blocked = false) (ha : a.blocked = false) (hsame : sameOwner b a = true) :
    locksOverlap b a = false := by
  rw [locksOverlap_comm]
  exact h ha hb (by rw [sameOwner_comm]; exact hsame)

theorem OwnOk.sublist {exts exts' : List PosixLock} (hok : OwnOk exts) (h : exts'.Sublist exts) :
    OwnOk exts' where
  proper l hl := hok.proper l (h.subset hl)
  typed l hl := hok.typed l (h.subset hl)
  apart := List.Pairwise.sublist h hok.apart

theorem OwnOk.append {lock : PosixLock} {exts : List PosixLock} (hok : OwnOk exts)
    (hlock : lock.Proper (-2 ^ 63)) (htype : lock.flType ≠ .unlck)
    (hfree : lock.blocked = false → Free lock exts) : OwnOk (exts ++ [lock]) where
  proper l hl := by
    rcases List.mem_append.mp hl with hl | hl
    · exact hok.proper l hl
    · exact List.mem_singleton.mp hl ▸ hlock
  typed l hl := by
    rcases List.mem_append.mp hl with hl | hl
    · exact hok.typed l hl
    · exact List.mem_singleton.mp hl ▸ htype
  apart := by
    refine List.pairwise_append.mpr ⟨hok.apart, List.pairwise_singleton _ _, ?_⟩
    intro c hc l hl hcb hlb hsame
    rw [List.mem_singleton] at hl
    subst hl
    exact hfree hlb c hc ⟨hcb, hsame⟩

theorem merged_append {lock : PosixLock} {exts : List PosixLock} (hok : OwnOk exts)
    (hlock : lock.Proper (-2 ^ 63)) (hblocked : lock.blocked = false) (htype : lock.flType ≠ .unlck)
    (hfree : Free lock exts) : Merged lock exts (exts ++ [lock]) where
  ok := hok.append hlock htype fun _ => hfree
  map := by
    funext client owner x t
    rw [eq_iff_iff, lockMap_append, lockMap_singleton hblocked, LockMap.assign]
    by_cases hat : lock.At client owner x
    · have hnone := hfree.not_lockMap hat t
      constructor
      · rintro (hold | ⟨-, rfl⟩)
        · exact absurd hold hnone
        · exact .inl ⟨hat, rfl, htype⟩
      · rintro (⟨-, rfl, -⟩ | ⟨hnot, -⟩)
        · exact .inr ⟨hat, rfl⟩
        · exact absurd hat hnot
    · simp [hat]

/-- An unlock of bytes that the owner has not locked. -/
theorem merged_self {lock : PosixLock} {exts : List PosixLock} (hok : OwnOk exts)
    (htype : lock.flType = .unlck) (hfree : Free lock exts) : Merged lock exts exts where
  ok := hok
  map := by
    funext client owner x t
    rw [eq_iff_iff, LockMap.assign]
    by_cases hat : lock.At client owner x
    · refine iff_of_false (hfree.not_lockMap hat t) ?_
      rintro (⟨-, rfl, hne⟩ | ⟨hnot, -⟩)
      · exact hne htype
      · exact hnot hat
    · simp [hat]

/-! ## Where the loop stops -/

/-- A lock that the loop goes past. -/
def Passed (lock c : PosixLock) : Prop :=
  c.blocked = false → locksOverlap c lock = true →
    sameOwner c lock = false ∧ (lock.flType = .rdlck → c.flType ≠ .rdlck)

/-- **Where the loop stops**: behind the locks it goes past, at a read lock of another owner, at a
lock of the owner, or at the end. -/
theorem meet_split (lock : PosixLock) (exts : List PosixLock) :
    ∃ before after, exts = before ++ after ∧ (∀ c ∈ before, Passed lock c) ∧
      match meet lock exts with
      | .nothing => after = []
      | .reader => ∃ x rest, after = x :: rest ∧ Reader lock x ∧ locksOverlap x lock = true
      | .own conf others => ∃ rest, after = conf :: rest ∧ others = before ++ rest := by
  induction exts with
  | nil => exact ⟨[], [], rfl, by simp, rfl⟩
  | cons c exts ih =>
      obtain ⟨before, after, rfl, hbefore, hstop⟩ := ih
      have past : Passed lock c → ∃ before' after', c :: (before ++ after) = before' ++ after' ∧
          (∀ c ∈ before', Passed lock c) ∧
          match (meet lock (before ++ after)).past c with
          | .nothing => after' = []
          | .reader => ∃ x rest, after' = x :: rest ∧ Reader lock x ∧ locksOverlap x lock = true
          | .own conf others => ∃ rest, after' = conf :: rest ∧ others = before' ++ rest := by
        intro hc
        refine ⟨c :: before, after, rfl, List.forall_mem_cons.mpr ⟨hc, hbefore⟩, ?_⟩
        revert hstop
        cases meet lock (before ++ after) with
        | nothing | reader => exact id
        | own conf others =>
            rintro ⟨rest, rfl, rfl⟩
            exact ⟨rest, rfl, rfl⟩
      rw [meet]
      split_ifs with hblocked hoverlap hsame hunlck hread
      · exact past fun hb => absurd hblocked (by simp [hb])
      · exact past fun _ hover => absurd hoverlap (by simp [hover])
      · exact ⟨[], _, rfl, by simp, _, rfl, rfl⟩
      · exact past fun _ _ => ⟨Bool.eq_false_of_not_eq_true hsame, fun h => by simp [h] at hunlck⟩
      · exact ⟨[], _, rfl, by simp, c, _, rfl, ⟨by simpa using hblocked, by simpa using hsame,
          hread.1⟩, by simpa using hoverlap⟩
      · exact past fun _ _ => ⟨Bool.eq_false_of_not_eq_true hsame, fun h h' => hread ⟨h', h⟩⟩

theorem Passed.not_own {lock c : PosixLock} (h : Passed lock c) (hown : Own lock c) :
    locksOverlap c lock = false := by
  refine Bool.eq_false_of_not_eq_true fun hover => ?_
  have hother := (h hown.1 hover).1
  rw [hown.2] at hother
  cases hother

/-- The loop runs to the end only past all locks of the owner that overlap. -/
theorem meet_nothing {lock : PosixLock} {exts : List PosixLock}
    (h : meet lock exts = .nothing) : Free lock exts := by
  obtain ⟨before, after, rfl, hbefore, hstop⟩ := meet_split lock exts
  rw [h] at hstop
  obtain rfl : after = [] := hstop
  rw [List.append_nil]
  exact fun c hc hown => (hbefore c hc).not_own hown

/-! ## Orderly lists -/

theorem orderlyFrom_append {lock : PosixLock} {seen l l' : List PosixLock} :
    OrderlyFrom lock seen (l ++ l') ↔ OrderlyFrom lock seen l ∧ OrderlyFrom lock (seen ++ l) l' := by
  induction l generalizing seen with
  | nil => simp [OrderlyFrom]
  | cons c l ih => simp only [List.cons_append, OrderlyFrom, ih, and_assoc, List.append_assoc,
      List.nil_append]

/-- Nothing of the list must be merged. -/
theorem Free.orderlyFrom {lock : PosixLock} {l : List PosixLock} (h : Free lock l)
    (seen : List PosixLock) : OrderlyFrom lock seen l := by
  induction l generalizing seen with
  | nil => trivial
  | cons c l ih =>
      obtain ⟨hc, hl⟩ := List.forall_mem_cons.mp h
      refine ⟨fun hown hover => ?_, ih hl _⟩
      rw [hc hown] at hover
      cases hover

/-- When the loop leaves early, the list is orderly only if there is nothing to merge. -/
theorem free_iff_of_reader {lock : PosixLock} {exts : List PosixLock}
    (hmeet : meet lock exts = .reader) : Orderly lock exts ↔ Free lock exts := by
  refine ⟨fun h => ?_, fun h _ => h.orderlyFrom []⟩
  have horder := h (meet_reader hmeet)
  obtain ⟨before, after, rfl, hbefore, hstop⟩ := meet_split lock exts
  rw [hmeet] at hstop
  obtain ⟨x, rest, rfl, hx, hover⟩ := hstop
  obtain ⟨-, -, hrest⟩ := orderlyFrom_append.mp horder
  -- whatever stands behind `x` has it among the locks seen
  have hbehind : ∀ (l seen : List PosixLock), x ∈ seen → OrderlyFrom lock seen l → Free lock l := by
    intro l
    induction l with
    | nil => exact fun _ _ _ c hc => absurd hc List.not_mem_nil
    | cons c l ih =>
        rintro seen hseen ⟨hc, hl⟩
        refine List.forall_mem_cons.mpr ⟨fun hown => ?_, ih _ (by simp [hseen]) hl⟩
        exact Bool.eq_false_of_not_eq_true fun hcover => hc hown hcover x hseen hx (.inl hover)
  intro c hc hown
  rcases List.mem_append.mp hc with hc | hc
  · exact (hbefore c hc).not_own hown
  rcases List.mem_cons.mp hc with rfl | hc
  · exact absurd hown.2 (Bool.eq_false_iff.mp hx.2.1)
  · exact hbehind rest _ (by simp) hrest c hc hown

/-! ## Taking a lock of the owner out of the list -/

section Conf

variable {lock conf : PosixLock} {before after : List PosixLock}

/-- The locks that remain do not overlap the one that is taken out. -/
theorem OwnOk.free_of_mem (hok : OwnOk (before ++ conf :: after)) (hconf : Own lock conf) :
    ∀ c ∈ before ++ after, Own lock c → locksOverlap c conf = false := by
  have hperm : OwnApart (conf :: (before ++ after)) :=
    (List.perm_middle.pairwise_iff apart_symm).mp hok.apart
  intro c hc hown
  rw [locksOverlap_comm]
  refine List.rel_of_pairwise_cons hperm hc hconf.1 hown.1 ?_
  rw [sameOwner_comm, sameOwner_congr hconf.2]
  exact hown.2

theorem lockMap_middle (hconf : conf.blocked = false) (client owner : ℕ) (x : ℤ) (t : LockType) :
    lockMap (before ++ conf :: after) client owner x t ↔
      lockMap (before ++ after) client owner x t ∨ conf.At client owner x ∧ conf.flType = t := by
  rw [lockMap_perm (List.perm_middle.trans (List.perm_append_singleton conf _).symm),
    lockMap_append, lockMap_singleton hconf]

/-- **The list without a lock that the loop has taken out** is orderly for the lock that is inserted
next if and only if it was for the one before, when both overlap the same locks of the owner and
touch the same locks of others. -/
theorem orderly_iff_rest {lock' : PosixLock} {left : List PosixLock} (hconf : Own lock conf)
    (hbefore : ∀ c ∈ before, Passed lock c) (htype : lock'.flType = lock.flType)
    (hsame : sameOwner lock' lock = true) (hleft : Free lock' left)
    (hover : ∀ c ∈ before ++ after, Own lock c → locksOverlap c lock' = locksOverlap c lock)
    (htouch : ∀ m, (∀ c ∈ m, c ∈ after) → ∀ x ∈ before ++ m,
      (Touches lock' (before ++ m) x ↔ Touches lock (before ++ conf :: m) x)) :
    Orderly lock (before ++ conf :: after) ↔ Orderly lock' (before ++ after ++ left) := by
  have howner : ∀ c, Own lock' c ↔ Own lock c := fun c => by rw [Own, Own, sameOwner_congr hsame]
  have hreader : ∀ c, Reader lock' c ↔ Reader lock c := fun c => by
    rw [Reader, Reader, sameOwner_congr hsame]
  have hfree : Free lock before := fun c hc hown => (hbefore c hc).not_own hown
  have hfree' : Free lock' before := fun c hc hown => by
    rw [hover c (List.mem_append_left _ hc) ((howner c).mp hown)]
    exact hfree c hc ((howner c).mp hown)
  -- the lock that is taken out is the first that must be merged
  have hfirst : lock.flType = .rdlck → Clear lock before := by
    rintro hread x hx hxr (htouches | ⟨d, hd, hdown, -, hdover, -⟩)
    · exact ((hbefore x hx) hxr.1 htouches).2 hread hxr.2.2
    · rw [hfree d hd hdown] at hdover
      cases hdover
  have hclear : ∀ m, (∀ c ∈ m, c ∈ after) →
      (Clear lock (before ++ conf :: m) ↔ Clear lock' (before ++ m)) := by
    intro m hm
    constructor
    · intro h x hx hxr htouches
      exact h x (sublist_middle.subset hx) ((hreader x).mp hxr) ((htouch m hm x hx).mp htouches)
    · intro h x hx hxr htouches
      have hx' : x ∈ before ++ m := by
        simp only [List.mem_append, List.mem_cons] at hx ⊢
        rcases hx with hx | rfl | hx
        · exact .inl hx
        · exact absurd hconf.2 (Bool.eq_false_iff.mp hxr.2.1)
        · exact .inr hx
      exact h x hx' ((hreader x).mpr hxr) ((htouch m hm x hx').mpr htouches)
  have hrest : ∀ l m, (∀ c ∈ m ++ l, c ∈ after) →
      (OrderlyFrom lock (before ++ conf :: m) l ↔ OrderlyFrom lock' (before ++ m) l) := by
    intro l
    induction l with
    | nil => exact fun m hm => Iff.rfl
    | cons c l ih =>
        intro m hm
        have hc : c ∈ before ++ after := List.mem_append_right _ (hm c (by simp))
        have hnext := ih (m ++ [c]) (by simpa using hm)
        simp only [OrderlyFrom, howner, List.append_assoc, List.cons_append] at hnext ⊢
        refine and_congr (forall_congr' fun hown => ?_) hnext
        rw [hover c hc hown, hclear m fun x hx => hm x (List.mem_append_left _ hx)]
  have hafter := hrest after [] (by simp)
  simp only [Orderly, htype, orderlyFrom_append, OrderlyFrom, List.nil_append]
  refine forall_congr' fun hread => ?_
  constructor
  · rintro ⟨-, -, h⟩
    exact ⟨⟨hfree'.orderlyFrom _, by simpa using hafter.mp h⟩, hleft.orderlyFrom _⟩
  · rintro ⟨⟨-, h⟩, -⟩
    exact ⟨hfree.orderlyFrom _, fun _ _ => hfirst hread, hafter.mpr (by simpa using h)⟩

/-- **Joining two locks of one type.** -/
theorem Merged.join {exts' : List PosixLock} (hok : OwnOk (before ++ conf :: after))
    (hconf : Own lock conf) (hoverlap : locksOverlap conf lock = true)
    (htype : conf.flType = lock.flType)
    (h : Merged (addLocks lock conf lock) (before ++ after) exts') :
    Merged lock (before ++ conf :: after) exts' := by
  refine ⟨h.ok, ?_⟩
  have hunlck : conf.flType ≠ .unlck := hok.typed conf (by simp)
  have hfree := hok.free_of_mem hconf
  obtain ⟨howner, hclient⟩ := sameOwner_iff.mp hconf.2
  rw [h.map]
  funext client owner x t
  rw [eq_iff_iff]
  simp only [LockMap.assign, lockMap_middle hconf.1]
  have hsum : (addLocks lock conf lock).At client owner x ↔
      lock.At client owner x ∨ conf.At client owner x := by
    simp only [PosixLock.At, addLocks_covers hoverlap, hclient, howner]
    simp only [addLocks]
    tauto
  -- only `conf` covers its bytes
  have honly : conf.At client owner x → ¬ lockMap (before ++ after) client owner x t := by
    rintro hat ⟨l, hl, hb, hlc, hlo, hcovers, -⟩
    have hown : Own lock l := ⟨hb, sameOwner_iff.mpr
      ⟨hlo.trans (hat.2.1.symm.trans howner), hlc.trans (hat.1.symm.trans hclient)⟩⟩
    exact not_covers_of_apart (hfree l hl hown) hcovers hat.2.2
  have hsumType : (addLocks lock conf lock).flType = lock.flType := rfl
  rw [hsum, hsumType]
  by_cases hlock : lock.At client owner x
  · simp [hlock]
  by_cases hcat : conf.At client owner x
  · have hnone := honly hcat
    simp only [hlock, hcat, or_true, true_and, not_true_eq_false, false_and, or_false,
      not_false_eq_true, false_or, hnone]
    constructor
    · rintro ⟨rfl, -⟩
      exact htype
    · rintro rfl
      exact ⟨htype, hunlck⟩
  · simp [hlock, hcat]

end Conf

/-! ## Cutting a lock -/

/-- The pieces of `conf` beside `lock`. -/
structure Cuts (conf lock : PosixLock) (pieces : List PosixLock) : Prop where
  piece : ∀ q ∈ pieces, q.Proper (-2 ^ 63) ∧ q.blocked = false ∧ q.client = conf.client ∧
    q.owner = conf.owner ∧ q.flType = conf.flType
  covers : ∀ x, (∃ q ∈ pieces, q.Covers x) ↔ conf.Covers x ∧ ¬ lock.Covers x
  apart : pieces.Pairwise fun a b => locksOverlap a b = false

theorem Cuts.singleton {conf lock q : PosixLock} (hproper : q.Proper (-2 ^ 63))
    (hfields : q.blocked = false ∧ q.client = conf.client ∧ q.owner = conf.owner ∧
      q.flType = conf.flType)
    (hcovers : ∀ x, q.Covers x ↔ conf.Covers x ∧ ¬ lock.Covers x) : Cuts conf lock [q] where
  piece p hp := List.mem_singleton.mp hp ▸ ⟨hproper, hfields⟩
  covers x := by simp only [List.mem_singleton, exists_eq_left, hcovers]
  apart := List.pairwise_singleton _ _

/-- **What `subtract_locks` gives**: the lock itself, and before and behind it pieces of the
old one. -/
theorem subtractLocks_cuts {conf lock : PosixLock} (hlock : lock.Proper (-2 ^ 63))
    (hconf : conf.Proper (-2 ^ 63)) (hblocked : lock.blocked = false)
    (hsame : sameOwner conf lock = true) (hoverlap : locksOverlap conf lock = true) :
    ∃ left middle right, subtractLocks (addLocks lock conf conf) lock = left ++ middle :: right ∧
      Cuts conf lock (left ++ right) ∧ middle.flType = lock.flType ∧
      middle.flStart = lock.flStart ∧ middle.flEnd = lock.flEnd ∧ middle.blocked = false ∧
      sameOwner middle lock = true := by
  have hself : sameOwner lock lock = true := sameOwner_iff.mpr ⟨rfl, rfl⟩
  unfold subtractLocks
  split_ifs with hboth hinside hstart hend
  · refine ⟨[], _, [], rfl, ⟨fun q hq => absurd hq List.not_mem_nil, fun x => ?_, .nil⟩, rfl,
      ?_, ?_, rfl, hsame⟩
    all_goals simp only [locksOverlap_iff, addLocks, PosixLock.Covers, List.append_nil,
      List.not_mem_nil, false_and, exists_false, false_iff] at *
    all_goals omega
  · refine ⟨[_], lock, [_], rfl, ⟨fun q hq => ?_, fun x => ?_, ?_⟩, rfl, rfl, rfl, hblocked, hself⟩
    · rw [List.singleton_append, List.mem_pair] at hq
      rcases hq with rfl | rfl <;> refine ⟨?_, rfl, rfl, rfl, rfl⟩ <;>
        simp only [locksOverlap_iff, addLocks, PosixLock.Proper] at * <;> omega
    · simp only [List.singleton_append, List.mem_pair, exists_eq_or_imp, exists_eq_left,
        locksOverlap_iff, addLocks, PosixLock.Covers, PosixLock.Proper] at *
      omega
    · refine List.pairwise_pair.mpr (Bool.eq_false_of_not_eq_true fun h => ?_)
      simp only [locksOverlap_iff, addLocks, PosixLock.Proper] at *
      omega
  · refine ⟨[_], lock, [], rfl, .singleton ?_ ⟨rfl, rfl, rfl, rfl⟩ fun x => ?_, rfl, rfl, rfl,
      hblocked, hself⟩ <;>
      simp only [locksOverlap_iff, addLocks, PosixLock.Covers, PosixLock.Proper] at * <;> omega
  · refine ⟨[_], lock, [], rfl, .singleton ?_ ⟨rfl, rfl, rfl, rfl⟩ fun x => ?_, rfl, rfl, rfl,
      hblocked, hself⟩ <;>
      simp only [locksOverlap_iff, addLocks, PosixLock.Covers, PosixLock.Proper] at * <;> omega
  · -- the sum ends where one of the two does
    simp only [locksOverlap_iff, addLocks, PosixLock.Proper] at *
    omega

/-- Locks that meet none of their owner, and do not meet each other, are added as they are. -/
theorem foldlM_free {fuel : ℕ} {pieces cur cur' : List PosixLock}
    (hpieces : ∀ q ∈ pieces, q.Proper (-2 ^ 63) ∧ q.blocked = false ∧ q.flType ≠ .unlck)
    (hapart : pieces.Pairwise fun a b => locksOverlap a b = false)
    (hfree : ∀ q ∈ pieces, Free q cur)
    (hrun : pieces.foldlM (insertAndMergeFuel fuel) cur = some cur') :
    cur' = cur ++ pieces ∧ (OwnOk cur → OwnOk cur') := by
  induction pieces generalizing cur with
  | nil =>
      cases hrun
      exact ⟨(List.append_nil _).symm, id⟩
  | cons q pieces ih =>
      obtain ⟨hproper, hblocked, htype⟩ := hpieces q List.mem_cons_self
      have hq := hfree q List.mem_cons_self
      rw [List.foldlM_cons] at hrun
      obtain ⟨mid, hmid, hrun⟩ := Option.bind_eq_some_iff.mp hrun
      -- the loop stops at no lock of the owner
      have hadd : mid = cur ++ [q] := by
        cases fuel with
        | zero => cases hmid
        | succ fuel =>
            rw [insertAndMergeFuel] at hmid
            cases hmeet : meet q cur with
            | reader =>
                rw [hmeet] at hmid
                exact (Option.some.inj hmid).symm
            | nothing =>
                rw [hmeet] at hmid
                simp only [htype, ne_eq, not_false_eq_true, if_true] at hmid
                exact (Option.some.inj hmid).symm
            | own conf rest =>
                obtain ⟨hb, hover, hsame, before, after, rfl, -⟩ := meet_own hmeet
                rw [hq conf (by simp) ⟨hb, hsame⟩] at hover
                cases hover
      subst hadd
      have hnext : ∀ p ∈ pieces, Free p (cur ++ [q]) := by
        intro p hp c hc hown
        rcases List.mem_append.mp hc with hc | hc
        · exact hfree p (List.mem_cons_of_mem _ hp) c hc hown
        · rw [List.mem_singleton.mp hc]
          exact List.rel_of_pairwise_cons hapart hp
      obtain ⟨rfl, hok'⟩ := ih (fun p hp => hpieces p (List.mem_cons_of_mem _ hp)) hapart.of_cons
        hnext hrun
      exact ⟨by rw [List.append_assoc, List.singleton_append],
        fun hok => hok' (hok.append hproper htype fun _ => hq)⟩

/-! ## What the owner can hold afterwards -/

/-- The lock covers the byte, or one of its owner does. -/
def Held (lock : PosixLock) (exts : List PosixLock) (x : ℤ) : Prop :=
  lock.Covers x ∨ ∃ c ∈ exts, Own lock c ∧ c.Covers x

/-- Locks whose bytes all are held, as far as they are locks of the owner. -/
def WithinHeld (lock : PosixLock) (exts : List PosixLock) (e : PosixLock) : Prop :=
  e.Proper (-2 ^ 63) ∧ (Own lock e → ∀ x, e.Covers x → Held lock exts x)

/-- **An insertion gives the owner no byte that is not its own or the lock's**, orderly or not. -/
theorem insertAndMergeFuel_held {fuel : ℕ} {exts exts' : List PosixLock} {lock : PosixLock}
    (hexts : ∀ l ∈ exts, l.Proper (-2 ^ 63)) (hlock : lock.Proper (-2 ^ 63))
    (hblocked : lock.blocked = false) (hrun : insertAndMergeFuel fuel exts lock = some exts') :
    ∀ e ∈ exts', WithinHeld lock exts e := by
  induction fuel generalizing exts exts' lock with
  | zero => cases hrun
  | succ fuel ih =>
      have hold : ∀ e ∈ exts, WithinHeld lock exts e := fun e he =>
        ⟨hexts e he, fun hown _ hx => .inr ⟨e, he, hown, hx⟩⟩
      have hadd : ∀ e ∈ exts ++ [lock], WithinHeld lock exts e := by
        refine List.forall_mem_append.mpr ⟨hold, List.forall_mem_singleton.mpr ?_⟩
        exact ⟨hlock, fun _ _ hx => .inl hx⟩
      rw [insertAndMergeFuel] at hrun
      cases hmeet : meet lock exts with
      | reader =>
          rw [hmeet] at hrun
          cases hrun
          exact hadd
      | nothing =>
          rw [hmeet] at hrun
          cases hrun
          split_ifs
          · exact hadd
          · exact hold
      | own conf rest =>
          rw [hmeet] at hrun
          obtain ⟨hconfb, hoverlap, hsame, before, after, rfl, rfl⟩ := meet_own hmeet
          have hconf := hexts conf (by simp)
          dsimp only at hrun
          split_ifs at hrun with htype
          · have hsum : (addLocks lock conf lock).Proper (-2 ^ 63) :=
              addLocks_proper hlock hconf (by rwa [locksOverlap_comm])
            intro e he
            obtain ⟨hproper, hheld⟩ := ih (fun l hl => hexts l (sublist_middle.subset hl)) hsum rfl
              hrun e he
            refine ⟨hproper, fun hown x hx => ?_⟩
            rcases hheld hown x hx with hx | ⟨c, hc, hcown, hx⟩
            · rcases (addLocks_covers hoverlap x).mp hx with hx | hx
              · exact .inl hx
              · exact .inr ⟨conf, by simp, ⟨hconfb, hsame⟩, hx⟩
            · exact .inr ⟨c, sublist_middle.subset hc, hcown, hx⟩
          · obtain ⟨all, hfold, rfl⟩ := Option.map_eq_some_iff.mp hrun
            suffices hall : ∀ e ∈ all, WithinHeld lock (before ++ conf :: after) e by
              exact fun e he => hall e (List.mem_of_mem_filter he)
            refine Loop.foldlM_invariant
              (fun cur => ∀ e ∈ cur, WithinHeld lock (before ++ conf :: after) e)
              (fun e he => hold e (sublist_middle.subset he))
              (fun p hp cur cur' hcur hstep e he => ?_) hfold
            obtain ⟨hp, hpb, hps, hpart⟩ :=
              mem_subtractLocks hlock hconf hoverlap hsame hblocked hp
            have howner : ∀ c, Own p c ↔ Own lock c := fun c => by
              rw [Own, Own, sameOwner_congr hps]
            obtain ⟨hproper, hheld⟩ := ih (fun l hl => (hcur l hl).1) hp hpb hstep e he
            refine ⟨hproper, fun hown x hx => ?_⟩
            rcases hheld ((howner e).mpr hown) x hx with hx | ⟨c, hc, hcown, hx⟩
            · -- a piece lies within the lock that is cut, or is the lock
              simp only [PosixLock.Covers] at hx
              rcases hpart with ⟨-, hstart, hend⟩ | ⟨-, hstart, hend⟩
              · exact .inr ⟨conf, by simp, ⟨hconfb, hsame⟩, hstart.trans hx.1, hx.2.trans hend⟩
              · exact .inl ⟨hstart.ge.trans hx.1, hx.2.trans hend.le⟩
            · exact (hcur c hc).2 ((howner c).mp hcown) x hx

section Cut

variable {lock conf : PosixLock} {before after left right : List PosixLock}

theorem Cuts.sameOwner_eq {pieces : List PosixLock} (h : Cuts conf lock pieces)
    (hconf : Own lock conf) {q : PosixLock} (hq : q ∈ pieces) (c : PosixLock) :
    sameOwner c q = sameOwner c lock := by
  obtain ⟨-, -, hclient, howner, -⟩ := h.piece q hq
  refine sameOwner_congr ?_ c
  rw [sameOwner_iff] at *
  exact ⟨howner.trans (sameOwner_iff.mp hconf.2).1, hclient.trans (sameOwner_iff.mp hconf.2).2⟩

/-- The pieces do not overlap the lock. -/
theorem Cuts.not_overlap {pieces : List PosixLock} (h : Cuts conf lock pieces)
    (hlock : lock.Proper (-2 ^ 63)) {q : PosixLock} (hq : q ∈ pieces) :
    locksOverlap q lock = false := by
  refine Bool.eq_false_of_not_eq_true fun hover => ?_
  obtain ⟨x, hqx, hlx⟩ := exists_covers (h.piece q hq).1 hlock hover
  exact ((h.covers x).mp ⟨q, hq, hqx⟩).2 hlx

/-- A piece meets none of the locks that did not overlap the whole. -/
theorem Cuts.free {pieces : List PosixLock} (h : Cuts conf lock pieces) (hconf : Own lock conf)
    (hok : OwnOk (before ++ conf :: after)) {q : PosixLock} (hq : q ∈ pieces) :
    Free q (before ++ after) := by
  intro c hc hown
  have hproper : c.Proper (-2 ^ 63) := hok.proper c (sublist_middle.subset hc)
  have hownc : sameOwner c lock = true := by
    rw [← h.sameOwner_eq hconf hq]
    exact hown.2
  have hapart := hok.free_of_mem hconf c hc ⟨hown.1, hownc⟩
  refine Bool.eq_false_of_not_eq_true fun hover => ?_
  obtain ⟨x, hcx, hqx⟩ := exists_covers hproper (h.piece q hq).1 hover
  exact not_covers_of_apart hapart hcx ((h.covers x).mp ⟨q, hq, hqx⟩).1

/-- The map of the pieces: what is left of `conf`. -/
theorem Cuts.lockMap_iff {pieces : List PosixLock} (h : Cuts conf lock pieces)
    (hconf : Own lock conf) (client owner : ℕ) (x : ℤ) (t : LockType) :
    lockMap pieces client owner x t ↔
      (conf.At client owner x ∧ conf.flType = t) ∧ ¬ lock.At client owner x := by
  obtain ⟨howner, hclient⟩ := sameOwner_iff.mp hconf.2
  constructor
  · rintro ⟨q, hq, -, hqc, hqo, hqx, hqt⟩
    obtain ⟨-, -, hclient', howner', htype'⟩ := h.piece q hq
    obtain ⟨hcx, hlx⟩ := (h.covers x).mp ⟨q, hq, hqx⟩
    exact ⟨⟨⟨hclient'.symm.trans hqc, howner'.symm.trans hqo, hcx⟩, htype'.symm.trans hqt⟩,
      fun hat => hlx hat.2.2⟩
  · rintro ⟨⟨hat, htype⟩, hnot⟩
    have hlx : ¬ lock.Covers x := fun hlx =>
      hnot ⟨hclient.symm.trans hat.1, howner.symm.trans hat.2.1, hlx⟩
    obtain ⟨q, hq, hqx⟩ := (h.covers x).mpr ⟨hat.2.2, hlx⟩
    obtain ⟨-, hb, hclient', howner', htype'⟩ := h.piece q hq
    exact ⟨q, hq, hb, hclient'.trans hat.1, howner'.trans hat.2.1, hqx, htype'.trans htype⟩

/-- The lock is orderly among the pieces as well, and not more so. -/
theorem Cuts.orderly_iff {middle : PosixLock} (h : Cuts conf lock (left ++ right))
    (hlock : lock.Proper (-2 ^ 63)) (hconf : Own lock conf) (htype : conf.flType ≠ lock.flType)
    (hbefore : ∀ c ∈ before, Passed lock c) (hmtype : middle.flType = lock.flType)
    (hmstart : middle.flStart = lock.flStart) (hmend : middle.flEnd = lock.flEnd)
    (hmsame : sameOwner middle lock = true) :
    Orderly lock (before ++ conf :: after) ↔ Orderly middle (before ++ after ++ left) := by
  have hover : ∀ c, locksOverlap c middle = locksOverlap c lock := fun c => by
    simp only [locksOverlap, hmstart, hmend]
  refine orderly_iff_rest hconf hbefore hmtype hmsame (fun c hc _ => ?_) (fun c _ _ => hover c)
    fun m _ x _ => ?_
  · rw [hover]
    exact h.not_overlap hlock (List.mem_append_left _ hc)
  · simp only [Touches, Own, hover, hmtype, sameOwner_congr hmsame]
    refine or_congr Iff.rfl (exists_congr fun d => ?_)
    simp only [List.mem_append, List.mem_cons]
    constructor
    · rintro ⟨hd, hrest⟩
      exact ⟨by tauto, hrest⟩
    · rintro ⟨hd, hown, hdtype, hrest⟩
      have hne : d ≠ conf := fun heq => htype (heq ▸ hdtype)
      exact ⟨by tauto, hown, hdtype, hrest⟩

/-- After the lock itself is inserted, the pieces behind it still meet nothing. -/
theorem Cuts.free_right (h : Cuts conf lock (left ++ right)) (hconf : Own lock conf)
    (hok : OwnOk (before ++ conf :: after)) {cur : List PosixLock}
    (hcur : ∀ e ∈ cur, WithinHeld lock (before ++ after ++ left) e) {q : PosixLock}
    (hq : q ∈ right) : Free q cur := by
  have hmem : q ∈ left ++ right := List.mem_append_right _ hq
  intro e he hown
  rw [Own, h.sameOwner_eq hconf hmem] at hown
  refine Bool.eq_false_of_not_eq_true fun hover => ?_
  obtain ⟨hproper, hheld⟩ := hcur e he
  obtain ⟨x, hex, hqx⟩ := exists_covers hproper (h.piece q hmem).1 hover
  rcases hheld hown x hex with hlx | ⟨c, hc, hcown, hcx⟩
  · exact ((h.covers x).mp ⟨q, hmem, hqx⟩).2 hlx
  have hapart : locksOverlap c q = false := by
    rcases List.mem_append.mp hc with hc | hc
    · exact h.free hconf hok hmem c hc (by rw [Own, h.sameOwner_eq hconf hmem]; exact hcown)
    · exact (List.pairwise_append.mp h.apart).2.2 c hc q hq
  exact not_covers_of_apart hapart hcx hqx

/-- **Cutting a lock of another type**: the pieces before the lock, the lock and the pieces
behind it give the map of the request. -/
theorem Merged.cut (h : Cuts conf lock (left ++ right)) (hconf : Own lock conf)
    {cur : List PosixLock} (hcur : Merged lock (before ++ after ++ left) cur)
    (hok : OwnOk (cur ++ right)) : Merged lock (before ++ conf :: after) (cur ++ right) := by
  refine ⟨hok, ?_⟩
  funext client owner x t
  have hpieces := h.lockMap_iff hconf client owner x t
  rw [lockMap_append] at hpieces
  rw [eq_iff_iff, lockMap_append, hcur.map]
  simp only [LockMap.assign, lockMap_middle hconf.1, lockMap_append]
  tauto

end Cut

/-! ## The whole insertion -/

theorem Merged.congr {lock lock' : PosixLock} {exts exts' : List PosixLock}
    (h : Merged lock' exts exts') (htype : lock'.flType = lock.flType)
    (hstart : lock'.flStart = lock.flStart) (hend : lock'.flEnd = lock.flEnd)
    (hsame : sameOwner lock' lock = true) : Merged lock exts exts' := by
  obtain ⟨howner, hclient⟩ := sameOwner_iff.mp hsame
  refine ⟨h.ok, h.map.trans ?_⟩
  funext client owner x t
  simp only [LockMap.assign, PosixLock.At, PosixLock.Covers, htype, hstart, hend, howner, hclient]

section Round

variable {conf lock : PosixLock} {before after : List PosixLock}

/-- The sum of the lock and a lock of its type is orderly among the others exactly if the lock was
orderly. -/
theorem orderly_iff_sum (hbefore : ∀ c ∈ before, Passed lock c)
    (hok : OwnOk (before ++ conf :: after)) (hlock : lock.Proper (-2 ^ 63)) (hown : Own lock conf)
    (htype : conf.flType = lock.flType) (hoverlap : locksOverlap lock conf = true) :
    Orderly lock (before ++ conf :: after) ↔ Orderly (addLocks lock conf lock) (before ++ after) := by
  have hproper : ∀ c ∈ before ++ after, c.Proper (-2 ^ 63) := fun c hc =>
    hok.proper c (sublist_middle.subset hc)
  have hsum : ∀ c ∈ before ++ after, (locksOverlap c (addLocks lock conf lock) = true ↔
      locksOverlap c lock = true ∨ locksOverlap c conf = true) := by
    intro c hc
    constructor
    · intro h
      rw [locksOverlap_comm] at h
      rw [locksOverlap_comm c lock, locksOverlap_comm c conf]
      exact addLocks_overlap hlock (hok.proper conf (by simp)) (hproper c hc) hoverlap h
    · simp only [locksOverlap_iff, addLocks]
      omega
  -- a lock of the owner that overlaps the sum does not overlap `conf`
  have hover : ∀ c ∈ before ++ after, Own lock c →
      locksOverlap c (addLocks lock conf lock) = locksOverlap c lock := by
    intro c hc hcown
    rw [Bool.eq_iff_iff, hsum c hc, hok.free_of_mem hown c hc hcown]
    simp
  rw [← List.append_nil (before ++ after)]
  refine orderly_iff_rest hown hbefore rfl (sameOwner_iff.mpr ⟨rfl, rfl⟩)
    (fun c hc => absurd hc List.not_mem_nil) hover fun m hm x hx => ?_
  have hsub : ∀ c ∈ before ++ m, c ∈ before ++ after := fun c hc =>
    (List.mem_append.mp hc).elim (List.mem_append_left _) fun hc => List.mem_append_right _ (hm c hc)
  rw [Touches, Touches, hsum x (hsub x hx)]
  constructor
  · rintro ((h | h) | ⟨d, hd, hdown, hdtype, hdover, h⟩)
    · exact .inl h
    · exact .inr ⟨conf, by simp, hown, htype, by rwa [locksOverlap_comm], h⟩
    · exact .inr ⟨d, sublist_middle.subset hd, hdown, hdtype,
        hover d (hsub d hd) hdown ▸ hdover, h⟩
  · rintro (h | ⟨d, hd, hdown, hdtype, hdover, h⟩)
    · exact .inl (.inl h)
    rcases (show d = conf ∨ d ∈ before ++ m by
      simp only [List.mem_append, List.mem_cons] at hd ⊢; tauto) with rfl | hd
    · exact .inl (.inr h)
    · exact .inr ⟨d, hd, hdown, hdtype, (hover d (hsub d hd) hdown).trans hdover, h⟩

/-- **The round that cuts a lock**: what `l` inserted the lock itself, among the rest and the pieces
before it, and the pieces behind it are added to that. -/
theorem pieces_inserted {fuel : ℕ} (hok : OwnOk (before ++ conf :: after))
    (hlock : lock.Proper (-2 ^ 63)) (hblocked : lock.blocked = false) (hown : Own lock conf)
    (hoverlap : locksOverlap conf lock = true) {all : List PosixLock}
    (hfold : (subtractLocks (addLocks lock conf conf) lock).foldlM (insertAndMergeFuel fuel)
      (before ++ after) = some all) :
    ∃ left middle right cur, Cuts conf lock (left ++ right) ∧ middle.flType = lock.flType ∧
      middle.flStart = lock.flStart ∧ middle.flEnd = lock.flEnd ∧ middle.blocked = false ∧
      sameOwner middle lock = true ∧ middle.Proper (-2 ^ 63) ∧ OwnOk (before ++ after ++ left) ∧
      insertAndMergeFuel fuel (before ++ after ++ left) middle = some cur ∧ all = cur ++ right ∧
      (OwnOk cur → OwnOk all) := by
  have hrest : OwnOk (before ++ after) := hok.sublist sublist_middle
  obtain ⟨left, middle, right, hpieces, hcuts, hmtype, hmstart, hmend, hmblocked, hmsame⟩ :=
    subtractLocks_cuts hlock (hok.proper conf (by simp)) hblocked hown.2 hoverlap
  have hpiece : ∀ q ∈ left ++ right,
      q.Proper (-2 ^ 63) ∧ q.blocked = false ∧ q.flType ≠ .unlck := by
    intro q hq
    obtain ⟨hproper, hb, -, -, hqtype⟩ := hcuts.piece q hq
    exact ⟨hproper, hb, hqtype ▸ hok.typed conf (by simp)⟩
  have hmproper : middle.Proper (-2 ^ 63) := by
    rw [PosixLock.Proper, hmstart, hmend]
    exact hlock
  obtain ⟨hleft, hright, -⟩ := List.pairwise_append.mp hcuts.apart
  rw [hpieces, List.foldlM_append] at hfold
  obtain ⟨cur₁, hcur₁, hfold₁⟩ := Option.bind_eq_some_iff.mp hfold
  rw [List.foldlM_cons] at hfold₁
  obtain ⟨cur₂, hcur₂, hfold₂⟩ := Option.bind_eq_some_iff.mp hfold₁
  obtain ⟨rfl, hok₁⟩ := foldlM_free (fun q hq => hpiece q (List.mem_append_left _ hq)) hleft
    (fun q hq => hcuts.free hown hok (List.mem_append_left _ hq)) hcur₁
  -- the middle piece is the lock, as far as the bytes of its owner go
  have hheld : ∀ e ∈ cur₂, WithinHeld lock (before ++ after ++ left) e := by
    intro e he
    have := insertAndMergeFuel_held (hok₁ hrest).proper hmproper hmblocked hcur₂ e he
    simpa only [WithinHeld, Held, Own, PosixLock.Covers, hmstart, hmend, sameOwner_congr hmsame]
      using this
  obtain ⟨rfl, hok₂⟩ := foldlM_free (fun q hq => hpiece q (List.mem_append_right _ hq)) hright
    (fun q hq => hcuts.free_right hown hok hheld hq) hfold₂
  exact ⟨left, middle, right, cur₂, hcuts, hmtype, hmstart, hmend, hmblocked, hmsame, hmproper,
    hok₁ hrest, hcur₂, rfl, hok₂⟩

end Round

/-- The lock of the owner at which the loop stops, and what stands before it. -/
theorem meet_own_split {lock conf : PosixLock} {exts rest : List PosixLock}
    (h : meet lock exts = .own conf rest) : Own lock conf ∧ locksOverlap conf lock = true ∧
      ∃ before after, exts = before ++ conf :: after ∧ rest = before ++ after ∧
        ∀ c ∈ before, Passed lock c := by
  obtain ⟨hblocked, hoverlap, hsame, -⟩ := meet_own h
  obtain ⟨before, after, rfl, hbefore, hstop⟩ := meet_split lock exts
  rw [h] at hstop
  obtain ⟨after, rfl, rfl⟩ := hstop
  exact ⟨⟨hblocked, hsame⟩, hoverlap, before, after, rfl, rfl, hbefore⟩

/-- **`__insert_and_merge` gives the map of the request**, when the list is orderly.  The
induction is on the depth of the calls. -/
theorem insertAndMergeFuel_merged {fuel : ℕ} {exts exts' : List PosixLock} {lock : PosixLock}
    (hok : OwnOk exts) (hlock : lock.Proper (-2 ^ 63)) (hblocked : lock.blocked = false)
    (horder : Orderly lock exts) (hrun : insertAndMergeFuel fuel exts lock = some exts') :
    Merged lock exts exts' := by
  induction fuel generalizing exts exts' lock with
  | zero => cases hrun
  | succ fuel ih =>
      rw [insertAndMergeFuel] at hrun
      cases hmeet : meet lock exts with
      | reader =>
          rw [hmeet] at hrun
          cases hrun
          exact merged_append hok hlock hblocked (by rw [meet_reader hmeet]; rintro ⟨⟩)
            ((free_iff_of_reader hmeet).mp horder)
      | nothing =>
          rw [hmeet] at hrun
          cases hrun
          split_ifs with htype
          · exact merged_append hok hlock hblocked htype (meet_nothing hmeet)
          · exact merged_self hok (not_not.mp htype) (meet_nothing hmeet)
      | own conf rest =>
          rw [hmeet] at hrun
          obtain ⟨hown, hoverlap, before, after, rfl, rfl, hbefore⟩ := meet_own_split hmeet
          have hoverlap' : locksOverlap lock conf = true := by rwa [locksOverlap_comm]
          dsimp only at hrun
          split_ifs at hrun with htype
          · have hsum : (addLocks lock conf lock).Proper (-2 ^ 63) :=
              addLocks_proper hlock (hok.proper conf (by simp)) hoverlap'
            exact Merged.join hok hown hoverlap htype (ih (hok.sublist sublist_middle) hsum rfl
              ((orderly_iff_sum hbefore hok hlock hown htype hoverlap').mp horder) hrun)
          · obtain ⟨all, hfold, rfl⟩ := Option.map_eq_some_iff.mp hrun
            obtain ⟨left, middle, right, cur, hcuts, hmtype, hmstart, hmend, hmblocked, hmsame,
              hmproper, hok₁, hcur, rfl, hall⟩ :=
              pieces_inserted hok hlock hblocked hown hoverlap hfold
            have horder₁ := (hcuts.orderly_iff hlock hown htype hbefore hmtype hmstart hmend
              hmsame).mp horder
            have hmiddle : Merged lock (before ++ after ++ left) cur :=
              (ih hok₁ hmproper hmblocked horder₁ hcur).congr hmtype hmstart hmend hmsame
            have hok₂ := hall hmiddle.ok
            have hfilter : deleteUnlckLocks (cur ++ right) = cur ++ right :=
              List.filter_eq_self.mpr fun l hl => by simp [hok₂.typed l hl]
            rw [hfilter]
            exact Merged.cut hcuts hown hmiddle hok₂

/-- **Otherwise two locks of the owner overlap in the end.**  The lock that is left behind stays
where it was, and the loop has left the list before it. -/
theorem insertAndMergeFuel_early {fuel : ℕ} {exts exts' : List PosixLock} {lock : PosixLock}
    (hok : OwnOk exts) (hlock : lock.Proper (-2 ^ 63)) (hblocked : lock.blocked = false)
    (horder : ¬ Orderly lock exts) (hrun : insertAndMergeFuel fuel exts lock = some exts') :
    ∃ c e, [c, e].Sublist exts' ∧ Own lock c ∧ Own lock e ∧ c.flType ≠ .unlck ∧
      e.flType ≠ .unlck ∧ locksOverlap c e = true := by
  induction fuel generalizing exts exts' lock with
  | zero => cases hrun
  | succ fuel ih =>
      obtain ⟨hread, hfrom⟩ := Classical.not_imp.mp horder
      rw [insertAndMergeFuel] at hrun
      cases hmeet : meet lock exts with
      | reader =>
          rw [hmeet] at hrun
          cases hrun
          rw [free_iff_of_reader hmeet] at horder
          simp only [Free, not_forall, Bool.not_eq_false] at horder
          obtain ⟨c, hc, hown, hover⟩ := horder
          refine ⟨c, lock, ?_, hown, ⟨hblocked, sameOwner_iff.mpr ⟨rfl, rfl⟩⟩, hok.typed c hc,
            by rw [hread]; rintro ⟨⟩, hover⟩
          exact (List.singleton_sublist.mpr hc).append (.refl [lock])
      | nothing => exact absurd ((meet_nothing hmeet).orderlyFrom []) hfrom
      | own conf rest =>
          rw [hmeet] at hrun
          obtain ⟨hown, hoverlap, before, after, rfl, rfl, hbefore⟩ := meet_own_split hmeet
          have hoverlap' : locksOverlap lock conf = true := by rwa [locksOverlap_comm]
          dsimp only at hrun
          split_ifs at hrun with htype
          · have hsum : (addLocks lock conf lock).Proper (-2 ^ 63) :=
              addLocks_proper hlock (hok.proper conf (by simp)) hoverlap'
            rw [orderly_iff_sum hbefore hok hlock hown htype hoverlap'] at horder
            -- the sum has the owner of the lock
            have hsub := ih (hok.sublist sublist_middle) hsum rfl horder hrun
            exact hsub
          · obtain ⟨all, hfold, rfl⟩ := Option.map_eq_some_iff.mp hrun
            obtain ⟨left, middle, right, cur, hcuts, hmtype, hmstart, hmend, hmblocked, hmsame,
              hmproper, hok₁, hcur, rfl, -⟩ :=
              pieces_inserted hok hlock hblocked hown hoverlap hfold
            rw [hcuts.orderly_iff hlock hown htype hbefore hmtype hmstart hmend hmsame] at horder
            obtain ⟨c, e, hsub, hc, he, hctype, hetype, hover⟩ :=
              ih hok₁ hmproper hmblocked horder hcur
            rw [Own, sameOwner_congr hmsame] at hc he
            refine ⟨c, e, ?_, hc, he, hctype, hetype, hover⟩
            have hkept := (hsub.trans (List.sublist_append_left cur right)).filter
              fun l => decide (l.flType ≠ .unlck)
            simpa [deleteUnlckLocks, hctype, hetype] using hkept

/-- The recursion ends, and the result is that of POSIX if and only if the list is orderly. -/
theorem insertAndMerge_merged_iff {exts : List PosixLock} {lock : PosixLock} (hok : OwnOk exts)
    (hlock : lock.Proper (-2 ^ 63)) (hblocked : lock.blocked = false) :
    (lockMap (insertAndMerge exts lock) = (lockMap exts).assign lock.At lock.flType ∧
      OwnApart (insertAndMerge exts lock)) ↔ Orderly lock exts := by
  have hrun := insertAndMerge_eq hok.proper hlock hblocked
  refine ⟨fun h => by_contra fun horder => ?_, fun horder => ?_⟩
  · obtain ⟨c, e, hsub, hc, he, -, -, hover⟩ :=
      insertAndMergeFuel_early hok hlock hblocked horder hrun
    have hapart := List.pairwise_pair.mp (List.Pairwise.sublist hsub h.2) hc.1 he.1
      (by rw [sameOwner_comm, sameOwner_congr hc.2, he.2])
    rw [hover] at hapart
    cases hapart
  · have hmerged := insertAndMergeFuel_merged hok hlock hblocked horder hrun
    exact ⟨hmerged.map, hmerged.ok.apart⟩

theorem insertAndMerge_own {exts : List PosixLock} {lock : PosixLock} (hok : OwnOk exts)
    (hlock : lock.Proper (-2 ^ 63)) (hblocked : lock.blocked = false)
    (horder : Orderly lock exts) : OwnOk (insertAndMerge exts lock) :=
  (insertAndMergeFuel_merged hok hlock hblocked horder
    (insertAndMerge_eq hok.proper hlock hblocked)).ok

/-! ## Runs -/

/-- The insertions of one pass of `__grant_blocked_locks` over the locks `todo` are orderly. -/
def grantOrderly : List PosixLock → List PosixLock → Prop
  | _, [] => True
  | exts, l :: todo =>
      (isLockGrantable exts { l with blocked := false } = true →
        Orderly { l with blocked := false } exts) ∧
      grantOrderly (grantOne (exts, []) l).1 todo

/-- The insertions of `__grant_blocked_locks` are orderly. -/
def GrantsOrderly (exts : List PosixLock) : Prop :=
  grantOrderly (exts.filter fun l => !selected exts l) (exts.filter (selected exts))

/-- The insertions of `pl_setlk` are orderly: those of the locks that the unlock in front of a
request that has to wait lets through, and that of the request itself. -/
def SetlkOrderly (exts : List PosixLock) (lock : PosixLock) (canBlock : Bool) : Prop :=
  ((canBlock && !isLockGrantable exts lock) = true → GrantsOrderly
    (insertAndMerge exts { lock with flType := .unlck, blocked := false })) ∧
  (isLockGrantable (if canBlock && !isLockGrantable exts lock then plSendPrelockUnlock exts lock
      else exts) lock = true →
    Orderly lock (if canBlock && !isLockGrantable exts lock then plSendPrelockUnlock exts lock
      else exts))

/-- All insertions of a step are orderly. -/
def StepOrderly (s : PosixState) : PosixAct → Prop
  | .setlk flock canBlock => SetlkOrderly s.exts (newPosixLock flock) canBlock
  | .deleteFd _ => True
  | .deleteOwner _ _ => True
  | .grant => GrantsOrderly s.exts

theorem orderly_unlck {exts : List PosixLock} {lock : PosixLock} (h : lock.flType = .unlck) :
    Orderly lock exts := fun hread => absurd (h.symm.trans hread) (by rintro ⟨⟩)

theorem OwnOk.appendBlocked {exts : List PosixLock} {lock : PosixLock} (hok : OwnOk exts)
    (hlock : lock.Proper (-2 ^ 63)) (htype : lock.flType ≠ .unlck) :
    OwnOk (exts ++ [{ lock with blocked := true }]) :=
  hok.append hlock htype (by rintro ⟨⟩)

theorem grantOne_own {state : List PosixLock × List PosixLock} {l : PosixLock}
    (hok : OwnOk state.1) (hl : l.Proper (-2 ^ 63)) (htype : l.flType ≠ .unlck)
    (horder : isLockGrantable state.1 { l with blocked := false } = true →
      Orderly { l with blocked := false } state.1) : OwnOk (grantOne state l).1 := by
  unfold grantOne
  split_ifs with hgrant
  · have hl' : { l with blocked := false }.Proper (-2 ^ 63) := hl
    exact insertAndMerge_own hok hl' rfl (horder hgrant)
  · exact hok.appendBlocked hl htype

theorem grantOne_fst (state : List PosixLock × List PosixLock) (l : PosixLock) :
    (grantOne state l).1 = (grantOne (state.1, []) l).1 := by
  unfold grantOne
  dsimp only
  split_ifs <;> rfl

theorem foldl_grantOne_own {todo : List PosixLock} {state : List PosixLock × List PosixLock}
    (hok : OwnOk state.1) (htodo : ∀ l ∈ todo, l.Proper (-2 ^ 63) ∧ l.flType ≠ .unlck)
    (horder : grantOrderly state.1 todo) : OwnOk (todo.foldl grantOne state).1 := by
  induction todo generalizing state with
  | nil => exact hok
  | cons l todo ih =>
      obtain ⟨hl, htype⟩ := htodo l List.mem_cons_self
      obtain ⟨hfirst, hrest⟩ := horder
      refine ih (grantOne_own hok hl htype hfirst)
        (fun x hx => htodo x (List.mem_cons_of_mem _ hx)) ?_
      rwa [grantOne_fst]

/-- Granting blocked locks keeps the locks of every owner apart. -/
theorem grantBlockedLocks_own {exts : List PosixLock} (hok : OwnOk exts)
    (horder : GrantsOrderly exts) : OwnOk (grantBlockedLocks exts).1 :=
  foldl_grantOne_own (hok.sublist List.filter_sublist) (fun l hl =>
    ⟨hok.proper l (List.mem_of_mem_filter hl), hok.typed l (List.mem_of_mem_filter hl)⟩) horder

theorem plSetlk_own {exts : List PosixLock} {lock : PosixLock} {canBlock : Bool}
    (hok : OwnOk exts) (hlock : lock.Proper (-2 ^ 63)) (hblocked : lock.blocked = false)
    (horder : SetlkOrderly exts lock canBlock) : OwnOk (plSetlk exts lock canBlock).1 := by
  obtain ⟨hwaits, hrequest⟩ := horder
  have hprelock : OwnOk (if canBlock && !isLockGrantable exts lock then
      plSendPrelockUnlock exts lock else exts) := by
    split_ifs with h
    · have hunlock : { lock with flType := .unlck, blocked := false }.Proper (-2 ^ 63) := hlock
      exact grantBlockedLocks_own
        (insertAndMerge_own hok hunlock rfl (orderly_unlck rfl)) (hwaits h)
    · exact hok
  unfold plSetlk
  dsimp only
  generalize (if (canBlock && !isLockGrantable exts lock) = true then
    plSendPrelockUnlock exts lock else exts) = mid at hprelock hrequest ⊢
  split_ifs with hgrant hwait
  · exact insertAndMerge_own hprelock hlock hblocked (hrequest hgrant)
  · exact hprelock.appendBlocked hlock fun h => hgrant (isLockGrantable_unlck h)
  · exact hprelock

/-- One step keeps the locks of every owner apart. -/
theorem posixStep_own {s s' : PosixState} {a : PosixAct} (hok : OwnOk s.exts)
    (horder : StepOrderly s a) (h : posixStep s a = some s') : OwnOk s'.exts := by
  cases a with
  | setlk flock canBlock =>
      simp only [posixStep] at h
      split_ifs at h with hrange
      cases h
      exact plSetlk_own hok (newPosixLock_proper hrange (.inr le_rfl)) rfl horder
  | deleteFd fdNum =>
      cases h
      exact hok.sublist List.filter_sublist
  | deleteOwner client owner =>
      cases h
      exact hok.sublist List.filter_sublist
  | grant =>
      cases h
      exact grantBlockedLocks_own hok horder

theorem OwnOk.nil : OwnOk [] where
  proper _ hl := absurd hl List.not_mem_nil
  typed _ hl := absurd hl List.not_mem_nil
  apart := List.Pairwise.nil

theorem reachable_own {s : PosixState} (h : posixLocks.ReachableWhen StepOrderly s) :
    OwnOk s.exts := by
  refine h.invariant (fun s => OwnOk s.exts) ?_
    fun s a s' hok horder hstep => posixStep_own hok horder hstep
  rintro s rfl
  exact OwnOk.nil

/-! ## Requests -/

/-- The lock of a request that does not overflow is about the bytes that were asked for. -/
theorem at_newPosixLock {flock : Flock} (h : flock.Admitted) (hrange : flock.InRange) :
    (newPosixLock flock).At = flock.At := by
  have hordered : (newPosixLock flock).Proper 0 := newPosixLock_proper h (.inl hrange)
  funext client owner x
  rw [PosixLock.At, Flock.At, ← bytes_newPosixLock h, eq_iff_iff]
  refine and_congr Iff.rfl (and_congr Iff.rfl ?_)
  have hle := hordered.ordered
  obtain ⟨-, hend, -⟩ := hordered
  constructor
  · rintro ⟨hx, hx'⟩
    exact ⟨hx, by omega, .inr hx'⟩
  · rintro ⟨hx, -, hx'⟩
    exact ⟨hx, by omega⟩

/-- A lock whose end has overflowed meets nothing, and it covers no byte. -/
theorem insertAndMerge_overflow {exts : List PosixLock} (hok : OwnOk exts) {lock : PosixLock}
    (hend : lock.flEnd < 0) (hstart : 0 ≤ lock.flStart) :
    lockMap (insertAndMerge exts lock) = lockMap exts ∧ OwnApart (insertAndMerge exts lock) := by
  have hnone : ∀ c ∈ exts, locksOverlap c lock = false := fun c hc => by
    obtain ⟨hc, -⟩ := hok.proper c hc
    refine Bool.eq_false_of_not_eq_true fun h => ?_
    rw [locksOverlap_iff] at h
    omega
  have hmap : lockMap (exts ++ [lock]) = lockMap exts := by
    funext client owner x t
    refine eq_iff_iff.mpr ((lockMap_append _ _ _ _ _ _).trans (or_iff_left ?_))
    rintro ⟨l, hl, -, -, -, ⟨hx, hx'⟩, -⟩
    rw [List.mem_singleton.mp hl] at hx hx'
    omega
  have happart : OwnApart (exts ++ [lock]) := by
    refine List.pairwise_append.mpr ⟨hok.apart, List.pairwise_singleton _ _, ?_⟩
    intro c hc l hl _ _ _
    rw [List.mem_singleton.mp hl]
    exact hnone c hc
  rw [insertAndMerge, insertAndMergeFuel]
  cases hmeet : meet lock exts with
  | reader => exact ⟨hmap, happart⟩
  | nothing =>
      dsimp only
      split_ifs
      · exact ⟨hmap, happart⟩
      · exact ⟨rfl, hok.apart⟩
  | own conf rest =>
      obtain ⟨-, hoverlap, -, before, after, rfl, -⟩ := meet_own hmeet
      rw [hnone conf (by simp)] at hoverlap
      cases hoverlap

/-- **An insertion does what POSIX says exactly in these cases.**  In every state of a run whose
insertions are all orderly, and for every request: the recursion ends; and the owner holds the type
of the request on the bytes it has asked for (nothing after an unlock) and what it held elsewhere,
the other owners hold what they held, and no two granted locks of one owner overlap, if and only if
the range does not overflow and the list is orderly for the request, or it overflows and the owner
had exactly what it asks for. -/
theorem insert_exact_iff {s : PosixState} (h : posixLocks.ReachableWhen StepOrderly s) {flock : Flock}
    (hflock : flock.Admitted) :
    insertAndMergeFuel (total s.exts + (newPosixLock flock).length + 1) s.exts (newPosixLock flock)
        = some (insertAndMerge s.exts (newPosixLock flock)) ∧
      OwnApart s.exts ∧
      ((lockMap (insertAndMerge s.exts (newPosixLock flock))
          = (lockMap s.exts).assign flock.At flock.lType ∧
        OwnApart (insertAndMerge s.exts (newPosixLock flock))) ↔
        (flock.InRange ∧ Orderly (newPosixLock flock) s.exts ∨
          ¬ flock.InRange ∧ lockMap s.exts = (lockMap s.exts).assign flock.At flock.lType)) := by
  have hok := reachable_own h
  have hlock : (newPosixLock flock).Proper (-2 ^ 63) := newPosixLock_proper hflock (.inr le_rfl)
  refine ⟨insertAndMerge_eq hok.proper hlock rfl, hok.apart, ?_⟩
  by_cases hrange : flock.InRange
  · have hiff := insertAndMerge_merged_iff hok hlock rfl
    rw [at_newPosixLock hflock hrange, show (newPosixLock flock).flType = flock.lType from rfl] at hiff
    simpa only [hrange, true_and, not_true_eq_false, false_and, or_false] using hiff
  · have hend : (newPosixLock flock).flEnd < 0 := by
      rw [flEnd_eq hflock]
      obtain ⟨hstart, hstart', hlen, hlen'⟩ := hflock
      obtain ⟨hzero, hlarge⟩ := not_or.mp hrange
      rw [if_neg hzero, if_neg (by omega)]
      omega
    obtain ⟨hmap, happart⟩ := insertAndMerge_overflow hok hend hlock.1
    simp only [hmap, happart, and_true, hrange, false_and, not_false_eq_true, true_and, false_or]

/-- A write lock of ten bytes is turned into a read lock in its middle. -/
theorem insert_exact_iff_downgrade :
    ∃ s, posixLocks.ReachableWhen StepOrderly s ∧
      insertAndMerge s.exts (newPosixLock ⟨.rdlck, 3, 3, 1, 1, 1⟩)
        = [⟨.wrlck, 0, 2, false, 1, 1, 1⟩, ⟨.rdlck, 3, 5, false, 1, 1, 1⟩,
          ⟨.wrlck, 6, 9, false, 1, 1, 1⟩] ∧
      lockMap (insertAndMerge s.exts (newPosixLock ⟨.rdlck, 3, 3, 1, 1, 1⟩))
        = (lockMap s.exts).assign (Flock.At ⟨.rdlck, 3, 3, 1, 1, 1⟩) .rdlck := by
  have horder : StepOrderly ⟨[], 0⟩ (.setlk ⟨.wrlck, 0, 10, 1, 1, 1⟩ false) :=
    ⟨by rintro ⟨⟩, fun _ => by rintro ⟨⟩⟩
  have hs : posixLocks.ReachableWhen StepOrderly ⟨[⟨.wrlck, 0, 9, false, 1, 1, 1⟩], 1⟩ :=
    .next (.start rfl) horder rfl
  have hflock : Flock.Admitted ⟨.rdlck, 3, 3, 1, 1, 1⟩ :=
    ⟨by decide, by decide, by decide, by decide⟩
  obtain ⟨-, -, hiff⟩ := insert_exact_iff hs hflock
  refine ⟨_, hs, rfl, (hiff.mpr (.inl ⟨.inr (by decide), fun _ => ⟨fun _ _ x hx => ?_, trivial⟩⟩)).1⟩
  cases hx

/-- Two owners: the second reads, the first writes elsewhere. -/
def earlyRun : List PosixAct :=
  [.setlk ⟨.rdlck, 0, 11, 2, 1, 2⟩ false, .grant, .setlk ⟨.wrlck, 20, 11, 1, 1, 1⟩ false, .grant]

/-- **Two locks of one owner on the same byte.**  The first owner asks for a read lock on
everything.  It may have it, and it should lose its write lock for it.  But the loop leaves
the list at the read lock of the second owner: the write lock stays, and the owner holds
both on the byte `20`. -/
theorem early_exit :
    ∃ s, posixLocks.Reachable s ∧
      isLockGrantable s.exts ⟨.rdlck, 0, 40, false, 1, 1, 1⟩ = true ∧
      insertAndMerge s.exts ⟨.rdlck, 0, 40, false, 1, 1, 1⟩
        = [⟨.rdlck, 0, 10, false, 2, 1, 2⟩, ⟨.wrlck, 20, 30, false, 1, 1, 1⟩,
          ⟨.rdlck, 0, 40, false, 1, 1, 1⟩] ∧
      lockMap (insertAndMerge s.exts ⟨.rdlck, 0, 40, false, 1, 1, 1⟩) 1 1 20 .wrlck ∧
      ¬ (lockMap s.exts).assign (Flock.At ⟨.rdlck, 0, 41, 1, 1, 1⟩) .rdlck 1 1 20 .wrlck ∧
      ¬ OwnApart (insertAndMerge s.exts ⟨.rdlck, 0, 40, false, 1, 1, 1⟩) := by
  obtain ⟨s, hrun, hexts⟩ : ∃ s, posixLocks.exec ⟨[], 0⟩ earlyRun = some s ∧
      s.exts = [⟨.rdlck, 0, 10, false, 2, 1, 2⟩, ⟨.wrlck, 20, 30, false, 1, 1, 1⟩] :=
    ⟨_, rfl, rfl⟩
  have hinsert : insertAndMerge s.exts ⟨.rdlck, 0, 40, false, 1, 1, 1⟩
      = [⟨.rdlck, 0, 10, false, 2, 1, 2⟩, ⟨.wrlck, 20, 30, false, 1, 1, 1⟩,
        ⟨.rdlck, 0, 40, false, 1, 1, 1⟩] := by
    rw [hexts]
    rfl
  refine ⟨s, Machine.Reachable.exec (.start rfl) earlyRun hrun, by rw [hexts]; rfl, hinsert, ?_, ?_,
    ?_⟩
  · rw [hinsert]
    exact ⟨⟨.wrlck, 20, 30, false, 1, 1, 1⟩, by simp, rfl, rfl, rfl, ⟨by decide, by decide⟩, rfl⟩
  · rintro (⟨-, htype, -⟩ | ⟨hnot, -⟩)
    · cases htype
    · exact hnot ⟨rfl, rfl, ⟨by decide, .inr (by decide)⟩, by norm_num⟩
  · rw [hinsert, OwnApart, List.pairwise_cons, List.pairwise_cons]
    rintro ⟨-, hpair, -⟩
    have := hpair _ List.mem_cons_self rfl rfl rfl
    cases this

end GlusterFS.Locks
