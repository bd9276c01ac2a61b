import Mathlib

/-!
# The `mgmt_v3` locks of `glusterd`

A transaction of the management daemon locks volumes and snapshots by name.  The table
`priv->mgmt_v3_lock` maps the string `name_type` to an owner, and
`glusterd_multiple_mgmt_v3_lock` takes all the locks that a request names: the entries of one type
one after the other, then the next type.  When an entry fails, the entries of its type are released
again, and then the types taken before.

The module embeds the two levels of rollback with the table as the code keeps it.  `owners` reads it
as a map from **pairs** of a name and a type to owners, and `Grants` says what taking a list of pairs
does to that map.  The results:

* `lockKey_alone_iff`: the pairs that share their entry with no other one are those with a short key;
* `multipleMgmtV3Lock_spec`: a request is granted as a whole or leaves every owner as it was;
* `mgmtV3Locks_safe` collects these, what an unlock may remove, and what follows for every sequence
  of calls.

All of this is for names that fit into the buffer `key[PATH_MAX]`.  The check
`ret != strlen (name) + 1 + strlen (type)` does not refuse the others, as `snprintf` returns the
length that it **would** have written: the key is cut, and pairs with the same cut key are one lock
(`mgmtV3Lock_shares`).
-/

namespace GlusterFS.Glusterd

/-! ## The model -/

/-- `valid_types`. -/
inductive EntityType where
  | vol
  | snap
  deriving DecidableEq

def EntityType.text : EntityType → List Char
  | .vol => ['v', 'o', 'l']
  | .snap => ['s', 'n', 'a', 'p']

/-- The `default_value` of a type. -/
def EntityType.defaultValue : EntityType → Bool
  | .vol => true
  | .snap => false

def validTypes : List EntityType := [.vol, .snap]

/-- What a lock is held on. -/
structure Pair where
  name : List Char
  type : EntityType
  deriving DecidableEq

def pathMax : ℕ := 4096

/-- What `snprintf` leaves in a buffer of `PATH_MAX` characters. -/
def snprintf (text : List Char) : List Char := text.take (pathMax - 1)

/-- The key of a lock. -/
def lockKey (p : Pair) : List Char := snprintf (p.name ++ '_' :: p.type.text)

def traceText : List Char := "debug.last-success-bt-".toList

/-- The key of the saved back trace, in the same dictionary. -/
def traceKey (p : Pair) : List Char := snprintf (traceText ++ p.name ++ '-' :: p.type.text)

/-- `priv->mgmt_v3_lock`: the bytes of a `uuid_t` that are found under a key. -/
abbrev Table (U : Type) : Type := List Char → Option U

variable {U : Type} [DecidableEq U] [Zero U]

/-- `glusterd_get_mgmt_v3_lock_owner`; the null uuid is `0`. -/
def getMgmtV3LockOwner (T : Table U) (key : List Char) : U := (T key).getD 0

/-- `glusterd_mgmt_v3_lock`; a failure leaves the table as it is.  `trace` is the start of the back
trace, if one can be saved. -/
def mgmtV3Lock (T : Table U) (p : Pair) (uuid : U) (trace : Option U) : Option (Table U) :=
  if getMgmtV3LockOwner T (lockKey p) ≠ 0 then none
  else
    let T := Function.update T (lockKey p) (some uuid)
    match trace with
    | none => some T
    | some bt => some (Function.update T (traceKey p) (some bt))

/-- `glusterd_mgmt_v3_unlock`. -/
def mgmtV3Unlock (T : Table U) (p : Pair) (uuid : U) : Option (Table U) :=
  let owner := getMgmtV3LockOwner T (lockKey p)
  if owner = 0 then none
  else if uuid ≠ owner then none
  else some (Function.update T (lockKey p) none)

/-- The dictionary of a request, by what is looked up in it: `hold_%s_locks` (with the inner `none`
for a text that is no boolean), `%scount`, `%sname` and `%sname%d`. -/
structure Request where
  holdLocks : EntityType → Option (Option Bool)
  count : EntityType → Option ℤ
  name : EntityType → Option (List Char)
  nameAt : EntityType → ℕ → Option (List Char)

/-- `dict_get_str_boolean` compared with `_gf_false`: what is no boolean is `-1`. -/
def Request.holds (req : Request) (type : EntityType) : Bool :=
  match req.holdLocks type with
  | none => type.defaultValue
  | some none => true
  | some (some b) => b

/-- The loop of `glusterd_acquire_multiple_locks_per_entity` for `n` more entries; the result is
`locked_count`. -/
def acquireLoop (req : Request) (uuid : U) (trace : Pair → Option U) (type : EntityType) :
    ℕ → ℕ → Table U → ℕ × Table U
  | 0, locked, T => (locked, T)
  | n + 1, locked, T =>
      match req.nameAt type (locked + 1) with
      | none => (locked, T)
      | some name =>
          match mgmtV3Lock T ⟨name, type⟩ uuid (trace ⟨name, type⟩) with
          | none => (locked, T)
          | some T' => acquireLoop req uuid trace type n (locked + 1) T'

/-- The loop of `glusterd_release_multiple_locks_per_entity`; the result tells whether all entries
were released. -/
def releaseLoop (req : Request) (uuid : U) (type : EntityType) :
    ℕ → ℕ → Bool × Table U → Bool × Table U
  | 0, _, r => r
  | n + 1, i, (ok, T) =>
      match req.nameAt type (i + 1) with
      | none => releaseLoop req uuid type n (i + 1) (false, T)
      | some name =>
          match mgmtV3Unlock T ⟨name, type⟩ uuid with
          | none => releaseLoop req uuid type n (i + 1) (false, T)
          | some T' => releaseLoop req uuid type n (i + 1) (ok, T')

/-- `glusterd_acquire_multiple_locks_per_entity`. -/
def acquireMultiple (req : Request) (uuid : U) (trace : Pair → Option U) (count : ℤ)
    (type : EntityType) (T : Table U) : Bool × Table U :=
  let r := acquireLoop req uuid trace type count.toNat 0 T
  if count = r.1 then (true, r.2)
  else (false, (releaseLoop req uuid type r.1 0 (true, r.2)).2)

/-- `glusterd_mgmt_v3_lock_entity`. -/
def lockEntity (req : Request) (uuid : U) (trace : Pair → Option U) (type : EntityType)
    (T : Table U) : Bool × Table U :=
  if req.holds type = false then (true, T)
  else
    match req.count type with
    | none =>
        match req.name type with
        | none => (false, T)
        | some name =>
            match mgmtV3Lock T ⟨name, type⟩ uuid (trace ⟨name, type⟩) with
            | none => (false, T)
            | some T' => (true, T')
    | some count => acquireMultiple req uuid trace count type T

/-- `glusterd_mgmt_v3_unlock_entity`. -/
def unlockEntity (req : Request) (uuid : U) (type : EntityType) (T : Table U) : Bool × Table U :=
  if req.holds type = false then (true, T)
  else
    match req.count type with
    | none =>
        match req.name type with
        | none => (false, T)
        | some name =>
            match mgmtV3Unlock T ⟨name, type⟩ uuid with
            | none => (false, T)
            | some T' => (true, T')
    | some count => releaseLoop req uuid type count.toNat 0 (true, T)

/-- The first loop of `glusterd_multiple_mgmt_v3_lock`: the types that were locked. -/
def lockEntities (req : Request) (uuid : U) (trace : Pair → Option U) :
    List EntityType → List EntityType → Table U → List EntityType × Table U
  | [], locked, T => (locked, T)
  | type :: rest, locked, T =>
      match lockEntity req uuid trace type T with
      | (false, T') => (locked, T')
      | (true, T') => lockEntities req uuid trace rest (locked ++ [type]) T'

/-- Unlock one type after the other, whether it works or not. -/
def unlockEntities (req : Request) (uuid : U) (types : List EntityType) (r : Bool × Table U) :
    Bool × Table U :=
  types.foldl (fun r type =>
    let r' := unlockEntity req uuid type r.2
    (r.1 && r'.1, r'.2)) r

/-- `glusterd_multiple_mgmt_v3_lock`. -/
def multipleMgmtV3Lock (req : Request) (uuid : U) (trace : Pair → Option U) (T : Table U) :
    Bool × Table U :=
  let r := lockEntities req uuid trace validTypes [] T
  if r.1.length = validTypes.length then (true, r.2)
  else (false, (unlockEntities req uuid r.1 (true, r.2)).2)

/-- `glusterd_multiple_mgmt_v3_unlock`. -/
def multipleMgmtV3Unlock (req : Request) (uuid : U) (T : Table U) : Bool × Table U :=
  unlockEntities req uuid validTypes (true, T)

/-! ## Pairs and owners -/

/-- The owner of a pair. -/
def owners (T : Table U) (p : Pair) : Option U :=
  if getMgmtV3LockOwner T (lockKey p) = 0 then none else some (getMgmtV3LockOwner T (lockKey p))

/-- The key of the lock is shorter than the buffer. -/
def Pair.Short (p : Pair) : Prop := p.name.length + 1 + p.type.text.length < pathMax - 1

/-- The key of the back trace is shorter than the buffer, too, if one is saved. -/
def Pair.Fits (trace : Pair → Option U) (p : Pair) : Prop :=
  p.Short ∧ (trace p ≠ none →
    traceText.length + p.name.length + 1 + p.type.text.length < pathMax - 1)

/-- The entries of one type that a request names. -/
def Request.entries (req : Request) (type : EntityType) : List Pair :=
  if req.holds type = false then []
  else
    match req.count type with
    | none => (req.name type).toList.map fun name => ⟨name, type⟩
    | some count => (List.range count.toNat).filterMap fun i =>
        (req.nameAt type (i + 1)).map fun name => ⟨name, type⟩

/-- All pairs that a request names. -/
def Request.pairs (req : Request) : List Pair := validTypes.flatMap req.entries

def Request.Short (req : Request) : Prop := ∀ p ∈ req.pairs, p.Short

def Request.Fits (req : Request) (trace : Pair → Option U) : Prop := ∀ p ∈ req.pairs, p.Fits trace

/-! ## Keys -/

theorem snprintf_of_lt {text : List Char} (h : text.length < pathMax - 1) : snprintf text = text :=
  List.take_of_length_le h.le

/-- A text that fits is the cut of no other text. -/
theorem snprintf_eq {text other : List Char} (h : text.length < pathMax - 1)
    (heq : snprintf other = text) : other = text := by
  by_cases hother : other.length < pathMax - 1
  · rwa [snprintf_of_lt hother] at heq
  · have hlength := congrArg List.length heq
    rw [snprintf, List.length_take] at hlength
    omega

/-- The type is the end of a key. -/
theorem text_inj {a b : List Char} {s t : EntityType} {c : Char}
    (h : a ++ '_' :: s.text = b ++ c :: t.text) : c = '_' ∧ a = b ∧ s = t := by
  have htype : s = t := by
    have hlast := congrArg List.getLast? h
    cases s <;> cases t <;> simp [EntityType.text] at hlast ⊢
  subst htype
  obtain ⟨hname, hrest⟩ := List.append_inj' h rfl
  exact ⟨(List.cons.inj hrest).1.symm, hname, rfl⟩

theorem Pair.Short.lockText_lt {p : Pair} (h : p.Short) :
    (p.name ++ '_' :: p.type.text).length < pathMax - 1 := by
  rw [Pair.Short] at h
  rw [List.length_append, List.length_cons]
  omega

/-- **A short key is the key of no other pair.** -/
theorem lockKey_inj {p q : Pair} (hp : p.Short) (h : lockKey q = lockKey p) : q = p := by
  have hkey : lockKey p = p.name ++ '_' :: p.type.text := snprintf_of_lt hp.lockText_lt
  have htext := snprintf_eq hp.lockText_lt (h.trans hkey)
  obtain ⟨-, hname, htype⟩ := text_inj htext
  obtain ⟨name, type⟩ := q
  exact congrArg₂ Pair.mk hname htype

/-- A longer key is that of another pair: one whose name goes on behind the cut. -/
theorem lockKey_alone_iff (p : Pair) : (∀ q, lockKey q = lockKey p → q = p) ↔ p.Short := by
  refine ⟨fun h => ?_, fun hp q => lockKey_inj hp⟩
  by_contra hlong
  have hlength : (lockKey p).length = pathMax - 1 := by
    rw [Pair.Short] at hlong
    rw [lockKey, snprintf, List.length_take, List.length_append, List.length_cons]
    omega
  have hother : lockKey ⟨lockKey p ++ p.name ++ ['a'], .vol⟩ = lockKey p := by
    rw [lockKey, snprintf, List.append_assoc, List.append_assoc,
      List.take_append_of_le_length hlength.ge, List.take_of_length_le hlength.le]
  have hname := congrArg (fun q : Pair => q.name.length) (h _ hother)
  simp only [List.length_append, List.length_singleton] at hname
  omega

/-- The back trace is stored under the key of no pair. -/
theorem lockKey_ne_traceKey {p : Pair}
    (hp : traceText.length + p.name.length + 1 + p.type.text.length < pathMax - 1) (q : Pair) :
    lockKey q ≠ traceKey p := by
  intro h
  have hlength : (traceText ++ p.name ++ '-' :: p.type.text).length < pathMax - 1 := by
    rw [List.length_append, List.length_append, List.length_cons]
    omega
  rw [traceKey, snprintf_of_lt hlength] at h
  have htext := text_inj (snprintf_eq hlength h)
  exact absurd htext.1 (by decide)

/-! ## One lock -/

theorem owners_congr {T T' : Table U} {p : Pair} (h : T' (lockKey p) = T (lockKey p)) :
    owners T' p = owners T p := by
  rw [owners, owners, getMgmtV3LockOwner, getMgmtV3LockOwner, h]

/-- An entry is the entry of one pair. -/
theorem owners_update (T : Table U) {p : Pair} (hp : p.Short) (value : Option U) :
    owners (Function.update T (lockKey p) value)
      = Function.update (owners T) p (if value.getD 0 = 0 then none else some (value.getD 0)) := by
  funext q
  by_cases hq : q = p
  · subst hq
    rw [Function.update_self, owners, getMgmtV3LockOwner, Function.update_self]
  · rw [Function.update_of_ne hq]
    exact owners_congr (Function.update_of_ne (fun h => hq (lockKey_inj hp h)) _ _)

/-- **Locking**: it succeeds if there is no owner, and changes one owner. -/
theorem mgmtV3Lock_spec (T : Table U) {p : Pair} {trace : Pair → Option U} (hp : p.Fits trace)
    {uuid : U} (huuid : uuid ≠ 0) :
    (owners T p ≠ none ∧ mgmtV3Lock T p uuid (trace p) = none) ∨
      (owners T p = none ∧ ∃ T', mgmtV3Lock T p uuid (trace p) = some T' ∧
        owners T' = Function.update (owners T) p (some uuid)) := by
  by_cases howner : getMgmtV3LockOwner T (lockKey p) = 0
  swap
  · exact Or.inl ⟨by rw [owners, if_neg howner]; exact Option.some_ne_none _, if_pos howner⟩
  right
  refine ⟨if_pos howner, ?_⟩
  have hset := owners_update T hp.1 (some uuid)
  rw [Option.getD_some, if_neg huuid] at hset
  cases htrace : trace p with
  | none => exact ⟨_, by rw [mgmtV3Lock, if_neg (not_not.mpr howner)], hset⟩
  | some bt =>
      refine ⟨_, by rw [mgmtV3Lock, if_neg (not_not.mpr howner)], ?_⟩
      rw [← hset]
      funext q
      have hsaved : trace p ≠ none := by rw [htrace]; exact Option.some_ne_none bt
      exact owners_congr (Function.update_of_ne (lockKey_ne_traceKey (hp.2 hsaved) q) _ _)

/-- **Unlocking**: it succeeds for the owner only, and removes one owner. -/
theorem mgmtV3Unlock_spec (T : Table U) {p : Pair} (hp : p.Short) (uuid : U) :
    (owners T p ≠ some uuid ∧ mgmtV3Unlock T p uuid = none) ∨
      (owners T p = some uuid ∧ ∃ T', mgmtV3Unlock T p uuid = some T' ∧
        owners T' = Function.update (owners T) p none) := by
  by_cases howner : getMgmtV3LockOwner T (lockKey p) = 0
  · exact Or.inl ⟨by rw [owners, if_pos howner]; exact nofun, if_pos howner⟩
  by_cases huuid : uuid = getMgmtV3LockOwner T (lockKey p)
  swap
  · refine Or.inl ⟨?_, by rw [mgmtV3Unlock, if_neg howner, if_pos huuid]⟩
    rw [owners, if_neg howner]
    exact fun h => huuid (Option.some.inj h).symm
  right
  have hset := owners_update T hp none
  rw [Option.getD_none, if_pos rfl] at hset
  exact ⟨by rw [owners, if_neg howner, ← huuid], _,
    by rw [mgmtV3Unlock, if_neg howner, if_neg (not_not.mpr huuid)], hset⟩

/-! ## Taking and giving back a list -/

section

variable {V : Type} {o o' o'' : Pair → Option V} {uuid : V} {l l' : List Pair} {p : Pair}

/-- **What taking a list of pairs does**: they are different, had no owner, and have one now. -/
structure Grants (o : Pair → Option V) (uuid : V) (l : List Pair) (o' : Pair → Option V) :
    Prop where
  nodup : l.Nodup
  free : ∀ p ∈ l, o p = none
  owned : ∀ p ∈ l, o' p = some uuid
  other : ∀ p, p ∉ l → o' p = o p

theorem Grants.nil (o : Pair → Option V) (uuid : V) : Grants o uuid [] o :=
  ⟨List.nodup_nil, fun _ h => absurd h List.not_mem_nil, fun _ h => absurd h List.not_mem_nil,
    fun _ _ => rfl⟩

theorem Grants.eq_of_nil (h : Grants o uuid [] o') : o' = o :=
  funext fun p => h.other p List.not_mem_nil

theorem Grants.single (hp : o p = none) : Grants o uuid [p] (Function.update o p (some uuid)) := by
  refine ⟨List.nodup_singleton p, fun q hq => ?_, fun q hq => ?_, fun q hq => ?_⟩
  · rw [List.mem_singleton.mp hq, hp]
  · rw [List.mem_singleton.mp hq, Function.update_self]
  · exact Function.update_of_ne (fun hqp => hq (List.mem_singleton.mpr hqp)) _ _

/-- Two lists one after the other. -/
theorem Grants.trans (h : Grants o uuid l o') (h' : Grants o' uuid l' o'') :
    Grants o uuid (l ++ l') o'' := by
  have hdisjoint : ∀ p ∈ l, p ∉ l' := by
    intro p hp hp'
    have hfree := h'.free p hp'
    rw [h.owned p hp] at hfree
    cases hfree
  refine ⟨?_, fun p hp => ?_, fun p hp => ?_, fun p hp => ?_⟩
  · refine List.nodup_append.mpr ⟨h.nodup, h'.nodup, ?_⟩
    rintro a ha b hb rfl
    exact hdisjoint a ha hb
  · by_cases hl : p ∈ l
    · exact h.free p hl
    · rw [← h.other p hl, h'.free p ((List.mem_append.mp hp).resolve_left hl)]
  · by_cases hl' : p ∈ l'
    · exact h'.owned p hl'
    · rw [h'.other p hl', h.owned p ((List.mem_append.mp hp).resolve_right hl')]
  · have hsplit := not_or.mp (mt List.mem_append.mpr hp)
    rw [h'.other p hsplit.2, h.other p hsplit.1]

/-- Give the first one back. -/
theorem Grants.tail (h : Grants o uuid (p :: l) o') :
    Grants o uuid l (Function.update o' p none) := by
  obtain ⟨hp, hl⟩ := List.nodup_cons.mp h.nodup
  refine ⟨hl, fun q hq => h.free q (List.mem_cons_of_mem _ hq), fun q hq => ?_, fun q hq => ?_⟩
  · have hqp : q ≠ p := fun hqp => hp (hqp ▸ hq)
    rw [Function.update_of_ne hqp]
    exact h.owned q (List.mem_cons_of_mem _ hq)
  · by_cases hqp : q = p
    · rw [hqp, Function.update_self, h.free p List.mem_cons_self]
    · rw [Function.update_of_ne hqp]
      exact h.other q fun hmem => (List.mem_cons.mp hmem).elim hqp hq

/-- **What the unlock of a list of pairs may do**: those of its caller go, all others stay. -/
def Releases (o : Pair → Option V) (uuid : V) (l : List Pair) (o' : Pair → Option V) : Prop :=
  ∀ p, o' p = o p ∨ (p ∈ l ∧ o p = some uuid ∧ o' p = none)

theorem Releases.refl (o : Pair → Option V) (uuid : V) (l : List Pair) : Releases o uuid l o :=
  fun _ => Or.inl rfl

theorem Releases.trans (h : Releases o uuid l o') (h' : Releases o' uuid l' o'') :
    Releases o uuid (l ++ l') o'' := by
  intro p
  rcases h' p with heq | ⟨hmem, howned, hnone⟩
  · rw [heq]
    exact (h p).imp_right (And.imp_left (List.mem_append_left l'))
  · rcases h p with heq | ⟨-, -, hnone'⟩
    · exact Or.inr ⟨List.mem_append_right l hmem, heq ▸ howned, hnone⟩
    · rw [hnone'] at howned
      cases howned

theorem Releases.single (hp : o p = some uuid) : Releases o uuid [p] (Function.update o p none) := by
  intro q
  by_cases hqp : q = p
  · exact Or.inr ⟨List.mem_singleton.mpr hqp, hqp ▸ hp, by rw [hqp, Function.update_self]⟩
  · exact Or.inl (Function.update_of_ne hqp _ _)

end

/-! ## The entries of one type -/

variable {req : Request} {uuid : U} {type : EntityType}

/-- The entries `start + 1, …, start + n`. -/
def Request.slots (req : Request) (type : EntityType) (start n : ℕ) : List Pair :=
  (List.range' start n).filterMap fun i => (req.nameAt type (i + 1)).map fun name => ⟨name, type⟩

theorem slots_succ {start n : ℕ} {name : List Char} (h : req.nameAt type (start + 1) = some name) :
    req.slots type start (n + 1) = ⟨name, type⟩ :: req.slots type (start + 1) n := by
  rw [Request.slots, List.range'_succ, List.filterMap_cons_some (by rw [h]; rfl)]
  rfl

/-- **The loop takes the first entries**, up to one that is missing or cannot be locked. -/
theorem acquireLoop_spec {trace : Pair → Option U} (huuid : uuid ≠ 0) (n locked : ℕ) (T : Table U)
    (hshort : ∀ p ∈ req.slots type locked n, p.Fits trace) :
    ∃ k ≤ n, (acquireLoop req uuid trace type n locked T).1 = locked + k ∧
      (∀ i < k, req.nameAt type (locked + i + 1) ≠ none) ∧
      Grants (owners T) uuid (req.slots type locked k)
        (owners (acquireLoop req uuid trace type n locked T).2) := by
  -- the loop ends without another entry
  have hstop : ∀ (n locked : ℕ) (T : Table U), ∃ k ≤ n, locked = locked + k ∧
      (∀ i < k, req.nameAt type (locked + i + 1) ≠ none) ∧
      Grants (owners T) uuid (req.slots type locked k) (owners T) := fun n _ _ =>
    ⟨0, Nat.zero_le n, rfl, fun i hi => absurd hi (Nat.not_lt_zero i), Grants.nil _ _⟩
  induction n generalizing locked T with
  | zero => exact hstop 0 locked T
  | succ n ih =>
      cases hname : req.nameAt type (locked + 1) with
      | none =>
          rw [acquireLoop, hname]
          exact hstop (n + 1) locked T
      | some name =>
          rw [slots_succ hname] at hshort
          rcases mgmtV3Lock_spec T (hshort _ List.mem_cons_self) huuid with
            ⟨-, hfail⟩ | ⟨hfree, T', hlock, howners⟩
          · simp only [acquireLoop, hname, hfail]
            exact hstop (n + 1) locked T
          · simp only [acquireLoop, hname, hlock]
            obtain ⟨k, hk, hcount, hnames, hgrants⟩ := ih (locked + 1) T'
              fun p hp => hshort p (List.mem_cons_of_mem _ hp)
            refine ⟨k + 1, Nat.succ_le_succ hk, by omega, fun i hi => ?_, ?_⟩
            · cases i with
              | zero =>
                  rw [Nat.add_zero, hname]
                  exact Option.some_ne_none _
              | succ i =>
                  have := hnames i (by omega)
                  rwa [show locked + (i + 1) + 1 = locked + 1 + i + 1 by omega]
            · rw [slots_succ hname]
              rw [howners] at hgrants
              exact (Grants.single hfree).trans hgrants

/-- **The entries that were taken are given back.** -/
theorem releaseLoop_undo {o : Pair → Option U} (rest : List Pair) (n start : ℕ) (ok : Bool)
    (T : Table U) (hshort : ∀ p ∈ req.slots type start n, p.Short)
    (hnames : ∀ i < n, req.nameAt type (start + i + 1) ≠ none)
    (h : Grants o uuid (req.slots type start n ++ rest) (owners T)) :
    Grants o uuid rest (owners (releaseLoop req uuid type n start (ok, T)).2) := by
  induction n generalizing start T with
  | zero => exact h
  | succ n ih =>
      obtain ⟨name, hname⟩ := Option.ne_none_iff_exists'.mp (hnames 0 (Nat.succ_pos n))
      rw [Nat.add_zero] at hname
      rw [slots_succ hname] at hshort h
      rcases mgmtV3Unlock_spec T (hshort _ List.mem_cons_self) uuid with
        ⟨hother, -⟩ | ⟨-, T', hunlock, howners⟩
      · exact absurd (h.owned _ List.mem_cons_self) hother
      · simp only [releaseLoop, hname, hunlock]
        refine ih (start + 1) T' (fun p hp => hshort p (List.mem_cons_of_mem _ hp))
          (fun i hi => ?_) ?_
        · have := hnames (i + 1) (by omega)
          rwa [show start + (i + 1) + 1 = start + 1 + i + 1 by omega] at this
        · rw [howners]
          exact h.tail

theorem releaseLoop_releases (n start : ℕ) (ok : Bool) (T : Table U)
    (hshort : ∀ p ∈ req.slots type start n, p.Short) :
    Releases (owners T) uuid (req.slots type start n)
      (owners (releaseLoop req uuid type n start (ok, T)).2) := by
  induction n generalizing start ok T with
  | zero => exact Releases.refl _ _ _
  | succ n ih =>
      cases hname : req.nameAt type (start + 1) with
      | none =>
          have hslots : req.slots type start (n + 1) = req.slots type (start + 1) n := by
            rw [Request.slots, List.range'_succ, List.filterMap_cons_none (by rw [hname]; rfl)]
            rfl
          rw [hslots] at hshort ⊢
          simp only [releaseLoop, hname]
          exact ih (start + 1) false T hshort
      | some name =>
          rw [slots_succ hname] at hshort ⊢
          have hrest := fun p hp => hshort p (List.mem_cons_of_mem _ hp)
          rcases mgmtV3Unlock_spec T (hshort _ List.mem_cons_self) uuid with
            ⟨-, hfail⟩ | ⟨howned, T', hunlock, howners⟩
          · simp only [releaseLoop, hname, hfail]
            exact (Releases.refl _ _ [_]).trans (ih (start + 1) false T hrest)
          · simp only [releaseLoop, hname, hunlock]
            have hrest' := ih (start + 1) ok T' hrest
            rw [howners] at hrest'
            exact (Releases.single howned).trans hrest'

/-- Nothing is missing that a request needs for one type. -/
def Request.Complete (req : Request) (type : EntityType) : Prop :=
  req.holds type = true →
    match req.count type with
    | none => req.name type ≠ none
    | some count => ∀ i < count.toNat, req.nameAt type (i + 1) ≠ none

theorem entries_count {count : ℤ} (hholds : req.holds type = true)
    (hcount : req.count type = some count) :
    req.entries type = req.slots type 0 count.toNat := by
  rw [Request.entries, if_neg (by rw [hholds]; decide), hcount, Request.slots,
    ← List.range_eq_range']

theorem entries_name {name : List Char} (hholds : req.holds type = true)
    (hcount : req.count type = none) (hname : req.name type = some name) :
    req.entries type = [⟨name, type⟩] := by
  rw [Request.entries, if_neg (by rw [hholds]; decide), hcount, hname]
  rfl

theorem entries_of_not_holds (hholds : req.holds type = false) : req.entries type = [] := by
  rw [Request.entries, if_pos hholds]

/-- **One type is taken as a whole or not at all.** -/
theorem lockEntity_spec {trace : Pair → Option U} (huuid : uuid ≠ 0) (T : Table U)
    (hshort : ∀ p ∈ req.entries type, p.Fits trace) :
    (∃ T', lockEntity req uuid trace type T = (true, T') ∧ req.Complete type ∧
        Grants (owners T) uuid (req.entries type) (owners T')) ∨
      ∃ T', lockEntity req uuid trace type T = (false, T') ∧ owners T' = owners T := by
  cases hholds : req.holds type with
  | false =>
      refine Or.inl ⟨T, by rw [lockEntity, if_pos hholds], fun h => ?_, ?_⟩
      · rw [hholds] at h
        cases h
      · rw [entries_of_not_holds hholds]
        exact Grants.nil _ _
  | true =>
      rw [lockEntity, if_neg (by rw [hholds]; decide)]
      cases hcount : req.count type with
      | none =>
          cases hname : req.name type with
          | none => exact Or.inr ⟨T, rfl, rfl⟩
          | some name =>
              rw [entries_name hholds hcount hname] at hshort ⊢
              rcases mgmtV3Lock_spec T (hshort _ List.mem_cons_self) huuid with
                ⟨-, hfail⟩ | ⟨hfree, T', hlock, howners⟩
              · simp only [hfail]
                exact Or.inr ⟨T, rfl, rfl⟩
              · simp only [hlock]
                refine Or.inl ⟨T', rfl, fun _ => ?_, ?_⟩
                · rw [hcount, hname]
                  exact Option.some_ne_none _
                · rw [howners]
                  exact Grants.single hfree
      | some count =>
          rw [entries_count hholds hcount] at hshort ⊢
          obtain ⟨k, hk, hlocked, hnames, hgrants⟩ :=
            acquireLoop_spec huuid count.toNat 0 T hshort
          simp only [Nat.zero_add] at hlocked hnames
          simp only [acquireMultiple]
          by_cases hall : count = (acquireLoop req uuid trace type count.toNat 0 T).1
          · rw [if_pos hall]
            obtain rfl : k = count.toNat := by omega
            refine Or.inl ⟨_, rfl, fun _ => ?_, hgrants⟩
            rw [hcount]
            exact hnames
          · rw [if_neg hall]
            refine Or.inr ⟨_, rfl, ?_⟩
            have htaken : ∀ p ∈ req.slots type 0 k, p.Short := by
              intro p hp
              refine (hshort p (List.Sublist.subset (List.Sublist.filterMap _ ?_) hp)).1
              exact (List.range'_sublist_right.mpr hk)
            rw [hlocked]
            refine (releaseLoop_undo [] k 0 true _ htaken (by simpa using hnames) ?_).eq_of_nil
            rw [List.append_nil]
            exact hgrants

/-- **A type that was taken is given back.** -/
theorem unlockEntity_undo {o : Pair → Option U} (rest : List Pair) (T : Table U)
    (hshort : ∀ p ∈ req.entries type, p.Short) (hcomplete : req.Complete type)
    (h : Grants o uuid (req.entries type ++ rest) (owners T)) :
    Grants o uuid rest (owners (unlockEntity req uuid type T).2) := by
  cases hholds : req.holds type with
  | false =>
      rw [unlockEntity, if_pos hholds]
      rwa [entries_of_not_holds hholds] at h
  | true =>
      have hnames := hcomplete hholds
      rw [unlockEntity, if_neg (by rw [hholds]; decide)]
      cases hcount : req.count type with
      | none =>
          rw [hcount] at hnames
          obtain ⟨name, hname⟩ := Option.ne_none_iff_exists'.mp hnames
          rw [entries_name hholds hcount hname] at hshort h
          rcases mgmtV3Unlock_spec T (hshort _ List.mem_cons_self) uuid with
            ⟨hother, -⟩ | ⟨-, T', hunlock, howners⟩
          · exact absurd (h.owned _ List.mem_cons_self) hother
          · simp only [hname, hunlock]
            rw [howners]
            exact h.tail
      | some count =>
          rw [hcount] at hnames
          rw [entries_count hholds hcount] at hshort h
          exact releaseLoop_undo rest count.toNat 0 true T hshort (by simpa using hnames) h

theorem unlockEntity_releases (T : Table U) (hshort : ∀ p ∈ req.entries type, p.Short) :
    Releases (owners T) uuid (req.entries type) (owners (unlockEntity req uuid type T).2) := by
  cases hholds : req.holds type with
  | false =>
      rw [unlockEntity, if_pos hholds]
      exact Releases.refl _ _ _
  | true =>
      rw [unlockEntity, if_neg (by rw [hholds]; decide)]
      cases hcount : req.count type with
      | none =>
          cases hname : req.name type with
          | none => exact Releases.refl _ _ _
          | some name =>
              rw [entries_name hholds hcount hname] at hshort ⊢
              rcases mgmtV3Unlock_spec T (hshort _ List.mem_cons_self) uuid with
                ⟨-, hfail⟩ | ⟨howned, T', hunlock, howners⟩
              · simp only [hfail]
                exact Releases.refl _ _ _
              · simp only [hunlock]
                rw [howners]
                exact Releases.single howned
      | some count =>
          rw [entries_count hholds hcount] at hshort ⊢
          exact releaseLoop_releases count.toNat 0 true T hshort

/-! ## The types of a request -/

/-- **The first types are taken**, up to one that fails. -/
theorem lockEntities_spec {trace : Pair → Option U} (huuid : uuid ≠ 0)
    (types locked : List EntityType) (T : Table U)
    (hshort : ∀ type ∈ types, ∀ p ∈ req.entries type, p.Fits trace) :
    ∃ done, done <+: types ∧ (lockEntities req uuid trace types locked T).1 = locked ++ done ∧
      (∀ type ∈ done, req.Complete type) ∧
      Grants (owners T) uuid (done.flatMap req.entries)
        (owners (lockEntities req uuid trace types locked T).2) := by
  induction types generalizing locked T with
  | nil =>
      exact ⟨[], List.prefix_refl _, (List.append_nil _).symm,
        fun _ h => absurd h List.not_mem_nil, Grants.nil _ _⟩
  | cons type rest ih =>
      rcases lockEntity_spec huuid T (hshort type List.mem_cons_self) with
        ⟨T', hlock, hcomplete, hgrants⟩ | ⟨T', hlock, howners⟩
      · simp only [lockEntities, hlock]
        obtain ⟨done, hpre, hdone, hall, hrest⟩ := ih (locked ++ [type]) T'
          fun other hother => hshort other (List.mem_cons_of_mem _ hother)
        refine ⟨type :: done, List.cons_prefix_cons.mpr ⟨rfl, hpre⟩, ?_, ?_, ?_⟩
        · rw [hdone, List.append_assoc, List.singleton_append]
        · intro other hother
          rcases List.mem_cons.mp hother with rfl | hmem
          · exact hcomplete
          · exact hall other hmem
        · rw [List.flatMap_cons]
          exact hgrants.trans hrest
      · simp only [lockEntities, hlock]
        refine ⟨[], List.nil_prefix, (List.append_nil _).symm,
          fun _ h => absurd h List.not_mem_nil, ?_⟩
        rw [howners]
        exact Grants.nil _ _

theorem unlockEntities_undo {o : Pair → Option U} (types : List EntityType) (r : Bool × Table U)
    (hshort : ∀ type ∈ types, ∀ p ∈ req.entries type, p.Short)
    (hcomplete : ∀ type ∈ types, req.Complete type)
    (h : Grants o uuid (types.flatMap req.entries) (owners r.2)) :
    owners (unlockEntities req uuid types r).2 = o := by
  induction types generalizing r with
  | nil => exact h.eq_of_nil
  | cons type rest ih =>
      rw [List.flatMap_cons] at h
      exact ih _ (fun other hother => hshort other (List.mem_cons_of_mem _ hother))
        (fun other hother => hcomplete other (List.mem_cons_of_mem _ hother))
        (unlockEntity_undo _ r.2 (hshort type List.mem_cons_self)
          (hcomplete type List.mem_cons_self) h)

theorem unlockEntities_releases (uuid : U) (types : List EntityType) (r : Bool × Table U)
    (hshort : ∀ type ∈ types, ∀ p ∈ req.entries type, p.Short) :
    Releases (owners r.2) uuid (types.flatMap req.entries)
      (owners (unlockEntities req uuid types r).2) := by
  induction types generalizing r with
  | nil => exact Releases.refl _ _ _
  | cons type rest ih =>
      exact (unlockEntity_releases r.2 (hshort type List.mem_cons_self)).trans
        (ih _ fun other hother => hshort other (List.mem_cons_of_mem _ hother))

theorem mem_pairs (htype : type ∈ validTypes) {p : Pair} (hp : p ∈ req.entries type) :
    p ∈ req.pairs := List.mem_flatMap.mpr ⟨type, htype, hp⟩

/-- **Only what is named is unlocked**, and only for its owner. -/
theorem multipleMgmtV3Unlock_spec (hshort : req.Short) (uuid : U) (T : Table U) :
    Releases (owners T) uuid req.pairs (owners (multipleMgmtV3Unlock req uuid T).2) :=
  unlockEntities_releases uuid validTypes (true, T) fun _ htype p hp => hshort p (mem_pairs htype hp)

/-- **All or nothing.** -/
theorem multipleMgmtV3Lock_spec {trace : Pair → Option U} (huuid : uuid ≠ 0)
    (hfits : req.Fits trace) (T : Table U) :
    ((multipleMgmtV3Lock req uuid trace T).1 = true →
        Grants (owners T) uuid req.pairs (owners (multipleMgmtV3Lock req uuid trace T).2)) ∧
      ((multipleMgmtV3Lock req uuid trace T).1 = false →
        owners (multipleMgmtV3Lock req uuid trace T).2 = owners T) := by
  obtain ⟨done, hpre, hlocked, hcomplete, hgrants⟩ :=
    lockEntities_spec huuid validTypes [] T fun _ htype p hp => hfits p (mem_pairs htype hp)
  rw [List.nil_append] at hlocked
  by_cases hall : (lockEntities req uuid trace validTypes [] T).1.length = validTypes.length
  · simp only [multipleMgmtV3Lock, if_pos hall, reduceCtorEq, false_implies, and_true]
    intro _
    rw [hlocked] at hall
    rw [hpre.eq_of_length hall] at hgrants
    exact hgrants
  · simp only [multipleMgmtV3Lock, if_neg hall, reduceCtorEq, false_implies, true_and]
    intro _
    rw [hlocked]
    exact unlockEntities_undo done _
      (fun type htype p hp => (hfits p (mem_pairs (hpre.subset htype) hp)).1) hcomplete hgrants

/-! ## Sequences of calls -/

/-- A call of the daemon. -/
inductive Call (U : Type) where
  | lock (req : Request) (uuid : U) (trace : Pair → Option U)
  | unlock (req : Request) (uuid : U)

def Call.run (T : Table U) : Call U → Table U
  | .lock req uuid trace => (multipleMgmtV3Lock req uuid trace T).2
  | .unlock req uuid => (multipleMgmtV3Unlock req uuid T).2

/-- A call whose keys are not cut, and a lock not for the null uuid. -/
def Call.Short : Call U → Prop
  | .lock req uuid trace => uuid ≠ 0 ∧ req.Fits trace
  | .unlock req _ => req.Short

/-- **A call keeps an owner**, except an unlock of the pair by that owner. -/
theorem Call.run_keeps {call : Call U} (h : call.Short) {T : Table U} {p : Pair} {a : U}
    (hp : owners T p = some a) :
    owners (call.run T) p = some a ∨ ∃ req, call = .unlock req a ∧ p ∈ req.pairs := by
  cases call with
  | lock req uuid trace =>
      obtain ⟨hgranted, hfailed⟩ := multipleMgmtV3Lock_spec h.1 h.2 T
      left
      cases hresult : (multipleMgmtV3Lock req uuid trace T).1 with
      | false => exact (congrFun (hfailed hresult) p).trans hp
      | true =>
          have hgrants := hgranted hresult
          refine (hgrants.other p fun hmem => ?_).trans hp
          rw [hgrants.free p hmem] at hp
          cases hp
  | unlock req uuid =>
      rcases multipleMgmtV3Unlock_spec h uuid T p with heq | ⟨hmem, howned, -⟩
      · exact Or.inl (heq.trans hp)
      · right
        rw [howned] at hp
        exact ⟨req, by rw [Option.some.inj hp], hmem⟩

/-- **No second owner** before the first has unlocked the pair. -/
theorem run_keeps (calls : List (Call U)) (h : ∀ call ∈ calls, call.Short) {T : Table U} {p : Pair}
    {a : U} (hp : owners T p = some a) (hlost : owners (calls.foldl Call.run T) p ≠ some a) :
    ∃ req, Call.unlock req a ∈ calls ∧ p ∈ req.pairs := by
  induction calls generalizing T with
  | nil => exact absurd hp hlost
  | cons call rest ih =>
      rcases Call.run_keeps (h call List.mem_cons_self) hp with hkept | ⟨req, rfl, hpairs⟩
      · obtain ⟨req, hmem, hpairs⟩ := ih (fun other hother => h other (List.mem_cons_of_mem _ hother))
          hkept hlost
        exact ⟨req, List.mem_cons_of_mem _ hmem, hpairs⟩
      · exact ⟨req, List.mem_cons_self, hpairs⟩

/-- **The locks are safe**, for keys that fit into the buffer.  A request is granted as a whole or
changes no owner, an unlock takes the owner from pairs of its caller that it names and from no others,
and along every sequence of calls a pair loses its owner only through an unlock that names it, by that
owner.  A pair shares its entry with no other one exactly when its key is short. -/
theorem mgmtV3Locks_safe {U : Type} [DecidableEq U] [Zero U] (T : Table U) (calls : List (Call U))
    (hcalls : ∀ call ∈ calls, call.Short) :
    (∀ req (uuid : U) trace, Call.Short (.lock req uuid trace) →
      ((multipleMgmtV3Lock req uuid trace T).1 = true →
          Grants (owners T) uuid req.pairs (owners (multipleMgmtV3Lock req uuid trace T).2)) ∧
        ((multipleMgmtV3Lock req uuid trace T).1 = false →
          owners (multipleMgmtV3Lock req uuid trace T).2 = owners T)) ∧
      (∀ p (uuid : U) T', p.Short → mgmtV3Unlock T p uuid = some T' →
        owners T p = some uuid ∧ owners T' = Function.update (owners T) p none) ∧
      (∀ req (uuid : U), req.Short →
        Releases (owners T) uuid req.pairs (owners (multipleMgmtV3Unlock req uuid T).2)) ∧
      (∀ p a, owners T p = some a → owners (calls.foldl Call.run T) p ≠ some a →
        ∃ req, Call.unlock req a ∈ calls ∧ p ∈ req.pairs) ∧
      ∀ p : Pair, (∀ q, lockKey q = lockKey p → q = p) ↔ p.Short := by
  refine ⟨fun req uuid trace h => multipleMgmtV3Lock_spec h.1 h.2 T, ?_,
    fun req uuid h => multipleMgmtV3Unlock_spec h uuid T,
    fun p a hp hlost => run_keeps calls hcalls hp hlost, lockKey_alone_iff⟩
  intro p uuid T' hp hunlock
  rcases mgmtV3Unlock_spec T hp uuid with ⟨-, hfail⟩ | ⟨howned, T₁, hdone, howners⟩
  · rw [hfail] at hunlock
    cases hunlock
  · rw [hdone] at hunlock
    exact ⟨howned, Option.some.inj hunlock ▸ howners⟩

/-- A request for one volume. -/
def volumeRequest (name : List Char) : Request :=
  ⟨fun _ => none, fun _ => none, fun _ => some name, fun _ _ => none⟩

/-- A volume is locked by `1`, asked for by `2`, and `1` unlocks another one: it is still locked by
`1`. -/
theorem mgmtV3Locks_safe_volume :
    owners ([Call.lock (volumeRequest ['a']) 2 fun _ => none, .unlock (volumeRequest ['b']) 1].foldl
      Call.run (Function.update (fun _ => none) (lockKey ⟨['a'], .vol⟩) (some 1))) ⟨['a'], .vol⟩
        = some 1 := by
  by_contra hlost
  have hpairs : ∀ c p, p ∈ (volumeRequest [c]).pairs → p = ⟨[c], .vol⟩ := fun c p hp =>
    List.mem_singleton.mp hp
  have hsmall : ∀ c, Pair.Short ⟨[c], .vol⟩ := fun _ => (show 1 + 1 + 3 < 4096 - 1 by decide)
  have hshort : ∀ call ∈ [Call.lock (volumeRequest ['a']) 2 fun _ => none,
      .unlock (volumeRequest ['b']) 1], call.Short := by
    rw [List.forall_mem_cons, List.forall_mem_singleton]
    refine ⟨⟨by norm_num, fun p hp => ?_⟩, fun p hp => ?_⟩
    · rw [hpairs _ p hp]
      exact ⟨hsmall _, fun h => absurd rfl h⟩
    · rw [hpairs _ p hp]
      exact hsmall _
  obtain ⟨req, hmem, hnamed⟩ := (mgmtV3Locks_safe _ _ hshort).2.2.2.1 ⟨['a'], .vol⟩ 1
    (by rw [owners, getMgmtV3LockOwner, Function.update_self]; rfl) hlost
  rcases List.mem_cons.mp hmem with heq | hmem
  · cases heq
  · cases List.mem_singleton.mp hmem
    cases hpairs _ _ hnamed

/-- The key of a name that fills the buffer. -/
theorem lockKey_long {n : ℕ} (h : pathMax - 1 ≤ n) (type : EntityType) :
    lockKey ⟨List.replicate n 'a', type⟩ = List.replicate (pathMax - 1) 'a' := by
  rw [lockKey, snprintf, List.take_append_of_le_length (by rwa [List.length_replicate]),
    List.take_replicate, min_eq_left h]

/-- **Shared locks.**  Two names that differ only behind the end of the buffer have one entry: after
`1` has locked the first, the second is locked by `1` too, and `2` does not get it. -/
theorem mgmtV3Lock_shares :
    ∃ p q : Pair, p ≠ q ∧ lockKey p = lockKey q ∧
      ∃ T : Table ℕ, mgmtV3Lock (fun _ => none) p 1 none = some T ∧ owners T q = some 1 ∧
        mgmtV3Lock T q 2 none = none := by
  have hkey : lockKey ⟨List.replicate pathMax 'a', .vol⟩
      = lockKey ⟨List.replicate (pathMax - 1) 'a', .vol⟩ :=
    (lockKey_long (Nat.sub_le _ _) .vol).trans (lockKey_long le_rfl .vol).symm
  refine ⟨⟨List.replicate (pathMax - 1) 'a', .vol⟩, ⟨List.replicate pathMax 'a', .vol⟩, fun h => ?_,
    hkey.symm, Function.update (fun _ => none) (lockKey ⟨List.replicate (pathMax - 1) 'a', .vol⟩)
      (some 1), rfl, ?_, ?_⟩
  · have hlength := congrArg (fun p : Pair => p.name.length) h
    simp only [List.length_replicate] at hlength
    exact absurd hlength (by decide)
  · rw [owners, getMgmtV3LockOwner, hkey, Function.update_self]
    rfl
  · rw [mgmtV3Lock, getMgmtV3LockOwner, hkey, Function.update_self]
    rfl

end GlusterFS.Glusterd
