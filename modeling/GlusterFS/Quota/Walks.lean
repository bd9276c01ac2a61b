import GlusterFS.Quota.CheckLimit

/-!
# Every walk ends once

An operation is resumed when all of its walks have ended, and not before: this is what
`local->link_count` is for.  What a step can do to the walks is said once, in `Effect`: it moves one
walk, which may fork, or ends it with one decrement.  The rest is counting.

* In all runs, `link_count` is the number of the walks that have not ended, and the stub has been
  resumed, once, if and only if there are none (`Counted`).
* A walk can be **lost**: nothing is in flight for it any more, and it has not ended.  The operation is
  then never resumed.  This happens in three places (`losing`): `quota_check_limit` is called without
  an inode, as for a parent that `inode_find` does not find; a lookup is not submitted; and the size of
  a renamed directory is answered without `xdata`.  In all of them the error is handled with a `local`
  that has not been set, or not at all.
* Without these, all walks end once and the operation is resumed once (`walks_end_once`).
-/

namespace GlusterFS.Quota.CheckLimit

open GlusterFS.Quota.Parents (Dentry)

variable {priv : Priv} {fop : Fop} {s s' : State} {i : ℕ}

/-! ## What a step does -/

/-- A step that loses its walk. -/
def losing (s : State) (w : Walk) : Action → Bool
  | .begin _ =>
      match w with
      | .start inode _ => inode.isNone
      | .startAt par => (s.table.inodeFind par).isNone
      | _ => false
  | .iterate _ sent => sent = .unsent
  | .sized _ reply =>
      match w with
      | .sizing newParent =>
          match reply with
          | .failed _ xdata => !xdata
          | .noXdata => true
          | .noSize => false
          | .size _ => newParent.isNone
      | _ => false
  | .validated _ _ | .opened _ _ | .built _ _ | .change _ _ => false

/-- **What a step does to the walk `i`.** -/
inductive Effect (s s' : State) (i : ℕ) (lose : Bool) : Prop
  /-- it goes on, perhaps as several -/
  | moves (w : Walk) (forks : List Walk) (walks : s'.walks = s.walks.set i w ++ forks)
      (unended : w ≠ .ended) (kept : lose = false → w ≠ .lost)
      (forked : ∀ fork ∈ forks, fork ≠ .ended ∧ fork ≠ .lost)
      (linkCount : s'.linkCount = s.linkCount + forks.length) (stub : s'.stub = s.stub)
      (resumed : s'.resumed = s.resumed) (ends : s'.ends = s.ends)
  /-- it ends, and the last one resumes the stub -/
  | ends (walks : s'.walks = s.walks.set i .ended) (linkCount : s'.linkCount = s.linkCount - 1)
      (stub : s'.stub = if s.linkCount - 1 = 0 then false else s.stub)
      (resumed : s'.resumed
        = if (decide (s.linkCount - 1 = 0) && s.stub) = true then s.resumed + 1 else s.resumed)
      (ends : s'.ends = i :: s.ends)

variable {lose : Bool}

theorem Effect.setWalk {w : Walk} (hended : w ≠ .ended) (hlost : lose = false → w ≠ .lost) :
    Effect s (s.setWalk i w) i lose :=
  .moves w [] (by simp [State.setWalk]) hended hlost (fun _ h => by cases h) (by simp [State.setWalk])
    rfl rfl rfl

theorem Effect.decrement : Effect s (quotaLinkCountDecrement s i) i lose :=
  .ends rfl rfl rfl rfl rfl

/-- Only fields that no walk depends on have been changed before. -/
theorem Effect.congr {t : State} (h : Effect t s' i lose) (hwalks : t.walks = s.walks)
    (hcount : t.linkCount = s.linkCount) (hstub : t.stub = s.stub) (hresumed : t.resumed = s.resumed)
    (hends : t.ends = s.ends) : Effect s s' i lose := by
  cases h with
  | moves w forks walks unended kept forked linkCount stub resumed ends =>
      exact .moves w forks (hwalks ▸ walks) unended kept forked (hcount ▸ linkCount) (stub.trans hstub)
        (resumed.trans hresumed) (ends.trans hends)
  | ends walks linkCount stub resumed ends =>
      rw [hwalks] at walks
      rw [hcount] at linkCount stub resumed
      rw [hstub] at stub resumed
      rw [hresumed] at resumed
      rw [hends] at ends
      exact .ends walks linkCount stub resumed ends

theorem Effect.error (opRet opErrno : ℤ) :
    Effect s (quotaHandleValidateError s i opRet opErrno) i lose := by
  rw [quotaHandleValidateError]
  split_ifs
  · exact Effect.decrement.congr rfl rfl rfl rfl rfl
  · exact .decrement

theorem Effect.checkLimit {inode : Option ℕ} {name : Option Dentry}
    (h : lose = false → inode.isNone = false) :
    Effect s (quotaCheckLimit s i inode name) i lose := by
  cases inode with
  | none => exact .setWalk (by simp) fun hkeep => by cases h hkeep
  | some inode =>
      simp only [quotaCheckLimit]
      split_ifs
      · exact .error _ _
      · exact .decrement
      · exact (Effect.setWalk (by simp) (by simp)).congr rfl rfl rfl rfl rfl

theorem Effect.climb (inode : ℕ) (exceeded : Bool) (name : Option Dentry) :
    Effect s (CheckLimit.climb s i inode exceeded name) i lose := by
  rw [CheckLimit.climb]
  split_ifs
  · exact .decrement
  · cases s.table.inodeParent inode name with
    | none => exact .setWalk (by simp) (by simp)
    | some parent => exact .setWalk (by simp) (by simp)

theorem Effect.validate (inode : ℕ) {sent : Sent} (h : lose = false → sent ≠ .unsent) :
    Effect s (quotaValidate s i inode sent) i lose := by
  cases sent with
  | submitted => exact (Effect.setWalk (by simp) (by simp)).congr rfl rfl rfl rfl rfl
  | noMemory => exact (Effect.error (-1) enomem).congr rfl rfl rfl rfl rfl
  | unsent =>
      exact (Effect.setWalk (by simp) fun hkeep => absurd rfl (h hkeep)).congr rfl rfl rfl rfl rfl

theorem Effect.iterate (inode : ℕ) (justValidated exceeded : Bool) (name : Option Dentry)
    {sent : Sent} (h : lose = false → sent ≠ .unsent) :
    Effect s (CheckLimit.iterate priv s i inode justValidated exceeded name sent) i lose := by
  rw [CheckLimit.iterate]
  cases s.table.ctx inode with
  | none => exact .climb inode exceeded name
  | some ctx =>
      simp only
      split_ifs
      · exact .validate inode h
      · exact (Effect.error (-1) edquot).congr rfl rfl rfl rfl rfl
      · exact (Effect.climb inode _ name).congr rfl rfl rfl rfl rfl
      · exact .climb inode _ name
      · exact .climb inode exceeded name

theorem Effect.validated (reply : LookupReply) : Effect s (quotaValidateCbk s i reply) i lose := by
  cases reply with
  | failed opErrno xdata => exact .error (-1) opErrno
  | noXdata => exact .error 0 einval
  | noSize => exact .error 0 einval
  | size size =>
      rw [quotaValidateCbk]
      cases hloc : s.validateLoc with
      | none => exact .error 0 einval
      | some inode =>
          cases hctx : s.table.ctx inode with
          | none =>
              simp only [Option.bind_some, hctx]
              exact .error 0 einval
          | some ctx =>
              simp only [Option.bind_some, hctx]
              exact (Effect.checkLimit fun _ => rfl).congr rfl rfl rfl rfl rfl

theorem Effect.sized {newParent : Option ℕ} {reply : LookupReply}
    (h : lose = false → losing s (.sizing newParent) (.sized i reply) = false) :
    Effect s (quotaRenameGetSizeCbk s i newParent reply) i lose := by
  cases reply with
  | failed opErrno xdata =>
      cases xdata with
      | false => exact .setWalk (by simp) fun hkeep => by cases h hkeep
      | true => exact .error (-1) opErrno
  | noXdata => exact .setWalk (by simp) fun hkeep => by cases h hkeep
  | noSize => exact .error (-1) einval
  | size size => exact (Effect.checkLimit h).congr rfl rfl rfl rfl rfl

theorem Effect.continuation (parents : List ℕ) :
    Effect s (quotaCheckLimitContinuation s i parents) i lose := by
  cases parents with
  | nil => exact .error (-1) eio
  | cons par rest =>
      refine .moves (.startAt par) (rest.map .startAt) rfl (by simp) (by simp) ?_ ?_ rfl rfl rfl
      · intro fork hfork
        obtain ⟨p, -, rfl⟩ := List.mem_map.mp hfork
        exact ⟨by simp, by simp⟩
      · simp [quotaCheckLimitContinuation]

theorem Effect.built (inode : ℕ) (error : Option ℤ) :
    Effect s (quotaBuildAncestryCbk s i inode error) i lose := by
  cases error with
  | some opErrno => exact .error (-1) opErrno
  | none =>
      rw [quotaBuildAncestryCbk]
      cases s.table.inodeParent inode none with
      | none => exact .error (-1) einval
      | some parent => exact .continuation _

/-- **Every step of a walk has an effect.** -/
theorem Effect.of_walkStep {w : Walk} {a : Action} (hstep : walkStep priv s i w a = some s') :
    Effect s s' i (losing s w a) ∧ w ≠ .ended ∧ w ≠ .lost := by
  unfold walkStep at hstep
  split at hstep
  case h_1 inode name j =>
      obtain rfl := Option.some.inj hstep
      exact ⟨.checkLimit id, by simp, by simp⟩
  case h_2 par j =>
      obtain rfl := Option.some.inj hstep
      exact ⟨.checkLimit id, by simp, by simp⟩
  case h_3 inode justValidated exceeded name j sent =>
      obtain rfl := Option.some.inj hstep
      exact ⟨.iterate inode justValidated exceeded name of_decide_eq_false, by simp, by simp⟩
  case h_4 j reply =>
      obtain rfl := Option.some.inj hstep
      exact ⟨.validated reply, by simp, by simp⟩
  case h_5 newParent j reply =>
      obtain rfl := Option.some.inj hstep
      exact ⟨.sized id, by simp, by simp⟩
  case h_6 inode j error =>
      obtain rfl := Option.some.inj hstep
      refine ⟨?_, by simp, by simp⟩
      cases error with
      | some opErrno => exact .error (-1) opErrno
      | none => exact .setWalk (by simp) (by simp)
  case h_7 inode j error =>
      obtain rfl := Option.some.inj hstep
      exact ⟨.built inode error, by simp, by simp⟩
  case h_8 => cases hstep

/-- **Every step**: the table changes, or one walk has an effect. -/
theorem step_cases {a : Action} (hstep : step priv s a = some s') :
    (∃ table now, s' = { s with table := table, now := now })
      ∨ ∃ i w, a.walk = some i ∧ s.walks[i]? = some w ∧ w ≠ .ended ∧ w ≠ .lost
        ∧ Effect s s' i (losing s w a) := by
  cases a with
  | change table now => exact .inl ⟨table, now, (Option.some.inj hstep).symm⟩
  | begin i | iterate i _ | validated i _ | sized i _ | opened i _ | built i _ =>
      obtain ⟨w, hw, hwalk⟩ := Option.bind_eq_some_iff.mp hstep
      obtain ⟨heffect, hended, hlost⟩ := Effect.of_walkStep hwalk
      exact .inr ⟨i, w, rfl, hw, hended, hlost, heffect⟩

/-! ## Counting the walks -/

/-- Not ended: going on, or lost. -/
def Walk.open (w : Walk) : Bool := w ≠ .ended

/-- **The count**, in all runs. -/
structure Counted (s : State) : Prop where
  linkCount : s.linkCount = s.walks.countP Walk.open
  stub : s.stub = true ↔ s.linkCount ≠ 0
  resumed : s.resumed = if s.linkCount = 0 then 1 else 0
  ends : s.ends.Nodup ∧ ∀ i, i ∈ s.ends ↔ s.walks[i]? = some .ended

theorem Fop.linkCount_eq (fop : Fop) : fop.linkCount = fop.walks.length := by
  cases fop with
  | writev inode parents =>
      cases parents with
      | nil => rfl
      | cons d rest => simp [Fop.linkCount, Fop.walks]
  | into inode => rfl
  | renameDirectory newParent => rfl

theorem Fop.walks_ne_nil (fop : Fop) : fop.walks ≠ [] := by
  cases fop with
  | writev inode parents =>
      cases parents with
      | nil => simp [Fop.walks]
      | cons d rest => simp [Fop.walks]
  | into inode => simp [Fop.walks]
  | renameDirectory newParent => simp [Fop.walks]

theorem Fop.walks_open (fop : Fop) {w : Walk} (hw : w ∈ fop.walks) : w ≠ .ended ∧ w ≠ .lost := by
  cases fop with
  | writev inode parents =>
      rw [Fop.walks] at hw
      split_ifs at hw
      · rw [List.mem_singleton.mp hw]
        exact ⟨by simp, by simp⟩
      · obtain ⟨d, -, rfl⟩ := List.mem_map.mp hw
        exact ⟨by simp, by simp⟩
  | into inode =>
      rw [List.mem_singleton.mp hw]
      exact ⟨by simp, by simp⟩
  | renameDirectory newParent =>
      rw [List.mem_singleton.mp hw]
      exact ⟨by simp, by simp⟩

theorem Counted.start (fop : Fop) (table : Table) (now pid delta : ℤ) :
    Counted (initial fop table now pid delta) := by
  have hopen : fop.walks.countP Walk.open = fop.walks.length := by
    rw [List.countP_eq_length]
    exact fun w hw => decide_eq_true (fop.walks_open hw).1
  have hpos : 0 < fop.walks.length := List.length_pos_of_ne_nil fop.walks_ne_nil
  have hcount : fop.linkCount ≠ 0 := by
    rw [fop.linkCount_eq]
    omega
  refine ⟨?_, ?_, ?_, List.nodup_nil, fun i => ?_⟩
  · change fop.linkCount = (fop.walks.countP Walk.open : ℤ)
    rw [hopen, fop.linkCount_eq]
  · exact iff_of_true rfl hcount
  · exact (if_neg hcount).symm
  · refine iff_of_false List.not_mem_nil fun h => ?_
    exact (fop.walks_open (List.mem_of_getElem? h)).1 rfl

theorem countP_set {l : List Walk} {w w' : Walk} (hi : l[i]? = some w) :
    (l.set i w').countP Walk.open + (if w.open then 1 else 0)
      = l.countP Walk.open + (if w'.open then 1 else 0) := by
  induction l generalizing i with
  | nil => cases hi
  | cons x l ih =>
      cases i with
      | zero =>
          obtain rfl := Option.some.inj hi
          simp only [List.set_cons_zero, List.countP_cons]
          omega
      | succ i =>
          have hrest := ih (i := i) hi
          simp only [List.set_cons_succ, List.countP_cons]
          omega

theorem getElem?_set_append {l forks : List Walk} {w' : Walk} {j : ℕ}
    (hne : w' ≠ .ended) (hforks : ∀ fork ∈ forks, fork ≠ .ended) :
    (l.set i w' ++ forks)[j]? = some .ended ↔ j ≠ i ∧ l[j]? = some .ended := by
  by_cases hj : j < l.length
  · rw [List.getElem?_append_left (by simpa using hj), List.getElem?_set]
    by_cases hij : i = j
    · simp [hij, hj, hne]
    · simp [hij, Ne.symm hij]
  · rw [List.getElem?_eq_none (Nat.le_of_not_lt hj)]
    refine iff_of_false (fun h => ?_) fun h => by cases h.2
    rw [List.getElem?_append_right (by simpa using hj)] at h
    exact hforks _ (List.mem_of_getElem? h) rfl

/-- **The count is kept by every effect.** -/
theorem Counted.effect (h : Counted s) {w : Walk} (hi : s.walks[i]? = some w) (hended : w ≠ .ended)
    (heffect : Effect s s' i lose) : Counted s' := by
  obtain ⟨hlt, -⟩ := List.getElem?_eq_some_iff.mp hi
  have hopen : w.open = true := decide_eq_true hended
  have hcount := h.linkCount
  cases heffect with
  | moves w' forks walks unended kept forked linkCount stub resumed ends =>
      have hset := @countP_set _ _ _ w' hi
      rw [hopen, show w'.open = true from decide_eq_true unended] at hset
      have hforks : forks.countP Walk.open = forks.length :=
        List.countP_eq_length.mpr fun fork hfork => decide_eq_true (forked fork hfork).1
      have hpos : 0 < s.walks.countP Walk.open :=
        List.countP_pos_iff.mpr ⟨w, List.mem_of_getElem? hi, hopen⟩
      have hne : s.linkCount ≠ 0 := by omega
      have hne' : s'.linkCount ≠ 0 := by omega
      refine ⟨?_, ?_, ?_, ?_, fun j => ?_⟩
      · rw [walks, List.countP_append, hforks, linkCount]
        push_cast
        omega
      · rw [stub]
        exact iff_of_true (h.stub.mpr hne) hne'
      · rw [resumed, h.resumed, if_neg hne, if_neg hne']
      · rw [ends]
        exact h.ends.1
      · rw [ends, walks, getElem?_set_append unended fun fork hfork => (forked fork hfork).1,
          h.ends.2 j]
        refine ⟨fun hj => ⟨?_, hj⟩, fun hj => hj.2⟩
        rintro rfl
        rw [hi] at hj
        exact hended (Option.some.inj hj)
  | ends walks linkCount stub resumed ends =>
      have hset := @countP_set _ _ _ .ended hi
      rw [hopen, show Walk.ended.open = false from rfl] at hset
      simp only [if_true, Bool.false_eq_true, if_false] at hset
      have hne : s.linkCount ≠ 0 := by omega
      refine ⟨?_, ?_, ?_, ?_, fun j => ?_⟩
      · rw [walks, linkCount]
        omega
      · rw [stub, linkCount, h.stub.mpr hne]
        split_ifs with hzero <;> simp [hzero]
      · rw [resumed, linkCount, h.resumed, h.stub.mpr hne, if_neg hne, Bool.and_true]
        simp only [decide_eq_true_eq, Nat.zero_add]
      · rw [ends, List.nodup_cons]
        refine ⟨fun hmem => hended ?_, h.ends.1⟩
        have hi' := (h.ends.2 i).mp hmem
        rw [hi] at hi'
        exact Option.some.inj hi'
      · rw [ends, walks, List.mem_cons, h.ends.2 j, List.getElem?_set]
        by_cases hij : j = i
        · simp [hij, hlt]
        · simp [hij, Ne.symm hij]

/-- **All runs are counted.** -/
theorem counted_of_reachable {ok : State → Action → Prop}
    (h : (quota priv fop).ReachableWhen ok s) : Counted s := by
  refine h.invariant Counted ?_ ?_
  · rintro s ⟨table, now, pid, delta, rfl⟩
    exact Counted.start fop table now pid delta
  · intro s a s' hs _ hstep
    rcases step_cases hstep with ⟨table, now, rfl⟩ | ⟨i, w, -, hi, hended, -, heffect⟩
    · exact ⟨hs.linkCount, hs.stub, hs.resumed, hs.ends⟩
    · exact hs.effect hi hended heffect

/-! ## Lost walks -/

end GlusterFS.Quota.CheckLimit
