import GlusterFS.Lib.Timeline
import GlusterFS.QuickRead.Content

/-!
# Reads through quick-read while the file changes

`quick-read` answers reads from the content that a lookup has brought.  A write or a truncate throws
the content away **when it is wound**, and nothing is done when it is answered.  A lookup that is in
flight at that time installs what it has read whenever it is answered.

The machine of this module has lookups, reads and changes of one file, each with its steps of winding,
of being served by the child, and of being answered; the file has a history (`Timeline`), and what the
child serves is read at one instant of it.

A content that a lookup brings has to be at least as new as all changes that have been wound, those
that are still in flight included (`Fresh`).  Then no read is older than the changes that had been
acknowledged when it began (`cached_reads_current`).  The code does not see to it: `stale_read` is a
run in which a read returns a byte from before an acknowledged write.
-/

namespace GlusterFS.QuickRead.Coherence

open FileHistory IoVector Ec
open Function (update update_of_ne)

/-! ## The model -/

/-- `writev`; and `truncate` and `ftruncate`, which quick-read treats alike. -/
inductive Change where
  | write (offset : ℕ) (vector : Iovec Byte)
  | truncate (size : ℕ)

def Change.apply (c : Content Byte) : Change → Content Byte
  | .write offset vector => c.write offset vector
  | .truncate size => c.truncate size

/-- The bytes of a buffer. -/
def vectorBytes (v : Iovec Byte) : List Byte := (List.range v.len).map v.base

/-- The answer of the child to a lookup, and the instant at which it was given. -/
structure LookupReply where
  /-- `op_ret` is `-1`, or `sh-failed` is set -/
  failed : Bool
  content : Option (List Byte)
  buf : Iatt
  instant : ℕ

/-- A lookup; `request` is the size under `glusterfs.content`. -/
inductive Lookup where
  | wound (request : Option ℕ)
  | served (reply : LookupReply)

/-- A change, and the instant at which it was made. -/
inductive ChangePhase where
  | wound (change : Change)
  | made (instant : ℕ)

/-- A read that is passed on; `known` are the changes that had been acknowledged when it began. -/
inductive Read where
  | wound (offset size : ℕ) (known : List ℕ)
  | served (offset size : ℕ) (known : List ℕ) (span : Span Byte)

/-- What a read has been answered with. -/
structure Answer where
  offset : ℕ
  size : ℕ
  known : List ℕ
  bytes : List Byte
  deriving DecidableEq

structure State where
  qr : Option QrInode
  /-- the instant at which the cached content was read -/
  instant : ℕ
  file : Timeline Byte
  lookups : ℕ → Option Lookup
  changes : ℕ → Option ChangePhase
  reads : ℕ → Option Read
  /-- the changes that have been acknowledged -/
  acked : List ℕ
  answers : List Answer

/-- A new `qr_inode`. -/
def qrInodeNew : QrInode := ⟨none, 0, 0⟩

/-- `qr_inode_prune`. -/
def prune (s : State) : State := { s with qr := s.qr.map qrInodePrune }

/-- What the child returns in a lookup: the whole content, if it is asked for and fits. -/
def lookupContent (c : Content Byte) (request : Option ℕ) (give : Bool) : Option (List Byte) :=
  request.bind fun reqSize =>
    if give = true ∧ c.size ≤ reqSize then some (vectorBytes (c.read 0 c.size)) else none

/-- `qr_lookup_cbk`. -/
def qrLookupCbk (n : MaxFileSize) (s : State) (reply : LookupReply) : State :=
  if reply.failed then prune s
  else
    match reply.content with
    | some content =>
        { s with
          qr := some (qrContentUpdate (s.qr.getD qrInodeNew) content reply.buf)
          instant := reply.instant }
    | none => { s with qr := s.qr.map fun qr => qrContentRefresh n qr reply.buf }

inductive Action where
  /-- `qr_lookup` -/
  | lookup (i : ℕ)
  | serveLookup (i : ℕ) (failed give : Bool) (mtime : ℕ)
  | answerLookup (i : ℕ)
  /-- `qr_readdirp_cbk`, with any attributes -/
  | refresh (buf : Iatt)
  /-- `qr_cache_prune` -/
  | prune
  /-- `qr_readv`; `fresh` is `__qr_cache_is_fresh` -/
  | readv (i offset size : ℕ) (fresh : Bool)
  | serveRead (i : ℕ)
  | answerRead (i : ℕ)
  /-- `qr_writev`, `qr_truncate` and `qr_ftruncate` -/
  | change (i : ℕ) (change : Change)
  | makeChange (i : ℕ)
  | failChange (i : ℕ)
  | answerChange (i : ℕ)

/-- `qr_readv`. -/
def qrReadv (heap : ℕ → Byte) (s : State) (i offset size : ℕ) (fresh : Bool) : State :=
  match s.qr.bind fun qr => qrReadvCached heap qr fresh size offset with
  | some bytes => { s with answers := ⟨offset, size, s.acked, bytes⟩ :: s.answers }
  | none => { s with reads := update s.reads i (some (.wound offset size s.acked)) }

/-- One step; a new request takes a number that is not in use. -/
def step (n : MaxFileSize) (heap : ℕ → Byte) (s : State) : Action → Option State
  | .lookup i =>
      if (s.lookups i).isNone then
        let cached := (s.qr.bind QrInode.data).isSome
        some { s with lookups := update s.lookups i (some (.wound (qrLookupRequest n cached))) }
      else none
  | .serveLookup i failed give mtime =>
      match s.lookups i with
      | some (.wound request) =>
          let c := s.file.current
          let reply : LookupReply :=
            ⟨failed, lookupContent c request give, ⟨c.size, mtime⟩, s.file.now⟩
          some { s with lookups := update s.lookups i (some (.served reply)) }
      | _ => none
  | .answerLookup i =>
      match s.lookups i with
      | some (.served reply) =>
          some { qrLookupCbk n s reply with lookups := update s.lookups i none }
      | _ => none
  | .refresh buf => some { s with qr := s.qr.map fun qr => qrContentRefresh n qr buf }
  | .prune => some (prune s)
  | .readv i offset size fresh =>
      if (s.reads i).isNone then some (qrReadv heap s i offset size fresh) else none
  | .serveRead i =>
      match s.reads i with
      | some (.wound offset size known) =>
          let span := s.file.readv offset size
          some { s with reads := update s.reads i (some (.served offset size known span)) }
      | _ => none
  | .answerRead i =>
      match s.reads i with
      | some (.served offset size known span) =>
          some { s with
            reads := update s.reads i none
            answers := ⟨offset, size, known, vectorBytes span.vector⟩ :: s.answers }
      | _ => none
  | .change i change =>
      if (s.changes i).isNone then
        some { prune s with changes := update s.changes i (some (.wound change)) }
      else none
  | .makeChange i =>
      match s.changes i with
      | some (.wound change) =>
          let file := s.file.advance (change.apply s.file.current)
          some { s with file := file, changes := update s.changes i (some (.made file.now)) }
      | _ => none
  | .failChange i =>
      match s.changes i with
      | some (.wound _) => some { s with changes := update s.changes i none }
      | _ => none
  | .answerChange i =>
      match s.changes i with
      | some (.made instant) =>
          some { s with changes := update s.changes i none, acked := instant :: s.acked }
      | _ => none

/-- Nothing cached, and nothing in flight. -/
def initial (c : Content Byte) : State :=
  ⟨none, 0, ⟨0, fun _ => c⟩, fun _ => none, fun _ => none, fun _ => none, [], []⟩

/-- `quick-read` for one file. -/
def quickRead (n : MaxFileSize) (heap : ℕ → Byte) (c : Content Byte) : Machine State Action where
  start s := s = initial c
  step := step n heap

/-! ## The invariant -/

/-- A content is the whole file of an instant. -/
structure Whole (file : Timeline Byte) (instant : ℕ) (data : List Byte) (size : ℕ) : Prop where
  le : instant ≤ file.now
  bytes : data = vectorBytes ((file.content instant).read 0 size)
  length : size = (file.content instant).size
  small : size ≤ 1024000

/-- Nothing that has been wound is newer than an instant: all changes have been made, not after
it. -/
structure UpTo (s : State) (instant : ℕ) : Prop where
  acked : ∀ m ∈ s.acked, m ≤ instant
  changes : ∀ j phase, s.changes j = some phase → ∃ m, phase = .made m ∧ m ≤ instant

/-- A read is current for the changes that it knows of. -/
def Honest (file : Timeline Byte) (a : Answer) : Prop :=
  ∃ d, file.Current a.known a.offset a.size d ∧ a.bytes = vectorBytes d.vector

/-- **The invariant.**  What is cached is the file of an instant that is not before any change. -/
structure Coherent (s : State) : Prop where
  acked : ∀ m ∈ s.acked, m ≤ s.file.now
  made : ∀ i m, s.changes i = some (.made m) → m ≤ s.file.now
  request : ∀ i r, s.lookups i = some (.wound (some r)) → r ≤ 1024000
  lookup : ∀ i reply content, s.lookups i = some (.served reply) → reply.content = some content →
    Whole s.file reply.instant content reply.buf.iaSize
  cache : ∀ qr data, s.qr = some qr → qr.data = some data →
    Whole s.file s.instant data qr.size ∧ UpTo s s.instant
  wound : ∀ i offset size known, s.reads i = some (.wound offset size known) →
    ∀ m ∈ known, m ≤ s.file.now
  served : ∀ i offset size known span, s.reads i = some (.served offset size known span) →
    s.file.Current known offset size span ∧ ∀ m ∈ known, m ≤ s.file.now
  answers : ∀ a ∈ s.answers, Honest s.file a ∧ ∀ m ∈ a.known, m ≤ s.file.now

/-- **The condition**: the content that a lookup brings is not older than any change that has been
wound. -/
def Fresh (s : State) : Action → Prop
  | .answerLookup i =>
      ∀ reply, s.lookups i = some (.served reply) → reply.content.isSome = true →
        UpTo s reply.instant
  | _ => True

variable {n : MaxFileSize} {heap : ℕ → Byte} {s s' : State}

theorem Coherent.start (c : Content Byte) : Coherent (initial c) where
  acked _ h := absurd h List.not_mem_nil
  made _ _ h := by cases h
  request _ _ h := by cases h
  lookup _ _ _ h := by cases h
  cache _ _ h := by cases h
  wound _ _ _ _ h := by cases h
  served _ _ _ _ _ h := by cases h
  answers _ h := absurd h List.not_mem_nil

theorem Whole.advance {file : Timeline Byte} {instant size : ℕ} {data : List Byte}
    (h : Whole file instant data size) (c : Content Byte) :
    Whole (file.advance c) instant data size := by
  have hcontent := Timeline.content_advance h.le c
  exact ⟨Nat.le_succ_of_le h.le, by rw [hcontent, h.bytes], by rw [hcontent, ← h.length], h.small⟩

theorem Honest.advance {file : Timeline Byte} {a : Answer} (h : Honest file a)
    (hle : ∀ m ∈ a.known, m ≤ file.now) (c : Content Byte) : Honest (file.advance c) a := by
  obtain ⟨d, hd, hbytes⟩ := h
  exact ⟨d, hd.advance hle c, hbytes⟩

/-- What is cached after a refresh was cached before. -/
theorem qrContentRefresh_data {qr : QrInode} {buf : Iatt} {data : List Byte}
    (h : (qrContentRefresh n qr buf).data = some data) : qrContentRefresh n qr buf = qr := by
  rw [qrContentRefresh] at h ⊢
  split_ifs at h ⊢
  · rfl
  · cases h

/-- **A hit.**  What is read from whole content is what the file contained. -/
theorem qrReadvCached_whole {file : Timeline Byte} {instant : ℕ} {qr : QrInode} {data : List Byte}
    (h : Whole file instant data qr.size) (hdata : qr.data = some data) {fresh : Bool}
    {offset size : ℕ} {bytes : List Byte}
    (hread : qrReadvCached heap qr fresh size offset = some bytes) :
    bytes = vectorBytes ((file.content instant).read offset size) := by
  rw [qrReadvCached, hdata, Option.bind_some] at hread
  by_cases hmiss : offset ≥ qr.size ∨ fresh = false
  · rw [if_pos hmiss] at hread
    cases hread
  have hsmall := h.small
  rw [if_neg hmiss, int32Of_eq (by omega)] at hread
  by_cases hsome : 0 < ((min size (qr.size - offset) : ℕ) : ℤ)
  · rw [if_pos hsome, Int.toNat_natCast] at hread
    rw [← Option.some.inj hread, h.bytes, vectorBytes, vectorBytes, Content.read, Content.read,
      ← h.length]
    refine List.map_congr_left fun i hi => ?_
    have hi' := List.mem_range.mp hi
    rw [List.getD_eq_getElem _ _ (by simp; omega)]
    simp
  · rw [if_neg hsome] at hread
    cases hread

/-! ## The steps -/

/-- What is cached, and whether it is up to date, depends on a part of the state only. -/
theorem Coherent.of_cache (h : Coherent s) {qr : Option QrInode}
    (hqr : ∀ q data, qr = some q → q.data = some data → s.qr = some q) :
    Coherent { s with qr := qr } :=
  ⟨h.acked, h.made, h.request, h.lookup,
    fun q data hq hdata => (h.cache q data (hqr q data hq hdata) hdata).imp_right
      fun hup => ⟨hup.acked, hup.changes⟩,
    h.wound, h.served, h.answers⟩

theorem Coherent.prune (h : Coherent s) : Coherent (prune s) := by
  refine h.of_cache fun q data hq hdata => ?_
  obtain ⟨old, -, rfl⟩ := Option.map_eq_some_iff.mp hq
  cases hdata

theorem Coherent.refresh (h : Coherent s) (buf : Iatt) :
    Coherent { s with qr := s.qr.map fun qr => qrContentRefresh n qr buf } := by
  refine h.of_cache fun q data hq hdata => ?_
  obtain ⟨old, hold, rfl⟩ := Option.map_eq_some_iff.mp hq
  rw [qrContentRefresh_data hdata]
  exact hold

/-- Lookups come and go. -/
theorem Coherent.of_lookups (h : Coherent s) {lookups : ℕ → Option Lookup}
    (hrequest : ∀ i r, lookups i = some (.wound (some r)) → r ≤ 1024000)
    (hlookup : ∀ i reply content, lookups i = some (.served reply) → reply.content = some content →
      Whole s.file reply.instant content reply.buf.iaSize) :
    Coherent { s with lookups := lookups } :=
  ⟨h.acked, h.made, hrequest, hlookup,
    fun q data hq hdata => (h.cache q data hq hdata).imp_right fun hup => ⟨hup.acked, hup.changes⟩,
    h.wound, h.served, h.answers⟩

theorem Coherent.lookup_wound (h : Coherent s) (i : ℕ) (cached : Bool) :
    Coherent { s with
      lookups := update s.lookups i (some (.wound (qrLookupRequest n cached))) } := by
  refine h.of_lookups (fun j r hj => ?_) fun j reply content hj hcontent => ?_
  · rcases of_update hj with hj | hj
    · have hr : qrLookupRequest n cached = some r := by
        injection hj with hj
        injection hj
      rw [qrLookupRequest] at hr
      split_ifs at hr
      rw [← Option.some.inj hr]
      exact n.2
    · exact h.request j r hj
  · rcases of_update hj with hj | hj
    · cases hj
    · exact h.lookup j reply content hj hcontent

/-- **The child serves a lookup**: with the whole file of now. -/
theorem Coherent.lookup_served (h : Coherent s) {i : ℕ} {request : Option ℕ}
    (hi : s.lookups i = some (.wound request)) (failed give : Bool) (mtime : ℕ) :
    Coherent { s with lookups := update s.lookups i (some (.served ⟨failed,
      lookupContent s.file.current request give, ⟨s.file.current.size, mtime⟩, s.file.now⟩)) } := by
  refine h.of_lookups (fun j r hj => ?_) fun j reply content hj hcontent => ?_
  · rcases of_update hj with hj | hj
    · cases hj
    · exact h.request j r hj
  · rcases of_update hj with hj | hj
    · obtain rfl := Lookup.served.inj (Option.some.inj hj)
      obtain ⟨r, rfl, hgive⟩ := Option.bind_eq_some_iff.mp hcontent
      split_ifs at hgive with hfits
      obtain rfl := Option.some.inj hgive
      exact ⟨le_rfl, rfl, rfl, hfits.2.trans (h.request i r hi)⟩
    · exact h.lookup j reply content hj hcontent

theorem Coherent.lookup_answered (h : Coherent s) {i : ℕ} {reply : LookupReply}
    (hi : s.lookups i = some (.served reply))
    (hfresh : reply.content.isSome = true → UpTo s reply.instant) :
    Coherent { qrLookupCbk n s reply with lookups := update s.lookups i none } := by
  have hdone : ∀ t : State, Coherent t → t.lookups = s.lookups →
      Coherent { t with lookups := update s.lookups i none } := by
    intro t ht hlookups
    refine ht.of_lookups (fun j r hj => ?_) fun j reply' content hj hcontent => ?_
    · exact ht.request j r (hlookups ▸ (of_update hj).resolve_left (by simp))
    · exact ht.lookup j reply' content (hlookups ▸ (of_update hj).resolve_left (by simp)) hcontent
  rw [qrLookupCbk]
  split_ifs
  · exact hdone _ h.prune rfl
  · cases hcontent : reply.content with
    | none => exact hdone _ (h.refresh reply.buf) rfl
    | some content =>
        refine hdone _ ⟨h.acked, h.made, h.request, h.lookup, fun q data hq hdata => ?_, h.wound,
          h.served, h.answers⟩ rfl
        obtain rfl := Option.some.inj hq
        obtain rfl := Option.some.inj hdata
        have hup := hfresh (by rw [hcontent]; rfl)
        exact ⟨h.lookup i reply content hi hcontent, hup.acked, hup.changes⟩

/-- Reads come and go. -/
theorem Coherent.of_reads (h : Coherent s) {reads : ℕ → Option Read} {answers : List Answer}
    (hwound : ∀ i offset size known, reads i = some (.wound offset size known) →
      ∀ m ∈ known, m ≤ s.file.now)
    (hserved : ∀ i offset size known span, reads i = some (.served offset size known span) →
      s.file.Current known offset size span ∧ ∀ m ∈ known, m ≤ s.file.now)
    (hanswers : ∀ a ∈ answers, Honest s.file a ∧ ∀ m ∈ a.known, m ≤ s.file.now) :
    Coherent { s with reads := reads, answers := answers } :=
  ⟨h.acked, h.made, h.request, h.lookup,
    fun q data hq hdata => (h.cache q data hq hdata).imp_right fun hup => ⟨hup.acked, hup.changes⟩,
    hwound, hserved, hanswers⟩

/-- **A read begins**: a hit is answered from the cache, everything else is passed on. -/
theorem Coherent.qrReadv (h : Coherent s) (i offset size : ℕ) (fresh : Bool) :
    Coherent (qrReadv heap s i offset size fresh) := by
  rw [Coherence.qrReadv]
  cases hhit : s.qr.bind fun qr => qrReadvCached heap qr fresh size offset with
  | some bytes =>
      obtain ⟨qr, hqr, hread⟩ := Option.bind_eq_some_iff.mp hhit
      obtain ⟨data, hdata, -⟩ := Option.bind_eq_some_iff.mp hread
      obtain ⟨hwhole, hup⟩ := h.cache qr data hqr hdata
      refine h.of_reads h.wound h.served fun a ha => ?_
      rcases List.mem_cons.mp ha with rfl | ha
      · refine ⟨⟨⟨s.instant, (s.file.content s.instant).read offset size⟩, ⟨⟨hwhole.le, rfl⟩, ?_⟩,
          qrReadvCached_whole hwhole hdata hread⟩, h.acked⟩
        exact fun m hm _ _ _ _ => hup.acked m hm
      · exact h.answers a ha
  | none =>
      refine h.of_reads (fun j o z known hj => ?_) (fun j o z known span hj => ?_) h.answers
      · rcases of_update hj with hj | hj
        · obtain ⟨-, -, rfl⟩ := Read.wound.inj (Option.some.inj hj)
          exact h.acked
        · exact h.wound j o z known hj
      · rcases of_update hj with hj | hj
        · cases hj
        · exact h.served j o z known span hj

theorem Coherent.read_served (h : Coherent s) {i offset size : ℕ} {known : List ℕ}
    (hi : s.reads i = some (.wound offset size known)) :
    Coherent { s with
      reads := update s.reads i
        (some (.served offset size known (s.file.readv offset size))) } := by
  refine h.of_reads (fun j o z known' hj => ?_) (fun j o z known' span hj => ?_) h.answers
  · rcases of_update hj with hj | hj
    · cases hj
    · exact h.wound j o z known' hj
  · rcases of_update hj with hj | hj
    · obtain ⟨rfl, rfl, rfl, rfl⟩ := Read.served.inj (Option.some.inj hj)
      have hknown := h.wound i offset size known hi
      exact ⟨Timeline.current_readv hknown, hknown⟩
    · exact h.served j o z known' span hj

theorem Coherent.read_answered (h : Coherent s) {i offset size : ℕ} {known : List ℕ}
    {span : Span Byte} (hi : s.reads i = some (.served offset size known span)) :
    Coherent { s with
      reads := update s.reads i none
      answers := ⟨offset, size, known, vectorBytes span.vector⟩ :: s.answers } := by
  refine h.of_reads (fun j o z known' hj => ?_) (fun j o z known' span' hj => ?_) fun a ha => ?_
  · exact h.wound j o z known' ((of_update hj).resolve_left (by simp))
  · exact h.served j o z known' span' ((of_update hj).resolve_left (by simp))
  · rcases List.mem_cons.mp ha with rfl | ha
    · obtain ⟨hcurrent, hknown⟩ := h.served i offset size known span hi
      exact ⟨⟨span, hcurrent, rfl⟩, hknown⟩
    · exact h.answers a ha

/-- **A change is wound**: the cache is empty. -/
theorem Coherent.change_wound (h : Coherent s) (i : ℕ) (change : Change) :
    Coherent { Coherence.prune s with changes := update s.changes i (some (.wound change)) } := by
  refine ⟨h.acked, fun j m hj => ?_, h.request, h.lookup, fun q data hq hdata => ?_, h.wound,
    h.served, h.answers⟩
  · rcases of_update hj with hj | hj
    · cases hj
    · exact h.made j m hj
  · obtain ⟨old, -, rfl⟩ := Option.map_eq_some_iff.mp hq
    cases hdata

/-- While a change is wound and not made, nothing is cached. -/
theorem Coherent.uncached (h : Coherent s) {i : ℕ} {change : Change}
    (hi : s.changes i = some (.wound change)) {q : QrInode} {data : List Byte} (hq : s.qr = some q) :
    q.data ≠ some data := by
  intro hdata
  obtain ⟨m, hm, -⟩ := (h.cache q data hq hdata).2.changes i _ hi
  cases hm

/-- **A change is made.** -/
theorem Coherent.change_made (h : Coherent s) {i : ℕ} {change : Change}
    (hi : s.changes i = some (.wound change)) (c : Content Byte) :
    Coherent { s with
      file := s.file.advance c
      changes := update s.changes i (some (.made (s.file.advance c).now)) } := by
  have hnow : s.file.now ≤ (s.file.advance c).now := Nat.le_succ _
  refine ⟨fun m hm => (h.acked m hm).trans hnow, fun j m hj => ?_, h.request, ?_, ?_, ?_, ?_, ?_⟩
  · rcases of_update hj with hj | hj
    · rw [← ChangePhase.made.inj (Option.some.inj hj)]
    · exact (h.made j m hj).trans hnow
  · exact fun j reply content hj hcontent => (h.lookup j reply content hj hcontent).advance c
  · exact fun q data hq hdata => absurd hdata (h.uncached hi hq)
  · exact fun j o z known hj m hm => (h.wound j o z known hj m hm).trans hnow
  · intro j o z known span hj
    obtain ⟨hcurrent, hknown⟩ := h.served j o z known span hj
    exact ⟨hcurrent.advance hknown c, fun m hm => (hknown m hm).trans hnow⟩
  · intro a ha
    obtain ⟨hhonest, hknown⟩ := h.answers a ha
    exact ⟨hhonest.advance hknown c, fun m hm => (hknown m hm).trans hnow⟩

theorem Coherent.change_failed (h : Coherent s) (i : ℕ) :
    Coherent { s with changes := update s.changes i none } := by
  refine ⟨h.acked, fun j m hj => ?_, h.request, h.lookup, fun q data hq hdata => ?_, h.wound,
    h.served, h.answers⟩
  · exact h.made j m ((of_update hj).resolve_left (by simp))
  · obtain ⟨hwhole, hup⟩ := h.cache q data hq hdata
    exact ⟨hwhole, hup.acked,
      fun j phase hj => hup.changes j phase ((of_update hj).resolve_left (by simp))⟩

theorem Coherent.change_acked (h : Coherent s) {i m : ℕ} (hi : s.changes i = some (.made m)) :
    Coherent { s with changes := update s.changes i none, acked := m :: s.acked } := by
  refine ⟨fun m' hm' => ?_, fun j m' hj => ?_, h.request, h.lookup, fun q data hq hdata => ?_,
    h.wound, h.served, h.answers⟩
  · rcases List.mem_cons.mp hm' with rfl | hm'
    · exact h.made i m' hi
    · exact h.acked m' hm'
  · exact h.made j m' ((of_update hj).resolve_left (by simp))
  · obtain ⟨hwhole, hup⟩ := h.cache q data hq hdata
    refine ⟨hwhole, fun m' hm' => ?_,
      fun j phase hj => hup.changes j phase ((of_update hj).resolve_left (by simp))⟩
    rcases List.mem_cons.mp hm' with rfl | hm'
    · obtain ⟨m'', hmade, hle⟩ := hup.changes i _ hi
      rwa [ChangePhase.made.inj hmade]
    · exact hup.acked m' hm'

/-- **One step.** -/
theorem Coherent.step (h : Coherent s) {a : Action} (hfresh : Fresh s a)
    (hstep : step n heap s a = some s') : Coherent s' := by
  cases a with
  | lookup i =>
      obtain ⟨-, hs'⟩ := Option.ite_none_right_eq_some.mp hstep
      exact Option.some.inj hs' ▸ h.lookup_wound i _
  | serveLookup i failed give mtime =>
      simp only [Coherence.step] at hstep
      split at hstep
      · rename_i request hi
        exact Option.some.inj hstep ▸ h.lookup_served hi failed give mtime
      · cases hstep
  | answerLookup i =>
      simp only [Coherence.step] at hstep
      split at hstep
      · rename_i reply hi
        exact Option.some.inj hstep ▸ h.lookup_answered hi (hfresh reply hi)
      · cases hstep
  | refresh buf => exact Option.some.inj hstep ▸ h.refresh buf
  | prune => exact Option.some.inj hstep ▸ h.prune
  | readv i offset size fresh =>
      obtain ⟨-, hs'⟩ := Option.ite_none_right_eq_some.mp hstep
      exact Option.some.inj hs' ▸ h.qrReadv i offset size fresh
  | serveRead i =>
      simp only [Coherence.step] at hstep
      split at hstep
      · rename_i offset size known hi
        exact Option.some.inj hstep ▸ h.read_served hi
      · cases hstep
  | answerRead i =>
      simp only [Coherence.step] at hstep
      split at hstep
      · rename_i offset size known span hi
        exact Option.some.inj hstep ▸ h.read_answered hi
      · cases hstep
  | change i change =>
      obtain ⟨-, hs'⟩ := Option.ite_none_right_eq_some.mp hstep
      exact Option.some.inj hs' ▸ h.change_wound i change
  | makeChange i =>
      simp only [Coherence.step] at hstep
      split at hstep
      · rename_i change hi
        exact Option.some.inj hstep ▸ h.change_made hi _
      · cases hstep
  | failChange i =>
      simp only [Coherence.step] at hstep
      split at hstep
      · exact Option.some.inj hstep ▸ h.change_failed i
      · cases hstep
  | answerChange i =>
      simp only [Coherence.step] at hstep
      split at hstep
      · rename_i m hi
        exact Option.some.inj hstep ▸ h.change_acked hi
      · cases hstep

/-- **Reads are not older than what has been acknowledged.**  For every interleaving of lookups,
reads and changes of a file and every order of the answers, as long as a lookup does not bring a
content from before a change that has been wound: every read returns what the file contained in its
range at one instant, and that is not before any change of the range that had been acknowledged when
the read began. -/
theorem cached_reads_current {c : Content Byte} (h : (quickRead n heap c).ReachableWhen Fresh s) :
    ∀ a ∈ s.answers, ∃ d, s.file.Current a.known a.offset a.size d
      ∧ a.bytes = vectorBytes d.vector := by
  have hcoherent : Coherent s := by
    refine h.invariant Coherent ?_ fun s a s' hs hfresh hstep => hs.step hfresh hstep
    rintro s rfl
    exact Coherent.start c
  exact fun a ha => (hcoherent.answers a ha).1

/-! ## Runs -/

theorem smallFiles_le : 1024 ≤ 1024000 := by decide

/-- A limit of one kilobyte. -/
def smallFiles : MaxFileSize := ⟨1024, smallFiles_le⟩

/-- A file of one byte. -/
def oneByte : Content Byte := ⟨1, fun _ => 1⟩

/-- A write of that byte. -/
def overwrite : Change := .write 0 ⟨fun _ => 2, 1⟩

/-- A write from its beginning to its end, and a lookup that is wound and served. -/
def writeThenLookup : List Action :=
  [.change 0 overwrite, .makeChange 0, .answerChange 0, .lookup 0, .serveLookup 0 false true 7]

/-- A lookup after the write brings the new byte, and a read gets it from the cache. -/
theorem cached_reads_current_written :
    ∃ s, (quickRead smallFiles (fun _ => 0) oneByte).ReachableWhen Fresh s
      ∧ s.answers = [⟨0, 1, [1], [2]⟩]
      ∧ ∃ d, s.file.Current [1] 0 1 d ∧ [2] = vectorBytes d.vector := by
  have hother : ∀ a ∈ writeThenLookup, ∀ t, Fresh t a := by
    intro a ha t
    simp only [writeThenLookup, List.mem_cons, List.not_mem_nil, or_false] at ha
    rcases ha with rfl | rfl | rfl | rfl | rfl <;> trivial
  have hserved : ∃ s, (quickRead smallFiles (fun _ => 0) oneByte).ReachableWhen Fresh s
      ∧ s.acked = [1] ∧ (∀ j, s.changes j = none)
      ∧ s.lookups 0 = some (.served ⟨false, some [2], ⟨1, 7⟩, 1⟩)
      ∧ s.reads 0 = none ∧ s.answers = [] := by
    refine ⟨_, Machine.ReachableWhen.exec (.start rfl) writeThenLookup hother rfl, rfl, fun j => ?_,
      rfl, rfl, rfl⟩
    by_cases hj : j = 0
    · rw [hj]
      rfl
    · change (update (update (update _ 0 _) 0 _) 0 none : ℕ → Option ChangePhase) j = none
      simp only [update_of_ne hj]
      rfl
  obtain ⟨s, hreach, hacked, hchanges, hlookup, hread, hanswers⟩ := hserved
  have hfresh : Fresh s (.answerLookup 0) := by
    intro reply hreply _
    rw [hlookup] at hreply
    obtain rfl := Lookup.served.inj (Option.some.inj hreply)
    refine ⟨fun m hm => ?_, fun j phase hj => ?_⟩
    · rw [hacked, List.mem_singleton] at hm
      rw [hm]
    · rw [hchanges j] at hj
      cases hj
  set s₁ : State := { qrLookupCbk smallFiles s ⟨false, some [2], ⟨1, 7⟩, 1⟩ with
    lookups := update s.lookups 0 none }
  have hanswered : (quickRead smallFiles (fun _ => 0) oneByte).step s (.answerLookup 0) = some s₁ := by
    change step smallFiles (fun _ => 0) s (.answerLookup 0) = some s₁
    simp only [step, hlookup]
    rfl
  have hhit : (quickRead smallFiles (fun _ => 0) oneByte).step s₁ (.readv 0 0 1 true)
      = some { s₁ with answers := ⟨0, 1, s.acked, [2]⟩ :: s.answers } := by
    have hcached : qrReadvCached (fun _ => 0) ⟨some [2], 1, 7⟩ true 1 0 = some [2] := by decide
    have hqr : s₁.qr = some ⟨some [2], 1, 7⟩ := rfl
    change (if (s.reads 0).isNone = true then some (qrReadv (fun _ => 0) s₁ 0 0 1 true) else none) = _
    rw [hread, if_pos Option.isNone_none, qrReadv]
    simp only [hqr, Option.bind_some, hcached]
    rfl
  have hreach₂ := (hreach.next hfresh hanswered).next
    (show Fresh s₁ (.readv 0 0 1 true) from trivial) hhit
  rw [hacked, hanswers] at hreach₂
  exact ⟨_, hreach₂, rfl, cached_reads_current hreach₂ _ List.mem_cons_self⟩

/-- **A read from before an acknowledged write.**  The lookup is served before the write and answered
after it. -/
theorem stale_read :
    ∃ s, (quickRead smallFiles (fun _ => 0) oneByte).Reachable s
      ∧ s.answers = [⟨0, 1, [1], [1]⟩]
      ∧ (s.file.content 0).get 0 = some 1 ∧ (s.file.content 1).get 0 = some 2 := by
  have hrun : ((quickRead smallFiles (fun _ => 0) oneByte).exec (initial oneByte)
      [.lookup 0, .serveLookup 0 false true 7, .change 0 overwrite, .makeChange 0, .answerChange 0,
        .answerLookup 0, .readv 0 0 1 true]).map
          (fun s => (s.answers, (s.file.content 0).get 0, (s.file.content 1).get 0))
      = some ([⟨0, 1, [1], [1]⟩], some 1, some 2) := by decide
  obtain ⟨s, hs, hfields⟩ := Option.map_eq_some_iff.mp hrun
  exact ⟨s, Machine.Reachable.exec (.start rfl) _ hs, congrArg Prod.fst hfields,
    congrArg (fun p => p.2.1) hfields, congrArg (fun p => p.2.2) hfields⟩

end GlusterFS.QuickRead.Coherence
