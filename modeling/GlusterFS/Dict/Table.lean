import GlusterFS.Lib.PointerList

/-!
# Dictionaries

A `dict_t` is a table of pairs that are linked twice: through `hash_next` from the heads in
`members`, and through `next` and `prev` from `members_list`.  The first pair lives in the
dictionary itself (`free_pair`) as long as it is not in use; the others come from a memory pool.
Every dictionary has one hash chain (`get_new_dict_full (1)`).

A pair is named by its address, and `0` is the address of `free_pair`.  `taken` are the pairs
that the dictionary has from the pool; a pair that is put back may be handed out again.

`Rep` says that a dictionary holds a list of entries: both lists lead over the same pairs, in the
same order, the pointers back fit, and the count is right.  Lookup, setting and deleting are
then what they are on the list of entries (`Rep.get`, `Rep.set`, `Rep.del`), and it follows for
every sequence of operations that the two lists have the same pairs and that no key is there
twice.
-/

namespace GlusterFS.Dictionary

open PointerList

/-! ## Pairs -/

/-- The contents of a C string. -/
abbrev Key := { bytes : List UInt8 // (0 : UInt8) ∉ bytes }

/-- `data_t`; `data` may be a null pointer. -/
structure Data where
  len : ℤ
  data : Option (List UInt8)
  len_eq : ∀ bytes ∈ data, len = bytes.length
  deriving DecidableEq

/-- `data_pair_t`. -/
structure DataPair where
  hashNext : Option ℕ
  prev : Option ℕ
  next : Option ℕ
  value : Option Data
  key : Option Key

/-- `dict_t`, and the memory of its pairs. -/
structure Dict where
  hashSize : ℕ
  count : ℤ
  members : ℤ → Option ℕ
  membersList : Option ℕ
  freePairInUse : Bool
  pair : ℕ → DataPair
  taken : Finset ℕ

/-- A pair is written to. -/
def writePair (pair : ℕ → DataPair) (a : ℕ) (f : DataPair → DataPair) : ℕ → DataPair :=
  Function.update pair a (f (pair a))

/-- `&this->free_pair`. -/
def freePair : ℕ := 0

/-- `THIS->ctx->dict_pair_pool`: some pair that is not taken. -/
structure MemPool where
  get : Finset ℕ → ℕ
  fresh : ∀ taken, get taken ∉ taken
  ne_freePair : ∀ taken, get taken ≠ freePair

/-- `get_new_dict_full`. -/
def getNewDictFull (sizeHint : ℕ) : Dict where
  hashSize := sizeHint
  count := 0
  members := fun _ => none
  membersList := none
  freePairInUse := false
  pair := fun _ => ⟨none, none, none, none, none⟩
  taken := ∅

/-- `dict_new`. -/
def dictNew : Dict := getNewDictFull 1

/-! ## Operations -/

section Operations

-- `hash` is `SuperFastHash`
variable (hash : Key → UInt32) (pool : MemPool)

/-- A walk that takes more steps than there are pairs does not end. -/
def Dict.steps (this : Dict) : ℕ := this.taken.card + 2

/-- The chain of a key: the hash is unsigned here. -/
def Dict.chainOf (this : Dict) (key : Key) : ℤ := ((hash key).toNat % this.hashSize : ℕ)

/-- `_dict_lookup`, with the pair before the one that is found; no answer is a walk that does not
end. -/
def Dict.search (this : Dict) (key : Key) : Option (Option (Option ℕ × ℕ)) :=
  PointerList.search (DataPair.hashNext ∘ this.pair) (fun a => (this.pair a).key = some key)
    this.steps none (this.members (this.chainOf hash key))

/-- `_dict_lookup`. -/
def dictLookup (this : Dict) (key : Key) : Option (Option ℕ) :=
  (this.search hash key).map (Option.map Prod.snd)

/-- `dict_get`. -/
def dictGet (this : Dict) (key : Key) : Option (Option Data) :=
  (dictLookup hash this key).map fun pair => pair.bind fun a => (this.pair a).value

/-- The pair that `_dict_set` takes. -/
def Dict.newPair (this : Dict) : ℕ := if this.freePairInUse then pool.get this.taken else freePair

/-- The chain of a key that is set: the hash is signed here. -/
def Dict.chainOfSet (this : Dict) (key : Key) : ℤ :=
  (hash key).toBitVec.toInt.tmod this.hashSize

/-- `_dict_set` for a new pair. -/
def Dict.insert (this : Dict) (key : Key) (value : Data) : Dict :=
  let hashval := this.chainOfSet hash key
  let a := this.newPair pool
  let pair := Function.update this.pair a
    ⟨this.members hashval, none, this.membersList, some value, some key⟩
  { this with
    freePairInUse := true
    taken := if this.freePairInUse then Insert.insert a this.taken else this.taken
    pair := match this.membersList with
      | none => pair
      | some b => writePair pair b fun cell => { cell with prev := some a }
    members := Function.update this.members hashval (some a)
    membersList := some a
    count := this.count + 1 }

/-- `_dict_set`. -/
def dictSetPair (this : Dict) (key : Key) (value : Data) (replace : Bool) : Option Dict :=
  if replace then
    (dictLookup hash this key).map fun
      | some a => { this with
          pair := writePair this.pair a fun cell => { cell with value := some value } }
      | none => this.insert hash pool key value
  else some (this.insert hash pool key value)

/-- `dict_set`. -/
def dictSet (this : Dict) (key : Key) : Option Data → Option (ℤ × Dict)
  | none => some (-1, this)
  | some value => (dictSetPair hash pool this key value true).map fun this => (0, this)

/-- `dict_add`. -/
def dictAdd (this : Dict) (key : Key) : Option Data → Option (ℤ × Dict)
  | none => some (-1, this)
  | some value => (dictSetPair hash pool this key value false).map fun this => (0, this)

/-- A pair leaves both lists. -/
def Dict.unlink (this : Dict) (hashval : ℤ) (before : Option ℕ) (a : ℕ) : Dict :=
  let pair := match before with
    | some p => writePair this.pair p fun cell => { cell with hashNext := (this.pair a).hashNext }
    | none => this.pair
  let pair' := match (pair a).prev with
    | some p => writePair pair p fun cell => { cell with next := (pair a).next }
    | none => pair
  { this with
    members := match before with
      | some _ => this.members
      | none => Function.update this.members hashval (this.pair a).hashNext
    membersList := match (pair a).prev with
      | some _ => this.membersList
      | none => (pair a).next
    pair := match (pair' a).next with
      | some n => writePair pair' n fun cell => { cell with prev := (pair' a).prev }
      | none => pair'
    freePairInUse := if a = freePair then false else this.freePairInUse
    taken := if a = freePair then this.taken else this.taken.erase a
    count := this.count - 1 }

/-- `dict_del`. -/
def dictDel (this : Dict) (key : Key) : Option Dict :=
  (this.search hash key).map fun
    | some (before, a) => this.unlink (this.chainOf hash key) before a
    | none => this

end Operations

/-! ## What a dictionary holds -/

/-- The entries of a dictionary, in the order of its lists. -/
abbrev Entries := List (Key × Data)

/-- A pair with its entry. -/
def Dict.IsEntry (this : Dict) (a : ℕ) (e : Key × Data) : Prop :=
  (this.pair a).key = some e.1 ∧ (this.pair a).value = some e.2

/-- **Both lists of the dictionary lead over the pairs `l`, which hold the entries.** -/
structure Rep (this : Dict) (l : List ℕ) (entries : Entries) : Prop where
  hashSize_eq : this.hashSize = 1
  chain : Chain (DataPair.hashNext ∘ this.pair) (this.members 0) l
  list : Chain (DataPair.next ∘ this.pair) this.membersList l
  back : Back (DataPair.prev ∘ this.pair) none l
  count_eq : this.count = l.length
  entry : List.Forall₂ this.IsEntry l entries
  mem_iff : ∀ a, a ∈ l ↔ a ∈ this.taken ∨ a = freePair ∧ this.freePairInUse = true
  freePair_notMem : freePair ∉ this.taken

section Rep

variable {hash : Key → UInt32} {pool : MemPool} {this : Dict} {l : List ℕ} {entries : Entries}
  {key : Key} {value : Data}

theorem rep_dictNew : Rep dictNew [] [] where
  hashSize_eq := rfl
  chain := rfl
  list := rfl
  back := trivial
  count_eq := rfl
  entry := .nil
  mem_iff a := by simp [dictNew, getNewDictFull]
  freePair_notMem := Finset.notMem_empty _

theorem Rep.chainOf_eq (h : Rep this l entries) (hash : Key → UInt32) (key : Key) :
    this.chainOf hash key = 0 := by
  rw [Dict.chainOf, h.hashSize_eq, Nat.mod_one]
  rfl

theorem Rep.length_lt (h : Rep this l entries) : l.length < this.steps := by
  have hsub : l.toFinset ⊆ Insert.insert freePair this.taken := fun a ha => by
    rw [List.mem_toFinset, h.mem_iff] at ha
    exact Finset.mem_insert.mpr (ha.symm.imp_left And.left)
  have hcard := Finset.card_le_card hsub
  rw [List.toFinset_card_of_nodup (Chain.nodup h.chain),
    Finset.card_insert_of_notMem h.freePair_notMem] at hcard
  rw [Dict.steps]
  omega

/-- The entries of two parts of the list. -/
theorem forall₂_split {R : ℕ → Key × Data → Prop} {l₁ l₂ : List ℕ} {a : ℕ} {entries : Entries}
    (h : List.Forall₂ R (l₁ ++ a :: l₂) entries) : ∃ es₁ e es₂, entries = es₁ ++ e :: es₂ ∧
      List.Forall₂ R l₁ es₁ ∧ R a e ∧ List.Forall₂ R l₂ es₂ := by
  induction l₁ generalizing entries with
  | nil =>
      cases h with
      | cons ha hl => exact ⟨[], _, _, rfl, .nil, ha, hl⟩
  | cons b l₁ ih =>
      cases h with
      | cons hb hl =>
          obtain ⟨es₁, e, es₂, rfl, h₁, ha, h₂⟩ := ih hl
          exact ⟨_ :: es₁, e, es₂, rfl, .cons hb h₁, ha, h₂⟩

theorem forall₂_notMem {l : List ℕ} {entries : Entries} (h : List.Forall₂ this.IsEntry l entries)
    (hnot : ∀ a ∈ l, decide ((this.pair a).key = some key) = false) :
    key ∉ entries.map Prod.fst := by
  induction h with
  | nil => exact List.not_mem_nil
  | @cons a e l entries ha _ ih =>
      rw [List.map_cons, List.mem_cons, not_or]
      refine ⟨fun heq => ?_, ih fun b hb => hnot b (List.mem_cons_of_mem _ hb)⟩
      have hfalse := hnot a List.mem_cons_self
      rw [ha.1, heq, decide_eq_true rfl] at hfalse
      cases hfalse

/-- **What a lookup finds**: nothing, or the first pair with the key. -/
theorem Rep.search (h : Rep this l entries) (hash : Key → UInt32) (key : Key) :
    (key ∉ entries.map Prod.fst ∧ this.search hash key = some none) ∨
      ∃ l₁ a l₂ es₁ value es₂, l = l₁ ++ a :: l₂ ∧ entries = es₁ ++ (key, value) :: es₂ ∧
        List.Forall₂ this.IsEntry l₁ es₁ ∧ this.IsEntry a (key, value) ∧
        List.Forall₂ this.IsEntry l₂ es₂ ∧ key ∉ es₁.map Prod.fst ∧
        this.search hash key = some (some (l₁.getLast?, a)) := by
  have hchain := h.chain
  rw [← h.chainOf_eq hash key] at hchain
  rcases @search_chain _ _ (fun a => (this.pair a).key = some key) _ _ _ none hchain
    h.length_lt with ⟨hnone, hsearch⟩ | ⟨l₁, a, l₂, rfl, hbefore, ha, hsearch⟩
  · exact .inl ⟨forall₂_notMem h.entry hnone, hsearch⟩
  · obtain ⟨es₁, ⟨key', value⟩, es₂, rfl, h₁, hentry, h₂⟩ := forall₂_split h.entry
    obtain rfl : key' = key := by
      have hkey := hentry.1
      rw [of_decide_eq_true ha] at hkey
      exact (Option.some.inj hkey).symm
    refine .inr ⟨l₁, a, l₂, es₁, value, es₂, rfl, rfl, h₁, hentry, h₂,
      forall₂_notMem h₁ hbefore, ?_⟩
    rw [Dict.search, hsearch, Option.or_none]

theorem lookup_eq_none {entries : Entries} (h : key ∉ entries.map Prod.fst) :
    entries.lookup key = none := by
  rw [List.lookup_eq_none_iff]
  intro e he
  rw [bne_iff_ne]
  rintro rfl
  exact h (List.mem_map_of_mem he)

theorem lookup_append {es₁ es₂ : Entries} (h : key ∉ es₁.map Prod.fst) :
    (es₁ ++ (key, value) :: es₂).lookup key = some value := by
  rw [List.lookup_append, lookup_eq_none h, Option.none_or, List.lookup_cons_self]

/-- **`dict_get` finds the first entry of the key.** -/
theorem Rep.get (h : Rep this l entries) (hash : Key → UInt32) (key : Key) :
    dictGet hash this key = some (entries.lookup key) := by
  rw [dictGet, dictLookup]
  rcases h.search hash key with ⟨hnot, hsearch⟩ |
    ⟨l₁, a, l₂, es₁, value, es₂, rfl, rfl, -, hentry, -, hnot, hsearch⟩
  · rw [hsearch, lookup_eq_none hnot]
    rfl
  · rw [hsearch, lookup_append hnot]
    exact congrArg some hentry.2

/-! ## New pairs -/

theorem Rep.newPair_notMem (h : Rep this l entries) : this.newPair pool ∉ l := by
  rw [h.mem_iff, Dict.newPair]
  cases hfree : this.freePairInUse with
  | true =>
      rw [if_pos rfl]
      rintro (hmem | ⟨heq, -⟩)
      · exact pool.fresh _ hmem
      · exact pool.ne_freePair _ heq
  | false =>
      rw [if_neg Bool.false_ne_true]
      rintro (hmem | ⟨-, hfalse⟩)
      · exact h.freePair_notMem hmem
      · cases hfalse

/-- The fields of the pairs after a write. -/
theorem comp_writePair {β : Type} (g : DataPair → β) (pair : ℕ → DataPair) (a : ℕ)
    (f : DataPair → DataPair) :
    g ∘ writePair pair a f = Function.update (g ∘ pair) a (g (f (pair a))) :=
  Function.comp_update ..

/-- A field that a write leaves alone. -/
theorem comp_writePair_same {β : Type} {g : DataPair → β} {f : DataPair → DataPair}
    (h : ∀ cell, g (f cell) = g cell) (pair : ℕ → DataPair) (a : ℕ) :
    g ∘ writePair pair a f = g ∘ pair := by
  rw [comp_writePair, h]
  exact Function.update_eq_self a (g ∘ pair)

/-- The fields of the pairs after an insertion, but for the pointers back. -/
theorem insert_field (this : Dict) (hash : Key → UInt32) (pool : MemPool) (key : Key)
    (value : Data) {β : Type} (f : DataPair → β)
    (hf : ∀ (cell : DataPair) p, f { cell with prev := p } = f cell) :
    f ∘ (this.insert hash pool key value).pair = Function.update (f ∘ this.pair)
      (this.newPair pool) (f ⟨this.members (this.chainOfSet hash key), none, this.membersList,
        some value, some key⟩) := by
  rw [← Function.comp_update]
  unfold Dict.insert
  dsimp only
  cases this.membersList with
  | none => rfl
  | some b => exact comp_writePair_same (hf · _) _ b

theorem insert_prev : DataPair.prev ∘ (this.insert hash pool key value).pair =
    pushBack (DataPair.prev ∘ this.pair) this.membersList (this.newPair pool) := by
  unfold Dict.insert
  dsimp only
  cases this.membersList with
  | none => exact Function.comp_update ..
  | some b => rw [comp_writePair, Function.comp_update, pushBack]

/-- Entries of pairs whose key and value stay. -/
theorem forall₂_congr {this this' : Dict} {l : List ℕ} {entries : Entries}
    (h : List.Forall₂ this.IsEntry l entries)
    (hkey : ∀ a ∈ l, (this'.pair a).key = (this.pair a).key)
    (hvalue : ∀ a ∈ l, (this'.pair a).value = (this.pair a).value) :
    List.Forall₂ this'.IsEntry l entries := by
  induction h with
  | nil => exact .nil
  | @cons a e l entries ha _ ih =>
      refine .cons ⟨?_, ?_⟩ (ih (fun b hb => hkey b (List.mem_cons_of_mem _ hb))
        fun b hb => hvalue b (List.mem_cons_of_mem _ hb))
      · rw [hkey a List.mem_cons_self, ha.1]
      · rw [hvalue a List.mem_cons_self, ha.2]

/-- **A new pair comes first.** -/
theorem Rep.insert (h : Rep this l entries) (hash : Key → UInt32) (pool : MemPool) (key : Key)
    (value : Data) : Rep (this.insert hash pool key value) (this.newPair pool :: l)
      ((key, value) :: entries) := by
  have hnew : this.newPair pool ∉ l := h.newPair_notMem
  have hchainOf : this.chainOfSet hash key = 0 := by
    rw [Dict.chainOfSet, h.hashSize_eq]
    exact Int.tmod_one _
  have hne : ∀ a ∈ l, a ≠ this.newPair pool := fun a ha heq => hnew (heq ▸ ha)
  have hkey := insert_field this hash pool key value DataPair.key fun _ _ => rfl
  have hvalue := insert_field this hash pool key value DataPair.value fun _ _ => rfl
  refine ⟨h.hashSize_eq, ?_, ?_, ?_, ?_, .cons ⟨?_, ?_⟩ (forall₂_congr h.entry ?_ ?_), ?_, ?_⟩
  · rw [insert_field _ _ _ _ _ _ fun _ _ => rfl]
    have hmembers : (this.insert hash pool key value).members 0 = some (this.newPair pool) := by
      rw [← hchainOf]
      exact Function.update_self ..
    rw [hmembers, hchainOf]
    exact Chain.push h.chain hnew
  · rw [insert_field _ _ _ _ _ _ fun _ _ => rfl]
    exact Chain.push h.list hnew
  · rw [insert_prev, h.list.start_eq]
    exact Back.push h.back hnew (Chain.nodup h.chain)
  · rw [List.length_cons, Nat.cast_add, ← h.count_eq]
    rfl
  · exact (congrFun hkey _).trans (Function.update_self ..)
  · exact (congrFun hvalue _).trans (Function.update_self ..)
  · exact fun a ha => (congrFun hkey a).trans (Function.update_of_ne (hne a ha) ..)
  · exact fun a ha => (congrFun hvalue a).trans (Function.update_of_ne (hne a ha) ..)
  · intro a
    rw [List.mem_cons, h.mem_iff, Dict.newPair]
    unfold Dict.insert Dict.newPair
    cases this.freePairInUse with
    | true => simp only [if_true, Finset.mem_insert, and_true, or_assoc]
    | false =>
        simp only [Bool.false_eq_true, if_false, and_false, or_false, and_true]
        exact or_comm
  · unfold Dict.insert Dict.newPair
    cases this.freePairInUse with
    | true =>
        rw [if_pos rfl]
        refine Finset.mem_insert.not.mpr (not_or.mpr ?_)
        exact ⟨(pool.ne_freePair _).symm, h.freePair_notMem⟩
    | false => exact h.freePair_notMem

/-! ## Values that are replaced -/

/-- **A value is replaced where it stands.** -/
theorem Rep.replace {l₁ l₂ : List ℕ} {a : ℕ} {es₁ es₂ : Entries} {old : Data}
    (h : Rep this (l₁ ++ a :: l₂) entries) (h₁ : List.Forall₂ this.IsEntry l₁ es₁)
    (ha : this.IsEntry a (key, old)) (h₂ : List.Forall₂ this.IsEntry l₂ es₂) (value : Data) :
    Rep { this with pair := writePair this.pair a fun cell => { cell with value := some value } }
      (l₁ ++ a :: l₂) (es₁ ++ (key, value) :: es₂) := by
  have hnodup := Chain.nodup h.chain
  rw [List.nodup_append, List.nodup_cons] at hnodup
  obtain ⟨-, ⟨ha₂, -⟩, hcross⟩ := hnodup
  have hsame := fun (g : DataPair → Option ℕ) (hg : ∀ cell : DataPair,
    g { cell with value := some value } = g cell) => comp_writePair_same hg this.pair a
  have hkey := congrFun (@comp_writePair_same _ DataPair.key
    (fun cell => { cell with value := some value }) (fun _ => rfl) this.pair a)
  have hvalue := congrFun (comp_writePair DataPair.value this.pair a
    fun cell => { cell with value := some value })
  refine ⟨h.hashSize_eq, ?_, ?_, ?_, h.count_eq, ?_, h.mem_iff, h.freePair_notMem⟩
  · exact (hsame DataPair.hashNext fun _ => rfl) ▸ h.chain
  · exact (hsame DataPair.next fun _ => rfl) ▸ h.list
  · exact (hsame DataPair.prev fun _ => rfl) ▸ h.back
  · refine List.rel_append
      (forall₂_congr h₁ (fun b _ => hkey b) fun b hb => (hvalue b).trans ?_)
      (.cons ⟨(hkey a).trans ha.1, (hvalue a).trans (Function.update_self ..)⟩
        (forall₂_congr h₂ (fun b _ => hkey b) fun b hb => (hvalue b).trans ?_))
    · exact Function.update_of_ne (hcross b hb a List.mem_cons_self) ..
    · refine Function.update_of_ne ?_ ..
      rintro rfl
      exact ha₂ hb

/-! ## Pairs that leave -/

section Unlink

variable {before : Option ℕ} {a : ℕ} {hashval : ℤ}

/-- The pointers forward are drawn past a pair. -/
def Dict.passOver (this : Dict) (before : Option ℕ) (a : ℕ) : ℕ → DataPair :=
  match before with
  | some p => writePair this.pair p fun cell =>
      { cell with hashNext := (this.pair a).hashNext, next := (this.pair a).next }
  | none => this.pair

/-- The writes of `dict_del`. -/
theorem unlink_pair (hbefore : before ≠ some a) (hprev : (this.pair a).prev = before) :
    (this.unlink hashval before a).pair =
      match (this.pair a).next with
        | some n => writePair (this.passOver before a) n fun cell => { cell with prev := before }
        | none => this.passOver before a := by
  cases before with
  | none => simp only [Dict.unlink, Dict.passOver, hprev]
  | some p =>
      have hap : a ≠ p := fun hap => hbefore (congrArg some hap.symm)
      have ha : ∀ f, writePair this.pair p f a = this.pair a := fun f =>
        Function.update_of_ne hap ..
      have htwice : ∀ f g, writePair (writePair this.pair p f) p g =
          writePair this.pair p (g ∘ f) := fun f g => by
        unfold writePair
        rw [Function.update_idem, Function.update_self]
        rfl
      simp only [Dict.unlink, Dict.passOver, ha, hprev, htwice]
      rfl

theorem unlink_membersList (hbefore : before ≠ some a) (hprev : (this.pair a).prev = before) :
    (this.unlink hashval before a).membersList =
      skipStart this.membersList (DataPair.next ∘ this.pair) before a := by
  cases before with
  | none =>
      simp only [Dict.unlink, hprev, skipStart]
      rfl
  | some p =>
      have hap : a ≠ p := fun hap => hbefore (congrArg some hap.symm)
      have ha : ∀ f, writePair this.pair p f a = this.pair a := fun f =>
        Function.update_of_ne hap ..
      simp only [Dict.unlink, ha, hprev, skipStart]

/-- The fields of the pairs, but for the pointers back. -/
theorem unlink_field (hashval : ℤ) (hbefore : before ≠ some a)
    (hprev : (this.pair a).prev = before) {β : Type} (g : DataPair → β)
    (hg : ∀ (cell : DataPair) p, g { cell with prev := p } = g cell) :
    g ∘ (this.unlink hashval before a).pair = g ∘ this.passOver before a := by
  rw [unlink_pair hbefore hprev]
  cases (this.pair a).next with
  | none => rfl
  | some n => exact comp_writePair_same (hg · _) _ n

/-- The keys and values stay as they are. -/
theorem passOver_field {β : Type} (g : DataPair → β)
    (hg : ∀ (cell : DataPair) h n, g { cell with hashNext := h, next := n } = g cell) :
    g ∘ this.passOver before a = g ∘ this.pair := by
  cases before with
  | none => rfl
  | some p => exact comp_writePair_same (hg · _ _) _ p

theorem unlink_hashNext (hbefore : before ≠ some a) (hprev : (this.pair a).prev = before) :
    DataPair.hashNext ∘ (this.unlink hashval before a).pair =
      skip (DataPair.hashNext ∘ this.pair) before a := by
  rw [unlink_field _ hbefore hprev DataPair.hashNext fun _ _ => rfl]
  cases before with
  | none => rfl
  | some p => exact comp_writePair DataPair.hashNext this.pair p _

theorem unlink_next (hbefore : before ≠ some a) (hprev : (this.pair a).prev = before) :
    DataPair.next ∘ (this.unlink hashval before a).pair =
      skip (DataPair.next ∘ this.pair) before a := by
  rw [unlink_field _ hbefore hprev DataPair.next fun _ _ => rfl]
  cases before with
  | none => rfl
  | some p => exact comp_writePair DataPair.next this.pair p _

theorem unlink_prev (hbefore : before ≠ some a) (hprev : (this.pair a).prev = before) :
    DataPair.prev ∘ (this.unlink hashval before a).pair =
      skip (DataPair.prev ∘ this.pair) (this.pair a).next a := by
  rw [unlink_pair hbefore hprev]
  have hpass : DataPair.prev ∘ this.passOver before a = DataPair.prev ∘ this.pair :=
    passOver_field DataPair.prev fun _ _ _ => rfl
  cases (this.pair a).next with
  | none => exact hpass
  | some n =>
      dsimp only
      rw [comp_writePair, hpass, skip, Function.comp_apply, hprev]

end Unlink

/-- **A pair leaves both lists.** -/
theorem Rep.unlink {l₁ l₂ : List ℕ} {a : ℕ} {es₁ es₂ : Entries}
    (h : Rep this (l₁ ++ a :: l₂) entries) (h₁ : List.Forall₂ this.IsEntry l₁ es₁)
    (h₂ : List.Forall₂ this.IsEntry l₂ es₂) :
    Rep (this.unlink 0 l₁.getLast? a) (l₁ ++ l₂) (es₁ ++ es₂) := by
  have hnodup := Chain.nodup h.chain
  have hprev : (this.pair a).prev = l₁.getLast? := by
    have hback := (Back.append_iff.mp h.back).2.1
    rwa [Option.or_none] at hback
  have hnext : (this.pair a).next = l₂.head? := by
    obtain ⟨mid, -, -, hchain⟩ := Segment.append_iff.mp h.list
    exact hchain.start_eq
  have hmem : a ∉ l₁ ++ l₂ := (List.nodup_middle.mp hnodup).notMem
  have hbefore : l₁.getLast? ≠ some a := fun hlast =>
    hmem (List.mem_append_left _ (List.mem_of_getLast? hlast))
  have hkey := congrFun ((unlink_field 0 hbefore hprev DataPair.key
    fun _ _ => rfl).trans (passOver_field DataPair.key fun _ _ _ => rfl))
  have hvalue := congrFun ((unlink_field 0 hbefore hprev DataPair.value
    fun _ _ => rfl).trans (passOver_field DataPair.value fun _ _ _ => rfl))
  refine ⟨h.hashSize_eq, ?_, ?_, ?_, ?_, List.rel_append
    (forall₂_congr h₁ (fun b _ => hkey b) fun b _ => hvalue b)
    (forall₂_congr h₂ (fun b _ => hkey b) fun b _ => hvalue b), ?_, ?_⟩
  · rw [unlink_hashNext hbefore hprev]
    have hmembers : (this.unlink 0 l₁.getLast? a).members 0 =
        skipStart (this.members 0) (DataPair.hashNext ∘ this.pair) l₁.getLast? a := by
      unfold Dict.unlink
      cases l₁.getLast? with
      | none => exact Function.update_self (0 : ℤ) _ this.members
      | some p => rfl
    rw [hmembers]
    exact Chain.remove h.chain
  · rw [unlink_next hbefore hprev, unlink_membersList hbefore hprev]
    exact Chain.remove h.list
  · rw [unlink_prev hbefore hprev, hnext]
    exact Back.remove h.back hnodup
  · have hcount := h.count_eq
    rw [List.length_append, List.length_cons] at hcount
    rw [List.length_append]
    change this.count - 1 = _
    rw [hcount]
    omega
  · intro b
    have hb : b ∈ l₁ ++ l₂ ↔ b ≠ a ∧ b ∈ l₁ ++ a :: l₂ := by
      rw [List.mem_append, List.mem_append, List.mem_cons, or_left_comm]
      refine ⟨fun hb => ⟨?_, .inr hb⟩, fun hb => hb.2.resolve_left hb.1⟩
      rintro rfl
      exact hmem (List.mem_append.mpr hb)
    rw [hb, h.mem_iff]
    unfold Dict.unlink
    dsimp only
    split_ifs with hfree
    · subst hfree
      refine ⟨fun ⟨hne, hb⟩ => hb.imp_right fun hb => absurd hb.1 hne, ?_⟩
      rintro (hb | ⟨-, hfalse⟩)
      · exact ⟨fun heq => h.freePair_notMem (heq ▸ hb), .inl hb⟩
      · cases hfalse
    · rw [Finset.mem_erase, and_or_left]
      refine or_congr_right ⟨And.right, fun hb => ⟨?_, hb⟩⟩
      rw [hb.1]
      exact Ne.symm hfree
  · unfold Dict.unlink
    dsimp only
    split_ifs with hfree
    · exact h.freePair_notMem
    · exact fun hmem => h.freePair_notMem (Finset.mem_of_mem_erase hmem)

/-! ## Operations on entries -/

/-- What `dict_set` does to the entries. -/
def setEntry (entries : Entries) (key : Key) (value : Data) : Entries :=
  if key ∈ entries.map Prod.fst then
    entries.map fun e => if e.1 = key then (key, value) else e
  else (key, value) :: entries

/-- What `dict_del` does to the entries. -/
def delEntry (entries : Entries) (key : Key) : Entries := entries.filter fun e => e.1 ≠ key

/-- The entries of other keys around the entry of a key. -/
theorem keys_split {es₁ es₂ : Entries}
    (h : ((es₁ ++ (key, value) :: es₂).map Prod.fst).Nodup) :
    (∀ e ∈ es₁, e.1 ≠ key) ∧ ∀ e ∈ es₂, e.1 ≠ key := by
  rw [List.map_append, List.map_cons, List.nodup_middle, List.nodup_cons, List.mem_append,
    not_or] at h
  exact ⟨fun e he heq => h.1.1 (List.mem_map.mpr ⟨e, he, heq⟩),
    fun e he heq => h.1.2 (List.mem_map.mpr ⟨e, he, heq⟩)⟩

theorem setEntry_of_mem {es₁ es₂ : Entries} {old : Data}
    (h : ((es₁ ++ (key, old) :: es₂).map Prod.fst).Nodup) (value : Data) :
    setEntry (es₁ ++ (key, old) :: es₂) key value = es₁ ++ (key, value) :: es₂ := by
  obtain ⟨h₁, h₂⟩ := keys_split h
  have hsame : ∀ es : Entries, (∀ e ∈ es, e.1 ≠ key) →
      es.map (fun e => if e.1 = key then (key, value) else e) = es := fun es hes =>
    (List.map_congr_left fun e he => if_neg (hes e he)).trans (List.map_id' es)
  rw [setEntry, if_pos (by simp), List.map_append, List.map_cons, if_pos rfl, hsame _ h₁,
    hsame _ h₂]

theorem delEntry_of_mem {es₁ es₂ : Entries}
    (h : ((es₁ ++ (key, value) :: es₂).map Prod.fst).Nodup) :
    delEntry (es₁ ++ (key, value) :: es₂) key = es₁ ++ es₂ := by
  obtain ⟨h₁, h₂⟩ := keys_split h
  rw [delEntry, List.filter_append, List.filter_cons_of_neg (by simp),
    List.filter_eq_self.mpr fun e he => decide_eq_true (h₁ e he),
    List.filter_eq_self.mpr fun e he => decide_eq_true (h₂ e he)]

theorem keys_setEntry (h : (entries.map Prod.fst).Nodup) (key : Key) (value : Data) :
    ((setEntry entries key value).map Prod.fst).Nodup := by
  unfold setEntry
  split_ifs with hmem
  · have hfst : ∀ e ∈ entries, (Prod.fst ∘ fun e => if e.1 = key then (key, value) else e) e =
        e.1 := fun e _ => by
      rw [Function.comp_apply]
      split_ifs with heq
      · exact heq.symm
      · rfl
    rwa [List.map_map, List.map_congr_left hfst]
  · exact List.nodup_cons.mpr ⟨hmem, h⟩

theorem keys_delEntry (h : (entries.map Prod.fst).Nodup) (key : Key) :
    ((delEntry entries key).map Prod.fst).Nodup :=
  h.sublist (List.filter_sublist.map Prod.fst)

/-- **`dict_set` on the entries.** -/
theorem Rep.set (h : Rep this l entries) (hkeys : (entries.map Prod.fst).Nodup)
    (hash : Key → UInt32) (pool : MemPool) (key : Key) (value : Data) :
    ∃ this' l', dictSet hash pool this key (some value) = some (0, this') ∧
      Rep this' l' (setEntry entries key value) := by
  rw [dictSet, dictSetPair, if_pos rfl, dictLookup]
  rcases h.search hash key with ⟨hnot, hsearch⟩ |
    ⟨l₁, a, l₂, es₁, old, es₂, rfl, rfl, h₁, hentry, h₂, -, hsearch⟩
  · rw [hsearch, setEntry, if_neg hnot]
    exact ⟨_, _, rfl, h.insert hash pool key value⟩
  · rw [hsearch, setEntry_of_mem hkeys]
    exact ⟨_, _, rfl, h.replace h₁ hentry h₂ value⟩

/-- **`dict_del` on the entries.** -/
theorem Rep.del (h : Rep this l entries) (hkeys : (entries.map Prod.fst).Nodup)
    (hash : Key → UInt32) (key : Key) :
    ∃ this' l', dictDel hash this key = some this' ∧ Rep this' l' (delEntry entries key) := by
  rw [dictDel]
  rcases h.search hash key with ⟨hnot, hsearch⟩ |
    ⟨l₁, a, l₂, es₁, old, es₂, rfl, rfl, h₁, -, h₂, -, hsearch⟩
  · have hsame : delEntry entries key = entries := List.filter_eq_self.mpr fun e he =>
      decide_eq_true fun heq => hnot (heq ▸ List.mem_map_of_mem he)
    rw [hsearch, hsame]
    exact ⟨_, _, rfl, h⟩
  · rw [hsearch, delEntry_of_mem hkeys, h.chainOf_eq]
    exact ⟨_, _, rfl, h.unlink h₁ h₂⟩

end Rep

end GlusterFS.Dictionary
