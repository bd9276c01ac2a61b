import GlusterFS.Ec.Dispatch

/-!
# Merging the dictionaries of a group of answers

Once a group of compatible answers is chosen, `ec_dict_combine` merges their
dictionaries into the one of the newest answer.  Some keys have a rule of their
own (`mergeRule`); their values are expected to differ between bricks, and
`ec_dict_data_compare` has its own list of keys whose values it does not look at
(`valueMayDiffer`).

The two lists are written separately, and they do not agree: the merge takes every
key that *starts with* `glusterfs.clrlk` or `trusted.glusterfs.lockinfo`, the
comparison only lets the two names themselves differ.  `compared_of_merged` gives
exactly the keys in between (`unreconciled`).  Every clear-locks command of a client
is one, as the arguments of the command are part of the key.

The rest of the agreement holds.  Between dictionaries without repeated keys the
comparison is an equivalence (`ecDictCompare_iff_same`), and so the answers of a
group have the same keys and the merge finds each of them everywhere
(`ecDictCombine_found`).

What a rule does to the bytes of the values is a parameter here.
-/

namespace GlusterFS.Ec

/-! ## The rules -/

/-- The rules by which `ec_dict_data_combine` merges the values of a key. -/
inductive MergeRule
  | pathinfo | clrlk | lockinfo | openFdCount | nodeUuid | stime | xtime
  deriving DecidableEq, Repr

/-- The tests of `ec_dict_data_combine`, in their order.  `FNM_NOESCAPE` makes no
difference for patterns without a backslash. -/
def mergeRule (key : String) : Option MergeRule :=
  if key == "trusted.glusterfs.pathinfo" || key == "glusterfs.pathinfo" then some .pathinfo
  else if key.startsWith "glusterfs.clrlk" then some .clrlk
  else if key.startsWith "trusted.glusterfs.lockinfo" then some .lockinfo
  else if key == "glusterfs.open-fd-count" then some .openFdCount
  else if key.startsWith "trusted.glusterfs.node-uuid" then some .nodeUuid
  else if fnmatchStar "trusted.glusterfs." ".stime" key then some .stime
  else if fnmatchStar "trusted.glusterfs." ".xtime" key then some .xtime
  else none

/-- The keys that are merged by a rule although their values are compared. -/
def unreconciled (key : String) : Bool :=
  (key.startsWith "glusterfs.clrlk" && key != "glusterfs.clrlk") ||
  (key.startsWith "trusted.glusterfs.lockinfo" && key != "trusted.glusterfs.lockinfo" &&
    !fnmatchStar "trusted.glusterfs." ".stime" key &&
    !fnmatchStar "trusted.glusterfs." ".xtime" key)

/-! ## The merge -/

/-- The ways in which `ec_dict_combine` fails: more answers than `cbk->count`, a
dictionary without the key, or values that cannot be merged. -/
inductive CombineError
  | number | missing | value
  deriving DecidableEq, Repr

/-- The loop of `ec_dict_list`, which has passed `i` answers. -/
def dictListFrom (max : ℕ) (key : String) :
    ℕ → List (Option Dict) → Except CombineError (List (List UInt8))
  | _, [] => .ok []
  | i, dict :: rest =>
      if i ≥ max then .error .number
      else
        match dictGet (dict.getD []) key with
        | none => .error .missing
        | some data => (dictListFrom max key (i + 1) rest).map (data :: ·)

/-- `ec_dict_list`. -/
def ecDictList (count : ℕ) (dicts : List (Option Dict)) (key : String) :
    Except CombineError (List (List UInt8)) :=
  dictListFrom count key 0 dicts

/-- `dict_set` of a key that is there: the value is replaced in its place. -/
def dictSet (d : Dict) (key : String) (value : List UInt8) : Dict :=
  d.map fun pair => if pair.1 = key then (key, value) else pair

/-- The answer of the smallest brick, found by the loop of `ec_dict_data_uuid`. -/
def minAnswer (cbk : ℕ × Option Dict) (next : List (ℕ × Option Dict)) : ℕ × Option Dict :=
  next.foldl (fun min ans => if ans.1 < min.1 then ans else min) cbk

/-- `ec_dict_data_uuid`.  As the loop only moves to smaller bricks, `min != cbk` is a
comparison of the bricks. -/
def ecDictDataUuid (idx : ℕ) (next : List (ℕ × Option Dict)) (dict : Dict) (key : String) :
    Except CombineError Dict :=
  let min := minAnswer (idx, some dict) next
  if min.1 ≠ idx then
    match dictGet (min.2.getD []) key with
    | none => .error .missing
    | some data => .ok (dictSet dict key data)
  else .ok dict

section Merge

-- What the rules make of the values of all answers: `ec_dict_data_concat`,
-- `ec_dict_data_merge`, `ec_dict_data_max32`, `ec_dict_data_stime` and
-- `ec_dict_data_max64`.
variable (merge : MergeRule → List (List UInt8) → Option (List UInt8))

/-- The rules that look at all values: `ec_dict_list`, and the result into the newest
dictionary. -/
def ecDictDataValues (rule : MergeRule) (count : ℕ) (next : List (ℕ × Option Dict)) (dict : Dict)
    (key : String) : Except CombineError Dict :=
  match ecDictList count (some dict :: next.map Prod.snd) key with
  | .error e => .error e
  | .ok data =>
      match merge rule data with
      | none => .error .value
      | some value => .ok (dictSet dict key value)

/-- `ec_dict_data_combine` for one key of the newest dictionary. -/
def ecDictDataCombine (count idx : ℕ) (next : List (ℕ × Option Dict)) (dict : Dict)
    (key : String) : Except CombineError Dict :=
  match mergeRule key with
  | none => .ok dict
  | some .nodeUuid => ecDictDataUuid idx next dict key
  | some rule => ecDictDataValues merge rule count next dict key

/-- `ec_dict_combine`: `dict_foreach` over the newest dictionary. -/
def ecDictCombine (count idx : ℕ) (next : List (ℕ × Option Dict)) (dict : Option Dict) :
    Except CombineError (Option Dict) :=
  match dict with
  | none => .ok none
  | some d =>
      ((d.map Prod.fst).foldlM (ecDictDataCombine merge count idx next) d).map some

end Merge

/-- `EC_COMBINE_XDATA` and `EC_COMBINE_DICT`. -/
inductive Which
  | xdata | dict
  deriving DecidableEq, Repr

/-- The dictionary of an answer that is merged. -/
def Answer.which (a : Answer) : Which → Option Dict
  | .xdata => a.xdata
  | .dict => a.dict

/-- `ec_dict_combine` on a group. -/
def Group.dictCombine (merge : MergeRule → List (List UInt8) → Option (List UInt8)) (g : Group)
    (which : Which) : Except CombineError (Option Dict) :=
  ecDictCombine merge g.count g.newest.1 (g.next.map fun x => (x.1, x.2.which which))
    (g.newest.2.which which)

/-! ## The two lists of keys -/

/-- No key starts with both of two strings that are not prefixes of each other. -/
theorem not_startsWith_of_startsWith {p q key : String} (hp : key.startsWith p = true)
    (hpq : ¬p.toList <+: q.toList) (hqp : ¬q.toList <+: p.toList) :
    key.startsWith q = false := by
  rw [Bool.eq_false_iff]
  intro hq
  rw [String.startsWith_string_iff] at hp hq
  rcases List.prefix_or_prefix_of_prefix hp hq with h | h
  · exact hpq h
  · exact hqp h

theorem beq_eq_false_of_startsWith {p key name : String} (hp : key.startsWith p = true)
    (hname : name.startsWith p = false) : (key == name) = false := by
  rw [beq_eq_false_iff_ne]
  rintro rfl
  rw [hp] at hname
  cases hname

/-- A clear-locks key is compared unless it is the name itself. -/
theorem valueMayDiffer_clrlk {key : String} (h : key.startsWith "glusterfs.clrlk" = true) :
    valueMayDiffer key = (key == "glusterfs.clrlk") := by
  have uuid : key.startsWith "trusted.glusterfs.node-uuid" = false :=
    not_startsWith_of_startsWith h (by decide +kernel) (by decide +kernel)
  have trusted : key.startsWith "trusted.glusterfs." = false :=
    not_startsWith_of_startsWith h (by decide +kernel) (by decide +kernel)
  have other : ∀ name : String, name.startsWith "glusterfs.clrlk" = false →
      (key == name) = false := fun name => beq_eq_false_of_startsWith h
  simp only [valueMayDiffer, fnmatchStar, uuid, trusted, Bool.and_false, Bool.false_and,
    Bool.or_false, other "glusterfs.content" (by decide +kernel),
    other "trusted.glusterfs.pathinfo" (by decide +kernel),
    other "glusterfs.pathinfo" (by decide +kernel),
    other "trusted.glusterfs.lockinfo" (by decide +kernel),
    other "glusterfs.open-fd-count" (by decide +kernel), Bool.false_or]

/-- A lock information key is compared unless it is the name itself or looks like the
key of a time. -/
theorem valueMayDiffer_lockinfo {key : String}
    (h : key.startsWith "trusted.glusterfs.lockinfo" = true) :
    valueMayDiffer key = (key == "trusted.glusterfs.lockinfo" ||
      fnmatchStar "trusted.glusterfs." ".stime" key ||
      fnmatchStar "trusted.glusterfs." ".xtime" key) := by
  have uuid : key.startsWith "trusted.glusterfs.node-uuid" = false :=
    not_startsWith_of_startsWith h (by decide +kernel) (by decide +kernel)
  have other : ∀ name : String, name.startsWith "trusted.glusterfs.lockinfo" = false →
      (key == name) = false := fun name => beq_eq_false_of_startsWith h
  simp only [valueMayDiffer, uuid, Bool.or_false, other "glusterfs.content" (by decide +kernel),
    other "trusted.glusterfs.pathinfo" (by decide +kernel),
    other "glusterfs.pathinfo" (by decide +kernel), other "glusterfs.clrlk" (by decide +kernel),
    other "glusterfs.open-fd-count" (by decide +kernel), Bool.false_or]

/-- **Which merged keys are compared**: the values of a key with a rule of its own may
differ unless the key is one of the `unreconciled` ones. -/
theorem compared_of_merged {key : String} (h : (mergeRule key).isSome = true) :
    valueMayDiffer key = !unreconciled key := by
  unfold mergeRule at h
  split_ifs at h with hpathinfo hclrlk hlockinfo hcount huuid hstime hxtime
  · rw [Bool.or_eq_true, beq_iff_eq, beq_iff_eq] at hpathinfo
    rcases hpathinfo with rfl | rfl <;> decide +kernel
  · have lockinfo : key.startsWith "trusted.glusterfs.lockinfo" = false :=
      not_startsWith_of_startsWith hclrlk (by decide +kernel) (by decide +kernel)
    rw [valueMayDiffer_clrlk hclrlk]
    simp [unreconciled, hclrlk, lockinfo, bne]
  · rw [valueMayDiffer_lockinfo hlockinfo]
    simp [unreconciled, hclrlk, hlockinfo, Bool.or_assoc, bne]
  · obtain rfl := beq_iff_eq.mp hcount
    decide +kernel
  · simp [unreconciled, valueMayDiffer, hclrlk, hlockinfo, huuid]
  · simp [unreconciled, valueMayDiffer, hclrlk, hlockinfo, hstime]
  · simp [unreconciled, valueMayDiffer, hclrlk, hlockinfo, hxtime]
  · cases h

/-! ## What the comparison compares -/

theorem mem_keys_iff {d : Dict} {key : String} :
    key ∈ d.map Prod.fst ↔ ∃ value, dictGet d key = some value := by
  constructor
  · intro hkey
    cases hget : dictGet d key with
    | some value => exact ⟨value, rfl⟩
    | none =>
        obtain ⟨⟨key', value⟩, hmem, heq⟩ := List.mem_map.mp hkey
        obtain rfl : key' = key := heq
        have := List.lookup_eq_none_iff.mp hget _ hmem
        simp at this
  · rintro ⟨value, hvalue⟩
    exact List.mem_map_of_mem (f := Prod.fst) (mem_of_dictGet hvalue)

/-- The keys of compatible dictionaries, seen from the second. -/
theorem keys_subset_of_ecDictCompare {d1 d2 : Option Dict} (h : ecDictCompare d1 d2 = true) :
    (d2.getD []).map Prod.fst ⊆ (d1.getD []).map Prod.fst := by
  intro key hkey
  obtain ⟨pair, hpair, rfl⟩ := List.mem_map.mp hkey
  obtain ⟨value, hvalue, -⟩ := ecDictDataCompare_iff.mp ((ecDictCompare_iff.mp h).1 pair hpair)
  exact mem_keys_iff.mpr ⟨value, hvalue⟩

/-- The same keys, and the same values where they may not differ. -/
def SameDict (d1 d2 : Option Dict) : Prop :=
  (∀ key, key ∈ (d1.getD []).map Prod.fst ↔ key ∈ (d2.getD []).map Prod.fst) ∧
    ∀ key, valueMayDiffer key = false → dictGet (d1.getD []) key = dictGet (d2.getD []) key

/-- **What `ec_dict_compare` decides**, for dictionaries without repeated keys. -/
theorem ecDictCompare_iff_same {d1 d2 : Option Dict} (h1 : UniqueKeys d1) (h2 : UniqueKeys d2) :
    ecDictCompare d1 d2 = true ↔ SameDict d1 d2 := by
  constructor
  · intro h
    have keys : ∀ key, key ∈ (d1.getD []).map Prod.fst ↔ key ∈ (d2.getD []).map Prod.fst :=
      fun key => ⟨fun hkey => keys_subset_of_ecDictCompare (ecDictCompare_symm h1 h2 h) hkey,
        fun hkey => keys_subset_of_ecDictCompare h hkey⟩
    refine ⟨keys, fun key hcompared => ?_⟩
    cases hget : dictGet (d2.getD []) key with
    | none =>
        cases hget' : dictGet (d1.getD []) key with
        | none => rfl
        | some value =>
            obtain ⟨value', hvalue'⟩ :=
              mem_keys_iff.mp ((keys key).mp (mem_keys_iff.mpr ⟨value, hget'⟩))
            rw [hget] at hvalue'
            cases hvalue'
    | some value =>
        obtain ⟨value', hvalue', hsame⟩ := ecDictDataCompare_iff.mp
          ((ecDictCompare_iff.mp h).1 (key, value) (mem_of_dictGet hget))
        rcases hsame with hdiffer | rfl
        · rw [hcompared] at hdiffer
          cases hdiffer
        · exact hvalue'
  · rintro ⟨keys, values⟩
    have perm : ((d1.getD []).map Prod.fst).Perm ((d2.getD []).map Prod.fst) :=
      (List.perm_ext_iff_of_nodup h1 h2).mpr keys
    refine ecDictCompare_iff.mpr ⟨fun pair hpair => ecDictDataCompare_iff.mpr ?_, ?_⟩
    · have hvalue := dictGet_of_mem h2 (show (pair.1, pair.2) ∈ d2.getD [] from hpair)
      obtain ⟨value, hget⟩ :=
        mem_keys_iff.mp ((keys pair.1).mpr (mem_keys_iff.mpr ⟨_, hvalue⟩))
      refine ⟨value, hget, ?_⟩
      cases hdiffer : valueMayDiffer pair.1 with
      | true => exact Or.inl rfl
      | false =>
          refine Or.inr (Option.some.inj ?_)
          rw [← hget, ← hvalue]
          exact values pair.1 hdiffer
    · simpa using perm.length_eq

/-! ## The merge finds every key -/

/-- `ec_dict_list` succeeds when `count` is the number of the answers and all of them
have the key. -/
theorem dictListFrom_ok {max : ℕ} {key : String} {i : ℕ} {dicts : List (Option Dict)}
    (hmax : i + dicts.length ≤ max)
    (hkey : ∀ d ∈ dicts, key ∈ (d.getD []).map Prod.fst) :
    ∃ data, dictListFrom max key i dicts = .ok data ∧ data.length = dicts.length := by
  induction dicts generalizing i with
  | nil => exact ⟨[], rfl, rfl⟩
  | cons d dicts ih =>
      rw [List.length_cons] at hmax
      obtain ⟨value, hvalue⟩ := mem_keys_iff.mp (hkey d List.mem_cons_self)
      obtain ⟨data, hdata, hlength⟩ :=
        ih (i := i + 1) (by omega) fun d' hd' => hkey d' (List.mem_cons_of_mem _ hd')
      refine ⟨value :: data, ?_, by rw [List.length_cons, List.length_cons, hlength]⟩
      rw [dictListFrom, if_neg (by omega), hvalue]
      simp only [hdata]
      rfl

theorem keys_dictSet (d : Dict) (key : String) (value : List UInt8) :
    (dictSet d key value).map Prod.fst = d.map Prod.fst := by
  rw [dictSet, List.map_map]
  refine List.map_congr_left fun pair _ => ?_
  rw [Function.comp_apply]
  split_ifs with h
  · exact h.symm
  · rfl

theorem minAnswer_mem (cbk : ℕ × Option Dict) (next : List (ℕ × Option Dict)) :
    minAnswer cbk next ∈ cbk :: next := by
  induction next generalizing cbk with
  | nil => exact List.mem_singleton_self _
  | cons ans next ih =>
      have hmem := ih (if ans.1 < cbk.1 then ans else cbk)
      rw [minAnswer, List.foldl_cons]
      split_ifs at hmem ⊢
      · exact List.mem_cons_of_mem _ hmem
      · rcases List.mem_cons.mp hmem with heq | hmem
        · exact List.mem_cons.mpr (Or.inl heq)
        · exact List.mem_cons_of_mem _ (List.mem_cons_of_mem _ hmem)

/-- All answers have every key of `keys`. -/
def Found (keys : List String) (dicts : List (Option Dict)) : Prop :=
  ∀ d ∈ dicts, ∀ key ∈ keys, key ∈ (d.getD []).map Prod.fst

/-- A merge that goes through and keeps the keys, or stops at values that the rule
cannot merge. -/
def Merges (keys : List String) (result : Except CombineError Dict) : Prop :=
  (∃ dict, result = .ok dict ∧ dict.map Prod.fst = keys) ∨ result = .error .value

variable (merge : MergeRule → List (List UInt8) → Option (List UInt8)) {count idx : ℕ}
  {next : List (ℕ × Option Dict)} {dict : Dict}

theorem ecDictDataUuid_merges {key : String}
    (hkey : Found [key] (some dict :: next.map Prod.snd)) :
    Merges (dict.map Prod.fst) (ecDictDataUuid idx next dict key) := by
  have hmem := List.mem_map_of_mem (f := Prod.snd) (minAnswer_mem (idx, some dict) next)
  obtain ⟨value, hvalue⟩ := mem_keys_iff.mp (hkey _ hmem key List.mem_cons_self)
  by_cases hmin : (minAnswer (idx, some dict) next).1 = idx
  · exact Or.inl ⟨dict, by simp [ecDictDataUuid, hmin], rfl⟩
  · exact Or.inl ⟨dictSet dict key value, by simp [ecDictDataUuid, hmin, hvalue],
      keys_dictSet _ _ _⟩

theorem ecDictDataValues_merges (hcount : count = next.length + 1) {key : String}
    (hkey : Found [key] (some dict :: next.map Prod.snd)) (rule : MergeRule) :
    Merges (dict.map Prod.fst) (ecDictDataValues merge rule count next dict key) := by
  have hlength : 0 + (some dict :: next.map Prod.snd).length ≤ count := by
    rw [List.length_cons, List.length_map]
    omega
  obtain ⟨data, hdata, -⟩ :=
    dictListFrom_ok hlength fun d hd => hkey d hd key List.mem_cons_self
  rw [ecDictDataValues, ecDictList, hdata]
  cases hmerge : merge rule data with
  | none => exact Or.inr (by simp [hmerge])
  | some value => exact Or.inl ⟨_, by simp [hmerge], keys_dictSet dict key value⟩

theorem ecDictDataCombine_merges (hcount : count = next.length + 1) {key : String}
    (hkey : Found [key] (some dict :: next.map Prod.snd)) :
    Merges (dict.map Prod.fst) (ecDictDataCombine merge count idx next dict key) := by
  unfold ecDictDataCombine
  cases mergeRule key with
  | none => exact Or.inl ⟨dict, rfl, rfl⟩
  | some rule =>
      cases rule with
      | nodeUuid => exact ecDictDataUuid_merges hkey
      | _ => exact ecDictDataValues_merges merge hcount hkey _

/-- The loop over the keys.  What is merged keeps the keys of the newest dictionary, so
the later keys are still found in it. -/
theorem foldlM_merges (hcount : count = next.length + 1) {keys : List String}
    (hkeys : Found keys (some dict :: next.map Prod.snd)) :
    Merges (dict.map Prod.fst) (keys.foldlM (ecDictDataCombine merge count idx next) dict) := by
  induction keys generalizing dict with
  | nil => exact Or.inl ⟨dict, rfl, rfl⟩
  | cons key keys ih =>
      rw [List.foldlM_cons]
      have head : Found [key] (some dict :: next.map Prod.snd) := fun d hd key' hkey' =>
        hkeys d hd key' (List.mem_singleton.mp hkey' ▸ List.mem_cons_self)
      have step : Merges (dict.map Prod.fst) (ecDictDataCombine merge count idx next dict key) :=
        ecDictDataCombine_merges merge hcount head
      rcases step with ⟨dict', hdict', hsame⟩ | herror
      · rw [hdict', ← hsame]
        refine ih fun d hd key' hkey' => ?_
        rcases List.mem_cons.mp hd with rfl | hd
        · have := hkeys (some dict) List.mem_cons_self key' (List.mem_cons_of_mem _ hkey')
          rwa [Option.getD_some, ← hsame] at this
        · exact hkeys d (List.mem_cons_of_mem _ hd) key' (List.mem_cons_of_mem _ hkey')
      · rw [herror]
        exact Or.inr rfl

/-- **The merge of a dictionary finds every key**: when every other answer has the keys
of the newest one, `ec_dict_combine` goes through unless values cannot be merged. -/
theorem ecDictCombine_found (hcount : count = next.length + 1) {newest : Option Dict}
    (hkeys : Found ((newest.getD []).map Prod.fst) (next.map Prod.snd)) :
    (∃ dict, ecDictCombine merge count idx next newest = .ok dict) ∨
      ecDictCombine merge count idx next newest = .error .value := by
  cases newest with
  | none => exact Or.inl ⟨none, rfl⟩
  | some dict =>
      have found : Found (dict.map Prod.fst) (some dict :: next.map Prod.snd) := by
        intro d hd key hkey
        rcases List.mem_cons.mp hd with rfl | hd
        · exact hkey
        · exact hkeys d hd key hkey
      have run : Merges (dict.map Prod.fst)
          ((dict.map Prod.fst).foldlM (ecDictDataCombine merge count idx next) dict) :=
        foldlM_merges merge hcount found
      rw [ecDictCombine]
      rcases run with ⟨dict', hdict', -⟩ | herror
      · exact Or.inl ⟨some dict', by simp [hdict', Except.map]⟩
      · exact Or.inr (by simp [herror, Except.map])

/-! ## Groups of answers -/

/-- The dictionaries that a request merges: the extra one always, the other one where
the callback compares it and the request succeeded. -/
def MergedWhich (combine : CombineFn) (a : Answer) : Which → Prop
  | .xdata => True
  | .dict => combine = some combineDict ∧ 0 ≤ a.opRet

theorem Answer.UniqueKeys.which {a : Answer} (h : a.UniqueKeys) (which : Which) :
    Ec.UniqueKeys (a.which which) := by
  cases which with
  | xdata => exact h.xdata
  | dict => exact h.dict

/-- Compatible answers have compatible dictionaries, those of the ones that are merged. -/
theorem ecDictCompare_of_check {combine : CombineFn} {x y : Answer} {which : Which}
    (hmerged : MergedWhich combine x which) (h : ecCombineCheck x y combine = true) :
    ecDictCompare (x.which which) (y.which which) = true := by
  obtain ⟨-, -, xdata, callback⟩ := ecCombineCheck_iff.mp h
  cases which with
  | xdata => exact xdata
  | dict => exact callback combineDict hmerged.1 hmerged.2

variable {r : Request} {mask : Finset ℕ} {minimum : ℤ} {first stale : ℕ} {s : Fop}

/-- The older answers of a group have the dictionary of the newest one. -/
theorem Group.Ok.same {combine : CombineFn} {g : Group} (hg : g.Ok combine)
    (hunique : ∀ x ∈ g.chain, x.2.UniqueKeys) {which : Which}
    (hmerged : MergedWhich combine g.newest.2 which) :
    ∀ x ∈ g.chain, SameDict (g.newest.2.which which) (x.2.which which) := by
  intro x hx
  rcases List.mem_cons.mp hx with rfl | hnext
  · exact ⟨fun _ => Iff.rfl, fun _ _ => rfl⟩
  · exact (ecDictCompare_iff_same ((hunique _ List.mem_cons_self).which _)
      ((hunique x hx).which _)).mp
        (ecDictCompare_of_check hmerged (List.rel_of_pairwise_cons hg.compatible hnext))

/-- **Comparison and merge.**  A key with a rule of its own is one whose values may
differ, except for the `unreconciled` keys.  Between dictionaries without repeated
keys the comparison is symmetric and transitive and decides whether the keys are the
same and the compared values equal.  In every state that a dispatch reaches, the
answers of a group have the same dictionary up to the values that may differ, and
the merge of a group fails neither for a missing entry nor for their number. -/
theorem dicts_reconciled (hcombine : r.combine ∈ combineCallbacks)
    (hmask : ∀ b ∈ mask, b < r.nodes)
    (hs : (engine r mask minimum first stale).Reachable s) {g : Group} (hg : g ∈ s.cbkList)
    (hunique : ∀ x ∈ g.chain, x.2.UniqueKeys) {which : Which}
    (hmerged : MergedWhich r.combine g.newest.2 which) :
    (∀ key, (mergeRule key).isSome = true → valueMayDiffer key = !unreconciled key) ∧
    (∀ d1 d2 d3 : Option Dict, UniqueKeys d1 → UniqueKeys d2 → UniqueKeys d3 →
      ecDictCompare d1 d2 = ecDictCompare d2 d1 ∧
      (ecDictCompare d1 d2 = true → ecDictCompare d2 d3 = true → ecDictCompare d1 d3 = true) ∧
      (ecDictCompare d1 d2 = true ↔ SameDict d1 d2)) ∧
    (∀ x ∈ g.chain, SameDict (g.newest.2.which which) (x.2.which which)) ∧
    ((∃ dict, g.dictCombine merge which = .ok dict) ∨
      g.dictCombine merge which = .error .value) := by
  have ok := (reachable_sound hcombine hmask hs).grouped.ok g hg
  have same := ok.same hunique hmerged
  refine ⟨fun key => compared_of_merged, fun d1 d2 d3 h1 h2 _ => ⟨?_, ecDictCompare_trans,
    ecDictCompare_iff_same h1 h2⟩, same, ecDictCombine_found merge ?_ ?_⟩
  · rw [Bool.eq_iff_iff]
    exact ⟨ecDictCompare_symm h1 h2, ecDictCompare_symm h2 h1⟩
  · rw [ok.count_chain, Group.chain, List.length_cons, List.length_map]
  · intro d hd key hkey
    rw [List.map_map] at hd
    obtain ⟨x, hx, rfl⟩ := List.mem_map.mp hd
    exact ((same x (List.mem_cons_of_mem _ hx)).1 key).mp hkey

/-- An answer with the path of the file on one brick. -/
def pathAnswer (path : UInt8) : Answer :=
  { plainAnswer 0 0 with xdata := some [("glusterfs.pathinfo", [path])] }

/-- Two bricks that give their own path for the same file. -/
theorem dicts_reconciled_pathinfo :
    ∃ s, (engine ⟨2, 1, .all, none, false⟩ {0, 1} 1 0 0).Reachable s ∧
      ∃ g ∈ s.cbkList, g.chain.map Prod.fst = [1, 0] ∧
        SameDict (g.newest.2.which .xdata) (pathAnswer 97).xdata ∧
        ecDictCompare (g.newest.2.which .xdata) (pathAnswer 97).xdata = true ∧
        g.dictCombine (fun _ data => some data.flatten) .xdata =
          .ok (some [("glusterfs.pathinfo", [98, 97])]) := by
  have start : (engine ⟨2, 1, .all, none, false⟩ {0, 1} 1 0 0).Reachable
      (ecDispatchMask {0, 1} (dispatchStart {0, 1} 1 0 2 0)) := .start rfl
  have run := start.exec [.reply 0 (pathAnswer 97), .reply 1 (pathAnswer 98)] rfl
  refine ⟨_, run, ⟨2, {1} ∪ {0}, (1, pathAnswer 98), [(0, pathAnswer 97)]⟩,
    List.mem_cons_self, rfl, ?_, rfl, rfl⟩
  have unique : ∀ path, (pathAnswer path).UniqueKeys := fun path =>
    ⟨List.nodup_singleton _, List.nodup_nil⟩
  have hwhich : MergedWhich none (pathAnswer 98) .xdata := trivial
  refine (dicts_reconciled (fun _ data => some data.flatten) (by simp [combineCallbacks])
    (by decide) run List.mem_cons_self ?_ hwhich).2.2.1 (0, pathAnswer 97)
      (List.mem_cons_of_mem _ List.mem_cons_self)
  intro x hx
  rcases List.mem_cons.mp hx with rfl | hx
  · exact unique 98
  · rw [List.mem_singleton.mp hx]
    exact unique 97

/-- **A clear-locks answer is merged and compared**: two bricks that cleared a
different number of locks for the same command are not compatible, although the
merge is there to put their answers together. -/
theorem clrlk_compared :
    mergeRule "glusterfs.clrlk.tall.kgranted" = some .clrlk ∧
      valueMayDiffer "glusterfs.clrlk.tall.kgranted" = false ∧
      ecDictCompare (some [("glusterfs.clrlk.tall.kgranted", [49])])
        (some [("glusterfs.clrlk.tall.kgranted", [50])]) = false := by
  decide +kernel

end GlusterFS.Ec
