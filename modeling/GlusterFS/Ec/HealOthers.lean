import Mathlib
import GlusterFS.Ec.Answer
import GlusterFS.Lib.CellRing

/-!
# The groups of answers that a heal acts on

A heal looks its file up and finds the answers of the bricks in `lookup->cbk_list`, one cell for
every group of equal answers, the chosen one first.  Four loops act on the other groups: they
remove what a name that is gone has left (`ec_heal_remove_others`), create what is missing
(`ec_heal_prepare_others`), open the targets (`ec_heal_open_others`) and remove the attributes that
the chosen answer does not have (`ec_heal_removexattr_others`).

Each is its body (`removeOther`, `prepareOther`, `openOther`, `removexattrOther`) in a loop over
the ring, so what it does is a fold over the cells it visits.  Three loops test before they move
and visit the other groups.  `ec_heal_remove_others` moves first: with one group only, it acts on
the list head, as if it were a group, and then on the chosen answer.
-/

namespace GlusterFS.Ec

open CellRing

/-- `ENOENT`. -/
def eNoEnt : ℕ := 2

/-- The fields of `ec_cbk_data_t` that the loops use.  Of `xdata` only the keys matter. -/
structure HealCbk where
  opRet : ℤ
  opErrno : ℕ
  mask : Finset ℕ
  iaType : IaType
  iaGfid : ℕ
  xdata : Option (List String)
  deriving DecidableEq

/-- The requests that the loops wind. -/
inductive HealCall
  | rmdir (mask : Finset ℕ)
  | unlink (mask : Finset ℕ)
  | link (mask : Finset ℕ)
  | mkdir (mask : Finset ℕ)
  | symlink (mask : Finset ℕ)
  | create (mask : Finset ℕ)
  | mknod (mask : Finset ℕ)
  | openFd (mask : Finset ℕ)
  | removexattr (mask : Finset ℕ) (keys : List String)
  deriving DecidableEq

/-- The fields of `ec_heal_t` that the loops use, the cells of the list and the requests wound so
far.  `cbk` at the list head is what `list_entry` makes of the memory around it. -/
structure OthersHeal (α : Type) where
  iaType : IaType
  iaGfid : ℕ
  good : Finset ℕ
  bad : Finset ℕ
  opened : Finset ℕ
  cbk : α → HealCbk
  calls : List HealCall

namespace OthersHeal

variable {α : Type}

/-- Wind a request. -/
def wind (heal : OthersHeal α) (call : HealCall) : OthersHeal α :=
  { heal with calls := heal.calls ++ [call] }

/-- `ec_heal_exclude`. -/
def ecHealExclude (heal : OthersHeal α) (mask : Finset ℕ) : OthersHeal α :=
  { heal with bad := heal.bad \ mask }

/-- `ec_heal_remove`. -/
def ecHealRemove (heal : OthersHeal α) (cbk : HealCbk) : OthersHeal α :=
  if cbk.iaType = .dir then heal.wind (.rmdir cbk.mask) else heal.wind (.unlink cbk.mask)

/-- `ec_heal_create`; `alloc` is whether the dictionary of the request can be made. -/
def ecHealCreate (alloc : Bool) (heal : OthersHeal α) (mask : Finset ℕ) (tryLink : Bool) :
    OthersHeal α :=
  if alloc = false then heal
  else if heal.iaType = .reg ∧ tryLink = true then heal.wind (.link mask)
  else
    match heal.iaType with
    | .dir => heal.wind (.mkdir mask)
    | .lnk => heal.wind (.symlink mask)
    | .reg => heal.wind (.create mask)
    | _ => heal.wind (.mknod mask)

/-- `dict_foreach` with `ec_heal_xattr_clean`: whether it went through, and the keys it leaves.
A key of the chosen answer is deleted, any other is set to nothing, which may fail. -/
def dictForeachClean (alloc : Bool) (base : Option (List String)) : List String → Bool × List String
  | [] => (true, [])
  | key :: rest =>
      if key ∈ base.getD [] then dictForeachClean alloc base rest
      else if alloc = true then
        let (done, keys) := dictForeachClean alloc base rest
        (done, key :: keys)
      else (false, key :: rest)

variable [DecidableEq α]

/-! ## The bodies -/

/-- One round of `ec_heal_remove_others`. -/
def removeOther (heal : OthersHeal α) (item : α) : OthersHeal α :=
  let cbk := heal.cbk item
  if cbk.opRet < 0 then heal.ecHealExclude cbk.mask else heal.ecHealRemove cbk

/-- One round of `ec_heal_prepare_others`. -/
def prepareOther (alloc : α → Bool) (heal : OthersHeal α) (item : α) : OthersHeal α :=
  let cbk := heal.cbk item
  if cbk.opRet < 0 then
    if cbk.opErrno = eNoEnt then heal.ecHealCreate (alloc item) cbk.mask true
    else heal.ecHealExclude cbk.mask
  else if heal.iaType ≠ cbk.iaType ∨ heal.iaGfid ≠ cbk.iaGfid then heal.ecHealRemove cbk
  else heal

/-- One round of `ec_heal_open_others`, with the mask that it gathers. -/
def openOther (p : OthersHeal α × Finset ℕ) (item : α) : OthersHeal α × Finset ℕ :=
  let (heal, mask) := p
  let cbk := heal.cbk item
  if cbk.opRet < 0 ∨ cbk.iaType ≠ .reg ∨ heal.iaGfid ≠ cbk.iaGfid then
    (heal.ecHealExclude cbk.mask, mask)
  else (heal, mask ∪ (cbk.mask \ heal.opened))

/-- One round of `ec_heal_removexattr_others`, with the attributes of the chosen answer. -/
def removexattrOther (alloc : α → Bool) (base : Option (List String)) (heal : OthersHeal α)
    (item : α) : OthersHeal α :=
  let cbk := heal.cbk item
  if cbk.opRet ≥ 0 then
    match cbk.xdata with
    | none => heal
    | some xdata =>
        let (done, keys) := dictForeachClean (alloc item) base xdata
        let heal := { heal with cbk := Function.update heal.cbk item { cbk with xdata := some keys } }
        if done = true then heal.wind (.removexattr cbk.mask keys) else heal
  else heal

/-! ## The loops -/

section Loops

variable (next : α → α) (head : α) (alloc : α → Bool)

/-- `ec_heal_remove_others`. -/
def ecHealRemoveOthers (fuel : ℕ) (heal : OthersHeal α) : Option (OthersHeal α) :=
  walkDo next head removeOther fuel (next head) heal

/-- `ec_heal_prepare_others`. -/
def ecHealPrepareOthers (fuel : ℕ) (heal : OthersHeal α) : Option (OthersHeal α) :=
  walk next head (prepareOther alloc) fuel (next head) heal

/-- What `ec_heal_open_others` does behind its loop, and what it returns. -/
def openGathered (opened : Finset ℕ) (p : OthersHeal α × Finset ℕ) : OthersHeal α × Bool :=
  let (heal, mask) := p
  if mask ≠ ∅ then (heal.wind (.openFd mask), decide (opened ∪ mask ≠ ∅))
  else (heal, decide (opened ≠ ∅))

/-- `ec_heal_open_others`. -/
def ecHealOpenOthers (fuel : ℕ) (heal : OthersHeal α) : Option (OthersHeal α × Bool) :=
  (walk next head openOther fuel (next head) (heal, ∅)).map (openGathered heal.opened)

/-- `ec_heal_removexattr_others`; `answer` is the chosen answer. -/
def ecHealRemovexattrOthers (answer : α) (fuel : ℕ) (heal : OthersHeal α) :
    Option (OthersHeal α) :=
  if heal.good = ∅ ∨ heal.bad = ∅ then some heal
  else
    walk next head (removexattrOther alloc (heal.cbk answer).xdata) fuel (next head) heal

end Loops

/-! ## The groups they visit -/

section Visits

variable {next : α → α} {head first : α} {rest : List α}

/-- The loop that moves first, with one group: it visits the head and then the group. -/
theorem ecHealRemoveOthers_single (hring : IsRing next head [first]) (heal : OthersHeal α)
    {fuel : ℕ} (hfuel : 1 < fuel) :
    ecHealRemoveOthers next head fuel heal = some ([head, first].foldl removeOther heal) := by
  obtain ⟨hfirst, hpath⟩ := hring.first
  rw [ecHealRemoveOthers, hfirst]
  exact walkDo_last hpath hring.path hfuel heal

/-- **The four loops act on every group but the first, once each, and on nothing else**, provided
that the first of them finds a second group.  Otherwise it acts on the list head and on the first
group. -/
theorem others_visited (hring : IsRing next head (first :: rest)) (alloc : α → Bool)
    (heal : OthersHeal α) {fuel : ℕ} (hfuel : rest.length < fuel) :
    (head :: first :: rest).Nodup ∧
      (rest ≠ [] → ecHealRemoveOthers next head fuel heal = some (rest.foldl removeOther heal)) ∧
      (rest = [] → 1 < fuel →
        ecHealRemoveOthers next head fuel heal = some ([head, first].foldl removeOther heal)) ∧
      ecHealPrepareOthers next head alloc fuel heal =
        some (rest.foldl (prepareOther alloc) heal) ∧
      ecHealOpenOthers next head fuel heal =
        some (openGathered heal.opened (rest.foldl openOther (heal, ∅))) ∧
      (heal.good ≠ ∅ → heal.bad ≠ ∅ →
        ecHealRemovexattrOthers next head alloc first fuel heal =
          some (rest.foldl (removexattrOther alloc (heal.cbk first).xdata) heal)) := by
  obtain ⟨hfirst, hpath⟩ := hring.first
  refine ⟨hring.nodup, fun hmany => ?_, fun hone hlong => ?_, ?_, ?_, fun hgood hbad => ?_⟩
  · obtain ⟨second, others, rfl⟩ := List.exists_cons_of_ne_nil hmany
    rw [ecHealRemoveOthers, hfirst]
    exact walkDo_path hpath (Nat.lt_of_succ_lt hfuel) heal
  · subst hone
    exact ecHealRemoveOthers_single hring heal hlong
  · rw [ecHealPrepareOthers, hfirst]
    exact walk_path hpath hfuel heal
  · rw [ecHealOpenOthers, hfirst, walk_path hpath hfuel]
    rfl
  · rw [ecHealRemovexattrOthers, hfirst, if_neg (not_or.mpr ⟨hgood, hbad⟩)]
    exact walk_path hpath hfuel heal

end Visits

/-! ## Lists of three cells and of two -/

/-- The memory of a list head, all zero, read as a group. -/
def zeroCbk : HealCbk := ⟨0, 0, ∅, .inval, 0, none⟩

/-- A file that two bricks have and the brick 2 does not. -/
def missingOnOne : OthersHeal (Fin 3) where
  iaType := .reg
  iaGfid := 7
  good := {0, 1}
  bad := {2}
  opened := ∅
  cbk := ![zeroCbk, ⟨0, 0, {0, 1}, .reg, 7, some []⟩, ⟨-1, eNoEnt, {2}, .inval, 0, none⟩]
  calls := []

theorem missingOnOne_ring : IsRing (fun i : Fin 3 => i + 1) 0 [1, 2] :=
  ⟨⟨rfl, by decide, rfl, by decide, rfl⟩, by decide⟩

/-- The missing file is linked on the brick 2, and nothing is sent to the others. -/
theorem others_visited_missingOnOne :
    ∃ heal, ecHealPrepareOthers (fun i : Fin 3 => i + 1) 0 (fun _ => true) 2 missingOnOne =
      some heal ∧ heal.calls = [.link {2}] := by
  have h := others_visited missingOnOne_ring (fun _ => true) missingOnOne (Nat.lt_succ_self 1)
  exact ⟨_, h.2.2.2.1, by decide⟩

/-- A name that is missing on all three bricks: one group. -/
def missingOnAll : OthersHeal (Fin 2) where
  iaType := .inval
  iaGfid := 0
  good := {0, 1, 2}
  bad := ∅
  opened := ∅
  cbk := ![zeroCbk, ⟨-1, eNoEnt, {0, 1, 2}, .inval, 0, none⟩]
  calls := []

/-- All bricks gave the same answer, and `ec_heal_remove_others` takes the list head for a group,
which it removes with an `unlink`, before it comes to the chosen answer. -/
theorem removeOthers_head :
    IsRing (fun i : Fin 2 => i + 1) 0 [1] ∧
      ecHealRemoveOthers (fun i : Fin 2 => i + 1) 0 2 missingOnAll =
        some ([0, 1].foldl removeOther missingOnAll) ∧
      ([0, 1].foldl removeOther missingOnAll).calls = [.unlink ∅] := by
  have hring : IsRing (fun i : Fin 2 => i + 1) 0 [1] := ⟨⟨rfl, by decide, rfl⟩, by decide⟩
  exact ⟨hring, ecHealRemoveOthers_single hring _ (Nat.lt_succ_self 1), by decide⟩

end OthersHeal

end GlusterFS.Ec
