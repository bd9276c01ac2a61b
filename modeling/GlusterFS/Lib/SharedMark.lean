import Mathlib

/-!
# Marks that are set by one holder and borrowed by others

A holder that is about to do something sets a mark, and clears it when it is through.  To
save the two updates, a holder that has set its mark may let others borrow it: the mark is
*counted*, and a holder that comes while the count is positive sets no mark of its own but
counts as *lent*.  Whoever is through first gives back a lent one; a mark is cleared only
when nothing is lent any more, by whoever is through then.

An `Account` keeps the books: how many holders there are of each kind (`Share`), the two
counters, the marks that are set, and those that are never cleared any more (`kept`).
`Account.Step` are the entries of the books.  Two of them come from disorder:  a holder whose
mark was never counted may give back a lent or a counted one, so that the counters can be
empty while others still hold; these then clear their own mark (`late`), and who had
borrowed one leaves it behind (`forget`).

`Account.Ok` is kept by every entry (`Account.Ok.step`).  So there is a mark as long as there
is a holder (`Account.Ok.marks_pos`), and what is kept is there (`Account.Ok.kept_le_marks`).

Without the disorder the counters follow the holders exactly.  `Account.Step.balance` says so
for the books of one holder, which are enough to tell what an entry for it does.
-/

namespace SharedMark

/-- What a holder has. -/
inductive Share
  /-- A mark of its own, of which it is not settled whether it is counted. -/
  | fresh
  /-- A mark of its own, counted or not. -/
  | settled
  /-- A mark of its own that only it will clear. -/
  | isolated
  /-- A borrowed mark. -/
  | borrower
  /-- It is going to clear a mark. -/
  | due
  deriving DecidableEq, Repr

/-- The books of one kind of mark. -/
structure Account where
  held : Share → ℕ
  counted : ℕ
  lent : ℕ
  kept : ℕ
  marks : ℤ

/-- One holder changes its share. -/
def Moves (source target : Option Share) (before after : Share → ℕ) : Prop :=
  ∀ x, after x + (if source = some x then 1 else 0) = before x + if target = some x then 1 else 0

theorem Moves.eq {c : Option Share} {before after : Share → ℕ} (h : Moves c c before after) :
    after = before :=
  funext fun x => Nat.add_right_cancel (h x)

namespace Account

/-- The entries. -/
inductive Step (a : Account) : Account → Prop
  | set {held : Share → ℕ} : Moves none (some .fresh) a.held held →
      Step a { a with held := held, marks := a.marks + 1 }
  | borrow {held : Share → ℕ} : 0 < a.counted → Moves none (some .borrower) a.held held →
      Step a { a with held := held, lent := a.lent + 1 }
  | register {held : Share → ℕ} : Moves (some .fresh) (some .settled) a.held held →
      Step a { a with held := held, counted := a.counted + 1 }
  | pass {held : Share → ℕ} : Moves (some .fresh) (some .settled) a.held held →
      Step a { a with held := held }
  | isolate {held : Share → ℕ} : Moves (some .fresh) (some .isolated) a.held held →
      Step a { a with held := held }
  | repay {held : Share → ℕ} {c : Share} : c = .settled ∨ c = .borrower → 0 < a.lent →
      Moves (some c) none a.held held → Step a { a with held := held, lent := a.lent - 1 }
  | withdraw {held : Share → ℕ} {c : Share} : c = .settled ∨ c = .borrower → a.lent = 0 →
      0 < a.counted → Moves (some c) (some .due) a.held held →
      Step a { a with held := held, counted := a.counted - 1 }
  | late {held : Share → ℕ} : a.counted = 0 → Moves (some .settled) (some .due) a.held held →
      Step a { a with held := held }
  | forget {held : Share → ℕ} : a.counted = 0 → Moves (some .borrower) none a.held held →
      Step a { a with held := held, kept := a.kept + 1 }
  | own {held : Share → ℕ} : Moves (some .isolated) (some .due) a.held held →
      Step a { a with held := held }
  | clear {held : Share → ℕ} : Moves (some .due) none a.held held →
      Step a { a with held := held, marks := a.marks - 1 }
  | keep {held : Share → ℕ} : Moves (some .due) none a.held held →
      Step a { a with held := held, kept := a.kept + 1 }

/-- The books are in order. -/
structure Ok (a : Account) : Prop where
  balance : a.marks + a.lent = a.held .fresh + a.held .settled + a.held .isolated +
    a.held .borrower + a.held .due + a.kept
  covered : a.counted + a.lent ≤ a.held .settled + a.held .borrower
  counted_pos : 0 < a.lent → 0 < a.counted

/-- **Every entry keeps the books in order.** -/
theorem Ok.step {a b : Account} (h : a.Ok) (hstep : a.Step b) : b.Ok := by
  obtain ⟨hbalance, hcovered, hpos⟩ := h
  cases hstep with
  | set hm | borrow _ hm | register hm | pass hm | isolate hm | late _ hm | forget _ hm
  | own hm | clear hm | keep hm =>
      have hfresh := hm .fresh
      have hsettled := hm .settled
      have hisolated := hm .isolated
      have hborrower := hm .borrower
      have hdue := hm .due
      simp only [Option.some.injEq, reduceCtorEq, if_true, if_false] at *
      refine ⟨?_, ?_, ?_⟩ <;> simp only <;> omega
  | repay hc _ hm | withdraw hc _ _ hm =>
      have hfresh := hm .fresh
      have hsettled := hm .settled
      have hisolated := hm .isolated
      have hborrower := hm .borrower
      have hdue := hm .due
      rcases hc with rfl | rfl
      all_goals
        simp only [Option.some.injEq, reduceCtorEq, if_true, if_false] at *
        refine ⟨?_, ?_, ?_⟩ <;> simp only <;> omega

/-- **There is a mark as long as there is a holder.** -/
theorem Ok.marks_pos {a : Account} (h : a.Ok) {c : Share} (hc : 0 < a.held c) : 0 < a.marks := by
  obtain ⟨hbalance, hcovered, hpos⟩ := h
  cases c <;> omega

theorem Ok.kept_le_marks {a : Account} (h : a.Ok) : (a.kept : ℤ) ≤ a.marks := by
  obtain ⟨hbalance, hcovered, _⟩ := h
  omega

/-- What is kept stays. -/
theorem Step.kept_le {a b : Account} (hstep : a.Step b) : a.kept ≤ b.kept := by
  cases hstep <;> simp

end Account

/-! ## The books of one holder -/

/-- One holder with a given share. -/
def single (c : Option Share) (x : Share) : ℕ := if c = some x then 1 else 0

theorem moves_single (c d : Option Share) : Moves c d (single c) (single d) :=
  fun _ => Nat.add_comm _ _

theorem single_injective {c d : Option Share} (h : single c = single d) : c = d := by
  ext x
  have hx := congrFun h x
  unfold single at hx
  split at hx <;> split at hx <;> simp_all

theorem single_eq_one {c : Option Share} {x : Share} (h : 0 < single c x) : c = some x := by
  by_contra hne
  simp [single, hne] at h

/-- A change of the books of one holder says what its share was and is. -/
theorem Moves.single_inj {a b c d : Option Share} {before after : Share → ℕ}
    (h : Moves a b before after) (hbefore : before = single c) (hafter : after = single d)
    (hab : a ≠ b) : c = a ∧ d = b := by
  subst hbefore hafter
  have hmoves : ∀ x, single d x + single a x = single c x + single b x := h
  have hc : c = a := by
    by_contra hne
    cases c with
    | none =>
        obtain ⟨x, rfl⟩ := Option.ne_none_iff_exists'.mp fun ha => hne ha.symm
        have hx := hmoves x
        exact hab (single_eq_one (c := b) (by simp [single] at hx ⊢; omega)).symm
    | some x =>
        have hx := hmoves x
        have hd : d = some x := single_eq_one (by simp [single, Ne.symm hne] at hx ⊢; omega)
        subst hd
        exact hab (single_injective (funext fun y => Nat.add_left_cancel (hmoves y)))
  subst hc
  refine ⟨rfl, single_injective (funext fun x => ?_)⟩
  have hx := hmoves x
  omega

/-- A holder of a counted mark or of a borrowed one. -/
def Sharing (c : Option Share) : Prop := c = some .settled ∨ c = some .borrower

instance (c : Option Share) : Decidable (Sharing c) :=
  inferInstanceAs (Decidable (c = some .settled ∨ c = some .borrower))

/-- **An entry for one holder moves the counters along with its share**, when its mark is
counted; only a mark that is kept is lost. -/
theorem Account.Step.balance {a b : Account} (hstep : a.Step b) {c d : Option Share}
    (hc : a.held = single c) (hd : b.held = single d) (hcounted : Sharing c → 0 < a.counted)
    (hpass : c = some .fresh → d = some .settled → b.counted ≠ a.counted) :
    b.counted + b.lent + (if Sharing c then 1 else 0) =
        a.counted + a.lent + (if Sharing d then 1 else 0) ∧
      b.marks + b.lent + (if c.isSome then 1 else 0) =
        a.marks + a.lent + (if d.isSome then 1 else 0) +
          (if c = some .due ∧ d = none ∧ b.marks = a.marks then 1 else 0) := by
  cases hstep with
  | set hm | borrow _ hm | register hm | isolate hm | own hm | clear hm =>
      obtain ⟨rfl, rfl⟩ := hm.single_inj hc hd (by simp)
      constructor <;> simp [Sharing] <;> omega
  | pass hm =>
      obtain ⟨rfl, rfl⟩ := hm.single_inj hc hd (by simp)
      exact absurd rfl (hpass rfl rfl)
  | late hzero hm =>
      obtain ⟨rfl, rfl⟩ := hm.single_inj hc hd (by simp)
      exact absurd hzero (hcounted (.inl rfl)).ne'
  | forget hzero hm =>
      obtain ⟨rfl, rfl⟩ := hm.single_inj hc hd (by simp)
      exact absurd hzero (hcounted (.inr rfl)).ne'
  | keep hm =>
      obtain ⟨rfl, rfl⟩ := hm.single_inj hc hd (by simp)
      simp [Sharing]
  | repay hshare _ hm =>
      obtain ⟨rfl, rfl⟩ := hm.single_inj hc hd (by simp)
      rcases hshare with rfl | rfl <;> simp [Sharing] <;> omega
  | withdraw hshare _ _ hm =>
      rcases hshare with rfl | rfl
      all_goals
        obtain ⟨rfl, rfl⟩ := hm.single_inj hc hd (by simp)
        simp [Sharing]
        omega

end SharedMark
