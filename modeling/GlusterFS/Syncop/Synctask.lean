import GlusterFS.Lib.Machine

/-!
# Synctasks

A synctask is a function with a stack of its own, which processors run and which can leave its
processor until somebody wakes it.  This module embeds `__run`, `__wait`, `synctask_yield`,
`synctask_wake`, `synctask_create`, `syncenv_task`, `synctask_switchto` and `synctask_done` of
`syncop.c`.  What is done under `env->mutex` is one action.  What is done without it is an action of
its own: `synctask_yield` sets the state, then leaves the stack, and only then does the processor
take the mutex and put the task on a queue.

A wake may come at any of these moments.  It sets `woken`, and moves the task only if `slept` is
set, which is so from the time the task is put to sleep until it is picked up again.  **While the
task is with a processor `slept` is not set** (`TaskOk`), so a wake leaves the queues and the state
alone and the processor finds `woken`; when the task sleeps, the wake itself puts it on `runq`.
-/

namespace GlusterFS.Syncop

/-! ## Tasks and queues -/

/-- `synctask_state_t`. -/
inductive SynctaskState
  | init
  | run
  | suspend
  | wait
  | done
  | zombie
  deriving DecidableEq, Repr

/-- Where the control of a task is: the task has not been created; it is with no processor; a
processor runs it; it is in `synctask_yield` and has set its state; its processor is back in
`synctask_switchto`; it has ended and waits for `synctask_join`; it has been destroyed. -/
inductive Phase
  | absent
  | idle
  | running
  | yielding
  | returning
  | ended
  | freed
  deriving DecidableEq, Repr

/-- `struct synctask`; `synccbk` says whether there is a callback. -/
structure Synctask where
  state : SynctaskState
  woken : Bool
  slept : Bool
  synccbk : Bool
  phase : Phase
  deriving DecidableEq, Repr

/-- `struct syncenv`. -/
structure Syncenv where
  tasks : ℕ → Synctask
  runq : List ℕ
  waitq : List ℕ
  runcount : ℤ
  waitcount : ℤ

/-- The task gets new fields. -/
def Syncenv.set (env : Syncenv) (t : ℕ) (task : Synctask) : Syncenv :=
  { env with tasks := Function.update env.tasks t task }

/-- `list_del_init (&task->all_tasks)`. -/
def Syncenv.unlink (env : Syncenv) (t : ℕ) : Syncenv :=
  { env with runq := env.runq.erase t, waitq := env.waitq.erase t }

/-- The end of `__run`. -/
def Syncenv.toRunq (env : Syncenv) (t : ℕ) : Syncenv :=
  { env with
    tasks := Function.update env.tasks t { env.tasks t with state := .run }
    runq := env.runq ++ [t]
    runcount := env.runcount + 1 }

/-- The end of `__wait`. -/
def Syncenv.toWaitq (env : Syncenv) (t : ℕ) : Syncenv :=
  { env with
    tasks := Function.update env.tasks t { env.tasks t with state := .wait }
    waitq := env.waitq ++ [t]
    waitcount := env.waitcount + 1 }

/-- The task leaves its queue, and the count of the queue that its state names goes down. -/
def Syncenv.leave (env : Syncenv) (t : ℕ) : Syncenv :=
  match (env.tasks t).state with
  | .run => { env.unlink t with runcount := env.runcount - 1 }
  | .wait => { env.unlink t with waitcount := env.waitcount - 1 }
  | _ => env.unlink t

/-- `__run`. -/
def Syncenv.run (env : Syncenv) (t : ℕ) : Syncenv :=
  match (env.tasks t).state with
  | .done | .zombie => env.leave t
  | _ => (env.leave t).toRunq t

/-- `__wait`. -/
def Syncenv.wait (env : Syncenv) (t : ℕ) : Syncenv :=
  match (env.tasks t).state with
  | .done | .zombie => env.leave t
  | _ => (env.leave t).toWaitq t

/-! ## Actions -/

/-- `synctask_create`, up to its `synctask_wake`. -/
def synctaskCreate (env : Syncenv) (t : ℕ) (synccbk : Bool) : Option Syncenv :=
  if (env.tasks t).phase = .absent then some (env.set t ⟨.init, false, true, synccbk, .idle⟩)
  else none

/-- `synctask_wake`, of a task that exists. -/
def synctaskWake (env : Syncenv) (t : ℕ) : Option Syncenv :=
  if (env.tasks t).phase = .absent ∨ (env.tasks t).phase = .freed then none
  else
    let env' := env.set t { env.tasks t with woken := true }
    some (if (env.tasks t).slept then env'.run t else env')

/-- `syncenv_task`. -/
def syncenvTask (env : Syncenv) : Option Syncenv :=
  match env.runq with
  | [] => none
  | t :: runq =>
    some { env with
      tasks := Function.update env.tasks t
        { env.tasks t with woken := false, slept := false, phase := .running }
      runq
      runcount := env.runcount - 1 }

/-- `task->state = SYNCTASK_DONE` of `synctask_wrap`. -/
def synctaskWrapEnd (env : Syncenv) (t : ℕ) : Option Syncenv :=
  if (env.tasks t).phase = .running then some (env.set t { env.tasks t with state := .done })
  else none

/-- `synctask_yield`, up to `swapcontext`. -/
def synctaskYield (env : Syncenv) (t : ℕ) : Option Syncenv :=
  if (env.tasks t).phase = .running then
    some (env.set t { env.tasks t with
      state := if (env.tasks t).state = .done then .done else .suspend
      phase := .yielding })
  else none

/-- `swapcontext` from the task to its processor. -/
def swapcontext (env : Syncenv) (t : ℕ) : Option Syncenv :=
  if (env.tasks t).phase = .yielding then some (env.set t { env.tasks t with phase := .returning })
  else none

/-- `synctask_done`. -/
def synctaskDone (env : Syncenv) (t : ℕ) : Syncenv :=
  if (env.tasks t).synccbk then env.set t { env.tasks t with phase := .freed }
  else env.set t { env.tasks t with state := .zombie, phase := .ended }

/-- `synctask_switchto`, from the return of `swapcontext` on. -/
def synctaskSwitchto (env : Syncenv) (t : ℕ) : Option Syncenv :=
  if (env.tasks t).phase = .returning then
    some (if (env.tasks t).state = .done then synctaskDone env t
      else if (env.tasks t).woken then (env.set t { env.tasks t with phase := .idle }).run t
      else (env.set t { env.tasks t with phase := .idle, slept := true }).wait t)
  else none

/-- `synctask_join`, when the task has ended. -/
def synctaskJoin (env : Syncenv) (t : ℕ) : Option Syncenv :=
  if (env.tasks t).phase = .ended then some (env.set t { env.tasks t with phase := .freed })
  else none

/-- The actions of processors, of the tasks that they run, and of those who wake tasks. -/
inductive Action
  | create (t : ℕ) (synccbk : Bool)
  | wake (t : ℕ)
  | pickUp
  | wrapEnd (t : ℕ)
  | yield (t : ℕ)
  | swap (t : ℕ)
  | switchBack (t : ℕ)
  | join (t : ℕ)
  deriving DecidableEq, Repr

@[inherit_doc Action]
def step (env : Syncenv) : Action → Option Syncenv
  | .create t synccbk => synctaskCreate env t synccbk
  | .wake t => synctaskWake env t
  | .pickUp => syncenvTask env
  | .wrapEnd t => synctaskWrapEnd env t
  | .yield t => synctaskYield env t
  | .swap t => swapcontext env t
  | .switchBack t => synctaskSwitchto env t
  | .join t => synctaskJoin env t

/-- `syncenv_new`: no task and empty queues. -/
def syncenvNew : Syncenv := ⟨fun _ => ⟨.init, false, false, false, .absent⟩, [], [], 0, 0⟩

/-- The tasks of an environment. -/
def syncMachine : Machine Syncenv Action where
  start env := env = syncenvNew
  step := step

/-! ## The invariant -/

/-- The counts are the lengths of the queues, on which no task is twice. -/
structure Counts (env : Syncenv) : Prop where
  run : env.runcount = env.runq.length
  wait : env.waitcount = env.waitq.length
  runNodup : env.runq.Nodup
  waitNodup : env.waitq.Nodup

/-- The task is on no queue. -/
def Off (env : Syncenv) (t : ℕ) : Prop := t ∉ env.runq ∧ t ∉ env.waitq

/-- The task is on the queue that its state names, and on no other; it is not done. -/
def Listed (env : Syncenv) (t : ℕ) : Prop :=
  ((env.tasks t).state = .run ∧ t ∈ env.runq ∧ t ∉ env.waitq) ∨
    ((env.tasks t).state = .wait ∧ t ∉ env.runq ∧ t ∈ env.waitq) ∨
    (((env.tasks t).state = .init ∨ (env.tasks t).state = .suspend) ∧ Off env t)

/-- What holds for a task: with a processor it is on no queue and `slept` is not set; otherwise it
has been woken and is on `runq`, or it sleeps, or it has not run yet. -/
structure TaskOk (env : Syncenv) (t : ℕ) : Prop where
  off : (env.tasks t).phase ≠ .idle → Off env t
  awake : (env.tasks t).phase ≠ .idle → (env.tasks t).phase ≠ .absent → (env.tasks t).slept = false
  left : (env.tasks t).phase = .yielding ∨ (env.tasks t).phase = .returning →
    (env.tasks t).state = .suspend ∨ (env.tasks t).state = .done
  idle : (env.tasks t).phase = .idle → Listed env t ∧
    (((env.tasks t).state = .run ∧ (env.tasks t).woken = true) ∨
      (((env.tasks t).state = .wait ∨ (env.tasks t).state = .init) ∧
        (env.tasks t).woken = false ∧ (env.tasks t).slept = true))

/-- The invariant of the environment. -/
structure EnvOk (env : Syncenv) : Prop where
  counts : Counts env
  tasks : ∀ t, TaskOk env t

/-- What happens to other tasks than `t`: nothing. -/
structure Frame (env env' : Syncenv) (t : ℕ) : Prop where
  tasks : ∀ u, u ≠ t → env'.tasks u = env.tasks u
  runq : ∀ u, u ≠ t → (u ∈ env'.runq ↔ u ∈ env.runq)
  waitq : ∀ u, u ≠ t → (u ∈ env'.waitq ↔ u ∈ env.waitq)

theorem Frame.taskOk {env env' : Syncenv} {t u : ℕ} (h : Frame env env' t) (hu : u ≠ t)
    (hok : TaskOk env u) : TaskOk env' u := by
  obtain ⟨hoff, hawake, hleft, hidle⟩ := hok
  refine ⟨?_, ?_, ?_, ?_⟩ <;>
    simpa only [Listed, Off, h.tasks u hu, h.runq u hu, h.waitq u hu] using by assumption

theorem Frame.trans {env env₁ env₂ : Syncenv} {t : ℕ} (h : Frame env env₁ t)
    (h' : Frame env₁ env₂ t) : Frame env env₂ t where
  tasks u hu := (h'.tasks u hu).trans (h.tasks u hu)
  runq u hu := (h'.runq u hu).trans (h.runq u hu)
  waitq u hu := (h'.waitq u hu).trans (h.waitq u hu)

/-- An action on one task keeps the invariant if it does so for the counts and for this task. -/
theorem EnvOk.of_frame {env env' : Syncenv} {t : ℕ} (h : EnvOk env) (hframe : Frame env env' t)
    (hcounts : Counts env') (hok : TaskOk env' t) : EnvOk env' where
  counts := hcounts
  tasks u := by
    by_cases hu : u = t
    · rwa [hu]
    · exact hframe.taskOk hu (h.tasks u)

theorem Frame.set (env : Syncenv) (t : ℕ) (task : Synctask) : Frame env (env.set t task) t :=
  ⟨fun _ hu => Function.update_of_ne hu _ _, fun _ _ => Iff.rfl, fun _ _ => Iff.rfl⟩

@[simp] theorem Syncenv.set_self (env : Syncenv) (t : ℕ) (task : Synctask) :
    (env.set t task).tasks t = task := Function.update_self ..

theorem Counts.set {env : Syncenv} (h : Counts env) (t : ℕ) (task : Synctask) :
    Counts (env.set t task) := ⟨h.run, h.wait, h.runNodup, h.waitNodup⟩

/-! ## Queues -/

theorem Listed.set {env : Syncenv} {t : ℕ} {task : Synctask} (h : Listed env t)
    (hs : task.state = (env.tasks t).state) : Listed (env.set t task) t := by
  simp only [Listed, Syncenv.set_self, hs]
  exact h

theorem Off.listed {env : Syncenv} {t : ℕ} {task : Synctask} (h : Off env t)
    (hs : task.state = .suspend) : Listed (env.set t task) t := by
  simp only [Listed, Syncenv.set_self, hs]
  exact Or.inr (Or.inr ⟨Or.inr trivial, h⟩)

/-- A task is taken from the queue that its state names. -/
theorem Syncenv.leave_spec {env : Syncenv} {t : ℕ} (hc : Counts env) (hl : Listed env t) :
    Counts (env.leave t) ∧ Off (env.leave t) t ∧ Frame env (env.leave t) t ∧
      (env.leave t).tasks = env.tasks := by
  have hframe (x y : ℤ) : Frame env { env.unlink t with runcount := x, waitcount := y } t :=
    ⟨fun _ _ => rfl, fun _ hu => List.mem_erase_of_ne hu, fun _ hu => List.mem_erase_of_ne hu⟩
  have hoff (x y : ℤ) : Off { env.unlink t with runcount := x, waitcount := y } t :=
    ⟨fun h => (hc.runNodup.mem_erase_iff.mp h).1 rfl,
      fun h => (hc.waitNodup.mem_erase_iff.mp h).1 rfl⟩
  have hcounts (x y : ℤ) (hx : x = (env.runq.erase t).length)
      (hy : y = (env.waitq.erase t).length) :
      Counts { env.unlink t with runcount := x, waitcount := y } :=
    ⟨hx, hy, hc.runNodup.erase t, hc.waitNodup.erase t⟩
  have hrun := hc.run
  have hwait := hc.wait
  rw [Syncenv.leave]
  rcases hl with ⟨hs, hr, hw⟩ | ⟨hs, hr, hw⟩ | ⟨hs, hr, hw⟩
  · rw [hs]
    refine ⟨hcounts _ _ ?_ (by rwa [List.erase_of_not_mem hw]), hoff _ _, hframe _ _, rfl⟩
    have := List.length_pos_of_mem hr
    rw [List.length_erase_of_mem hr]
    omega
  · rw [hs]
    refine ⟨hcounts _ _ (by rwa [List.erase_of_not_mem hr]) ?_, hoff _ _, hframe _ _, rfl⟩
    have := List.length_pos_of_mem hw
    rw [List.length_erase_of_mem hw]
    omega
  · have hsame : Counts (env.unlink t) :=
      hcounts _ _ (by rwa [List.erase_of_not_mem hr]) (by rwa [List.erase_of_not_mem hw])
    rcases hs with hs | hs <;> rw [hs] <;> exact ⟨hsame, hoff _ _, hframe _ _, rfl⟩

/-- A task that is on no queue goes to the end of one. -/
theorem nodup_append_singleton {q : List ℕ} {t : ℕ} (hq : q.Nodup) (ht : t ∉ q) :
    (q ++ [t]).Nodup :=
  hq.append (List.nodup_singleton t) fun _ hu hu' => ht (List.mem_singleton.mp hu' ▸ hu)

theorem mem_append_singleton_of_ne {q : List ℕ} {t u : ℕ} (hu : u ≠ t) :
    u ∈ q ++ [t] ↔ u ∈ q := by
  simp [hu]

/-- What `__run` does. -/
theorem Syncenv.run_spec {env : Syncenv} {t : ℕ} (hc : Counts env) (hl : Listed env t) :
    Counts (env.run t) ∧ Frame env (env.run t) t ∧
      (env.run t).tasks t = { env.tasks t with state := .run } ∧
      t ∈ (env.run t).runq ∧ t ∉ (env.run t).waitq := by
  obtain ⟨hcounts, hoff, hframe, htasks⟩ := env.leave_spec hc hl
  have hrun : env.run t = (env.leave t).toRunq t := by
    rw [Syncenv.run]
    rcases hl with ⟨hs, _⟩ | ⟨hs, _⟩ | ⟨hs | hs, _⟩ <;> rw [hs]
  rw [hrun]
  refine ⟨⟨?_, hcounts.wait, nodup_append_singleton hcounts.runNodup hoff.1, hcounts.waitNodup⟩,
    hframe.trans ⟨fun u hu => Function.update_of_ne hu _ _,
      fun u hu => mem_append_singleton_of_ne hu, fun _ _ => Iff.rfl⟩, ?_,
    List.mem_append_right _ List.mem_cons_self, hoff.2⟩
  · simp [Syncenv.toRunq, hcounts.run]
  · rw [Syncenv.toRunq, htasks]
    exact Function.update_self ..

/-- What `__wait` does. -/
theorem Syncenv.wait_spec {env : Syncenv} {t : ℕ} (hc : Counts env) (hl : Listed env t) :
    Counts (env.wait t) ∧ Frame env (env.wait t) t ∧
      (env.wait t).tasks t = { env.tasks t with state := .wait } ∧
      t ∉ (env.wait t).runq ∧ t ∈ (env.wait t).waitq := by
  obtain ⟨hcounts, hoff, hframe, htasks⟩ := env.leave_spec hc hl
  have hwait : env.wait t = (env.leave t).toWaitq t := by
    rw [Syncenv.wait]
    rcases hl with ⟨hs, _⟩ | ⟨hs, _⟩ | ⟨hs | hs, _⟩ <;> rw [hs]
  rw [hwait]
  refine ⟨⟨hcounts.run, ?_, hcounts.runNodup, nodup_append_singleton hcounts.waitNodup hoff.2⟩,
    hframe.trans ⟨fun u hu => Function.update_of_ne hu _ _, fun _ _ => Iff.rfl,
      fun u hu => mem_append_singleton_of_ne hu⟩, ?_, hoff.1,
    List.mem_append_right _ List.mem_cons_self⟩
  · simp [Syncenv.toWaitq, hcounts.wait]
  · rw [Syncenv.toWaitq, htasks]
    exact Function.update_self ..

/-! ## Every action keeps the invariant -/

section Steps

variable {env env' : Syncenv} {t : ℕ}

/-- A task with a processor, and one that does not exist, is of no queue's concern. -/
theorem EnvOk.set (h : EnvOk env) {task : Synctask} (hoff : Off env t) (hidle : task.phase ≠ .idle)
    (hslept : task.phase ≠ .absent → task.slept = false)
    (hleft : task.phase = .yielding ∨ task.phase = .returning →
      task.state = .suspend ∨ task.state = .done) : EnvOk (env.set t task) := by
  refine h.of_frame (.set env t task) (h.counts.set t task) ⟨fun _ => hoff, ?_, ?_, ?_⟩ <;>
    rw [Syncenv.set_self]
  · exact fun _ => hslept
  · exact hleft
  · exact fun hp => absurd hp hidle

theorem EnvOk.create (h : EnvOk env) {synccbk : Bool}
    (hstep : synctaskCreate env t synccbk = some env') : EnvOk env' := by
  obtain ⟨hphase, heq⟩ := Option.ite_none_right_eq_some.mp hstep
  obtain rfl := Option.some.inj heq
  have hoff := (h.tasks t).off (by rw [hphase]; decide)
  refine h.of_frame (.set ..) (h.counts.set ..) ⟨fun _ => hoff, ?_, ?_, ?_⟩ <;>
    simp only [Syncenv.set_self, Listed]
  · exact fun hp => absurd rfl hp
  · exact fun hp => hp.elim (absurd · (by decide)) (absurd · (by decide))
  · exact fun _ => ⟨Or.inr (Or.inr ⟨Or.inl trivial, hoff⟩),
      Or.inr ⟨Or.inr trivial, trivial, trivial⟩⟩

/-- A task goes to `runq`: it is with no processor, and has been woken. -/
theorem EnvOk.run (h : EnvOk env) {task : Synctask} (hl : Listed (env.set t task) t)
    (hphase : task.phase = .idle) (hwoken : task.woken = true) :
    EnvOk ((env.set t task).run t) := by
  obtain ⟨hcounts, hframe, htask, hrunq, hwaitq⟩ := Syncenv.run_spec (h.counts.set t task) hl
  refine h.of_frame ((Frame.set ..).trans hframe) hcounts ⟨?_, ?_, ?_, fun _ => ?_⟩ <;>
    simp only [Listed, htask, Syncenv.set_self, hphase]
  · exact fun hp => absurd rfl hp
  · exact fun hp => absurd rfl hp
  · exact fun hp => hp.elim (absurd · (by decide)) (absurd · (by decide))
  · exact ⟨Or.inl ⟨trivial, hrunq, hwaitq⟩, Or.inl ⟨trivial, hwoken⟩⟩

/-- A wake leaves a task alone that is with a processor, and puts a task that sleeps on `runq`. -/
theorem EnvOk.wake (h : EnvOk env) (hstep : synctaskWake env t = some env') : EnvOk env' := by
  obtain ⟨hexists, heq⟩ := Option.ite_none_left_eq_some.mp hstep
  obtain rfl := Option.some.inj heq
  have hok := h.tasks t
  have hphase : (env.tasks t).phase ≠ .absent := fun hp => hexists (Or.inl hp)
  by_cases hp : (env.tasks t).phase = .idle
  · obtain ⟨hl, hcases⟩ := hok.idle hp
    have hl' : Listed (env.set t { env.tasks t with woken := true }) t := hl.set rfl
    split
    case isTrue => exact h.run hl' hp rfl
    case isFalse hslept =>
      -- it has been put on `runq` by its processor
      have hstate : (env.tasks t).state = .run :=
        (hcases.resolve_right fun hs => hslept hs.2.2).1
      refine h.of_frame (.set ..) (h.counts.set ..) ⟨?_, ?_, ?_, fun _ => ⟨hl', Or.inl ?_⟩⟩ <;>
        simp only [Syncenv.set_self, hp]
      · exact fun hne => absurd rfl hne
      · exact fun hne => absurd rfl hne
      · exact fun hne => hne.elim (absurd · (by decide)) (absurd · (by decide))
      · exact ⟨hstate, trivial⟩
  · rw [if_neg (by rw [hok.awake hp hphase]; decide)]
    exact h.set (hok.off hp) hp (fun _ => hok.awake hp hphase) hok.left

theorem EnvOk.pickUp (h : EnvOk env) (hstep : syncenvTask env = some env') : EnvOk env' := by
  rw [syncenvTask] at hstep
  cases hq : env.runq with
  | nil => simp [hq] at hstep
  | cons t runq =>
    simp only [hq, Option.some.injEq] at hstep
    subst hstep
    have hnodup := h.counts.runNodup
    rw [hq, List.nodup_cons] at hnodup
    have hmem : t ∈ env.runq := hq ▸ List.mem_cons_self
    have hwaitq : t ∉ env.waitq := by
      by_cases hp : (env.tasks t).phase = .idle
      · rcases ((h.tasks t).idle hp).1 with hl | hl | hl
        · exact hl.2.2
        · exact absurd hmem hl.2.1
        · exact hl.2.2
      · exact ((h.tasks t).off hp).2
    have hrun := h.counts.run
    rw [hq, List.length_cons] at hrun
    refine h.of_frame (t := t) ⟨fun u hu => Function.update_of_ne hu _ _, fun u hu => ?_,
      fun _ _ => Iff.rfl⟩ ⟨?_, h.counts.wait, hnodup.2, h.counts.waitNodup⟩
      ⟨fun _ => ⟨hnodup.1, hwaitq⟩, ?_, ?_, ?_⟩
    · simp [hq, hu]
    · simp only
      omega
    all_goals simp

theorem EnvOk.wrapEnd (h : EnvOk env) (hstep : synctaskWrapEnd env t = some env') : EnvOk env' := by
  obtain ⟨hphase, heq⟩ := Option.ite_none_right_eq_some.mp hstep
  obtain rfl := Option.some.inj heq
  have hidle : (env.tasks t).phase ≠ .idle := by rw [hphase]; decide
  exact h.set ((h.tasks t).off hidle) hidle ((h.tasks t).awake hidle) fun _ => Or.inr rfl

theorem EnvOk.yield (h : EnvOk env) (hstep : synctaskYield env t = some env') : EnvOk env' := by
  obtain ⟨hphase, heq⟩ := Option.ite_none_right_eq_some.mp hstep
  obtain rfl := Option.some.inj heq
  have hidle : (env.tasks t).phase ≠ .idle := by rw [hphase]; decide
  refine h.set ((h.tasks t).off hidle) (by simp)
    (fun _ => (h.tasks t).awake hidle (by rw [hphase]; decide)) fun _ => ?_
  split
  · exact Or.inr rfl
  · exact Or.inl rfl

theorem EnvOk.swap (h : EnvOk env) (hstep : swapcontext env t = some env') : EnvOk env' := by
  obtain ⟨hphase, heq⟩ := Option.ite_none_right_eq_some.mp hstep
  obtain rfl := Option.some.inj heq
  have hidle : (env.tasks t).phase ≠ .idle := by rw [hphase]; decide
  exact h.set ((h.tasks t).off hidle) (by simp)
    (fun _ => (h.tasks t).awake hidle (by rw [hphase]; decide))
    fun _ => (h.tasks t).left (Or.inl hphase)

/-- Back in `synctask_switchto`, a task that has been woken goes to `runq`, and another one
sleeps. -/
theorem EnvOk.switchBack (h : EnvOk env) (hstep : synctaskSwitchto env t = some env') :
    EnvOk env' := by
  obtain ⟨hphase, heq⟩ := Option.ite_none_right_eq_some.mp hstep
  obtain rfl := Option.some.inj heq
  have hidle : (env.tasks t).phase ≠ .idle := by rw [hphase]; decide
  have hoff := (h.tasks t).off hidle
  have hslept := (h.tasks t).awake hidle (by rw [hphase]; decide)
  split
  case isTrue =>
    rw [synctaskDone]
    split
    · exact h.set hoff (by simp) (fun _ => hslept) (by simp)
    · exact h.set hoff (by simp) (fun _ => hslept) (by simp)
  case isFalse hd =>
    have hs := ((h.tasks t).left (Or.inr hphase)).resolve_right hd
    split
    case isTrue hwoken => exact h.run (hoff.listed hs) rfl hwoken
    case isFalse hwoken =>
      obtain ⟨hcounts, hframe, htask, hrunq, hwaitq⟩ := Syncenv.wait_spec
        (h.counts.set t { env.tasks t with phase := .idle, slept := true }) (hoff.listed hs)
      refine h.of_frame ((Frame.set ..).trans hframe) hcounts ⟨?_, ?_, ?_, fun _ => ?_⟩ <;>
        simp only [Listed, htask, Syncenv.set_self]
      · exact fun hp => absurd rfl hp
      · exact fun hp => absurd rfl hp
      · exact fun hp => hp.elim (absurd · (by decide)) (absurd · (by decide))
      · exact ⟨Or.inr (Or.inl ⟨trivial, hrunq, hwaitq⟩),
          Or.inr ⟨Or.inl trivial, by simpa using hwoken, trivial⟩⟩

theorem EnvOk.join (h : EnvOk env) (hstep : synctaskJoin env t = some env') : EnvOk env' := by
  obtain ⟨hphase, heq⟩ := Option.ite_none_right_eq_some.mp hstep
  obtain rfl := Option.some.inj heq
  have hidle : (env.tasks t).phase ≠ .idle := by rw [hphase]; decide
  exact h.set ((h.tasks t).off hidle) (by simp)
    (fun _ => (h.tasks t).awake hidle (by rw [hphase]; decide)) (by simp)

end Steps

theorem EnvOk.step {env env' : Syncenv} (h : EnvOk env) (a : Action)
    (hstep : step env a = some env') : EnvOk env' := by
  cases a with
  | create t synccbk => exact h.create hstep
  | wake t => exact h.wake hstep
  | pickUp => exact h.pickUp hstep
  | wrapEnd t => exact h.wrapEnd hstep
  | yield t => exact h.yield hstep
  | swap t => exact h.swap hstep
  | switchBack t => exact h.switchBack hstep
  | join t => exact h.join hstep

theorem envOk_syncenvNew : EnvOk syncenvNew :=
  ⟨⟨rfl, rfl, List.nodup_nil, List.nodup_nil⟩,
    fun _ => ⟨fun _ => ⟨List.not_mem_nil, List.not_mem_nil⟩, fun _ h => absurd rfl h,
      by simp [syncenvNew], by simp [syncenvNew]⟩⟩

theorem envOk_of_reachable {env : Syncenv} (h : syncMachine.Reachable env) : EnvOk env := by
  refine Machine.Reachable.invariant EnvOk ?_ (fun _ a _ hok hstep => hok.step a hstep) h
  rintro _ rfl
  exact envOk_syncenvNew

/-! ## Wakes -/

/-- The action picks up the task. -/
def PicksUp (t : ℕ) (env : Syncenv) (a : Action) : Prop := a = .pickUp ∧ env.runq.head? = some t

/-- The runs that begin with a state. -/
def syncMachineFrom (env : Syncenv) : Machine Syncenv Action :=
  { syncMachine with start := (· = env) }

/-- The task has been woken since it was last picked up. -/
def Woken (env : Syncenv) (t : ℕ) : Prop :=
  (env.tasks t).woken = true ∧ (env.tasks t).phase ≠ .absent

section Woken

variable {env env' : Syncenv} {t : ℕ}

theorem Woken.set (h : Woken env t) {u : ℕ} {task : Synctask}
    (htask : u = t → task.woken = true ∧ task.phase ≠ .absent) : Woken (env.set u task) t := by
  by_cases hu : u = t
  · subst hu
    rw [Woken, Syncenv.set_self]
    exact htask rfl
  · simp only [Woken, Syncenv.set, Function.update_of_ne (Ne.symm hu)]
    exact h

theorem Woken.set_state (h : Woken env t) (u : ℕ) (state : SynctaskState) :
    Woken (env.set u { env.tasks u with state }) t := h.set fun hu => hu ▸ h

theorem Woken.leave (h : Woken env t) (u : ℕ) : Woken (env.leave u) t := by
  rw [Syncenv.leave]
  split <;> exact h

/-- `__run` changes no field of a task but its state. -/
theorem Woken.run (h : Woken env t) (u : ℕ) : Woken (env.run u) t := by
  rw [Syncenv.run]
  split
  · exact h.leave u
  · exact h.leave u
  · exact (h.leave u).set_state u .run

/-- `__wait` changes no field of a task but its state. -/
theorem Woken.wait (h : Woken env t) (u : ℕ) : Woken (env.wait u) t := by
  rw [Syncenv.wait]
  split
  · exact h.leave u
  · exact h.leave u
  · exact (h.leave u).set_state u .wait

/-- Only the pick-up of the task forgets that it has been woken. -/
theorem Woken.step (h : Woken env t) {a : Action} (ha : ¬ PicksUp t env a)
    (hstep : step env a = some env') : Woken env' t := by
  cases a with
  | create u synccbk =>
    obtain ⟨hphase, heq⟩ := Option.ite_none_right_eq_some.mp hstep
    obtain rfl := Option.some.inj heq
    exact h.set fun hu => absurd (hu ▸ hphase) h.2
  | wake u =>
    obtain ⟨_, heq⟩ := Option.ite_none_left_eq_some.mp hstep
    obtain rfl := Option.some.inj heq
    have hset : Woken (env.set u { env.tasks u with woken := true }) t :=
      h.set fun hu => ⟨rfl, hu ▸ h.2⟩
    split
    · exact hset.run u
    · exact hset
  | pickUp =>
    rw [Syncop.step, syncenvTask] at hstep
    cases hq : env.runq with
    | nil => simp [hq] at hstep
    | cons u runq =>
      simp only [hq, Option.some.injEq] at hstep
      subst hstep
      have hu : t ≠ u := fun hu => ha ⟨rfl, by rw [hq, hu]; rfl⟩
      simp only [Woken, Function.update_of_ne hu]
      exact h
  | wrapEnd u =>
    obtain ⟨_, heq⟩ := Option.ite_none_right_eq_some.mp hstep
    obtain rfl := Option.some.inj heq
    exact h.set_state u .done
  | yield u =>
    obtain ⟨_, heq⟩ := Option.ite_none_right_eq_some.mp hstep
    obtain rfl := Option.some.inj heq
    exact h.set fun hu => ⟨hu ▸ h.1, by simp⟩
  | swap u =>
    obtain ⟨_, heq⟩ := Option.ite_none_right_eq_some.mp hstep
    obtain rfl := Option.some.inj heq
    exact h.set fun hu => ⟨hu ▸ h.1, by simp⟩
  | switchBack u =>
    obtain ⟨_, heq⟩ := Option.ite_none_right_eq_some.mp hstep
    obtain rfl := Option.some.inj heq
    split
    · rw [synctaskDone]
      split <;> exact h.set fun hu => ⟨hu ▸ h.1, by simp⟩
    · split
      · refine Woken.run ?_ u
        exact h.set fun hu => ⟨hu ▸ h.1, by simp⟩
      · refine Woken.wait ?_ u
        exact h.set fun hu => ⟨hu ▸ h.1, by simp⟩
  | join u =>
    obtain ⟨_, heq⟩ := Option.ite_none_right_eq_some.mp hstep
    obtain rfl := Option.some.inj heq
    exact h.set fun hu => ⟨hu ▸ h.1, by simp⟩

/-- A wake is noted. -/
theorem woken_of_wake (hstep : synctaskWake env t = some env') : Woken env' t := by
  obtain ⟨hexists, heq⟩ := Option.ite_none_left_eq_some.mp hstep
  obtain rfl := Option.some.inj heq
  have hset : Woken (env.set t { env.tasks t with woken := true }) t := by
    rw [Woken, Syncenv.set_self]
    exact ⟨rfl, fun hp => hexists (Or.inl hp)⟩
  split
  · exact hset.run t
  · exact hset

end Woken

/-- A task that has been woken and is with no processor is on `runq`. -/
theorem EnvOk.mem_runq {env : Syncenv} {t : ℕ} (h : EnvOk env) (hw : Woken env t)
    (hphase : (env.tasks t).phase = .idle) : t ∈ env.runq := by
  obtain ⟨hl, hcases⟩ := (h.tasks t).idle hphase
  have hstate : (env.tasks t).state = .run :=
    (hcases.resolve_right fun hs => by rw [hw.1] at hs; exact absurd hs.2.1 (by decide)).1
  rcases hl with hl | ⟨hs, _⟩ | ⟨hs | hs, _⟩
  · exact hl.2.1
  all_goals
    rw [hstate] at hs
    exact absurd hs (by decide)

/-- **No wake is lost**, however wakes and the steps of the tasks and of their processors follow
each other.  In every state the counts are the lengths of the queues; no task is on both queues, or
twice on one; a task that a processor has is on no queue.  And when a task has been woken, then
until it is picked up again it is on `runq` whenever it is with no processor. -/
theorem wake_never_lost {env : Syncenv} (h : syncMachine.Reachable env) :
    env.runcount = env.runq.length ∧ env.waitcount = env.waitq.length ∧
      env.runq.Nodup ∧ env.waitq.Nodup ∧ (∀ t, ¬ (t ∈ env.runq ∧ t ∈ env.waitq)) ∧
      (∀ t, (env.tasks t).phase ≠ .idle → t ∉ env.runq ∧ t ∉ env.waitq) ∧
      ∀ t env₁ env₂, syncMachine.step env (.wake t) = some env₁ →
        (syncMachineFrom env₁).ReachableWhen (fun s a => ¬ PicksUp t s a) env₂ →
        (env₂.tasks t).phase = .idle → t ∈ env₂.runq := by
  have hok := envOk_of_reachable h
  refine ⟨hok.counts.run, hok.counts.wait, hok.counts.runNodup, hok.counts.waitNodup, ?_,
    fun t hp => (hok.tasks t).off hp, ?_⟩
  · rintro t ⟨hr, hw⟩
    by_cases hp : (env.tasks t).phase = .idle
    · rcases ((hok.tasks t).idle hp).1 with hl | hl | hl
      · exact hl.2.2 hw
      · exact hl.2.1 hr
      · exact hl.2.1 hr
    · exact ((hok.tasks t).off hp).1 hr
  · intro t env₁ env₂ hwake hrun hphase
    -- the invariant and the wake are both kept until the task is picked up
    have hkept : EnvOk env₂ ∧ Woken env₂ t := by
      refine Machine.ReachableWhen.invariant (fun s => EnvOk s ∧ Woken s t) ?_ ?_ hrun
      · rintro _ rfl
        exact ⟨hok.wake hwake, woken_of_wake hwake⟩
      · intro s a s' hs ha hstep
        exact ⟨hs.1.step a hstep, hs.2.step ha hstep⟩
    exact hkept.1.mem_runq hkept.2 hphase

/-- A task that is woken while it runs: it yields, and is on `runq` when its processor has put it
away. -/
theorem wake_never_lost_running :
    ∃ env env₁ env₂, syncMachine.exec syncenvNew [.create 0 true, .wake 0, .pickUp] = some env ∧
      syncMachine.step env (.wake 0) = some env₁ ∧
      syncMachine.exec env₁ [.yield 0, .swap 0, .switchBack 0] = some env₂ ∧ 0 ∈ env₂.runq := by
  refine ⟨_, _, _, rfl, rfl, rfl,
    (wake_never_lost (.exec (.start rfl) [.create 0 true, .wake 0, .pickUp] rfl)).2.2.2.2.2.2 0 _ _
      rfl (.exec (.start rfl) [.yield 0, .swap 0, .switchBack 0] ?_ rfl) rfl⟩
  rintro a ha _ ⟨rfl, _⟩
  simp at ha

end GlusterFS.Syncop
