import GlusterFS.Syncop.Synctask

/-!
# Locks and barriers that synctasks wait at

`__synclock_lock` and `__syncbarrier_wait` have one loop: while the data behind `guard` say so, a
synctask appends itself to `waitq`, drops `guard` and yields, and a thread that runs no synctask
waits for `cond`.  `__synclock_unlock` and `__syncbarrier_wake` change the data, signal `cond`, take
the first task from `waitq` and wake it.  A `Guard` is what the two differ in.

The tasks are those of `Synctask`: between `list_add_tail` and the time the processor puts the task
away there are three actions, and the wake may come before each of them.  `guard` is held while the
wake is done; the environment's own actions take `env->mutex` only and look at nothing that `guard`
protects, so a release is one action here.

The loop relies on wakes that belong to it.  A task that somebody else wakes while it is on `waitq`,
or that comes with a wake it has not used up, would go round the loop and append itself a second
time.  `paired` rules these two out; everything else may come in any order.
-/

namespace GlusterFS.Syncop

/-! ## The loop -/

/-- Who calls: a synctask, or a thread that runs none. -/
inductive Caller
  | task (t : ℕ)
  | thread (i : ℕ)
  deriving DecidableEq, Repr

/-- Where a caller is: not in a call; past `list_add_tail`, with `synctask_yield` ahead; in
`synctask_yield` or `pthread_cond_wait`; past the loop. -/
inductive Pc
  | outside
  | parked
  | asleep
  | inside
  deriving DecidableEq, Repr

/-- What is done with the data: the condition of the loop, the assignment behind it, and the
assignment of the release. -/
structure Guard (γ : Type*) where
  blocked : γ → Bool
  pass : Caller → γ → γ
  release : γ → γ

/-- The data, `waitq`, the threads in `pthread_cond_wait`, and where the callers are. -/
structure Waiters (γ : Type*) where
  env : Syncenv
  data : γ
  waitq : List ℕ
  cond : List ℕ
  pc : Caller → Pc

namespace Waiters

variable {γ : Type*}

/-- The caller is in the loop. -/
def waits (s : Waiters γ) (w : Caller) : Bool := s.pc w == .parked || s.pc w == .asleep

/-- The caller can execute code of its own. -/
def active (s : Waiters γ) : Caller → Bool
  | .task t => (s.env.tasks t).phase == .running && (s.env.tasks t).state != .done
  | .thread _ => true

/-- The caller has got out of `synctask_yield` or `pthread_cond_wait`. -/
def back (s : Waiters γ) : Caller → Bool
  | .task t => (s.env.tasks t).phase == .running
  | .thread i => i ∉ s.cond

/-- The condition of the loop, and what follows it: into a queue, or past the loop. -/
def turn (G : Guard γ) (s : Waiters γ) (w : Caller) : Waiters γ :=
  if G.blocked s.data then
    match w with
    | .task t => { s with waitq := s.waitq ++ [t], pc := Function.update s.pc (.task t) .parked }
    | .thread i => { s with cond := s.cond ++ [i], pc := Function.update s.pc (.thread i) .asleep }
  else { s with data := G.pass w s.data, pc := Function.update s.pc w .inside }

/-- `pthread_cond_signal`: one of the threads that wait, if there is one. -/
def signal (s : Waiters γ) (k : ℕ) : Option (Waiters γ) :=
  if s.cond = [] then some s
  else if k < s.cond.length then some { s with cond := s.cond.eraseIdx k }
  else none

/-- `list_del_init` and `synctask_wake` of the first task, if there is one. -/
def wakeFirst (s : Waiters γ) : Option (Waiters γ) :=
  match s.waitq with
  | [] => some s
  | t :: waitq => (synctaskWake s.env t).map fun env => { s with env, waitq }

end Waiters

/-- What can happen.  `attempt` is the call that does not wait; `leave` the return to the caller,
for those whose release is somebody else's; a release may be that of a caller, who then is out. -/
inductive WaitAction
  | env (a : Action)
  | enter (w : Caller)
  | attempt (w : Caller)
  | yield (t : ℕ)
  | spurious (i : ℕ)
  | again (w : Caller)
  | leave (w : Caller)
  | release (w : Option Caller) (k : ℕ)
  deriving DecidableEq, Repr

/-- The task whose code does the action. -/
def Action.runner : Action → Option ℕ
  | .yield t | .wrapEnd t => some t
  | _ => none

namespace Waiters

variable {γ : Type*}

/-- The steps. -/
def step (G : Guard γ) (s : Waiters γ) : WaitAction → Option (Waiters γ)
  | .env a =>
    if a.runner.any fun t => s.waits (.task t) then none
    else (Syncop.step s.env a).map fun env => { s with env }
  | .enter w => if s.pc w = .outside ∧ s.active w then some (s.turn G w) else none
  | .attempt w =>
    if s.pc w = .outside ∧ s.active w then
      some (if G.blocked s.data then s else s.turn G w)
    else none
  | .yield t =>
    if s.pc (.task t) = .parked then
      (synctaskYield s.env t).map fun env =>
        { s with env, pc := Function.update s.pc (.task t) .asleep }
    else none
  | .spurious i => if i ∈ s.cond then some { s with cond := s.cond.erase i } else none
  | .again w => if s.pc w = .asleep ∧ s.back w then some (s.turn G w) else none
  | .leave w =>
    if s.pc w = .inside ∧ s.active w then some { s with pc := Function.update s.pc w .outside }
    else none
  | .release w k =>
    if w.all fun w => s.pc w == .inside && s.active w then
      ({ s with
          data := G.release s.data
          pc := w.elim s.pc fun w => Function.update s.pc w .outside }.signal k).bind wakeFirst
    else none

/-- Nobody else wakes a task that waits, and a task that calls has used up its wakes. -/
def paired (s : Waiters γ) : WaitAction → Bool
  | .env (.wake t) => !s.waits (.task t)
  | .enter (.task t) => !(s.env.tasks t).woken
  | _ => true

/-- The calls at one lock or barrier, which has been made in an environment without tasks. -/
def machine (G : Guard γ) (data : γ) : Machine (Waiters γ) WaitAction where
  start s := s = ⟨syncenvNew, data, [], [], fun _ => .outside⟩
  step := step G

/-! ## What a task that waits is like -/

/-- A task that waits, by where it is; `listed` is whether it is on `waitq`.  It has been woken
exactly if it is off `waitq`, until a processor runs it again. -/
def TaskWaits (task : Synctask) (listed : Prop) : Pc → Prop
  | .outside | .inside => ¬ listed
  | .parked => task.phase = .running ∧ task.state ≠ .done ∧ (listed ↔ task.woken = false)
  | .asleep => task.state ≠ .done ∧
    ((task.phase = .running ∧ ¬ listed ∧ task.woken = false) ∨
      ((task.phase = .yielding ∨ task.phase = .returning ∨ task.phase = .idle) ∧
        (listed ↔ task.woken = false)))

/-- The caller waits, and has been called: it will look at the data again. -/
def Coming (s : Waiters γ) (w : Caller) : Prop :=
  s.waits w = true ∧
    match w with
    | .task t => t ∉ s.waitq
    | .thread i => i ∉ s.cond

/-- The queues and those who wait agree. -/
structure Sound (s : Waiters γ) : Prop where
  env : EnvOk s.env
  tasks : ∀ t, TaskWaits (s.env.tasks t) (t ∈ s.waitq) (s.pc (.task t))
  waitq : s.waitq.Nodup
  cond : s.cond.Nodup
  threads : ∀ i ∈ s.cond, s.pc (.thread i) = .asleep

/-- What all runs keep: when the loop would be left and somebody waits, then somebody is called. -/
structure Kept (G : Guard γ) (s : Waiters γ) : Prop extends Sound s where
  called : G.blocked s.data = false → s.waitq ≠ [] ∨ s.cond ≠ [] → ∃ w, s.Coming w

theorem TaskWaits.of_iff {task : Synctask} {listed listed' : Prop} {pc : Pc}
    (h : TaskWaits task listed pc) (hl : listed' ↔ listed) : TaskWaits task listed' pc := by
  rwa [propext hl]

theorem waits_iff {s : Waiters γ} {w : Caller} :
    s.waits w = true ↔ s.pc w = .parked ∨ s.pc w = .asleep := by
  simp [waits]

end Waiters

/-! ## The environment -/

section Environment

variable {env env' : Syncenv}

/-- The task that an action is about. -/
def Action.subject (env : Syncenv) : Action → Option ℕ
  | .create t _ | .wake t | .wrapEnd t | .yield t | .swap t | .switchBack t | .join t => some t
  | .pickUp => env.runq.head?

theorem Syncenv.leave_tasks (env : Syncenv) (t : ℕ) : (env.leave t).tasks = env.tasks := by
  rw [Syncenv.leave]
  split <;> rfl

theorem Syncenv.run_tasks_of_ne (env : Syncenv) {t u : ℕ} (hu : u ≠ t) :
    (env.run t).tasks u = env.tasks u := by
  rw [Syncenv.run]
  split <;> simp [Syncenv.toRunq, env.leave_tasks, Function.update_of_ne hu]

theorem Syncenv.wait_tasks_of_ne (env : Syncenv) {t u : ℕ} (hu : u ≠ t) :
    (env.wait t).tasks u = env.tasks u := by
  rw [Syncenv.wait]
  split <;> simp [Syncenv.toWaitq, env.leave_tasks, Function.update_of_ne hu]

/-- The task has another state at most, and that is not `SYNCTASK_DONE`. -/
def Restated (task task' : Synctask) : Prop :=
  task'.phase = task.phase ∧ task'.woken = task.woken ∧ (task'.state = .done → task.state = .done)

theorem Syncenv.run_tasks_self (env : Syncenv) (t : ℕ) :
    Restated (env.tasks t) ((env.run t).tasks t) := by
  rw [Syncenv.run]
  split <;> simp [Restated, Syncenv.toRunq, env.leave_tasks]

theorem Syncenv.wait_tasks_self (env : Syncenv) (t : ℕ) :
    Restated (env.tasks t) ((env.wait t).tasks t) := by
  rw [Syncenv.wait]
  split <;> simp [Restated, Syncenv.toWaitq, env.leave_tasks]

theorem Syncenv.set_of_ne (env : Syncenv) {t u : ℕ} (hu : u ≠ t) (task : Synctask) :
    (env.set t task).tasks u = env.tasks u := Function.update_of_ne hu _ _

/-- A wake is noted at the task, which has another state at most. -/
theorem synctaskWake_tasks {t : ℕ} (h : synctaskWake env t = some env') :
    (∀ u, u ≠ t → env'.tasks u = env.tasks u) ∧
      Restated { env.tasks t with woken := true } (env'.tasks t) := by
  obtain ⟨_, heq⟩ := Option.ite_none_left_eq_some.mp h
  obtain rfl := Option.some.inj heq
  split
  · refine ⟨fun u hu => ?_, ?_⟩
    · rw [Syncenv.run_tasks_of_ne _ hu, env.set_of_ne hu]
    · have := Syncenv.run_tasks_self (env.set t { env.tasks t with woken := true }) t
      rwa [Syncenv.set_self] at this
  · exact ⟨fun u hu => env.set_of_ne hu _, by simp [Restated]⟩

/-- An action changes the task that it is about. -/
theorem step_tasks_of_ne {a : Action} {u : ℕ} (h : step env a = some env')
    (hu : a.subject env ≠ some u) : env'.tasks u = env.tasks u := by
  have hne {t : ℕ} (ht : a.subject env = some t) : u ≠ t := fun h => hu (h ▸ ht)
  cases a with
  | create t synccbk =>
    obtain ⟨_, heq⟩ := Option.ite_none_right_eq_some.mp h
    rw [← Option.some.inj heq, env.set_of_ne (hne rfl)]
  | wake t => exact (synctaskWake_tasks h).1 u (hne rfl)
  | pickUp =>
    rw [step, syncenvTask] at h
    split at h
    · cases h
    · next t runq hq =>
      rw [← Option.some.inj h]
      exact Function.update_of_ne (hne (by rw [Action.subject, hq]; rfl)) _ _
  | wrapEnd t =>
    obtain ⟨_, heq⟩ := Option.ite_none_right_eq_some.mp h
    rw [← Option.some.inj heq, env.set_of_ne (hne rfl)]
  | yield t =>
    obtain ⟨_, heq⟩ := Option.ite_none_right_eq_some.mp h
    rw [← Option.some.inj heq, env.set_of_ne (hne rfl)]
  | swap t =>
    obtain ⟨_, heq⟩ := Option.ite_none_right_eq_some.mp h
    rw [← Option.some.inj heq, env.set_of_ne (hne rfl)]
  | switchBack t =>
    obtain ⟨_, heq⟩ := Option.ite_none_right_eq_some.mp h
    rw [← Option.some.inj heq]
    split
    · rw [synctaskDone]
      split <;> rw [env.set_of_ne (hne rfl)]
    · split
      · rw [Syncenv.run_tasks_of_ne _ (hne rfl), env.set_of_ne (hne rfl)]
      · rw [Syncenv.wait_tasks_of_ne _ (hne rfl), env.set_of_ne (hne rfl)]
  | join t =>
    obtain ⟨_, heq⟩ := Option.ite_none_right_eq_some.mp h
    rw [← Option.some.inj heq, env.set_of_ne (hne rfl)]

end Environment

namespace Waiters

variable {γ : Type*}

section Tasks

variable {env env' : Syncenv} {task task' : Synctask} {listed : Prop} {t : ℕ}

theorem TaskWaits.restated {pc : Pc} (h : TaskWaits task listed pc) (ht : Restated task task') :
    TaskWaits task' listed pc := by
  obtain ⟨hphase, hwoken, hstate⟩ := ht
  cases pc with
  | outside => exact h
  | inside => exact h
  | parked => exact ⟨hphase ▸ h.1, fun hs => h.2.1 (hstate hs), hwoken ▸ h.2.2⟩
  | asleep =>
    refine ⟨fun hs => h.1 (hstate hs), ?_⟩
    rw [hphase, hwoken]
    exact h.2

/-- A task that nobody has woken is not on `runq`. -/
theorem not_mem_runq_of_not_woken (h : EnvOk env) (hidle : (env.tasks t).phase = .idle)
    (hwoken : (env.tasks t).woken = false) : t ∉ env.runq := by
  obtain ⟨hl, hcases⟩ := (h.tasks t).idle hidle
  obtain ⟨hstate, _⟩ := hcases.resolve_left fun hs => by simp [hwoken] at hs
  rcases hl with ⟨hs, _⟩ | ⟨_, hr, _⟩ | ⟨_, hr, _⟩
  · simp [hs] at hstate
  · exact hr
  · exact hr

/-- A task that waits and is not with a processor that runs it is in `synctask_yield`. -/
theorem TaskWaits.of_ne_running {pc : Pc} (h : TaskWaits task listed pc)
    (hpc : pc = .parked ∨ pc = .asleep) (hphase : task.phase ≠ .running) :
    pc = .asleep ∧ task.state ≠ .done ∧
      (task.phase = .yielding ∨ task.phase = .returning ∨ task.phase = .idle) ∧
      (listed ↔ task.woken = false) := by
  rcases hpc with rfl | rfl
  · exact absurd h.1 hphase
  · obtain ⟨hstate, ⟨hrun, _⟩ | ⟨hp, hl⟩⟩ := h
    · exact absurd hrun hphase
    · exact ⟨rfl, hstate, hp, hl⟩

theorem TaskWaits.swap {pc : Pc} (h : TaskWaits (env.tasks t) listed pc)
    (hpc : pc = .parked ∨ pc = .asleep) (hstep : swapcontext env t = some env') :
    TaskWaits (env'.tasks t) listed pc := by
  obtain ⟨hphase, heq⟩ := Option.ite_none_right_eq_some.mp hstep
  obtain ⟨rfl, hstate, _, hl⟩ := h.of_ne_running hpc (by simp [hphase])
  rw [← Option.some.inj heq, Syncenv.set_self]
  exact ⟨hstate, Or.inr ⟨Or.inr (Or.inl rfl), hl⟩⟩

theorem TaskWaits.switchBack {pc : Pc} (h : TaskWaits (env.tasks t) listed pc)
    (hpc : pc = .parked ∨ pc = .asleep) (hstep : synctaskSwitchto env t = some env') :
    TaskWaits (env'.tasks t) listed pc := by
  obtain ⟨hphase, heq⟩ := Option.ite_none_right_eq_some.mp hstep
  obtain ⟨rfl, hstate, _, hl⟩ := h.of_ne_running hpc (by simp [hphase])
  rw [← Option.some.inj heq, if_neg hstate]
  -- put away, on `runq` or on the environment's `waitq`
  split
  · refine TaskWaits.restated ?_ (Syncenv.run_tasks_self _ t)
    rw [Syncenv.set_self]
    exact ⟨hstate, Or.inr ⟨Or.inr (Or.inr rfl), hl⟩⟩
  · refine TaskWaits.restated ?_ (Syncenv.wait_tasks_self _ t)
    rw [Syncenv.set_self]
    exact ⟨hstate, Or.inr ⟨Or.inr (Or.inr rfl), hl⟩⟩

/-- A task is picked up only when it has been woken, and then it is off `waitq`. -/
theorem TaskWaits.pickUp {pc : Pc} (h : TaskWaits (env.tasks t) listed pc) (henv : EnvOk env)
    (hpc : pc = .parked ∨ pc = .asleep) (hhead : env.runq.head? = some t)
    (hstep : syncenvTask env = some env') : TaskWaits (env'.tasks t) listed pc := by
  have hmem : t ∈ env.runq := List.mem_of_mem_head? hhead
  have hidle : (env.tasks t).phase = .idle := by
    by_contra hp
    exact ((henv.tasks t).off hp).1 hmem
  obtain ⟨rfl, hstate, _, hl⟩ := h.of_ne_running hpc (by simp [hidle])
  have hunlisted : ¬ listed := fun hlisted =>
    not_mem_runq_of_not_woken henv hidle (hl.mp hlisted) hmem
  rw [syncenvTask] at hstep
  split at hstep
  · cases hstep
  · next u runq hq =>
    rw [hq, List.head?_cons, Option.some.injEq] at hhead
    subst hhead
    rw [← Option.some.inj hstep]
    simpa [TaskWaits, hunlisted] using hstate

/-- The environment's actions on a task that waits: the processor leaves its stack and puts it away,
and a processor picks it up once it has been woken. -/
theorem TaskWaits.step {pc : Pc} {a : Action} (h : TaskWaits (env.tasks t) listed pc)
    (henv : EnvOk env)
    (ha : pc = .parked ∨ pc = .asleep → a ≠ .yield t ∧ a ≠ .wrapEnd t ∧ a ≠ .wake t)
    (hstep : Syncop.step env a = some env') : TaskWaits (env'.tasks t) listed pc := by
  by_cases hsub : a.subject env = some t
  swap
  · rwa [step_tasks_of_ne hstep hsub]
  by_cases hpc : pc = .parked ∨ pc = .asleep
  swap
  · cases pc with
    | outside => exact h
    | inside => exact h
    | parked => exact absurd (Or.inl rfl) hpc
    | asleep => exact absurd (Or.inr rfl) hpc
  obtain ⟨hyield, hwrap, hwake⟩ := ha hpc
  cases a with
  | create u synccbk =>
    obtain rfl := Option.some.inj hsub
    obtain ⟨hphase, _⟩ := Option.ite_none_right_eq_some.mp hstep
    have := (h.of_ne_running hpc (by simp [hphase])).2.2.1
    simp [hphase] at this
  | wake u => exact absurd (congrArg Action.wake (Option.some.inj hsub)) hwake
  | pickUp => exact h.pickUp henv hpc hsub hstep
  | wrapEnd u => exact absurd (congrArg Action.wrapEnd (Option.some.inj hsub)) hwrap
  | yield u => exact absurd (congrArg Action.yield (Option.some.inj hsub)) hyield
  | swap u =>
    obtain rfl := Option.some.inj hsub
    exact h.swap hpc hstep
  | switchBack u =>
    obtain rfl := Option.some.inj hsub
    exact h.switchBack hpc hstep
  | join u =>
    obtain rfl := Option.some.inj hsub
    obtain ⟨hphase, _⟩ := Option.ite_none_right_eq_some.mp hstep
    have := (h.of_ne_running hpc (by simp [hphase])).2.2.1
    simp [hphase] at this

end Tasks

/-! ## Every action keeps the invariant -/

section Steps

variable {G : Guard γ} {s s' : Waiters γ}

/-- The caller is on no queue. -/
def Unlisted (s : Waiters γ) : Caller → Prop
  | .task t => t ∉ s.waitq
  | .thread i => i ∉ s.cond

theorem Sound.unlisted (h : Sound s) {w : Caller} (hw : s.waits w = false) : s.Unlisted w := by
  cases w with
  | task t =>
    have ht := h.tasks t
    cases hpc : s.pc (.task t) with
    | outside => rwa [hpc] at ht
    | inside => rwa [hpc] at ht
    | parked => simp [waits, hpc] at hw
    | asleep => simp [waits, hpc] at hw
  | thread i =>
    intro hi
    simp [waits, h.threads i hi] at hw

/-- A caller that is on no queue gets out of the loop, or of the call. -/
theorem Sound.moved (h : Sound s) {w : Caller} (hw : s.Unlisted w) {pc : Pc} (data : γ)
    (hpc : pc = .inside ∨ pc = .outside) :
    Sound { s with data, pc := Function.update s.pc w pc } where
  env := h.env
  waitq := h.waitq
  cond := h.cond
  tasks t := by
    by_cases ht : Caller.task t = w
    · subst ht
      simp only [Function.update_self]
      rcases hpc with rfl | rfl <;> exact hw
    · simp only [Function.update_of_ne ht]
      exact h.tasks t
  threads i hi := by
    have hne : Caller.thread i ≠ w := by
      rintro rfl
      exact hw hi
    simp only [Function.update_of_ne hne]
    exact h.threads i hi

/-- A caller that is past the loop goes away. -/
theorem Sound.out (h : Sound s) {w : Caller} (hpc : s.pc w = .inside) (data : γ) :
    Sound { s with data, pc := Function.update s.pc w .outside } := by
  have hun : s.Unlisted w := h.unlisted (by simp [waits, hpc])
  exact h.moved hun data (Or.inr rfl)

/-- `list_add_tail` to `waitq`. -/
theorem Sound.park (h : Sound s) {t : ℕ} (hphase : (s.env.tasks t).phase = .running)
    (hstate : (s.env.tasks t).state ≠ .done) (hwoken : (s.env.tasks t).woken = false)
    (ht : t ∉ s.waitq) :
    Sound { s with waitq := s.waitq ++ [t], pc := Function.update s.pc (.task t) .parked } where
  env := h.env
  waitq := nodup_append_singleton h.waitq ht
  cond := h.cond
  tasks u := by
    by_cases hu : u = t
    · subst hu
      simp [TaskWaits, hphase, hstate, hwoken]
    · have hne : Caller.task u ≠ .task t := by simpa using hu
      simp only [Function.update_of_ne hne]
      exact (h.tasks u).of_iff (mem_append_singleton_of_ne hu)
  threads i hi := by
    simp only [Function.update_of_ne (show Caller.thread i ≠ .task t by simp)]
    exact h.threads i hi

/-- `pthread_cond_wait`. -/
theorem Sound.condWait (h : Sound s) {i : ℕ} (hi : i ∉ s.cond) :
    Sound { s with cond := s.cond ++ [i], pc := Function.update s.pc (.thread i) .asleep } where
  env := h.env
  waitq := h.waitq
  cond := nodup_append_singleton h.cond hi
  tasks t := by
    simp only [Function.update_of_ne (show Caller.task t ≠ .thread i by simp)]
    exact h.tasks t
  threads j hj := by
    by_cases hji : j = i
    · simp [hji]
    · have hne : Caller.thread j ≠ .thread i := by simpa using hji
      simp only [Function.update_of_ne hne]
      exact h.threads j ((mem_append_singleton_of_ne hji).mp hj)

/-- The caller can go through the loop once more: a task runs, and no wake is left over. -/
def Ready (s : Waiters γ) : Caller → Prop
  | .task t => (s.env.tasks t).phase = .running ∧ (s.env.tasks t).state ≠ .done ∧
      (s.env.tasks t).woken = false
  | .thread _ => True

/-- Past the loop. -/
theorem Kept.pass (hG : ∀ w d, G.blocked (G.pass w d) = true) (h : Kept G s) {w : Caller}
    (hw : s.Unlisted w) (hblocked : G.blocked s.data = false) : Kept G (s.turn G w) := by
  unfold Waiters.turn
  rw [hblocked, if_neg (by decide)]
  refine ⟨h.moved hw _ (Or.inl rfl), fun hfree => ?_⟩
  rw [hG] at hfree
  cases hfree

/-- One turn of the loop. -/
theorem Kept.turn (hG : ∀ w d, G.blocked (G.pass w d) = true) (h : Kept G s) {w : Caller}
    (hw : s.Unlisted w) (hready : s.Ready w) : Kept G (s.turn G w) := by
  cases hblocked : G.blocked s.data with
  | false => exact h.pass hG hw hblocked
  | true =>
    unfold Waiters.turn
    rw [if_pos hblocked]
    cases w with
    | task t =>
      refine ⟨h.park hready.1 hready.2.1 hready.2.2 hw, fun hfree => ?_⟩
      rw [hblocked] at hfree
      cases hfree
    | thread i =>
      refine ⟨h.condWait hw, fun hfree => ?_⟩
      rw [hblocked] at hfree
      cases hfree

/-- What the environment does. -/
theorem Kept.env_step (h : Kept G s) {a : Action} {env : Syncenv}
    (hrunner : ¬ (a.runner.any fun t => s.waits (.task t)) = true)
    (hpaired : s.paired (.env a) = true) (hstep : Syncop.step s.env a = some env) :
    Kept G { s with env } where
  env := h.env.step a hstep
  waitq := h.waitq
  cond := h.cond
  threads := h.threads
  called := h.called
  tasks t := by
    refine (h.tasks t).step h.env (fun hpc => ?_) hstep
    have hwaits : s.waits (.task t) = true := waits_iff.mpr hpc
    refine ⟨?_, ?_, ?_⟩ <;> rintro rfl
    · simp [Action.runner, hwaits] at hrunner
    · simp [Action.runner, hwaits] at hrunner
    · simp [paired, hwaits] at hpaired

/-- `synctask_yield` of the loop. -/
theorem Kept.yield (h : Kept G s) {t : ℕ} {env : Syncenv} (hpc : s.pc (.task t) = .parked)
    (hstep : synctaskYield s.env t = some env) :
    Kept G { s with env, pc := Function.update s.pc (.task t) .asleep } where
  env := h.env.yield hstep
  waitq := h.waitq
  cond := h.cond
  threads i hi := by
    simp only [Function.update_of_ne (show Caller.thread i ≠ .task t by simp)]
    exact h.threads i hi
  tasks u := by
    by_cases hu : u = t
    · subst hu
      have ht := h.tasks u
      rw [hpc] at ht
      obtain ⟨_, heq⟩ := Option.ite_none_right_eq_some.mp hstep
      simp only [Function.update_self, ← Option.some.inj heq, Syncenv.set_self]
      exact ⟨by simp [ht.2.1], Or.inr ⟨Or.inl rfl, ht.2.2⟩⟩
    · have hne : Caller.task u ≠ .task t := by simpa using hu
      have hsub : Action.subject s.env (.yield t) ≠ some u := fun hs =>
        hu (Option.some.inj hs).symm
      simp only [Function.update_of_ne hne]
      rw [step_tasks_of_ne (a := .yield t) hstep hsub]
      exact h.tasks u
  called hfree hany := by
    obtain ⟨w, hw, hun⟩ := h.called hfree hany
    refine ⟨w, ?_, hun⟩
    by_cases hwt : w = .task t
    · simp [waits, hwt]
    · simpa [waits, Function.update_of_ne hwt] using hw

/-- `pthread_cond_wait` returns, for a signal or for none. -/
theorem Sound.uncond (h : Sound s) {cond : List ℕ} (hsub : cond.Sublist s.cond) :
    Sound { s with cond } where
  env := h.env
  tasks := h.tasks
  waitq := h.waitq
  cond := h.cond.sublist hsub
  threads i hi := h.threads i (hsub.subset hi)

theorem Kept.spurious (h : Kept G s) {i : ℕ} (hi : i ∈ s.cond) :
    Kept G { s with cond := s.cond.erase i } := by
  refine ⟨h.uncond List.erase_sublist, fun _ _ => ⟨.thread i, ?_, ?_⟩⟩
  · exact waits_iff.mpr (Or.inr (h.threads i hi))
  · exact h.cond.not_mem_erase

theorem Kept.leave (h : Kept G s) {w : Caller} (hpc : s.pc w = .inside) :
    Kept G { s with pc := Function.update s.pc w .outside } := by
  refine ⟨h.out hpc s.data, fun hfree hany => ?_⟩
  obtain ⟨v, hv, hun⟩ := h.called hfree hany
  refine ⟨v, ?_, hun⟩
  have hne : v ≠ w := by
    rintro rfl
    simp [waits, hpc] at hv
  simpa [waits, Function.update_of_ne hne] using hv

/-- The signal: a thread that has waited is called. -/
theorem Sound.signal (h : Sound s) {k : ℕ} (hs : s.signal k = some s') :
    Sound s' ∧ s'.waitq = s.waitq ∧ s'.data = s.data ∧ s'.pc = s.pc ∧
      ((s.cond = [] ∧ s'.cond = []) ∨ ∃ i, s'.Coming (.thread i)) := by
  rw [Waiters.signal] at hs
  split at hs
  · next hnil =>
    obtain rfl := Option.some.inj hs
    exact ⟨h, rfl, rfl, rfl, Or.inl ⟨hnil, hnil⟩⟩
  · split at hs
    · next hk =>
      obtain rfl := Option.some.inj hs
      refine ⟨h.uncond (List.eraseIdx_sublist _ _), rfl, rfl, rfl, Or.inr ⟨s.cond[k], ?_, ?_⟩⟩
      · exact waits_iff.mpr (Or.inr (h.threads _ (List.getElem_mem hk)))
      · have hperm := List.getElem_cons_eraseIdx_perm hk
        exact (List.nodup_cons.mp (hperm.nodup_iff.mpr h.cond)).1
    · cases hs

/-- A task at the head of `waitq` waits. -/
theorem Sound.waits_of_mem (h : Sound s) {t : ℕ} (ht : t ∈ s.waitq) :
    s.waits (.task t) = true := by
  by_contra hw
  have hun : s.Unlisted (.task t) := h.unlisted (by simpa using hw)
  exact hun ht

/-- The wake: the first task of `waitq` is called. -/
theorem Sound.wakeFirst (h : Sound s) (hs : s.wakeFirst = some s') :
    Sound s' ∧ s'.cond = s.cond ∧ s'.data = s.data ∧ s'.pc = s.pc ∧
      ((s.waitq = [] ∧ s'.waitq = []) ∨ ∃ t, s'.Coming (.task t)) := by
  rw [Waiters.wakeFirst] at hs
  split at hs
  · next hnil =>
    obtain rfl := Option.some.inj hs
    exact ⟨h, rfl, rfl, rfl, Or.inl ⟨hnil, hnil⟩⟩
  · next t waitq hq =>
    obtain ⟨env, hwake, rfl⟩ := Option.map_eq_some_iff.mp hs
    have hnodup : t ∉ waitq ∧ waitq.Nodup := List.nodup_cons.mp (hq ▸ h.waitq)
    have hmem : t ∈ s.waitq := by rw [hq]; exact List.mem_cons_self
    have hwaits := h.waits_of_mem hmem
    obtain ⟨hframe, hself⟩ := synctaskWake_tasks hwake
    refine ⟨⟨h.env.wake hwake, fun u => ?_, hnodup.2, h.cond, h.threads⟩, rfl, rfl, rfl,
      Or.inr ⟨t, hwaits, hnodup.1⟩⟩
    have hu := h.tasks u
    by_cases hut : u = t
    · subst hut
      refine TaskWaits.restated ?_ hself
      rcases waits_iff.mp hwaits with hpc | hpc <;> rw [hpc] at hu <;> rw [hpc]
      · exact ⟨hu.1, hu.2.1, by simp [hnodup.1]⟩
      · obtain ⟨hstate, ⟨_, hun, _⟩ | ⟨hphase, _⟩⟩ := hu
        · exact absurd hmem hun
        · exact ⟨hstate, Or.inr ⟨hphase, by simp [hnodup.1]⟩⟩
    · rw [hframe u hut]
      exact hu.of_iff (by simp [hq, hut])

/-- The release: somebody is called if somebody waits. -/
theorem Kept.release (h : Kept G s) {w : Option Caller} {k : ℕ}
    (hstep : s.step G (.release w k) = some s') : Kept G s' := by
  obtain ⟨hw, hbind⟩ := Option.ite_none_right_eq_some.mp hstep
  have hout : Sound { s with
      data := G.release s.data, pc := w.elim s.pc fun w => Function.update s.pc w .outside } := by
    cases w with
    | none => exact ⟨h.env, h.tasks, h.waitq, h.cond, h.threads⟩
    | some w =>
      have hpc : s.pc w = .inside := by
        simp only [Option.all_some, Bool.and_eq_true, beq_iff_eq] at hw
        exact hw.1
      exact h.out hpc _
  obtain ⟨mid, hsignal, hwake⟩ := Option.bind_eq_some_iff.mp hbind
  obtain ⟨hmid, _, _, _, hthread⟩ := hout.signal hsignal
  obtain ⟨hsound, hcond, _, hpc, htask⟩ := hmid.wakeFirst hwake
  refine ⟨hsound, fun _ hany => ?_⟩
  rcases htask with ⟨_, hnil⟩ | ⟨t, ht⟩
  · rcases hthread with ⟨_, hnone⟩ | ⟨i, hi, hun⟩
    · rw [hcond, hnone, hnil] at hany
      simp at hany
    · exact ⟨.thread i, by rw [waits, hpc]; exact hi, by rw [hcond]; exact hun⟩
  · exact ⟨.task t, ht⟩

theorem Kept.step (hG : ∀ w d, G.blocked (G.pass w d) = true) (h : Kept G s) {a : WaitAction}
    (hpaired : s.paired a = true) (hstep : s.step G a = some s') : Kept G s' := by
  cases a with
  | env a =>
    obtain ⟨hrunner, hmap⟩ := Option.ite_none_left_eq_some.mp hstep
    obtain ⟨env, henv, rfl⟩ := Option.map_eq_some_iff.mp hmap
    exact h.env_step hrunner hpaired henv
  | enter w =>
    obtain ⟨⟨hpc, hactive⟩, heq⟩ := Option.ite_none_right_eq_some.mp hstep
    rw [← Option.some.inj heq]
    refine h.turn hG (h.unlisted (by simp [waits, hpc])) ?_
    cases w with
    | task t =>
      simp only [active, Bool.and_eq_true, beq_iff_eq, bne_iff_ne] at hactive
      exact ⟨hactive.1, hactive.2, by simpa [paired] using hpaired⟩
    | thread i => trivial
  | attempt w =>
    obtain ⟨⟨hpc, _⟩, heq⟩ := Option.ite_none_right_eq_some.mp hstep
    rw [← Option.some.inj heq]
    split
    · exact h
    · next hfree => exact h.pass hG (h.unlisted (by simp [waits, hpc])) (by simpa using hfree)
  | yield t =>
    obtain ⟨hpc, hmap⟩ := Option.ite_none_right_eq_some.mp hstep
    obtain ⟨env, henv, rfl⟩ := Option.map_eq_some_iff.mp hmap
    exact h.yield hpc henv
  | spurious i =>
    obtain ⟨hi, heq⟩ := Option.ite_none_right_eq_some.mp hstep
    rw [← Option.some.inj heq]
    exact h.spurious hi
  | again w =>
    obtain ⟨⟨hpc, hback⟩, heq⟩ := Option.ite_none_right_eq_some.mp hstep
    rw [← Option.some.inj heq]
    cases w with
    | task t =>
      have ht := h.tasks t
      rw [hpc] at ht
      simp only [back, beq_iff_eq] at hback
      obtain ⟨hstate, ⟨_, hun, hwoken⟩ | ⟨hphase, _⟩⟩ := ht
      · exact h.turn hG hun ⟨hback, hstate, hwoken⟩
      · simp [hback] at hphase
    | thread i =>
      have hun : i ∉ s.cond := by simpa [back] using hback
      exact h.turn hG hun trivial
  | leave w =>
    obtain ⟨⟨hpc, _⟩, heq⟩ := Option.ite_none_right_eq_some.mp hstep
    rw [← Option.some.inj heq]
    exact h.leave hpc
  | release w k => exact h.release hstep

end Steps

/-- The invariant in every run, if passing the loop closes it again. -/
theorem kept_of_reachable {G : Guard γ} {data : γ} {s : Waiters γ}
    (hG : ∀ w d, G.blocked (G.pass w d) = true)
    (h : (machine G data).ReachableWhen (fun s a => s.paired a = true) s) : Kept G s := by
  refine Machine.ReachableWhen.invariant (Kept G) ?_ (fun _ _ _ hs ha hstep => ?_) h
  · rintro _ rfl
    exact ⟨⟨envOk_syncenvNew, fun _ => by simp [TaskWaits], List.nodup_nil, List.nodup_nil,
        by simp⟩,
      by simp⟩
  · exact hs.step hG ha hstep

/-- Who is called is on its way to the condition of the loop: it has been woken, or a processor runs
it already, so that it is on `runq` whenever it is with no processor. -/
theorem Sound.mem_runq {s : Waiters γ} (h : Sound s) {t : ℕ} (ht : s.Coming (.task t))
    (hidle : (s.env.tasks t).phase = .idle) : t ∈ s.env.runq := by
  obtain ⟨hwaits, hun⟩ := ht
  obtain ⟨_, _, _, hl⟩ :=
    (h.tasks t).of_ne_running (waits_iff.mp hwaits) (by simp [hidle])
  have hwoken : (s.env.tasks t).woken = true := by simpa [hun] using hl
  exact h.env.mem_runq ⟨hwoken, by simp [hidle]⟩ hidle

/-- When the loop would be left and somebody is in it, somebody there is called. -/
theorem Kept.somebody_called {G : Guard γ} {s : Waiters γ} (h : Kept G s)
    (hfree : G.blocked s.data = false) {w : Caller} (hw : s.waits w = true) :
    ∃ v, s.Coming v ∧ ∀ t, v = .task t → (s.env.tasks t).phase = .idle → t ∈ s.env.runq := by
  have hcalled : ∃ v, s.Coming v := by
    -- who waits is on a queue, or is called itself
    by_cases hself : s.Coming w
    · exact ⟨w, hself⟩
    · refine h.called hfree ?_
      by_contra hnone
      push Not at hnone
      refine hself ⟨hw, ?_⟩
      cases w <;> simp [hnone]
  obtain ⟨v, hv⟩ := hcalled
  refine ⟨v, hv, ?_⟩
  rintro t rfl
  exact h.mem_runq hv

end Waiters

end GlusterFS.Syncop
