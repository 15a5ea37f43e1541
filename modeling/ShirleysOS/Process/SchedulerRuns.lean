import ShirleysOS.Process.Scheduler

/-!
# Runs of the scheduler

What holds whatever calls are made and whatever the tasks do. Tasks take turns: a start moves the
cursor behind the task that it starts, so that a task that stays ready comes closer to the cursor
with every start of another one.

A task that has been blocked is not started before it is woken, unless it was running and then
returns something else than `Blocked`: `run_next` puts down what the entry returns, whatever the
state of the task has become.
-/

namespace ShirleysOS.Scheduler

variable {m m' m₁ : Machine} {s : State} {a b i j : Fin maxTasks} {e : Event} {events : List Event}

/-- What every step keeps, every run keeps. -/
theorem after_invariant {P : Machine → Prop}
    (hstep : ∀ {m e m'}, P m → Machine.step m e = some m' → P m') (h : P m)
    (hafter : m.after events = some m') : P m' := by
  induction events generalizing m with
  | nil => exact Option.some.inj hafter ▸ h
  | cons e events ih =>
    obtain ⟨m₁, hfirst, hrest⟩ := Option.bind_eq_some_iff.mp hafter
    exact ih (hstep h hfirst) hrest

/-! ## Turns -/

theorem Effect.cursor {call : Call} {s' : State} (h : Effect s call s') :
    s'.cursor = s.cursor := by
  cases h <;> rfl

theorem finishRun_cursor (result : TaskState) : (s.finishRun i result).cursor = s.cursor := by
  cases result <;> rfl

/-- An event starts the task whose turn it is, or leaves the cursor. -/
theorem Step.turn (h : Step m e m') :
    (∃ i, m.starts e = some i ∧ m.running = none ∧ m.state.pick = some i ∧
        m' = ⟨m.state.startNext i, some i⟩) ∨
      (m.starts e = none ∧ m'.state.cursor = m.state.cursor ∧
        ∀ i, m'.running = some i → m.running = some i) := by
  cases h with
  | call h => exact .inr ⟨rfl, h.cursor, fun _ => id⟩
  | idle hnone hpick => exact .inr ⟨(if_pos hnone).trans hpick, rfl, fun _ => id⟩
  | start hnone hpick => exact .inl ⟨_, (if_pos hnone).trans hpick, hnone, hpick, rfl⟩
  | finish hi => exact .inr ⟨rfl, finishRun_cursor _, fun _ h => nomatch h⟩

theorem ahead_congr {s' : State} (h : s'.cursor = s.cursor) (i : Fin maxTasks) :
    s'.ahead i = s.ahead i := by
  rw [State.ahead, h, State.ahead]

/-- The task is ready, unless it is running. -/
def Waiting (b : Fin maxTasks) (m : Machine) (_ : Event) : Prop :=
  m.running ≠ some b → (m.state.tasks b).Runnable

/-- A start of another task brings a waiting one closer to the cursor. -/
theorem Waiting.closer (hb : Waiting b m e) (h : m.step e = some m') (hi : m.starts e = some i)
    (hne : i ≠ b) :
    m.state.ahead i < m.state.ahead b ∧
      ∀ j, m.state.ahead i < m.state.ahead j →
        m'.state.ahead j + m.state.ahead i + 1 = m.state.ahead j := by
  obtain ⟨i', hi', hnone, hpick, rfl⟩ | ⟨hnot, -, -⟩ := (step_cases h).turn
  · obtain rfl := Option.some.inj (hi.symm.trans hi')
    have hle := (pick_spec hpick).2 b (hb (by rw [hnone]; exact Option.some_ne_none b |>.symm))
    exact ⟨Nat.lt_of_le_of_ne hle fun heq => hne (ahead_injective _ heq),
      fun j hj => ahead_startNext hj⟩
  · rw [hnot] at hi
    cases hi

/-- While a task runs, the cursor is behind it. -/
theorem running_cursor (h : Machine.initial.after events = some m) (ha : m.running = some a) :
    m.state.cursor = a + 1 := by
  refine after_invariant (P := fun m => ∀ a, m.running = some a → m.state.cursor = a + 1) ?_
    (fun _ h => nomatch (show none = some _ from h)) h a ha
  intro m e m' hm hstep a ha
  obtain ⟨i, -, -, -, rfl⟩ | ⟨-, hcursor, hrunning⟩ := (step_cases hstep).turn
  · cases ha
    rfl
  · rw [hcursor]
    exact hm a (hrunning a ha)

/-- A task that is waiting before another one in turn runs before it. -/
theorem mem_started_of_ahead (hb : Throughout (Waiting b) m (events ++ [.start]))
    (hbefore : m.state.ahead b < m.state.ahead a) (hafter : m.after events = some m')
    (hagain : m'.starts .start = some a) : b ∈ m.started events := by
  induction events generalizing m with
  | nil =>
    obtain rfl : m = m' := Option.some.inj hafter
    have hnone : m.running = none := by
      by_contra hsome
      rw [Machine.starts, if_neg hsome] at hagain
      cases hagain
    rw [Machine.starts, if_pos hnone] at hagain
    have hle := (pick_spec hagain).2 b (hb.1 (by rw [hnone]; exact (Option.some_ne_none b).symm))
    omega
  | cons e events ih =>
    obtain ⟨m₁, hstep, hrest⟩ := Option.bind_eq_some_iff.mp hafter
    have hlater := hb.2 m₁ hstep
    rw [Machine.started, hstep, Option.map_some, Option.getD_some, List.mem_append]
    cases hi : m.starts e with
    | none =>
      obtain ⟨i, hi', -⟩ | ⟨-, hcursor, -⟩ := (step_cases hstep).turn
      · rw [hi] at hi'
        cases hi'
      · refine .inr (ih hlater ?_ hrest)
        rwa [ahead_congr hcursor, ahead_congr hcursor]
    | some i =>
      -- when another task has its turn, both come closer to the cursor
      by_cases hib : i = b
      · exact .inl (by rw [hib]; exact List.mem_singleton_self b)
      · obtain ⟨hless, hcloser⟩ := hb.1.closer hstep hi hib
        have hb' := hcloser b hless
        have ha' := hcloser a (hless.trans hbefore)
        exact .inr (ih hlater (by omega) hrest)

/-- A waiting task is started after no more starts than it is ahead of the cursor. -/
theorem mem_started_take {n : ℕ} (hb : Throughout (Waiting b) m events)
    (hn : m.state.ahead b < n) (hlength : n ≤ (m.started events).length) :
    b ∈ (m.started events).take n := by
  induction events generalizing m n with
  | nil =>
    rw [Machine.started, List.length_nil] at hlength
    omega
  | cons e events ih =>
    cases hstep : m.step e with
    | none =>
      rw [Machine.started, hstep, starts_eq_none hstep] at hlength
      exact absurd hlength (by simp; omega)
    | some m₁ =>
      have hlater := hb.2 m₁ hstep
      rw [Machine.started, hstep, Option.map_some, Option.getD_some] at hlength ⊢
      cases hi : m.starts e with
      | none =>
        obtain ⟨i, hi', -⟩ | ⟨-, hcursor, -⟩ := (step_cases hstep).turn
        · rw [hi] at hi'
          cases hi'
        · rw [hi] at hlength
          exact ih hlater (by rwa [ahead_congr hcursor]) hlength
      | some i =>
        obtain ⟨n, rfl⟩ : ∃ k, n = k + 1 := ⟨n - 1, by omega⟩
        rw [hi] at hlength
        change b ∈ i :: (m₁.started events).take n
        by_cases hib : i = b
        · exact hib ▸ List.mem_cons_self
        · obtain ⟨hless, hcloser⟩ := hb.1.closer hstep hi hib
          have hb' := hcloser b hless
          exact List.mem_cons_of_mem _ (ih hlater (by omega) (Nat.le_of_succ_le_succ hlength))

/-- **Tasks take turns.** Between two runs of a task every other task that is ready all the time
runs, and a task that stays ready is among the first 64 that are started. -/
theorem runNext_fair :
    (∀ before m a result m₁ between m₂ b, Machine.initial.after before = some m →
      m.running = some a → m.step (.finish result) = some m₁ → m₁.after between = some m₂ →
      m₂.starts .start = some a → b ≠ a → Throughout (Waiting b) m₁ (between ++ [.start]) →
      b ∈ m₁.started between) ∧
    ∀ (m : Machine) (b : Fin maxTasks) (events : List Event), Throughout (Waiting b) m events →
      maxTasks ≤ (m.started events).length → b ∈ (m.started events).take maxTasks := by
  refine ⟨?_, fun m b events hb => mem_started_take hb (b - m.state.cursor).isLt⟩
  intro before m a result m₁ between m₂ b hm ha hfinish hbetween hagain hne hb
  refine mem_started_of_ahead hb ?_ hbetween hagain
  have hcursor : m₁.state.cursor = a + 1 := by
    obtain ⟨i, hi, -⟩ | ⟨-, hcursor, -⟩ := (step_cases hfinish).turn
    · cases hi
    · rw [hcursor, running_cursor hm ha]
  -- the cursor is behind the task that ran, so every other one comes first
  have hlast : m₁.state.ahead a = 63 := by
    rw [State.ahead, hcursor, sub_add_cancel_left]
    rfl
  have hle : m₁.state.ahead b < 64 := (b - m₁.state.cursor).isLt
  have hother : m₁.state.ahead b ≠ m₁.state.ahead a := fun heq => hne (ahead_injective _ heq)
  omega

/-- Two tasks that are ready. -/
def pair (cursor : Fin maxTasks) : State :=
  ⟨Function.update (Function.update (fun _ => .none) firstSlot ⟨1, 1, 0, .ready⟩) secondSlot
    ⟨2, 1, 0, .ready⟩, 3, invalidTask, cursor⟩

theorem after_pair :
    Machine.initial.after [.call (.create 1 0), .call (.create 1 0), .start] =
      some ⟨(pair 0).startNext 0, some 0⟩ := by
  have hfirst : State.initial.vacant = some 0 := by decide +kernel
  have hsecond : (State.initial.added 1 0 0).vacant = some 1 := by decide +kernel
  have hpair : (State.initial.added 1 0 0).added 1 0 1 = pair 0 := rfl
  have hpick : (pair 0).pick = some 0 := pick_cursor (s := pair 0) (by decide)
  rw [← List.singleton_append, after_append, Machine.initial,
    after_create Nat.one_ne_zero hfirst, Option.bind_some, ← List.singleton_append, after_append,
    after_create Nat.one_ne_zero hsecond, Option.bind_some, hpair, Machine.after,
    step_start hpick]
  rfl

/-- The first task returns as ready, and the second one runs before it is started again. -/
theorem runNext_fair_pair :
    (1 : Fin maxTasks) ∈ Machine.started ⟨pair 1, none⟩ [.start, .finish .ready] := by
  have hpick : (pair 1).pick = some 1 := pick_cursor (s := pair 1) (by decide)
  have hback (i c : Fin maxTasks) (h : ((pair c).tasks i).state = .ready) :
      ((pair c).startNext i).finishRun i .ready = pair (i + 1) := finishRun_startNext h
  have hfinish (i c : Fin maxTasks) (h : ((pair c).tasks i).state = .ready) :
      Machine.step ⟨(pair c).startNext i, some i⟩ (.finish .ready) = some ⟨pair (i + 1), none⟩ :=
    congrArg (fun s => some (Machine.mk s none)) (hback i c h)
  refine runNext_fair.1 _ _ 0 .ready ⟨pair 1, none⟩ _ ⟨pair 2, none⟩ 1 after_pair rfl
    (hfinish 0 0 rfl) ?_ ?_ (by decide) ?_
  · rw [after_run hpick, hback 1 1 rfl]
    rfl
  · have hagain : (pair 2).pick = some 0 := by decide +kernel
    exact hagain
  · refine ⟨fun _ => (by decide), fun m h => ?_⟩
    rw [step_start hpick] at h
    cases h
    refine ⟨fun h => absurd rfl h, fun m h => ?_⟩
    rw [hfinish 1 1 rfl] at h
    cases h
    exact ⟨fun _ => (by decide), fun _ _ => trivial⟩

/-! ## Blocked tasks -/

/-- When the task in a slot is blocked at the end of its run, it returns `Blocked` or `Finished`. -/
def Respects (i : Fin maxTasks) (m : Machine) (e : Event) : Prop :=
  ∀ result, e = .finish result → m.running = some i → (m.state.tasks i).state = .blocked →
    result = .blocked ∨ result = .finished

/-- The task in a slot does not finish, and its identifier is not woken. -/
def NotReleased (id : UInt32) (i : Fin maxTasks) (m : Machine) (e : Event) : Prop :=
  ¬(e = .finish .finished ∧ m.running = some i) ∧
    (e = .call (.wake id) → (m.state.wake id).1 = false)

/-- The slot holds a blocked task with this identifier. -/
def State.Holds (s : State) (id : UInt32) (i : Fin maxTasks) : Prop :=
  (s.tasks i).id = id ∧ id ≠ invalidTask ∧ (s.tasks i).state = .blocked

theorem State.Holds.put {id : UInt32} (h : s.Holds id i) (hne : i ≠ j) {t : Task} :
    (s.put j t).Holds id i := by
  unfold State.Holds
  rwa [put_tasks_of_ne hne]

theorem State.Holds.setState {id : UInt32} (h : s.Holds id i) {state : TaskState}
    (hstate : i = j → state = .blocked) : (s.setState j state).Holds id i := by
  by_cases hne : i = j
  · obtain rfl := hne
    rw [hstate rfl]
    exact ⟨setState_id.trans h.1, h.2.1, by rw [State.setState, put_tasks_self]⟩
  · exact h.put hne

/-- A blocked task stays blocked until it is released, and is not started. -/
theorem State.Holds.step {id : UInt32} (h : m.state.Holds id i) (hstep : Step m e m')
    (hresult : Respects i m e) (huntil : NotReleased id i m e) :
    m.starts e ≠ some i ∧ m'.state.Holds id i := by
  have hblocked := h.2.2
  cases hstep with
  | call heffect =>
    refine ⟨(fun h => nomatch h), ?_⟩
    cases heffect with
    | nothing => exact h
    | created hentry hj =>
      refine h.put fun hij => h.2.1 ?_
      rw [← h.1, hij]
      exact vacant_eq_some hj
    | blocked hj => exact h.setState fun _ => rfl
    | @woken id' j hj hwoken =>
      refine h.setState fun hij => ?_
      obtain rfl : id' = id := by rw [← h.1, hij, (find_eq_some hj).2]
      rw [huntil.2 rfl] at hwoken
      cases hwoken
  | idle hnone hpick =>
    refine ⟨fun hstarts => ?_, h⟩
    rw [Machine.starts, if_pos hnone, hpick] at hstarts
    cases hstarts
  | @start j hnone hpick =>
    have hne : i ≠ j := by
      rintro rfl
      have hready := (pick_spec hpick).1.2
      rw [hblocked] at hready
      cases hready
    refine ⟨fun hstarts => ?_, h.setState fun hij => absurd hij hne⟩
    rw [Machine.starts, if_pos hnone, hpick] at hstarts
    exact hne (Option.some.inj hstarts).symm
  | @finish j result hj =>
    refine ⟨(fun h => nomatch h), ?_⟩
    by_cases hij : i = j
    · obtain rfl := hij
      -- a task that was blocked while it ran returns as blocked or finished
      rcases hresult result rfl hj hblocked with rfl | rfl
      · exact h.setState fun _ => rfl
      · exact absurd ⟨rfl, hj⟩ huntil.1
    · cases result with
      | finished => exact h.put hij
      | blocked => exact h.setState fun _ => rfl
      | ready => exact h.setState fun heq => absurd heq hij
      | running => exact h.setState fun heq => absurd heq hij

theorem holds_block {id : UInt32} (hi : s.find id = some i) (hblock : (s.block id).1 = true) :
    (s.block id).2.Holds id i := by
  obtain ⟨hvalid, hid⟩ := find_eq_some hi
  unfold State.block at hblock ⊢
  rw [hi] at hblock ⊢
  dsimp only at hblock ⊢
  split at hblock
  · cases hblock
  · next hlive =>
    rw [if_neg hlive]
    exact ⟨setState_id.trans hid, hvalid, congrArg Task.state put_tasks_self⟩

/-- A blocked task is not started until it is released. -/
theorem State.Holds.not_mem_started {id : UInt32} (h : m.state.Holds id i)
    (hresult : Throughout (Respects i) m events)
    (huntil : Throughout (NotReleased id i) m events) : i ∉ m.started events := by
  induction events generalizing m with
  | nil => exact List.not_mem_nil
  | cons e events ih =>
    intro hmem
    rw [Machine.started, List.mem_append] at hmem
    cases hnext : m.step e with
    | none =>
      rw [hnext, starts_eq_none hnext] at hmem
      rcases hmem with hhere | hlater
      · cases hhere
      · cases hlater
    | some m₁ =>
      obtain ⟨hnot, h'⟩ := h.step (step_cases hnext) hresult.1 huntil.1
      rw [hnext, Option.map_some, Option.getD_some] at hmem
      rcases hmem with hhere | hlater
      · exact hnot (Option.mem_toList.mp hhere)
      · exact ih h' (hresult.2 m₁ hnext) (huntil.2 m₁ hnext) hlater

/-- **A blocked task is not started** before it has finished or has been woken, as long as it
does not return as ready when it is blocked at the end of its run. -/
theorem block_lasts {id : UInt32} (hi : m.state.find id = some i)
    (hblock : (m.state.block id).1 = true) (hstep : m.step (.call (.block id)) = some m₁)
    (hresult : Throughout (Respects i) m₁ events)
    (huntil : Throughout (NotReleased id i) m₁ events) : i ∉ m₁.started events := by
  have hholds : m₁.state.Holds id i := by
    obtain rfl := Option.some.inj hstep
    exact holds_block hi hblock
  exact hholds.not_mem_started hresult huntil

/-- A scheduler whose only task is running. -/
def loneMachine : Machine :=
  ⟨(State.initial.call (.create 1 0)).startNext firstSlot, some firstSlot⟩

/-- The machine in which that task has blocked itself. -/
def loneBlocked : Machine := { loneMachine with state := loneMachine.state.call (.block 1) }

theorem loneMachine_after :
    Machine.initial.after [.call (.create 1 0), .start] = some loneMachine := by
  have hpick : (State.initial.call (.create 1 0)).pick = some 0 := by decide +kernel
  rw [Machine.after, Machine.step, Option.bind_some, Machine.initial, Machine.after,
    step_start hpick]
  rfl

/-- The task blocks itself while it runs, and returns as blocked. -/
theorem block_lasts_lone :
    Machine.initial.after [.call (.create 1 0), .start] = some loneMachine ∧
      loneMachine.step (.call (.block 1)) = some loneBlocked ∧
      (0 : Fin maxTasks) ∉ loneBlocked.started [.finish .blocked, .start] := by
  have hfind : loneMachine.state.find 1 = some 0 := by decide +kernel
  have hblock : (loneMachine.state.block 1).1 = true := by decide +kernel
  refine ⟨loneMachine_after, rfl, block_lasts hfind hblock rfl
    ⟨fun result h _ _ => ?_, fun _ _ => ⟨(fun _ h => nomatch h), fun _ _ => trivial⟩⟩
    ⟨⟨(fun h => nomatch h.1), fun h => nomatch h⟩,
      fun _ _ => ⟨⟨(fun h => nomatch h.1), fun h => nomatch h⟩, fun _ _ => trivial⟩⟩⟩
  cases h
  exact .inl rfl

/-- The task blocks itself while it runs, returns as ready, and is started again. -/
theorem block_overwritten :
    Machine.initial.after [.call (.create 1 0), .start] = some loneMachine ∧
      loneMachine.state.find 1 = some 0 ∧ (loneMachine.state.block 1).1 = true ∧
      loneMachine.step (.call (.block 1)) = some loneBlocked ∧
      Throughout (NotReleased 1 0) loneBlocked [.finish .ready, .start] ∧
      (0 : Fin maxTasks) ∈ loneBlocked.started [.finish .ready, .start] :=
  ⟨loneMachine_after, by decide +kernel, by decide +kernel, rfl,
    ⟨⟨(fun h => nomatch h.1), fun h => nomatch h⟩,
      fun _ _ => ⟨⟨(fun h => nomatch h.1), fun h => nomatch h⟩, fun _ _ => trivial⟩⟩,
    by decide +kernel⟩

end ShirleysOS.Scheduler
