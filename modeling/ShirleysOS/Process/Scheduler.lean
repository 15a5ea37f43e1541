import Mathlib.Algebra.Ring.Nat
import Mathlib.Data.Fin.Tuple.Basic
import Mathlib.Algebra.Group.Fin.Basic
import Mathlib.Logic.Function.Basic

/-!
# The scheduler

A table of 64 tasks, which `run_next` goes through in turn. The entry of a task runs to its end
inside `run_next` and says what becomes of the task; while it runs it may create, block and wake
tasks, itself among them. So `run_next` is two steps of the scheduler with any calls between them.
Source: `kernel/process/scheduler.cpp`.
-/

namespace ShirleysOS.Scheduler

/-- `TaskState`. -/
inductive TaskState
  | ready
  | running
  | blocked
  | finished
deriving DecidableEq, Repr

/-- `invalid_task`. -/
def invalidTask : UInt32 := 0

/-- `max_tasks`. -/
abbrev maxTasks : ℕ := 64

/-- The first two slots of the table. -/
abbrev firstSlot : Fin maxTasks := 0

abbrev secondSlot : Fin maxTasks := 1

/-- `Task`, with the entry and its context as addresses. -/
structure Task where
  id : UInt32
  entry : ℕ
  context : ℕ
  state : TaskState
deriving DecidableEq, Repr

/-- A slot without a task. -/
def Task.none : Task := ⟨invalidTask, 0, 0, .finished⟩

/-- The slot holds a task that `run_next` may start. -/
def Task.Runnable (t : Task) : Prop := t.id ≠ invalidTask ∧ t.state = .ready

instance (t : Task) : Decidable t.Runnable := inferInstanceAs (Decidable (_ ∧ _))

/-- The variables of the scheduler. -/
@[ext]
structure State where
  tasks : Fin maxTasks → Task
  nextId : UInt32
  active : UInt32
  cursor : Fin maxTasks

/-- `initialize`. -/
def State.initial : State := ⟨fun _ => .none, 1, invalidTask, 0⟩

namespace State

variable (s : State)

/-- The table with another task in a slot. -/
def put (i : Fin maxTasks) (t : Task) : State := { s with tasks := Function.update s.tasks i t }

/-- The table with a task in another state. -/
def setState (i : Fin maxTasks) (state : TaskState) : State :=
  s.put i { s.tasks i with state }

/-- `find`. -/
def find (id : UInt32) : Option (Fin maxTasks) :=
  if id = invalidTask then none else Fin.find? fun i => (s.tasks i).id = id

/-- The slot that `create` takes. -/
def vacant : Option (Fin maxTasks) := Fin.find? fun i => (s.tasks i).id = invalidTask

/-- The identifier that `create` hands out: the counter leaves out `invalid_task`. -/
def upcoming : UInt32 := if s.nextId = invalidTask then s.nextId + 1 else s.nextId

/-- `create`. -/
def create (entry context : ℕ) : UInt32 × State :=
  if entry = 0 then (invalidTask, s)
  else
    match s.vacant with
    | none => (invalidTask, s)
    | some i =>
      (s.upcoming, { s.put i ⟨s.upcoming, entry, context, .ready⟩ with nextId := s.upcoming + 1 })

/-- `block`. -/
def block (id : UInt32) : Bool × State :=
  match s.find id with
  | none => (false, s)
  | some i =>
    if (s.tasks i).state = .finished then (false, s) else (true, s.setState i .blocked)

/-- `wake`. -/
def wake (id : UInt32) : Bool × State :=
  match s.find id with
  | none => (false, s)
  | some i => if (s.tasks i).state ≠ .blocked then (false, s) else (true, s.setState i .ready)

/-- The loop of `run_next`: the first slot from the cursor on that holds a ready task. -/
def pick : Option (Fin maxTasks) :=
  (Fin.find? fun checked => (s.tasks (s.cursor + checked)).Runnable).map (s.cursor + ·)

/-- `run_next` up to the call of the entry. -/
def startNext (i : Fin maxTasks) : State :=
  { s.setState i .running with cursor := i + 1, active := (s.tasks i).id }

/-- `run_next` after the entry has returned. -/
def finishRun (i : Fin maxTasks) (result : TaskState) : State :=
  let s := { s with active := invalidTask }
  match result with
  | .finished => s.put i .none
  | .blocked => s.setState i .blocked
  | _ => s.setState i .ready

end State

/-! ## Calls and runs -/

/-- A call that a task may make. -/
inductive Call
  | create (entry context : ℕ)
  | block (id : UInt32)
  | wake (id : UInt32)

def State.call (s : State) : Call → State
  | .create entry context => (s.create entry context).2
  | .block id => (s.block id).2
  | .wake id => (s.wake id).2

/-- `run_next`, when the entry makes these calls and returns this state. -/
def State.runNext (s : State) (calls : List Call) (result : TaskState) : Bool × State :=
  match s.pick with
  | none => (false, s)
  | some i => (true, (calls.foldl State.call (s.startNext i)).finishRun i result)

/-- What happens to the scheduler: a call, by a task or from outside, and the two halves of
`run_next`. -/
inductive Event
  | call (call : Call)
  | start
  | finish (result : TaskState)

/-- The scheduler, and the slot of the task whose entry is running. -/
structure Machine where
  state : State
  running : Option (Fin maxTasks)

def Machine.initial : Machine := ⟨.initial, none⟩

/-- One event. A task does not call `run_next`, and only a task that runs returns. -/
def Machine.step (m : Machine) : Event → Option Machine
  | .call call => some { m with state := m.state.call call }
  | .start =>
    match m.running with
    | some _ => none
    | none =>
      match m.state.pick with
      | none => some m
      | some i => some ⟨m.state.startNext i, some i⟩
  | .finish result =>
    match m.running with
    | none => none
    | some i => some ⟨m.state.finishRun i result, none⟩

/-- The machine after some events, if they can happen. -/
def Machine.after (m : Machine) : List Event → Option Machine
  | [] => some m
  | e :: events => (m.step e).bind fun m' => m'.after events

/-- The slot of the task that an event starts. -/
def Machine.starts (m : Machine) : Event → Option (Fin maxTasks)
  | .start => if m.running = none then m.state.pick else none
  | _ => none

/-- The slots of the tasks that are started, in order. -/
def Machine.started (m : Machine) : List Event → List (Fin maxTasks)
  | [] => []
  | e :: events => (m.starts e).toList ++ ((m.step e).map fun m' => m'.started events).getD []

/-- Whenever an event happens, the machine and the event satisfy `P`. -/
def Throughout (P : Machine → Event → Prop) (m : Machine) : List Event → Prop
  | [] => True
  | e :: events => P m e ∧ ∀ m', m.step e = some m' → Throughout P m' events

variable {m m' : Machine} {s : State} {i j : Fin maxTasks} {e : Event} {events : List Event}

theorem after_append (events events' : List Event) :
    m.after (events ++ events') = (m.after events).bind fun m' => m'.after events' := by
  induction events generalizing m with
  | nil => rfl
  | cons e events ih => simp only [List.cons_append, Machine.after, Option.bind_assoc, ih]

theorem after_calls (calls : List Call) :
    m.after (calls.map .call) = some { m with state := calls.foldl State.call m.state } := by
  induction calls generalizing m with
  | nil => rfl
  | cons call calls ih => exact ih

theorem step_start (hi : s.pick = some i) :
    Machine.step ⟨s, none⟩ .start = some ⟨s.startNext i, some i⟩ := by
  unfold Machine.step
  rw [hi]

/-- **`run_next` is a start, calls and a finish.** -/
theorem after_runNext (calls : List Call) (result : TaskState) (hi : s.pick = some i) :
    Machine.after ⟨s, none⟩ (.start :: (calls.map .call ++ [.finish result])) =
      some ⟨(s.runNext calls result).2, none⟩ := by
  have hend : (s.runNext calls result).2 =
      (calls.foldl State.call (s.startNext i)).finishRun i result := by
    unfold State.runNext
    rw [hi]
  rw [hend, Machine.after, step_start hi, Option.bind_some, after_append, after_calls,
    Option.bind_some]
  rfl

theorem after_run {result : TaskState} (hi : s.pick = some i) :
    Machine.after ⟨s, none⟩ [.start, .finish result] =
      some ⟨(s.startNext i).finishRun i result, none⟩ := by
  rw [Machine.after, step_start hi, Option.bind_some]
  rfl

/-! ## The table -/

@[simp] theorem put_tasks_self {t : Task} : (s.put i t).tasks i = t := Function.update_self ..

theorem put_tasks_of_ne {t : Task} (h : j ≠ i) : (s.put i t).tasks j = s.tasks j :=
  Function.update_of_ne h ..

@[simp] theorem setState_id {state : TaskState} :
    ((s.setState i state).tasks j).id = (s.tasks j).id := by
  by_cases h : j = i
  · rw [h, State.setState, put_tasks_self]
  · rw [State.setState, put_tasks_of_ne h]

theorem vacant_eq_some (h : s.vacant = some i) : (s.tasks i).id = invalidTask := by
  simpa using Fin.eq_true_of_find?_eq_some h

theorem find_eq_some {id : UInt32} (h : s.find id = some i) :
    id ≠ invalidTask ∧ (s.tasks i).id = id := by
  unfold State.find at h
  split at h
  · cases h
  · next hid => exact ⟨hid, by simpa using Fin.eq_true_of_find?_eq_some h⟩

/-- A task that runs and returns as ready leaves the cursor behind. -/
theorem finishRun_startNext (h : (s.tasks i).state = .ready) :
    (s.startNext i).finishRun i .ready = ⟨s.tasks, s.nextId, invalidTask, i + 1⟩ := by
  refine State.ext ?_ rfl rfl rfl
  change Function.update (Function.update s.tasks i _) i
    { Function.update s.tasks i { s.tasks i with state := .running } i with state := .ready } = _
  rw [Function.update_idem, Function.update_self, ← h, Function.update_eq_self]

/-- The table after a new task has been put into a slot. -/
def State.added (s : State) (entry context : ℕ) (i : Fin maxTasks) : State :=
  { s.put i ⟨s.upcoming, entry, context, .ready⟩ with nextId := s.upcoming + 1 }

theorem upcoming_ne : s.upcoming ≠ invalidTask := by
  unfold State.upcoming
  split
  · next h =>
    rw [h]
    decide
  · assumption

theorem after_create {entry context : ℕ} (hentry : entry ≠ 0) (hi : s.vacant = some i) :
    Machine.after ⟨s, none⟩ [.call (.create entry context)] =
      some ⟨s.added entry context i, none⟩ := by
  have hcall : s.call (.create entry context) = s.added entry context i := by
    change (s.create entry context).2 = _
    rw [State.create, if_neg hentry, hi]
    rfl
  rw [← hcall]
  rfl

/-- What a call can do. -/
inductive Effect (s : State) : Call → State → Prop
  | nothing {call : Call}
    (hnot : ∀ entry context, call = .create entry context → entry = 0 ∨ s.vacant = none) :
    Effect s call s
  | created {entry context : ℕ} {i : Fin maxTasks} (hentry : entry ≠ 0)
    (hi : s.vacant = some i) : Effect s (.create entry context) (s.added entry context i)
  | blocked {id : UInt32} {i : Fin maxTasks} (hi : s.find id = some i) :
    Effect s (.block id) (s.setState i .blocked)
  | woken {id : UInt32} {i : Fin maxTasks} (hi : s.find id = some i)
    (hwoken : (s.wake id).1 = true) : Effect s (.wake id) (s.setState i .ready)

theorem effect_call (s : State) (call : Call) : Effect s call (s.call call) := by
  cases call with
  | create entry context =>
    change Effect s _ (s.create entry context).2
    unfold State.create
    split
    · next hentry =>
      exact .nothing fun entry' context' h => by
        cases h
        exact .inl hentry
    next hentry =>
    split
    · next hnone => exact .nothing fun _ _ _ => .inr hnone
    · next i hi => exact .created hentry hi
  | block id =>
    change Effect s _ (s.block id).2
    unfold State.block
    split
    · exact .nothing fun _ _ h => nomatch h
    next i hi =>
    split
    · exact .nothing fun _ _ h => nomatch h
    · exact .blocked hi
  | wake id =>
    -- `wake` changes the table only when it returns true
    have hwake : (s.wake id).1 = true ∨ (s.wake id).2 = s := by
      unfold State.wake
      split
      · exact .inr rfl
      split
      · exact .inr rfl
      · exact .inl rfl
    change Effect s _ (s.wake id).2
    rcases hwake with hwoken | hsame
    · have hstate : ∃ i, s.find id = some i ∧ (s.wake id).2 = s.setState i .ready := by
        unfold State.wake at hwoken ⊢
        split at hwoken
        · cases hwoken
        next i hi =>
        split at hwoken
        · cases hwoken
        next hblocked =>
        exact ⟨i, hi, congrArg Prod.snd (if_neg hblocked)⟩
      obtain ⟨i, hi, hstate⟩ := hstate
      rw [hstate]
      exact .woken hi hwoken
    · rw [hsame]
      exact .nothing fun _ _ h => nomatch h

/-- What an event can do. -/
inductive Step (m : Machine) : Event → Machine → Prop
  | call {call : Call} {s : State} (h : Effect m.state call s) :
    Step m (.call call) { m with state := s }
  | idle (hnone : m.running = none) (hpick : m.state.pick = none) : Step m .start m
  | start {i : Fin maxTasks} (hnone : m.running = none) (hpick : m.state.pick = some i) :
    Step m .start ⟨m.state.startNext i, some i⟩
  | finish {i : Fin maxTasks} {result : TaskState} (hi : m.running = some i) :
    Step m (.finish result) ⟨m.state.finishRun i result, none⟩

theorem step_cases (h : m.step e = some m') : Step m e m' := by
  cases e with
  | call call =>
    cases h
    exact .call (effect_call _ _)
  | start =>
    unfold Machine.step at h
    dsimp only at h
    split at h
    · cases h
    next hnone =>
    split at h
    · next hpick =>
      cases h
      exact .idle hnone hpick
    · next i hpick =>
      cases h
      exact .start hnone hpick
  | finish result =>
    unfold Machine.step at h
    dsimp only at h
    split at h
    · cases h
    · next i hi =>
      cases h
      exact .finish hi

theorem starts_eq_none (h : m.step e = none) : m.starts e = none := by
  cases e with
  | call call => cases h
  | finish result => rfl
  | start =>
    unfold Machine.step at h
    dsimp only at h
    split at h
    · next j hj =>
      have hbusy : ¬m.running = none := by
        rw [hj]
        exact fun h => nomatch h
      exact if_neg hbusy
    · split at h <;> cases h

/-! ## Turns -/

/-- How far a slot is ahead of the cursor. -/
def State.ahead (s : State) (i : Fin maxTasks) : ℕ := (i - s.cursor).val

/-- **Which task is next**: a ready one, and no ready one is less far ahead. -/
theorem pick_spec (h : s.pick = some i) :
    (s.tasks i).Runnable ∧ ∀ j, (s.tasks j).Runnable → s.ahead i ≤ s.ahead j := by
  obtain ⟨checked, hchecked, rfl⟩ := Option.map_eq_some_iff.mp h
  obtain ⟨hrunnable, hfirst⟩ := Fin.find?_eq_some_iff.mp hchecked
  refine ⟨of_decide_eq_true hrunnable, fun j hj => ?_⟩
  by_contra hless
  have hahead : s.ahead (s.cursor + checked) = checked.val := by
    rw [State.ahead, add_sub_cancel_left]
  have hj' : s.cursor + (j - s.cursor) = j := add_sub_cancel _ _
  have hnot := hfirst (j - s.cursor) (Fin.lt_def.mpr (by rw [← hahead]; exact Nat.not_le.mp hless))
  rw [hj'] at hnot
  exact of_decide_eq_false hnot hj

theorem ahead_injective (s : State) : Function.Injective s.ahead :=
  fun _ _ h => sub_left_injective (Fin.ext h)

/-- There is a next task when some task is ready. -/
theorem exists_pick (h : (s.tasks j).Runnable) : ∃ i, s.pick = some i := by
  have hj' : s.cursor + (j - s.cursor) = j := add_sub_cancel _ _
  have hsome : (Fin.find? fun checked =>
      decide (s.tasks (s.cursor + checked)).Runnable).isSome := by
    refine Fin.isSome_find?_of_eq_true (i := j - s.cursor) ?_
    rw [hj']
    exact decide_eq_true h
  obtain ⟨checked, hchecked⟩ := Option.isSome_iff_exists.mp hsome
  exact ⟨_, congrArg (Option.map (s.cursor + ·)) hchecked⟩

theorem pick_cursor (h : (s.tasks s.cursor).Runnable) : s.pick = some s.cursor := by
  obtain ⟨i, hi⟩ := exists_pick h
  have hle := (pick_spec hi).2 s.cursor h
  have hzero : s.ahead s.cursor = 0 := by
    rw [State.ahead, sub_self]
    rfl
  have hcursor : i = s.cursor := ahead_injective s (by omega)
  rw [hi, hcursor]

/-- A new task is the next one when it is where the cursor is. -/
theorem pick_added {entry context : ℕ} :
    (s.added entry context s.cursor).pick = some s.cursor := by
  refine pick_cursor (s := s.added entry context s.cursor) ?_
  change ((s.put s.cursor ⟨s.upcoming, entry, context, .ready⟩).tasks s.cursor).Runnable
  rw [put_tasks_self]
  exact ⟨upcoming_ne, rfl⟩

/-- A start moves the cursor behind the task that it starts. -/
theorem ahead_startNext (h : s.ahead i < s.ahead j) :
    (s.startNext i).ahead j + s.ahead i + 1 = s.ahead j := by
  have hi := (i - s.cursor).isLt
  have hj := (j - s.cursor).isLt
  unfold State.ahead at h ⊢
  change (j - (i + 1)).val + (i - s.cursor).val + 1 = (j - s.cursor).val
  simp only [Fin.val_sub, Fin.val_add, Fin.val_one, maxTasks] at h ⊢
  omega

end ShirleysOS.Scheduler
