import ShirleysOS.Process.SchedulerRuns

/-!
# The identifiers of tasks

`create` counts the tasks in 32 bits and does not look whether a task still has the number that it
hands out. So two tasks get one identifier exactly when the counter has come round to a task that
is still there, which takes as many tasks as there are identifiers.
-/

namespace ShirleysOS.Scheduler

variable {m m' : Machine} {s : State} {i j : Fin maxTasks} {e : Event} {events : List Event}

/-- Identifiers tell tasks apart, and a call with an identifier acts on the task that has it. -/
structure State.Unique (s : State) : Prop where
  distinct : ∀ i j, (s.tasks i).id ≠ invalidTask → (s.tasks i).id = (s.tasks j).id → i = j
  found : ∀ i, (s.tasks i).id ≠ invalidTask → s.find (s.tasks i).id = some i

/-- The slot of the task that an event makes. -/
def Machine.makes (m : Machine) : Event → Option (Fin maxTasks)
  | .call (.create entry _) => if entry = 0 then none else m.state.vacant
  | _ => none

/-- How many tasks a run has made, and how many of them before the one that is in a slot. -/
structure Serials where
  made : ℕ
  before : Fin maxTasks → ℕ

def Serials.next (n : Serials) (m : Machine) (e : Event) : Serials :=
  match m.makes e with
  | none => n
  | some i => ⟨n.made + 1, Function.update n.before i n.made⟩

/-- No task is made a multiple of `2 ^ 32 - 1` tasks after one that is still in the table. -/
def Spread : Serials → Machine → List Event → Prop
  | _, _, [] => True
  | n, m, e :: events =>
    (∀ i, m.makes e = some i → ∀ j, (m.state.tasks j).id ≠ invalidTask →
      ¬2 ^ 32 - 1 ∣ n.made - n.before j) ∧
    ∀ m', m.step e = some m' → Spread (n.next m e) m' events

/-- No task has the identifier that the event hands out. -/
def Fresh (m : Machine) (e : Event) : Prop :=
  ∀ i, m.makes e = some i → ∀ j, (m.state.tasks j).id ≠ m.state.upcoming

theorem State.Unique.of_distinct
    (h : ∀ i j, (s.tasks i).id ≠ invalidTask → (s.tasks i).id = (s.tasks j).id → i = j) :
    s.Unique := by
  refine ⟨h, fun i hi => ?_⟩
  rw [State.find, if_neg hi]
  obtain ⟨j, hj⟩ := Option.isSome_iff_exists.mp
    (Fin.isSome_find?_of_eq_true (p := fun j => decide ((s.tasks j).id = (s.tasks i).id)) (i := i)
      (decide_eq_true rfl))
  rw [hj, h i j hi (of_decide_eq_true (Fin.eq_true_of_find?_eq_some hj)).symm]

/-- What a step does to the identifiers: `create` puts one into a vacant slot, and a task that
finishes takes one away. -/
theorem Step.ids (h : Step m e m') :
    (∃ i, m.makes e = some i ∧ m.state.vacant = some i ∧
        (m'.state.tasks i).id = m.state.upcoming ∧
        (∀ j, j ≠ i → m'.state.tasks j = m.state.tasks j) ∧
        m'.state.nextId = m.state.upcoming + 1) ∨
      (m.makes e = none ∧ m'.state.nextId = m.state.nextId ∧
        ∀ j, (m'.state.tasks j).id = (m.state.tasks j).id ∨
          (m'.state.tasks j).id = invalidTask) := by
  cases h with
  | @call call _ heffect =>
    cases heffect with
    | nothing hnot =>
      refine .inr ⟨?_, rfl, fun _ => .inl rfl⟩
      cases call with
      | create entry context =>
        rcases hnot entry context rfl with hzero | hnone
        · exact if_pos hzero
        · rw [Machine.makes, hnone, ite_self]
      | block id => rfl
      | wake id => rfl
    | created hentry hi =>
      exact .inl ⟨_, (if_neg hentry).trans hi, hi, congrArg Task.id put_tasks_self,
        fun _ hj => put_tasks_of_ne hj, rfl⟩
    | blocked hi => exact .inr ⟨rfl, rfl, fun _ => .inl setState_id⟩
    | woken hi hwoken => exact .inr ⟨rfl, rfl, fun _ => .inl setState_id⟩
  | idle hnone hpick => exact .inr ⟨rfl, rfl, fun _ => .inl rfl⟩
  | start hnone hpick => exact .inr ⟨rfl, rfl, fun _ => .inl setState_id⟩
  | @finish i result hi =>
    refine .inr ⟨rfl, by cases result <;> rfl, fun j => ?_⟩
    -- only a task that has finished leaves the table
    cases result with
    | finished =>
      by_cases hj : j = i
      · obtain rfl := hj
        exact .inr (congrArg Task.id put_tasks_self)
      · exact .inl (congrArg Task.id (put_tasks_of_ne hj))
    | blocked => exact .inl setState_id
    | ready => exact .inl setState_id
    | running => exact .inl setState_id

/-- A step keeps identifiers apart when it does not hand out one that a task has, and only then. -/
theorem Step.unique_iff (h : Step m e m') (hunique : m.state.Unique) :
    m'.state.Unique ↔ Fresh m e := by
  obtain ⟨i, hmakes, hi, hid, hother, -⟩ | ⟨hnone, -, hids⟩ := h.ids
  · have hne {j : Fin maxTasks} (hj : (m.state.tasks j).id ≠ invalidTask) : j ≠ i := by
      rintro rfl
      exact hj (vacant_eq_some hi)
    constructor
    · intro hunique' _ _ j hj
      have hji : j ≠ i := hne (hj ▸ upcoming_ne)
      refine hji (hunique'.distinct j i ?_ ?_)
      · rw [hother j hji, hj]
        exact upcoming_ne
      · rw [hother j hji, hj, hid]
    · intro hfresh
      have hnew := hfresh i hmakes
      refine .of_distinct fun j k hj hjk => ?_
      by_cases hji : j = i <;> by_cases hki : k = i
      · rw [hji, hki]
      · rw [hji, hid, hother k hki] at hjk
        exact absurd hjk.symm (hnew k)
      · rw [hki, hid, hother j hji] at hjk
        exact absurd hjk (hnew j)
      · rw [hother j hji] at hj hjk
        rw [hother k hki] at hjk
        exact hunique.distinct j k hj hjk
  · refine iff_of_true (.of_distinct fun j k hj hjk => ?_) fun i hi => by rw [hnone] at hi; cases hi
    have hj' := (hids j).resolve_right hj
    have hk' := (hids k).resolve_right (hjk ▸ hj)
    exact hunique.distinct j k (hj' ▸ hj) (hj' ▸ hk' ▸ hjk)

theorem fresh_of_stuck (h : m.step e = none) : Fresh m e := by
  cases e with
  | call call => cases h
  | start => exact fun i hi => nomatch hi
  | finish result => exact fun i hi => nomatch hi

/-- Identifiers are kept apart all the time when no step hands out one that a task has. -/
theorem after_unique_iff (h : m.state.Unique) :
    (∀ k m', m.after (events.take k) = some m' → m'.state.Unique) ↔ Throughout Fresh m events := by
  induction events generalizing m with
  | nil =>
    refine iff_of_true (fun k m' hk => ?_) trivial
    rw [List.take_nil] at hk
    exact Option.some.inj hk ▸ h
  | cons e events ih =>
    cases hstep : m.step e with
    | none =>
      refine iff_of_true (fun k m' hk => ?_) ⟨fresh_of_stuck hstep, fun m' h => ?_⟩
      · cases k with
        | zero => exact Option.some.inj hk ▸ h
        | succ k =>
          rw [List.take_succ_cons, Machine.after, hstep] at hk
          cases hk
      · rw [hstep] at h
        cases h
    | some m₁ =>
      -- one step, and then the run from where it leads
      have hiff := (step_cases hstep).unique_iff h
      have hlater {k : ℕ} : m.after ((e :: events).take (k + 1)) = m₁.after (events.take k) := by
        rw [List.take_succ_cons, Machine.after, hstep, Option.bind_some]
      constructor
      · intro hall
        have hunique := hall 1 m₁ (by rw [hlater, List.take_zero, Machine.after])
        refine ⟨hiff.mp hunique, fun m' h => ?_⟩
        obtain rfl := Option.some.inj (hstep.symm.trans h)
        exact (ih hunique).mp fun k m' hk => hall (k + 1) m' (hlater.trans hk)
      · rintro ⟨hfresh, hrest⟩ k m' hk
        cases k with
        | zero => exact Option.some.inj hk ▸ h
        | succ k => exact (ih (hiff.mpr hfresh)).mpr (hrest m₁ hstep) k m' (hlater.symm.trans hk)

/-! ## The counter of a run -/

/-- The counter and the identifiers of the tasks that are there, after the tasks of a run. -/
structure Numbered (n : Serials) (s : State) : Prop where
  upcoming : s.upcoming.toNat = n.made % (2 ^ 32 - 1) + 1
  ids : ∀ i, (s.tasks i).id ≠ invalidTask → n.before i < n.made ∧
    (s.tasks i).id.toNat = n.before i % (2 ^ 32 - 1) + 1

/-- The counter leaves out 0. -/
theorem upcoming_succ {s' : State} {k : ℕ} (h : s.upcoming.toNat = k % (2 ^ 32 - 1) + 1)
    (hnext : s'.nextId = s.upcoming + 1) : s'.upcoming.toNat = (k + 1) % (2 ^ 32 - 1) + 1 := by
  have hsum : s'.nextId.toNat = (k % (2 ^ 32 - 1) + 2) % 2 ^ 32 := by
    rw [hnext, UInt32.toNat_add, h]
    rfl
  rw [State.upcoming]
  split
  · next hzero =>
    rw [hzero] at hsum ⊢
    change 0 = _ at hsum
    change 1 = _
    omega
  · next hne =>
    have hpos : s'.nextId.toNat ≠ 0 := fun hzero => hne (UInt32.toNat_inj.mp hzero)
    omega

theorem Numbered.step {n : Serials} (h : Numbered n m.state) (hstep : Step m e m') :
    Numbered (n.next m e) m'.state := by
  obtain ⟨i, hmakes, -, hid, hother, hnext⟩ | ⟨hnone, hnext, hids⟩ := hstep.ids
  · rw [Serials.next, hmakes]
    refine ⟨upcoming_succ h.upcoming hnext, fun j hj => ?_⟩
    dsimp only
    by_cases hji : j = i
    · rw [hji, Function.update_self, hid]
      exact ⟨Nat.lt_succ_self _, h.upcoming⟩
    · rw [Function.update_of_ne hji]
      rw [hother j hji] at hj ⊢
      exact ⟨(h.ids j hj).1.trans (Nat.lt_succ_self _), (h.ids j hj).2⟩
  · rw [Serials.next, hnone]
    refine ⟨?_, fun j hj => ?_⟩
    · rw [State.upcoming, hnext]
      exact h.upcoming
    · have hsame := (hids j).resolve_right hj
      rw [hsame] at hj ⊢
      exact h.ids j hj

/-- The identifier that is handed out is that of a task made so many tasks before. -/
theorem Numbered.upcoming_iff {n : Serials} (h : Numbered n s) (hj : (s.tasks j).id ≠ invalidTask) :
    (s.tasks j).id = s.upcoming ↔ 2 ^ 32 - 1 ∣ n.made - n.before j := by
  obtain ⟨hbefore, hid⟩ := h.ids j hj
  rw [← UInt32.toNat_inj, hid, h.upcoming]
  omega

theorem Numbered.fresh_iff {n : Serials} (h : Numbered n m.state) :
    Fresh m e ↔ ∀ i, m.makes e = some i → ∀ j, (m.state.tasks j).id ≠ invalidTask →
      ¬2 ^ 32 - 1 ∣ n.made - n.before j := by
  refine forall₃_congr fun i hi j => ?_
  by_cases hj : (m.state.tasks j).id = invalidTask
  · simp [hj, upcoming_ne.symm]
  · simp [hj, h.upcoming_iff hj]

theorem Numbered.throughout_iff {n : Serials} (h : Numbered n m.state) :
    Throughout Fresh m events ↔ Spread n m events := by
  induction events generalizing n m with
  | nil => exact Iff.rfl
  | cons e events ih =>
    exact and_congr h.fresh_iff (forall₂_congr fun m' hstep => ih (h.step (step_cases hstep)))

/-- Nothing has been made. -/
def Serials.zero : Serials := ⟨0, fun _ => 0⟩

theorem numbered_initial : Numbered .zero State.initial :=
  ⟨rfl, fun _ h => absurd rfl h⟩

theorem unique_initial : State.initial.Unique := .of_distinct fun _ _ h => absurd rfl h

/-- **Identifiers tell tasks apart** in every state that is reached exactly when no task is made a
multiple of `2 ^ 32 - 1` tasks after one that is still in the table. -/
theorem ids_unique_iff (events : List Event) :
    (∀ k m, Machine.initial.after (events.take k) = some m → m.state.Unique) ↔
      Spread .zero Machine.initial events :=
  (after_unique_iff unique_initial).trans numbered_initial.throughout_iff

/-! ## How long identifiers are fresh -/

/-- The event is a call of `create`. -/
def Event.isCreate : Event → Bool
  | .call (.create _ _) => true
  | _ => false

theorem next_made_le (n : Serials) (m : Machine) (e : Event) :
    (n.next m e).made ≤ n.made + [e].countP Event.isCreate := by
  rw [Serials.next]
  split
  · exact Nat.le_add_right _ _
  · next i hi =>
    match e, hi with
    | .call (.create _ _), _ => exact le_rfl

/-- Identifiers are fresh as long as `create` is called less often than there are numbers. -/
theorem Numbered.throughout {n : Serials} (h : Numbered n m.state)
    (hn : n.made + events.countP Event.isCreate < 2 ^ 32) : Throughout Fresh m events := by
  induction events generalizing m n with
  | nil => trivial
  | cons e events ih =>
    rw [← List.singleton_append, List.countP_append] at hn
    refine ⟨h.fresh_iff.mpr fun i hi j hj hdvd => ?_, fun m' hstep => ?_⟩
    · have hone : [e].countP Event.isCreate = 1 := by
        match e, hi with
        | .call (.create _ _), _ => rfl
      have hbefore := (h.ids j hj).1
      exact absurd (Nat.le_of_dvd (by omega) hdvd) (by omega)
    · have hmade := next_made_le n m e
      exact ih (h.step (step_cases hstep)) (by omega)

/-- **Identifiers tell tasks apart in every state of a run that makes fewer than `2 ^ 32` tasks**,
however many of them have finished and left their slots to others. -/
theorem ids_unique_bounded (events : List Event) (h : events.countP Event.isCreate < 2 ^ 32) :
    ∀ k m, Machine.initial.after (events.take k) = some m → m.state.Unique :=
  (after_unique_iff unique_initial).mpr
    (numbered_initial.throughout ((Nat.zero_add _).trans_lt h))

/-- A task finishes, and another one takes its slot. -/
theorem ids_unique_bounded_reused :
    let events : List Event :=
      [.call (.create 1 0), .start, .finish .finished, .call (.create 1 0)]
    events.countP Event.isCreate = 2 ∧
      ∀ k m, Machine.initial.after (events.take k) = some m → m.state.Unique :=
  ⟨rfl, ids_unique_bounded _ (by decide)⟩

/-! ## The counter comes round -/

/-- The table with the first task only. -/
def firstOnly : Fin maxTasks → Task :=
  Function.update (fun _ => .none) firstSlot ⟨1, 1, 0, .ready⟩

/-- The state in which the first task is ready and no other task is there. -/
def lasting (n : UInt32) (cursor : Fin maxTasks) : State := ⟨firstOnly, n, invalidTask, cursor⟩

/-- A task is made, runs and finishes, and the first task has its turn. -/
def passing : List Event :=
  [.call (.create 1 0), .start, .finish .finished, .start, .finish .ready]

theorem lasting_vacant (n : UInt32) (cursor : Fin maxTasks) :
    (lasting n cursor).vacant = some 1 := by
  have hclosed : (lasting 0 0).vacant = some 1 := by decide +kernel
  exact hclosed

/-- A task that is made, runs and finishes leaves the counter and the cursor behind. -/
theorem finishRun_added {entry context : ℕ} (h : s.tasks i = .none) :
    ((s.added entry context i).startNext i).finishRun i .finished =
      ⟨s.tasks, s.upcoming + 1, invalidTask, i + 1⟩ := by
  refine State.ext ?_ rfl rfl rfl
  change Function.update (Function.update (Function.update s.tasks i _) i _) i .none = s.tasks
  rw [Function.update_idem, Function.update_idem, ← h, Function.update_eq_self]

theorem after_second {n : UInt32} (hn : n ≠ invalidTask) :
    Machine.after ⟨(lasting n 1).added 1 0 1, none⟩ [.start, .finish .finished] =
      some ⟨lasting (n + 1) 2, none⟩ := by
  have hupcoming : (lasting n 1).upcoming = n := if_neg hn
  have hpick : ((lasting n 1).added 1 0 1).pick = some 1 := pick_added (s := lasting n 1)
  rw [after_run hpick, finishRun_added rfl, hupcoming]
  rfl

theorem after_first (n : UInt32) :
    Machine.after ⟨lasting n 2, none⟩ [.start, .finish .ready] = some ⟨lasting n 1, none⟩ := by
  have hpick : (lasting n 2).pick = some 0 := by
    have hclosed : (lasting 0 2).pick = some 0 := by decide +kernel
    exact hclosed
  rw [after_run hpick, finishRun_startNext rfl]
  rfl

/-- The counter goes up by one, and everything else is as before. -/
theorem after_passing {n : UInt32} (hn : n ≠ invalidTask) :
    Machine.after ⟨lasting n 1, none⟩ passing = some ⟨lasting (n + 1) 1, none⟩ := by
  have hpassing : passing = [.call (.create 1 0)] ++
    ([.start, .finish .finished] ++ [.start, .finish .ready]) := rfl
  rw [hpassing, after_append, after_create Nat.one_ne_zero (lasting_vacant n 1),
    Option.bind_some, after_append, after_second hn, Option.bind_some, after_first]

/-- The counter after `k` tasks have come and gone. -/
theorem after_passings {k : ℕ} (hk : k ≤ 2 ^ 32 - 2) :
    Machine.after ⟨lasting 2 1, none⟩ (List.replicate k passing).flatten =
      some ⟨lasting (UInt32.ofNat (k + 2)) 1, none⟩ := by
  induction k with
  | zero => rfl
  | succ k ih =>
    have hne : UInt32.ofNat (k + 2) ≠ invalidTask := by
      intro hzero
      have hvalue := congrArg UInt32.toNat hzero
      rw [UInt32.toNat_ofNat', Nat.mod_eq_of_lt (by omega)] at hvalue
      exact absurd hvalue (Nat.succ_ne_zero _)
    rw [List.replicate_succ', List.flatten_append, List.flatten_singleton, after_append,
      ih (by omega), Option.bind_some, after_passing hne, ← UInt32.ofNat_one, ← UInt32.ofNat_add]

/-- The first task is made and has a turn, `2 ^ 32 - 2` tasks come and go, and one more is made. -/
def longRun : List Event :=
  [.call (.create 1 0), .start, .finish .ready] ++
    ((List.replicate (2 ^ 32 - 2) passing).flatten ++ [.call (.create 1 0)])

theorem after_initial :
    Machine.initial.after [.call (.create 1 0), .start, .finish .ready] =
      some ⟨lasting 2 1, none⟩ := by
  have hvacant : State.initial.vacant = some 0 := by decide +kernel
  have hpick : (State.initial.added 1 0 0).pick = some 0 := pick_added (s := .initial)
  rw [← List.singleton_append, after_append, Machine.initial,
    after_create Nat.one_ne_zero hvacant, Option.bind_some, after_run hpick,
    finishRun_startNext rfl]
  rfl

/-- The last task of that run has the identifier of the first one, which is still there. -/
theorem ids_repeat :
    ∃ m, Machine.initial.after longRun = some m ∧ (m.state.tasks 0).id = 1 ∧
      (m.state.tasks 1).id = 1 ∧ m.state.find 1 = some 0 := by
  have hround : UInt32.ofNat (2 ^ 32 - 2 + 2) = 0 := by decide +kernel
  refine ⟨⟨(lasting 0 1).added 1 0 1, none⟩, ?_, rfl, rfl, by decide +kernel⟩
  rw [longRun, after_append, after_initial, Option.bind_some, after_append, after_passings le_rfl,
    Option.bind_some, hround, after_create Nat.one_ne_zero (lasting_vacant 0 1)]

end ShirleysOS.Scheduler
