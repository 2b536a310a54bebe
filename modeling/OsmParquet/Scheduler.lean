import Mathlib.Data.Nat.Notation
import Mathlib.Tactic.Common
import OsmParquet.Traces

/-!
The scheduler of the hosted updater: a lock and an alarm kept in storage, around a long request.

A run is started by the alarm or by a request to run now. Every handler is cut at its storage
operations: between two of them the object may crash, and no other event gets the turn. Other
events do get it while a run waits for the container. A crash takes the handlers with it and leaves
the storage. The alarm is not called again while a handler it has called is still waiting.
-/

namespace OsmParquet.Scheduler

open Traces

variable {α : Type}

/-! ### The stored state -/

def runIntervalMs : ℕ := 60000

structure SchedulerState (α : Type) where
  running : Bool
  lastStartedAtMs : Option ℕ
  lastFinishedAtMs : Option ℕ
  lastSummary : Option α
  lastError : Option String
  nextAlarmAtMs : Option ℕ

def emptyState : SchedulerState α := ⟨false, none, none, none, none, none⟩

structure NextAlarm where
  fireAtMs : ℕ
  delayMs : ℕ

/-- The delay stops at zero, as the subtraction does. -/
def nextAlarmAfterRun (runStartedAtMs nowMs intervalMs : ℕ) : NextAlarm where
  fireAtMs := runStartedAtMs + intervalMs
  delayMs := runStartedAtMs + intervalMs - nowMs

def canStartRun (state : SchedulerState α) : Bool := !state.running

/-- What the container answers. -/
inductive Reply (α : Type) where
  | ok (summary : α)
  | conflict
  | failed (status : ℕ) (text : String)
  | thrown (message : String)

def Reply.summary : Reply α → Option α
  | ok summary => some summary
  | _ => none

def Reply.errorMessage : Reply α → Option String
  | ok _ => none
  | conflict => some "updater container reported a run already in progress (409)"
  | failed status text => some s!"updater container returned {status}: {text}"
  | thrown message => some message

/-! ### The object -/

inductive Trigger where
  | alarm
  | request
deriving DecidableEq

/-- What `runOnce` holds while it waits. -/
structure Run (α : Type) where
  trigger : Trigger
  state : SchedulerState α
  startedAtMs : ℕ

def Run.fireAtMs (r : Run α) : ℕ :=
  (nextAlarmAfterRun r.startedAtMs r.startedAtMs runIntervalMs).fireAtMs

/-- The storage operation at which `runOnce` stands. -/
inductive Point (α : Type) where
  | getState (trigger : Trigger)
  | setRunning (run : Run α)
  | setAlarm (run : Run α)
  | setFinished (run : Run α) (reply : Reply α) (finishedAtMs : ℕ)

/-- Storage, the handlers of the live object, and whether the schedule was last started or
stopped. -/
structure UpdaterScheduler (α : Type) where
  stored : Option (SchedulerState α)
  alarm : Option ℕ
  now : ℕ
  turn : Option (Point α)
  waiting : List (Run α)
  started : Bool

def fresh (now : ℕ) : UpdaterScheduler α := ⟨none, none, now, none, [], false⟩

def getState (s : UpdaterScheduler α) : SchedulerState α := s.stored.getD emptyState

def running (s : UpdaterScheduler α) : Bool := (getState s).running

def handleStart (s : UpdaterScheduler α) : UpdaterScheduler α :=
  { s with alarm := s.alarm.or (some s.now), started := true }

def handleStop (s : UpdaterScheduler α) : UpdaterScheduler α :=
  { s with alarm := none, started := false }

/-- `runOnce`, one storage operation at a time. -/
def runOnce (s : UpdaterScheduler α) : Point α → UpdaterScheduler α
  | .getState trigger =>
    if canStartRun (getState s) then
      { s with turn := some (.setRunning ⟨trigger, getState s, s.now⟩) }
    else { s with turn := none }
  | .setRunning r =>
    { s with
      stored := some { r.state with running := true, lastStartedAtMs := some r.startedAtMs }
      turn := some (.setAlarm r) }
  | .setAlarm r =>
    { s with alarm := some r.fireAtMs, turn := none, waiting := s.waiting ++ [r] }
  | .setFinished r reply finishedAtMs =>
    { s with
      stored := some
        { running := false
          lastStartedAtMs := some r.startedAtMs
          lastFinishedAtMs := some finishedAtMs
          lastSummary := reply.summary.or r.state.lastSummary
          lastError := reply.errorMessage
          nextAlarmAtMs := some r.fireAtMs }
      turn := none }

inductive Event (α : Type) where
  | start
  | stop
  | run
  | fire
  | advance (ms : ℕ)
  | reply (i : ℕ) (r : Reply α)
  | resume
  | crash

/-- The alarm can be called: it is due, and no handler that it has called is still waiting. -/
def due (s : UpdaterScheduler α) : Bool :=
  s.alarm.any (· ≤ s.now) && s.waiting.all (·.trigger ≠ .alarm)

def step (s : UpdaterScheduler α) : Event α → Option (UpdaterScheduler α)
  | .start => if s.turn.isNone then some (handleStart s) else none
  | .stop => if s.turn.isNone then some (handleStop s) else none
  | .run => if s.turn.isNone then some { s with turn := some (.getState .request) } else none
  | .fire =>
    if s.turn.isNone && due s then some { s with alarm := none, turn := some (.getState .alarm) }
    else none
  | .advance ms => some { s with now := s.now + ms }
  | .reply i reply =>
    if s.turn.isNone then
      s.waiting[i]?.map fun r =>
        { s with turn := some (.setFinished r reply s.now), waiting := s.waiting.eraseIdx i }
    else none
  | .resume => s.turn.map (runOnce s)
  | .crash => some { s with turn := none, waiting := [] }

/-! ### The lock

A run that is past the test of the flag holds the lock until it has recorded its end. -/

def Point.run? : Point α → Option (Run α)
  | .getState _ => none
  | .setRunning r => some r
  | .setAlarm r => some r
  | .setFinished r _ _ => some r

/-- The runs in flight. -/
def inFlight (s : UpdaterScheduler α) : List (Run α) :=
  (s.turn.bind Point.run?).toList ++ s.waiting

def Locked (s : UpdaterScheduler α) : Prop :=
  match s.turn with
  | none | some (.getState _) => s.waiting = [] ∨ running s = true ∧ s.waiting.length = 1
  | some (.setRunning _) => s.waiting = []
  | some (.setAlarm _) | some (.setFinished _ _ _) => s.waiting = [] ∧ running s = true

lemma locked_runOnce {s : UpdaterScheduler α} {p : Point α} (h : Locked s) (hp : s.turn = some p) :
    Locked (runOnce s p) := by
  cases p with
  | getState trigger =>
    simp only [Locked, hp] at h
    simp only [runOnce, canStartRun, Bool.not_eq_eq_eq_not, Bool.not_true]
    split
    · rename_i hr
      refine h.resolve_right fun hw => ?_
      rw [running, hr] at hw
      exact Bool.false_ne_true hw.1
    · exact h
  | setRunning r =>
    simp only [Locked, hp] at h
    exact ⟨h, rfl⟩
  | setAlarm r =>
    simp only [Locked, hp] at h
    refine .inr ⟨h.2, ?_⟩
    simp only [runOnce, h.1, List.nil_append, List.length_singleton]
  | setFinished r reply finishedAtMs =>
    simp only [Locked, hp] at h
    exact .inl h.1

/-- What an event can do, handlers of the run aside. -/
lemma step_cases {s s' : UpdaterScheduler α} {e : Event α} (h : step s e = some s') :
    (s.turn = none ∧ e = .start ∧ s' = handleStart s) ∨
    (s.turn = none ∧ e = .stop ∧ s' = handleStop s) ∨
    (s.turn = none ∧ e = .run ∧ s' = { s with turn := some (.getState .request) }) ∨
    (s.turn = none ∧ e = .fire ∧ due s = true ∧
      s' = { s with alarm := none, turn := some (.getState .alarm) }) ∨
    (∃ ms, e = .advance ms ∧ s' = { s with now := s.now + ms }) ∨
    (∃ i reply r, s.turn = none ∧ e = .reply i reply ∧ s.waiting[i]? = some r ∧
      s' = { s with turn := some (.setFinished r reply s.now), waiting := s.waiting.eraseIdx i }) ∨
    (∃ p, e = .resume ∧ s.turn = some p ∧ s' = runOnce s p) ∨
    (e = .crash ∧ s' = { s with turn := none, waiting := [] }) := by
  cases e with
  | start | stop | run =>
    simp only [step, Option.isNone_iff_eq_none, Option.ite_none_right_eq_some,
      Option.some.injEq] at h
    simp [h.1, h.2]
  | fire =>
    simp only [step, Bool.and_eq_true, Option.isNone_iff_eq_none, Option.ite_none_right_eq_some,
      Option.some.injEq] at h
    simp [h.1, h.2]
  | advance ms =>
    simp only [step, Option.some.injEq] at h
    simp [h]
  | reply i reply =>
    simp only [step, Option.isNone_iff_eq_none, Option.ite_none_right_eq_some,
      Option.map_eq_some_iff] at h
    obtain ⟨ht, r, hr, rfl⟩ := h
    simp [ht, hr]
  | resume =>
    simp only [step, Option.map_eq_some_iff] at h
    obtain ⟨p, hp, rfl⟩ := h
    simp [hp]
  | crash =>
    simp only [step, Option.some.injEq] at h
    simp [h]

lemma locked_step {s s' : UpdaterScheduler α} {e : Event α} (h : Locked s)
    (hs : step s e = some s') : Locked s' := by
  rcases step_cases hs with ⟨ht, rfl, rfl⟩ | ⟨ht, rfl, rfl⟩ | ⟨ht, rfl, rfl⟩ | ⟨ht, rfl, hd, rfl⟩ |
    ⟨ms, rfl, rfl⟩ | ⟨i, reply, r, ht, rfl, hr, rfl⟩ | ⟨p, rfl, hp, rfl⟩ | ⟨rfl, rfl⟩
  · simp only [Locked, ht, handleStart] at h ⊢
    exact h
  · simp only [Locked, ht, handleStop] at h ⊢
    exact h
  · simp only [Locked, ht] at h ⊢
    exact h
  · simp only [Locked, ht] at h ⊢
    exact h
  · exact h
  · -- the only run that waits has its answer
    simp only [Locked, ht] at h
    rcases h with h | ⟨hrun, hlen⟩
    · rw [h] at hr
      cases hr
    · refine ⟨?_, hrun⟩
      obtain ⟨w, hw⟩ := List.length_eq_one_iff.mp hlen
      have hi : i = 0 := by
        have := (List.getElem?_eq_some_iff.mp hr).1
        omega
      rw [hw, hi]
      rfl
  · exact locked_runOnce h hp
  · exact .inl rfl

lemma inFlight_of_locked {s : UpdaterScheduler α} (h : Locked s) : (inFlight s).length ≤ 1 := by
  rw [inFlight, List.length_append]
  rcases ht : s.turn with _ | ⟨_ | _ | _ | _⟩ <;> simp only [Locked, ht] at h <;>
    simp only [Option.bind_none, Option.bind_some, Point.run?, Option.toList, List.length_nil,
      List.length_singleton, h] <;> grind

/-! ### The schedule

Where nothing is in flight the flag is down, and the alarm is armed if the schedule is on. -/

/-- No run is in flight and no handler is at work. -/
def Idle (s : UpdaterScheduler α) : Prop := s.turn = none ∧ s.waiting = []

/-- The flag is up, and whatever follows, no run starts. -/
def Refuses (s : UpdaterScheduler α) : Prop :=
  running s = true ∧ ∀ es s', play step s es = some s' → inFlight s' = []

/-- The schedule is on and nothing will call it. -/
def Stranded (s : UpdaterScheduler α) : Prop := s.started = true ∧ s.alarm = none

def Unwedged (s : UpdaterScheduler α) : Prop := Idle s → ¬ Refuses s ∧ ¬ Stranded s

def Point.trigger : Point α → Trigger
  | .getState trigger => trigger
  | .setRunning r | .setAlarm r | .setFinished r _ _ => r.trigger

/-- No crash while the flag is up or, with the schedule on, in a handler the alarm has called; and
with the schedule on, no alarm while a run waits. -/
def Calm (s : UpdaterScheduler α) : Event α → Prop
  | .crash => running s = false ∧ (s.started = true → ∀ p ∈ s.turn, p.trigger ≠ .alarm)
  | .fire => s.started = true → s.waiting = []
  | _ => True

def Armed (s : UpdaterScheduler α) : Prop := s.started = true → s.alarm.isSome = true

def Held (s : UpdaterScheduler α) : Prop := running s = true → s.waiting ≠ []

def Sound (s : UpdaterScheduler α) : Prop :=
  match s.turn with
  | none => Held s ∧ Armed s
  | some (.getState .alarm) => Held s ∧ (s.started = true → running s = false)
  | some (.getState .request) => Held s ∧ Armed s
  | some (.setRunning r) => running s = false ∧ (r.trigger = .request → Armed s)
  | some (.setAlarm _) => running s = true
  | some (.setFinished _ _ _) => Armed s

lemma sound_runOnce {s : UpdaterScheduler α} {p : Point α} (h : Sound s) (hp : s.turn = some p) :
    Sound (runOnce s p) := by
  cases p with
  | getState trigger =>
    simp only [runOnce, canStartRun, Bool.not_eq_eq_eq_not, Bool.not_true]
    split
    · rename_i hr
      refine ⟨hr, fun htr => ?_⟩
      cases htr
      simp only [Sound, hp] at h
      exact h.2
    · rename_i hr
      have hrun : running s = true := by simpa only [running, Bool.not_eq_false] using hr
      cases trigger with
      | alarm =>
        simp only [Sound, hp] at h
        refine ⟨h.1, fun hst => ?_⟩
        rw [h.2 hst] at hrun
        cases hrun
      | request =>
        simp only [Sound, hp] at h
        exact h
  | setRunning r => rfl
  | setAlarm r =>
    refine ⟨fun _ => ?_, fun _ => rfl⟩
    simp only [runOnce, ne_eq, List.append_eq_nil_iff, List.cons_ne_nil, and_false,
      not_false_eq_true]
  | setFinished r reply finishedAtMs =>
    simp only [Sound, hp] at h
    exact ⟨fun hr => (Bool.false_ne_true hr).elim, h⟩

lemma sound_step {s s' : UpdaterScheduler α} {e : Event α} (h : Sound s) (hc : Calm s e)
    (hs : step s e = some s') : Sound s' := by
  rcases step_cases hs with ⟨ht, rfl, rfl⟩ | ⟨ht, rfl, rfl⟩ | ⟨ht, rfl, rfl⟩ | ⟨ht, rfl, hd, rfl⟩ |
    ⟨ms, rfl, rfl⟩ | ⟨i, reply, r, ht, rfl, hr, rfl⟩ | ⟨p, rfl, hp, rfl⟩ | ⟨rfl, rfl⟩
  · simp only [Sound, ht, handleStart] at h ⊢
    refine ⟨h.1, fun _ => ?_⟩
    simp only [Option.isSome_or, Option.isSome_some, Bool.or_true]
  · simp only [Sound, ht, handleStop] at h ⊢
    exact ⟨h.1, fun hst => (Bool.false_ne_true hst).elim⟩
  · simp only [Sound, ht] at h ⊢
    exact h
  · simp only [Sound, ht] at h ⊢
    refine ⟨h.1, fun hst => ?_⟩
    by_contra hrun
    exact h.1 (Bool.of_not_eq_false hrun) (hc hst)
  · exact h
  · simp only [Sound, ht] at h ⊢
    exact h.2
  · exact sound_runOnce h hp
  · refine ⟨fun hrun => ?_, fun hst => ?_⟩
    · exact (Bool.eq_false_iff.mp hc.1 hrun).elim
    · -- the handler that is lost has not been called by the alarm
      have hne := hc.2 hst
      rcases ht : s.turn with _ | ⟨_ | _⟩ | r | r | r <;> simp only [Sound, ht] at h
      · exact h.2 hst
      · exact (hne _ ht rfl).elim
      · exact h.2 hst
      · refine h.2 ?_ hst
        cases htr : r.trigger with
        | alarm => exact (hne _ ht htr).elim
        | request => rfl
      · exact (Bool.eq_false_iff.mp hc.1 h).elim
      · exact h hst

lemma unwedged_of_sound {s : UpdaterScheduler α} (h : Sound s) : Unwedged s := by
  rintro ⟨ht, hw⟩
  simp only [Sound, ht] at h
  refine ⟨fun hr => h.1 hr.1 hw, fun hst => ?_⟩
  have harmed := h.2 hst.1
  rw [hst.2] at harmed
  cases harmed

/-- **When the scheduler is never wedged.** From a fresh object at most one run is in flight,
whatever happens. If there is no crash while the flag is up or in a handler of the alarm, and the
alarm does not fire while a run waits, the scheduler is never left with the flag up or, when on,
without an alarm. -/
theorem scheduler_unwedged (now : ℕ) (es : List (Event α)) (s : UpdaterScheduler α)
    (hs : play step (fresh now) es = some s) :
    (inFlight s).length ≤ 1 ∧ (Along step Calm (fresh now) es → Unwedged s) := by
  have hlocked : Locked (fresh now : UpdaterScheduler α) := .inl rfl
  have hsound : Sound (fresh now : UpdaterScheduler α) := ⟨nofun, nofun⟩
  refine ⟨inFlight_of_locked ?_, fun hc => unwedged_of_sound ?_⟩
  · exact play_keeps_always (fun _ _ _ => locked_step) hlocked hs
  · exact play_keeps (fun _ _ _ => sound_step) hsound hc hs

instance decidableCalm (s : UpdaterScheduler α) : ∀ e, Decidable (Calm s e)
  | .crash => inferInstanceAs (Decidable (_ ∧ (_ → ∀ p ∈ s.turn, p.trigger ≠ .alarm)))
  | .fire => inferInstanceAs (Decidable (s.started = true → s.waiting = []))
  | .start | .stop | .run | .advance _ | .reply _ _ | .resume => inferInstanceAs (Decidable True)

/-- A run of the alarm that takes longer than a minute, a crash after it, and the next run. -/
def slowNight : List (Event Unit) :=
  [.start, .fire, .resume, .resume, .resume, .advance 90000, .reply 0 (.ok ()), .resume, .crash,
    .fire, .resume, .resume, .resume, .reply 0 .conflict, .resume]

theorem scheduler_unwedged_slow_night :
    ∃ s, play step (fresh 0) slowNight = some s ∧ (inFlight s).length ≤ 1 ∧ Unwedged s := by
  have hs : (play step (fresh 0) slowNight).isSome = true := by decide
  obtain ⟨s, hs⟩ := Option.isSome_iff_exists.mp hs
  obtain ⟨hone, hcalm⟩ := scheduler_unwedged 0 slowNight s hs
  exact ⟨s, hs, hone, hcalm (by decide)⟩

/-- The handlers that are left only find the flag up. -/
def Shut (s : UpdaterScheduler α) : Prop :=
  running s = true ∧ s.waiting = [] ∧ ∀ p ∈ s.turn, p.run? = none

lemma shut_step {s s' : UpdaterScheduler α} {e : Event α} (h : Shut s) (hs : step s e = some s') :
    Shut s' := by
  obtain ⟨hrun, hw, hp⟩ := h
  rcases step_cases hs with ⟨ht, rfl, rfl⟩ | ⟨ht, rfl, rfl⟩ | ⟨ht, rfl, rfl⟩ | ⟨ht, rfl, hd, rfl⟩ |
    ⟨ms, rfl, rfl⟩ | ⟨i, reply, r, ht, rfl, hr, rfl⟩ | ⟨p, rfl, ht, rfl⟩ | ⟨rfl, rfl⟩
  · exact ⟨hrun, hw, hp⟩
  · exact ⟨hrun, hw, hp⟩
  · exact ⟨hrun, hw, by rintro p ⟨⟩; rfl⟩
  · exact ⟨hrun, hw, by rintro p ⟨⟩; rfl⟩
  · exact ⟨hrun, hw, hp⟩
  · rw [hw] at hr
    cases hr
  · cases p with
    | getState trigger =>
      have hcan : canStartRun (getState s) = false := by
        rw [canStartRun, show (getState s).running = true from hrun]
        rfl
      simp only [runOnce, hcan]
      exact ⟨hrun, hw, fun _ hp => (Option.not_mem_none _ hp).elim⟩
    | _ => cases hp _ ht
  · exact ⟨hrun, rfl, fun _ hp => (Option.not_mem_none _ hp).elim⟩

/-- A flag that a lost run has left up shuts the scheduler for good. -/
lemma refuses_of_idle {s : UpdaterScheduler α} (hi : Idle s) (hrun : running s = true) :
    Refuses s := by
  refine ⟨hrun, fun es s' hs => ?_⟩
  have hshut : Shut s := by
    refine ⟨hrun, hi.2, fun p hp => ?_⟩
    rw [hi.1] at hp
    cases hp
  obtain ⟨-, hw, hp⟩ := play_keeps_always (fun _ _ _ => shut_step) hshut hs
  rw [inFlight, hw, List.append_nil]
  cases ht : s'.turn with
  | none => rfl
  | some p => rw [Option.bind_some, hp p ht, Option.toList_none]

/-- A crash while the container works. -/
def lostRun : List (Event Unit) := [.start, .fire, .resume, .resume, .resume, .crash]

/-- A run on request, still waiting when its own alarm fires. -/
def alarmedRun : List (Event Unit) :=
  [.start, .run, .resume, .resume, .resume, .advance 60000, .fire, .resume, .reply 0 (.ok ()),
    .resume]

/-- A crash in a run leaves the flag up, with every later run refused; an alarm that fires in a run
on request is used up, and the schedule is on without an alarm. -/
theorem scheduler_wedged :
    (∃ s, play step (fresh 0) lostRun = some s ∧ Idle s ∧ Refuses s) ∧
      ∃ s, play step (fresh 0) alarmedRun = some s ∧ Idle s ∧ Stranded s := by
  refine ⟨⟨_, rfl, ⟨rfl, rfl⟩, refuses_of_idle ⟨rfl, rfl⟩ rfl⟩, ⟨_, rfl, ⟨rfl, rfl⟩, rfl, rfl⟩⟩

end OsmParquet.Scheduler
