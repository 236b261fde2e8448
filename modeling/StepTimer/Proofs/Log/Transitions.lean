/-
What the log of runs says of each timer. An update gives lines about its own timer only, and they depend on nothing
but the update and the state that the log has of that timer (`worth`); the update of another timer leaves that state
alone. So the lines about a timer are those that its own updates give on their own, and the state that is compared
with is the one of its last update, or none if that one dropped it.
-/
import StepTimer.Log.Progress
import Mathlib.Data.List.Induction

namespace StepTimer

namespace LogLine

/-- The timer that a line is about, if it is about one. -/
def timer? : LogLine → Option TimerId
  | deleted timer => some timer
  | becameIdle timer _ => some timer
  | became timer _ => some timer
  | atStep timer _ _ => some timer
  | _ => none

/-- The state that a line says a timer is in. -/
def status? : LogLine → Option RunStatus
  | becameIdle _ _ => some .idle
  | became _ status => some status
  | _ => none

/-- The step that a line says a timer is at. -/
def step? : LogLine → Option StepId
  | atStep _ step _ => some step
  | _ => none

end LogLine

namespace TransitionLog

/-- The log after updates, the first one first. -/
def after (us : List RunUpdate) : TransitionLog := (recordAll {} us).1

/-- The lines of a log that takes updates, the first one first. -/
def lines (us : List RunUpdate) : List LogLine := (recordAll {} us).2

/-- The updates of one timer. -/
def updatesOf (timer : TimerId) (us : List RunUpdate) : List RunUpdate := us.filter (·.timerId = timer)

/-- The state that an update leaves with its timer: none if it drops the timer. -/
def left? (u : RunUpdate) : Option RunState := if u.forgotten then none else some u.state

/-- The state of the last update of a timer; none if there is no update, or the last one dropped the timer. -/
def lastState? (timer : TimerId) (us : List RunUpdate) : Option RunState := (updatesOf timer us).getLast?.bind left?

/-- The lines that an update is worth when the log has a state of its timer. -/
def worth (previous : Option RunState) (u : RunUpdate) : List LogLine :=
  if u.forgotten then [.deleted u.timerId]
  else statusLines u.timerId previous u.state ++ stepLines u.timerId previous u.state

variable {log log' : TransitionLog} {timer : TimerId} {u : RunUpdate} {us : List RunUpdate} {previous : Option RunState}
  {state : RunState} {line : LogLine}

/-! ## One update -/

theorem left?_eq_some_iff : left? u = some state ↔ u.forgotten = false ∧ u.state = state := by
  unfold left?
  split <;> simp_all

theorem record_lines (log : TransitionLog) (u : RunUpdate) : (log.record u).2 = worth (log.last? u.timerId) u := by
  unfold record worth
  split <;> rfl

theorem lookup_others {t : TimerId} (h : timer ≠ t) (seen : List (TimerId × RunState)) :
    (seen.filter fun e => e.1 ≠ t).lookup timer = seen.lookup timer := by
  induction seen with
  | nil => rfl
  | cons e seen ih => grind

theorem lastSeen_record (log : TransitionLog) (u : RunUpdate) :
    (log.record u).1.lastSeen =
      ((left? u).map (u.timerId, ·)).toList ++ log.lastSeen.filter fun e => e.1 ≠ u.timerId := by
  unfold record left?
  split <;> rfl

/-- An update leaves its state with its timer, and the other timers as they are. -/
theorem last?_record (log : TransitionLog) (u : RunUpdate) (timer : TimerId) :
    (log.record u).1.last? timer = if u.timerId = timer then left? u else log.last? timer := by
  rw [last?, lastSeen_record]
  split
  next h =>
    subst h
    cases left? u with
    | none =>
      refine List.lookup_eq_none_iff.2 fun e he => ?_
      have hne : e.1 ≠ u.timerId := by simpa using (List.mem_filter.1 he).2
      simpa using hne.symm
    | some state => simp
  next h =>
    have hne : timer ≠ u.timerId := fun heq => h heq.symm
    have hbeq : (timer == u.timerId) = false := beq_eq_false_iff_ne.2 hne
    cases left? u with
    | none => exact lookup_others hne _
    | some state =>
      rw [Option.map_some, Option.toList_some, List.singleton_append, List.lookup_cons, hbeq]
      exact lookup_others hne _

/-- No timer is in the log twice. -/
theorem nodup_record (h : (log.lastSeen.map Prod.fst).Nodup) (u : RunUpdate) :
    ((log.record u).1.lastSeen.map Prod.fst).Nodup := by
  have hothers : ((log.lastSeen.filter fun e => e.1 ≠ u.timerId).map Prod.fst).Nodup :=
    h.sublist ((List.filter_sublist).map Prod.fst)
  rw [lastSeen_record]
  cases left? u with
  | none => exact hothers
  | some state => exact List.nodup_cons.2 ⟨by simp, hothers⟩

/-! ## What its lines say -/

theorem worth_of_forgotten (h : u.forgotten = true) (previous : Option RunState) :
    worth previous u = [.deleted u.timerId] := if_pos h

/-- The state before a timer's first update is idle. -/
def statusBefore (previous : Option RunState) : RunStatus := previous.elim .idle (·.status)

/-- There is a line for the state of a timer just if it has changed. -/
theorem statusLines_say (timer : TimerId) (previous : Option RunState) (state : RunState) :
    (statusLines timer previous state).filterMap LogLine.status? =
        (if state.status = statusBefore previous then [] else [state.status]) ∧
      (statusLines timer previous state).filterMap LogLine.step? = [] ∧
      ∀ line ∈ statusLines timer previous state, line.timer? = some timer ∧ line.status?.isSome = true := by
  have hbefore : (previous.map (·.status)).getD .idle = statusBefore previous := by cases previous <;> rfl
  unfold statusLines
  rw [hbefore]
  split
  · exact ⟨rfl, rfl, List.forall_mem_nil _⟩
  · split
    next hidle _ => exact ⟨by rw [hidle]; rfl, rfl, List.forall_mem_singleton.2 ⟨rfl, rfl⟩⟩
    · exact ⟨rfl, rfl, List.forall_mem_singleton.2 ⟨rfl, rfl⟩⟩

/-- There is a line for the active step of a timer just if it was not active before. -/
theorem stepLines_say (timer : TimerId) (previous : Option RunState) (state : RunState) :
    (stepLines timer previous state).filterMap LogLine.status? = [] ∧
      (stepLines timer previous state).filterMap LogLine.step? =
        (state.activeStepId.toList.filter fun step => previous.bind (·.activeStepId) ≠ some step) ∧
      ∀ line ∈ stepLines timer previous state, line.timer? = some timer ∧ line.step?.isSome = true := by
  unfold stepLines
  split
  next hnone => exact ⟨rfl, by rw [hnone]; rfl, List.forall_mem_nil _⟩
  next step hstep =>
    split
    next hsame => exact ⟨rfl, by simp [hstep, ← hsame], List.forall_mem_nil _⟩
    next hnew =>
      have hone : (state.activeStepId.toList.filter fun step => previous.bind (·.activeStepId) ≠ some step) = [step] := by
        simp [hstep, Ne.symm hnew]
      exact ⟨rfl, hone.symm, List.forall_mem_singleton.2 ⟨rfl, rfl⟩⟩

/-- What the lines of an update say that does not drop its timer: the state of the timer just if that has changed, and
its active step just if it has one and did not have it before. -/
structure Says (previous : Option RunState) (state : RunState) (lines : List LogLine) : Prop where
  status : lines.filterMap LogLine.status? = if state.status = statusBefore previous then [] else [state.status]
  step : lines.filterMap LogLine.step? =
    state.activeStepId.toList.filter fun step => previous.bind (·.activeStepId) ≠ some step
  nothingElse : ∀ line ∈ lines, line.status?.isSome ∨ line.step?.isSome

theorem says_worth (h : ¬ u.forgotten = true) (previous : Option RunState) :
    Says previous u.state (worth previous u) := by
  obtain ⟨hstatus, hnoStep, hall⟩ := statusLines_say u.timerId previous u.state
  obtain ⟨hnoStatus, hstep, hall'⟩ := stepLines_say u.timerId previous u.state
  rw [worth, if_neg h]
  constructor
  · rw [List.filterMap_append, hstatus, hnoStatus, List.append_nil]
  · rw [List.filterMap_append, hnoStep, hstep, List.nil_append]
  · intro line hline
    exact (List.mem_append.1 hline).imp (fun hmem => (hall line hmem).2) fun hmem => (hall' line hmem).2

theorem timer?_of_mem_worth (h : line ∈ worth previous u) : line.timer? = some u.timerId := by
  unfold worth at h
  split at h
  · cases List.mem_singleton.1 h
    rfl
  · rcases List.mem_append.1 h with h | h
    · exact ((statusLines_say u.timerId previous u.state).2.2 line h).1
    · exact ((stepLines_say u.timerId previous u.state).2.2 line h).1

/-! ## Many updates -/

theorem recordAll_cons (log : TransitionLog) (u : RunUpdate) (us : List RunUpdate) :
    log.recordAll (u :: us) =
      (((log.record u).1.recordAll us).1, worth (log.last? u.timerId) u ++ ((log.record u).1.recordAll us).2) := by
  rw [← record_lines]
  rfl

theorem recordAll_append (log : TransitionLog) (us vs : List RunUpdate) :
    log.recordAll (us ++ vs) =
      (((log.recordAll us).1.recordAll vs).1, (log.recordAll us).2 ++ ((log.recordAll us).1.recordAll vs).2) := by
  induction us generalizing log with
  | nil => rfl
  | cons u us ih => simp only [List.cons_append, recordAll, ih, List.append_assoc]

theorem lastState?_concat (timer : TimerId) (us : List RunUpdate) (u : RunUpdate) :
    lastState? timer (us ++ [u]) = if u.timerId = timer then left? u else lastState? timer us := by
  unfold lastState? updatesOf
  rw [List.filter_append]
  split
  next h => simp [h]
  next h => simp [h]

/-- The log has the state of each timer's last update. -/
theorem last?_after (us : List RunUpdate) (timer : TimerId) : (after us).last? timer = lastState? timer us := by
  induction us using List.reverseRecOn with
  | nil => rfl
  | append_singleton us u ih =>
    rw [after, recordAll_append, lastState?_concat, ← ih]
    exact last?_record _ u timer

theorem nodup_after (us : List RunUpdate) : ((after us).lastSeen.map Prod.fst).Nodup := by
  induction us using List.reverseRecOn with
  | nil => exact List.nodup_nil
  | append_singleton us u ih =>
    rw [after, recordAll_append]
    exact nodup_record ih u

/-- The lines about a timer are those of its own updates, in any two logs that have the same state of it. -/
theorem filter_recordAll (h : log.last? timer = log'.last? timer) (us : List RunUpdate) :
    (log.recordAll us).2.filter (fun line => line.timer? = some timer) = (log'.recordAll (updatesOf timer us)).2 := by
  -- the two logs differ in the other timers as soon as one of these has an update, so they are general here
  induction us generalizing log log' with
  | nil => rfl
  | cons u us ih =>
    rw [recordAll_cons, List.filter_append]
    by_cases hu : u.timerId = timer
    · subst hu
      have hall : (worth (log.last? u.timerId) u).filter (fun line => line.timer? = some u.timerId) =
          worth (log.last? u.timerId) u :=
        List.filter_eq_self.2 fun line hline => decide_eq_true (timer?_of_mem_worth hline)
      rw [hall, updatesOf, List.filter_cons_of_pos (by simp), recordAll_cons, ← h]
      refine congrArg _ (ih ?_)
      rw [last?_record, last?_record, if_pos rfl, if_pos rfl]
    · have hnone : (worth (log.last? u.timerId) u).filter (fun line => line.timer? = some timer) = [] := by
        refine List.filter_eq_nil_iff.2 fun line hline => ?_
        rw [timer?_of_mem_worth hline]
        simpa using hu
      rw [hnone, List.nil_append, updatesOf, List.filter_cons_of_neg (by simpa using hu)]
      refine ih ?_
      rw [last?_record, if_neg hu, h]

/-- Where no timer stands twice, the states that are found are those that stand there. -/
theorem lookup_eq_some_iff {seen : List (TimerId × RunState)} (h : (seen.map Prod.fst).Nodup) :
    seen.lookup timer = some state ↔ (timer, state) ∈ seen := by
  induction seen with
  | nil => simp
  | cons e seen ih =>
    obtain ⟨t, first⟩ := e
    obtain ⟨hnew, hrest⟩ := List.nodup_cons.1 h
    by_cases heq : timer = t
    · subst heq
      have habsent : (timer, state) ∉ seen := fun hmem => hnew (List.mem_map.2 ⟨_, hmem, rfl⟩)
      simp [habsent, eq_comm]
    · have hbeq : (timer == t) = false := beq_eq_false_iff_ne.2 heq
      rw [List.lookup_cons, hbeq, List.mem_cons, Prod.mk.injEq, ← ih hrest]
      simp [heq]

/-- What a follower writes besides the lines of its updates is about no timer. -/
theorem filter_follow (capacity : Nat) (us : List RunUpdate) (timer : TimerId) :
    (follow capacity us).filter (fun line => line.timer? = some timer) =
      (lines (us.drop (us.length - capacity))).filter (fun line => line.timer? = some timer) := by
  have hwarning : ((if us.length - capacity = 0 then [] else [LogLine.fellBehind (us.length - capacity)]).filter
      fun line => line.timer? = some timer) = [] := by
    split <;> rfl
  rw [follow, List.filter_append, List.cons_append, List.filter_cons_of_neg (by simp [LogLine.timer?]), List.filter_append,
    hwarning]
  exact List.append_nil _

/-- The timers are logged apart. Of all lines those about a timer are the lines that its own updates give alone. An
update adds lines about its timer to those before it, and these say the state of the timer just if the last update
before it gave another one (one that has had none, or was dropped by the last, having been idle), and its active step
just if it has one that the last update did not have; if the timer is dropped there is one line that says so. And the
log has, once each, the timers whose last update did not drop them, with the state of that. A follower that lost the
oldest updates says of a timer what the others give alone. -/
theorem timers_logged_apart (us : List RunUpdate) (timer : TimerId) :
    (lines us).filter (fun line => line.timer? = some timer) = lines (updatesOf timer us) ∧
      (∀ u vs, ∃ gained later, lines (us ++ [u]) = lines us ++ gained ∧ lines (us ++ u :: vs) = lines us ++ gained ++ later ∧
        (∀ line ∈ gained, line.timer? = some u.timerId) ∧
        if u.forgotten then gained = [.deleted u.timerId] else Says (lastState? u.timerId us) u.state gained) ∧
      (∀ state, (timer, state) ∈ (after us).lastSeen ↔
        ∃ u, (updatesOf timer us).getLast? = some u ∧ u.forgotten = false ∧ u.state = state) ∧
      ((after us).lastSeen.map Prod.fst).Nodup ∧
      ∀ capacity, (follow capacity us).filter (fun line => line.timer? = some timer) =
        lines (updatesOf timer (us.drop (us.length - capacity))) := by
  have hapart (us : List RunUpdate) : (lines us).filter (fun line => line.timer? = some timer) = lines (updatesOf timer us) :=
    filter_recordAll rfl us
  refine ⟨hapart us, fun u vs => ?_, fun state => ?_, nodup_after us, fun capacity => ?_⟩
  · refine ⟨worth (lastState? u.timerId us) u, (((after us).record u).1.recordAll vs).2, ?_, ?_,
      fun line hline => timer?_of_mem_worth hline, ?_⟩
    · rw [lines, recordAll_append, recordAll_cons, ← last?_after]
      exact congrArg _ (List.append_nil _)
    · rw [lines, recordAll_append, recordAll_cons, ← last?_after, List.append_assoc]
      rfl
    · split
      next hforgotten => exact worth_of_forgotten hforgotten _
      next hkept => exact says_worth hkept _
  · rw [← lookup_eq_some_iff (nodup_after us), ← last?, last?_after, lastState?, Option.bind_eq_some_iff]
    simp only [left?_eq_some_iff]
  · rw [filter_follow, hapart]

/-- A timer that was dropped starts anew, whatever another one does. -/
example : lines [.new "tea" { status := .running }, .new "eggs" { status := .paused }, .new "tea" { status := .running },
      .dropped "tea", .new "eggs" {}, .new "tea" { status := .running }] =
    [.became "tea" .running, .became "eggs" .paused, .deleted "tea", .became "eggs" .idle, .became "tea" .running] := by
  decide

end TransitionLog

end StepTimer
