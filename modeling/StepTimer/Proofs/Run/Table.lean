/-
The table of runs seen through its two lookups. Every operation of `Runner` is told apart by what it
does to the entry of a timer (`entry?`) and to the run of a name (`run?`); the proofs about whole
histories use these equations and never look at the lists behind them.
-/
import StepTimer.Run.Runner

namespace StepTimer

namespace Runner

variable (r : Runner) (now : Instant)

/-! ## Entries -/

private theorem lookup_map_setKey (id : TimerId) (e : RunEntry) (id' : TimerId) :
    ∀ l : List (TimerId × RunEntry),
      (l.map fun p => if p.1 = id then (id, e) else p).lookup id' =
        if id' = id then (l.lookup id).map fun _ => e else l.lookup id'
  | [] => by simp
  | (k, v) :: rest => by
    have ih := lookup_map_setKey id e id' rest
    by_cases hk : k = id
    · subst hk
      by_cases hid : id' = k
      · subst hid; simp
      · have hne : (id' == k) = false := by simpa using hid
        simpa only [List.map_cons, ↓reduceIte, List.lookup_cons, hne, if_neg hid] using ih
    · have hne : (id == k) = false := by simpa using Ne.symm hk
      by_cases hid : id' = k
      · subst hid; simp [hk]
      · have hne' : (id' == k) = false := by simpa using hid
        simpa only [List.map_cons, if_neg hk, List.lookup_cons, hne, hne'] using ih

theorem entry?_setEntry (id : TimerId) (e : RunEntry) (id' : TimerId) :
    Runner.entry? (r.setEntry id e) id' = if id' = id then some e else r.entry? id' := by
  unfold setEntry entry?
  cases he : r.entries.lookup id with
  | none =>
    simp only [Option.isSome_none, Bool.false_eq_true, ↓reduceIte, List.lookup_append]
    by_cases hid : id' = id
    · subst hid; simp [he]
    · have hne : (id' == id) = false := by simpa using hid
      simp [List.lookup_cons, hne, hid]
  | some e' =>
    simp only [Option.isSome_some, ↓reduceIte]
    rw [lookup_map_setKey, he]; rfl

theorem entry?_dropEntry (id id' : TimerId) :
    Runner.entry? (r.dropEntry id) id' = if id' = id then none else r.entry? id' := by
  unfold dropEntry entry?
  induction r.entries with
  | nil => simp
  | cons p rest ih =>
    obtain ⟨k, v⟩ := p
    by_cases hk : k = id
    · subst hk
      rw [List.filter_cons_of_neg (by simp), ih]
      by_cases hid : id' = k
      · rw [if_pos hid, if_pos hid]
      · have hne : (id' == k) = false := by simpa using hid
        rw [if_neg hid, if_neg hid, List.lookup_cons, hne]
    · rw [List.filter_cons_of_pos (by simpa using hk), List.lookup_cons, List.lookup_cons, ih]
      by_cases hid : id' = k
      · subst hid; rw [if_neg hk, if_neg hk]
      · have hne : (id' == k) = false := by simpa using hid
        rw [hne]

@[simp] theorem entry?_announce (u : RunUpdate) (id : TimerId) :
    Runner.entry? (r.announce now u) id = r.entry? id := rfl

theorem entry?_update (id : TimerId) (f : RunEntry → RunEntry) (id' : TimerId) :
    Runner.entry? (r.update id now f) id' = if id' = id then (r.entry? id).map f else r.entry? id' := by
  unfold update
  cases he : r.entry? id with
  | none =>
    by_cases hid : id' = id
    · subst hid; simp [he]
    · simp [hid]
  | some e => simp [entry?_setEntry]

theorem entry?_upsert (id : TimerId) (f : RunEntry → RunEntry) (id' : TimerId) :
    Runner.entry? (r.upsert id now f) id' =
      if id' = id then some (f ((r.entry? id).getD {})) else r.entry? id' := by
  simp [upsert, entry?_setEntry]

theorem update_of_none {id : TimerId} (f : RunEntry → RunEntry) (h : r.entry? id = none) :
    r.update id now f = r := by
  unfold update; rw [h]

/-! ## What an operation on an entry leaves alone -/

@[simp] theorem run?_update (id : TimerId) (f : RunEntry → RunEntry) (run : RunId) :
    (r.update id now f).run? run = r.run? run := by
  unfold update; cases r.entry? id <;> rfl

@[simp] theorem equipment_update (id : TimerId) (f : RunEntry → RunEntry) :
    (r.update id now f).equipment = r.equipment := by
  unfold update; split <;> rfl

@[simp] theorem nextRun_update (id : TimerId) (f : RunEntry → RunEntry) :
    (r.update id now f).nextRun = r.nextRun := by
  unfold update; cases r.entry? id <;> rfl

@[simp] theorem devices_update (id : TimerId) (f : RunEntry → RunEntry) :
    (r.update id now f).devices = r.devices := by
  unfold update; cases r.entry? id <;> rfl

@[simp] theorem run?_upsert (id : TimerId) (f : RunEntry → RunEntry) (run : RunId) :
    (r.upsert id now f).run? run = r.run? run := rfl

/-! ## Runs -/

theorem id_of_run? {run : RunId} {x : Run} (h : r.run? run = some x) : x.id = run := by
  simpa using List.find?_some h

theorem run?_modifyRun (run : RunId) (f : Run → Run) (hf : ∀ x, (f x).id = x.id) (run' : RunId) :
    (r.modifyRun run f).run? run' = if run' = run then (r.run? run).map f else r.run? run' := by
  unfold modifyRun run?
  induction r.runs with
  | nil => simp
  | cons x rest ih =>
    simp only [List.map_cons, List.find?_cons]
    by_cases hx : x.id = run
    · subst hx
      by_cases hr : run' = x.id
      · subst hr; simp [hf]
      · have : (f x).id ≠ run' := by rw [hf]; exact fun h => hr h.symm
        simp only [↓reduceIte, this, decide_false, hr] at ih ⊢
        rw [ih]; simp [Ne.symm hr]
    · simp only [if_neg hx]
      by_cases hr : x.id = run'
      · have : run' ≠ run := hr ▸ hx
        simp [hr, this]
      · simp only [hr, decide_false, hx]
        exact ih

theorem run?_signalAny (run : Option RunId) (f : Signals → Signals) (run' : RunId) :
    (r.signalAny run f).run? run' =
      if run = some run' then (r.run? run').map fun x => { x with signals := f x.signals }
      else r.run? run' := by
  unfold signalAny
  cases run with
  | none => simp
  | some run =>
    simp only [Option.elim, signal, Option.some.injEq]
    rw [run?_modifyRun r run (fun x => { x with signals := f x.signals }) (fun _ => rfl)]
    by_cases h : run' = run
    · subst h; simp
    · simp [h, Ne.symm h]

@[simp] theorem entry?_signalAny (run : Option RunId) (f : Signals → Signals) (id : TimerId) :
    Runner.entry? (r.signalAny run f) id = r.entry? id := by
  cases run <;> rfl

@[simp] theorem nextRun_signalAny (run : Option RunId) (f : Signals → Signals) :
    (r.signalAny run f).nextRun = r.nextRun := by
  cases run <;> rfl

@[simp] theorem devices_signalAny (run : Option RunId) (f : Signals → Signals) :
    (r.signalAny run f).devices = r.devices := by
  cases run <;> rfl

@[simp] theorem announced_signalAny (run : Option RunId) (f : Signals → Signals) :
    (r.signalAny run f).announced = r.announced := by
  cases run <;> rfl

@[simp] theorem entry?_silenceAny (run : Option RunId) (id : TimerId) :
    Runner.entry? (r.silenceAny run) id = r.entry? id := by
  cases run <;> rfl

@[simp] theorem run?_silenceAny (run : Option RunId) (run' : RunId) :
    (r.silenceAny run).run? run' = r.run? run' := by
  cases run <;> rfl

@[simp] theorem nextRun_silenceAny (run : Option RunId) : (r.silenceAny run).nextRun = r.nextRun := by
  cases run <;> rfl

@[simp] theorem announced_silenceAny (run : Option RunId) :
    (r.silenceAny run).announced = r.announced := by
  cases run <;> rfl

theorem channel_silenceAny (run : Option RunId) :
    (r.silenceAny run).devices.channel = run.elim r.devices.channel r.devices.channel.stopOwnedBy := by
  cases run <;> rfl

/-! ## Control -/

/-- The run that the entry of a timer holds. -/
def token? (id : TimerId) : Option RunId := (r.entry? id).bind (·.token)

theorem token?_of_entry? {id : TimerId} {e : RunEntry} {run : RunId} (he : r.entry? id = some e)
    (ht : e.token = some run) : r.token? id = some run := by
  unfold token?
  rw [he]
  exact ht

theorem entry?_stop (id id' : TimerId) :
    Runner.entry? (r.stop id now) id' =
      if id' = id then (r.entry? id).map (·.stopped now) else r.entry? id' := by
  simp [stop, entry?_update]

theorem run?_stop (id : TimerId) (run : RunId) :
    (r.stop id now).run? run =
      if r.token? id = some run then
        (r.run? run).map fun x => { x with signals := { x.signals with aborted := true } }
      else r.run? run := by
  unfold stop
  rw [run?_silenceAny, run?_update, run?_signalAny]; rfl

@[simp] theorem nextRun_stop (id : TimerId) : (r.stop id now).nextRun = r.nextRun := by
  simp [stop]

theorem channel_stop (id : TimerId) :
    (r.stop id now).devices.channel =
      (r.token? id).elim r.devices.channel r.devices.channel.stopOwnedBy := by
  simp [stop, channel_silenceAny, token?]

theorem entry?_resume (id id' : TimerId) :
    Runner.entry? (r.resume id now) id' =
      if id' = id then (r.entry? id).map RunEntry.resumed else r.entry? id' := by
  simp [resume, entry?_update]

theorem run?_resume (id : TimerId) (run : RunId) :
    (r.resume id now).run? run =
      if (r.entry? id).bind (·.resumable) = some run then
        (r.run? run).map fun x => { x with signals := { x.signals with paused := false } }
      else r.run? run := by
  simp [resume, run?_signalAny]

theorem entry?_pause {t : Timer} (h : t.mode ≠ .stopwatch) (id' : TimerId) :
    Runner.entry? (r.pause t now) id' =
      if id' = t.id then (r.entry? t.id).map RunEntry.paused else r.entry? id' := by
  simp [pause, h, entry?_update]

theorem run?_pause {t : Timer} (h : t.mode ≠ .stopwatch) (run : RunId) :
    (r.pause t now).run? run =
      if (r.entry? t.id).bind (·.pausable) = some run then
        (r.run? run).map fun x => { x with signals := { x.signals with paused := true } }
      else r.run? run := by
  simp [pause, h, run?_signalAny]

/-- The entry that a new run of a timer makes. -/
theorem entry?_beginRun (t : Timer) (id' : TimerId) :
    Runner.entry? (r.beginRun t now) id' =
      if id' = t.id then
        some (((r.entry? t.id).getD {}).begun r.nextRun (t.steps.head?.map Step.id))
      else r.entry? id' := by
  have hup : Runner.entry? (r.beginRun t now) id' =
      Runner.entry? ((r.signalAny (r.token? t.id) fun s => { s with aborted := true }).upsert t.id now
        fun e => e.begun r.nextRun (t.steps.head?.map Step.id)) id' := rfl
  rw [hup, entry?_upsert, entry?_signalAny, entry?_signalAny]

theorem run?_beginRun (t : Timer) (run : RunId) :
    (r.beginRun t now).run? run =
      ((if r.token? t.id = some run then
          (r.run? run).map fun x => { x with signals := { x.signals with aborted := true } }
        else r.run? run).or
        (if r.nextRun = run then
          some ⟨r.nextRun, t.id, ((r.entry? t.id).getD {}).generation + 1, {}, .ready t.steps⟩
        else none)) := by
  have hold : ((r.signalAny (r.token? t.id) fun s => { s with aborted := true }).upsert t.id now
      fun e => e.begun r.nextRun (t.steps.head?.map Step.id)).run? run = _ :=
    (run?_upsert _ now t.id _ run).trans (run?_signalAny r _ _ run)
  -- the new run is the last of the list, so one that had its name would be found before it
  rw [← hold]
  simp only [beginRun, run?, List.find?_append, entry?_upsert, entry?_signalAny, if_true, Option.map_some,
    Option.getD_some, RunEntry.begun, List.find?_singleton, decide_eq_true_eq]
  rfl

@[simp] theorem nextRun_beginRun (t : Timer) : (r.beginRun t now).nextRun = r.nextRun + 1 := rfl

theorem entry?_drop (id id' : TimerId) :
    Runner.entry? (r.drop id now) id' = if id' = id then none else r.entry? id' := by
  unfold drop
  split
  · simp [entry?_dropEntry]
  · rename_i h
    by_cases hid : id' = id
    · subst hid; simpa using h
    · simp [hid]

@[simp] theorem run?_drop (id : TimerId) (run : RunId) : (r.drop id now).run? run = r.run? run := by
  unfold drop; split <;> rfl

@[simp] theorem nextRun_drop (id : TimerId) : (r.drop id now).nextRun = r.nextRun := by
  unfold drop; split <;> rfl

@[simp] theorem devices_drop (id : TimerId) : (r.drop id now).devices = r.devices := by
  unfold drop; split <;> rfl

/-! ## Calls that are made of others -/

/-- A start makes one change at most. -/
theorem start_cases (t : Timer) :
    t.mode = .stopwatch ∧ r.start t now = r.upsert t.id now (fun e => e.startWatch now) ∨
      t.mode ≠ .stopwatch ∧
        (r.start t now = r.beginRun t now ∨ r.start t now = r.resume t.id now ∨ r.start t now = r) := by
  unfold start
  by_cases hm : t.mode = .stopwatch
  · left
    exact ⟨hm, if_pos hm⟩
  · right
    refine ⟨hm, ?_⟩
    rw [if_neg hm]
    split
    · left; rfl
    · split
      · right; left; rfl
      · split
        · right; right; rfl
        · left; rfl

theorem restart_cases (t : Timer) :
    t.mode = .stopwatch ∧ r.restart t now = r.upsert t.id now (fun e => e.restartWatch now) ∨
      t.mode ≠ .stopwatch ∧ r.restart t now = (r.stop t.id now).beginRun t now := by
  unfold restart
  by_cases hm : t.mode = .stopwatch
  · left
    exact ⟨hm, if_pos hm⟩
  · right
    exact ⟨hm, if_neg hm⟩

/-- What every stop keeps, and the silencing of the channel, is kept when all timers are stopped. -/
theorem stopAll_induction {P : Runner → Prop} (h : P r) (hstop : ∀ r id, P r → P (r.stop id now))
    (hsilence : ∀ r : Runner, P r →
      P { r with devices := { r.devices with channel := r.devices.channel.stop } }) :
    P (r.stopAll now) := by
  have hfold : ∀ (ids : List TimerId) (r : Runner), P r → P (ids.foldl (fun r id => r.stop id now) r) := by
    intro ids
    induction ids with
    | nil => exact fun _ h => h
    | cons id rest ih => exact fun r h => ih _ (hstop r id h)
  exact hsilence _ (hfold _ r h)

/-! ## The moves of a run -/

/-- A move is the end of the run, or a move of its activity. -/
theorem advance_cases {run : RunId} {coin : Bool} {r' : Runner} {events : List Event}
    (h : r.advance run coin now = some (r', events)) :
    ∃ x, r.run? run = some x ∧
      ((x.activity.isDone = true ∧ r' = r.finish x now ∧ events = []) ∨
        (x.activity.isDone = false ∧ ∃ m,
          x.activity.advance (r.circumstances x now coin) r.devices = some m ∧
            r' = r.apply x now m ∧ events = m.events)) := by
  unfold advance at h
  cases hx : r.run? run with
  | none => simp [hx] at h
  | some x =>
    refine ⟨x, rfl, ?_⟩
    cases hd : x.activity.isDone with
    | true =>
      simp only [hx, hd, Option.bind_eq_bind, Option.bind_some, ↓reduceIte, Option.some.injEq,
        Prod.mk.injEq] at h
      exact Or.inl ⟨rfl, h.1.symm, h.2.symm⟩
    | false =>
      cases hm : x.activity.advance (r.circumstances x now coin) r.devices with
      | none => simp [hx, hd, hm] at h
      | some m =>
        simp only [hx, hd, hm, Option.bind_eq_bind, Option.bind_some, Bool.false_eq_true, ↓reduceIte,
          Option.some.injEq, Prod.mk.injEq] at h
        exact Or.inr ⟨rfl, m, rfl, h.1.symm, h.2.symm⟩

/-- The move of a run that is not done is that of its activity. -/
theorem advance_eq_map {run : RunId} {x : Run} (hx : r.run? run = some x) (hd : x.activity.isDone = false)
    (coin : Bool) :
    r.advance run coin now =
      (x.activity.advance (r.circumstances x now coin) r.devices).map fun m => (r.apply x now m, m.events) := by
  unfold advance
  simp only [hx, hd, Option.bind_eq_bind, Option.bind_some, Bool.false_eq_true, ↓reduceIte]
  cases x.activity.advance (r.circumstances x now coin) r.devices <;> rfl

theorem advance_of_isDone {run : RunId} {x : Run} (hx : r.run? run = some x) (hd : x.activity.isDone = true)
    (coin : Bool) : r.advance run coin now = some (r.finish x now, []) := by
  unfold advance
  simp [hx, hd]

variable (x : Run) (m : Move)

/-- The table without a run. -/
def leave (r : Runner) (run : RunId) : Runner := { r with runs := r.runs.filter fun y => y.id ≠ run }

theorem run?_leave (run run' : RunId) : (r.leave run).run? run' = if run' = run then none else r.run? run' := by
  unfold leave run?
  rw [List.find?_filter]
  by_cases h : run' = run
  · subst h; simp
  · rw [if_neg h]
    congr 1; funext y
    by_cases hy : y.id = run'
    · subst hy; simp [h]
    · simp [hy]

theorem run?_finish (run : RunId) :
    (r.finish x now).run? run = if run = x.id then none else r.run? run := by
  unfold finish
  split
  · exact r.run?_leave x.id run
  · rw [run?_update]; exact r.run?_leave x.id run

theorem entry?_finish (id : TimerId) :
    Runner.entry? (r.finish x now) id =
      if x.signals.aborted = false ∧ id = x.timer then
        (r.entry? x.timer).map (·.finished x.generation)
      else r.entry? id := by
  unfold finish
  cases x.signals.aborted with
  | true => simp; rfl
  | false =>
    simp only [Bool.false_eq_true, ↓reduceIte, entry?_update, true_and]
    rfl

@[simp] theorem equipment_finish : (r.finish x now).equipment = r.equipment := by
  unfold finish; split <;> simp

@[simp] theorem nextRun_finish : (r.finish x now).nextRun = r.nextRun := by
  unfold finish; split <;> simp

@[simp] theorem devices_finish : (r.finish x now).devices = r.devices := by
  unfold finish; split <;> simp

@[simp] theorem run?_report (step : StepId) (remaining : Option UInt64) (run : RunId) :
    (r.report x now step remaining).run? run = r.run? run := by
  unfold report; split <;> simp

@[simp] theorem equipment_report (step : StepId) (remaining : Option UInt64) :
    (r.report x now step remaining).equipment = r.equipment := by
  unfold report; split <;> simp

@[simp] theorem nextRun_report (step : StepId) (remaining : Option UInt64) :
    (r.report x now step remaining).nextRun = r.nextRun := by
  unfold report; split <;> simp

@[simp] theorem devices_report (step : StepId) (remaining : Option UInt64) :
    (r.report x now step remaining).devices = r.devices := by
  unfold report; split <;> simp

theorem entry?_report (step : StepId) (remaining : Option UInt64) (id : TimerId) :
    Runner.entry? (r.report x now step remaining) id =
      if x.signals.aborted = false ∧ id = x.timer then
        (r.entry? x.timer).map (·.reported x.generation step remaining)
      else r.entry? id := by
  unfold report
  cases x.signals.aborted with
  | true => simp
  | false => simp [entry?_update]

/-- The table when a run has moved and nothing of it has been seen yet. -/
def moved (r : Runner) (x : Run) (m : Move) : Runner :=
  { r.modifyRun x.id fun y => { y with activity := m.next } with devices := m.devices }

/-- What holds when a run has moved, and is kept by each of its reports, holds after the move. -/
theorem apply_induction {P : Runner → Prop} (hmoved : P (r.moved x m))
    (hreport : ∀ r' step remaining, .progress step remaining ∈ m.events → P r' →
      P (r'.report x now step remaining)) :
    P (r.apply x now m) := by
  have hfold : ∀ (events : List Event) (r' : Runner), events ⊆ m.events → P r' →
      P (events.foldl (fun r e => r.observe x now e) r') := by
    intro events
    induction events with
    | nil => exact fun _ _ h => h
    | cons e rest ih =>
      intro r' hsub h
      rw [List.cons_subset] at hsub
      refine ih _ hsub.2 ?_
      cases e with
      | progress step remaining => exact hreport r' step remaining hsub.1 h
      -- all other events only go to the log
      | _ => exact h
  exact hfold m.events _ (List.Subset.refl _) hmoved

theorem run?_moved (run : RunId) :
    (r.moved x m).run? run =
      if run = x.id then (r.run? x.id).map fun y => { y with activity := m.next } else r.run? run :=
  run?_modifyRun r x.id (fun y => { y with activity := m.next }) (fun _ => rfl) run

theorem run?_apply (run : RunId) :
    (r.apply x now m).run? run =
      if run = x.id then (r.run? x.id).map fun y => { y with activity := m.next } else r.run? run :=
  apply_induction r now x m (P := fun r' => r'.run? run = _) (run?_moved r x m run)
    fun r' step remaining _ h => by rw [run?_report, h]

theorem devices_apply : (r.apply x now m).devices = m.devices :=
  apply_induction r now x m (P := fun r' => r'.devices = _) rfl
    fun r' step remaining _ h => by rw [devices_report, h]

theorem equipment_apply : (r.apply x now m).equipment = r.equipment :=
  apply_induction r now x m (P := fun r' => r'.equipment = _) rfl
    fun r' step remaining _ h => by rw [equipment_report, h]

theorem nextRun_apply : (r.apply x now m).nextRun = r.nextRun :=
  apply_induction r now x m (P := fun r' => r'.nextRun = _) rfl
    fun r' step remaining _ h => by rw [nextRun_report, h]

/-- A run that was aborted changes nothing but itself and the devices. -/
theorem apply_of_aborted (h : x.signals.aborted = true) : r.apply x now m = r.moved x m :=
  apply_induction r now x m (P := fun r' => r' = r.moved x m) rfl
    fun r' step remaining _ hr => by rw [hr]; unfold report; rw [if_pos h]

@[simp] theorem run?_wake (run run' : RunId) :
    (r.wake run).run? run' =
      if run' = run then (r.run? run).map fun x => { x with activity := x.activity.wake }
      else r.run? run' :=
  run?_modifyRun r run (fun x => { x with activity := x.activity.wake }) (fun _ => rfl) run'

/-- A run that is in the table after a turn was in it before, and was woken or left alone. -/
theorem run_of_wake {run run' : RunId} {y : Run} (h : (r.wake run').run? run = some y) :
    ∃ x, r.run? run = some x ∧ (y = x ∨ y = { x with activity := x.activity.wake }) := by
  rw [run?_wake] at h
  split at h
  · rename_i heq
    subst heq
    obtain ⟨x, hx, rfl⟩ := Option.map_eq_some_iff.1 h
    exact ⟨x, hx, Or.inr rfl⟩
  · exact ⟨y, h, Or.inl rfl⟩

end Runner

end StepTimer
