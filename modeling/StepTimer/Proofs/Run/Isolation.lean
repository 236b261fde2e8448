/-
Timers apart. A call about a timer, and a move of a run of it, leave what the table knows of every other
timer as it is, and speak of no other (`Spares`); the sound of another timer is left alone unless a run
takes the slot for a sound of its own (`SparesAll`). This rests on runs that are told apart: each has its
name, its call and its notifications to itself (`Apart`).
-/
import StepTimer.Proofs.Run.Entries
import StepTimer.Proofs.Run.Owned
import StepTimer.Proofs.Run.Stale
import StepTimer.Proofs.Run.Stop
import StepTimer.Proofs.Engine.Notices

namespace StepTimer

namespace Runner

/-- The timer that a call is about; all are stopped by a call about none. -/
def Op.about? : Op → Option TimerId
  | .start t => some t.id
  | .resume id => some id
  | .pause t => some t.id
  | .restart t => some t.id
  | .stop id => some id
  | .reset id => some id
  | .mark id _ => some id
  | .forget id => some id
  | .stopAll => none

/-- From one table to another nothing has changed for other timers than one, and no other was spoken of. -/
structure Spares (id : TimerId) (r r' : Runner) : Prop where
  entries : ∀ other, other ≠ id → r'.entry? other = r.entry? other
  runs : ∀ run x, r.run? run = some x → x.timer ≠ id → r'.run? run = some x
  news : ∃ news, r'.announced = news ++ r.announced ∧ ∀ p ∈ news, p.2.timerId = id

/-- Whether the slot holds a sound of another timer than one. -/
def PlaysOther (r : Runner) (id : TimerId) : Prop :=
  ∃ p x, r.devices.channel.current = some p ∧ r.run? p.owner = some x ∧ x.timer ≠ id

/-- Nor was the sound of another timer touched. -/
structure SparesAll (id : TimerId) (r r' : Runner) : Prop extends Spares id r r' where
  sound : r.PlaysOther id → r'.devices.channel = r.devices.channel

variable {id : TimerId} {r r' r'' : Runner} {now : Instant}

theorem Spares.trans (h : Spares id r r') (h' : Spares id r' r'') : Spares id r r'' := by
  obtain ⟨news, hn, hid⟩ := h.news
  obtain ⟨news', hn', hid'⟩ := h'.news
  refine ⟨fun other hne => (h'.entries other hne).trans (h.entries other hne),
    fun run x hx hne => h'.runs run x (h.runs run x hx hne) hne, news' ++ news, ?_, fun p hp => ?_⟩
  · rw [hn', hn, List.append_assoc]
  · rcases List.mem_append.1 hp with hp | hp
    · exact hid' p hp
    · exact hid p hp

theorem PlaysOther.of_spares (hp : r.PlaysOther id) (h : Spares id r r')
    (hch : r'.devices.channel = r.devices.channel) : r'.PlaysOther id := by
  obtain ⟨p, x, hcur, hx, hne⟩ := hp
  exact ⟨p, x, by rw [hch]; exact hcur, h.runs p.owner x hx hne, hne⟩

theorem SparesAll.trans (h : SparesAll id r r') (h' : SparesAll id r' r'') : SparesAll id r r'' := by
  refine ⟨h.toSpares.trans h'.toSpares, fun hp => ?_⟩
  have hch := h.sound hp
  exact (h'.sound (hp.of_spares h.toSpares hch)).trans hch

/-- A change of nothing but what is known of one timer. -/
theorem SparesAll.of_devices (h : Spares id r r') (hd : r'.devices = r.devices) : SparesAll id r r' :=
  ⟨h, fun _ => congrArg Devices.channel hd⟩

theorem SparesAll.refl (id : TimerId) (r : Runner) : SparesAll id r r :=
  .of_devices ⟨fun _ _ => rfl, fun _ _ h _ => h, [], rfl, by simp⟩ rfl

/-! ## Calls -/

/-- A run, if there is one, that belongs to a timer. -/
def IsOf (r : Runner) (id : TimerId) (o : Option RunId) : Prop :=
  ∀ run x, o = some run → r.run? run = some x → x.timer = id

theorem Tied.isOf (h : r.Tied) {o : Option RunId} (ho : ∀ run, o = some run → r.token? id = some run) :
    r.IsOf id o := by
  intro run x heq hx
  obtain ⟨x', hx', -, hid⟩ := h.run_of_token (ho run heq)
  rw [hx] at hx'
  cases hx'
  exact hid

theorem IsOf.signalAny {o : Option RunId} (h : r.IsOf id o) (o' : Option RunId) (f : Signals → Signals) :
    (r.signalAny o' f).IsOf id o := by
  intro run x heq hx
  rw [run?_signalAny] at hx
  split at hx
  · obtain ⟨y, hy, rfl⟩ := Option.map_eq_some_iff.1 hx
    exact h run y heq hy
  · exact h run x heq hx

theorem IsOf.update {o : Option RunId} (h : r.IsOf id o) (id' : TimerId) (f : RunEntry → RunEntry) :
    (r.update id' now f).IsOf id o := fun run x heq hx => h run x heq (by rwa [run?_update] at hx)

theorem spares_update (id : TimerId) (r : Runner) (now : Instant) (f : RunEntry → RunEntry) :
    SparesAll id r (r.update id now f) := by
  refine .of_devices ⟨fun other hne => ?_, fun run x hx _ => ?_, _, announced_update now id f, fun p hp => ?_⟩ (by simp)
  · rw [entry?_update, if_neg hne]
  · rw [run?_update]
    exact hx
  · rw [Option.mem_toList, Option.map_eq_some_iff] at hp
    obtain ⟨e, -, rfl⟩ := hp
    rfl

theorem spares_upsert (id : TimerId) (r : Runner) (now : Instant) (f : RunEntry → RunEntry) :
    SparesAll id r (r.upsert id now f) := by
  refine .of_devices ⟨fun other hne => ?_, fun run x hx _ => hx, [_], rfl, fun p hp => ?_⟩ rfl
  · rw [entry?_upsert, if_neg hne]
  · cases List.mem_singleton.1 hp
    rfl

theorem spares_drop (id : TimerId) (r : Runner) : SparesAll id r (r.drop id now) := by
  unfold drop
  split
  · refine .of_devices ⟨fun other hne => ?_, fun run x hx _ => hx, [_], rfl, fun p hp => ?_⟩ rfl
    · rw [entry?_announce, entry?_dropEntry, if_neg hne]
    · cases List.mem_singleton.1 hp
      rfl
  · exact .refl id r

theorem spares_signalAny {o : Option RunId} (h : r.IsOf id o) (f : Signals → Signals) :
    SparesAll id r (r.signalAny o f) := by
  refine .of_devices ⟨fun other _ => by simp, fun run x hx hne => ?_, [], by simp, by simp⟩ (by simp)
  rw [run?_signalAny, if_neg fun heq => hne (h run x heq hx)]
  exact hx

/-- The sound of a run is silenced; that of another timer is not its own. -/
theorem spares_silenceAny {o : Option RunId} (h : r.IsOf id o) : SparesAll id r (r.silenceAny o) := by
  refine ⟨⟨fun other _ => by simp, fun run x hx _ => by simpa using hx, [], by simp, by simp⟩, ?_⟩
  rintro ⟨p, x, hcur, hx, hne⟩
  rw [channel_silenceAny]
  cases o with
  | none => rfl
  | some run =>
    rcases r.devices.channel.stopOwnedBy_cases run with ⟨q, hq, ho, -⟩ | ⟨-, he⟩
    · rw [hcur] at hq
      cases hq
      rw [ho] at hx
      exact absurd (h run x rfl hx) hne
    · exact he

theorem spares_stop (h : r.Tied) (id : TimerId) : SparesAll id r (r.stop id now) := by
  have hof : r.IsOf id (r.token? id) := h.isOf fun _ ho => ho
  have hsignal := spares_signalAny hof fun s => { s with aborted := true }
  exact (hsignal.trans (spares_update id _ now _)).trans (spares_silenceAny ((hof.signalAny _ _).update id _))

theorem spares_resume (h : r.Tied) (id : TimerId) : SparesAll id r (r.resume id now) := by
  have hof : r.IsOf id ((r.entry? id).bind (·.resumable)) := h.isOf fun run ho => by
    obtain ⟨e, he, hr⟩ := Option.bind_eq_some_iff.1 ho
    exact r.token?_of_entry? he (RunEntry.token_of_resumable hr)
  exact (spares_signalAny hof fun s => { s with paused := false }).trans (spares_update id _ now _)

theorem spares_pause (h : r.Tied) (t : Timer) : SparesAll t.id r (r.pause t now) := by
  unfold pause
  split
  · exact spares_update t.id r now _
  · have hof : r.IsOf t.id ((r.entry? t.id).bind (·.pausable)) := h.isOf fun run ho => by
      obtain ⟨e, he, hr⟩ := Option.bind_eq_some_iff.1 ho
      exact r.token?_of_entry? he (RunEntry.token_of_pausable hr)
    have hsignal := spares_signalAny hof fun s => { s with paused := true }
    exact (hsignal.trans (spares_update t.id _ now _)).trans (spares_silenceAny ((hof.signalAny _ _).update t.id _))

theorem spares_beginRun (h : r.Tied) (t : Timer) : SparesAll t.id r (r.beginRun t now) := by
  have hof : r.IsOf t.id (r.token? t.id) := h.isOf fun _ ho => ho
  have hentry := (spares_signalAny hof fun s => { s with aborted := true }).trans
    (spares_upsert t.id _ now fun e => e.begun r.nextRun (t.steps.head?.map Step.id))
  refine ⟨⟨hentry.entries, fun run x hx hne => ?_, hentry.news⟩, hentry.sound⟩
  -- the run that is new is behind those that were there
  rw [run?_beginRun, if_neg fun heq => hne (hof run x heq hx), hx]
  rfl

theorem spares_perform (h : r.Tied) {op : Op} (hop : op.about? = some id) : SparesAll id r (r.perform now op) := by
  cases op with
  | start t =>
    cases hop
    show SparesAll t.id r (r.start t now)
    rcases r.start_cases now t with ⟨-, he⟩ | ⟨-, he | he | he⟩ <;> rw [he]
    · exact spares_upsert t.id r now _
    · exact spares_beginRun h t
    · exact spares_resume h t.id
    · exact .refl t.id r
  | restart t =>
    cases hop
    show SparesAll t.id r (r.restart t now)
    rcases r.restart_cases now t with ⟨-, he⟩ | ⟨-, he⟩ <;> rw [he]
    · exact spares_upsert t.id r now _
    · exact (spares_stop h t.id).trans (spares_beginRun (h.stop now t.id) t)
  | resume id' => cases hop; exact spares_resume h id
  | pause t => cases hop; exact spares_pause h t
  | stop id' => cases hop; exact spares_stop h id
  | reset id' => cases hop; exact (spares_stop h id).trans (spares_update id _ now _)
  | mark id' name => cases hop; exact .refl id r
  | forget id' => cases hop; exact (spares_stop h id).trans (spares_drop id _)
  | stopAll => cases hop

/-! ## Runs that are told apart -/

/-- Every call under way has the slot or was cut, and no two runs look for the same notification. -/
structure Apart (r : Runner) : Prop where
  numbered : r.devices.channel.Numbered
  holds : ∀ run x, r.run? run = some x → ∀ call, x.activity.call? = some call →
    r.devices.channel.Holds run call.number
  posted : ∀ run x, r.run? run = some x → ∀ n ∈ x.activity.notices, n < r.devices.board.shown
  distinct : ∀ run run' x x', run ≠ run' → r.run? run = some x → r.run? run' = some x' →
    ∀ n ∈ x.activity.notices, n ∉ x'.activity.notices

/-- Runs that are in the table are in the calls and the alerts that they were in, or in none. -/
theorem Apart.of_cuts (h : r.Apart) (hcuts : Cuts r.devices r'.devices)
    (hruns : ∀ run x', r'.run? run = some x' →
      (∃ x, r.run? run = some x ∧ x'.activity.call? = x.activity.call? ∧ x'.activity.notices = x.activity.notices) ∨
        x'.activity.call? = none ∧ x'.activity.notices = []) : r'.Apart := by
  have hnone {run : RunId} {x' : Run} {n : Nat} (hx' : r'.run? run = some x') (hn : n ∈ x'.activity.notices) :
      ∃ x, r.run? run = some x ∧ n ∈ x.activity.notices := by
    rcases hruns run x' hx' with ⟨x, hx, -, heq⟩ | ⟨-, heq⟩
    · exact ⟨x, hx, heq ▸ hn⟩
    · rw [heq] at hn
      cases hn
  refine ⟨hcuts.numbered h.numbered, fun run x' hx' call hcall => ?_, fun run x' hx' n hn => ?_,
    fun run run' x x' hne hx hx' n hn hn' => ?_⟩
  · rcases hruns run x' hx' with ⟨x, hx, heq, -⟩ | ⟨heq, -⟩
    · exact hcuts.holds run call.number (h.holds run x hx call (heq ▸ hcall))
    · rw [heq] at hcall
      cases hcall
  · obtain ⟨x, hx, hmem⟩ := hnone hx' hn
    rw [hcuts.board]
    exact h.posted run x hx n hmem
  · obtain ⟨y, hy, hmem⟩ := hnone hx hn
    obtain ⟨y', hy', hmem'⟩ := hnone hx' hn'
    exact h.distinct run run' y y' hne hy hy' n hmem hmem'

theorem Apart.perform (h : r.Apart) (ht : r.Tied) (now : Instant) (op : Op) : (r.perform now op).Apart := by
  refine h.of_cuts (cuts_perform r now op) fun run x' hx' => ?_
  rcases kin_perform now run ht.unused op with hk | ⟨t, -, -, -, -, g, hnew⟩
  · rw [hx'] at hk
    obtain ⟨x, hx, hkin⟩ := hk.of_some
    exact Or.inl ⟨x, hx, by rw [hkin.activity], by rw [hkin.activity]⟩
  · rw [hnew] at hx'
    cases hx'
    exact Or.inr ⟨rfl, rfl⟩

theorem Apart.wake (h : r.Apart) (run : RunId) : (r.wake run).Apart := by
  refine h.of_cuts (.refl _) fun run' y hy => Or.inl ?_
  obtain ⟨x, hx, rfl | rfl⟩ := run_of_wake r hy
  · exact ⟨y, hx, rfl, rfl⟩
  · exact ⟨x, hx, x.activity.call?_wake, x.activity.notices_wake⟩

theorem Apart.advance (h : r.Apart) {run : RunId} {coin : Bool} {events : List Event}
    (ha : r.advance run coin now = some (r', events)) : r'.Apart := by
  obtain ⟨x, hx, hcase⟩ := run?_advance_self ha
  have hid := id_of_run? r hx
  have hother {run' : RunId} {y : Run} (hne : run' ≠ run) (hy : r'.run? run' = some y) : r.run? run' = some y := by
    rwa [run?_advance_ne r now run ha hne] at hy
  rcases hcase with ⟨-, hgone, hd, -⟩ | ⟨m, hm, hnext, hd, -⟩
  · refine h.of_cuts (hd ▸ .refl _) fun run' y hy => Or.inl ⟨y, hother ?_ hy, rfl, rfl⟩
    rintro rfl
    rw [hgone] at hy
    cases hy
  · have hmove := Activity.advance_call hm
    have hposts := Activity.notices_advance hm
    have hself := h.holds run x hx
    rw [← hid] at hself
    have hposted {run' : RunId} {y : Run} (hne : run' ≠ run) (hy : r'.run? run' = some y) {n : Nat}
        (hn : n ∈ y.activity.notices) : n < r.devices.board.shown := h.posted run' y (hother hne hy) n hn
    -- what the run looks for it has looked for before, or it is newer than what others look for
    have hapart {run' : RunId} {y : Run} (hne : run' ≠ run) (hy : r'.run? run' = some y) {n : Nat}
        (hn : n ∈ y.activity.notices) : n ∉ m.next.notices := fun hn' => by
      rcases hposts.added n hn' with hn' | ⟨hle, -⟩
      · exact h.distinct run run' x y (Ne.symm hne) hx (hother hne hy) n hn' hn
      · exact absurd (hposted hne hy hn) (Nat.not_lt_of_le hle)
    refine ⟨by rw [hd]; exact hmove.numbered h.numbered, fun run' y hy call hcall => ?_, fun run' y hy n hn => ?_,
      fun run₁ run₂ y₁ y₂ hne hy₁ hy₂ n hn₁ hn₂ => ?_⟩
    · rw [hd]
      by_cases hne : run' = run
      · subst hne
        rw [hnext] at hy
        cases hy
        have hholds := hmove.holds_self hself call hcall
        exact hid ▸ hholds
      · refine hmove.holds_other hself ?_ (h.holds run' y (hother hne hy) call hcall)
        exact fun heq => hne (heq.trans hid)
    · rw [hd]
      by_cases hne : run' = run
      · subst hne
        rw [hnext] at hy
        cases hy
        rcases hposts.added n hn with hn | ⟨-, hlt⟩
        · exact Nat.lt_of_lt_of_le (h.posted run' x hx n hn) hposts.shown
        · exact hlt
      · exact Nat.lt_of_lt_of_le (hposted hne hy hn) hposts.shown
    · by_cases h₁ : run₁ = run
      · subst h₁
        rw [hnext] at hy₁
        cases hy₁
        exact hapart (Ne.symm hne) hy₂ hn₂ hn₁
      · by_cases h₂ : run₂ = run
        · subst h₂
          rw [hnext] at hy₂
          cases hy₂
          exact hapart h₁ hy₁ hn₁ hn₂
        · exact h.distinct run₁ run₂ y₁ y₂ hne (hother h₁ hy₁) (hother h₂ hy₂) n hn₁ hn₂

/-! ## Moves -/

theorem spares_wake {x : Run} (hx : r.run? x.id = some x) : SparesAll x.timer r (r.wake x.id) := by
  refine .of_devices ⟨fun _ _ => rfl, fun run y hy hne => ?_, [], rfl, by simp⟩ rfl
  rw [run?_wake, if_neg fun heq => hne ?_]
  · exact hy
  · rw [heq, hx] at hy
    cases hy
    rfl

theorem spares_advance {x : Run} (hx : r.run? x.id = some x) {coin : Bool} {events : List Event}
    (ha : r.advance x.id coin now = some (r', events)) : Spares x.timer r r' := by
  have hruns (run : RunId) (y : Run) (hy : r.run? run = some y) (hne : y.timer ≠ x.timer) : r'.run? run = some y := by
    rw [run?_advance_ne r now x.id ha fun heq => hne ?_]
    · exact hy
    · rw [heq, hx] at hy
      cases hy
      rfl
  obtain ⟨x', hx', hcase⟩ := advance_cases r now ha
  rw [hx] at hx'
  cases hx'
  -- entries and announcements, which do not depend on the runs
  suffices h : (∀ other, other ≠ x.timer → r'.entry? other = r.entry? other) ∧
      ∃ news, r'.announced = news ++ r.announced ∧ ∀ p ∈ news, p.2.timerId = x.timer from ⟨h.1, hruns, h.2⟩
  rcases hcase with ⟨-, rfl, -⟩ | ⟨-, m, -, rfl, -⟩
  · refine ⟨fun other hne => by rw [entry?_finish, if_neg fun h => hne h.2], ?_⟩
    unfold finish
    split
    · exact ⟨[], rfl, by simp⟩
    · exact (spares_update x.timer _ now _).news
  · refine apply_induction r now x m (P := fun r' => (∀ other, other ≠ x.timer → r'.entry? other = r.entry? other) ∧
      ∃ news, r'.announced = news ++ r.announced ∧ ∀ p ∈ news, p.2.timerId = x.timer)
      ⟨fun _ _ => rfl, [], rfl, by simp⟩ fun r' step remaining _ hr => ?_
    unfold report
    split
    · exact hr
    · have hupdate := spares_update x.timer r' now fun e => e.reported x.generation step remaining
      obtain ⟨news, hn, hid⟩ := hr.2
      obtain ⟨news', hn', hid'⟩ := hupdate.news
      refine ⟨fun other hne => (hupdate.entries other hne).trans (hr.1 other hne), news' ++ news, ?_, fun p hp => ?_⟩
      · rw [hn', hn, List.append_assoc]
      · exact (List.mem_append.1 hp).elim (hid' p) (hid p)

/-- A move of a run leaves the sound of another timer alone, unless the run starts a sound of its own. -/
theorem sound_advance (h : r.Apart) {x : Run} (hx : r.run? x.id = some x) {coin : Bool} {events : List Event}
    (ha : r.advance x.id coin now = some (r', events)) (hp : r.PlaysOther x.timer) :
    r'.devices.channel = r.devices.channel ∨ ∃ url, r'.devices.channel = r.devices.channel.install x.id url := by
  obtain ⟨p, y, hcur, hy, hne⟩ := hp
  have ho : p.owner ≠ x.id := by
    intro heq
    rw [heq, hx] at hy
    cases hy
    exact hne rfl
  rcases channel_advance ha hx with hch | ⟨m, hm, hmove⟩
  · exact Or.inl hch
  · rcases hmove.eq_or_takes h.numbered (h.holds x.id x hx) hcur ho with he | ⟨-, call, url, -, he⟩
    · exact Or.inl he
    · exact Or.inr ⟨url, he⟩

end Runner

namespace World

open Runner (Op)

theorem Step.apart {ok : Op → Prop} {w w' : World} (ht : w.runner.Tied) (h : w.runner.Apart) (hs : Step ok w w') :
    w'.runner.Apart := by
  cases hs with
  | call op _ => exact h.perform ht w.now op
  | move run coin ha => exact h.advance ha
  | wake run => exact h.wake run
  | dismiss => exact ⟨h.numbered, h.holds, h.posted, h.distinct⟩
  | pass t _ => exact h

theorem Reached.apart {ok : Op → Prop} {w : World} (h : Reached ok w) : w.runner.Apart := by
  have hboth : w.runner.Tied ∧ w.runner.Apart := by
    refine h.induction (P := fun w => w.runner.Tied ∧ w.runner.Apart) (fun equipment now => ⟨?_, ?_⟩)
      fun _ _ hw hs => ⟨hs.tied hw.1, hs.apart hw.1 hw.2⟩
    · have hstart : Reached ok (initial equipment now) := ⟨equipment, now, .refl⟩
      exact hstart.tied
    · refine ⟨⟨⟨fun n hn => ?_, fun p hp => ?_⟩, fun p hp => ?_⟩, fun run x hx => ?_, fun run x hx => ?_,
        fun run _ x _ _ hx => ?_⟩
      · exact absurd hn List.not_mem_nil
      · cases hp
      · cases hp
      all_goals cases hx
  exact hboth.2

/-- Timers do not meddle with each other. A call about a timer, and a move of a run of it, change no
entry and no run of another timer, and announce nothing of another. The sound of another timer is left
as it is by every such call and by every turn, and by a move unless the run then starts a sound of its
own. The dismissal of a notification of the timer leaves the channel as it is, and the moves of the runs
of other timers are the same as without it. -/
theorem timers_isolated {w : World} (hw : Reached (fun _ => True) w) :
    (∀ op id, op.about? = some id → w.runner.SparesAll id (w.perform op).runner) ∧
    ∀ x, w.runner.run? x.id = some x →
      w.runner.SparesAll x.timer (w.runner.wake x.id) ∧
      (∀ coin r events, w.runner.advance x.id coin w.now = some (r, events) →
        w.runner.Spares x.timer r ∧ (w.runner.PlaysOther x.timer → r.devices.channel = w.runner.devices.channel ∨
          ∃ url, r.devices.channel = w.runner.devices.channel.install x.id url)) ∧
      ∀ n ∈ x.activity.notices, (w.runner.devices.dismiss n).channel = w.runner.devices.channel ∧
        ∀ y, w.runner.run? y.id = some y → y.timer ≠ x.timer → ∀ c,
          y.activity.advance c (w.runner.devices.dismiss n) =
            (y.activity.advance c w.runner.devices).map (·.dismiss n) := by
  have htied := hw.tied
  have hapart := hw.apart
  refine ⟨fun op id hop => Runner.spares_perform htied hop, fun x hx => ⟨Runner.spares_wake hx,
    fun coin r events ha => ⟨Runner.spares_advance hx ha, Runner.sound_advance hapart hx ha⟩,
    fun n hn => ⟨rfl, fun y hy hne c => Activity.advance_dismiss ?_⟩⟩⟩
  refine hapart.distinct x.id y.id x y (fun heq => hne ?_) hx hy n hn
  rw [heq, hy] at hx
  cases hx
  rfl

/-- One timer wails, and another one was started and has not played yet. -/
def sirenAndTea : World :=
  (((initial ⟨fun _ _ => .endless, .off, "", fun _ => ⟨0⟩⟩ ⟨0⟩).perform (.start siren)).goOn 1 7).perform (.start tea)

/-- The second timer is stopped and the first one wails on; it is cut when the second one plays. -/
theorem timers_isolated_sirenAndTea :
    sirenAndTea.runner.PlaysOther "tea" ∧
      (sirenAndTea.perform (.stop "tea")).runner.devices.channel = sirenAndTea.runner.devices.channel ∧
      (sirenAndTea.goOn 2 5).runner.devices.channel.isCut 1 = true := by
  have hcur : sirenAndTea.runner.devices.channel.current = some ⟨1, 1, ""⟩ := rfl
  have hx : sirenAndTea.runner.run? 1 = some _ := rfl
  have hplays : sirenAndTea.runner.PlaysOther "tea" := ⟨_, _, hcur, hx, by decide⟩
  have hw : Reached (fun _ => True) sirenAndTea :=
    ⟨_, _, .tail (.head (.call (.start siren) trivial) (later_goOn 1 7 _)) (.call (.start tea) trivial)⟩
  exact ⟨hplays, ((timers_isolated hw).1 (.stop "tea") "tea" rfl).sound hplays, by decide⟩

end World

end StepTimer
