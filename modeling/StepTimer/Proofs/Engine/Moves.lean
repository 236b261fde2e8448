/-
What the moves of an activity can be, told once for each kind of activity. Every property of moves is
proved from these cases, and none of them looks at `advance` again.
-/
import StepTimer.Engine.Advance

namespace StepTimer

/-! ## Countdowns -/

/-- The countdown that goes on after a move of it. -/
def TickMove.ticking? : TickMove → Option Ticking
  | ended _ => none
  | goes t => some t
  | ticked t => some t

namespace Ticking

variable {now : Instant} {signals : Signals} {dismissed : Bool} {t : Ticking} {m : TickMove}

theorem reportAs_advance (h : t.advance now signals dismissed = some m) {t' : Ticking}
    (ht : m.ticking? = some t') : t'.reportAs = t.reportAs := by
  unfold advance at h
  split at h
  · split at h
    · cases h; cases ht
    · split at h <;> (cases h; cases ht; rfl)
  · split at h
    · cases h; cases ht; rfl
    · cases h
  · split at h
    · cases h; cases ht; rfl
    · cases h

/-- Nothing holds a countdown when its run is aborted, or what it belongs to was dismissed. -/
theorem isSome_advance (ha : signals.aborted = true ∨ dismissed = true) : (t.advance now signals dismissed).isSome := by
  unfold advance
  rcases ha with ha | ha <;> split <;> simp [ha]

/-- The moves that a countdown has before it when it is to end. -/
def span (t : Ticking) : Nat :=
  match t.phase with
  | .top => 1
  | _ => 2

theorem span_pos (t : Ticking) : 0 < t.span := by
  unfold span; split <;> decide

theorem span_advance (ha : signals.aborted = true ∨ dismissed = true) (h : t.advance now signals dismissed = some m)
    {t' : Ticking} (ht : m.ticking? = some t') : t'.span < t.span := by
  unfold advance at h
  split at h <;> rename_i hphase
  · rw [if_pos (by rcases ha with ha | ha <;> simp [ha])] at h
    cases h; cases ht
  · rw [if_pos (by rcases ha with ha | ha <;> simp [ha])] at h
    cases h; cases ht
    simp [span, hphase]
  · rw [if_pos (by rcases ha with ha | ha <;> simp [ha])] at h
    cases h; cases ht
    simp [span, hphase]

end Ticking

/-! ## Notifications -/

/-- When the call to the notifier that is under way returns; never, if it has no such instant. -/
def NoticePhase.due : NoticePhase → Option Instant
  | asking due _ => due
  | presenting due _ => due

/-- Whether the return of the call leads to another one. -/
def NoticePhase.isGranted : NoticePhase → Bool
  | asking _ permission => permission = .granted
  | presenting _ _ => false

theorem NoticePhase.advance_eq_none {c : Circumstances} {d : Devices} {phase : NoticePhase} :
    phase.advance c d = none ↔ c.hasCome phase.due = false := by
  cases phase with
  | asking due permission =>
    simp only [NoticePhase.advance, NoticePhase.due]
    cases c.hasCome due with
    | true => by_cases hp : permission = .granted <;> simp [hp]
    | false => simp
  | presenting due fails =>
    simp only [NoticePhase.advance, NoticePhase.due]
    cases c.hasCome due <;> simp

/-- A call that has returned is followed by the call that shows the notification, if it was the
question for permission and that was granted; otherwise by none. -/
theorem NoticePhase.advance_cases {c : Circumstances} {d : Devices} {phase : NoticePhase} {m : NoticeMove}
    (h : phase.advance c d = some m) :
    c.hasCome phase.due = true ∧
      ((phase.isGranted = true ∧ ∃ delay fails,
          m = .goes (.presenting ((delay : Option Nat).map c.now.plusMillis) fails) { d with board := d.board.called }) ∨
        (phase.isGranted = false ∧ ((∃ notice, m = .shown notice { d with board := d.board.put }) ∨ m = .refused d))) := by
  cases phase with
  | asking due permission =>
    simp only [NoticePhase.advance] at h
    split at h
    · rename_i hcome
      refine ⟨hcome, ?_⟩
      by_cases hp : permission = .granted
      · rw [if_pos hp] at h
        cases h
        exact Or.inl ⟨by simp [isGranted, hp], _, _, rfl⟩
      · rw [if_neg hp] at h
        cases h
        exact Or.inr ⟨by simp [isGranted, hp], Or.inr rfl⟩
    · cases h
  | presenting due fails =>
    simp only [NoticePhase.advance] at h
    split at h
    · rename_i hcome
      cases h
      exact ⟨hcome, Or.inr ⟨rfl, Or.inl ⟨_, rfl⟩⟩⟩
    · cases h

/-- A call leads to another one only if it is the question for permission, and that was granted. -/
theorem NoticePhase.advance_goes {c : Circumstances} {d d' : Devices} {phase phase' : NoticePhase}
    (h : phase.advance c d = some (.goes phase' d')) :
    ∃ due delay fails, phase = .asking due .granted ∧
      phase' = .presenting ((delay : Option Nat).map c.now.plusMillis) fails ∧
        d' = { d with board := d.board.called } := by
  obtain ⟨-, ⟨hg, delay, fails, hm⟩ | ⟨-, ⟨_, hm⟩ | hm⟩⟩ := NoticePhase.advance_cases h <;> cases hm
  cases phase with
  | asking due permission =>
    have hp : permission = .granted := by simpa [isGranted] using hg
    exact ⟨due, delay, fails, by rw [hp], rfl, rfl⟩
  | presenting due fails => cases hg

namespace Activity

/-- Whether a run looks at its signals before it begins a step or plays a sound. -/
def isGuarded : Activity → Bool
  | within current _ => current.isGuarded
  | alertRound _ _ current => current.isGuarded
  | loopPass _ _ _ current => current.isGuarded
  | entering _ => false
  | sound _ _ (.playing _) => true
  | sound _ replays _ => replays
  | _ => true

variable {c : Circumstances} {d : Devices} {m : Move}

-- the cases below are read off the equations of the next move
attribute [local simp] advance

/-! ## Lists of steps -/

theorem advance_ready {steps : List Step} (h : (ready steps).advance c d = some m) :
    m = ⟨done, d, []⟩ ∨ c.signals.aborted = false ∧
      (m = ⟨held steps, d, []⟩ ∨ ∃ s rest, steps = s :: rest ∧ m = activate d s rest) := by
  cases steps with
  | nil => cases h; exact Or.inl rfl
  | cons s rest =>
    simp only [advance] at h
    split at h
    · cases h; exact Or.inl rfl
    · rename_i ha
      refine Or.inr ⟨by simpa using ha, ?_⟩
      split at h
      · cases h; exact Or.inl rfl
      · cases h; exact Or.inr ⟨s, rest, rfl, rfl⟩

theorem advance_held {steps : List Step} (h : (held steps).advance c d = some m) :
    m = ⟨done, d, []⟩ ∨ c.signals.aborted = false ∧ ∃ s rest, steps = s :: rest ∧ m = activate d s rest := by
  cases steps with
  | nil => cases h; exact Or.inl rfl
  | cons s rest =>
    simp only [advance] at h
    split at h
    · cases h; exact Or.inl rfl
    · rename_i ha
      split at h
      · cases h
      · cases h; exact Or.inr ⟨by simpa using ha, s, rest, rfl, rfl⟩

theorem not_isDone_of_advance {a : Activity} (h : a.advance c d = some m) : a.isDone = false := by
  cases a with
  | done => cases h
  | _ => rfl

theorem advance_within {current : Activity} {rest : List Step} (h : (within current rest).advance c d = some m) :
    current.isDone = true ∧ m = ⟨ready rest, d, []⟩ ∨
      ∃ m', current.advance c d = some m' ∧ m = { m' with next := within m'.next rest } := by
  simp only [advance] at h
  split at h
  · rename_i hd; cases h; exact Or.inl ⟨hd, rfl⟩
  · obtain ⟨m', hm', rfl⟩ := Option.map_eq_some_iff.1 h
    exact Or.inr ⟨m', hm', rfl⟩

/-! ## Sounds -/

theorem advance_sound {url : String} {replays : Bool} {phase : SoundPhase}
    (h : (sound url replays phase).advance c d = some m) :
    (phase = .check ∧ m = ⟨sound url replays (if c.signals.paused then .held else .begin), d, []⟩) ∨
    (phase = .held ∧ m = ⟨sound url replays .begin, d, []⟩) ∨
    (phase = .begin ∧ m = if replays && c.signals.aborted then ⟨done, d, []⟩ else beginSound url replays c d) ∨
    ∃ call how, phase = .playing call ∧ call.end? c.coin d.channel c.now = some how ∧
      m = ⟨if replays && how = .interrupted && c.signals.paused && !c.signals.aborted then sound url replays .check
          else done, { d with channel := d.channel.release call.number }, [endEvent call.url how]⟩ := by
  cases phase with
  | check => cases h; exact Or.inl ⟨rfl, rfl⟩
  | held =>
    simp only [advance, advanceSound] at h
    split at h
    · cases h; exact Or.inr (Or.inl ⟨rfl, rfl⟩)
    · cases h
  | begin =>
    refine Or.inr (Or.inr (Or.inl ⟨rfl, ?_⟩))
    simp only [advance, advanceSound] at h
    split at h <;> rename_i hb
    · cases h; rw [if_pos hb]
    · cases h; rw [if_neg hb]
  | playing call =>
    obtain ⟨how, hhow, rfl⟩ := Option.map_eq_some_iff.1 h
    exact Or.inr (Or.inr (Or.inr ⟨call, how, rfl, hhow, rfl⟩))

/-! ## Notifications -/

theorem advance_notifying {n : Notification} {phase : NoticePhase} {grace : Instant}
    (h : (notifying n phase grace).advance c d = some m) :
    (∃ due delay fails, phase = .asking due .granted ∧
        m = ⟨notifying n (.presenting ((delay : Option Nat).map c.now.plusMillis) fails) grace,
          { d with board := d.board.called }, []⟩) ∨
      m.next = done ∧ m.devices.channel = d.channel ∧ (m.events = [] ∨ m.events = [.show n false]) := by
  simp only [advance, advanceNotice] at h
  split at h
  · rename_i phase' d' hp
    cases h
    obtain ⟨due, delay, fails, hphase, rfl, rfl⟩ := NoticePhase.advance_goes hp
    exact Or.inl ⟨due, delay, fails, hphase, rfl⟩
  · rename_i notice d' hp
    cases h
    obtain ⟨-, ⟨-, _, _, hm⟩ | ⟨-, ⟨_, hm⟩ | hm⟩⟩ := NoticePhase.advance_cases hp <;> cases hm
    exact Or.inr ⟨rfl, rfl, Or.inr rfl⟩
  · rename_i d' hp
    cases h
    obtain ⟨-, ⟨-, _, _, hm⟩ | ⟨-, ⟨_, hm⟩ | hm⟩⟩ := NoticePhase.advance_cases hp <;> cases hm
    exact Or.inr ⟨rfl, rfl, Or.inl rfl⟩
  · split at h
    · cases h; exact Or.inr ⟨rfl, rfl, Or.inl rfl⟩
    · cases h

theorem advance_announcing {id : StepId} {alert : Alert} {children : List Step} {countdown : Countdown}
    {phase : NoticePhase} (h : (announcing id alert children countdown phase).advance c d = some m) :
    (∃ due delay fails, phase = .asking due .granted ∧
        m = ⟨announcing id alert children countdown (.presenting ((delay : Option Nat).map c.now.plusMillis) fails),
          { d with board := d.board.called }, []⟩) ∨
      ∃ notice, m.next = alertTop ⟨id, alert, children, notice⟩ countdown ∧ m.devices.channel = d.channel ∧
        (m.events = [] ∨ m.events = [.show (.make alert.title alert.body) true]) := by
  obtain ⟨nm, hp, rfl⟩ := Option.map_eq_some_iff.1 h
  have hcases := (NoticePhase.advance_cases hp).2
  cases nm with
  | goes phase' d' =>
    obtain ⟨due, delay, fails, hphase, rfl, rfl⟩ := NoticePhase.advance_goes hp
    exact Or.inl ⟨due, delay, fails, hphase, rfl⟩
  | shown notice d' =>
    obtain ⟨-, _, _, hm⟩ | ⟨-, ⟨_, hm⟩ | hm⟩ := hcases <;> cases hm
    exact Or.inr ⟨notice, rfl, rfl, Or.inr rfl⟩
  | refused d' =>
    obtain ⟨-, _, _, hm⟩ | ⟨-, ⟨_, hm⟩ | hm⟩ := hcases <;> cases hm
    exact Or.inr ⟨none, rfl, rfl, Or.inl rfl⟩

/-! ## Alerts -/

/-- What follows a round: the pause before the next one, or the decision on it. -/
theorem afterRound_cases (r : Raised) (countdown : Countdown) (c : Circumstances) (d : Devices) (events : List Event) :
    ∃ report : List Event, (∀ e ∈ report, ∃ ms, e = .progress r.id ms) ∧
      ((∃ t : Ticking, t.phase = .top ∧ t.reportAs = some r.id ∧
          r.afterRound countdown c d events = ⟨alertGap r t, d, events ++ report⟩) ∨
        ∃ countdown', r.afterRound countdown c d events = ⟨alertTop r countdown', d, events ++ report⟩) := by
  unfold Raised.afterRound
  refine ⟨if r.children.isEmpty then [] else [.progress r.id (some (countdown.settle c.now).remainingMs)], ?_, ?_⟩
  · intro e he
    split at he
    · cases he
    · exact ⟨_, List.mem_singleton.1 he⟩
  · dsimp only
    split
    · exact Or.inl ⟨_, rfl, rfl, rfl⟩
    · exact Or.inr ⟨_, rfl⟩

theorem alertTop_cases (r : Raised) (countdown : Countdown) (c : Circumstances) (d : Devices) :
    advanceAlertTop r countdown c d = r.finish c d ∨ c.signals.aborted = false ∧
      ((∃ countdown', advanceAlertTop r countdown c d = ⟨alertHeld r countdown', d, []⟩) ∨
        ∃ t : Ticking, t.reportAs = r.reportAs ∧
          advanceAlertTop r countdown c d = ⟨alertRound r t (r.round c), d, []⟩) := by
  unfold advanceAlertTop
  split
  · exact Or.inl rfl
  · rename_i h
    refine Or.inr ⟨by simp_all, ?_⟩
    split
    · exact Or.inl ⟨_, rfl⟩
    · exact Or.inr ⟨_, rfl, rfl⟩

theorem advance_alertHeld {r : Raised} {countdown : Countdown} (h : (alertHeld r countdown).advance c d = some m) :
    m = ⟨alertTop r countdown, d, []⟩ := by
  simp only [advance] at h
  split at h
  · cases h; rfl
  · cases h

/-- The countdown beside a round moves on its own, or gives up the round. -/
theorem beside_cases {r : Raised} {t : Ticking} {current : Activity} (h : advanceBeside r t current c d = some m) :
    (∃ countdown, m = r.afterRound countdown c (c.silence d) current.dropEvents) ∨
      ∃ tm t', t.advance c.now c.signals (r.isDismissed d) = some tm ∧ tm.ticking? = some t' ∧
        m.next = alertRound r t' current ∧ m.devices = d ∧ (m.events = [] ∨ m.events = t'.report) := by
  obtain ⟨tm, htm, rfl⟩ := Option.map_eq_some_iff.1 h
  cases tm with
  | ended countdown => exact Or.inl ⟨countdown, rfl⟩
  | goes t' => exact Or.inr ⟨_, t', htm, rfl, rfl, rfl, Or.inl rfl⟩
  | ticked t' => exact Or.inr ⟨_, t', htm, rfl, rfl, rfl, Or.inr rfl⟩

/-- In a round of an alert the round moves, or the countdown beside it. -/
theorem advance_alertRound {r : Raised} {t : Ticking} {current : Activity}
    (h : (alertRound r t current).advance c d = some m) :
    (current.isDone = true ∧ m = r.afterRound t.countdown c d []) ∨
      (∃ m', current.advance c d = some m' ∧ m = { m' with next := alertRound r t m'.next }) ∨
        advanceBeside r t current c d = some m := by
  simp only [advance] at h
  split at h
  · rename_i hd; cases h; exact Or.inl ⟨hd, rfl⟩
  · refine Or.inr ?_
    -- whichever of the two comes first by the coin, the move is one of them
    have hround (h : ((current.advance c d).map fun m => { m with next := alertRound r t m.next }) = some m) :
        ∃ m', current.advance c d = some m' ∧ m = { m' with next := alertRound r t m'.next } := by
      obtain ⟨m', hm', rfl⟩ := Option.map_eq_some_iff.1 h
      exact ⟨m', hm', rfl⟩
    split at h <;> rcases Option.or_eq_some_iff.1 h with h | ⟨-, h⟩
    · exact Or.inl (hround h)
    · exact Or.inr h
    · exact Or.inr h
    · exact Or.inl (hround h)

/-- When the coin falls so, a round moves before the countdown beside it. -/
theorem advance_alertRound_first {r : Raised} {t : Ticking} {current : Activity} (hc : c.coin = true)
    (h : current.advance c d = some m) :
    (alertRound r t current).advance c d = some { m with next := alertRound r t m.next } := by
  rw [advance, not_isDone_of_advance h, if_neg Bool.false_ne_true, h, hc]
  rfl

theorem advance_alertGap {r : Raised} {t : Ticking} (h : (alertGap r t).advance c d = some m) :
    m.devices = d ∧ ((∃ countdown, m.next = alertTop r countdown ∧ m.events = []) ∨
      ∃ tm t', t.advance c.now c.signals (r.isDismissed d) = some tm ∧ tm.ticking? = some t' ∧
        m.next = alertGap r t' ∧ (m.events = [] ∨ m.events = t'.report)) := by
  obtain ⟨tm, htm, rfl⟩ := Option.map_eq_some_iff.1 h
  cases tm with
  | ended countdown => exact ⟨rfl, Or.inl ⟨countdown, rfl, rfl⟩⟩
  | goes t' => exact ⟨rfl, Or.inr ⟨_, t', htm, rfl, rfl, Or.inl rfl⟩⟩
  | ticked t' => exact ⟨rfl, Or.inr ⟨_, t', htm, rfl, rfl, Or.inr rfl⟩⟩

/-! ## Waits and loops -/

theorem advance_counting {id : StepId} {t : Ticking} (h : (counting id t).advance c d = some m) :
    m.devices = d ∧ ((m.next = done ∧ m.events = [.progress id none]) ∨
      ∃ tm t', t.advance c.now c.signals false = some tm ∧ tm.ticking? = some t' ∧
        m.next = counting id t' ∧ (m.events = [] ∨ m.events = t'.report)) := by
  obtain ⟨tm, htm, rfl⟩ := Option.map_eq_some_iff.1 h
  cases tm with
  | ended countdown => exact ⟨rfl, Or.inl ⟨rfl, rfl⟩⟩
  | goes t' => exact ⟨rfl, Or.inr ⟨_, t', htm, rfl, rfl, Or.inl rfl⟩⟩
  | ticked t' => exact ⟨rfl, Or.inr ⟨_, t', htm, rfl, rfl, Or.inr rfl⟩⟩

/-- A loop with steps in it goes on to its first pass. One without any is over, unless it is endless:
then it stays parked. -/
theorem beginLoop_cases (id : StepId) (count : RepeatCount) (children : List Step) (c : Circumstances) (d : Devices) :
    beginStep c d (.block id (.loop count) children) = ⟨loopTop count children 0, d, []⟩ ∨
      children = [] ∧
        ((count = .infinite ∧ beginStep c d (.block id (.loop count) children) = ⟨parked, d, []⟩) ∨
          (count ≠ .infinite ∧ beginStep c d (.block id (.loop count) children) = ⟨done, d, []⟩)) := by
  cases children with
  | cons s rest => exact Or.inl rfl
  | nil =>
    refine Or.inr ⟨rfl, ?_⟩
    by_cases hcount : count = .infinite
    · exact Or.inl ⟨hcount, by simp [beginStep, beginBlock, hcount]⟩
    · exact Or.inr ⟨hcount, by simp [beginStep, beginBlock, hcount]⟩

theorem loopTop_cases (count : RepeatCount) (children : List Step) (passes : Nat) (c : Circumstances) (d : Devices) :
    advanceLoopTop count children passes c d = ⟨done, d, []⟩ ∨ c.signals.aborted = false ∧
      advanceLoopTop count children passes c d = ⟨loopPass count children passes (ready children), d, []⟩ := by
  unfold advanceLoopTop
  by_cases ha : c.signals.aborted = true
  · exact Or.inl (by simp [ha])
  · refine Or.imp_right (fun h => ⟨by simpa using ha, h⟩) ?_
    cases count with
    -- passes are counted, but an endless loop does not look at the count
    | infinite => exact Or.inr (by simp [ha])
    | times n =>
      by_cases hn : n.toNat ≤ passes
      · exact Or.inl (by simp [hn])
      · exact Or.inr (by simp [ha, hn])

theorem advance_loopPass {count : RepeatCount} {children : List Step} {passes : Nat} {current : Activity}
    (h : (loopPass count children passes current).advance c d = some m) :
    current.isDone = true ∧ m = ⟨loopYield count children (passes + 1), d, []⟩ ∨
      ∃ m', current.advance c d = some m' ∧ m = { m' with next := loopPass count children passes m'.next } := by
  simp only [advance] at h
  split at h
  · rename_i hd; cases h; exact Or.inl ⟨hd, rfl⟩
  · obtain ⟨m', hm', rfl⟩ := Option.map_eq_some_iff.1 h
    exact Or.inr ⟨m', hm', rfl⟩

theorem advance_parked (h : parked.advance c d = some m) : m = ⟨done, d, []⟩ := by
  simp only [advance] at h
  split at h
  · cases h; rfl
  · cases h

end Activity

end StepTimer
