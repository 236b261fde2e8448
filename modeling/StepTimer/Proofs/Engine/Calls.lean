/-
The call to the player that a run is in. It has the slot of the channel, under the name of the run,
or it was cut. Both can be lost only by a move of the run itself: another run that takes the slot
cuts the call, and one that gives the slot back has a call of its own, which is then in no slot.
-/
import StepTimer.Proofs.Engine.Moves

namespace StepTimer

namespace Channel

variable {ch : Channel} {owner other : RunId} {n k : Nat}

/-- A call of a run has the slot, or was cut. -/
def Holds (ch : Channel) (owner : RunId) (n : Nat) : Prop :=
  ch.isCut n = true ∨ ∃ url, ch.current = some ⟨n, owner, url⟩

theorem isCut_stop (h : ch.isCut n = true) : ch.stop.isCut n = true := by
  unfold stop
  cases ch.current with
  | none => exact h
  | some p => simp only [isCut, decide_eq_true_eq] at h ⊢; exact List.mem_cons_of_mem _ h

theorem isCut_stopOwnedBy (h : ch.isCut n = true) (owner : RunId) : (ch.stopOwnedBy owner).isCut n = true := by
  unfold stopOwnedBy
  split
  · exact h
  · split
    · exact isCut_stop h
    · exact h

theorem isCut_release (h : ch.isCut n = true) (k : Nat) : (ch.release k).isCut n = true := by
  unfold release
  split
  · exact h
  · split <;> exact h

theorem nextCall_stop (ch : Channel) : ch.stop.nextCall = ch.nextCall := by
  unfold stop; split <;> rfl

theorem nextCall_stopOwnedBy (ch : Channel) (owner : RunId) : (ch.stopOwnedBy owner).nextCall = ch.nextCall := by
  unfold stopOwnedBy
  split
  · rfl
  · split
    · exact ch.nextCall_stop
    · rfl

theorem nextCall_release (ch : Channel) (call : Nat) : (ch.release call).nextCall = ch.nextCall := by
  unfold release
  split
  · rfl
  · split <;> rfl

/-- What the slot says of a call. -/
def Has (ch : Channel) (n : Nat) : Prop := ∃ p, ch.current = some p ∧ p.call = n

theorem current_stop (ch : Channel) : ch.stop.current = none := by
  unfold stop
  split
  · assumption
  · rfl

/-- A stop cuts what is in the slot, and nothing else. -/
theorem isCut_stop_iff : ch.stop.isCut n = true ↔ ch.isCut n = true ∨ ch.Has n := by
  unfold stop Has
  cases hc : ch.current with
  | none => simp
  | some p => simp [isCut, or_comm, eq_comm (a := n)]

/-- A run silences the slot if the sound in it is its own, and otherwise does nothing. -/
theorem stopOwnedBy_cases (ch : Channel) (owner : RunId) :
    (∃ p, ch.current = some p ∧ p.owner = owner ∧ ch.stopOwnedBy owner = ch.stop) ∨
      (∀ p, ch.current = some p → p.owner ≠ owner) ∧ ch.stopOwnedBy owner = ch := by
  unfold stopOwnedBy
  cases hc : ch.current with
  | none => exact Or.inr ⟨by simp, rfl⟩
  | some p =>
    by_cases ho : p.owner = owner
    · exact Or.inl ⟨p, rfl, ho, if_pos ho⟩
    · refine Or.inr ⟨fun q hq => ?_, if_neg ho⟩
      cases hq
      exact ho

/-- A call that returns empties the slot if it still has it. -/
theorem release_cases (ch : Channel) (k : Nat) :
    ch.Has k ∧ ch.release k = { ch with current := none } ∨ ¬ ch.Has k ∧ ch.release k = ch := by
  unfold release Has
  cases hc : ch.current with
  | none => exact Or.inr ⟨by simp, rfl⟩
  | some p =>
    by_cases hk : p.call = k
    · exact Or.inl ⟨⟨p, rfl, hk⟩, if_pos hk⟩
    · refine Or.inr ⟨fun ⟨q, hq, hqk⟩ => ?_, if_neg hk⟩
      cases hq
      exact hk hqk

/-- What is in the slot is cut when the channel is stopped. -/
theorem Holds.isCut_stop (h : ch.Holds owner n) : ch.stop.isCut n = true := by
  rcases h with h | ⟨url, h⟩
  · exact Channel.isCut_stop h
  · unfold stop
    rw [h]
    simp [isCut]

theorem Holds.stop (h : ch.Holds owner n) : ch.stop.Holds owner n := Or.inl h.isCut_stop

/-- What a run has in the slot is cut when its sound is silenced. -/
theorem Holds.isCut_stopOwnedBy (h : ch.Holds owner n) : (ch.stopOwnedBy owner).isCut n = true := by
  rcases h with hcut | ⟨url, hcur⟩
  · exact Channel.isCut_stopOwnedBy hcut owner
  · have hstop : ch.stopOwnedBy owner = ch.stop := by unfold stopOwnedBy; simp [hcur]
    rw [hstop]
    exact Holds.isCut_stop (Or.inr ⟨url, hcur⟩)

theorem Holds.stopOwnedBy (h : ch.Holds owner n) (other : RunId) : (ch.stopOwnedBy other).Holds owner n := by
  unfold Channel.stopOwnedBy
  split
  · exact h
  · split
    · exact h.stop
    · exact h

theorem Holds.install (h : ch.Holds owner n) (other : RunId) (url : String) : (ch.install other url).Holds owner n :=
  Or.inl h.isCut_stop

theorem holds_install (ch : Channel) (owner : RunId) (url : String) : (ch.install owner url).Holds owner ch.nextCall :=
  Or.inr ⟨url, rfl⟩

/-- A slot that another run gives back was that run's own, or both calls were cut. -/
theorem Holds.release (h : ch.Holds owner n) (hk : ch.Holds other k) (hne : owner ≠ other) :
    (ch.release k).Holds owner n := by
  rcases h with hcut | ⟨url, hcur⟩
  · exact Or.inl (isCut_release hcut k)
  · by_cases hnk : n = k
    · subst hnk
      rcases hk with hcut | ⟨url', hcur'⟩
      · exact Or.inl (isCut_release hcut n)
      · rw [hcur] at hcur'; cases hcur'
        exact absurd rfl hne
    · refine Or.inr ⟨url, ?_⟩
      unfold Channel.release
      rw [hcur]
      simp [hnk, hcur]

/-! ### Numbers -/

/-- The calls that were cut, and the call in the slot, have numbers that have been given. -/
structure InOrder (ch : Channel) : Prop where
  cut : ∀ n ∈ ch.cutCalls, n < ch.nextCall
  current : ∀ p, ch.current = some p → p.call < ch.nextCall

theorem InOrder.stop (h : ch.InOrder) : ch.stop.InOrder := by
  refine ⟨fun n hn => ?_, fun p hp => ?_⟩
  · rw [nextCall_stop]
    rcases isCut_stop_iff.1 (decide_eq_true hn) with hn | ⟨p, hp, rfl⟩
    · exact h.cut n (of_decide_eq_true hn)
    · exact h.current p hp
  · rw [current_stop] at hp
    cases hp

theorem InOrder.cut_install (h : ch.InOrder) (owner : RunId) (url : String) :
    ∀ n ∈ (ch.install owner url).cutCalls, n < ch.nextCall := by
  intro n hn
  have hlt := h.stop.cut n hn
  rwa [nextCall_stop] at hlt

theorem InOrder.install (h : ch.InOrder) (owner : RunId) (url : String) : (ch.install owner url).InOrder := by
  refine ⟨fun n hn => Nat.lt_succ_of_lt (h.cut_install owner url n hn), fun p hp => ?_⟩
  cases hp
  exact Nat.lt_succ_self _

/-- A new call was not cut. -/
theorem InOrder.isCut_install (h : ch.InOrder) (owner : RunId) (url : String) :
    (ch.install owner url).isCut ch.nextCall = false :=
  decide_eq_false fun hn => Nat.lt_irrefl _ (h.cut_install owner url _ hn)

theorem InOrder.release (h : ch.InOrder) (k : Nat) : (ch.release k).InOrder := by
  rcases ch.release_cases k with ⟨-, he⟩ | ⟨-, he⟩ <;> rw [he]
  · exact ⟨h.cut, fun p hp => by cases hp⟩
  · exact h

/-- The numbers of calls are given once, and the call in the slot was not cut. -/
structure Numbered (ch : Channel) : Prop extends InOrder ch where
  uncut : ∀ p, ch.current = some p → ch.isCut p.call = false

theorem Numbered.stop (h : ch.Numbered) : ch.stop.Numbered := by
  refine ⟨h.toInOrder.stop, fun p hp => ?_⟩
  rw [current_stop] at hp
  cases hp

theorem Numbered.stopOwnedBy (h : ch.Numbered) (owner : RunId) : (ch.stopOwnedBy owner).Numbered := by
  rcases ch.stopOwnedBy_cases owner with ⟨-, -, -, he⟩ | ⟨-, he⟩ <;> rw [he]
  · exact h.stop
  · exact h

theorem Numbered.install (h : ch.Numbered) (owner : RunId) (url : String) : (ch.install owner url).Numbered := by
  refine ⟨h.toInOrder.install owner url, fun p hp => ?_⟩
  cases hp
  exact h.isCut_install owner url

theorem Numbered.release (h : ch.Numbered) (k : Nat) : (ch.release k).Numbered := by
  refine ⟨h.toInOrder.release k, fun p hp => ?_⟩
  rcases ch.release_cases k with ⟨-, he⟩ | ⟨-, he⟩ <;> rw [he] at hp ⊢
  · cases hp
  · exact h.uncut p hp

end Channel

namespace Call

variable {k : Call} {coin : Bool} {ch : Channel} {now : Instant}

/-- How a call returns that was not cut: when its player is through, and as that ended. -/
theorem end?_of_not_isCut (h : ch.isCut k.number = false) :
    k.end? coin ch now = if k.isOver now then some (if k.fails then .failed else .finished) else none := by
  unfold end?
  cases k.isOver now <;> simp [h]

/-- How a call returns that was cut before its player was through. -/
theorem end?_of_isCut (h : ch.isCut k.number = true) (ho : k.isOver now = false) :
    k.end? coin ch now = some .interrupted := by
  unfold end?
  simp [h, ho]

/-- A player that is through stays so. -/
theorem isOver_mono {t : Instant} (h : k.isOver now = true) (hle : now.nanos ≤ t.nanos) : k.isOver t = true := by
  unfold isOver at h ⊢
  cases he : k.ends with
  | none => rw [he] at h; cases h
  | some u =>
    rw [he] at h
    simp only [decide_eq_true_eq] at h ⊢
    exact Nat.le_trans h hle

end Call

/-- What a move makes of the call of a run and of the channel. A run that is guarded and aborted takes
no new call. -/
inductive CallMove (c : Circumstances) (guarded : Bool) : Option Call → Channel → Option Call → Channel → Prop
  | keeps (k : Option Call) (ch : Channel) : CallMove c guarded k ch k ch
  | silences (k : Option Call) (ch : Channel) : CallMove c guarded k ch none (ch.stopOwnedBy c.owner)
  | takes (ch : Channel) (call : Call) (url : String) (h : call.number = ch.nextCall)
      (hg : guarded = true → c.signals.aborted = false) :
      CallMove c guarded none ch (some call) (ch.install c.owner url)
  | ends (call : Call) (ch : Channel) : CallMove c guarded (some call) ch none (ch.release call.number)

namespace CallMove

variable {c : Circumstances} {guarded : Bool} {other : RunId} {k k' : Option Call} {ch ch' : Channel} {n : Nat}

theorem isCut (h : CallMove c guarded k ch k' ch') (hn : ch.isCut n = true) : ch'.isCut n = true := by
  cases h with
  | keeps => exact hn
  | silences => exact Channel.isCut_stopOwnedBy hn c.owner
  | takes => exact Channel.isCut_stop hn
  | ends call => exact Channel.isCut_release hn call.number

/-- The call that a run is in after a move has the slot or was cut. -/
theorem holds_self (h : CallMove c guarded k ch k' ch') (hk : ∀ call, k = some call → ch.Holds c.owner call.number) :
    ∀ call, k' = some call → ch'.Holds c.owner call.number := by
  intro call hcall
  cases h with
  | keeps => exact hk call hcall
  | silences => cases hcall
  | takes _ call' url hnum =>
    cases hcall
    rw [hnum]
    exact Channel.holds_install ch c.owner url
  | ends call' => cases hcall

/-- A move of one run takes nothing from the call of another. -/
theorem holds_other (h : CallMove c guarded k ch k' ch') (hk : ∀ call, k = some call → ch.Holds c.owner call.number)
    (hne : other ≠ c.owner) (hn : ch.Holds other n) : ch'.Holds other n := by
  cases h with
  | keeps => exact hn
  | silences => exact hn.stopOwnedBy c.owner
  | takes _ call url hnum => exact hn.install c.owner url
  | ends call => exact hn.release (hk call rfl) hne

/-- An aborted run whose call was cut is not in another call later. -/
theorem isCut_self (h : CallMove c guarded k ch k' ch') (hg : guarded = true) (ha : c.signals.aborted = true)
    (hk : ∀ call, k = some call → ch.isCut call.number = true) :
    ∀ call, k' = some call → ch'.isCut call.number = true := by
  intro call hcall
  cases h with
  | keeps => exact hk call hcall
  | silences => cases hcall
  | takes _ call' url hnum hno => rw [hno hg] at ha; cases ha
  | ends call' => cases hcall

/-- A move makes a call to the player when it takes the slot. -/
theorem nextCall_cases (h : CallMove c guarded k ch k' ch') :
    ch'.nextCall = ch.nextCall ∨ (∃ call, k' = some call) ∧ ch'.nextCall = ch.nextCall + 1 := by
  cases h with
  | keeps => exact Or.inl rfl
  | silences => exact Or.inl (ch.nextCall_stopOwnedBy c.owner)
  | takes _ call => exact Or.inr ⟨⟨call, rfl⟩, rfl⟩
  | ends call => exact Or.inl (ch.nextCall_release call.number)

theorem numbered (h : CallMove c guarded k ch k' ch') (hn : ch.Numbered) : ch'.Numbered := by
  cases h with
  | keeps => exact hn
  | silences => exact hn.stopOwnedBy c.owner
  | takes _ call url => exact hn.install c.owner url
  | ends call => exact hn.release call.number

/-- If what a run has in the slot is the call that it is in, that is so after its move, too. -/
theorem slot_self (h : CallMove c guarded k ch k' ch')
    (hk : ∀ p, ch.current = some p → p.owner = c.owner → ∃ call, k = some call ∧ call.number = p.call) :
    ∀ p, ch'.current = some p → p.owner = c.owner → ∃ call, k' = some call ∧ call.number = p.call := by
  intro p hp ho
  cases h with
  | keeps => exact hk p hp ho
  | silences =>
    rcases ch.stopOwnedBy_cases c.owner with ⟨-, -, -, he⟩ | ⟨hno, he⟩ <;> rw [he] at hp
    · rw [ch.current_stop] at hp
      cases hp
    · exact absurd ho (hno p hp)
  | takes _ call url hnum =>
    cases hp
    exact ⟨call, rfl, hnum⟩
  | ends call =>
    rcases ch.release_cases call.number with ⟨-, he⟩ | ⟨hno, he⟩ <;> rw [he] at hp
    · cases hp
    · -- the call that returns would be the one in the slot
      obtain ⟨call', hcall, hnum⟩ := hk p hp ho
      cases hcall
      exact absurd ⟨p, hp, hnum.symm⟩ hno

/-- What is in the slot after a move was in it before, or the run has taken the slot. -/
theorem slot_cases (h : CallMove c guarded k ch k' ch') {p : Playback} (hp : ch'.current = some p) :
    ch.current = some p ∨ p.owner = c.owner ∧ (guarded = true → c.signals.aborted = false) := by
  cases h with
  | keeps => exact .inl hp
  | silences =>
    rcases ch.stopOwnedBy_cases c.owner with ⟨-, -, -, he⟩ | ⟨-, he⟩ <;> rw [he] at hp
    · rw [ch.current_stop] at hp
      cases hp
    · exact .inl hp
  | takes _ call url hnum hno =>
    cases hp
    exact .inr ⟨rfl, hno⟩
  | ends call =>
    rcases ch.release_cases call.number with ⟨-, he⟩ | ⟨-, he⟩ <;> rw [he] at hp
    · cases hp
    · exact .inl hp

/-- The sound of another run that is in the slot after a move was in it before. -/
theorem slot_other (h : CallMove c guarded k ch k' ch') {p : Playback} (hp : ch'.current = some p)
    (ho : p.owner ≠ c.owner) : ch.current = some p :=
  (h.slot_cases hp).resolve_right fun own => ho own.1

/-- An aborted run that is guarded brings nothing into the slot. -/
theorem slot_of_aborted (h : CallMove c guarded k ch k' ch') (hg : guarded = true) (ha : c.signals.aborted = true)
    {p : Playback} (hp : ch'.current = some p) : ch.current = some p := by
  refine (h.slot_cases hp).resolve_right fun own => ?_
  rw [own.2 hg] at ha
  cases ha

/-- A move leaves the channel alone while another run has the slot, unless the run takes it. -/
theorem eq_or_takes (h : CallMove c guarded k ch k' ch') (hn : ch.Numbered)
    (hk : ∀ call, k = some call → ch.Holds c.owner call.number) {p : Playback} (hp : ch.current = some p)
    (ho : p.owner ≠ c.owner) : ch' = ch ∨ k = none ∧ ∃ call url, k' = some call ∧ ch' = ch.install c.owner url := by
  cases h with
  | keeps => exact Or.inl rfl
  | silences =>
    rcases ch.stopOwnedBy_cases c.owner with ⟨q, hq, hqo, -⟩ | ⟨-, he⟩
    · rw [hp] at hq
      cases hq
      exact absurd hqo ho
    · exact Or.inl he
  | takes _ call url => exact Or.inr ⟨rfl, call, url, rfl, rfl⟩
  | ends call =>
    rcases ch.release_cases call.number with ⟨⟨q, hq, hqn⟩, -⟩ | ⟨-, he⟩
    · rw [hp] at hq
      cases hq
      -- the call in the slot was not cut, so it would be the run's own
      rcases hk call rfl with hcut | ⟨url, hcur⟩
      · rw [← hqn, hn.uncut p hp] at hcut
        cases hcut
      · rw [hp] at hcur
        cases hcur
        exact absurd rfl ho
    · exact Or.inl he

end CallMove

namespace Activity

variable {c : Circumstances} {d : Devices} {m : Move}

theorem call?_of_isDone {a : Activity} (h : a.isDone = true) : a.call? = none := by
  cases a with
  | done => rfl
  | _ => cases h

theorem number_start (player : Player) (n : Nat) (url : String) (now : Instant) :
    (Call.start player n url now).number = n := by
  unfold Call.start
  split <;> rfl

theorem beginStep_call (s : Step) :
    (beginStep c d s).next.call? = none ∧ (beginStep c d s).devices.channel = d.channel := by
  cases s with
  | leaf id action => cases action <;> exact ⟨rfl, rfl⟩
  | block id frame children =>
    cases frame with
    | notifyUntil alert => exact ⟨rfl, rfl⟩
    | loop count =>
      rcases beginLoop_cases id count children c d with h | ⟨-, ⟨-, h⟩ | ⟨-, h⟩⟩ <;> rw [h] <;> exact ⟨rfl, rfl⟩

theorem afterRound_call (r : Raised) (countdown : Countdown) (events : List Event) :
    (r.afterRound countdown c d events).next.call? = none ∧
      (r.afterRound countdown c d events).devices = d := by
  obtain ⟨report, -, ⟨t, -, -, h⟩ | ⟨countdown', h⟩⟩ := afterRound_cases r countdown c d events <;> rw [h] <;>
    exact ⟨rfl, rfl⟩

theorem advance_call {a : Activity} (h : a.advance c d = some m) :
    CallMove c a.isGuarded a.call? d.channel m.next.call? m.devices.channel := by
  induction a generalizing m with
  | done => cases h
  | ready steps =>
    rcases advance_ready h with rfl | ⟨-, rfl | ⟨s, rest, rfl, rfl⟩⟩ <;> exact .keeps none d.channel
  | held steps =>
    rcases advance_held h with rfl | ⟨-, s, rest, rfl, rfl⟩ <;> exact .keeps none d.channel
  | within current rest ih =>
    rcases advance_within h with ⟨hd, rfl⟩ | ⟨m', hm', rfl⟩
    · rw [call?, call?_of_isDone hd]; exact .keeps none d.channel
    · have hmove := ih hm'
      exact hmove
  | entering s =>
    cases h
    obtain ⟨hcall, hch⟩ := beginStep_call (c := c) (d := d) s
    rw [hcall, hch]
    exact .keeps none d.channel
  | counting id t =>
    obtain ⟨hd, ⟨hnext, -⟩ | ⟨tm, t', -, -, hnext, -⟩⟩ := advance_counting h <;> rw [hnext, hd] <;>
      exact .keeps none d.channel
  | sound url replays phase =>
    rcases advance_sound h with ⟨rfl, rfl⟩ | ⟨rfl, rfl⟩ | ⟨rfl, rfl⟩ | ⟨call, how, rfl, -, rfl⟩
    · have hnone : (sound url replays (if c.signals.paused then .held else .begin)).call? = none := by
        split <;> rfl
      rw [hnone]
      exact .keeps none d.channel
    · exact .keeps none d.channel
    · split
      · exact .keeps none d.channel
      · rename_i hb
        -- past this check an aborted run plays only what does not replay, and that is not guarded
        refine .takes d.channel _ url (number_start c.equipment.player d.channel.nextCall url c.now) fun hg => ?_
        have hreplays : replays = true := hg
        simpa [hreplays] using hb
    · have hnone (b : Bool) : (if b then sound url replays .check else done).call? = none := by
        cases b <;> rfl
      rw [hnone]
      exact .ends call d.channel
  | notifying n phase grace =>
    rcases advance_notifying h with ⟨due, delay, fails, -, rfl⟩ | ⟨hnext, hd, -⟩
    · exact .keeps none d.channel
    · rw [hnext, hd]; exact .keeps none d.channel
  | announcing id alert children countdown phase =>
    rcases advance_announcing h with ⟨due, delay, fails, -, rfl⟩ | ⟨notice, hnext, hd, -⟩
    · exact .keeps none d.channel
    · rw [hnext, hd]; exact .keeps none d.channel
  | alertTop r countdown =>
    cases h
    rcases alertTop_cases r countdown c d with h | ⟨-, ⟨countdown', h⟩ | ⟨t, -, h⟩⟩ <;> rw [h]
    -- an alert that is over silences whatever its run has on the channel
    · exact .silences none d.channel
    · exact .keeps none d.channel
    · have hround : (r.round c).call? = none := by unfold Raised.round; split <;> rfl
      show CallMove c true none d.channel (r.round c).call? d.channel
      rw [hround]
      exact .keeps none d.channel
  | alertHeld r countdown => rw [advance_alertHeld h]; exact .keeps none d.channel
  | alertRound r t current ih =>
    rcases advance_alertRound h with ⟨hd, rfl⟩ | ⟨m', hm', rfl⟩ | h
    · obtain ⟨hcall, hdev⟩ := afterRound_call (c := c) (d := d) r t.countdown []
      rw [hcall, hdev, call?, call?_of_isDone hd]
      exact .keeps none d.channel
    · have hmove := ih hm'
      exact hmove
    · rcases beside_cases h with ⟨countdown, rfl⟩ | ⟨tm, t', -, -, hnext, hd, -⟩
      · obtain ⟨hcall, hdev⟩ := afterRound_call (c := c) (d := c.silence d) r countdown current.dropEvents
        rw [hcall, hdev]
        exact .silences current.call? d.channel
      · rw [hnext, hd]; exact .keeps current.call? d.channel
  | alertGap r t =>
    obtain ⟨hd, ⟨countdown, hnext, -⟩ | ⟨tm, t', -, -, hnext, -⟩⟩ := advance_alertGap h <;> rw [hnext, hd] <;>
      exact .keeps none d.channel
  | loopTop count children passes =>
    cases h
    rcases loopTop_cases count children passes c d with h | ⟨-, h⟩ <;> rw [h] <;> exact .keeps none d.channel
  | loopPass count children passes current ih =>
    rcases advance_loopPass h with ⟨hd, rfl⟩ | ⟨m', hm', rfl⟩
    · rw [call?, call?_of_isDone hd]; exact .keeps none d.channel
    · have hmove := ih hm'
      exact hmove
  | loopYield count children passes => cases h
  | parked => rw [advance_parked h]; exact .keeps none d.channel

theorem call?_wake (a : Activity) : a.wake.call? = a.call? := by
  induction a with
  | within current rest ih => exact ih
  | alertRound r t current ih => exact ih
  | loopPass count children passes current ih => exact ih
  | _ => rfl

end Activity

end StepTimer
