/-
When an alert with an endless sound ends. On its own nothing but the clock ends its first tick, so that takes
its full length even if the notification took most of the time of the alert (`Due`): an alert without steps
whose notification takes so long ends later than its timeout says when the first tick goes beyond that, and it
sounds even if its time was over when its notification came up.
-/
import StepTimer.Proofs.Solo.Span

namespace StepTimer

/-- Whether a notifier grants permission at once and takes so many milliseconds to show a notification. -/
structure Notifier.Grants (k : Notifier) (delay : Nat) : Prop where
  ask : ∀ calls, k.ask calls = ⟨.granted, some 0⟩
  present : ∀ calls, (k.present calls).delayMs = some delay

theorem Notifier.Grants.answerMs {k : Notifier} {delay : Nat} (h : k.Grants delay) (calls : Nat) :
    k.answerMs calls = some delay := by
  simp [Notifier.answerMs, h.ask, h.present]

/-- Whether a block is an alert without steps and with a given sound. -/
def Frame.IsSiren (url fallback : String) : Frame → List Step → Prop
  | .notifyUntil alert, [] => alert.sound.effectiveUrl fallback = url
  | _, _ => False

/-- The hearing that knows a sound to take time. -/
def Hearing.only (url fallback : String) : Hearing := ⟨(· == url), fallback⟩

theorem Hearing.isTrue_only {e : Equipment} {url : String} (h : ∀ n, e.player n url = .endless) :
    (Hearing.only url e.defaultSound).IsTrue e := by
  refine ⟨fun n u hu => ?_, rfl⟩
  rw [eq_of_beq hu, h n]
  rfl

theorem Frame.IsSiren.isPaced {url fallback : String} {frame : Frame} {children : List Step}
    (h : frame.IsSiren url fallback children) : frame.isPaced (.only url fallback) children = true := by
  unfold IsSiren at h
  split at h
  · simp [Frame.isPaced, Raised.isPaced, Raised.holdsUp, Hearing.hears, Hearing.only, h]
  · cases h

/-- The round of an alert without steps is its sound. -/
theorem Frame.IsSiren.round_eq {c : Circumstances} {r : Raised} {url : String}
    (h : Frame.IsSiren url c.equipment.defaultSound (.notifyUntil r.alert) r.children) :
    r.round c = .sound url false .begin := by
  unfold IsSiren at h
  split at h
  · rename_i alert halert hchildren
    cases halert
    simp [Raised.round, hchildren, h]
  · cases h

namespace Course

open Activity

variable {o : Onset} {url : String} {base last n el : Nat} {resumed : Bool} {w w' : Course} {b : Activity}

/-- What a round with an endless sound is in: the sound is about to begin, or it goes on. -/
inductive Blares (o : Onset) (url : String) (base el : Nat) (ch : Channel) : Activity → Prop
  | begin (hel : el = o.delay) (hcalls : ch.nextCall = base) : Blares o url base el ch (.sound url false .begin)
  | playing {call : Call} (hends : call.ends = none) (huncut : ch.isCut call.number = false) (hcalls : base < ch.nextCall) :
      Blares o url base el ch (.sound url false (.playing call))

namespace Blares

variable {c : Circumstances} {d : Devices} {current : Activity}

theorem isDone_eq {ch : Channel} (h : Blares o url base el ch current) : current.isDone = false := by cases h <;> rfl

/-- Time does not pass before the sound has begun. -/
theorem begun {ch : Channel} (h : Blares o url base el ch current) (hel : o.delay < el) : base < ch.nextCall := by
  cases h with
  | begin hsame => omega
  | playing _ _ hcalls => exact hcalls

/-- The sound begins with its first move and does not end with another. -/
theorem advance {m : Move} (h : Blares o url base el d.channel current) (hn : d.channel.Numbered)
    (hendless : ∀ k, c.equipment.player k url = .endless) (hm : current.advance c d = some m) :
    Blares o url base el m.devices.channel m.next := by
  cases h with
  | begin hel hcalls =>
    cases hm
    refine .playing ?_ ?_ (by rw [← hcalls]; exact Nat.lt_succ_self _)
    · simp [Call.start, hendless]
    · rw [number_start]
      exact hn.isCut_install _ url
  | playing hends huncut hcalls =>
    obtain ⟨how, hend, -⟩ := Option.map_eq_some_iff.1 hm
    rw [Call.end?_of_not_isCut huncut] at hend
    simp [Call.isOver, hends] at hend

theorem wake {ch : Channel} (h : Blares o url base el ch current) : Blares o url base el ch current.wake := by
  cases h with
  | begin hel hcalls => exact .begin hel hcalls
  | playing hends huncut hcalls => exact .playing hends huncut hcalls

theorem pass {ms : Nat} (h : Blares o url base el d.channel current) (hn : current.advance c d = none) :
    Blares o url base (el + ms) d.channel current := by
  cases h with
  | begin => cases hn
  | playing hends huncut hcalls => exact .playing hends huncut hcalls

end Blares

/-- How far a run is in an alert with an endless sound, when it is due to end. Up to its first tick no more
than its notification was seen of it; after that, unless the run was paused and resumed in between, its sound
has begun. -/
inductive Due (o : Onset) (url : String) (base last : Nat) (resumed : Bool) (el : Nat) (w : Course) : Activity → Prop
  | announces {b : Activity} (h : Announces o w.run.equipment.notifier w.run.devices.board.calls el b)
      (hlast : o.latest = last) (hcalls : w.run.devices.channel.nextCall = base) : Due o url base last resumed el w b
  | first (r : Raised) {t : Ticking} {current : Activity} (h : FirstTick o el t) (hlast : o.latest = last)
      (hcurrent : Blares o url base el w.run.devices.channel current) : Due o url base last resumed el w (alertRound r t current)
  | nearing {b : Activity} (r : Raised) {left : Int} (h : Nearing w.run.now left r b) (hpos : 0 < o.total)
      (hlast : el + left.toNat = last)
      (hsince : resumed = false → o.tickEnd ≤ el ∧ base < w.run.devices.channel.nextCall) :
      Due o url base last resumed el w b

namespace Due

theorem isAlert (hs : Due o url base last resumed el w b) : b.isAlert = true := by
  cases hs with
  | announces h => exact h.isAlert
  | first r h => rfl
  | nearing r h => exact isAlert_of_raised? h.raised?_eq

theorem el_le (hs : Due o url base last resumed el w b) : el ≤ last := by
  cases hs with
  | announces h hlast =>
    have hle := h.el_le
    unfold Onset.latest Onset.tickEnd at hlast
    omega
  | first r h hlast => exact hlast ▸ Nat.le_trans h.delay_le.2 (Nat.le_max_right _ _)
  | nearing r h _ hlast => omega

/-- A move of an alert that is neither paused nor dismissed brings it on its way, or ends it when it is due.
Then its sound has begun, unless it had no time at all. -/
theorem advance {coin : Bool} {m : Move} (hs : Due o url base last resumed el w b) (hnow : w.run.now = o.start.plusMillis el)
    (ha : w.run.signals.aborted = false) (hp : w.run.signals.paused = false) (hd : b.Unheeded w.run.devices)
    (hsiren : b.EachBlock (Frame.IsSiren url w.run.equipment.defaultSound)) (hn : w.run.devices.channel.Numbered)
    (hendless : ∀ k, w.run.equipment.player k url = .endless)
    (hm : b.advance { w.run.circumstances with coin := coin } w.run.devices = some m)
    (hdev : w'.run.devices = m.devices) (he : w'.run.equipment = w.run.equipment) (hnow' : w'.run.now = w.run.now) :
    Due o url base last resumed el w' m.next ∨ m.next = done ∧ el = last ∧
      (resumed = false → (base < w'.run.devices.channel.nextCall ↔ 0 < o.total)) := by
  have hcall := (advance_call hm).nextCall_cases
  cases hs with
  | announces h hlast hcalls =>
    rcases Announces.advance (c := { w.run.circumstances with coin := coin }) h hnow ha hd hm with
      hnext | ⟨r, rfl, hel, ⟨-, rfl, hfirst⟩ | ⟨hpaused, -⟩ | ⟨htotal, hnext, hsilent⟩⟩
    · refine Or.inl (.announces (by rw [he, hdev]; exact hnext) hlast ?_)
      rw [hdev]
      rcases hcall with hsame | ⟨⟨call, hno⟩, -⟩
      · exact hsame.trans hcalls
      · rw [hnext.call?_eq] at hno
        cases hno
    · refine Or.inl (.first r hfirst hlast ?_)
      rw [Frame.IsSiren.round_eq (c := { w.run.circumstances with coin := coin }) hsiren.1, hdev]
      exact .begin hel hcalls
    · have hno : w.run.signals.paused = true := hpaused
      rw [hp] at hno
      cases hno
    · refine Or.inr ⟨hnext, ?_, fun _ => ?_⟩
      · unfold Onset.latest Onset.tickEnd at hlast
        omega
      · rw [hdev, hsilent, htotal]
        show base < (w.run.devices.channel.stopOwnedBy _).nextCall ↔ _
        rw [Channel.nextCall_stopOwnedBy]
        omega
  | @first r t current h hlast hcurrent =>
    refine Or.inl ?_
    rcases first_advance (c := { w.run.circumstances with coin := coin }) h hnow ha (hd r rfl) hm with
      ⟨m', hm', hnext, hdev'⟩ | ⟨t', hnext, hfirst, hdev'⟩ | ⟨hnext, hcause⟩
    · rw [hnext]
      refine .first r h hlast ?_
      rw [hdev, hdev']
      exact hcurrent.advance hn hendless hm'
    · rw [hnext]
      refine .first r hfirst hlast ?_
      rw [hdev, hdev']
      exact hcurrent
    · -- the sound goes on and the run is not paused, so it is the end of the tick
      have hend : el = o.tickEnd := by
        rcases hcause with hdone | hpaused | hend
        · rw [hcurrent.isDone_eq] at hdone
          cases hdone
        · have hno : w.run.signals.paused = true := hpaused
          rw [hp] at hno
          cases hno
        · exact hend
      have hbegun : base < w.run.devices.channel.nextCall := by
        have hpos := h.pos
        unfold Onset.tickEnd at hend
        exact hcurrent.begun (by omega)
      refine .nearing r (by rw [hnow']; exact hnext) h.pos ?_ fun _ => ⟨Nat.le_of_eq hend.symm, ?_⟩
      · rw [← hlast, Onset.latest]
        omega
      · rw [hdev]
        rcases hcall with hsame | ⟨-, hmore⟩ <;> omega
  | @nearing _ r left h hpos hlast hsince =>
    have hle : w.run.devices.channel.nextCall ≤ m.devices.channel.nextCall := by
      rcases hcall with hsame | ⟨-, hmore⟩ <;> omega
    have hbegun (hr : resumed = false) : base < w'.run.devices.channel.nextCall := by
      rw [hdev]
      exact Nat.lt_of_lt_of_le (hsince hr).2 hle
    rcases Nearing.advance (c := { w.run.circumstances with coin := coin }) h ha (hd r h.raised?_eq) hm with
      ⟨hnext, -, hover⟩ | hnext
    · exact Or.inr ⟨hnext, by omega, fun hr => ⟨fun _ => hpos, fun _ => hbegun hr⟩⟩
    · exact Or.inl (.nearing r (by rw [hnow']; exact hnext) hpos hlast fun hr => ⟨(hsince hr).1, hbegun hr⟩)

theorem stay (hs : Due o url base last resumed el w b) (hdev : w'.run.devices = w.run.devices)
    (he : w'.run.equipment = w.run.equipment) (hnow : w'.run.now = w.run.now) :
    Due o url base last resumed el w' b := by
  cases hs with
  | announces h hlast hcalls => exact .announces (by rw [he, hdev]; exact h) hlast (hdev ▸ hcalls)
  | first r h hlast hcurrent => exact .first r h hlast (hdev ▸ hcurrent)
  | nearing r h hpos hlast hsince => exact .nearing r (hnow ▸ h) hpos hlast (hdev ▸ hsince)

theorem wake (hs : Due o url base last resumed el w b) : Due o url base last resumed el w b.wake := by
  cases hs with
  | announces h hlast hcalls => exact .announces h.wake hlast hcalls
  | first r h hlast hcurrent => exact .first r h hlast hcurrent.wake
  | nearing r h hpos hlast hsince => exact .nearing r h.wake hpos hlast hsince

/-- Time that passes while an alert is not paused brings it on its way. -/
theorem pass {ms : Nat} (hs : Due o url base last resumed el w b) (hnow : w.run.now = o.start.plusMillis el)
    (hp : w.run.signals.paused = false) (hd : b.Unheeded w.run.devices) (hn : b.advance w.run.circumstances w.run.devices = none)
    (halarms : ∀ t ∈ b.alarms, (w.run.now.plusMillis ms).nanos ≤ t.nanos) (hdev : w'.run.devices = w.run.devices)
    (he : w'.run.equipment = w.run.equipment) (hnow' : w'.run.now = w.run.now.plusMillis ms) :
    Due o url base last resumed (el + ms) w' b := by
  cases hs with
  | announces h hlast hcalls =>
    refine .announces ?_ hlast (hdev ▸ hcalls)
    rw [he, hdev]
    exact Announces.pass (c := w.run.circumstances) h hnow hn halarms
  | @first r t current h hlast hcurrent =>
    refine .first r (first_pass (c := w.run.circumstances) h hnow (hd r rfl) hn halarms).1 hlast ?_
    rw [hdev]
    exact hcurrent.pass (advance_inner_eq_none (n := 1) (b := current) rfl hn)
  | nearing r h hpos hlast hsince =>
    obtain ⟨hnext, hle⟩ := Nearing.pass_going (c := w.run.circumstances) h hp hn halarms
    refine .nearing r (hnow' ▸ hnext) hpos (by omega) fun hr => ⟨Nat.le_add_right_of_le (hsince hr).1, ?_⟩
    rw [hdev]
    exact (hsince hr).2

end Due

/-- A run that is in an alert without steps and with an endless sound, which has been active for so many
milliseconds and which nothing holds up. -/
structure InDue (o : Onset) (url : String) (base last : Nat) (resumed : Bool) (n el : Nat) (b : Activity) (w : Course) : Prop
    extends Unhindered n b w where
  now : w.run.now = o.start.plusMillis el
  due : Due o url base last resumed el w b
  siren : b.EachBlock (Frame.IsSiren url w.run.equipment.defaultSound)

namespace InDue

theorem isUnder (hi : InDue o url base last resumed n el b w) : w.IsUnder n := ⟨b, hi.inner, isDone_of_isAlert hi.due.isAlert⟩

/-- An alert on its own stays on its way, or ends when it is due, or is given up with the round that it is in. -/
theorem undisturbed (hi : InDue o url base last resumed n el b w) (ho : w.Orderly)
    (hendless : ∀ k, w.run.equipment.player k url = .endless) (hs : w.Undisturbed w') :
    ((∃ el' b', InDue o url base last resumed n el' b' w') ∧ w'.run.activity.isInRound n = w.run.activity.isInRound n) ∨
      (w'.run.activity.inner n = some .done ∧ w'.run.now = o.start.plusMillis last ∧
        (resumed = false → (base < w'.run.devices.channel.nextCall ↔ 0 < o.total))) ∨
        w'.run.activity.inner n = none ∧ w.run.activity.isInRound n = true := by
  have hu := hs.under hi.aborted hi.inner (isDone_of_isAlert hi.due.isAlert)
  have he := hs.equipment
  rcases hu.timed (S := fun el b => Due o url base last resumed el w' b ∧
      b.EachBlock (Frame.IsSiren url w.run.equipment.defaultSound))
      (Q := fun el => el = last ∧ (resumed = false → (base < w'.run.devices.channel.nextCall ↔ 0 < o.total))) hi.now
      (fun _ _ hm hd hsame => (hi.due.advance hi.now hi.aborted hi.paused hi.unheeded hi.siren ho.numbered hendless hm hd he
        hsame).imp_left fun hnext => ⟨hnext, eachBlock_advance hi.siren hm⟩)
      (fun hd hsame => ⟨⟨hi.due.stay hd he hsame, hi.siren⟩, (hi.due.stay hd he hsame).wake, eachBlock_wake hi.siren⟩)
      (fun _ hrest halarms hd hpassed => ⟨hi.due.pass hi.now hi.paused hi.unheeded hrest halarms hd he hpassed, hi.siren⟩)
    with ⟨el', b', hnow, hb', hdue, hsiren⟩ | ⟨hdone, e, hnow, rfl, hcalls⟩ | hnone
  · refine Or.inl ⟨⟨el', b', ?_⟩, hu.isInRound hb'⟩
    exact ⟨hi.toUnhindered.undisturbed ho hs hi.due.isAlert hb', hnow, hdue, by rw [he]; exact hsiren⟩
  · exact Or.inr (Or.inl ⟨hdone, hnow, hcalls⟩)
  · exact Or.inr (Or.inr hnone)

/-- An alert on its own ends when it is due, or is given up with a round that it is in. -/
theorem ends {f : Nat → Course} (hf : ∀ k, (f k).Undisturbed (f (k + 1))) (hi : InDue o url base last resumed n el b (f 0))
    (ho : (f 0).Orderly) (hendless : ∀ k, (f 0).run.equipment.player k url = .endless) :
    (∃ k, (∀ j, j ≤ k → (f j).IsUnder n) ∧ (f (k + 1)).run.activity.inner n = some .done ∧
      (f (k + 1)).run.now = o.start.plusMillis last ∧
        (resumed = false → (base < (f (k + 1)).run.devices.channel.nextCall ↔ 0 < o.total))) ∨ GivesUp n f := by
  have horderly := orderly_of_undisturbed hf ho
  have hequipment := equipment_of_steps hf
  refine (stays_or_ends (f := f) (P := fun k => ∃ el b, InDue o url base last resumed n el b (f k))
      (Q := fun w => w.run.now = o.start.plusMillis last ∧
        (resumed = false → (base < w.run.devices.channel.nextCall ↔ 0 < o.total))) ⟨el, b, hi⟩
      (fun k ⟨el, b, hi⟩ => hi.isUnder)
      (fun k ⟨el, b, hi⟩ => hi.undisturbed (horderly k) (hequipment k ▸ hendless) (hf k))).resolve_left fun hall => ?_
  -- if it went on for ever it would go beyond its end, as its sound takes time
  have hblocks : b.EachBlock fun frame children => frame ≠ .loop .infinite ∧
      frame.isPaced (.only url (f 0).run.equipment.defaultSound) children = true := by
    refine hi.siren.mono fun frame children hsiren => ⟨?_, hsiren.isPaced⟩
    rintro rfl
    cases hsiren
  have hstays (k : Nat) : (f k).IsUnder n := by
    obtain ⟨el, b, hk⟩ := hall k
    exact hk.isUnder
  obtain ⟨k, hbeyond⟩ := exists_beyond hf ho (Hearing.isTrue_only hendless) hi.inner hblocks hstays (o.start.plusMillis last).nanos
  obtain ⟨el, b, hk⟩ := hall k
  rw [hk.now] at hbeyond
  exact Nat.not_lt.2 ((o.start.plusMillis_le_iff el last).2 hk.due.el_le) hbeyond

theorem entering (resumed : Bool) {id : StepId} {alert : Alert} {delay : Nat}
    (hb : w.run.activity.inner n = some (.entering (.block id (.notifyUntil alert) []))) (ho : w.Orderly)
    (hp : w.run.signals.paused = false) (hgrants : w.run.equipment.notifier.Grants delay) :
    InDue (alert.onset w.run.now delay) (alert.sound.effectiveUrl w.run.equipment.defaultSound) w.run.devices.channel.nextCall
      (alert.onset w.run.now delay).latest resumed n 0 (.entering (.block id (.notifyUntil alert) [])) w := by
  have htime := inTime_entering hb ho hp (hgrants.answerMs _)
  refine ⟨htime.toUnhindered, htime.now, .announces ?_ rfl rfl, rfl, trivial⟩
  cases htime.stage with
  | announces h => exact h
  | nearing r h => cases h.raised?_eq

end InDue

/-! ## Other users of the devices -/

/-- What others ask of a notifier that grants all of it makes no difference to an announcement. -/
theorem announces_of_grants {k : Notifier} {calls : Nat} (h : Announces o k calls el b) (hg : k.Grants o.delay)
    (calls' : Nat) : Announces o k calls' el b := by
  cases h with
  | entering id children hel htotal hanswer => exact .entering id children hel htotal (hg.answerMs calls')
  | asking id alert children hel hle hgranted hrefused =>
    refine .asking id alert children hel hle (fun hp => ?_) hrefused
    have hsum := hgranted hp
    rw [hg.present] at hsum ⊢
    exact hsum
  | presenting id alert children hel => exact .presenting id alert children hel
  | top r hel => exact .top r hel

theorem Stage.disturbed (hs : Stage o el w b) (hg : w.run.equipment.notifier.Grants o.delay) (x : Disturbance) :
    Stage o el (w.disturbed x) b := by
  cases hs with
  | announces h =>
    refine .announces ?_
    rw [w.equipment_disturbed]
    exact announces_of_grants h hg _
  | first r current h => exact .first r current h
  | nearing r h hdelay htotal hlatest => exact .nearing r (by rw [w.now_disturbed]; exact h) hdelay htotal hlatest

/-- A run that is at work at a depth, with nothing that holds it up. -/
def IsFree (n : Nat) (w : Course) : Prop := ∃ b, w.Unhindered n b ∧ b.isDone = false

/-- A course in which a run stays at work at a depth and is not held up. Otherwise anything can befall it. -/
abbrev StaysFree (n : Nat) : Course → Course → Prop :=
  Relation.ReflTransGen fun w w' => Step (fun _ => True) w w' ∧ w'.IsFree n

/-- What any step of a run makes of an alert that nothing holds up. -/
theorem InTime.step_any (hi : InTime o n el b w) (hg : w.run.equipment.notifier.Grants o.delay)
    (hs : Step (fun _ => True) w w') :
    (∃ el' b', w'.run.now = o.start.plusMillis el' ∧ w'.run.activity.inner n = some b' ∧ Stage o el' w' b') ∨
      (w'.run.activity.inner n = some .done ∧ ∃ e, w'.run.now = o.start.plusMillis e ∧ max o.total o.delay ≤ e ∧ e ≤ o.latest) ∨
        w'.run.activity.inner n = none ∧ w.run.activity.isInRound n = true := by
  have hown (hs : w.Undisturbed w') := hi.step (hs.under hi.aborted hi.inner (isDone_of_isAlert hi.stage.isAlert)) hs.equipment
  cases hs with
  | disturb x _ =>
    refine Or.inl ⟨el, b, ?_, ?_, hi.stage.disturbed hg x⟩
    · rw [w.now_disturbed]
      exact hi.now
    · rw [w.activity_disturbed]
      exact hi.inner
  | move coin hm => exact hown (.move coin hm)
  | wake hy => exact hown (.wake hy)
  | pass ms hpos hw halarms => exact hown (.pass ms hpos hw halarms)

theorem InTime.staysFree (hi : InTime o n el b w) (hg : w.run.equipment.notifier.Grants o.delay) (hs : StaysFree n w w') :
    w'.run.equipment = w.run.equipment ∧ ∃ el b, InTime o n el b w' := by
  induction hs with
  | refl => exact ⟨rfl, el, b, hi⟩
  | tail _ hstep ih =>
    obtain ⟨he, el, b, hi⟩ := ih
    obtain ⟨b₁, hfree, hnot⟩ := hstep.2
    refine ⟨hstep.1.equipment.trans he, ?_⟩
    rcases hi.step_any (he ▸ hg) hstep.1 with ⟨el', b', hnow, hb', hstage⟩ | ⟨hdone, -⟩ | ⟨hnone, -⟩
    · cases hfree.inner.symm.trans hb'
      exact ⟨el', _, hfree, hnow, hstage⟩
    · cases hfree.inner.symm.trans hdone
      cases hnot
    · cases hfree.inner.symm.trans hnone

/-- The time that the notification of an alert takes is charged to its timeout, but its first tick is not
shortened by it. An alert without steps and with an endless sound, whose notification takes so long, ends
after the timeout and that time at the earliest, and at the latest at the end of a first tick of full length
that begins when the notification is up. On its own it ends exactly then, so the timeout and the notification
alone say when only if that tick ends in time; and it sounds unless the timeout is zero, even if the
notification took all the time there was. -/
theorem notification_charge {w₁ : Course} {id : StepId} {alert : Alert} {delay : Nat}
    (h₁ : w₁.run.activity.inner n = some (.entering (.block id (.notifyUntil alert) []))) (ho : w₁.Orderly)
    (hp : w₁.run.signals.paused = false) (hle : (alert.timeout.toNat : Int) ≤ countMax)
    (hgrants : w₁.run.equipment.notifier.Grants delay)
    (hendless : ∀ k, w₁.run.equipment.player k (alert.sound.effectiveUrl w₁.run.equipment.defaultSound) = .endless) :
    (∀ w w', StaysFree n w₁ w → Step (fun _ => True) w w' → w'.run.activity.inner n = some .done →
      ∃ e, w'.run.now = w₁.run.now.plusMillis e ∧ max alert.timeout.toNat delay ≤ e ∧
        e ≤ max alert.timeout.toNat (delay + min alert.timeout.toNat 250)) ∧
    ∀ f : Nat → Course, f 0 = w₁ → (∀ k, (f k).Undisturbed (f (k + 1))) →
      (∃ k, (∀ j, j ≤ k → (f j).IsUnder n) ∧ (f (k + 1)).run.activity.inner n = some .done ∧
        (f (k + 1)).run.now = w₁.run.now.plusMillis (max alert.timeout.toNat (delay + min alert.timeout.toNat 250)) ∧
        (w₁.run.devices.channel.nextCall < (f (k + 1)).run.devices.channel.nextCall ↔ 0 < alert.timeout.toNat)) ∨
      GivesUp n f := by
  have htotal := Alert.totalMs_eq hle
  have htime := inTime_entering h₁ ho hp (hgrants.answerMs _)
  have hlatest : (alert.onset w₁.run.now delay).latest = max alert.timeout.toNat (delay + min alert.timeout.toNat 250) := by
    simp only [Onset.latest, Onset.tickEnd, Alert.onset, htotal]
  refine ⟨fun w w' hstays hs hdone => ?_, fun f hzero hf => ?_⟩
  · obtain ⟨he, el, b, hi⟩ := htime.staysFree hgrants hstays
    rcases hi.step_any (he ▸ hgrants) hs with ⟨el', b', -, hb', hstage⟩ | ⟨-, e, hnow, hearly, hlate⟩ | ⟨hnone, -⟩
    · cases hdone.symm.trans hb'
      cases hstage.isAlert
    · rw [hlatest] at hlate
      rw [show (alert.onset w₁.run.now delay).total = alert.timeout.toNat from htotal] at hearly
      exact ⟨e, hnow, hearly, hlate⟩
    · cases hdone.symm.trans hnone
  · subst hzero
    have hends := InDue.ends hf (.entering false h₁ ho hp hgrants) ho hendless
    rw [hlatest, show (alert.onset (f 0).run.now delay).total = alert.timeout.toNat from htotal] at hends
    refine hends.imp_left ?_
    rintro ⟨k, hunder, hdone, hnow, hcalls⟩
    exact ⟨k, hunder, hdone, hnow, hcalls rfl⟩

/-- A doorbell that is to ring for a second, with a notification that takes most of it. -/
def doorbell : Course :=
  (⟨.ofSteps ⟨fun _ _ => .endless, ⟨fun _ => ⟨.granted, some 0⟩, fun _ => ⟨some 900, false⟩⟩, "bell", fun _ => ⟨0⟩⟩
    [.block "ring" (.notifyUntil { title := "Door", timeoutMs := some 1000 }) []], 0, []⟩ : Course).goOn 1

/-- The doorbell rings for a quarter of a second and ends late. -/
theorem notification_charge_doorbell :
    (∀ k, (doorbell.follow (fun _ => none) k).Undisturbed (doorbell.follow (fun _ => none) (k + 1))) ∧
      ∃ k, (doorbell.follow (fun _ => none) k).run.activity.inner 1 = some .done ∧
        (doorbell.follow (fun _ => none) k).run.now = .ofMillis 1150 := by
  have hentered : doorbell.run.activity.inner 1 = some (.entering _) := rfl
  have hcharge := notification_charge hentered ⟨rfl, nofun, ⟨⟨nofun, nofun⟩, nofun⟩⟩ rfl (by decide)
    (show Notifier.Grants _ 900 from ⟨fun _ => rfl, fun _ => rfl⟩) fun _ => rfl
  have hf (k : Nat) : (doorbell.follow (fun _ => none) k).Undisturbed (doorbell.follow (fun _ => none) (k + 1)) :=
    undisturbed_follow 20 (by decide +kernel) (by decide +kernel) rfl
  refine ⟨hf, ?_⟩
  rcases hcharge.2 _ rfl hf with ⟨k, -, hdone, hnow, -⟩ | ⟨k, -, -, hround⟩
  · exact ⟨k + 1, hdone, hnow⟩
  · cases hround

end Course

end StepTimer
