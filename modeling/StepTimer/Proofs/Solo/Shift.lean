/-
By how much a pause puts off the end of an alert. While the notification of an alert is on its way nothing
looks at a pause, so its time goes on running (`Halted`); and a pause that begins in a first tick which goes
beyond the timeout ends the tick, and with it what the alert had gained. Only a pause between the two, in a
tick that ends in time or in any later one, puts the end off by as long as it takes.
-/
import StepTimer.Proofs.Solo.Overrun

namespace StepTimer

namespace Course

open Activity

variable {o : Onset} {url : String} {since n el : Nat} {w w' : Course} {b : Activity}

/-- How far a run is in an alert that has been paused since so many milliseconds after its beginning. -/
inductive Halted (o : Onset) (since el : Nat) (w : Course) : Activity → Prop
  | announces {b : Activity} (h : Announces o w.run.equipment.notifier w.run.devices.board.calls el b) (hle : since ≤ el) :
      Halted o since el w b
  | first (r : Raised) {t : Ticking} (current : Activity) (h : FirstTick o el t) (hel : el = since) :
      Halted o since el w (alertRound r t current)
  | nearing {b : Activity} (r : Raised) {left : Int} (h : Nearing w.run.now left r b) (hpos : 0 < o.total)
      (hleft : left.toNat = o.total - max since o.delay) : Halted o since el w b

namespace Halted

theorem isAlert (hs : Halted o since el w b) : b.isAlert = true := by
  cases hs with
  | announces h => exact h.isAlert
  | first r current h => rfl
  | nearing r h => exact isAlert_of_raised? h.raised?_eq

/-- A move of an alert that is paused ends it only if all its time had passed. -/
theorem advance {coin : Bool} {m : Move} (hs : Halted o since el w b) (hnow : w.run.now = o.start.plusMillis el)
    (ha : w.run.signals.aborted = false) (hp : w.run.signals.paused = true) (hd : b.Unheeded w.run.devices)
    (hm : b.advance { w.run.circumstances with coin := coin } w.run.devices = some m)
    (hdev : w'.run.devices = m.devices) (he : w'.run.equipment = w.run.equipment) (hnow' : w'.run.now = w.run.now) :
    Halted o since el w' m.next ∨ m.next = done ∧ o.total ≤ max since o.delay := by
  cases hs with
  | announces h hle =>
    rcases Announces.advance (c := { w.run.circumstances with coin := coin }) h hnow ha hd hm with
      hnext | ⟨r, -, hel, ⟨hno, -⟩ | ⟨-, hpos, hnext⟩ | ⟨htotal, hnext, -⟩⟩
    · exact Or.inl (.announces (by rw [he, hdev]; exact hnext) hle)
    · have hno : w.run.signals.paused = false := hno
      rw [hp] at hno
      cases hno
    · exact Or.inl (.nearing r (by rw [hnow']; exact hnext) hpos (by omega))
    · exact Or.inr ⟨hnext, by omega⟩
  | first r current h hel =>
    refine Or.inl ?_
    have hplace := h.delay_le
    rcases first_advance (c := { w.run.circumstances with coin := coin }) h hnow ha (hd r rfl) hm with
      ⟨m', -, hnext, -⟩ | ⟨t', hnext, hfirst, -⟩ | ⟨hnext, -⟩
    · rw [hnext]
      exact .first r m'.next h hel
    · rw [hnext]
      exact .first r current hfirst hel
    · exact .nearing r (by rw [hnow']; exact hnext) h.pos (by omega)
  | nearing r h hpos hleft =>
    rcases Nearing.advance (c := { w.run.circumstances with coin := coin }) h ha (hd r h.raised?_eq) hm with
      ⟨hnext, -, hover⟩ | hnext
    · exact Or.inr ⟨hnext, by omega⟩
    · exact Or.inl (.nearing r (by rw [hnow']; exact hnext) hpos hleft)

theorem stay (hs : Halted o since el w b) (hcalls : w'.run.devices.board.calls = w.run.devices.board.calls)
    (he : w'.run.equipment = w.run.equipment) (hnow : w'.run.now = w.run.now) : Halted o since el w' b := by
  cases hs with
  | announces h hle => exact .announces (by rw [he, hcalls]; exact h) hle
  | first r current h hel => exact .first r current h hel
  | nearing r h hpos hleft => exact .nearing r (hnow ▸ h) hpos hleft

theorem wake (hs : Halted o since el w b) : Halted o since el w b.wake := by
  cases hs with
  | announces h hle => exact .announces h.wake hle
  | first r current h hel => exact .first r current.wake h hel
  | nearing r h hpos hleft => exact .nearing r h.wake hpos hleft

/-- Time that passes while an alert is paused is taken off only while its notification is on its way. -/
theorem pass {ms : Nat} (hs : Halted o since el w b) (hnow : w.run.now = o.start.plusMillis el)
    (hp : w.run.signals.paused = true) (hd : b.Unheeded w.run.devices) (hn : b.advance w.run.circumstances w.run.devices = none)
    (halarms : ∀ t ∈ b.alarms, (w.run.now.plusMillis ms).nanos ≤ t.nanos) (hdev : w'.run.devices = w.run.devices)
    (he : w'.run.equipment = w.run.equipment) (hnow' : w'.run.now = w.run.now.plusMillis ms) :
    Halted o since (el + ms) w' b := by
  cases hs with
  | announces h hle =>
    refine .announces ?_ (Nat.le_add_right_of_le hle)
    rw [he, hdev]
    exact Announces.pass (c := w.run.circumstances) h hnow hn halarms
  | first r current h hel =>
    have hno : w.run.signals.paused = false := (first_pass (c := w.run.circumstances) h hnow (hd r rfl) hn halarms).2
    rw [hp] at hno
    cases hno
  | nearing r h hpos hleft =>
    have hnext := (Nearing.pass (c := w.run.circumstances) h hn halarms).1
    have hpaused : w.run.circumstances.signals.paused = true := hp
    rw [hpaused] at hnext
    exact .nearing r (hnow' ▸ hnext) hpos (by simpa using hleft)

end Halted

/-- A run that is in an alert without steps, which has been active for so many milliseconds and in which the run
has been paused since an earlier one. -/
structure InHalt (o : Onset) (url : String) (since n el : Nat) (b : Activity) (w : Course) : Prop where
  inner : w.run.activity.inner n = some b
  aborted : w.run.signals.aborted = false
  paused : w.run.signals.paused = true
  unheeded : b.Unheeded w.run.devices
  now : w.run.now = o.start.plusMillis el
  halted : Halted o since el w b
  siren : b.EachBlock (Frame.IsSiren url w.run.equipment.defaultSound)

namespace InHalt

theorem isUnder (hi : InHalt o url since n el b w) : w.IsUnder n := ⟨b, hi.inner, isDone_of_isAlert hi.halted.isAlert⟩

/-- An alert stays paused, or ends because all its time had passed, or is given up with the round that it is in. -/
theorem undisturbed (hi : InHalt o url since n el b w) (ho : w.Orderly) (hs : w.Undisturbed w') :
    ((∃ el' b', InHalt o url since n el' b' w') ∧ w'.run.activity.isInRound n = w.run.activity.isInRound n) ∨
      (w'.run.activity.inner n = some .done ∧ ∃ e, w'.run.now = o.start.plusMillis e ∧ o.total ≤ max since o.delay) ∨
        w'.run.activity.inner n = none ∧ w.run.activity.isInRound n = true := by
  have hu := hs.under hi.aborted hi.inner (isDone_of_isAlert hi.halted.isAlert)
  have he := hs.equipment
  rcases hu.timed (S := fun el b => Halted o since el w' b ∧ b.EachBlock (Frame.IsSiren url w.run.equipment.defaultSound))
      (Q := fun _ => o.total ≤ max since o.delay) hi.now
      (fun _ _ hm hd hsame => (hi.halted.advance hi.now hi.aborted hi.paused hi.unheeded hm hd he hsame).imp_left
        fun hnext => ⟨hnext, eachBlock_advance hi.siren hm⟩)
      (fun hd hsame => by
        have hstay := hi.halted.stay (congrArg (·.board.calls) hd) he hsame
        exact ⟨⟨hstay, hi.siren⟩, hstay.wake, eachBlock_wake hi.siren⟩)
      (fun _ hrest halarms hd hpassed => ⟨hi.halted.pass hi.now hi.paused hi.unheeded hrest halarms hd he hpassed, hi.siren⟩)
    with ⟨el', b', hnow, hb', hhalted, hsiren⟩ | hdone | hnone
  · refine Or.inl ⟨⟨el', b', hb', ?_, ?_, hu.unheeded ho hi.unheeded hi.halted.isAlert hb', hnow, hhalted, ?_⟩, hu.isInRound hb'⟩
    · rw [hs.signals]; exact hi.aborted
    · rw [hs.signals]; exact hi.paused
    · rw [he]; exact hsiren
  · exact Or.inr (Or.inl hdone)
  · exact Or.inr (Or.inr hnone)

/-- An alert is paused. -/
theorem pause {base : Nat} (hi : InDue o url base o.latest false n el b w) (hel : el < o.latest) :
    InHalt o url el n el b (w.disturbed (.control .pause)) := by
  refine ⟨hi.inner, hi.aborted, rfl, hi.unheeded, hi.now, ?_, hi.siren⟩
  cases hi.due with
  | announces h => exact .announces h (Nat.le_refl _)
  | first r h => exact .first r _ h rfl
  | nearing r h hpos hlast hsince =>
    have htick := (hsince rfl).1
    refine .nearing r h hpos ?_
    unfold Onset.latest at hel hlast
    unfold Onset.tickEnd at hel hlast htick
    omega

/-- The sound of a paused alert is silenced. -/
theorem silence (hi : InHalt o url since n el b w) : InHalt o url since n el b (w.disturbed (.control .silenceOwn)) :=
  ⟨hi.inner, hi.aborted, hi.paused, hi.unheeded, hi.now, hi.halted.stay rfl rfl rfl, hi.siren⟩

/-- An alert goes on that was paused. Its end is put off by as long as it was paused only if its notification was
up before and its first tick would have ended in time. -/
theorem resume (hi : InHalt o url since n el b w) (hsince : since < o.latest) (hel : since < el) :
    ∃ base last, InDue o url base last true n el b (w.disturbed (.control .resume)) ∧
      last + since ≤ o.latest + el ∧ (last + since = o.latest + el ↔ o.delay ≤ since ∧ o.tickEnd ≤ o.total) := by
  have hdue {base last : Nat} (h : Due o url base last true el (w.disturbed (.control .resume)) b) :
      InDue o url base last true n el b (w.disturbed (.control .resume)) :=
    ⟨⟨hi.inner, hi.aborted, rfl, hi.unheeded⟩, hi.now, h, hi.siren⟩
  cases hi.halted with
  | announces h hle =>
    have hdelay := h.el_le
    refine ⟨_, _, hdue (.announces h rfl rfl), by omega, ?_⟩
    omega
  | first r current h hsame => omega
  | nearing r h hpos hleft =>
    refine ⟨0, _, hdue (.nearing r h hpos rfl nofun), ?_, ?_⟩ <;> unfold Onset.latest Onset.tickEnd at * <;> omega

end InHalt

/-! ## Two runs -/

theorem Orderly.control (ho : w.Orderly) {c : Control} (hc : c ≠ .abort) (hdismiss : c ≠ .dismiss) :
    (w.disturbed (.control c)).Orderly := by
  refine ⟨?_, ?_, ?_⟩
  · rw [w.aborted_disturbed (by simpa using hc)]
    exact ho.aborted
  · cases c with
    | dismiss => exact absurd rfl hdismiss
    | _ => exact ho.shown
  · cases c with
    | silenceOwn => exact ho.numbered.stopOwnedBy _
    | silenceAny => exact ho.numbered.stop
    | silenceOther => exact ho.numbered.stopOwnedBy _
    | _ => exact ho.numbered

/-- A run that is paused at one step, with its sound silenced, and goes on at another. Nothing else disturbs
it. -/
structure PausedOnce (g : Nat → Course) (i j : Nat) : Prop where
  pause : g (i + 1) = (g i).disturbed (.control .pause)
  silence : g (i + 2) = (g (i + 1)).disturbed (.control .silenceOwn)
  le : i + 2 ≤ j
  resume : g (j + 1) = (g j).disturbed (.control .resume)
  undisturbed : ∀ k, k ≠ i → k ≠ i + 1 → k ≠ j → (g k).Undisturbed (g (k + 1))

namespace PausedOnce

variable {g : Nat → Course} {i j : Nat}

/-- A step of such a run is one of the three controls, or nothing disturbs it. -/
theorem cases (hg : PausedOnce g i j) (k : Nat) :
    (∃ c, c ≠ .abort ∧ c ≠ .dismiss ∧ g (k + 1) = (g k).disturbed (.control c)) ∨ (g k).Undisturbed (g (k + 1)) := by
  by_cases hi : k = i
  · exact Or.inl ⟨.pause, by simp, by simp, hi ▸ hg.pause⟩
  · by_cases hi' : k = i + 1
    · exact Or.inl ⟨.silenceOwn, by simp, by simp, hi' ▸ hg.silence⟩
    · by_cases hj : k = j
      · exact Or.inl ⟨.resume, by simp, by simp, hj ▸ hg.resume⟩
      · exact Or.inr (hg.undisturbed k hi hi' hj)

theorem step (hg : PausedOnce g i j) (k : Nat) : Step (fun _ => True) (g k) (g (k + 1)) := by
  rcases hg.cases k with ⟨c, -, -, he⟩ | hs
  · exact he ▸ .disturb _ trivial
  · exact hs.mono nofun

theorem orderly (hg : PausedOnce g i j) (ho : (g 0).Orderly) (k : Nat) : (g k).Orderly := by
  induction k with
  | zero => exact ho
  | succ k ih =>
    rcases hg.cases k with ⟨c, hc, hdismiss, he⟩ | hs
    · exact he ▸ ih.control hc hdismiss
    · exact ih.step hs

end PausedOnce

/-- The end of an alert that was paused after so many milliseconds, for so long. It is put off by all of that
only if the notification was up before and the first tick ends in time. -/
def PutOff (o : Onset) (since pause e : Nat) : Prop :=
  e ≤ o.latest + pause ∧ (e = o.latest + pause ↔ o.delay ≤ since ∧ o.tickEnd ≤ o.total)

/-- Where an alert is in a run that is paused once. -/
inductive Phase (o : Onset) (url : String) (since pause n i j k : Nat) (w : Course) : Prop
  | before {base el : Nat} {b : Activity} (hk : k ≤ i) (h : InDue o url base o.latest false n el b w)
  | during {el : Nat} {b : Activity} (hk : i < k) (hk' : k ≤ j) (h : InHalt o url since n el b w)
  | after {base last el : Nat} {b : Activity} (hk : j < k) (h : InDue o url base last true n el b w)
      (hlast : PutOff o since pause last)

namespace Phase

variable {pause i j k : Nat}

theorem isUnder (h : Phase o url since pause n i j k w) : w.IsUnder n := by
  cases h with
  | before _ h => exact h.isUnder
  | during _ _ h => exact h.isUnder
  | after _ h => exact h.isUnder

/-- Each step of a run that is paused once takes an alert on, or ends it as late as the pause puts it off. -/
theorem step {g : Nat → Course} (hg : PausedOnce g i j) (ho : (g 0).Orderly)
    (hendless : ∀ m, (g 0).run.equipment.player m url = .endless) (hsince : (g i).run.now = o.start.plusMillis since)
    (hbefore : since < o.latest) (hpause : 0 < pause) (hresume : (g j).run.now = o.start.plusMillis (since + pause))
    (h : Phase o url since pause n i j k (g k)) :
    (Phase o url since pause n i j (k + 1) (g (k + 1)) ∧
        (g (k + 1)).run.activity.isInRound n = (g k).run.activity.isInRound n) ∨
      ((g (k + 1)).run.activity.inner n = some .done ∧
        ∃ e, (g (k + 1)).run.now = o.start.plusMillis e ∧ PutOff o since pause e) ∨
      (g (k + 1)).run.activity.inner n = none ∧ (g k).run.activity.isInRound n = true := by
  have ho := hg.orderly ho
  have hplayer (m : Nat) : (g k).run.equipment.player m url = .endless := by
    rw [equipment_of_steps hg.step k]
    exact hendless m
  have hupto {k' a e : Nat} (hk : k + 1 ≤ k') (ha : (g k').run.now = o.start.plusMillis a)
      (he : (g (k + 1)).run.now = o.start.plusMillis e) : e ≤ a := by
    have hle := le_of_steps hg.step hk
    rwa [ha, he, o.start.plusMillis_le_iff] at hle
  cases h with
  | before hk h =>
    rcases Nat.lt_or_eq_of_le hk with hlt | rfl
    · rcases h.undisturbed (ho k) hplayer (hg.undisturbed k (by omega) (by omega) (by have := hg.le; omega)) with
        ⟨⟨el', b', hnext⟩, hround⟩ | ⟨-, hnow, -⟩ | hnone
      · exact Or.inl ⟨.before hlt hnext, hround⟩
      · have hle := hupto hlt hsince hnow
        omega
      · exact Or.inr (Or.inr hnone)
    · refine Or.inl ?_
      have hle := hg.le
      have hel : _ = since := Instant.plusMillis_inj (h.now.symm.trans hsince)
      subst hel
      rw [hg.pause]
      exact ⟨.during (Nat.lt_succ_self _) (by omega) (.pause h hbefore), rfl⟩
  | during hk hk' h =>
    by_cases hi : k = i + 1
    · subst hi
      rw [hg.silence]
      exact Or.inl ⟨.during (by omega) hg.le h.silence, rfl⟩
    · rcases Nat.lt_or_eq_of_le hk' with hlt | rfl
      · rcases h.undisturbed (ho k) (hg.undisturbed k (by omega) hi (by omega)) with
          ⟨⟨el', b', hnext⟩, hround⟩ | ⟨hdone, e, hnow, hle⟩ | hnone
        · exact Or.inl ⟨.during (by omega) hlt hnext, hround⟩
        · refine Or.inr (Or.inl ⟨hdone, e, hnow, ?_⟩)
          have hend := hupto hlt hresume hnow
          unfold PutOff
          unfold Onset.latest at hbefore ⊢
          omega
        · exact Or.inr (Or.inr hnone)
      · have hel : _ = since + pause := Instant.plusMillis_inj (h.now.symm.trans hresume)
        subst hel
        obtain ⟨base, last, hdue, hle, hiff⟩ := h.resume hbefore (by omega)
        rw [hg.resume]
        refine Or.inl ⟨.after (Nat.lt_succ_self _) hdue ⟨by omega, ?_⟩, rfl⟩
        rw [← hiff]
        omega
  | after hk h hlast =>
    have hle := hg.le
    rcases h.undisturbed (ho k) hplayer (hg.undisturbed k (by omega) (by omega) (by omega)) with
      ⟨⟨el', b', hnext⟩, hround⟩ | ⟨hdone, hnow, -⟩ | hnone
    · exact Or.inl ⟨.after (by omega) hnext hlast, hround⟩
    · exact Or.inr (Or.inl ⟨hdone, _, hnow, hlast⟩)
    · exact Or.inr (Or.inr hnone)

end Phase

/-- An alert in a run that is paused once ends as late as the pause puts it off, or is given up with a round that
it is in. -/
theorem PausedOnce.ends {g : Nat → Course} {base pause i j : Nat} (hg : PausedOnce g i j)
    (hi : InDue o url base o.latest false n el b (g 0)) (ho : (g 0).Orderly)
    (hendless : ∀ m, (g 0).run.equipment.player m url = .endless) (hsince : (g i).run.now = o.start.plusMillis since)
    (hbefore : since < o.latest) (hpause : 0 < pause) (hresume : (g j).run.now = o.start.plusMillis (since + pause)) :
    (∃ k, (∀ m, m ≤ k → (g m).IsUnder n) ∧ (g (k + 1)).run.activity.inner n = some .done ∧
      ∃ e, (g (k + 1)).run.now = o.start.plusMillis e ∧ PutOff o since pause e) ∨ GivesUp n g := by
  refine (stays_or_ends (f := g) (P := fun k => Phase o url since pause n i j k (g k))
      (Q := fun w => ∃ e, w.run.now = o.start.plusMillis e ∧ PutOff o since pause e) (.before (Nat.zero_le i) hi)
      (fun k hk => hk.isUnder) (fun k hk => hk.step hg ho hendless hsince hbefore hpause hresume)).resolve_left fun hall => ?_
  -- after the pause nothing disturbs it any more, so it would end on its own
  have hle := hg.le
  have hafter (k : Nat) : (g (j + 1 + k)).Undisturbed (g (j + 1 + (k + 1))) :=
    hg.undisturbed (j + 1 + k) (by omega) (by omega) (by omega)
  have hunder (k : Nat) : (g (j + 1 + k)).IsUnder n := (hall (j + 1 + k)).isUnder
  cases hall (j + 1) with
  | before hk => omega
  | during hk hk' => omega
  | after hk h hlast =>
    have hplayer (m : Nat) : (g (j + 1)).run.equipment.player m url = .endless := by
      rw [equipment_of_steps hg.step]
      exact hendless m
    rcases InDue.ends hafter h (hg.orderly ho _) hplayer with ⟨k, -, hdone, -⟩ | ⟨k, -, hnone, -⟩
    · obtain ⟨b, hb, hnot⟩ := hunder (k + 1)
      cases hb.symm.trans hdone
      cases hnot
    · obtain ⟨b, hb, -⟩ := hunder (k + 1)
      cases hb.symm.trans hnone

/-- A pause puts off the end of an alert by as long as it takes at most, and not always by that. Of two runs that
begin with the same alert, without steps and with an endless sound, one is paused at some moment before its end,
with its sound silenced, and goes on after so many milliseconds. It ends that much later than the other if its
notification was up when it was paused, and its first tick ends in time, and otherwise earlier: the time for
which it was paused while its notification was on its way is charged to its timeout, and what the alert gains
when its first tick goes beyond that is lost by a pause. -/
theorem pause_shift {w₁ : Course} {id : StepId} {alert : Alert} {delay : Nat}
    (h₁ : w₁.run.activity.inner n = some (.entering (.block id (.notifyUntil alert) []))) (ho : w₁.Orderly)
    (hp : w₁.run.signals.paused = false) (hle : (alert.timeout.toNat : Int) ≤ countMax)
    (hgrants : w₁.run.equipment.notifier.Grants delay)
    (hendless : ∀ k, w₁.run.equipment.player k (alert.sound.effectiveUrl w₁.run.equipment.defaultSound) = .endless)
    {f g : Nat → Course} {i j since pause : Nat} (hfzero : f 0 = w₁) (hf : ∀ k, (f k).Undisturbed (f (k + 1)))
    (hgzero : g 0 = w₁) (hg : PausedOnce g i j) (hsince : (g i).run.now = w₁.run.now.plusMillis since)
    (hbefore : since < max alert.timeout.toNat (delay + min alert.timeout.toNat 250)) (hpause : 0 < pause)
    (hresume : (g j).run.now = w₁.run.now.plusMillis (since + pause)) :
    (EndsAfter n f (max alert.timeout.toNat (delay + min alert.timeout.toNat 250)) ∨ GivesUp n f) ∧
    ((∃ e, EndsAfter n g e ∧ e ≤ max alert.timeout.toNat (delay + min alert.timeout.toNat 250) + pause ∧
        (e = max alert.timeout.toNat (delay + min alert.timeout.toNat 250) + pause ↔
          delay ≤ since ∧ delay + min alert.timeout.toNat 250 ≤ alert.timeout.toNat)) ∨
      GivesUp n g) := by
  have htotal : (alert.onset w₁.run.now delay).total = alert.timeout.toNat := alert.totalMs_eq hle
  have hend : (alert.onset w₁.run.now delay).tickEnd = delay + min alert.timeout.toNat 250 := by
    rw [Onset.tickEnd, htotal]
    rfl
  have hlatest : (alert.onset w₁.run.now delay).latest = max alert.timeout.toNat (delay + min alert.timeout.toNat 250) := by
    rw [Onset.latest, hend, htotal]
  have hdue := InDue.entering false h₁ ho hp hgrants
  refine ⟨?_, ?_⟩
  · subst hfzero
    refine (InDue.ends hf hdue ho hendless).imp_left ?_
    rintro ⟨k, hunder, hdone, hnow, -⟩
    exact ⟨k, hunder, hdone, by rw [hnow, hlatest]; rfl⟩
  · subst hgzero
    rw [← hlatest] at hbefore
    refine (hg.ends hdue ho hendless hsince hbefore hpause hresume).imp_left ?_
    rintro ⟨k, hunder, hdone, e, hnow, hputOff⟩
    refine ⟨e, ⟨k, hunder, hdone, hnow⟩, ?_⟩
    unfold PutOff at hputOff
    rwa [hlatest, hend, htotal] at hputOff

/-- A chime that is to ring for a second, with a notification that takes half of it. -/
def chime : Course :=
  (⟨.ofSteps ⟨fun _ _ => .endless, ⟨fun _ => ⟨.granted, some 0⟩, fun _ => ⟨some 500, false⟩⟩, "bell", fun _ => ⟨0⟩⟩
    [.block "ring" (.notifyUntil { title := "Noon", timeoutMs := some 1000 }) []], 0, []⟩ : Course).goOn 1

/-- It is paused as soon as its notification is on its way, and goes on when that is up. -/
def chimeScript : Nat → Option Disturbance
  | 2 => some (.control .pause)
  | 3 => some (.control .silenceOwn)
  | 5 => some (.control .resume)
  | _ => none

/-- The chime that is paused for half a second ends less than half a second later. -/
theorem pause_shift_chime :
    PausedOnce (chime.follow chimeScript) 2 5 ∧ (chime.follow chimeScript 5).run.now = .ofMillis 500 ∧
      EndsAfter 1 (chime.follow fun _ => none) 1000 ∧ ∃ e, EndsAfter 1 (chime.follow chimeScript) e ∧ e < 1500 := by
  have hentered : chime.run.activity.inner 1 = some (.entering _) := rfl
  have hf (k : Nat) : (chime.follow (fun _ => none) k).Undisturbed (chime.follow (fun _ => none) (k + 1)) :=
    undisturbed_follow 24 (by decide +kernel) (by decide +kernel) rfl
  have hg : PausedOnce (chime.follow chimeScript) 2 5 := by
    refine ⟨rfl, rfl, by decide, rfl, fun k h₂ h₃ h₅ => undisturbed_follow 27 (by decide +kernel) (by decide +kernel) ?_⟩
    unfold chimeScript
    split <;> first | rfl | contradiction
  obtain ⟨hends, hputOff⟩ := pause_shift hentered ⟨rfl, nofun, ⟨⟨nofun, nofun⟩, nofun⟩⟩ rfl (by decide)
    (show Notifier.Grants _ 500 from ⟨fun _ => rfl, fun _ => rfl⟩) (fun _ => rfl) rfl hf rfl hg
    (show _ = Instant.plusMillis _ 0 by decide +kernel) (by decide) (show 0 < 500 by decide) (by decide +kernel)
  have hkept {f : Nat → Course} (hzero : (f 0).run.activity.isInRound 1 = false) : ¬ GivesUp 1 f := by
    rintro ⟨k, -, -, hround⟩
    rw [hzero] at hround
    cases hround
  obtain ⟨e, hend, hle, hiff⟩ := hputOff.resolve_right (hkept rfl)
  refine ⟨hg, by decide +kernel, hends.resolve_right (hkept rfl), e, hend, ?_⟩
  have hne : e ≠ 1500 := fun he => absurd (hiff.1 he).1 (by decide)
  exact Nat.lt_of_le_of_ne hle hne

end Course

end StepTimer
