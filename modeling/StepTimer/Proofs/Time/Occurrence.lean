/-
When a clock next shows a time. A reading of the wall clock goes on by milliseconds and its time of day goes
round once a day, so each time of day is shown for a first time after now (`FirstShows`), within a day; for a
written time that is when the milliseconds have passed that are counted for it. The count goes by the moment of the
same day at which the time is shown, which there is for every time that a text can mean, and the bounds that are put
around the difference never change it.
-/
import StepTimer.Proofs.Time.Written

namespace StepTimer

namespace WallTime

theorem plusMillis_plusMillis (t : WallTime) (j k : Nat) : (t.plusMillis j).plusMillis k = t.plusMillis (j + k) := by
  simp only [plusMillis, mk.injEq]
  omega

/-- The time of day goes round. -/
theorem timeOfDay_plusMillis (t : WallTime) (ms : Nat) :
    (t.plusMillis ms).timeOfDay = (t.timeOfDay + ms) % dayMillis := by
  simp only [timeOfDay, plusMillis, dayMillis]
  omega

/-- Whether a time of day is shown, for the first time after a reading, when so many milliseconds have passed. -/
structure FirstShows (now : WallTime) (time ms : Nat) : Prop where
  pos : 0 < ms
  shows : (now.plusMillis ms).timeOfDay = time
  first : ∀ k, 0 < k → k < ms → (now.plusMillis k).timeOfDay ≠ time

variable {now : WallTime} {time ms ms' : Nat}

/-- There is one first time. -/
theorem FirstShows.unique (h : now.FirstShows time ms) (h' : now.FirstShows time ms') : ms = ms' := by
  rcases Nat.lt_trichotomy ms ms' with hlt | heq | hlt
  · exact absurd h.shows (h'.first ms h.pos hlt)
  · exact heq
  · exact absurd h'.shows (h.first ms' h'.pos hlt)

/-- The first time is within a day, and a whole day off just when the clock shows the time now. -/
theorem FirstShows.le_day (h : now.FirstShows time ms) :
    ms ≤ dayMillis ∧ (ms = dayMillis ↔ now.timeOfDay = time) := by
  have hlt := now.timeOfDay_lt
  have hshows := h.shows
  rw [now.timeOfDay_plusMillis] at hshows
  have hle : ms ≤ dayMillis := by
    by_contra hbeyond
    have hpos : 0 < ms - dayMillis := by omega
    refine h.first (ms - dayMillis) hpos (by simp only [dayMillis] at hbeyond ⊢; omega) ?_
    rw [now.timeOfDay_plusMillis]
    simp only [dayMillis] at hbeyond hshows ⊢
    omega
  refine ⟨hle, ?_⟩
  have hpos := h.pos
  simp only [dayMillis] at hlt hle hshows ⊢
  omega

end WallTime

namespace ClockTime

variable {t : ClockTime}

/-- The milliseconds from midnight to the time in the given half of the day. -/
def timeOfDay (t : ClockTime) (half : Meridiem) : Nat := t.hourOfDay half * 3600000 + t.minute * 60000

theorem hourOfDay_lt (t : ClockTime) (half : Meridiem) : t.hourOfDay half < 24 := by
  have hhour := Nat.mod_lt t.hour (show 0 < 12 by decide)
  cases half <;> simp only [hourOfDay] <;> omega

theorem timeOfDay_lt (h : t.minute ≤ 59) (half : Meridiem) : t.timeOfDay half < WallTime.dayMillis := by
  have hhour := t.hourOfDay_lt half
  unfold timeOfDay WallTime.dayMillis
  omega

/-- A clock shows a time with a minute below 60 once on each day. -/
theorem sameDay?_hourOfDay (h : t.minute ≤ 59) (half : Meridiem) (now : WallTime) :
    now.sameDay? (t.hourOfDay half) t.minute 0 = some ⟨now.millis - now.timeOfDay + t.timeOfDay half⟩ := by
  rw [WallTime.sameDay?, if_pos ⟨t.hourOfDay_lt half, by omega, by decide⟩, Nat.zero_mul, Nat.add_zero, timeOfDay]

/-- The milliseconds until a time are counted from the one time of day to the other, today or tomorrow. -/
theorem millisUntil_eq (h : t.minute ≤ 59) (half : Meridiem) (now : WallTime) :
    t.millisUntil half now = if t.timeOfDay half ≤ now.timeOfDay then
      WallTime.dayMillis + t.timeOfDay half - now.timeOfDay
    else t.timeOfDay half - now.timeOfDay := by
  have hlt := now.timeOfDay_lt
  have htime := timeOfDay_lt h half
  rw [millisUntil, sameDay?_hourOfDay h]
  simp only [WallTime.plusMillis, WallTime.dayMillis] at hlt htime ⊢
  split
  next hpast =>
    rw [if_pos (by omega)]
    dsimp only
    omega
  next hahead =>
    rw [if_neg (by omega)]
    dsimp only
    omega

/-- What is counted is the milliseconds until the clock first shows the time. -/
theorem firstShows_millisUntil (h : t.minute ≤ 59) (half : Meridiem) (now : WallTime) :
    now.FirstShows (t.timeOfDay half) (t.millisUntil half now) := by
  have hlt := now.timeOfDay_lt
  have htime := timeOfDay_lt h half
  have hcount := millisUntil_eq h half now
  simp only [WallTime.dayMillis] at hlt htime hcount
  refine ⟨?_, ?_, fun k hpos hk => ?_⟩
  · split at hcount <;> omega
  · rw [now.timeOfDay_plusMillis, hcount]
    unfold WallTime.dayMillis
    split <;> omega
  · rw [now.timeOfDay_plusMillis]
    unfold WallTime.dayMillis
    split at hcount <;> omega

/-- The time of day that a text means in a half of the day; a text that writes no time means twelve. -/
def meant (text : String) (half : Meridiem) : Nat := ((parse? text).getD .twelve).timeOfDay half

theorem minute_le_of_parse? {text : String} (h : parse? text = some t) : t.minute ≤ 59 := (parse?_eq_some_iff.1 h).2.2

theorem minute_le (text : String) : ((parse? text).getD .twelve).minute ≤ 59 := by
  cases h : parse? text with
  | none => decide
  | some t => exact minute_le_of_parse? h

end ClockTime

/-- The milliseconds that are counted for a written time are those until the clock first shows it. -/
theorem firstShows_millisUntilClock (text : String) (half : Meridiem) (now : WallTime) :
    now.FirstShows (ClockTime.meant text half) (millisUntilClock text half now) :=
  ClockTime.firstShows_millisUntil (ClockTime.minute_le text) half now

/-- A clock that shows a time shows it again after some time. -/
theorem millisUntilClock_pos (text : String) (half : Meridiem) (now : WallTime) : 0 < millisUntilClock text half now :=
  (firstShows_millisUntilClock text half now).pos

/-- A clock shows each of its times within a day. -/
theorem millisUntilClock_le (text : String) (half : Meridiem) (now : WallTime) :
    millisUntilClock text half now ≤ WallTime.dayMillis :=
  (firstShows_millisUntilClock text half now).le_day.1

/-- The hour of the day that an hour of a 12-hour clock stands for: midnight is twelve or zero in the first half of
the day, and noon is twelve or zero in the second. -/
def ClockTime.hourMeant (hour : Nat) : Meridiem → Nat
  | .am => if hour = 12 then 0 else hour
  | .pm => if hour = 12 then 12 else hour + 12

theorem ClockTime.hourOfDay_eq_hourMeant {t : ClockTime} (h : t.hour ≤ 12) (half : Meridiem) :
    t.hourOfDay half = hourMeant t.hour half := by
  cases half <;> simp only [hourOfDay, hourMeant] <;> split <;> omega

/-- The count for a written time. With the hour and the minute that the text writes, or twelve o'clock if it writes
none, it is the least number of milliseconds, at least one, after which the clock shows that hour and minute and no
seconds; so at most a day, and a day just if the clock shows that time now. The moment of the same day that is
looked for always is there. -/
theorem millisUntilClock_least (text : String) (half : Meridiem) (now : WallTime) : ∃ t : ClockTime,
    (ClockTime.parse? text = some t ∨ ClockTime.parse? text = none ∧ t = .twelve) ∧
      now.FirstShows (ClockTime.hourMeant t.hour half * 3600000 + t.minute * 60000) (millisUntilClock text half now) ∧
      millisUntilClock text half now ≤ 86400000 ∧
      (millisUntilClock text half now = 86400000 ↔
        now.timeOfDay = ClockTime.hourMeant t.hour half * 3600000 + t.minute * 60000) ∧
      (now.sameDay? (t.hourOfDay half) t.minute 0).isSome = true := by
  have hread : ClockTime.parse? text = some ((ClockTime.parse? text).getD .twelve) ∨
      ClockTime.parse? text = none ∧ (ClockTime.parse? text).getD .twelve = .twelve := by
    cases ClockTime.parse? text with
    | none => exact Or.inr ⟨rfl, rfl⟩
    | some t => exact Or.inl rfl
  have hhour : ((ClockTime.parse? text).getD .twelve).hour ≤ 12 := by
    rcases hread with hread | ⟨-, htwelve⟩
    · exact (ClockTime.parse?_eq_some_iff.1 hread).2.1
    · rw [htwelve]
      decide
  have hfirst := firstShows_millisUntilClock text half now
  rw [ClockTime.meant, ClockTime.timeOfDay, ClockTime.hourOfDay_eq_hourMeant hhour] at hfirst
  refine ⟨_, hread, hfirst, hfirst.le_day.1, hfirst.le_day.2, ?_⟩
  rw [ClockTime.sameDay?_hourOfDay (ClockTime.minute_le text)]
  rfl

end StepTimer
