/-
The notifications whose dismissal a run looks for: those of the alerts that it is in. Each is put up
under the next number of the board, so that no two runs look for the same one, and a dismissal is
nothing to a run that does not look for it.
-/
import StepTimer.Proofs.Engine.Moves

namespace StepTimer

/-- The devices when one notification has been dismissed. -/
def Devices.dismiss (d : Devices) (n : Nat) : Devices := { d with board := d.board.dismiss n }

/-- The number under which a notification is shown is the next one of the board. -/
theorem NoticePhase.advance_shown {c : Circumstances} {d d' : Devices} {phase : NoticePhase} {notice : Option Nat}
    (h : phase.advance c d = some (.shown notice d')) :
    d' = { d with board := d.board.put } ∧ ∀ n ∈ notice, n = d.board.shown := by
  cases phase with
  | asking due permission =>
    simp only [NoticePhase.advance] at h
    split at h
    · split at h <;> cases h
    · cases h
  | presenting due fails =>
    simp only [NoticePhase.advance] at h
    split at h
    · cases h
      refine ⟨rfl, fun n hn => ?_⟩
      cases fails <;> cases hn
      rfl
    · cases h

namespace Activity

/-- The notifications of the alerts that an activity is in. -/
def notices : Activity → List Nat
  | within current _ => current.notices
  | alertTop r _ => r.notice.toList
  | alertHeld r _ => r.notice.toList
  | alertRound r _ current => r.notice.toList ++ current.notices
  | alertGap r _ => r.notice.toList
  | loopPass _ _ _ current => current.notices
  | _ => []

/-- What a move makes of the notifications that are looked for: those it adds, it has put up. No two of them are
the same. -/
structure Posts (b : NoticeBoard) (ns : List Nat) (b' : NoticeBoard) (ns' : List Nat) : Prop where
  dismissed : b'.dismissed = b.dismissed
  shown : b.shown ≤ b'.shown
  added : ∀ n ∈ ns', n ∈ ns ∨ b.shown ≤ n ∧ n < b'.shown
  nodup : ns.Nodup → (∀ n ∈ ns, n < b.shown) → ns'.Nodup

variable {c : Circumstances} {d : Devices} {m : Move}

/-- Nothing is put up. -/
theorem Posts.of_sublist {b b' : NoticeBoard} {ns ns' : List Nat} (hd : b'.dismissed = b.dismissed)
    (hs : b'.shown = b.shown) (h : ns'.Sublist ns) : Posts b ns b' ns' :=
  ⟨hd, Nat.le_of_eq hs.symm, fun _ hn => Or.inl (h.subset hn), fun hn _ => h.nodup hn⟩

theorem nodup_toList (o : Option Nat) : o.toList.Nodup := by cases o <;> simp

theorem notices_wake (a : Activity) : a.wake.notices = a.notices := by
  induction a with
  | within current rest ih => exact ih
  | alertRound r t current ih => exact congrArg (r.notice.toList ++ ·) ih
  | loopPass count children passes current ih => exact ih
  | _ => rfl

theorem beginStep_notices (s : Step) :
    (beginStep c d s).next.notices = [] ∧ (beginStep c d s).devices.board.dismissed = d.board.dismissed ∧
      (beginStep c d s).devices.board.shown = d.board.shown := by
  cases s with
  | leaf id action => cases action <;> exact ⟨rfl, rfl, rfl⟩
  | block id frame children =>
    cases frame with
    | notifyUntil alert => exact ⟨rfl, rfl, rfl⟩
    | loop count =>
      rcases beginLoop_cases id count children c d with h | ⟨-, ⟨-, h⟩ | ⟨-, h⟩⟩ <;> rw [h] <;> exact ⟨rfl, rfl, rfl⟩

theorem afterRound_notices (r : Raised) (countdown : Countdown) (events : List Event) :
    (r.afterRound countdown c d events).next.notices = r.notice.toList ∧
      (r.afterRound countdown c d events).devices = d := by
  obtain ⟨report, -, ⟨t, -, -, h⟩ | ⟨countdown', h⟩⟩ := afterRound_cases r countdown c d events <;> rw [h] <;>
    exact ⟨rfl, rfl⟩

theorem notices_round (r : Raised) (c : Circumstances) : (r.round c).notices = [] := by
  unfold Raised.round
  split <;> rfl

theorem notices_advance {a : Activity} (h : a.advance c d = some m) :
    Posts d.board a.notices m.devices.board m.next.notices := by
  induction a generalizing m with
  | done => cases h
  | ready steps =>
    rcases advance_ready h with rfl | ⟨-, rfl | ⟨s, rest, rfl, rfl⟩⟩ <;> exact .of_sublist rfl rfl (List.nil_sublist _)
  | held steps =>
    rcases advance_held h with rfl | ⟨-, s, rest, rfl, rfl⟩ <;> exact .of_sublist rfl rfl (List.nil_sublist _)
  | within current rest ih =>
    rcases advance_within h with ⟨-, rfl⟩ | ⟨m', hm', rfl⟩
    · exact .of_sublist rfl rfl (List.nil_sublist _)
    · have hposts := ih hm'
      exact hposts
  | entering s =>
    cases h
    obtain ⟨hnone, hdismissed, hshown⟩ := beginStep_notices (c := c) (d := d) s
    rw [hnone]
    exact .of_sublist hdismissed hshown (List.nil_sublist _)
  | counting id t =>
    obtain ⟨hd, ⟨hnext, -⟩ | ⟨tm, t', -, -, hnext, -⟩⟩ := advance_counting h <;> rw [hnext, hd] <;>
      exact .of_sublist rfl rfl (List.nil_sublist _)
  | sound url replays phase =>
    rcases advance_sound h with ⟨-, rfl⟩ | ⟨-, rfl⟩ | ⟨-, rfl⟩ | ⟨call, how, -, -, rfl⟩
    · exact .of_sublist rfl rfl (List.nil_sublist _)
    · exact .of_sublist rfl rfl (List.nil_sublist _)
    · split <;> exact .of_sublist rfl rfl (List.nil_sublist _)
    · have hnone (b : Bool) : (if b then sound url replays .check else done).notices = [] := by
        cases b <;> rfl
      exact .of_sublist rfl rfl (List.sublist_nil.2 (hnone _))
  | notifying n phase grace =>
    simp only [advance, advanceNotice] at h
    split at h
    · rename_i phase' d' hp
      cases h
      obtain ⟨due, delay, fails, -, -, rfl⟩ := NoticePhase.advance_goes hp
      exact .of_sublist rfl rfl (List.nil_sublist _)
    · rename_i notice d' hp
      cases h
      obtain ⟨rfl, -⟩ := NoticePhase.advance_shown hp
      exact ⟨rfl, Nat.le_succ _, fun n hn => (List.not_mem_nil hn).elim, fun _ _ => .nil⟩
    · rename_i d' hp
      cases h
      obtain ⟨-, ⟨-, _, _, hm⟩ | ⟨-, ⟨_, hm⟩ | hm⟩⟩ := NoticePhase.advance_cases hp <;> cases hm
      exact .of_sublist rfl rfl (List.nil_sublist _)
    · split at h
      · cases h
        exact .of_sublist rfl rfl (List.nil_sublist _)
      · cases h
  | announcing id alert children countdown phase =>
    obtain ⟨nm, hp, rfl⟩ := Option.map_eq_some_iff.1 h
    cases nm with
    | goes phase' d' =>
      obtain ⟨due, delay, fails, -, -, rfl⟩ := NoticePhase.advance_goes hp
      exact .of_sublist rfl rfl (List.nil_sublist _)
    | shown notice d' =>
      obtain ⟨rfl, hnotice⟩ := NoticePhase.advance_shown hp
      refine ⟨rfl, Nat.le_succ _, fun n hn => Or.inr ?_, fun _ _ => nodup_toList notice⟩
      rw [hnotice n (Option.mem_toList.1 hn)]
      exact ⟨Nat.le_refl _, Nat.lt_succ_self _⟩
    | refused d' =>
      obtain ⟨-, ⟨-, _, _, hm⟩ | ⟨-, ⟨_, hm⟩ | hm⟩⟩ := NoticePhase.advance_cases hp <;> cases hm
      exact .of_sublist rfl rfl (List.nil_sublist _)
  | alertTop r countdown =>
    cases h
    rcases alertTop_cases r countdown c d with h | ⟨-, ⟨countdown', h⟩ | ⟨t, -, h⟩⟩ <;> rw [h]
    · exact .of_sublist rfl rfl (List.nil_sublist _)
    · exact .of_sublist rfl rfl (List.Sublist.refl _)
    · refine .of_sublist rfl rfl ?_
      show (r.notice.toList ++ (r.round c).notices).Sublist r.notice.toList
      simp [notices_round]
  | alertHeld r countdown =>
    rw [advance_alertHeld h]
    exact .of_sublist rfl rfl (List.Sublist.refl _)
  | alertRound r t current ih =>
    have hafter (countdown : Countdown) (d' : Devices) (events : List Event) (hd : d'.board = d.board) :
        Posts d.board (alertRound r t current).notices (r.afterRound countdown c d' events).devices.board
          (r.afterRound countdown c d' events).next.notices := by
      obtain ⟨hnext, hdev⟩ := afterRound_notices (c := c) (d := d') r countdown events
      rw [hnext, hdev, hd]
      exact .of_sublist rfl rfl (List.sublist_append_left _ _)
    rcases advance_alertRound h with ⟨-, rfl⟩ | ⟨m', hm', rfl⟩ | h
    · exact hafter t.countdown d [] rfl
    · have hposts := ih hm'
      refine ⟨hposts.dismissed, hposts.shown, fun n hn => ?_, fun hnodup hold => ?_⟩
      · rcases List.mem_append.1 hn with hn | hn
        · exact Or.inl (List.mem_append_left _ hn)
        · exact (hposts.added n hn).imp_left (List.mem_append_right _)
      · obtain ⟨hr, hcurrent, hapart⟩ := List.nodup_append.1 hnodup
        refine List.nodup_append.2 ⟨hr, hposts.nodup hcurrent fun n hn => hold n (List.mem_append_right _ hn), ?_⟩
        rintro n hn k hk rfl
        rcases hposts.added n hk with hk | ⟨hnew, -⟩
        · exact hapart n hn n hk rfl
        · exact absurd (hold n (List.mem_append_left _ hn)) (Nat.not_lt.2 hnew)
    · rcases beside_cases h with ⟨countdown, rfl⟩ | ⟨tm, t', -, -, hnext, hd, -⟩
      · exact hafter countdown (c.silence d) current.dropEvents rfl
      · rw [hnext, hd]
        exact .of_sublist rfl rfl (List.Sublist.refl _)
  | alertGap r t =>
    obtain ⟨hd, ⟨countdown, hnext, -⟩ | ⟨tm, t', -, -, hnext, -⟩⟩ := advance_alertGap h <;> rw [hnext, hd] <;>
      exact .of_sublist rfl rfl (List.Sublist.refl _)
  | loopTop count children passes =>
    cases h
    rcases loopTop_cases count children passes c d with h | ⟨-, h⟩ <;> rw [h] <;>
      exact .of_sublist rfl rfl (List.nil_sublist _)
  | loopPass count children passes current ih =>
    rcases advance_loopPass h with ⟨-, rfl⟩ | ⟨m', hm', rfl⟩
    · exact .of_sublist rfl rfl (List.nil_sublist _)
    · have hposts := ih hm'
      exact hposts
  | loopYield count children passes => cases h
  | parked =>
    rw [advance_parked h]
    exact .of_sublist rfl rfl (List.nil_sublist _)

/-- No move dismisses a notification. -/
theorem isDismissed_advance {a : Activity} (h : a.advance c d = some m) (r : Raised) :
    r.isDismissed m.devices = r.isDismissed d := by
  unfold Raised.isDismissed NoticeBoard.isDismissed
  rw [(notices_advance h).dismissed]

/-! ## A dismissal -/

theorem isDismissed_dismiss {r : Raised} {n : Nat} (h : n ∉ r.notice.toList) :
    r.isDismissed (d.dismiss n) = r.isDismissed d := by
  unfold Raised.isDismissed NoticeBoard.isDismissed
  cases hr : r.notice with
  | none => rfl
  | some k =>
    have hne : k ≠ n := by
      rintro rfl
      rw [hr] at h
      exact h (List.mem_singleton_self k)
    simp [Devices.dismiss, NoticeBoard.dismiss, hne]

theorem isDismissed_dismiss_self {r : Raised} {n : Nat} (h : r.notice = some n) : r.isDismissed (d.dismiss n) = true := by
  simp [Raised.isDismissed, NoticeBoard.isDismissed, h, Devices.dismiss, NoticeBoard.dismiss]

end Activity

/-- A move when one notification more has been dismissed. -/
def Move.dismiss (m : Move) (n : Nat) : Move := { m with devices := m.devices.dismiss n }

namespace Activity

variable {n : Nat}

theorem beginStep_dismiss (s : Step) : beginStep c (d.dismiss n) s = (beginStep c d s).dismiss n := by
  cases s with
  | leaf id action => cases action <;> rfl
  | block id frame children =>
    cases frame with
    | notifyUntil alert => rfl
    | loop count =>
      simp only [beginStep, beginBlock]
      split
      · rfl
      · split <;> rfl

theorem afterRound_dismiss (r : Raised) (countdown : Countdown) (events : List Event) :
    r.afterRound countdown c (d.dismiss n) events = (r.afterRound countdown c d events).dismiss n := by
  unfold Raised.afterRound
  dsimp only
  split <;> rfl

theorem phase_dismiss (phase : NoticePhase) :
    phase.advance c (d.dismiss n) = (phase.advance c d).map fun
      | .goes phase d => .goes phase (d.dismiss n)
      | .shown notice d => .shown notice (d.dismiss n)
      | .refused d => .refused (d.dismiss n) := by
  cases phase with
  | asking due permission =>
    simp only [NoticePhase.advance]
    split
    · split <;> rfl
    · rfl
  | presenting due fails =>
    simp only [NoticePhase.advance]
    split <;> rfl

theorem beside_dismiss {r : Raised} {t : Ticking} {current : Activity} (h : n ∉ r.notice.toList) :
    advanceBeside r t current c (d.dismiss n) = (advanceBeside r t current c d).map (·.dismiss n) := by
  unfold advanceBeside
  rw [isDismissed_dismiss h, Option.map_map]
  congr 1
  funext tm
  cases tm with
  | ended countdown => exact afterRound_dismiss (d := c.silence d) r countdown current.dropEvents
  | _ => rfl

/-- A dismissal is nothing to an activity that does not look for it: its moves are the same. -/
theorem advance_dismiss {a : Activity} (h : n ∉ a.notices) :
    a.advance c (d.dismiss n) = (a.advance c d).map (·.dismiss n) := by
  induction a with
  | done => rfl
  | ready steps =>
    cases steps with
    | nil => rfl
    | cons s rest =>
      simp only [advance]
      split
      · rfl
      · split <;> rfl
  | held steps =>
    cases steps with
    | nil => rfl
    | cons s rest =>
      simp only [advance]
      split
      · rfl
      · split <;> rfl
  | within current rest ih =>
    simp only [advance]
    split
    · rfl
    · rw [ih h, Option.map_map, Option.map_map]
      rfl
  | entering s => exact congrArg some (beginStep_dismiss s)
  | counting id t =>
    simp only [advance, advanceCounting, Option.map_map]
    congr 1
    funext tm
    cases tm <;> rfl
  | sound url replays phase =>
    cases phase with
    | check => rfl
    | held =>
      simp only [advance, advanceSound]
      split <;> rfl
    | begin =>
      simp only [advance, advanceSound]
      split <;> rfl
    | playing call =>
      simp only [advance, advanceSound, Option.map_map]
      rfl
  | notifying notification phase grace =>
    simp only [advance, advanceNotice, phase_dismiss]
    cases phase.advance c d with
    | none =>
      simp only [Option.map_none]
      split <;> rfl
    | some nm => cases nm <;> rfl
  | announcing id alert children countdown phase =>
    simp only [advance, advanceAnnouncement, phase_dismiss, Option.map_map]
    congr 1
    funext nm
    cases nm <;> rfl
  | alertTop r countdown =>
    simp only [advance, advanceAlertTop, isDismissed_dismiss (d := d) h]
    split
    · rfl
    · split <;> rfl
  | alertHeld r countdown =>
    simp only [advance, isDismissed_dismiss (d := d) h]
    split <;> rfl
  | alertRound r t current ih =>
    have hr : n ∉ r.notice.toList := fun hn => h (List.mem_append_left _ hn)
    have hcurrent := ih fun hn => h (List.mem_append_right _ hn)
    simp only [advance]
    split
    · exact congrArg some (afterRound_dismiss r t.countdown [])
    · rw [hcurrent, beside_dismiss hr, Option.map_map]
      split
      · rw [Option.map_or, Option.map_map]
        rfl
      · rw [Option.map_or, Option.map_map]
        rfl
  | alertGap r t =>
    simp only [advance, advanceGap, isDismissed_dismiss (d := d) h, Option.map_map]
    congr 1
    funext tm
    cases tm <;> rfl
  | loopTop count children passes =>
    cases count <;> simp only [advance, advanceLoopTop] <;> split <;> rfl
  | loopPass count children passes current ih =>
    simp only [advance]
    split
    · rfl
    · rw [ih h, Option.map_map, Option.map_map]
      rfl
  | loopYield count children passes => rfl
  | parked =>
    simp only [advance]
    split <;> rfl

end Activity

end StepTimer
