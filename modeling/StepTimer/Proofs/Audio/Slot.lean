/-
The single slot of the audio channel. Calls are made by anyone and at any time, are cut by newer ones
or by a stop, and return one by one, each when its turn comes: a call that was cut may return long after
a newer one has taken the slot. The slot holds the one call that is under way and was not cut (`Kept`),
and a call was cut if it lost the slot while it had it (`Lost`).
-/
import StepTimer.Audio.Session
import StepTimer.Proofs.Engine.Calls

namespace StepTimer

namespace AudioSession

/-- What befalls a channel and the calls on it. -/
inductive Deed where
  /-- A call is made, under a label. -/
  | play (label : Nat) (url : String) (owner : RunId)
  | stop
  | stopOwnedBy (owner : RunId)
  /-- The turn of a call comes: it returns if its player is through or if it was cut. -/
  | poll (number : Nat) (coin : Bool)
  /-- So many milliseconds pass. -/
  | pass (ms : Nat)
deriving DecidableEq

/-- The call of a number, with its label, while it is under way. -/
def call? (s : AudioSession) (number : Nat) : Option (Nat × Call) := s.active.find? fun e => e.2.number = number

/-- How a call returns when its turn comes, if it does. -/
def answer? (s : AudioSession) (number : Nat) (coin : Bool) : Option ((Nat × Call) × PlaybackEnd) :=
  (s.call? number).bind fun e => (e.2.end? coin s.channel s.now).map fun how => (e, how)

/-- A call returns: it is under way no more, and gives the slot back if it still has it. -/
def returned (s : AudioSession) (e : Nat × Call) (how : PlaybackEnd) : AudioSession :=
  { s with
    channel := s.channel.release e.2.number
    active := s.active.filter fun x => x.2.number ≠ e.2.number
    endings := s.endings ++ [⟨s.now.millis, e.1, how⟩] }

/-- The session at another instant. -/
def moved (s : AudioSession) (t : Instant) : AudioSession := { s with now := t }

def act (s : AudioSession) : Deed → AudioSession
  | .play label url owner =>
    { s with
      channel := s.channel.install owner url
      active := s.active ++ [(label, Call.start s.player s.channel.nextCall url s.now)] }
  | .stop => { s with channel := s.channel.stop }
  | .stopOwnedBy owner => { s with channel := s.channel.stopOwnedBy owner }
  | .poll number coin => (s.answer? number coin).elim s fun a => s.returned a.1 a.2
  | .pass ms => s.moved (s.now.plusMillis ms)

/-- The session after a history. -/
def acts (s : AudioSession) (deeds : List Deed) : AudioSession := deeds.foldl act s

/-- Whether a deed cuts the call in the slot when that is an owner's. -/
def Deed.cuts (owner : RunId) : Deed → Bool
  | .play _ _ _ => true
  | .stop => true
  | .stopOwnedBy other => other = owner
  | _ => false

variable {s : AudioSession} {deeds : List Deed} {n : Nat}

theorem acts_append (s : AudioSession) (before after : List Deed) :
    s.acts (before ++ after) = (s.acts before).acts after :=
  List.foldl_append

/-! ## One deed -/

theorem number_of_call? {e : Nat × Call} (h : s.call? n = some e) : e.2.number = n := by
  simpa using List.find?_some h

theorem call?_play (s : AudioSession) (label : Nat) (url : String) (owner : RunId) (n : Nat) :
    (s.act (.play label url owner)).call? n = (s.call? n).or
      (if s.channel.nextCall = n then some (label, Call.start s.player s.channel.nextCall url s.now) else none) := by
  simp only [act, call?, List.find?_append, List.find?_singleton,
    Activity.number_start s.player s.channel.nextCall url s.now, decide_eq_true_eq]

theorem call?_returned (s : AudioSession) (e : Nat × Call) (how : PlaybackEnd) (n : Nat) :
    (s.returned e how).call? n = if n = e.2.number then none else s.call? n := by
  unfold returned call?
  rw [List.find?_filter]
  by_cases h : n = e.2.number
  · subst h
    simp
  · rw [if_neg h]
    congr 1
    funext x
    by_cases hx : x.2.number = n
    · subst hx
      simp [h]
    · simp [hx]

@[simp] theorem channel_moved (s : AudioSession) (t : Instant) : (s.moved t).channel = s.channel := rfl

@[simp] theorem call?_moved (s : AudioSession) (t : Instant) (n : Nat) : (s.moved t).call? n = s.call? n := rfl

theorem answer?_of_call? {e : Nat × Call} (h : s.call? n = some e) (coin : Bool) :
    s.answer? n coin = (e.2.end? coin s.channel s.now).map fun how => (e, how) := by
  unfold answer?
  rw [h]
  rfl

theorem answer?_cases (s : AudioSession) (n : Nat) (coin : Bool) :
    s.answer? n coin = none ∨ ∃ e how, s.call? n = some e ∧ e.2.number = n ∧ s.answer? n coin = some (e, how) := by
  cases ha : s.answer? n coin with
  | none => exact Or.inl rfl
  | some a =>
    refine Or.inr ?_
    unfold answer? at ha
    obtain ⟨e, he, ha⟩ := Option.bind_eq_some_iff.1 ha
    obtain ⟨how, -, rfl⟩ := Option.map_eq_some_iff.1 ha
    exact ⟨e, how, he, number_of_call? he, rfl⟩

/-- A poll changes nothing, or one call returns. -/
theorem poll_cases (s : AudioSession) (n : Nat) (coin : Bool) :
    s.act (.poll n coin) = s ∨
      ∃ e how, s.call? n = some e ∧ e.2.number = n ∧ s.act (.poll n coin) = s.returned e how := by
  have hpoll : s.act (.poll n coin) = (s.answer? n coin).elim s fun a => s.returned a.1 a.2 := rfl
  rcases s.answer?_cases n coin with h | ⟨e, how, he, hn, h⟩ <;> rw [hpoll, h]
  · exact Or.inl rfl
  · exact Or.inr ⟨e, how, he, hn, rfl⟩

/-! ## The slot -/

/-- The calls that are under way, and the one among them that has the slot. -/
structure Kept (s : AudioSession) : Prop where
  fresh : ∀ n, s.channel.nextCall ≤ n → s.call? n = none
  freshCut : ∀ n, s.channel.nextCall ≤ n → s.channel.isCut n = false
  distinct : (s.active.map fun e => e.2.number).Nodup
  slot : ∀ n, s.channel.Has n ↔ (s.call? n).isSome ∧ s.channel.isCut n = false

theorem kept_new (player : Player) (now : Instant) : Kept { player, now } :=
  ⟨fun _ _ => rfl, fun _ _ => rfl, List.nodup_nil, fun n => by simp [Channel.Has, call?]⟩

/-- What has the slot has been given a number. -/
theorem Kept.lt_of_has (h : s.Kept) (hn : s.channel.Has n) : n < s.channel.nextCall := by
  refine Nat.lt_of_not_le fun hle => ?_
  have hu := ((h.slot n).1 hn).1
  rw [h.fresh n hle] at hu
  cases hu

theorem Kept.stop (h : s.Kept) : Kept { s with channel := s.channel.stop } := by
  refine ⟨fun n hn => h.fresh n (s.channel.nextCall_stop ▸ hn), fun n hn => ?_, h.distinct, fun n => ?_⟩
  · have hle : s.channel.nextCall ≤ n := s.channel.nextCall_stop ▸ hn
    rw [← Bool.not_eq_true, Channel.isCut_stop_iff, h.freshCut n hle]
    rintro (hc | hc)
    · cases hc
    · exact absurd hle (Nat.not_le_of_lt (h.lt_of_has hc))
  · -- whatever had the slot is cut now
    refine iff_of_false (fun ⟨p, hp, _⟩ => ?_) fun ⟨hu, hc⟩ => ?_
    · rw [Channel.current_stop] at hp
      cases hp
    · rw [← Bool.not_eq_true, Channel.isCut_stop_iff, not_or, Bool.not_eq_true] at hc
      exact hc.2 ((h.slot n).2 ⟨hu, hc.1⟩)

theorem Kept.play (h : s.Kept) (label : Nat) (url : String) (owner : RunId) : (s.act (.play label url owner)).Kept := by
  have hstop := h.stop
  have hhas : ∀ n, (s.act (.play label url owner)).channel.Has n ↔ n = s.channel.nextCall := by
    intro n
    constructor
    · rintro ⟨p, hp, rfl⟩
      cases hp
      rfl
    · rintro rfl
      exact ⟨_, rfl, rfl⟩
  refine ⟨fun n hn => ?_, fun n hn => hstop.freshCut n ?_, ?_, fun n => ?_⟩
  · have hlt : s.channel.nextCall < n := hn
    rw [call?_play, h.fresh n (Nat.le_of_lt hlt), if_neg (Nat.ne_of_lt hlt)]
    rfl
  · have hlt : s.channel.nextCall < n := hn
    exact Nat.le_of_lt (s.channel.nextCall_stop.symm ▸ hlt)
  · have hfresh := h.fresh _ (Nat.le_refl _)
    rw [call?, List.find?_eq_none] at hfresh
    show (List.map _ (s.active ++ [_])).Nodup
    rw [List.map_append, List.nodup_append]
    refine ⟨h.distinct, by simp, fun k hk k' hk' heq => ?_⟩
    obtain ⟨e, he, rfl⟩ := List.mem_map.1 hk
    rw [List.map_singleton, List.mem_singleton, Activity.number_start] at hk'
    exact hfresh e he (decide_eq_true (heq.trans hk'))
  · rw [hhas, call?_play]
    by_cases hn : n = s.channel.nextCall
    · subst hn
      refine iff_of_true rfl ⟨?_, hstop.freshCut _ (Nat.le_of_eq s.channel.nextCall_stop)⟩
      rw [h.fresh _ (Nat.le_refl _), if_pos rfl]
      rfl
    · rw [if_neg (Ne.symm hn), Option.or_none]
      refine iff_of_false hn fun hc => ?_
      -- a call that was under way before has lost the slot now, if it was not cut before
      obtain ⟨p, hp, -⟩ := (hstop.slot n).2 hc
      rw [show ({ s with channel := s.channel.stop } : AudioSession).channel.current = none from
        s.channel.current_stop] at hp
      cases hp

theorem Kept.returned (h : s.Kept) (e : Nat × Call) (how : PlaybackEnd) : (s.returned e how).Kept := by
  have hnext : (s.returned e how).channel.nextCall = s.channel.nextCall := s.channel.nextCall_release e.2.number
  have hcut : ∀ n, (s.returned e how).channel.isCut n = s.channel.isCut n := by
    intro n
    show (s.channel.release e.2.number).isCut n = _
    rcases s.channel.release_cases e.2.number with ⟨-, he⟩ | ⟨-, he⟩ <;> rw [he]
    rfl
  refine ⟨fun n hn => ?_, fun n hn => ?_, h.distinct.sublist (List.filter_sublist.map _), fun n => ?_⟩
  · rw [call?_returned, h.fresh n (hnext ▸ hn), ite_self]
  · rw [hcut]
    exact h.freshCut n (hnext ▸ hn)
  · rw [hcut, call?_returned]
    show (s.channel.release e.2.number).Has n ↔ _
    by_cases hn : n = e.2.number
    · subst hn
      rw [if_pos rfl]
      refine iff_of_false ?_ (by simp)
      rcases s.channel.release_cases e.2.number with ⟨-, he⟩ | ⟨hno, he⟩ <;> rw [he]
      · rintro ⟨p, hp, -⟩
        cases hp
      · exact hno
    · rw [if_neg hn, ← h.slot]
      rcases s.channel.release_cases e.2.number with ⟨⟨p, hp, hpe⟩, he⟩ | ⟨-, he⟩ <;> rw [he]
      -- the call gives the slot back, so no other call had it
      refine iff_of_false (fun ⟨q, hq, _⟩ => by cases hq) fun ⟨q, hq, hqn⟩ => ?_
      rw [hp] at hq
      cases hq
      exact hn (hqn.symm.trans hpe)

theorem Kept.moved (h : s.Kept) (t : Instant) : (s.moved t).Kept := ⟨h.fresh, h.freshCut, h.distinct, h.slot⟩

theorem Kept.act (h : s.Kept) (d : Deed) : (s.act d).Kept := by
  cases d with
  | play label url owner => exact h.play label url owner
  | stop => exact h.stop
  | stopOwnedBy owner =>
    show Kept { s with channel := s.channel.stopOwnedBy owner }
    rcases s.channel.stopOwnedBy_cases owner with ⟨p, -, -, he⟩ | ⟨-, he⟩ <;> rw [he]
    · exact h.stop
    · exact h
  | poll number coin =>
    rcases s.poll_cases number coin with he | ⟨e, how, -, -, he⟩ <;> rw [he]
    · exact h
    · exact h.returned e how
  | pass ms => exact h.moved _

theorem Kept.acts (h : s.Kept) (deeds : List Deed) : (s.acts deeds).Kept := by
  induction deeds generalizing s with
  | nil => exact h
  | cons d rest ih => exact ih (h.act d)

/-! ## Cuts -/

/-- A deed cuts the call in the slot, if it is one of those that cut it, and no other call. -/
theorem isCut_act (s : AudioSession) (d : Deed) (n : Nat) :
    (s.act d).channel.isCut n = true ↔
      s.channel.isCut n = true ∨ ∃ p, s.channel.current = some p ∧ p.call = n ∧ d.cuts p.owner = true := by
  cases d with
  | play label url owner =>
    show s.channel.stop.isCut n = true ↔ _
    rw [Channel.isCut_stop_iff]
    simp [Channel.Has, Deed.cuts]
  | stop =>
    show s.channel.stop.isCut n = true ↔ _
    rw [Channel.isCut_stop_iff]
    simp [Channel.Has, Deed.cuts]
  | stopOwnedBy owner =>
    show (s.channel.stopOwnedBy owner).isCut n = true ↔ _
    rcases s.channel.stopOwnedBy_cases owner with ⟨p, hp, ho, he⟩ | ⟨hno, he⟩ <;> rw [he]
    · rw [Channel.isCut_stop_iff]
      simp [Channel.Has, Deed.cuts, hp, ho]
    · refine ⟨Or.inl, fun hc => hc.resolve_right ?_⟩
      rintro ⟨p, hp, -, hcut⟩
      exact hno p hp (of_decide_eq_true hcut).symm
  | poll number coin =>
    have hno : ¬ ∃ p, s.channel.current = some p ∧ p.call = n ∧ (Deed.poll number coin).cuts p.owner = true := by
      simp [Deed.cuts]
    rw [or_iff_left hno]
    rcases s.poll_cases number coin with he | ⟨e, how, -, -, he⟩ <;> rw [he]
    show (s.channel.release e.2.number).isCut n = true ↔ _
    rcases s.channel.release_cases e.2.number with ⟨-, he⟩ | ⟨-, he⟩ <;> rw [he]
    rfl
  | pass ms =>
    rw [act, channel_moved]
    simp [Deed.cuts]

/-! ## Calls in the course of a history -/

/-- A call is under way until it returns, and does not come back. -/
theorem call?_act (d : Deed) (hn : n < s.channel.nextCall) :
    (s.act d).call? n = s.call? n ∨ (s.act d).call? n = none := by
  cases d with
  | play label url owner =>
    rw [call?_play, if_neg (Nat.ne_of_gt hn), Option.or_none]
    exact Or.inl rfl
  | poll number coin =>
    rcases s.poll_cases number coin with he | ⟨e, how, -, -, he⟩ <;> rw [he]
    · exact Or.inl rfl
    · rw [call?_returned]
      split
      · exact Or.inr rfl
      · exact Or.inl rfl
  | pass ms => exact Or.inl (s.call?_moved _ n)
  | _ => exact Or.inl rfl

theorem nextCall_le_act (s : AudioSession) (d : Deed) : s.channel.nextCall ≤ (s.act d).channel.nextCall := by
  cases d with
  | play label url owner => exact Nat.le_succ _
  | stop => exact Nat.le_of_eq s.channel.nextCall_stop.symm
  | stopOwnedBy owner => exact Nat.le_of_eq (s.channel.nextCall_stopOwnedBy owner).symm
  | poll number coin =>
    rcases s.poll_cases number coin with he | ⟨e, how, -, -, he⟩
    · exact Nat.le_of_eq (congrArg (·.channel.nextCall) he.symm)
    · rw [he]
      exact Nat.le_of_eq (s.channel.nextCall_release e.2.number).symm
  | pass ms => exact Nat.le_of_eq (congrArg Channel.nextCall (s.channel_moved _).symm)

theorem nextCall_le_acts (s : AudioSession) (deeds : List Deed) :
    s.channel.nextCall ≤ (s.acts deeds).channel.nextCall := by
  induction deeds generalizing s with
  | nil => exact Nat.le_refl _
  | cons d rest ih => exact Nat.le_trans (s.nextCall_le_act d) (ih (s.act d))

theorem call?_acts (deeds : List Deed) (hn : n < s.channel.nextCall) :
    (s.acts deeds).call? n = s.call? n ∨ (s.acts deeds).call? n = none := by
  induction deeds generalizing s with
  | nil => exact Or.inl rfl
  | cons d rest ih =>
    have hrest := ih (Nat.lt_of_lt_of_le hn (s.nextCall_le_act d))
    rcases call?_act d hn with he | he <;> rw [he] at hrest
    · exact hrest
    · exact Or.inr (hrest.elim id id)

theorem now_le_acts (s : AudioSession) (deeds : List Deed) : s.now.nanos ≤ (s.acts deeds).now.nanos := by
  induction deeds generalizing s with
  | nil => exact Nat.le_refl _
  | cons d rest ih =>
    refine Nat.le_trans ?_ (ih (s.act d))
    cases d with
    | pass ms => exact Nat.le_add_right _ _
    | poll number coin =>
      rcases s.poll_cases number coin with he | ⟨e, how, -, -, he⟩ <;> exact he.symm ▸ Nat.le_refl _
    | _ => exact Nat.le_refl _

/-- Whether the player of a call that is under way is through. -/
def isThrough (s : AudioSession) (n : Nat) : Bool := (s.call? n).any fun e => e.2.isOver s.now

theorem isThrough_acts (deeds : List Deed) (hn : n < s.channel.nextCall) (ht : s.isThrough n = true)
    (hu : ((s.acts deeds).call? n).isSome) : (s.acts deeds).isThrough n = true := by
  rcases call?_acts deeds hn with he | he
  · unfold isThrough at ht ⊢
    rw [he]
    cases hc : s.call? n with
    | none => rw [hc] at ht; cases ht
    | some e =>
      rw [hc] at ht
      exact Call.isOver_mono ht (s.now_le_acts deeds)
  · rw [he] at hu
    cases hu

/-! ## What happened in a history -/

/-- At some moment of a history a deed was done, of which something holds together with the session
just before it. -/
def Happens (P : AudioSession → Deed → Prop) (s : AudioSession) (deeds : List Deed) : Prop :=
  ∃ before d after, deeds = before ++ d :: after ∧ P (s.acts before) d

theorem happens_cons {P : AudioSession → Deed → Prop} {d : Deed} {rest : List Deed} :
    Happens P s (d :: rest) ↔ P s d ∨ Happens P (s.act d) rest := by
  constructor
  · rintro ⟨_ | ⟨x, before⟩, d', after, heq, h⟩ <;> cases heq
    · exact Or.inl h
    · exact Or.inr ⟨before, d', after, rfl, h⟩
  · rintro (h | ⟨before, d', after, rfl, h⟩)
    · exact ⟨[], d, rest, rfl, h⟩
    · exact ⟨d :: before, d', after, rfl, h⟩

/-- A call was made for an owner, with an address, and was given a number. -/
def Started (n : Nat) (owner : RunId) (url : String) : AudioSession → List Deed → Prop :=
  Happens fun s d => ∃ label, d = .play label url owner ∧ s.channel.nextCall = n

/-- A call that had the slot was cut: by a newer call, by a stop, or by one for its owner. -/
def WasCut (n : Nat) : AudioSession → List Deed → Prop :=
  Happens fun s d => ∃ p, s.channel.current = some p ∧ p.call = n ∧ d.cuts p.owner = true

/-- It was cut before its player was through. -/
def Lost (n : Nat) : AudioSession → List Deed → Prop :=
  Happens fun s d => (∃ p, s.channel.current = some p ∧ p.call = n ∧ d.cuts p.owner = true) ∧ s.isThrough n = false

theorem isCut_acts (s : AudioSession) (deeds : List Deed) (n : Nat) :
    (s.acts deeds).channel.isCut n = true ↔ s.channel.isCut n = true ∨ WasCut n s deeds := by
  induction deeds generalizing s with
  | nil => simp [acts, WasCut, Happens]
  | cons d rest ih =>
    rw [WasCut, happens_cons, ← or_assoc, ← isCut_act]
    exact ih (s.act d)

/-- A call that is under way and whose player is not through was cut before that. -/
theorem lost_iff (h : s.Kept) (hu : ((s.acts deeds).call? n).isSome) (ht : (s.acts deeds).isThrough n = false) :
    Lost n s deeds ↔ WasCut n s deeds := by
  constructor
  · rintro ⟨before, d, after, rfl, hcut, -⟩
    exact ⟨before, d, after, rfl, hcut⟩
  · rintro ⟨before, d, after, rfl, hcut⟩
    refine ⟨before, d, after, rfl, hcut, Bool.eq_false_iff.2 fun hover => ?_⟩
    obtain ⟨p, hp, hpn, -⟩ := hcut
    rw [acts_append] at hu ht
    have hlt := (h.acts before).lt_of_has ⟨p, hp, hpn⟩
    rw [isThrough_acts (d :: after) hlt hover hu] at ht
    cases ht

theorem current_act (s : AudioSession) (d : Deed) {p : Playback} (hp : (s.act d).channel.current = some p) :
    s.channel.current = some p ∨ ∃ label, d = .play label p.url p.owner ∧ s.channel.nextCall = p.call := by
  cases d with
  | play label url owner =>
    cases hp
    exact Or.inr ⟨label, rfl, rfl⟩
  | stop =>
    rw [show (s.act .stop).channel.current = none from s.channel.current_stop] at hp
    cases hp
  | stopOwnedBy owner =>
    rw [show (s.act (.stopOwnedBy owner)).channel = s.channel.stopOwnedBy owner from rfl] at hp
    rcases s.channel.stopOwnedBy_cases owner with ⟨-, -, -, he⟩ | ⟨-, he⟩ <;> rw [he] at hp
    · rw [s.channel.current_stop] at hp
      cases hp
    · exact Or.inl hp
  | poll number coin =>
    rcases s.poll_cases number coin with he | ⟨e, how, -, -, he⟩ <;> rw [he] at hp
    · exact Or.inl hp
    · rw [show (s.returned e how).channel = s.channel.release e.2.number from rfl] at hp
      rcases s.channel.release_cases e.2.number with ⟨-, he⟩ | ⟨-, he⟩ <;> rw [he] at hp
      · cases hp
      · exact Or.inl hp
  | pass ms =>
    rw [act, channel_moved] at hp
    exact Or.inl hp

/-- What is in the slot was put there by the call that it names. -/
theorem started_of_current (s : AudioSession) (deeds : List Deed) {p : Playback}
    (hp : (s.acts deeds).channel.current = some p) :
    s.channel.current = some p ∨ Started p.call p.owner p.url s deeds := by
  induction deeds generalizing s with
  | nil => exact Or.inl hp
  | cons d rest ih =>
    rw [Started, happens_cons]
    rcases ih (s.act d) hp with h | h
    · exact (s.current_act d h).imp_right Or.inl
    · exact Or.inr (Or.inr h)

/-- A number is given once. -/
theorem le_of_started {owner : RunId} {url : String} (h : Started n owner url s deeds) : s.channel.nextCall ≤ n := by
  obtain ⟨before, d, after, -, label, -, rfl⟩ := h
  exact s.nextCall_le_acts before

theorem started_unique {owner owner' : RunId} {url url' : String} (h : Started n owner url s deeds)
    (h' : Started n owner' url' s deeds) : owner = owner' ∧ url = url' := by
  induction deeds generalizing s with
  | nil =>
    obtain ⟨before, d, after, heq, -⟩ := h
    simp at heq
  | cons d rest ih =>
    rw [Started, happens_cons] at h h'
    -- the call that took the number leaves only higher ones to those after it
    have hlater {label : Nat} {o : RunId} {u : String} (ho : RunId) (hu : String) (hd : d = .play label u o)
        (hn : s.channel.nextCall = n) (hs : Started n ho hu (s.act d) rest) : False := by
      have hle := le_of_started hs
      subst hd
      exact absurd hle (hn ▸ Nat.not_succ_le_self _)
    rcases h with ⟨label, hd, hn⟩ | h <;> rcases h' with ⟨label', hd', hn'⟩ | h'
    · rw [hd] at hd'
      cases hd'
      exact ⟨rfl, rfl⟩
    · exact (hlater _ _ hd hn h').elim
    · exact (hlater _ _ hd' hn' h).elim
    · exact ih h h'

/-! ## The law of the slot -/

/-- Of the calls that are under way one at the most was not cut. -/
theorem Kept.unique (h : s.Kept) {n' : Nat} (hn : (s.call? n).isSome ∧ s.channel.isCut n = false)
    (hn' : (s.call? n').isSome ∧ s.channel.isCut n' = false) : n = n' := by
  obtain ⟨p, hp, rfl⟩ := (h.slot n).2 hn
  obtain ⟨p', hp', rfl⟩ := (h.slot n').2 hn'
  rw [hp] at hp'
  cases hp'
  rfl

theorem Kept.isPlaying_iff (h : s.Kept) :
    s.channel.isPlaying = true ↔ ∃ n, (s.call? n).isSome ∧ s.channel.isCut n = false := by
  constructor
  · intro hp
    obtain ⟨p, hp⟩ := Option.isSome_iff_exists.1 hp
    exact ⟨p.call, (h.slot p.call).1 ⟨p, hp, rfl⟩⟩
  · rintro ⟨n, hunder⟩
    obtain ⟨p, hp, -⟩ := (h.slot n).2 hunder
    exact Option.isSome_iff_exists.2 ⟨p, hp⟩

theorem act_stopOwnedBy_of_ne {owner : RunId} (h : ∀ p, s.channel.current = some p → p.owner ≠ owner) :
    s.act (.stopOwnedBy owner) = s := by
  show { s with channel := s.channel.stopOwnedBy owner } = s
  rcases s.channel.stopOwnedBy_cases owner with ⟨p, hp, ho, -⟩ | ⟨-, he⟩
  · exact absurd ho (h p hp)
  · rw [he]

/-- A call that returns empties the slot only if it still has it. -/
theorem Kept.current_poll (h : s.Kept) (coin : Bool)
    (hno : s.channel.isCut n = true ∨ ∃ p, s.channel.current = some p ∧ p.call ≠ n) :
    (s.act (.poll n coin)).channel.current = s.channel.current := by
  rcases s.poll_cases n coin with he | ⟨e, how, -, rfl, he⟩ <;> rw [he]
  show (s.channel.release e.2.number).current = _
  rcases s.channel.release_cases e.2.number with ⟨hhas, -⟩ | ⟨-, he⟩
  · rcases hno with hc | ⟨p, hp, hne⟩
    · rw [((h.slot _).1 hhas).2] at hc
      cases hc
    · obtain ⟨q, hq, hqn⟩ := hhas
      rw [hp] at hq
      cases hq
      exact absurd hqn hne
  · rw [he]

/-- How a call returns when its turn comes, by what happened to it before. -/
theorem Kept.answer?_acts (h : s.Kept) (hnew : s.channel.isCut n = false) {e : Nat × Call}
    (he : (s.acts deeds).call? n = some e)
    (hnot : ¬ (e.2.isOver (s.acts deeds).now = true ∧ (s.acts deeds).channel.isCut n = true)) (coin : Bool) :
    Lost n s deeds ∧ (s.acts deeds).answer? n coin = some (e, .interrupted) ∨
      ¬ Lost n s deeds ∧ (s.acts deeds).answer? n coin =
        if e.2.isOver (s.acts deeds).now then some (e, if e.2.fails then .failed else .finished) else none := by
  have hnum := number_of_call? he
  have hcut : (s.acts deeds).channel.isCut n = true ↔ WasCut n s deeds := by
    rw [isCut_acts, hnew]
    exact or_iff_right Bool.false_ne_true
  rw [answer?_of_call? he]
  cases hc : (s.acts deeds).channel.isCut n with
  | true =>
    -- a call that was cut is looked at before its player is through, so it was cut before that
    have hover : e.2.isOver (s.acts deeds).now = false := Bool.eq_false_iff.2 fun ho => hnot ⟨ho, hc⟩
    have hthrough : (s.acts deeds).isThrough n = false := by
      unfold isThrough
      rw [he]
      exact hover
    have hu : ((s.acts deeds).call? n).isSome := by rw [he]; rfl
    refine Or.inl ⟨(lost_iff h hu hthrough).2 (hcut.1 hc), ?_⟩
    rw [Call.end?_of_isCut (hnum ▸ hc) hover]
    rfl
  | false =>
    refine Or.inr ⟨fun hlost => ?_, ?_⟩
    · obtain ⟨before, d, after, heq, hcuts, -⟩ := hlost
      rw [hcut.2 ⟨before, d, after, heq, hcuts⟩] at hc
      cases hc
    · rw [Call.end?_of_not_isCut (hnum ▸ hc)]
      cases e.2.isOver (s.acts deeds).now <;> rfl

/-- The slot of the channel holds one call at the most: the one that is under way and was not cut. When
its turn comes a call returns as interrupted if, before its player was through, it had the slot when a
newer call was made or the channel was stopped, for anyone or for the owner of the call; otherwise it
returns when its player is through, finished or failed as that is. (A call whose turn finds it both
through and cut is left open: it may return either way.) A stop for an owner does nothing unless the
sound is that owner's; and a call that was cut leaves the slot as it is when it returns, however late. -/
theorem single_slot (player : Player) (now : Instant) (deeds : List Deed) :
    let s₀ : AudioSession := { player, now }
    let s := s₀.acts deeds
    (∀ n owner url, s.channel.current = some ⟨n, owner, url⟩ ↔
      Started n owner url s₀ deeds ∧ (s.call? n).isSome ∧ s.channel.isCut n = false) ∧
    (∀ n n', (s.call? n).isSome → s.channel.isCut n = false →
      (s.call? n').isSome → s.channel.isCut n' = false → n = n') ∧
    (s.channel.isPlaying = true ↔ ∃ n, (s.call? n).isSome ∧ s.channel.isCut n = false) ∧
    (∀ n e coin, s.call? n = some e → ¬ (e.2.isOver s.now = true ∧ s.channel.isCut n = true) →
      Lost n s₀ deeds ∧ s.answer? n coin = some (e, .interrupted) ∨
      ¬ Lost n s₀ deeds ∧ s.answer? n coin =
        if e.2.isOver s.now then some (e, if e.2.fails then .failed else .finished) else none) ∧
    (∀ owner, (∀ p, s.channel.current = some p → p.owner ≠ owner) → s.act (.stopOwnedBy owner) = s) ∧
    ∀ n coin, s.channel.isCut n = true ∨ (∃ p, s.channel.current = some p ∧ p.call ≠ n) →
      (s.act (.poll n coin)).channel.current = s.channel.current := by
  intro s₀ s
  have hnew : s₀.Kept := kept_new player now
  have hkept : s.Kept := hnew.acts deeds
  have hstarted {p : Playback} (hp : s.channel.current = some p) : Started p.call p.owner p.url s₀ deeds :=
    (started_of_current s₀ deeds hp).resolve_left fun h => by cases h
  refine ⟨fun n owner url => ⟨fun hp => ⟨hstarted hp, (hkept.slot n).1 ⟨_, hp, rfl⟩⟩, ?_⟩,
    fun n n' hu hc hu' hc' => hkept.unique ⟨hu, hc⟩ ⟨hu', hc'⟩, hkept.isPlaying_iff,
    fun n e coin he hnot => hnew.answer?_acts rfl he hnot coin,
    fun owner hother => act_stopOwnedBy_of_ne hother, fun n coin hno => hkept.current_poll coin hno⟩
  rintro ⟨hst, hunder⟩
  obtain ⟨p, hp, rfl⟩ := (hkept.slot n).2 hunder
  obtain ⟨rfl, rfl⟩ := started_unique (hstarted hp) hst
  exact hp

/-- A call is made, a newer one takes its slot, and both sounds are without end: the first call returns
after that as interrupted, and the second one keeps the slot. -/
theorem single_slot_cutOff :
    let s : AudioSession := acts { player := fun _ _ => .endless } [.play 0 "bell" 1, .play 1 "siren" 2, .pass 100]
    (∃ e, s.call? 1 = some e ∧ s.answer? 1 true = some (e, .interrupted)) ∧
      s.act (.stopOwnedBy 1) = s ∧ (s.act (.poll 1 true)).channel.current = some ⟨2, 2, "siren"⟩ := by
  obtain ⟨-, -, -, hanswer, hother, hlate⟩ :=
    single_slot (fun _ _ => .endless) ⟨0⟩ [.play 0 "bell" 1, .play 1 "siren" 2, .pass 100]
  refine ⟨⟨_, rfl, ?_⟩, hother 1 fun p hp => ?_, (hlate 1 true (Or.inl rfl)).trans rfl⟩
  · rcases hanswer 1 _ true rfl (by decide) with ⟨-, h⟩ | ⟨hno, -⟩
    · exact h
    · exact absurd ⟨[.play 0 "bell" 1], .play 1 "siren" 2, [.pass 100], rfl, ⟨_, rfl, rfl, rfl⟩, rfl⟩ hno
  · cases hp
    decide

/-! ## The operations of a session -/

/-- When its turn comes, a call is collected: it is kept for later, or it returns. -/
theorem collectOne_eq_act {s : AudioSession} {kept rest : List (Nat × Call)} {e : Nat × Call}
    (h : s.active = kept ++ e :: rest) (hd : (s.active.map fun e => e.2.number).Nodup) :
    ∃ kept', collectOne { s with active := kept } e = { s.act (.poll e.2.number true) with active := kept' } ∧
      (s.act (.poll e.2.number true)).active = kept' ++ rest ∧ kept'.Sublist (kept ++ [e]) := by
  rw [h, List.map_append, List.map_cons, List.nodup_append, List.nodup_cons] at hd
  obtain ⟨-, ⟨hrest, -⟩, hkept⟩ := hd
  have hnot : ∀ x ∈ kept, x.2.number ≠ e.2.number := fun x hx =>
    hkept _ (List.mem_map.2 ⟨x, hx, rfl⟩) _ (List.mem_cons_self ..)
  have hnot' : ∀ x ∈ rest, x.2.number ≠ e.2.number := fun x hx heq => hrest (List.mem_map.2 ⟨x, hx, heq⟩)
  have hcall : s.call? e.2.number = some e := by
    unfold call?
    rw [h, List.find?_append, List.find?_eq_none.2 fun x hx => by simpa using hnot x hx]
    simp
  have hanswer := answer?_of_call? hcall true
  cases hend : e.2.end? true s.channel s.now with
  | none =>
    have hact : s.act (.poll e.2.number true) = s := by
      rw [act, hanswer, hend]
      rfl
    refine ⟨kept ++ [e], ?_, ?_, List.Sublist.refl _⟩
    · rw [hact]
      unfold collectOne
      simp only [hend]
    · rw [hact, h, List.append_assoc]
      rfl
  | some how =>
    have hact : s.act (.poll e.2.number true) = s.returned e how := by
      rw [act, hanswer, hend]
      rfl
    refine ⟨kept, ?_, ?_, List.sublist_append_left ..⟩
    · rw [hact]
      unfold collectOne
      simp only [hend]
      rfl
    · rw [hact]
      show s.active.filter _ = _
      rw [h, List.filter_append, List.filter_cons_of_neg (by simp),
        List.filter_eq_self.2 fun x hx => by simpa using hnot x hx,
        List.filter_eq_self.2 fun x hx => by simpa using hnot' x hx]

/-- The operations of a session give every call its turn, in the order in which the calls were made. -/
theorem collect_eq_acts (h : s.Kept) : s.collect = s.acts (s.active.map fun e => .poll e.2.number true) := by
  have hfold : ∀ (rest kept : List (Nat × Call)) (s : AudioSession), s.active = kept ++ rest →
      (s.active.map fun e => e.2.number).Nodup →
      rest.foldl collectOne { s with active := kept } = s.acts (rest.map fun e => .poll e.2.number true) := by
    intro rest
    induction rest with
    | nil =>
      intro kept s hs _
      rw [List.append_nil] at hs
      rw [← hs]
      rfl
    | cons e rest ih =>
      intro kept s hs hd
      obtain ⟨kept', hone, hs', hsub⟩ := collectOne_eq_act hs hd
      have hd' : ((s.act (.poll e.2.number true)).active.map fun e => e.2.number).Nodup := by
        refine hd.sublist (List.Sublist.map _ ?_)
        rw [hs, hs', List.append_cons]
        exact hsub.append_right rest
      exact (congrArg (rest.foldl collectOne) hone).trans (ih kept' _ hs' hd')
  exact hfold s.active [] s rfl h.distinct

end AudioSession

end StepTimer
