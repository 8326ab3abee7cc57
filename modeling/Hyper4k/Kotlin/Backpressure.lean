import Mathlib.Tactic.Common
import Hyper4k.Kotlin.ResponseStream

/-! Backpressure of the Kotlin client. A parked engine is resumed by the consumer of a chunk
it had published, provided that the consumer reads the `paused` flag after `onChunk` has set
it and does not clear the flag of a later pause. -/
namespace Hyper4k.Kotlin
open Bridge

def Session.backlog (s : Session) : Nat := s.events.countP ClientEvent.isChunk

/-- The engine has nothing to do until a resume: it is parked, or will be. -/
def Session.owed (s : Session) : Bool :=
  match s.engine with
  | .returning .pause => !s.permit
  | .pausing | .parked => true
  | _ => false

/-- The engine is parked, and the consumer waits for an event in an empty channel. -/
def Session.Deadlocked (s : Session) : Prop := s.engine = .parked ∧ s.events = [] ∧ s.consumer = .receive

instance (s : Session) : Decidable s.Deadlocked := inferInstanceAs (Decidable (_ ∧ _ ∧ _))

def ConsumerPc.handling : ConsumerPc → Bool
  | .decrement | .loadPaused _ => true
  | _ => false

/-- The two orders that the flag needs: a pause is flagged while the handling of some chunk
has yet to read the flag, and the flag that a resume clears is not that of a later pause. -/
def Session.FlagInTime (s : Session) : Act → Prop
  | .callback => s.engine = .storePaused → s.permit = false → 0 < s.backlog ∨ s.consumer.handling = true
  | .consume => s.consumer = .storePaused → s.owed = false
  | _ => True

instance (s : Session) : (a : Act) → Decidable (s.FlagInTime a)
  | .callback => inferInstanceAs (Decidable
      (s.engine = .storePaused → s.permit = false → 0 < s.backlog ∨ s.consumer.handling = true))
  | .consume => inferInstanceAs (Decidable (s.consumer = .storePaused → s.owed = false))
  | .headers .. | .chunk _ | .finish _ | .park | .throw | .sent _ | .next => inferInstanceAs (Decidable True)

def EnginePc.live : EnginePc → Bool
  | .returning .cancel | .cancelled | .sendDone _ | .close | .done => false
  | _ => true

def EnginePc.counted : EnginePc → Nat
  | .trySend .. => 1
  | _ => 0

def ConsumerPc.counted : ConsumerPc → Nat
  | .decrement => 1
  | _ => 0

/-- The consumer resumes the engine, unless it finds more chunks to receive. -/
def ConsumerPc.attends : ConsumerPc → Bool
  | .decrement | .loadPaused _ | .awaitRequestId | .resume | .delay => true
  | _ => false

theorem ConsumerPc.attends_of_handling {pc : ConsumerPc} (h : pc.handling = true) : pc.attends = true := by
  cases pc <;> first | rfl | cases h

/-- `queued` is the number of chunks between `onChunk` and `next`, the consumer resumes with
the last of them, and it finds the flag of an engine that needs it. -/
structure Session.Tracked (s : Session) : Prop where
  opened : s.closed = false
  queued : s.queued = .ofNat (s.backlog + s.engine.counted + s.consumer.counted)
  remaining : ∀ r, s.consumer = .loadPaused r → r ≠ 0 → 0 < s.backlog + s.engine.counted
  flagged : s.owed = true → s.paused = true
  attended : s.owed = true → 0 < s.backlog ∨ s.consumer.attends = true

theorem HighWater.half_nonneg (n : HighWater) : 0 ≤ n.val / 2 := by
  have hpos : 0 < n.val.toInt := Int32.lt_iff_toInt_lt.mp n.property
  have hne : n.val ≠ Int32.minValue := by
    intro h
    rw [h] at hpos
    exact absurd hpos (by decide)
  rw [Int32.le_iff_toInt_le, Int32.toInt_div_of_ne_left _ _ hne]
  exact Int.tdiv_nonneg (Int.le_of_lt hpos) (by decide)

theorem Session.publish_eq {s : Session} (h : s.closed = false) (e : ClientEvent) :
    s.publish e = { s with events := s.events ++ [e] } := by
  simp [Session.publish, RequestState.trySend, h]

theorem Session.counted_of_owed {s : Session} (h : s.owed = true) : s.engine.counted = 0 := by
  unfold Session.owed at h
  split at h
  case h_1 hpc => rw [hpc]; rfl
  case h_2 hpc => rw [hpc]; rfl
  case h_3 hpc => rw [hpc]; rfl
  case h_4 => cases h

/-- A resume that is not answered `NOT_PAUSED` leaves nothing owed. -/
theorem Session.resume_owed (s : Session) : s.resume.1 = .notPaused ∨ s.resume.2.owed = false := by
  unfold Session.resume
  split
  case h_1 => exact .inr rfl
  case h_6 action hpc => cases action <;> exact .inr (by simp [Session.owed, hpc])
  all_goals first | exact .inl rfl | exact .inr (by simp [Session.owed, *])

theorem Session.resume_consumer (s : Session) : s.resume.2.consumer = s.consumer := by
  unfold Session.resume
  split <;> rfl

namespace Session.Tracked
variable {s t : Session}

theorem init (highWater : HighWater) : (Session.init highWater).Tracked where
  opened := rfl
  queued := rfl
  remaining _ h := nomatch h
  flagged h := nomatch h
  attended h := nomatch h

/-- A step of the engine that touches neither the channel nor the counters, and after which
it needs a resume only if it did before. -/
theorem engine (hs : s.Tracked) (pc : EnginePc) (permit : Bool) (hc : pc.counted = s.engine.counted)
    (ho : { s with engine := pc, permit }.owed = true → s.owed = true) :
    Session.Tracked { s with engine := pc, permit } where
  opened := hs.opened
  queued := hs.queued.trans (congrArg (fun n => Int32.ofNat (s.backlog + n + s.consumer.counted)) hc.symm)
  remaining r hr h0 := Nat.lt_of_lt_of_eq (hs.remaining r hr h0) (congrArg (s.backlog + ·) hc.symm)
  flagged h := hs.flagged (ho h)
  attended h := hs.attended (ho h)

theorem resume (hs : s.Tracked) : s.resume.2.Tracked := by
  unfold Session.resume
  split
  case h_1 hpc => exact hs.engine .running s.permit (by rw [hpc]; rfl) nofun
  case h_6 action hpc => exact hs.engine s.engine true rfl (by cases action <;> simp [Session.owed, hpc])
  all_goals first | exact hs | exact hs.engine s.engine true rfl (by simp [Session.owed, *])

/-- A step of the consumer between two accesses of the channel and the counter. -/
theorem consumer (hs : s.Tracked) (pc : ConsumerPc) (hc : pc.counted = s.consumer.counted)
    (hr : ∀ r, pc ≠ .loadPaused r) (ha : s.owed = true → 0 < s.backlog ∨ pc.attends = true) :
    Session.Tracked { s with consumer := pc } where
  opened := hs.opened
  queued := hs.queued.trans (congrArg (fun n => Int32.ofNat (s.backlog + s.engine.counted + n)) hc.symm)
  remaining r h := absurd h (hr r)
  flagged := hs.flagged
  attended := ha

/-- A callback publishes an event: a chunk that was counted, or no chunk. -/
theorem published (hs : s.Tracked) (e : ClientEvent) (pc : EnginePc)
    (hc : [e].countP ClientEvent.isChunk + pc.counted = s.engine.counted)
    (ho : { s with engine := pc }.owed = false) :
    Session.Tracked { s.publish e with engine := pc } := by
  have hsum : (s.events ++ [e]).countP ClientEvent.isChunk + pc.counted = s.backlog + s.engine.counted := by
    rw [List.countP_append, Nat.add_assoc, hc]
    rfl
  have hnone : ¬ { s with engine := pc }.owed = true := by simp [ho]
  rw [publish_eq hs.opened]
  exact ⟨hs.opened, hs.queued.trans (congrArg (fun n => Int32.ofNat (n + s.consumer.counted)) hsum.symm),
    fun r hr h0 => Nat.lt_of_lt_of_eq (hs.remaining r hr h0) hsum.symm,
    fun h => absurd h hnone, fun h => absurd h hnone⟩

theorem callback (hs : s.Tracked) (hok : s.FlagInTime .callback) (h : s.callback = some t)
    (hl : t.engine.live = true) : t.Tracked := by
  have hqueued := hs.queued
  have hremaining := hs.remaining
  unfold Session.callback at h
  cases hpc : s.engine with
  | onHeaders status version fields =>
    simp only [hpc, Option.some.injEq] at h
    subst h
    exact hs.published _ _ (by rw [hpc]; rfl) rfl
  | increment bytes =>
    simp only [hpc, Option.some.injEq] at h
    subst h
    rw [hpc] at hqueued
    refine ⟨hs.opened, ?_, fun _ _ _ => Nat.succ_pos _, nofun, nofun⟩
    rw [hqueued]
    exact (Int32.ofNat_add _ 1).symm.trans (congrArg Int32.ofNat (Nat.add_right_comm ..))
  | trySend bytes queued =>
    simp only [hpc, Option.some.injEq] at h
    subst h
    split
    · exact hs.published _ _ (by rw [hpc]; rfl) rfl
    · exact hs.published _ _ (by rw [hpc]; rfl) rfl
  | storePaused =>
    simp only [hpc, Option.some.injEq] at h
    subst h
    rw [hpc] at hqueued hremaining
    refine ⟨hs.opened, hqueued, hremaining, fun _ => rfl, fun ho => ?_⟩
    exact (hok hpc (by simpa [Session.owed] using ho)).imp_right ConsumerPc.attends_of_handling
  | returning action =>
    simp only [hpc, Option.some.injEq] at h
    subst h
    cases action with
    | cont => exact hs.engine .running false (by rw [hpc]; rfl) nofun
    | cancel => cases hl
    | pause =>
      refine hs.engine (.after s.permit .pause) false ?_ ?_
      · rw [hpc]
        cases s.permit <;> rfl
      · cases hp : s.permit <;> simp [Session.owed, EnginePc.after, hpc, hp]
  | sendDone error =>
    simp only [hpc, Option.some.injEq] at h
    subst h
    cases hl
  | close =>
    simp only [hpc, Option.some.injEq] at h
    subst h
    cases hl
  | _ => simp [hpc] at h

theorem consume (hs : s.Tracked) (hok : s.FlagInTime .consume) (h : s.consume = some t) : t.Tracked := by
  have hqueued := hs.queued
  unfold Session.consume at h
  cases hpc : s.consumer with
  | unsent | outside => simp [hpc] at h
  | receive =>
    simp only [hpc] at h
    have hattended := hs.attended
    rw [hpc] at hqueued hattended
    split at h
    · rename_i bytes rest hevents
      cases h
      have hb : s.backlog = rest.countP ClientEvent.isChunk + 1 := by
        rw [Session.backlog, hevents, List.countP_cons_of_pos rfl]
      refine ⟨hs.opened, ?_, nofun, hs.flagged, fun _ => .inr rfl⟩
      rw [hb, Nat.add_right_comm _ 1] at hqueued
      exact hqueued
    · rename_i e rest hchunk hevents
      cases h
      have hb : s.backlog = rest.countP ClientEvent.isChunk := by
        cases e with
        | chunk bytes => exact absurd rfl (hchunk bytes)
        | _ => simp [Session.backlog, hevents, ClientEvent.isChunk]
      rw [hb] at hqueued hattended
      exact ⟨hs.opened, hqueued, nofun, hs.flagged, hattended⟩
    · rw [hs.opened] at h
      cases h
  | decrement =>
    simp only [hpc, Option.some.injEq] at h
    subst h
    rw [hpc] at hqueued
    have hleft : s.queued - 1 = .ofNat (s.backlog + s.engine.counted) := by
      rw [hqueued]
      exact (congrArg (· - 1) (Int32.ofNat_add _ 1)).trans (Int32.add_sub_cancel _ _)
    refine ⟨hs.opened, hleft, ?_, hs.flagged, fun _ => .inr rfl⟩
    rintro r ⟨rfl⟩ hne
    refine Nat.pos_of_ne_zero fun h0 => hne ?_
    rw [hleft]
    exact congrArg Int32.ofNat h0
  | loadPaused remaining =>
    simp only [hpc, Option.some.injEq] at h
    subst h
    refine hs.consumer _ ?_ ?_ fun ho => ?_
    · rw [hpc]
      split <;> rfl
    · intro r
      split <;> nofun
    · split
      · exact .inr rfl
      · rename_i hkeep
        have hne : remaining ≠ 0 := fun h0 => hkeep ⟨hs.flagged ho, h0 ▸ s.highWater.half_nonneg⟩
        exact .inl (by simpa [Session.counted_of_owed ho] using hs.remaining remaining hpc hne)
  | awaitRequestId =>
    simp only [hpc, Option.some.injEq] at h
    subst h
    split
    · exact hs.consumer .resume (by rw [hpc]; rfl) nofun fun _ => .inr rfl
    · exact hs.consumer .awaitRequestId (by rw [hpc]) nofun fun _ => .inr rfl
  | resume =>
    simp only [hpc] at h
    have hr := hs.resume
    have ho := s.resume_owed
    have hc : s.resume.2.consumer.counted = 0 := congrArg ConsumerPc.counted (s.resume_consumer.trans hpc)
    split at h
    · rename_i u hu
      cases h
      rw [hu] at hr hc
      exact hr.consumer .delay hc.symm nofun fun _ => .inr rfl
    · rename_i u hstatus hu
      cases h
      rw [hu] at hr hc ho
      have hnone := ho.resolve_left fun h => hstatus (h ▸ rfl)
      exact hr.consumer .storePaused hc.symm nofun fun h => absurd h (by simp [hnone])
  | delay =>
    simp only [hpc, Option.some.injEq] at h
    subst h
    exact hs.consumer .resume (by rw [hpc]; rfl) nofun fun _ => .inr rfl
  | storePaused =>
    simp only [hpc, Option.some.injEq] at h
    subst h
    have hnone : s.owed ≠ true := by simp [hok hpc]
    rw [hpc] at hqueued
    exact ⟨hs.opened, hqueued, nofun, fun h => absurd h hnone, fun h => absurd h hnone⟩

end Session.Tracked

theorem Session.consume_engine {s t : Session} (h : s.consume = some t) :
    t.engine = s.engine ∨ s.engine = .parked := by
  have hresume : s.resume.2.engine = s.engine ∨ s.engine = .parked := by
    unfold Session.resume
    split
    case h_1 hpc => exact .inr hpc
    all_goals exact .inl rfl
  unfold Session.consume at h
  split at h
  case h_7 =>
    split at h <;> rename_i hu <;> cases h <;> simpa [hu] using hresume
  all_goals repeat' split at h
  all_goals first | (cases h; exact .inl rfl) | cases h

/-- Once no chunk can follow, none can follow later. -/
theorem Session.live_of_step {s t : Session} {a : Act} (h : s.step a = some t) (hl : t.engine.live = true) :
    s.engine.live = true := by
  cases a with
  | consume =>
    rcases Session.consume_engine h with he | hpc
    · exact he ▸ hl
    · rw [hpc]
      rfl
  | callback =>
    simp only [Session.step, Session.callback] at h
    split at h <;> cases h
    case h_5 action hpc =>
      rw [hpc]
      cases action <;> first | rfl | cases hl
    all_goals first | (simp only [*]; rfl) | exact absurd hl nofun
  | throw =>
    simp only [Session.step, Session.throw] at h
    split at h <;> cases h <;> cases hl
  | _ =>
    simp only [Session.step] at h
    split at h <;> cases h
    first | exact hl | (simp only [*]; rfl) | exact absurd hl nofun

theorem Session.Tracked.step {s t : Session} {a : Act} (hs : s.Tracked) (hok : s.FlagInTime a)
    (h : s.step a = some t) (hl : t.engine.live = true) : t.Tracked := by
  cases a with
  | callback => exact hs.callback hok h hl
  | consume => exact hs.consume hok h
  | throw =>
    simp only [Session.step, Session.throw] at h
    split at h <;> cases h <;> cases hl
  | finish error =>
    simp only [Session.step] at h
    split at h <;> cases h
    cases hl
  | headers status version fields =>
    simp only [Session.step] at h
    split at h <;> cases h
    rename_i hpc
    exact hs.engine _ s.permit (by rw [hpc]; rfl) nofun
  | chunk bytes =>
    simp only [Session.step] at h
    split at h <;> cases h
    rename_i hpc
    exact hs.engine _ s.permit (by rw [hpc]; rfl) nofun
  | park =>
    simp only [Session.step] at h
    split at h <;> cases h
    rename_i hpc
    exact hs.engine _ s.permit (by rw [hpc]; rfl) (by simp [Session.owed, hpc])
  | sent id =>
    simp only [Session.step] at h
    split at h <;> cases h
    rename_i hpc
    have ha := hs.attended
    rw [hpc] at ha
    have ht := hs.consumer .outside (by rw [hpc]; rfl) nofun ha
    exact ⟨ht.opened, ht.queued, ht.remaining, ht.flagged, ht.attended⟩
  | next =>
    simp only [Session.step] at h
    split at h <;> cases h
    rename_i hpc
    have ha := hs.attended
    rw [hpc] at ha
    exact hs.consumer .receive (by rw [hpc]; rfl) nofun ha

theorem Session.Reaches.tracked {highWater : HighWater} {as : List Act} {s : Session}
    (h : Session.Reaches Session.FlagInTime (.init highWater) as s) (hl : s.engine.live = true) : s.Tracked :=
  Runs.Run.invariant (I := fun s : Session => s.engine.live = true → s.Tracked) h
    (fun _ _ _ hok hs hstep hl => (hs (Session.live_of_step hstep hl)).step hok hstep hl)
    (fun _ => .init highWater) hl

/-- While the flag is set and cleared in time, no high-water mark and no interleaving leads
to a parked engine whose consumer waits for it. -/
theorem consumer_never_deadlocks {highWater : HighWater} {as : List Act} {s : Session}
    (h : Session.Reaches Session.FlagInTime (.init highWater) as s) : ¬ s.Deadlocked := by
  rintro ⟨hparked, hempty, hreceive⟩
  have howed : s.owed = true := by simp [Session.owed, hparked]
  rcases (h.tracked (by rw [hparked]; rfl)).attended howed with hb | ha
  · simp [Session.backlog, hempty] at hb
  · rw [hreceive] at ha
    cases ha

/-- The request is sent and its headers are read; then `onChunk` counts and publishes a chunk. -/
def firstChunk : List Act :=
  [.sent 1, .headers 200 1 [], .callback, .callback, .next, .consume, .chunk [0], .callback, .callback]

def takeChunk (accesses : Nat) : List Act := .next :: List.replicate accesses .consume

def pauseAndPark : List Act := [.callback, .callback, .park]

/-- The engine parks, is resumed by the consumer of the chunk, and parks again. -/
theorem consumer_never_deadlocks_resumed : ∃ s,
    Session.Reaches Session.FlagInTime (.init ⟨1, by decide⟩) (firstChunk ++ pauseAndPark ++ takeChunk 6 ++
      [Act.chunk [1], .callback, .callback] ++ pauseAndPark) s ∧ s.engine = .parked ∧ ¬ s.Deadlocked := by
  have hrun : (Runs.replay Session.step Session.FlagInTime (.init ⟨1, by decide⟩) (firstChunk ++ pauseAndPark ++
      takeChunk 6 ++ [Act.chunk [1], .callback, .callback] ++ pauseAndPark)).map Session.engine =
      some .parked := by decide
  obtain ⟨s, hs, hparked⟩ := Option.map_eq_some_iff.mp hrun
  have hreach := Runs.run_of_replay hs
  exact ⟨s, hreach, hparked, consumer_never_deadlocks hreach⟩

/-- A resume is answered, `onChunk` pauses once more, and only then is the flag cleared. -/
example : ((Runs.replay Session.step Runs.anyStep (.init ⟨1, by decide⟩) (firstChunk ++ pauseAndPark ++ takeChunk 5 ++
    [Act.chunk [1], .callback, .callback] ++ pauseAndPark ++ [Act.consume] ++ takeChunk 3 ++ [Act.next])).map
    fun s => decide s.Deadlocked) = some true := by decide

/-- The consumer takes the only chunk before `onChunk` has set the flag, and nobody resumes
the engine that parks then. -/
theorem published_before_flag_deadlocks : ¬ ∀ (highWater : HighWater) (as : List Act) (s : Session),
    Session.Reaches Runs.anyStep (.init highWater) as s → ¬ s.Deadlocked := by
  intro h
  have hrun : ((Runs.replay Session.step Runs.anyStep (.init ⟨1, by decide⟩)
      (firstChunk ++ takeChunk 3 ++ [Act.next] ++ pauseAndPark)).map fun s => decide s.Deadlocked) =
      some true := by decide
  obtain ⟨s, hs, hd⟩ := Option.map_eq_some_iff.mp hrun
  exact h _ _ s (Runs.run_of_replay hs) (of_decide_eq_true hd)

end Hyper4k.Kotlin
