import Mathlib.Tactic.Common
import Hyper4k.Kotlin.Backpressure

/-! The high-water mark bounds the chunks that wait for the consumer, provided that `next` resumes
the engine while the counter is below the mark: the count that it decides on was taken before it
has read the flag, and more chunks may have come in between. -/
namespace Hyper4k.Kotlin
open Bridge

def Session.inFlight (s : Session) : Nat := s.backlog + s.engine.counted + s.consumer.counted

/-- `next` finds the flag set and its count low, and goes on to resume the engine. -/
def Session.decides (s : Session) : Bool :=
  match s.consumer with
  | .loadPaused remaining => s.paused && decide (remaining ≤ s.highWater.val / 2)
  | _ => false

/-- When `next` decides to resume, the counter is below the mark. -/
def Session.CountKept (s : Session) : Act → Prop
  | .consume => s.decides = true → s.queued < s.highWater.val
  | _ => True

instance (s : Session) : (a : Act) → Decidable (s.CountKept a)
  | .consume => inferInstanceAs (Decidable (s.decides = true → s.queued < s.highWater.val))
  | .headers .. | .chunk _ | .finish _ | .park | .callback | .throw | .sent _ | .next =>
    inferInstanceAs (Decidable True)

def Session.mayGrow (s : Session) : Bool :=
  match s.engine with
  | .sending | .running | .onHeaders .. | .increment _ | .returning .cont => true
  | .returning .pause => s.permit
  | _ => false

def ConsumerPc.asking : ConsumerPc → Bool
  | .awaitRequestId | .resume | .delay => true
  | _ => false

def HighWater.level (w : HighWater) : Nat := w.val.toInt.toNat

theorem HighWater.level_eq (w : HighWater) : (w.level : Int) = w.val.toInt :=
  Int.toNat_of_nonneg (Int.le_of_lt (Int32.lt_iff_toInt_lt.mp w.property))

/-- A count up to the mark fits the counter. -/
theorem HighWater.toInt_ofNat (w : HighWater) {n : Nat} (h : n ≤ w.level) : (Int32.ofNat n).toInt = n := by
  have hmax := w.val.toInt_lt
  have hlevel := w.level_eq
  exact Int32.toInt_ofNat_of_lt (by omega)

theorem HighWater.ofNat_lt (w : HighWater) {n : Nat} (h : n ≤ w.level) : Int32.ofNat n < w.val ↔ n < w.level := by
  rw [Int32.lt_iff_toInt_lt, w.toInt_ofNat h, ← w.level_eq, Int.ofNat_lt]

/-- While the engine is live: the counter is exact and does not pass the mark, a set flag or a
consumer on its way to a resume means that the engine brings nothing before that resume. -/
structure Session.Metered (s : Session) : Prop where
  opened : s.closed = false
  queued : s.queued = .ofNat s.inFlight
  level : s.inFlight + s.mayGrow.toNat ≤ s.highWater.level
  fetched : ∀ bytes q, s.engine = .trySend bytes q → ∃ n, s.inFlight ≤ n ∧ n ≤ s.highWater.level ∧ q = .ofNat n
  permitted : s.permit = true → s.engine = .returning .pause
  flagged : s.paused = true → s.consumer = .storePaused ∨ s.owed = true
  asking : s.consumer.asking = true → s.owed = true ∧ s.inFlight < s.highWater.level

/-- An engine that needs a resume takes it when it is parked, or absorbs it in the callback. -/
theorem Session.resume_of_owed {s : Session} (h : s.owed = true) : s.resume = (.notPaused, s) ∨
    s.resume = (.ok, { s with engine := .running }) ∧ s.engine = .parked ∨
    s.resume = (.ok, { s with permit := true }) ∧ s.engine = .returning .pause := by
  unfold Session.owed at h
  split at h
  case h_1 hpc => exact .inr (.inr ⟨by rw [Session.resume, hpc], hpc⟩)
  case h_2 hpc => exact .inl (by rw [Session.resume, hpc])
  case h_3 hpc => exact .inr (.inl ⟨by rw [Session.resume, hpc], hpc⟩)
  case h_4 => cases h

namespace Session.Metered
variable {s t : Session}

theorem init (highWater : HighWater) : (Session.init highWater).Metered where
  opened := rfl
  queued := rfl
  level := by
    have hpos := Int32.lt_iff_toInt_lt.mp highWater.property
    have hlevel := highWater.level_eq
    change 0 + 1 ≤ highWater.level
    change 0 < highWater.val.toInt at hpos
    omega
  fetched _ _ h := by cases h
  permitted h := by cases h
  flagged h := by cases h
  asking h := by cases h

theorem engine (hs : s.Metered) {events : List ClientEvent} {pc : EnginePc} {permit : Bool}
    (hc : events.countP ClientEvent.isChunk + pc.counted = s.backlog + s.engine.counted)
    (hgrow : { s with engine := pc, permit }.mayGrow = true → s.inFlight < s.highWater.level)
    (hfetched : ∀ bytes q, pc ≠ .trySend bytes q) (hpermit : permit = true → pc = .returning .pause)
    (howed : s.consumer = .storePaused ∨ { s with engine := pc, permit }.owed = s.owed) :
    Session.Metered { s with events, engine := pc, permit } := by
  have hin : { s with events, engine := pc, permit }.inFlight = s.inFlight :=
    congrArg (· + s.consumer.counted) hc
  have hlevel := hs.level
  refine ⟨hs.opened, hs.queued.trans (congrArg _ hin.symm), ?_, fun bytes q h => absurd h (hfetched bytes q),
    hpermit, fun hp => ?_, fun ha => ?_⟩
  · rw [hin]
    cases hg : { s with events, engine := pc, permit }.mayGrow with
    | false => exact Nat.le_trans (Nat.le_add_right ..) hlevel
    | true => exact hgrow hg
  · rcases howed with hstore | howed
    · exact .inl hstore
    · exact (hs.flagged hp).imp_right howed.trans
  · rcases howed with hstore | howed
    · change s.consumer.asking = true at ha
      rw [hstore] at ha
      cases ha
    · rw [hin]
      exact (hs.asking ha).imp_left howed.trans

theorem consumer (hs : s.Metered) {events : List ClientEvent} {pc : ConsumerPc} {paused : Bool}
    (hc : events.countP ClientEvent.isChunk + pc.counted = s.backlog + s.consumer.counted)
    (hflagged : paused = true → pc = .storePaused ∨ s.owed = true)
    (hasking : pc.asking = true → s.owed = true ∧ s.inFlight < s.highWater.level) :
    Session.Metered { s with events, consumer := pc, paused } := by
  have hin : { s with events, consumer := pc, paused }.inFlight = s.inFlight := by
    change events.countP ClientEvent.isChunk + s.engine.counted + pc.counted = _
    rw [Session.inFlight, Nat.add_right_comm, hc, Nat.add_right_comm]
  refine ⟨hs.opened, hs.queued.trans (congrArg _ hin.symm), ?_, fun bytes q h => ?_, hs.permitted, hflagged,
    fun ha => ?_⟩
  · rw [hin]
    exact hs.level
  · rw [hin]
    exact hs.fetched bytes q h
  · rw [hin]
    exact hasking ha

/-- While the engine may bring a chunk, there is room for one. -/
theorem room (hs : s.Metered) (h : s.mayGrow = true) : s.inFlight < s.highWater.level := by
  have hlevel := hs.level
  rw [h] at hlevel
  exact hlevel

/-- A consumer on its way to a resume keeps the engine where it needs one. -/
theorem not_asking (hs : s.Metered) (h : s.owed = false) : s.consumer.asking ≠ true := by
  intro ha
  rw [(hs.asking ha).1] at h
  cases h

theorem not_permitted (hs : s.Metered) (h : s.engine ≠ .returning .pause) : s.permit ≠ true :=
  fun hp => h (hs.permitted hp)

theorem moves (hs : s.Metered) {events : List ClientEvent} {pc : EnginePc} (hpc : s.engine ≠ .returning .pause)
    (hc : events.countP ClientEvent.isChunk + pc.counted = s.backlog + s.engine.counted)
    (hgrow : { s with engine := pc }.mayGrow = true → s.inFlight < s.highWater.level)
    (hfetched : ∀ bytes q, pc ≠ .trySend bytes q) (howed : { s with engine := pc }.owed = s.owed) :
    Session.Metered { s with events, engine := pc } :=
  hs.engine hc hgrow hfetched (fun hp => absurd hp (hs.not_permitted hpc)) (.inr howed)

theorem increment (hs : s.Metered) {bytes : Bytes} (hpc : s.engine = .increment bytes) :
    Session.Metered { s with queued := s.queued + 1, engine := .trySend bytes (s.queued + 1) } := by
  have hroom := hs.room (by rw [Session.mayGrow, hpc])
  have hnone : s.owed = false := by rw [Session.owed, hpc]
  have hin : { s with queued := s.queued + 1, engine := .trySend bytes (s.queued + 1) }.inFlight = s.inFlight + 1 := by
    change s.backlog + 1 + s.consumer.counted = s.backlog + s.engine.counted + s.consumer.counted + 1
    rw [hpc]
    exact Nat.add_right_comm ..
  have hqueued : s.queued + 1 = .ofNat (s.inFlight + 1) := by rw [hs.queued, Int32.ofNat_add]; rfl
  refine ⟨hs.opened, ?_, ?_, ?_, fun hp => ?_, fun hp => ?_, fun ha => absurd ha (hs.not_asking hnone)⟩
  · rw [hin]
    exact hqueued
  · rw [hin]
    exact hroom
  · rintro _ _ ⟨⟩
    exact ⟨s.inFlight + 1, Nat.le_of_eq hin, hroom, hqueued⟩
  · exact absurd hp (hs.not_permitted (by simp [hpc]))
  · rcases hs.flagged hp with hstore | howed
    · exact .inl hstore
    · rw [hnone] at howed
      cases howed

theorem decrement (hs : s.Metered) (hpc : s.consumer = .decrement) :
    Session.Metered { s with queued := s.queued - 1, consumer := .loadPaused (s.queued - 1) } := by
  have hin : s.inFlight =
      { s with queued := s.queued - 1, consumer := .loadPaused (s.queued - 1) }.inFlight + 1 := by
    change s.backlog + s.engine.counted + s.consumer.counted = s.backlog + s.engine.counted + 0 + 1
    rw [hpc]
    rfl
  have hlevel := hs.level
  refine ⟨hs.opened, ?_, ?_, fun bytes q h => ?_, hs.permitted, fun hp => ?_, fun ha => by cases ha⟩
  · change s.queued - 1 = _
    rw [hs.queued, hin, Int32.ofNat_add]
    exact Int32.add_sub_cancel _ _
  · rw [hin, Nat.add_right_comm] at hlevel
    exact Nat.le_of_succ_le hlevel
  · obtain ⟨n, hn, hmax, hq⟩ := hs.fetched bytes q h
    rw [hin] at hn
    exact ⟨n, Nat.le_of_succ_le hn, hmax, hq⟩
  · rcases hs.flagged hp with hstore | howed
    · rw [hpc] at hstore
      cases hstore
    · exact .inr howed

theorem callback (hs : s.Metered) (h : s.callback = some t) (hl : t.engine.live = true) : t.Metered := by
  unfold Session.callback at h
  cases hpc : s.engine with
  | onHeaders status version fields =>
    simp only [hpc, Option.some.injEq, Session.publish_eq hs.opened] at h
    subst h
    refine hs.moves (by simp [hpc]) ?_ (fun _ => hs.room (by rw [Session.mayGrow, hpc])) (fun _ _ h => by cases h)
      (by simp only [Session.owed, hpc])
    rw [List.countP_append, hpc]
    rfl
  | increment bytes =>
    simp only [hpc, Option.some.injEq] at h
    subst h
    exact hs.increment hpc
  | trySend bytes queued =>
    simp only [hpc, Option.some.injEq, Session.publish_eq hs.opened] at h
    subst h
    obtain ⟨n, hn, hmax, rfl⟩ := hs.fetched bytes queued hpc
    have hc : (s.events ++ [ClientEvent.chunk bytes]).countP ClientEvent.isChunk = s.backlog + s.engine.counted := by
      rw [List.countP_append, hpc]
      rfl
    split
    · exact hs.moves (by simp [hpc]) hc (fun h => by cases h) (fun _ _ h => by cases h)
        (by simp only [Session.owed, hpc])
    · rename_i hbelow
      have hlt : n < s.highWater.level := (s.highWater.ofNat_lt hmax).mp (Int32.not_le.mp hbelow)
      exact hs.moves (by simp [hpc]) hc (fun _ => Nat.lt_of_le_of_lt hn hlt) (fun _ _ h => by cases h)
        (by simp only [Session.owed, hpc])
  | storePaused =>
    simp only [hpc, Option.some.injEq] at h
    subst h
    have hnone : s.owed = false := by rw [Session.owed, hpc]
    have hpermit : s.permit = false :=
      Bool.eq_false_iff.mpr (hs.not_permitted (by simp [hpc]))
    have howed : { s with paused := true, engine := .returning .pause }.owed = true := by
      simp only [Session.owed, hpermit, Bool.not_false]
    have hin : { s with paused := true, engine := .returning .pause }.inFlight = s.inFlight := by
      simp only [Session.inFlight, hpc]
      rfl
    refine ⟨hs.opened, ?_, ?_, fun _ _ h => EnginePc.noConfusion h, fun _ => rfl, fun _ => .inr howed,
      fun ha => absurd ha (hs.not_asking hnone)⟩
    · rw [hin]
      exact hs.queued
    · have hgrow : { s with paused := true, engine := .returning .pause }.mayGrow = false := hpermit
      rw [hin, hgrow]
      exact Nat.le_trans (Nat.le_add_right ..) hs.level
  | returning action =>
    simp only [hpc, Option.some.injEq] at h
    subst h
    cases action with
    | cont =>
      exact hs.engine (by rw [hpc]; rfl) (fun _ => hs.room (by rw [Session.mayGrow, hpc])) (fun _ _ h => by cases h)
        (fun h => by cases h) (.inr (by simp only [Session.owed, hpc]; rfl))
    | cancel => cases hl
    | pause =>
      cases hpermit : s.permit with
      | false =>
        exact hs.engine (by rw [hpc]; rfl) (fun h => by cases h) (fun _ _ h => by cases h) (fun h => by cases h)
          (.inr (by simp only [Session.owed, hpc, hpermit]; rfl))
      | true =>
        exact hs.engine (by rw [hpc]; rfl) (fun _ => hs.room (by simp only [Session.mayGrow, hpc, hpermit]))
          (fun _ _ h => by cases h) (fun h => by cases h) (.inr (by simp only [Session.owed, hpc, hpermit]; rfl))
  | sendDone error =>
    simp only [hpc, Option.some.injEq] at h
    subst h
    cases hl
  | close =>
    simp only [hpc, Option.some.injEq] at h
    subst h
    cases hl
  | _ => simp [hpc] at h

/-- The engine needs the resume, which either comes too early or sets it going. -/
theorem resume (hs : s.Metered) (hpc : s.consumer = .resume) (h : s.consume = some t) : t.Metered := by
  obtain ⟨howed, hroom⟩ := hs.asking (by rw [hpc]; rfl)
  have hstays (pc : ConsumerPc) (hc : pc.counted = 0) (hask : pc.asking = true → s.owed = true) :
      Session.Metered { s with consumer := pc } :=
    hs.consumer (by rw [hpc, hc]; rfl) (fun _ => .inr howed) fun ha => ⟨hask ha, hroom⟩
  have hstored := hstays .storePaused rfl fun h => by cases h
  have hin : { s with consumer := .storePaused }.inFlight = s.inFlight := by
    simp only [Session.inFlight, hpc]
    rfl
  rcases Session.resume_of_owed howed with hr | ⟨hr, hengine⟩ | ⟨hr, hengine⟩
  · simp only [Session.consume, hpc, hr, Option.some.injEq] at h
    subst h
    exact hstays .delay rfl fun _ => howed
  · simp only [Session.consume, hpc, hr, Option.some.injEq] at h
    subst h
    refine hstored.engine ?_ (fun _ => hin ▸ hroom) (fun _ _ h => by cases h) (fun hp => ?_) (.inl rfl)
    · change s.backlog + 0 = s.backlog + s.engine.counted
      rw [hengine]
      rfl
    · exact absurd hp (hs.not_permitted (by simp [hengine]))
  · simp only [Session.consume, hpc, hr, Option.some.injEq] at h
    subst h
    refine hstored.engine rfl (fun _ => hin ▸ hroom) (fun _ _ h => ?_) (fun _ => hengine) (.inl rfl)
    cases hengine.symm.trans h

theorem consume (hs : s.Metered) (hok : s.CountKept .consume) (h : s.consume = some t) : t.Metered := by
  cases hpc : s.consumer with
  | unsent | outside => simp [Session.consume, hpc] at h
  | receive =>
    have hflagged (pc : ConsumerPc) (hp : s.paused = true) : pc = .storePaused ∨ s.owed = true :=
      .inr ((hs.flagged hp).resolve_left (by simp [hpc]))
    simp only [Session.consume, hpc] at h
    split at h
    · rename_i bytes rest hevents
      cases h
      refine hs.consumer ?_ (hflagged .decrement) fun h => by cases h
      rw [Session.backlog, hevents, List.countP_cons_of_pos rfl, hpc]
      rfl
    · rename_i e rest hchunk hevents
      cases h
      refine hs.consumer ?_ (hflagged .outside) fun h => by cases h
      cases e with
      | chunk bytes => exact absurd rfl (hchunk bytes)
      | _ => simp [Session.backlog, hevents, ClientEvent.isChunk, hpc, ConsumerPc.counted]
    · rw [hs.opened] at h
      cases h
  | decrement =>
    simp only [Session.consume, hpc, Option.some.injEq] at h
    subst h
    exact hs.decrement hpc
  | loadPaused remaining =>
    simp only [Session.consume, hpc, Option.some.injEq] at h
    subst h
    have howed (hp : s.paused = true) : s.owed = true :=
      (hs.flagged hp).resolve_left (by simp [hpc])
    refine hs.consumer ?_ (fun hp => .inr (howed hp)) fun ha => ?_
    · rw [hpc]
      split <;> rfl
    · split at ha
      · rename_i hdecides
        refine ⟨howed hdecides.1, ?_⟩
        have hbelow := hok (by simp only [Session.decides, hpc, hdecides.1, hdecides.2, decide_true, Bool.and_self])
        rw [hs.queued] at hbelow
        exact (s.highWater.ofNat_lt (Nat.le_trans (Nat.le_add_right ..) hs.level)).mp hbelow
      · cases ha
  | awaitRequestId =>
    simp only [Session.consume, hpc, Option.some.injEq] at h
    subst h
    have hasking := hs.asking (by rw [hpc]; rfl)
    refine hs.consumer ?_ (fun _ => .inr hasking.1) fun _ => hasking
    rw [hpc]
    split <;> rfl
  | resume => exact hs.resume hpc h
  | delay =>
    simp only [Session.consume, hpc, Option.some.injEq] at h
    subst h
    have hasking := hs.asking (by rw [hpc]; rfl)
    exact hs.consumer (by rw [hpc]; rfl) (fun _ => .inr hasking.1) fun _ => hasking
  | storePaused =>
    simp only [Session.consume, hpc, Option.some.injEq] at h
    subst h
    exact hs.consumer (by rw [hpc]; rfl) (fun h => by cases h) fun h => by cases h

theorem step {a : Act} (hs : s.Metered) (hok : s.CountKept a) (h : s.step a = some t)
    (hl : t.engine.live = true) : t.Metered := by
  cases a with
  | callback => exact hs.callback h hl
  | consume => exact hs.consume hok h
  | throw =>
    simp only [Session.step, Session.throw] at h
    split at h <;> cases h <;> cases hl
  | finish error =>
    simp only [Session.step] at h
    split at h <;> cases h
    cases hl
  | headers status version fields =>
    simp only [Session.step] at h
    split at h <;> cases h
    rename_i hpc
    exact hs.moves (by simp [hpc]) (by rw [hpc]; rfl) (fun _ => hs.room (by rw [Session.mayGrow, hpc]))
      (fun _ _ h => by cases h) (by simp only [Session.owed, hpc])
  | chunk bytes =>
    simp only [Session.step] at h
    split at h <;> cases h
    rename_i hpc
    exact hs.moves (by simp [hpc]) (by rw [hpc]; rfl) (fun _ => hs.room (by rw [Session.mayGrow, hpc]))
      (fun _ _ h => by cases h) (by simp only [Session.owed, hpc])
  | park =>
    simp only [Session.step] at h
    split at h <;> cases h
    rename_i hpc
    exact hs.moves (by simp [hpc]) (by rw [hpc]; rfl) (fun h => by cases h) (fun _ _ h => by cases h)
      (by simp only [Session.owed, hpc])
  | sent id =>
    simp only [Session.step] at h
    split at h <;> cases h
    rename_i hpc
    have ht : Session.Metered { s with consumer := .outside } := by
      refine hs.consumer (by rw [hpc]; rfl) (fun hp => .inr ?_) fun h => by cases h
      exact (hs.flagged hp).resolve_left (by simp [hpc])
    exact ⟨ht.opened, ht.queued, ht.level, ht.fetched, ht.permitted, ht.flagged, ht.asking⟩
  | next =>
    simp only [Session.step] at h
    split at h <;> cases h
    rename_i hpc
    refine hs.consumer (by rw [hpc]; rfl) (fun hp => .inr ?_) fun h => by cases h
    exact (hs.flagged hp).resolve_left (by simp [hpc])

theorem backlog_le (hs : s.Metered) : s.backlog ≤ s.highWater.level := by
  have hlevel := hs.level
  rw [Session.inFlight] at hlevel
  omega

end Session.Metered

theorem Session.publish_highWater (s : Session) (e : ClientEvent) : (s.publish e).highWater = s.highWater := by
  rw [Session.publish, RequestState.trySend]
  split <;> rfl

theorem Session.resume_rest (s : Session) : s.resume.2.highWater = s.highWater ∧ s.resume.2.events = s.events := by
  rw [Session.resume]
  split <;> exact ⟨rfl, rfl⟩

theorem Session.consume_rest {s t : Session} (h : s.consume = some t) :
    t.highWater = s.highWater ∧ t.events <:+ s.events := by
  obtain ⟨hwater, hevents⟩ := s.resume_rest
  unfold Session.consume at h
  split at h
  case h_7 =>
    split at h <;> rename_i hu <;> cases h <;> rw [hu] at hwater hevents
    · exact ⟨hwater, hevents ▸ List.suffix_rfl⟩
    · exact ⟨hwater, hevents ▸ List.suffix_rfl⟩
  case h_3 =>
    split at h
    case h_1 hpc => cases h; exact ⟨rfl, hpc ▸ List.suffix_cons ..⟩
    case h_2 hpc => cases h; exact ⟨rfl, hpc ▸ List.suffix_cons ..⟩
    case h_3 => split at h <;> cases h; exact ⟨rfl, List.suffix_rfl⟩
  all_goals cases h
  all_goals exact ⟨rfl, List.suffix_rfl⟩

theorem Session.step_highWater {s t : Session} {a : Act} (h : s.step a = some t) : t.highWater = s.highWater := by
  cases a with
  | consume => exact (Session.consume_rest h).1
  | callback =>
    simp only [Session.step, Session.callback] at h
    split at h <;> cases h <;> first | rfl | exact s.publish_highWater _
  | throw =>
    simp only [Session.step, Session.throw] at h
    split at h <;> cases h <;> rfl
  | _ =>
    simp only [Session.step] at h
    split at h <;> cases h
    rfl

theorem Session.publish_backlog (s : Session) {e : ClientEvent} (he : e.isChunk = false) :
    (s.publish e).backlog = s.backlog := by
  rw [Session.publish, RequestState.trySend]
  split
  · rfl
  · change (s.events ++ [e]).countP ClientEvent.isChunk = _
    rw [List.countP_append, List.countP_singleton, he]
    rfl

/-- Once no chunk can follow, the backlog does not grow. -/
theorem Session.backlog_of_dead {s t : Session} {a : Act} (h : s.step a = some t) (hl : t.engine.live = false) :
    t.backlog ≤ s.backlog := by
  cases a with
  | consume => exact (Session.consume_rest h).2.sublist.countP_le
  | callback =>
    simp only [Session.step, Session.callback] at h
    split at h <;> cases h
    case h_1 => cases hl
    case h_3 => simp only at hl; split at hl <;> cases hl
    case h_6 => exact Nat.le_of_eq (s.publish_backlog rfl)
    all_goals exact Nat.le_refl _
  | throw =>
    simp only [Session.step, Session.throw] at h
    split at h <;> cases h <;> exact Nat.le_refl _
  | _ =>
    simp only [Session.step] at h
    split at h <;> cases h
    exact Nat.le_refl _

/-- If no resume is decided on a count that has reached the mark again, then at no time do more than
`chunkHighWater` chunks wait in the channel. -/
theorem backlog_bounded {highWater : HighWater} {as : List Act} {s : Session}
    (h : Session.Reaches Session.CountKept (.init highWater) as s) : (s.backlog : Int) ≤ highWater.val.toInt := by
  rw [← highWater.level_eq, Int.ofNat_le]
  have hkept := Runs.Run.invariant (I := fun s : Session => s.highWater = highWater ∧
      (s.engine.live = true → s.Metered) ∧ s.backlog ≤ highWater.level) h ?_
    ⟨rfl, fun _ => .init highWater, Nat.zero_le _⟩
  · exact hkept.2.2
  · rintro s a t hok ⟨hwater, hlive, hle⟩ hstep
    have hmetered (hl : t.engine.live = true) : t.Metered :=
      (hlive (Session.live_of_step hstep hl)).step hok hstep hl
    refine ⟨(Session.step_highWater hstep).trans hwater, hmetered, ?_⟩
    cases hl : t.engine.live with
    | true => exact hwater ▸ Session.step_highWater hstep ▸ (hmetered hl).backlog_le
    | false => exact Nat.le_trans (Session.backlog_of_dead hstep hl) hle

def nextChunk (byte : UInt8) : List Act := [.chunk [byte], .callback, .callback]

/-- With a mark of two the engine parks at two chunks, is resumed at one, and fills up again. -/
theorem backlog_bounded_refilled : ∃ s, Session.Reaches Session.CountKept (.init ⟨2, by decide⟩)
    (firstChunk ++ [.callback] ++ nextChunk 1 ++ pauseAndPark ++ takeChunk 6 ++ nextChunk 2) s ∧
    s.backlog = 2 ∧ (s.backlog : Int) ≤ (2 : Int32).toInt := by
  have hrun : ((Runs.replay Session.step Session.CountKept (.init ⟨2, by decide⟩) (firstChunk ++ [.callback] ++
      nextChunk 1 ++ pauseAndPark ++ takeChunk 6 ++ nextChunk 2)).map Session.backlog) = some 2 := by decide
  obtain ⟨s, hs, hbacklog⟩ := Option.map_eq_some_iff.mp hrun
  have hreach := Runs.run_of_replay hs
  exact ⟨s, hreach, hbacklog, backlog_bounded hreach⟩

/-- `next` counts a chunk back and finds none left. Before it reads the flag, two more fill the channel and
the engine parks; `next` then resumes it on its old count, and a third chunk comes on top. -/
theorem stale_count_overfills : ¬ ∀ (highWater : HighWater) (as : List Act) (s : Session),
    Session.Reaches Runs.anyStep (.init highWater) as s → (s.backlog : Int) ≤ highWater.val.toInt := by
  intro h
  have hrun : ((Runs.replay Session.step Runs.anyStep (.init ⟨2, by decide⟩) (firstChunk ++ [.callback] ++
      takeChunk 2 ++ nextChunk 1 ++ [.callback] ++ nextChunk 2 ++ pauseAndPark ++ [.consume, .consume, .consume] ++
      nextChunk 3)).map Session.backlog) = some 3 := by decide
  obtain ⟨s, hs, hbacklog⟩ := Option.map_eq_some_iff.mp hrun
  have hle := h _ _ s (Runs.run_of_replay hs)
  rw [hbacklog] at hle
  exact absurd hle (by decide)

end Hyper4k.Kotlin
