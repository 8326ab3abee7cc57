import Hyper4k.Server.Serial

/-! What the body of a streamed response yields is what its caller has written. -/
namespace Hyper4k.Server
open Runs Text

namespace Streaming
variable {s t : Streaming} {r : Responder} {w : ThreadId}

/-- `begin` puts a new channel into the map. -/
theorem Serial.opens (hown : s.Owned) (hs : s.Serial r) (hw : (s.calls w).map Api.responder = some r)
    {status : UInt16} {headers : HeaderList} (free : s.engine.active r = none)
    (h : t = { s.note w (.opens r s.engine.nextStream) with
      engine := ({ s.engine with nextStream := s.engine.nextStream + 1 }.setActive r
        (some s.engine.nextStream)).setCall w (.deliver r (.stream ⟨status, headers, s.engine.nextStream⟩)) }) :
    t.Serial r := by
  have hpc : t.pc r = .deliver r (.stream ⟨status, headers, s.engine.nextStream⟩) :=
    hs.after hw (by rw [h]; rfl) (by rw [h]; exact pcs_setCall ..)
  have hactive : t.engine.active r = some s.engine.nextStream := by
    rw [h]
    exact Function.update_self ..
  have hself : t.taps s.engine.nextStream = { senders := 1 } := by
    rw [h]
    exact Function.update_self ..
  have hbegun : t.engine.begun = s.engine.begun := by
    rw [h]
    rfl
  have hold : ∀ i, s.owner i = some r → i ≠ s.engine.nextStream := fun i hi => Nat.ne_of_lt (hown.fresh i r hi)
  have htaps : ∀ i, i ≠ s.engine.nextStream → t.taps i = s.taps i := by
    intro i hi
    rw [h]
    exact Function.update_of_ne hi _ _
  have howner : ∀ i, i ≠ s.engine.nextStream → t.owner i = some r → s.owner i = some r := by
    intro i hi hr
    have hr : Function.update s.owner s.engine.nextStream (some r) i = some r := by
      rw [h] at hr
      exact hr
    rwa [Function.update_of_ne hi] at hr
  have hnone : ∀ i, s.engine.active r ≠ some i := fun i hi => by
    rw [free] at hi
    cases hi
  refine ⟨by rw [h]; exact hs.caller, ?_, fun i hi => ?_, fun i hi hne => ?_, fun i hi => ?_, fun i hi => ?_,
    fun i hi hne => ?_, fun hnil => ?_, fun i hi => ?_⟩
  · rw [hpc, hactive, hbegun]
    refine ⟨fun q i hq => ?_, nofun, nofun, nofun⟩
    cases hq
    exact ⟨rfl, fun hmem => hold _ (hown.begun r _ hmem) rfl⟩
  · rw [hactive] at hi
    cases hi
    rw [hself, hpc]
    rfl
  · have hin : i ≠ s.engine.nextStream := fun hin => hne (hin ▸ hactive)
    rw [htaps i hin]
    exact hs.gone i (howner i hin hi) (hnone i)
  · rw [hbegun] at hi
    refine .inr ?_
    have hkept := (hs.kept i hi).resolve_left (hnone i)
    rw [h]
    exact hkept
  · by_cases hin : i = s.engine.nextStream
    · have hbuffer : (t.engine.streams i).buffer = [] := by
        rw [h]
        exact hown.untouched i (Nat.le_of_eq hin.symm)
      rw [hbuffer, hin, hself]
      exact Tap.Sound.empty _ _ 1
    · have hbuffer : t.engine.streams = s.engine.streams := by
        rw [h]
        rfl
      rw [htaps i hin, hbuffer]
      exact hs.sound i (howner i hin hi)
  · rw [hbegun] at hne
    by_cases hin : i = s.engine.nextStream
    · rw [hin, hself]
    · rw [htaps i hin]
      exact hs.blank i (howner i hin hi) hne
  · rw [hbegun] at hnil
    rw [h]
    exact hs.nothing hnil
  · rw [hbegun] at hi
    have hin := hold i (hown.begun r i (hi ▸ List.mem_singleton_self i))
    rw [htaps i hin, ← hs.whole i hi, h]
    rfl

/-- `write` clones the sender. -/
theorem Serial.clones (hown : s.Owned) (hs : s.Serial r) (hw : (s.calls w).map Api.responder = some r)
    {i : StreamId} {chunk : Octets} (pc : s.engine.pcs w = .getSender r (.bytes chunk))
    (found : s.engine.active r = some i)
    (h : t = { s.note w (.clones i) with engine := s.engine.setCall w (.trySend i chunk) }) : t.Serial r := by
  have hpc : t.pc r = .trySend i chunk := hs.after hw (by rw [h]; rfl) (by rw [h]; exact pcs_setCall ..)
  have hone : (s.taps i).senders = 1 := by
    rw [hs.senders hw found, pc]
    rfl
  have hsettled := hs.settled hw (by rw [pc]; rfl) (by rw [pc]; nofun)
  have htouch : s.Touched t i (s.taps i).clone := by
    rw [h]
    exact ⟨rfl, rfl, rfl, rfl, rfl, rfl, rfl, fun _ _ => rfl⟩
  refine hs.touch found htouch ?_ ?_ ?_ (.inl ⟨rfl, by rw [h]; rfl⟩)
  · rw [hpc]
    refine ⟨nofun, nofun, fun _ _ j hj => hsettled j (found.trans hj), fun j c hj => ?_⟩
    cases hj
    rfl
  · rw [hpc, Tap.clone, hone]
    rfl
  · have hsound := (hs.sound i (hown.active r i found)).clone (by rw [hone]; exact Nat.one_pos)
    rw [h]
    exact hsound

/-- While `write` sends, it holds a sender beside the one in `active_streams`. -/
theorem Serial.sends (hs : s.Serial r) (hw : (s.calls w).map Api.responder = some r) {i : StreamId} {chunk : Octets}
    (pc : (s.engine.pcs w).sending = some (i, chunk)) :
    s.engine.active r = some i ∧ i ∈ s.engine.begun r ∧ (s.taps i).senders = 2 := by
  obtain ⟨hactive, hbegun⟩ := hs.stage.sends (by rw [hs.before hw]; exact pc)
  refine ⟨hactive, hbegun, ?_⟩
  rw [hs.senders hw hactive, pc]
  rfl

theorem Serial.accepts (hown : s.Owned) (hs : s.Serial r) (hw : (s.calls w).map Api.responder = some r)
    {i : StreamId} {chunk : Octets} (pc : (s.engine.pcs w).sending = some (i, chunk))
    (room : (s.engine.streams i).buffer.length < STREAM_CHANNEL_CAPACITY)
    (h : t = { s.note w (.accepts i chunk) with engine := (s.engine.setStream i
      { s.engine.streams i with buffer := (s.engine.streams i).buffer ++ [chunk] }).setCall w (.returned .ok) }) :
    t.Serial r := by
  have hpc : t.pc r = .returned .ok := hs.after hw (by rw [h]; rfl) (by rw [h]; exact pcs_setCall ..)
  obtain ⟨hactive, hbegun, htwo⟩ := hs.sends hw pc
  have hbuffer : (t.engine.streams i).buffer = (s.engine.streams i).buffer ++ [chunk] := by
    rw [h]
    exact congrArg Stream.buffer (Function.update_self i _ s.engine.streams)
  have hwrites : t.writes r = s.writes r ++ [chunk] := by
    obtain ⟨api, hapi, happ⟩ := Option.map_eq_some_iff.mp hw
    rw [h]
    simp only [Streaming.note, hapi, happ]
    exact Function.update_self ..
  have htouch : s.Touched t i ((s.taps i).write chunk).dropSender := by
    rw [h]
    exact ⟨rfl, rfl, rfl, rfl, rfl, rfl, rfl, fun j hj => congrArg Stream.buffer (Function.update_of_ne hj _ _)⟩
  refine hs.touch hactive htouch ?_ ?_ ?_ (.inr ⟨hbegun, chunk, rfl, hwrites⟩)
  · rw [hpc]
    refine .rest (fun j hj => ?_) rfl rfl fun _ => CallPc.noConfusion
    cases hj
    exact hbegun
  · rw [hpc, Tap.dropSender, Tap.write, htwo]
    rfl
  · rw [hbuffer]
    have hsound := hs.sound i (hown.active r i hactive)
    exact (hsound.write (by rw [htwo]; exact Nat.two_pos) room ((hown.threads w).sending i chunk pc).1).dropSender

theorem Serial.fails (hown : s.Owned) (hs : s.Serial r) (hw : (s.calls w).map Api.responder = some r)
    {i : StreamId} {chunk : Octets} {code : Code} (pc : (s.engine.pcs w).sending = some (i, chunk))
    (h : t = { s.note w (.fails i) with engine := s.engine.setCall w (.returned code) }) : t.Serial r := by
  have hpc : t.pc r = .returned code := hs.after hw (by rw [h]; rfl) (by rw [h]; exact pcs_setCall ..)
  obtain ⟨hactive, hbegun, htwo⟩ := hs.sends hw pc
  have htouch : s.Touched t i (s.taps i).dropSender := by
    rw [h]
    exact ⟨rfl, rfl, rfl, rfl, rfl, rfl, rfl, fun _ _ => rfl⟩
  refine hs.touch hactive htouch ?_ ?_ ?_ (.inl ⟨rfl, by rw [h]; rfl⟩)
  · rw [hpc]
    refine .rest (fun j hj => ?_) rfl rfl nofun
    cases hj
    exact hbegun
  · rw [hpc, Tap.dropSender, htwo]
    rfl
  · have hsound := (hs.sound i (hown.active r i hactive)).dropSender
    rw [h]
    exact hsound

theorem Serial.waits (hown : s.Owned) (hs : s.Serial r) (hw : (s.calls w).map Api.responder = some r)
    {i : StreamId} {chunk : Octets} (pc : (s.engine.pcs w).sending = some (i, chunk))
    (h : t = { s with engine := s.engine.setCall w (.blockingSend i chunk) }) : t.Serial r := by
  have hpc : t.pc r = .blockingSend i chunk := hs.after hw (by rw [h]) (by rw [h]; exact pcs_setCall ..)
  obtain ⟨hactive, hbegun⟩ := hs.stage.sends (by rw [hs.before hw]; exact pc)
  have htouch : s.Touched t i (s.taps i) := by
    rw [h]
    exact ⟨rfl, rfl, rfl, rfl, rfl, rfl, (Function.update_eq_self i s.taps).symm, fun _ _ => rfl⟩
  refine hs.touch hactive htouch ?_ ?_ ?_ (.inl ⟨rfl, by rw [h]⟩)
  · rw [hpc]
    refine ⟨nofun, nofun, fun _ _ j hj => ?_, fun j c hj => ?_⟩
    · cases hj
      exact hbegun
    · cases hj
      rfl
  · rw [hpc, hs.senders hw hactive, pc]
    rfl
  · have hsound := hs.sound i (hown.active r i hactive)
    rw [h]
    exact hsound

/-- The entry of `r` is taken out of the map, by `finish` or by a `begin` that could not deliver. -/
theorem Serial.removes (hown : s.Owned) (hs : s.Serial r) (hw : (s.calls w).map Api.responder = some r)
    {i : StreamId} {finish : Bool} {code : Code}
    (pc : s.engine.pcs w = if finish then .removeStream r else .releaseStream r) (found : s.engine.active r = some i)
    (h : t = { s.note w (.removes i finish) with engine := (s.engine.setActive r none).setCall w (.returned code) }) :
    t.Serial r := by
  have hpc : t.pc r = .returned code := hs.after hw (by rw [h]; rfl) (by rw [h]; exact pcs_setCall ..)
  have hactive : t.engine.active r = none := by
    rw [h]
    exact Function.update_self ..
  have hnone : ∀ j, t.engine.active r ≠ some j := fun j hj => by
    rw [hactive] at hj
    cases hj
  have hbegun : t.engine.begun = s.engine.begun := by
    rw [h]
    rfl
  have htaps : t.taps = Function.update s.taps i (s.taps i).dropSender := by
    rw [h]
    rfl
  have hwritten : ∀ j, (t.taps j).written = (s.taps j).written := by
    rw [htaps]
    exact update_part (f := Tap.written) rfl
  have hsenders : (s.taps i).senders = 1 := by
    rw [hs.senders hw found, pc]
    cases finish <;> rfl
  refine ⟨by rw [h]; exact hs.caller, ?_, fun j hj => absurd hj (hnone j), fun j hj _ => ?_, fun j hj => .inr ?_,
    fun j hj => ?_, fun j hj hne => ?_, fun hnil => ?_, fun j hj => ?_⟩
  · rw [hpc]
    exact .rest (fun j hj => absurd hj (hnone j)) rfl rfl nofun
  · have hj : s.owner j = some r := by
      rw [h] at hj
      exact hj
    by_cases hji : j = i
    · rw [htaps, hji, Function.update_self, Tap.dropSender, hsenders]
    · rw [htaps, Function.update_of_ne hji]
      exact hs.gone j hj fun hactive => hji (Option.some.inj (hactive.symm.trans found))
  · rw [hbegun] at hj
    have hfinished : t.finished = Function.update s.finished i (s.finished i || finish) := by
      rw [h]
      rfl
    rw [hfinished]
    by_cases hji : j = i
    · subst hji
      rw [Function.update_self]
      cases finish with
      | true => exact Bool.or_true _
      | false =>
        -- a `begin` takes back only the stream it has put there
        obtain ⟨k, hk, hnot⟩ := hs.stage.release r (by rw [hs.before hw]; exact pc)
        obtain rfl : k = j := Option.some.inj (hk.symm.trans found)
        exact absurd hj hnot
    · rw [Function.update_of_ne hji]
      exact (hs.kept j hj).resolve_left fun hactive => hji (Option.some.inj (hactive.symm.trans found))
  · have hj : s.owner j = some r := by
      rw [h] at hj
      exact hj
    have hstreams : t.engine.streams = s.engine.streams := by
      rw [h]
      rfl
    rw [htaps, hstreams]
    by_cases hji : j = i
    · rw [hji, Function.update_self]
      exact (hs.sound i (hown.active r i found)).dropSender
    · rw [Function.update_of_ne hji]
      exact hs.sound j hj
  · rw [hbegun] at hne
    rw [hwritten]
    exact hs.blank j (by rw [h] at hj; exact hj) hne
  · rw [hbegun] at hnil
    rw [h]
    exact hs.nothing hnil
  · rw [hbegun] at hj
    rw [hwritten, ← hs.whole j hj, h]
    rfl

/-- `respond` and `begin` return when their delivery was taken. -/
theorem Serial.delivers (hown : s.Owned) (hs : s.Serial r) (hw : (s.calls w).map Api.responder = some r)
    {own : Delivery} {e : Engine}
    (pc : s.engine.pcs w = .deliver r own ∨ ∃ payload, s.engine.pcs w = .send r own payload)
    (pcs : e.pcs = Function.update s.engine.pcs w (.returned .ok))
    (accepted : e.accepted = Function.update s.engine.accepted r (s.engine.accepted r ++ [own]))
    (active : e.active = s.engine.active) (streams : e.streams = s.engine.streams) :
    ({ s with engine := e } : Streaming).Serial r := by
  have hpc : ({ s with engine := e } : Streaming).pc r = .returned .ok := hs.after hw rfl pcs
  have hbegun : e.begun r = s.engine.begun r ++ own.rx.toList := by
    rw [begun_accepted accepted, Function.update_self]
  have hbegins : (s.engine.pcs w).begins = own.rx.map (r, ·) := by
    rcases pc with pc | ⟨payload, pc⟩ <;> rw [pc] <;> rfl
  have hplain : (s.engine.pcs w).sending = none ∧ ∀ q, s.engine.pcs w ≠ .releaseStream q := by
    rcases pc with pc | ⟨payload, pc⟩ <;> rw [pc] <;> exact ⟨rfl, nofun⟩
  have hrx : ∀ i, own.rx = some i → s.engine.active r = some i ∧ i ∉ s.engine.begun r := by
    intro i hi
    refine hs.stage.begins r i ?_
    rw [hs.before hw, hbegins, hi]
    rfl
  have hall : ∀ i, s.engine.active r = some i → i ∈ e.begun r := by
    intro i hi
    rw [hbegun]
    cases hown : own.rx with
    | none => exact List.mem_append_left _ (hs.settled hw (by rw [hbegins, hown]; rfl) hplain.2 i hi)
    | some j =>
      obtain rfl : j = i := Option.some.inj ((hrx j hown).1.symm.trans hi)
      exact List.mem_append_right _ (List.mem_singleton_self j)
  refine ⟨hs.caller, ?_, fun i hi => ?_, fun i hi hne => ?_, fun i hi => ?_, fun i hi => ?_, fun i hi hne => ?_,
    fun hnil => ?_, fun i hi => ?_⟩
  · rw [hpc, active]
    exact .rest hall rfl rfl nofun
  · rw [active] at hi
    rw [hpc, hs.senders hw hi, hplain.1]
    rfl
  · rw [active] at hne
    exact hs.gone i hi hne
  · rw [active]
    have hi : i ∈ e.begun r := hi
    rw [hbegun] at hi
    rcases List.mem_append.mp hi with hi | hi
    · exact hs.kept i hi
    · exact .inl (hrx i (Option.mem_toList.mp hi)).1
  · rw [streams]
    exact hs.sound i hi
  · have hne : i ∉ e.begun r := hne
    rw [hbegun] at hne
    exact hs.blank i hi fun hmem => hne (List.mem_append_left _ hmem)
  · have hnil : e.begun r = [] := hnil
    rw [hbegun] at hnil
    exact hs.nothing (List.append_eq_nil_iff.mp hnil).1
  · have hi : e.begun r = [i] := hi
    rw [hbegun] at hi
    cases hrx' : own.rx with
    | none =>
      rw [hrx', Option.toList_none, List.append_nil] at hi
      exact hs.whole i hi
    | some j =>
      rw [hrx', Option.toList_some, List.append_eq_singleton_iff] at hi
      obtain ⟨hnil, hj⟩ | ⟨-, hj⟩ := hi
      · cases hj
        have howner := hown.active r i (hrx i hrx').1
        change s.writes r = (s.taps i).written
        rw [hs.nothing hnil, hs.blank i howner (hrx i hrx').2]
      · cases hj

theorem Serial.call (hown : s.Owned) (hs : s.Serial r) {ev : StreamEvent} {e : Engine}
    (h : s.engine.Accessed w ev e) : ({ s.note w ev with engine := e } : Streaming).Serial r := by
  by_cases hw : (s.calls w).map Api.responder = some r
  · cases h with
    | opens q status headers pc free =>
      obtain rfl : q = r := hown.on_self hw (by rw [pc]; rfl)
      exact hs.opens hown hw free rfl
    | clones q i chunk pc full found =>
      obtain rfl : q = r := hown.on_self hw (by rw [pc]; rfl)
      exact hs.clones hown hw pc found rfl
    | accepts i chunk pc room => exact hs.accepts hown hw pc room rfl
    | fails i chunk code pc => exact hs.fails hown hw pc rfl
    | waits i chunk pc => exact hs.waits hown hw pc rfl
    | removes q i finish code pc found =>
      obtain rfl : q = r := hown.on_self hw (by rw [pc]; cases finish <;> rfl)
      exact hs.removes hown hw pc found rfl
    | releasesNone q code pc found =>
      obtain rfl : q = r := hown.on_self hw (by rw [pc]; rfl)
      obtain ⟨i, hi, -⟩ := hs.stage.release q (by rw [hs.before hw]; exact pc)
      rw [found] at hi
      cases hi
    | returns code pc =>
      obtain ⟨api, hapi, happ⟩ := Option.map_eq_some_iff.mp hw
      have hcaller : ({ s.note w .returns with engine := s.engine.setCall w .idle } : Streaming).caller r = none := by
        simp only [Streaming.note, hapi, happ]
        exact Function.update_self ..
      have hpc : ({ s.note w .returns with engine := s.engine.setCall w .idle } : Streaming).pc r = .idle := by
        rw [Streaming.pc, hcaller]
      refine hs.move ?_ ?_ (by rw [hs.before hw, pc]; rfl) (by rw [hpc]; rfl) rfl rfl rfl rfl rfl rfl rfl
      · rw [hcaller]
        exact hs.caller.release hw (Option.some_ne_none r).symm
      · rw [hpc]
        exact .rest (hs.settled hw (by rw [pc]; rfl) (by rw [pc]; exact fun _ => CallPc.noConfusion)) rfl rfl
          fun _ => CallPc.noConfusion
    | delivers q own e pc pcs accepted active streams nextStream =>
      obtain rfl : q = r := hown.on_self hw (by rcases pc with pc | ⟨payload, pc⟩ <;> rw [pc] <;> rfl)
      exact hs.delivers hown hw pc pcs accepted active streams
    | turns next e turns pcs accepted active streams nextStream =>
      have hpc : ({ s with engine := e } : Streaming).pc r = next := hs.after hw rfl pcs
      have hstage := hs.stage
      rw [hs.before hw] at hstage
      refine hs.move (t := { s with engine := e }) hs.caller ?_ (by rw [hs.before hw]; exact turns.free) ?_ active
        (begun_congr accepted) rfl rfl rfl rfl streams
      · rw [hpc]
        exact hstage.turns turns
      · rw [hpc]
        exact turns.unsent
  · exact hs.elsewhere hown hw h

/-- A call is made, on `r` only if no other is in progress. -/
theorem Serial.enter (hown : s.Owned) (hs : s.Serial r) {api : Api} {pc : CallPc} (idle : s.engine.pcs w = .idle)
    (start : pc.Starts api.responder) (hok : api.responder = r → s.caller r = none)
    (h : t = { s with
      engine := s.engine.setCall w pc
      calls := Function.update s.calls w (some api)
      caller := Function.update s.caller api.responder (some w) }) : t.Serial r := by
  have hnone : s.calls w = none := (hown.threads w).idle idle
  have hpcs : t.engine.pcs = Function.update s.engine.pcs w pc := by
    rw [h]
    exact pcs_setCall ..
  by_cases happ : api.responder = r
  · have hfree : s.caller r = none := hok happ
    have hcaller : t.caller r = some w := by
      rw [h, ← happ]
      exact Function.update_self ..
    have hbefore : s.pc r = .idle := by rw [Streaming.pc, hfree]
    have hafter : t.pc r = pc := by rw [pc_of_caller hcaller, hpcs, Function.update_self]
    have hguard := hs.caller
    rw [hfree] at hguard
    have hstage := hs.stage
    rw [hbefore] at hstage
    refine hs.move ?_ ?_ (by rw [hbefore]; rfl) (by rw [hafter]; exact start.sending) (by rw [h]; rfl) (by rw [h]; rfl)
      (by rw [h]) (by rw [h]) (by rw [h]) (by rw [h]) (by rw [h]; rfl)
    · rw [hcaller, h]
      exact hguard.acquire (congrArg some happ)
    · rw [hafter]
      exact .rest (hstage.settled rfl fun _ => CallPc.noConfusion) start.begins start.sending start.held
  · have hcaller : t.caller r = s.caller r := by
      rw [h]
      exact Function.update_of_ne (Ne.symm happ) _ _
    refine hs.congr hown hcaller ?_ (fun u hu => ?_) (by rw [h]; rfl) (by rw [h]; rfl) (by rw [h]) (fun i hi => ?_)
      (fun _ _ => by rw [h]) (fun _ _ => by rw [h]; rfl) fun _ _ hf => by rw [h]; exact hf
    · rw [h]
      refine hs.caller.keep ⟨fun hsome => absurd (Option.some.inj hsome) happ, fun hcalls => ?_⟩
      rw [hnone] at hcalls
      cases hcalls
    · rw [hpcs, Function.update_of_ne]
      rintro rfl
      have hcalls := (hs.caller u).mp hu
      rw [hnone] at hcalls
      cases hcalls
    · rw [h] at hi
      exact hi

/-- The consumer reads a channel, or finds its end. -/
theorem Serial.polled (hs : s.Serial r) {i : StreamId} {c : Tap Octets} (h : s.Touched t i c)
    (pcs : t.engine.pcs = s.engine.pcs) (writes : t.writes = s.writes)
    (senders : c.senders = (s.taps i).senders) (written : c.written = (s.taps i).written)
    (sound : s.owner i = some r → c.Sound STREAM_CHANNEL_CAPACITY (· ≠ []) (t.engine.streams i).buffer) :
    t.Serial r := by
  have hpc : t.pc r = s.pc r := by rw [Streaming.pc, h.caller, pcs, Streaming.pc]
  have hsenders : ∀ j, (t.taps j).senders = (s.taps j).senders := by
    rw [h.taps]
    exact update_part (f := Tap.senders) senders
  have hwritten : ∀ j, (t.taps j).written = (s.taps j).written := by
    rw [h.taps]
    exact update_part (f := Tap.written) written
  refine ⟨h.caller ▸ h.calls ▸ hs.caller, ?_, fun j hj => ?_, fun j hj hne => ?_, ?_, fun j hj => ?_,
    fun j hj hne => ?_, ?_, fun j hj => ?_⟩
  · rw [h.active, h.begun, hpc]
    exact hs.stage
  · rw [h.active] at hj
    rw [hsenders, hpc]
    exact hs.count j hj
  · rw [h.active] at hne
    rw [hsenders]
    exact hs.gone j (h.owner ▸ hj) hne
  · rw [h.active, h.begun, h.finished]
    exact hs.kept
  · rw [h.owner] at hj
    by_cases hji : j = i
    · subst hji
      rw [h.self]
      exact sound hj
    · rw [h.others hji, h.buffers j hji]
      exact hs.sound j hj
  · rw [h.begun] at hne
    rw [hwritten]
    exact hs.blank j (h.owner ▸ hj) hne
  · rw [h.begun, writes]
    exact hs.nothing
  · rw [h.begun] at hj
    rw [writes, hwritten]
    exact hs.whole j hj

theorem Serial.step (hown : s.Owned) (hs : s.Serial r) {a : StreamAct} (hok : s.OneByOne r a)
    (h : s.Stepped a t) : t.Serial r := by
  cases h with
  | enter w api pc idle start => exact hs.enter hown idle start hok rfl
  | call a w ev e access => exact hs.call hown access
  | aside a e pcs active begun nextStream buffers =>
    exact hs.congr hown rfl hs.caller (fun u _ => congrFun pcs u) (congrFun active r) (congrFun begun r) rfl
      (fun _ => id) (fun _ _ => rfl) (fun i _ => buffers i) fun _ _ => id
  | yields a q i chunk rest body buffer =>
    have hstream : (s.engine.setStream i { s.engine.streams i with buffer := rest }).streams i =
        { s.engine.streams i with buffer := rest } := Function.update_self ..
    refine hs.polled ⟨rfl, rfl, rfl, rfl, rfl, rfl, rfl,
      fun j hj => congrArg Stream.buffer (Function.update_of_ne hj _ _)⟩ rfl rfl rfl rfl fun howner => ?_
    have hsound := hs.sound i howner
    rw [buffer] at hsound
    rw [hstream]
    exact hsound.yield
  | ends a q i body buffer senders =>
    refine hs.polled ⟨rfl, rfl, rfl, rfl, rfl, rfl, rfl, fun _ _ => rfl⟩ rfl rfl rfl rfl fun howner => ?_
    have hsound := hs.sound i howner
    rw [buffer] at hsound
    change (s.taps i).finish.Sound _ _ (s.engine.streams i).buffer
    rw [buffer]
    exact hsound.finish senders
  | pending a => exact hs

theorem step_engine {cfg : Config} {a : StreamAct} (h : s.step cfg a = some t) :
    t.engine = s.engine ∨ ∃ b, s.engine.step cfg b = some t.engine := by
  cases a with
  | engine b =>
    cases b with
    | poll i => cases h
    | dropBody i =>
      cases h
      exact .inr ⟨.dropBody i, rfl⟩
    | _ =>
      obtain ⟨u, hu, rfl⟩ := Option.map_eq_some_iff.mp h
      exact .inr ⟨_, hu⟩
  | poll r =>
    have h : s.pollFrame r = some t := h
    unfold Streaming.pollFrame at h
    split at h
    · cases h
    · rename_i i hbody
      split at h
      · cases h
      · split at h
        · rename_i chunk rest hbuffer
          cases h
          refine .inr ⟨.poll i, ?_⟩
          simp only [Engine.step, hbuffer]
        · cases h
          split
          · exact .inl rfl
          · exact .inl rfl

theorem Reaches.serial {cfg : Config} {as : List StreamAct} (h : Streaming.Reaches cfg (Streaming.OneByOne r) {} as s) :
    s.engine.Streamed ∧ s.Owned ∧ s.Serial r := by
  have hall : s.engine.Orderly ∧ s.engine.Streamed ∧ s.Owned ∧ s.Serial r := by
    refine Run.invariant (I := fun s : Streaming => s.engine.Orderly ∧ s.engine.Streamed ∧ s.Owned ∧ s.Serial r) h ?_
      ⟨.init, .init, .init, .init r⟩
    rintro s a t hok ⟨ho, hstreamed, hown, hs⟩ hstep
    have hcases := Streaming.step_cases hstep fun w => (hown.threads w).responds
    have hengine : t.engine.Orderly ∧ t.engine.Streamed := by
      rcases step_engine hstep with he | ⟨b, hb⟩
      · rw [he]
        exact ⟨ho, hstreamed⟩
      · have hb := Engine.step_cases hb ho.target
        exact ⟨Engine.Orderly.step ho hb, hstreamed.step ho (fun w => (hown.threads w).own) hb⟩
    exact ⟨hengine.1, hengine.2, hown.step hstreamed hcases, hs.step hown hok hcases⟩
  exact hall.2

/-- The end is found only when `finish` has removed the stream. -/
theorem Serial.ended (hown : s.Owned) (hs : s.Serial r) {i : StreamId} (hi : i ∈ s.engine.begun r)
    (he : (s.taps i).ended = true) : s.finished i = true := by
  have hzero := ((hs.sound i (hown.begun r i hi)).closed he).1
  refine (hs.kept i hi).resolve_left fun hactive => ?_
  have hcount := hs.count i hactive
  rw [hzero] at hcount
  split at hcount <;> cases hcount

end Streaming

end Hyper4k.Server
