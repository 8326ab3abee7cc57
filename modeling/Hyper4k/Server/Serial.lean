import Hyper4k.Server.StreamOwner

/-! The calls on one responder come one after the other: what this says of its stream at each place of a call. -/
namespace Hyper4k.Server
open Runs Text

def Streaming.pc (s : Streaming) (r : Responder) : CallPc :=
  match s.caller r with
  | some w => s.engine.pcs w
  | none => .idle

/-- Where the call on a responder stands with the responder's entry in the map of streams. -/
structure Stage (active : Option StreamId) (begun : List StreamId) (pc : CallPc) : Prop where
  begins : ∀ q i, pc.begins = some (q, i) → active = some i ∧ i ∉ begun
  release : ∀ q, pc = .releaseStream q → ∃ i, active = some i ∧ i ∉ begun
  settled : pc.begins = none → (∀ q, pc ≠ .releaseStream q) → ∀ i, active = some i → i ∈ begun
  sending : ∀ i chunk, pc.sending = some (i, chunk) → active = some i

section Stage
variable {active : Option StreamId} {begun : List StreamId} {pc next : CallPc}

theorem Stage.rest (h : ∀ i, active = some i → i ∈ begun) (hb : next.begins = none) (hs : next.sending = none)
    (hr : ∀ q, next ≠ .releaseStream q) : Stage active begun next where
  begins q i hq := by
    rw [hb] at hq
    cases hq
  release q hq := absurd hq (hr q)
  settled _ _ := h
  sending i chunk hi := by
    rw [hs] at hi
    cases hi

theorem Stage.turns (h : Stage active begun pc) (ht : pc.Turns next) : Stage active begun next where
  begins q i hq := h.begins q i (ht.same _ hq)
  release q hq := by
    obtain ⟨i, hi⟩ := ht.refused q hq
    exact ⟨i, h.begins q i hi⟩
  settled hb hr i hi := by
    refine h.settled (by_contra fun hpc => ?_) ht.held i hi
    rcases ht.kept hpc with hnext | ⟨q, hq⟩
    · exact hnext hb
    · exact hr q hq
  sending i chunk hi := by
    rw [ht.unsent] at hi
    cases hi

/-- A write is on a stream whose `begin` has returned. -/
theorem Stage.sends (h : Stage active begun pc) {i : StreamId} {chunk : Octets} (hs : pc.sending = some (i, chunk)) :
    active = some i ∧ i ∈ begun := by
  have hactive := h.sending i chunk hs
  refine ⟨hactive, h.settled ?_ ?_ i hactive⟩
  · cases pc with
    | trySend | blockingSend => rfl
    | _ => cases hs
  · rintro q rfl
    cases hs

end Stage

/-- The calls on `r` are made one after another, and the channels of its streams are in order. -/
structure Streaming.Serial (r : Responder) (s : Streaming) : Prop where
  caller : Guards (fun c : Option Api => c.map Api.responder = some r) (s.caller r) s.calls
  stage : Stage (s.engine.active r) (s.engine.begun r) (s.pc r)
  count : ∀ i, s.engine.active r = some i → (s.taps i).senders = if (s.pc r).sending.isSome then 2 else 1
  gone : ∀ i, s.owner i = some r → s.engine.active r ≠ some i → (s.taps i).senders = 0
  kept : ∀ i ∈ s.engine.begun r, s.engine.active r = some i ∨ s.finished i = true
  sound : ∀ i, s.owner i = some r →
    (s.taps i).Sound STREAM_CHANNEL_CAPACITY (· ≠ []) (s.engine.streams i).buffer
  blank : ∀ i, s.owner i = some r → i ∉ s.engine.begun r → (s.taps i).written = []
  nothing : s.engine.begun r = [] → s.writes r = []
  whole : ∀ i, s.engine.begun r = [i] → s.writes r = (s.taps i).written

namespace Streaming
variable {s t : Streaming} {r : Responder} {w : ThreadId}

theorem Serial.init (r : Responder) : ({} : Streaming).Serial r where
  caller _ := ⟨nofun, nofun⟩
  stage := .rest nofun rfl rfl nofun
  count _ h := nomatch h
  gone _ h := nomatch h
  kept _ h := nomatch h
  sound _ h := nomatch h
  blank _ h := nomatch h
  nothing _ := rfl
  whole _ h := nomatch h

theorem pc_of_caller (h : s.caller r = some w) : s.pc r = s.engine.pcs w := by rw [Streaming.pc, h]

/-- A step on other responders. -/
theorem Serial.congr (hown : s.Owned) (hs : s.Serial r) (caller : t.caller r = s.caller r)
    (calls : Guards (fun c : Option Api => c.map Api.responder = some r) (s.caller r) t.calls)
    (pc : ∀ u, s.caller r = some u → t.engine.pcs u = s.engine.pcs u)
    (active : t.engine.active r = s.engine.active r) (begun : t.engine.begun r = s.engine.begun r)
    (writes : t.writes r = s.writes r) (owner : ∀ i, t.owner i = some r → s.owner i = some r)
    (taps : ∀ i, s.owner i = some r → t.taps i = s.taps i)
    (buffers : ∀ i, s.owner i = some r → (t.engine.streams i).buffer = (s.engine.streams i).buffer)
    (finished : ∀ i, s.owner i = some r → s.finished i = true → t.finished i = true) : t.Serial r := by
  have hpc : t.pc r = s.pc r := by
    unfold Streaming.pc
    rw [caller]
    split
    · rename_i u hu
      exact pc u hu
    · rfl
  have hbegun : ∀ i ∈ s.engine.begun r, s.owner i = some r := fun i hi => hown.begun r i hi
  refine ⟨caller ▸ calls, ?_, fun i hi => ?_, fun i hi hne => ?_, fun i hi => ?_, fun i hi => ?_, fun i hi hne => ?_,
    fun hnil => ?_, fun i hi => ?_⟩
  · rw [active, begun, hpc]
    exact hs.stage
  · rw [active] at hi
    rw [hpc, taps i (hown.active r i hi)]
    exact hs.count i hi
  · rw [active] at hne
    rw [taps i (owner i hi)]
    exact hs.gone i (owner i hi) hne
  · rw [begun] at hi
    rw [active]
    exact (hs.kept i hi).imp id (finished i (hbegun i hi))
  · rw [taps i (owner i hi), buffers i (owner i hi)]
    exact hs.sound i (owner i hi)
  · rw [begun] at hne
    rw [taps i (owner i hi)]
    exact hs.blank i (owner i hi) hne
  · rw [begun] at hnil
    rw [writes]
    exact hs.nothing hnil
  · rw [begun] at hi
    rw [writes, taps i (hbegun i (hi ▸ List.mem_singleton_self i))]
    exact hs.whole i hi

theorem Serial.elsewhere (hown : s.Owned) (hs : s.Serial r) {ev : StreamEvent} {t : Engine}
    (hw : (s.calls w).map Api.responder ≠ some r) (h : s.engine.Accessed w ev t) :
    ({ s.note w ev with engine := t } : Streaming).Serial r := by
  have hcall : ∀ q, (s.engine.pcs w).on s.owner = some q → q ≠ r := fun q hq hqr =>
    hw (hqr ▸ (hown.threads w).calls q hq)
  have hpc : ∀ {next : CallPc} {pcs : ThreadId → CallPc}, pcs = Function.update s.engine.pcs w next →
      ∀ u, s.caller r = some u → pcs u = s.engine.pcs u := by
    intro next pcs hpcs u hu
    rw [hpcs, Function.update_of_ne]
    rintro rfl
    exact hw ((hs.caller u).mp hu)
  have hne : ∀ {i j : StreamId} {q : Responder}, s.owner i = some q → q ≠ r → s.owner j = some r → j ≠ i := by
    rintro i j q hi hq hj rfl
    rw [hi] at hj
    exact hq (Option.some.inj hj)
  cases h with
  | opens q status headers pc free =>
    have hqr : q ≠ r := hcall q (by rw [pc]; rfl)
    have hfresh : ∀ i, s.owner i = some r → i ≠ s.engine.nextStream := fun i hi => Nat.ne_of_lt (hown.fresh i r hi)
    refine hs.congr hown rfl hs.caller (hpc (pcs_setCall ..)) (Function.update_of_ne hqr.symm _ _) rfl rfl
      (fun i hi => ?_) (fun i hi => Function.update_of_ne (hfresh i hi) _ _) (fun _ _ => rfl) fun _ _ => id
    have hi : Function.update s.owner s.engine.nextStream (some q) i = some r := hi
    by_cases hin : i = s.engine.nextStream
    · rw [hin, Function.update_self] at hi
      exact absurd (Option.some.inj hi) hqr
    · rwa [Function.update_of_ne hin] at hi
  | clones q i chunk pc full found =>
    have hqr : q ≠ r := hcall q (by rw [pc]; rfl)
    have hi := hown.active q i found
    exact hs.congr hown rfl hs.caller (hpc (pcs_setCall ..)) rfl rfl rfl (fun _ => id)
      (fun j hj => Function.update_of_ne (hne hi hqr hj) _ _) (fun _ _ => rfl) fun _ _ => id
  | accepts i chunk pc room =>
    obtain ⟨-, q, hi, hcalls⟩ := hown.sends pc
    have hqr : q ≠ r := fun hqr => hw (hqr ▸ hcalls)
    obtain ⟨api, hapi, rfl⟩ := Option.map_eq_some_iff.mp hcalls
    refine hs.congr hown rfl hs.caller (hpc (pcs_setCall ..)) rfl rfl ?_ (fun _ => id)
      (fun j hj => Function.update_of_ne (hne hi hqr hj) _ _)
      (fun j hj => congrArg Stream.buffer (Function.update_of_ne (hne hi hqr hj) _ _)) fun _ _ => id
    simp only [Streaming.note, hapi]
    exact Function.update_of_ne hqr.symm _ _
  | fails i chunk code pc =>
    obtain ⟨-, q, hi, hcalls⟩ := hown.sends pc
    have hqr : q ≠ r := fun hqr => hw (hqr ▸ hcalls)
    exact hs.congr hown rfl hs.caller (hpc (pcs_setCall ..)) rfl rfl rfl (fun _ => id)
      (fun j hj => Function.update_of_ne (hne hi hqr hj) _ _) (fun _ _ => rfl) fun _ _ => id
  | waits i chunk pc =>
    exact hs.congr hown rfl hs.caller (hpc (pcs_setCall ..)) rfl rfl rfl (fun _ => id) (fun _ _ => rfl)
      (fun _ _ => rfl) fun _ _ => id
  | removes q i finish code pc found =>
    have hqr : q ≠ r := hcall q (by rw [pc]; cases finish <;> rfl)
    have hi := hown.active q i found
    refine hs.congr hown rfl hs.caller (hpc (pcs_setCall ..)) (Function.update_of_ne hqr.symm _ _) rfl rfl (fun _ => id)
      (fun j hj => Function.update_of_ne (hne hi hqr hj) _ _) (fun _ _ => rfl) fun j hj hf => ?_
    exact (Function.update_of_ne (hne hi hqr hj) _ _).trans hf
  | releasesNone q code pc found =>
    have hqr : q ≠ r := hcall q (by rw [pc]; rfl)
    exact hs.congr hown rfl hs.caller (hpc (pcs_setCall ..)) (Function.update_of_ne hqr.symm _ _) rfl rfl (fun _ => id)
      (fun _ _ => rfl) (fun _ _ => rfl) fun _ _ => id
  | returns code pc =>
    have hcaller : ({ s.note w .returns with engine := s.engine.setCall w .idle } : Streaming).caller r =
        s.caller r := by
      simp only [Streaming.note]
      cases hapi : s.calls w with
      | none => rfl
      | some api =>
        rw [hapi] at hw
        exact Function.update_of_ne (fun he => hw (congrArg some he.symm)) _ _
    exact hs.congr hown hcaller (hs.caller.keep ⟨nofun, fun h => absurd h hw⟩) (hpc (pcs_setCall ..)) rfl rfl rfl
      (fun _ => id) (fun _ _ => rfl) (fun _ _ => rfl) fun _ _ => id
  | delivers q own t pc pcs accepted active streams nextStream =>
    have hqr : q ≠ r := hcall q (by rcases pc with pc | ⟨payload, pc⟩ <;> rw [pc] <;> rfl)
    refine hs.congr hown rfl hs.caller (hpc pcs) (congrFun active r) ?_ rfl (fun _ => id) (fun _ _ => rfl)
      (fun i _ => congrArg Stream.buffer (congrFun streams i)) fun _ _ => id
    change t.begun r = _
    rw [begun_accepted accepted, Function.update_of_ne hqr.symm]
  | turns next t turns pcs accepted active streams nextStream =>
    exact hs.congr hown rfl hs.caller (hpc pcs) (congrFun active r) (congrFun (begun_congr accepted) r) rfl
      (fun _ => id) (fun _ _ => rfl) (fun i _ => congrArg Stream.buffer (congrFun streams i)) fun _ _ => id

structure Touched (s t : Streaming) (i : StreamId) (c : Tap Octets) : Prop where
  caller : t.caller = s.caller
  calls : t.calls = s.calls
  owner : t.owner = s.owner
  finished : t.finished = s.finished
  active : t.engine.active = s.engine.active
  begun : t.engine.begun = s.engine.begun
  taps : t.taps = Function.update s.taps i c
  buffers : ∀ j, j ≠ i → (t.engine.streams j).buffer = (s.engine.streams j).buffer

theorem Touched.self {i : StreamId} {c : Tap Octets} (h : s.Touched t i c) : t.taps i = c := by
  rw [h.taps, Function.update_self]

theorem Touched.others {i j : StreamId} {c : Tap Octets} (h : s.Touched t i c) (hj : j ≠ i) :
    t.taps j = s.taps j := by
  rw [h.taps, Function.update_of_ne hj]

/-- A step of the call on `r` that changes the channel in the map, and nothing else of `r`'s. -/
theorem Serial.touch (hs : s.Serial r) {i : StreamId} {c : Tap Octets} (hi : s.engine.active r = some i)
    (h : s.Touched t i c) (stage : Stage (some i) (s.engine.begun r) (t.pc r))
    (count : c.senders = if (t.pc r).sending.isSome then 2 else 1)
    (sound : c.Sound STREAM_CHANNEL_CAPACITY (· ≠ []) (t.engine.streams i).buffer)
    (writes : c.written = (s.taps i).written ∧ t.writes r = s.writes r ∨ i ∈ s.engine.begun r ∧
      ∃ chunk, c.written = (s.taps i).written ++ [chunk] ∧ t.writes r = s.writes r ++ [chunk]) : t.Serial r := by
  refine ⟨h.caller ▸ h.calls ▸ hs.caller, ?_, fun j hj => ?_, fun j hj hne => ?_, fun j hj => ?_, fun j hj => ?_,
    fun j hj hne => ?_, fun hnil => ?_, fun j hj => ?_⟩
  · rw [h.active, h.begun, hi]
    exact stage
  · rw [h.active, hi] at hj
    cases hj
    rw [h.self]
    exact count
  · rw [h.active] at hne
    have hji : j ≠ i := fun hji => hne (hji ▸ hi)
    rw [h.others hji]
    exact hs.gone j (h.owner ▸ hj) hne
  · rw [h.begun] at hj
    rw [h.active, h.finished]
    exact hs.kept j hj
  · by_cases hji : j = i
    · rw [hji, h.self]
      exact sound
    · rw [h.others hji, h.buffers j hji]
      exact hs.sound j (h.owner ▸ hj)
  · rw [h.begun] at hne
    have hold := hs.blank j (h.owner ▸ hj) hne
    by_cases hji : j = i
    · subst hji
      rcases writes with ⟨hwritten, -⟩ | ⟨hmem, -⟩
      · rw [h.self, hwritten, hold]
      · exact absurd hmem hne
    · rw [h.others hji, hold]
  · rw [h.begun] at hnil
    rcases writes with ⟨-, hwrites⟩ | ⟨hmem, -⟩
    · rw [hwrites]
      exact hs.nothing hnil
    · rw [hnil] at hmem
      cases hmem
  · rw [h.begun] at hj
    have hold := hs.whole j hj
    rcases writes with ⟨hwritten, hwrites⟩ | ⟨hmem, chunk, hwritten, hwrites⟩
    · by_cases hji : j = i
      · subst hji
        rw [hwrites, h.self, hwritten, hold]
      · rw [hwrites, h.others hji, hold]
    · rw [hj] at hmem
      obtain rfl := List.mem_singleton.mp hmem
      rw [h.self, hwrites, hwritten, hold]

theorem Serial.move (hs : s.Serial r)
    (caller : Guards (fun c : Option Api => c.map Api.responder = some r) (t.caller r) t.calls)
    (stage : Stage (s.engine.active r) (s.engine.begun r) (t.pc r)) (sending : (s.pc r).sending = none)
    (sending' : (t.pc r).sending = none) (active : t.engine.active = s.engine.active)
    (begun : t.engine.begun = s.engine.begun) (taps : t.taps = s.taps) (owner : t.owner = s.owner)
    (finished : t.finished = s.finished) (writes : t.writes = s.writes)
    (streams : t.engine.streams = s.engine.streams) : t.Serial r := by
  refine ⟨caller, ?_, fun i hi => ?_, ?_, ?_, ?_, ?_, ?_, ?_⟩
  · rw [active, begun]
    exact stage
  · rw [active] at hi
    have hcount := hs.count i hi
    rw [sending] at hcount
    rw [sending', taps, hcount]
  · rw [active, owner, taps]
    exact hs.gone
  · rw [active, begun, finished]
    exact hs.kept
  · rw [owner, taps, streams]
    exact hs.sound
  · rw [owner, begun, taps]
    exact hs.blank
  · rw [begun, writes]
    exact hs.nothing
  · rw [begun, writes, taps]
    exact hs.whole

theorem Owned.on_self (hown : s.Owned) (hw : (s.calls w).map Api.responder = some r) {q : Responder}
    (h : (s.engine.pcs w).on s.owner = some q) : q = r := by
  have hq := (hown.threads w).calls q h
  rw [hw] at hq
  exact (Option.some.inj hq).symm

theorem Serial.before (hs : s.Serial r) (hw : (s.calls w).map Api.responder = some r) :
    s.pc r = s.engine.pcs w :=
  pc_of_caller ((hs.caller w).mpr hw)

theorem Serial.after (hs : s.Serial r) (hw : (s.calls w).map Api.responder = some r) {next : CallPc}
    (hcaller : t.caller r = s.caller r)
    (hpcs : t.engine.pcs = Function.update s.engine.pcs w next) : t.pc r = next := by
  rw [pc_of_caller (hcaller.trans ((hs.caller w).mpr hw)), hpcs, Function.update_self]

/-- The entry of `r` is a stream whose `begin` has returned, unless the call is a `begin`. -/
theorem Serial.settled (hs : s.Serial r) (hw : (s.calls w).map Api.responder = some r)
    (hb : (s.engine.pcs w).begins = none) (hr : ∀ q, s.engine.pcs w ≠ .releaseStream q) :
    ∀ i, s.engine.active r = some i → i ∈ s.engine.begun r := by
  have hstage := hs.stage
  rw [hs.before hw] at hstage
  exact hstage.settled hb hr

theorem Serial.senders (hs : s.Serial r) (hw : (s.calls w).map Api.responder = some r) {i : StreamId}
    (hi : s.engine.active r = some i) :
    (s.taps i).senders = if (s.engine.pcs w).sending.isSome then 2 else 1 := by
  rw [← hs.before hw]
  exact hs.count i hi

end Streaming

end Hyper4k.Server
