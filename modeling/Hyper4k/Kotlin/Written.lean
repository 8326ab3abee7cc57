import Hyper4k.Kotlin.Agreement

/-! The bytes of a streamed response: `bytesWritten` of its channel, the writes that the engine took, and the body
that the client reads. -/
namespace Hyper4k.Dispatch
open Server (Api CallPc Code Engine Responder StreamId Streaming ThreadId)
open Text Runs

def Job.written (j : Job) : Nat := (j.channel.map (·.written)).getD 0

def volume (chunks : List Octets) : Nat := (chunks.map List.length).sum

/-- The chunks whose write returned to its handler. -/
def counted (wrote : List (Octets × Bool)) : List Octets := (wrote.filter fun x => !x.2).map Prod.fst

def taken : Option (Api × CallPc) → List Octets
  | some (.write _ chunk, .returned .ok) => [chunk.read]
  | _ => []

/-- What a request has written, and the one stream it may have. -/
structure Backend.CountedAt (s : Backend) (r : Responder) : Prop where
  chunks : s.streaming.writes r = (s.wrote r).map Prod.fst ++ taken (s.streaming.call r)
  bytes : (s.job r).written = volume (counted (s.wrote r))
  one : s.streaming.engine.begun r = [] ∨ ∃ i, s.streaming.engine.begun r = [i] ∧
    ((s.job r).begun = true ∨ ∃ q status headers, s.streaming.call r = some (.begin q status headers, .returned .ok))

section Calls
variable {native : Server.Config} {e e' : Engine} {w : ThreadId} {r : Responder}

theorem volume_append (xs ys : List Octets) : volume (xs ++ ys) = volume xs + volume ys := by
  rw [volume, List.map_append, List.sum_append]
  rfl

theorem counted_append (xs ys : List (Octets × Bool)) : counted (xs ++ ys) = counted xs ++ counted ys := by
  rw [counted, List.filter_append, List.map_append]
  rfl

/-- What a write adds to the history is what the engine has taken by it. -/
theorem took_chunks (api : Api) (code : Code) (cut : Bool) :
    (Backend.took code cut api).map Prod.fst = taken (some (api, .returned code)) := by
  cases api with
  | write q chunk => cases code <;> rfl
  | _ => rfl

theorem outcome_chunks (i : StreamId) (q : Responder) (chunk : Server.Buffer) (pc : CallPc) :
    (pc.outcome i chunk.read).chunks = taken (some (.write q chunk, pc)) := by
  cases pc with
  | returned code => cases code <;> rfl
  | _ => rfl

/-- The write of a chunk adds it to the writes when it returns `HYPER4K_OK`, and only then. -/
theorem Progress.chunks {streaming active : Bool} {api : Api} (hp : Progress streaming active api (e.pcs w))
    (busy : ∀ code, e.pcs w ≠ .returned code) (h : e.advance native w = some e') :
    (e.event w e').chunks = taken (some (api, e'.pcs w)) := by
  rw [Engine.advance, show (e.threads w).call = e.pcs w from rfl] at h
  unfold Engine.event
  generalize e.pcs w = pc at h hp busy
  cases api with
  | respond q status headers body =>
    obtain ⟨-, -, hp⟩ := hp
    cases pc <;> first | rfl | exact absurd rfl (busy _) | cases hp
  | begin q status headers =>
    obtain ⟨-, hp⟩ := hp
    cases pc with
    | claimStream q status headers | releaseStream q =>
      simp only
      split <;> rfl
    | _ => first | rfl | exact absurd rfl (busy _) | cases hp
  | finish q =>
    obtain ⟨-, hp⟩ := hp
    cases pc with
    | removeStream q =>
      simp only
      split <;> rfl
    | _ => first | rfl | exact absurd rfl (busy _) | cases hp
  | write q chunk =>
    obtain ⟨-, -, hp⟩ := hp
    cases pc with
    | trySend i bytes | blockingSend i bytes =>
      obtain rfl : chunk.read = bytes := of_decide_eq_true hp
      exact outcome_chunks i q chunk _
    | getSender q bytes =>
      simp only at h
      split at h
      · cases h
        rw [setCall_pcs]
        rfl
      · split at h
        case h_4 =>
          cases h
          rw [setCall_pcs]
          rfl
        all_goals cases hp
    | returned code => exact absurd rfl (busy code)
    | _ => cases hp

/-- A stream is begun on `r` only by a `begin` that returns `HYPER4K_OK`. -/
theorem Progress.begun {owner : StreamId → Option Responder} {streaming active : Bool} {api : Api}
    (hp : Progress streaming active api (e.pcs w)) (hon : ∀ q, (e.pcs w).on owner = some q → q = r)
    (hresponds : (e.pcs w).responds) (h : e.advance native w = some e') :
    e'.begun r = e.begun r ∨ ∃ i q status headers, e'.begun r = e.begun r ++ [i] ∧ api = .begin q status headers ∧
      e'.pcs w = .returned .ok := by
  have haccess := Engine.advance_accessed hresponds h
  generalize e.event w e' = ev at haccess
  cases haccess with
  | delivers q own t pc pcs accepted active streams nextStream =>
    obtain rfl : q = r := hon q (by rcases pc with pc | ⟨payload, pc⟩ <;> rw [pc] <;> rfl)
    have hbegun : e'.begun q = e.begun q ++ own.rx.toList := by
      rw [Engine.begun, accepted, Function.update_self, List.filterMap_append]
      cases own <;> rfl
    cases own with
    | buffered data =>
      rw [hbegun]
      exact .inl (List.append_nil _)
    | stream start =>
      cases api with
      | begin q' status headers =>
        exact .inr ⟨start.rx, q', status, headers, hbegun, rfl, by rw [pcs, Function.update_self]⟩
      | respond q' status headers body =>
        obtain ⟨-, -, hp⟩ := hp
        rcases pc with pc | ⟨payload, pc⟩ <;> rw [pc] at hp <;> cases hp
      | write q' chunk =>
        obtain ⟨-, -, hp⟩ := hp
        rcases pc with pc | ⟨payload, pc⟩ <;> rw [pc] at hp <;> cases hp
      | finish q' =>
        obtain ⟨-, hp⟩ := hp
        rcases pc with pc | ⟨payload, pc⟩ <;> rw [pc] at hp <;> cases hp
  | turns next t turns pcs accepted active streams nextStream =>
    rw [Engine.begun, accepted]
    exact .inl rfl
  | _ => exact .inl rfl

end Calls

def channelAfter (code : Code) (cut : Bool) (c : NativeResponseChannel) : Api → NativeResponseChannel
  | .begin .. => (c.begin code).2
  | .write _ chunk => if cut then c else (c.write chunk.read code).2
  | .finish _ => (c.finish code).2
  | .respond .. => c

section Counted
variable {cfg : Setup} {s t : Backend} {r : Responder}

theorem Backend.resume_channel {api : Api} {code : Code} {cut : Bool} {d : Dispatcher}
    (h : s.resume cfg api code cut = some d) :
    (d.jobs api.responder).channel = (s.job api.responder).channel.map (channelAfter code cut · api) := by
  unfold Backend.resume at h
  split at h
  case h_1 q status headers hpc | h_3 q hpc =>
    cases h
    exact congrArg Job.channel (Backend.perform_job ..)
  case h_2 q chunk _ hpc =>
    cases h
    cases cut with
    | true => exact Option.map_id'.symm
    | false => exact congrArg Job.channel (Backend.perform_job ..)
  case h_4 q hpc =>
    have hpc : (s.dispatcher.jobs q).pc = .closeStream := hpc
    simp only [Dispatcher.exec, hpc] at h
    cases h
    exact congrArg Job.channel (Function.update_self q _ s.dispatcher.jobs)
  case h_5 response slot q status headers body hpc =>
    have hpc : (s.dispatcher.jobs q).pc = .complete response slot := hpc
    simp only [Dispatcher.exec, hpc] at h
    cases h
    exact (congrArg Job.channel (Function.update_self q _ s.dispatcher.jobs)).trans Option.map_id'.symm
  case h_6 q status headers body _ hpc =>
    cases h
    exact Option.map_id'.symm
  case h_7 => cases h

theorem NativeResponseChannel.begin_written (c : NativeResponseChannel) (rc : Code) :
    (c.begin rc).2.written = c.written := by
  unfold NativeResponseChannel.begin
  repeat' split
  all_goals rfl

theorem NativeResponseChannel.finish_written (c : NativeResponseChannel) (rc : Code) :
    (c.finish rc).2.written = c.written := by
  unfold NativeResponseChannel.finish
  repeat' split
  all_goals rfl

/-- A write counts its chunk when the engine has taken it. -/
theorem NativeResponseChannel.write_written (c : NativeResponseChannel) (q : Responder) {chunk : Server.Buffer}
    (hopen : c.isStreaming = true) (hchunk : chunk.read ≠ []) (code : Code) :
    (c.write chunk.read code).2.written = c.written + volume (counted (Backend.took code false (.write q chunk))) := by
  obtain ⟨hstarted, hfinished⟩ := Bool.and_eq_true_iff.mp hopen
  rw [Bool.not_eq_true'] at hfinished
  have hsome : chunk.read.isEmpty = false := List.isEmpty_eq_false_iff.mpr hchunk
  simp only [NativeResponseChannel.write, hstarted, hfinished, hsome]
  cases code <;> simp [Backend.took, counted, volume]

theorem Job.written_eq {j : Job} {c : NativeResponseChannel} (hc : j.channel = some c) : j.written = c.written := by
  rw [Job.written, hc]
  rfl

/-- `begin` counts no bytes, and once it has succeeded the channel stays begun. -/
theorem NativeResponseChannel.begun_after (c : NativeResponseChannel) (code : Code) (cut : Bool) (api : Api)
    (h : c.started = true ∨ (∃ q status headers, api = .begin q status headers) ∧ code = .ok) :
    (channelAfter code cut c api).started = true := by
  cases api with
  | begin q status headers =>
    simp only [channelAfter, NativeResponseChannel.begin]
    split
    · assumption
    · rename_i hnot
      obtain ⟨-, rfl⟩ := h.resolve_left hnot
      rfl
  | write q chunk =>
    have hs : c.started = true := h.resolve_right (by rintro ⟨⟨_, _, _, he⟩, -⟩; cases he)
    simp only [channelAfter]
    split
    · exact hs
    · unfold NativeResponseChannel.write
      repeat' split
      all_goals exact hs
  | finish q =>
    have hs : c.started = true := h.resolve_right (by rintro ⟨⟨_, _, _, he⟩, -⟩; cases he)
    simp only [channelAfter]
    unfold NativeResponseChannel.finish
    repeat' split
    all_goals exact hs
  | respond q status headers body => exact h.resolve_right (by rintro ⟨⟨_, _, _, he⟩, -⟩; cases he)

theorem Job.Runs.counted {b : Behaviour} {j j' : Job} (hj : j.InOrder) (h : j.Runs b j')
    (hopen : j.pc ≠ .closeStream) : j'.written = j.written ∧ j'.begun = j.begun := by
  cases h with
  | onward pc inside away order thrown submitting => exact ⟨rfl, rfl⟩
  | opens pc =>
    rw [Job.InOrder, pc] at hj
    rw [Job.written, Job.written, Job.begun, Job.begun, hj.1]
    exact ⟨rfl, rfl⟩
  | closes pc => exact absurd pc hopen
  | completes response slot pc => exact ⟨rfl, rfl⟩

theorem Job.Calls.begins {j : Job} {q : Responder} {caught : Bool} {status : UInt16} {headers : Server.Buffer}
    (h : j.Calls r caught (.begin q status headers)) : j.pc = .handler [] ∧ j.begun = false := by
  unfold Job.Calls at h
  split at h
  case h_1 hpc he => exact ⟨hpc, h⟩
  case h_7 => exact absurd h id
  all_goals contradiction

/-- What is counted when a call has returned, and that the channel then knows of its stream. -/
theorem Backend.TiedAt.returned {api : Api} {code : Code} {cut : Bool} (hr : s.TiedAt r)
    (before : s.streaming.call r = some (api, .returned code))
    (hchannel : (t.job r).channel = (s.job r).channel.map (channelAfter code cut · api)) :
    (t.job r).written = (s.job r).written + volume (counted (Backend.took code cut api)) ∧
    ((s.job r).begun = true ∨ (∃ q status headers, api = .begin q status headers) ∧ code = .ok →
      (t.job r).begun = true) := by
  have hagree := hr.agree
  have hcalls := hr.calls api _ before
  have horder := hr.order
  rw [before] at hagree
  cases hc : (s.job r).channel with
  | none =>
    have hnone : (t.job r).channel = none := by rw [hchannel, hc]; rfl
    have hopen : (s.job r).streaming ≠ true := by
      rw [Job.streaming, hc]
      exact Bool.false_ne_true
    cases api with
    | respond q status headers body =>
      refine ⟨?_, ?_⟩
      · rw [Job.written, Job.written, hc, hnone]
        rfl
      · rintro (hb | ⟨⟨_, _, _, he⟩, -⟩)
        · rw [Job.begun, hc] at hb
          cases hb
        · cases he
    | begin q status headers =>
      rw [Job.InOrder, hcalls.begins.1] at horder
      exact absurd hc horder.2.1
    | write q chunk | finish q => exact absurd hagree.1 hopen
  | some c =>
    rw [hc, Option.map_some] at hchannel
    refine ⟨?_, fun hb => ?_⟩
    · rw [Job.written_eq hc, Job.written_eq hchannel]
      cases api with
      | respond q status headers body => rfl
      | begin q status headers => rw [channelAfter, NativeResponseChannel.begin_written]; rfl
      | finish q => rw [channelAfter, NativeResponseChannel.finish_written]; rfl
      | write q chunk =>
        cases cut with
        | true =>
          rw [channelAfter, if_pos rfl]
          cases code <;> rfl
        | false =>
          have hopen : c.isStreaming = true := (Job.streaming_eq hc).symm.trans hagree.1
          exact c.write_written q hopen hcalls.writes.2 code
    · rw [Job.begun, hchannel]
      refine c.begun_after code cut api (hb.imp_left fun h => ?_)
      rw [Job.begun, hc] at h
      exact h

theorem Backend.CountedAt.step (hs : s.CountedAt r) (hr : s.TiedAt r) (hown : s.streaming.Owned)
    (hserial : s.streaming.Serial r) (h : s.Seen cfg r t) : t.CountedAt r := by
  have hagree := hr.agree
  cases h with
  | still job caught told call active log =>
    have hwrote : t.wrote r = s.wrote r := congrArg (·.2.2) told
    have hwrites : t.streaming.writes r = s.streaming.writes r := congrArg Prod.snd log
    have hbegun : t.streaming.engine.begun r = s.streaming.engine.begun r := congrArg Prod.fst log
    refine ⟨?_, ?_, ?_⟩
    · rw [hwrites, hwrote, call]
      exact hs.chunks
    · rw [job, hwrote]
      exact hs.bytes
    · rw [hbegun, job, call]
      exact hs.one
  | goes w api job caught told calls before busy move after writes =>
    have hwrote : t.wrote r = s.wrote r := congrArg (·.2.2) told
    have hchunks := hs.chunks
    rw [before] at hagree hchunks
    have hidle : taken (some (api, s.streaming.engine.pcs w)) = [] := by
      cases hpc : s.streaming.engine.pcs w with
      | returned code => exact absurd hpc (busy code)
      | _ => cases api <;> rfl
    rw [hidle, List.append_nil] at hchunks
    have hon : (s.streaming.calls w).map Api.responder = some r := by
      obtain ⟨-, -, -, -, hr⟩ := hserial.call_on before
      rw [calls, Option.map_some, hr]
    refine ⟨?_, ?_, ?_⟩
    · rw [writes, hwrote, after, Progress.chunks hagree busy move, hchunks]
    · rw [job, hwrote]
      exact hs.bytes
    · rw [job, after]
      rcases Progress.begun hagree (fun q hq => hown.on_self hon hq) (hown.threads w).responds move with hsame |
        ⟨i, q, status, headers, hmore, rfl, hpc⟩
      · rw [hsame]
        refine hs.one.imp_right ?_
        rintro ⟨i, hi, hbegun⟩
        refine ⟨i, hi, .inl (hbegun.resolve_right ?_)⟩
        rintro ⟨q, status, headers, he⟩
        rw [before] at he
        exact busy .ok (congrArg Prod.snd (Option.some.inj he))
      · have hnone : s.streaming.engine.begun r = [] := by
          refine hs.one.resolve_right ?_
          rintro ⟨i, -, hbegun | ⟨q', status', headers', he⟩⟩
          · obtain ⟨-, hnot⟩ := (hr.calls _ _ before).begins
            rw [hbegun] at hnot
            cases hnot
          · rw [before] at he
            exact busy .ok (congrArg Prod.snd (Option.some.inj he))
        refine .inr ⟨i, by rw [hmore, hnone, List.nil_append], .inr ⟨q, status, headers, by rw [hpc]⟩⟩
  | submits inside pc job caught told same =>
    have hwrote : t.wrote r = s.wrote r := congrArg (·.2.2) told
    have hwritten : (t.job r).written = (s.job r).written := by rw [job]; rfl
    have hbegun : (t.job r).begun = (s.job r).begun := by rw [job]; rfl
    refine ⟨?_, ?_, ?_⟩
    · rw [same, hwrote]
      exact hs.chunks
    · rw [hwrote, hwritten]
      exact hs.bytes
    · rw [same, hbegun]
      exact hs.one
  | runs b idle runs hopen throws caught refused told same =>
    have hwrote : t.wrote r = s.wrote r := congrArg (·.2.2) told
    obtain ⟨hwritten, hbegun⟩ := runs.counted hr.order hopen
    refine ⟨?_, ?_, ?_⟩
    · rw [same, hwrote]
      exact hs.chunks
    · rw [hwrote, hwritten]
      exact hs.bytes
    · rw [same, hbegun]
      exact hs.one
  | calls method w api idle native may job caught told call active log =>
    have hwrote : t.wrote r = s.wrote r := by
      refine (congrArg (·.2.2) told).trans ?_
      change (s.tell r method).wrote r = s.wrote r
      unfold Backend.tell
      split <;> rfl
    have hwrites : t.streaming.writes r = s.streaming.writes r := congrArg Prod.snd log
    have hbegun : t.streaming.engine.begun r = s.streaming.engine.begun r := congrArg Prod.fst log
    have hchunks := hs.chunks
    have hone := hs.one
    rw [idle] at hchunks hone
    have hstart : taken (some (api, api.start cfg.native.http)) = [] := by
      cases api <;> simp only [Api.start] <;> split <;> rfl
    refine ⟨?_, ?_, ?_⟩
    · rw [hwrites, hwrote, call, hstart]
      exact hchunks
    · rw [job, hwrote]
      exact hs.bytes
    · rw [hbegun, job]
      refine hone.imp_right ?_
      rintro ⟨i, hi, hb⟩
      refine ⟨i, hi, .inl (hb.resolve_right ?_)⟩
      rintro ⟨_, _, _, he⟩
      cases he
  | returns w cut api code calls before after active log resume on caught told =>
    have hwrote : t.wrote r = s.wrote r ++ Backend.took code cut api := congrArg (·.2.2) told
    have hwrites : t.streaming.writes r = s.streaming.writes r := congrArg Prod.snd log
    have hbegun : t.streaming.engine.begun r = s.streaming.engine.begun r := congrArg Prod.fst log
    have hchunks := hs.chunks
    have hone := hs.one
    rw [before] at hagree hchunks hone
    subst on
    have hchannel : (t.job api.responder).channel = (s.job api.responder).channel.map (channelAfter code cut · api) :=
      Backend.resume_channel resume
    obtain ⟨hwritten, hkept⟩ := hr.returned before hchannel
    refine ⟨?_, ?_, ?_⟩
    · rw [hwrites, hwrote, after, List.map_append, took_chunks, hchunks]
      exact (List.append_nil _).symm
    · rw [hwritten, hwrote, counted_append, volume_append, hs.bytes]
    · rw [hbegun]
      refine hone.imp_right ?_
      rintro ⟨i, hi, hb⟩
      refine ⟨i, hi, .inl (hkept (hb.imp_right ?_))⟩
      rintro ⟨q, status, headers, he⟩
      cases he
      exact ⟨⟨_, _, _, rfl⟩, rfl⟩

theorem Backend.CountedAt.init (r : Responder) : (Backend.init cfg).CountedAt r := ⟨rfl, rfl, .inl rfl⟩

theorem Backend.Reaches.counted {ok : Backend → BackendAct → Prop} {as : List BackendAct}
    (h : Backend.Reaches cfg ok as s) : s.Tied cfg ∧ ∀ r, s.CountedAt r := by
  refine Run.invariant (I := fun s : Backend => s.Tied cfg ∧ ∀ r, s.CountedAt r) h ?_ ⟨.init, Backend.CountedAt.init⟩
  rintro s a t - ⟨htied, hall⟩ hstep
  refine ⟨htied.step hstep, fun r => ?_⟩
  obtain ⟨-, hown, hserial⟩ := htied.serial r
  exact (hall r).step (htied.tied r) hown hserial
    (Backend.step_seen hown hserial (fun q => (htied.tied q).order) (Backend.step_cases hstep))

end Counted

end Hyper4k.Dispatch
