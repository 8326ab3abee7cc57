import Hyper4k.Kotlin.Agreement
import Hyper4k.Server.Integrity
import Hyper4k.Server.RoundTrip

/-! What a client gets, from the request's own handler to the end of `handle`. -/
namespace Hyper4k.Dispatch
open Server (Api Buffer CallPc Code Delivery Engine Entries HttpTypes Responder Streaming ThreadId encodeHeaders
  parseHeaders)
open Text Runs

def Backend.responding (s : Backend) (r : Responder) : Bool :=
  match s.streaming.call r with
  | some (.respond .., _) => true
  | _ => false

/-- What has become of the one response that a request has handed to the engine. -/
def Backend.Gave (s : Backend) (r : Responder) (response : Hyper4kResponse) : Prop :=
  match (s.job r).pc with
  | .complete completing _ => completing = response ∧ s.responding r = true
  | .thrown => response = internalErrorResponse ∧ (s.caught r = false ∨ s.responding r = true)
  | _ => (s.job r).completed = [response]

def Backend.GivenAt (s : Backend) (r : Responder) : Prop :=
  s.given r = [] ∨ ∃ response, s.given r = [response] ∧ s.Gave r response

section Given
variable {cfg : Setup} {s t : Backend} {r : Responder}

theorem Backend.GivenAt.kept (hs : s.GivenAt r) (job : t.job r = s.job r) (caught : t.caught r = s.caught r)
    (given : t.given r = s.given r) (responding : t.responding r = s.responding r) : t.GivenAt r := by
  rw [Backend.GivenAt, given]
  refine hs.imp_right ?_
  rintro ⟨response, hg, hgave⟩
  refine ⟨response, hg, ?_⟩
  rw [Backend.Gave, job, caught, responding]
  exact hgave

/-- Before it is completed, a request has handed in nothing. -/
theorem Backend.GivenAt.nothing (hs : s.GivenAt r) (hnone : (s.job r).completed = [])
    (hopen : (s.job r).pc = .thrown → s.caught r = true) (idle : s.responding r = false) : s.given r = [] := by
  refine hs.resolve_right ?_
  rintro ⟨response, -, hgave⟩
  unfold Backend.Gave at hgave
  split at hgave
  · rw [idle] at hgave
    cases hgave.2
  · rename_i hpc
    rw [hopen hpc, idle] at hgave
    rcases hgave.2 with h | h <;> cases h
  · rw [hnone] at hgave
    cases hgave

theorem Backend.gave_completed {response : Hyper4kResponse} (hj : (s.job r).InOrder)
    (h : (s.job r).completed = [response]) : s.Gave r response := by
  obtain ⟨hcomplete, hthrown⟩ := hj.past (by rw [h]; exact List.cons_ne_nil _ _)
  unfold Backend.Gave
  split
  · rename_i hpc
    exact absurd hpc (hcomplete _ _)
  · rename_i hpc
    exact absurd hpc hthrown
  · exact h

theorem Backend.responding_idle (h : s.streaming.call r = none) : s.responding r = false := by
  rw [Backend.responding, h]

theorem Backend.resume_completes {api : Api} {code : Code} {cut : Bool} {d : Dispatcher} {response : Hyper4kResponse}
    {slot : Bool} (hpc : (s.job api.responder).pc = .complete response slot) (h : s.resume cfg api code cut = some d) :
    (d.jobs api.responder).completed = (s.job api.responder).completed ++ [response] := by
  cases api with
  | respond q status headers body =>
    have hpc : (s.dispatcher.jobs q).pc = .complete response slot := hpc
    simp only [Backend.resume, Api.responder, Backend.job, hpc, Dispatcher.exec] at h
    cases h
    simp only [Dispatcher.setJob, Api.responder, Backend.job, Function.update_self]
  | _ =>
    simp only [Backend.resume, hpc] at h
    cases h

theorem Backend.GivenAt.step (hs : s.GivenAt r) (hr : s.TiedAt r) (h : s.Seen cfg r t) : t.GivenAt r := by
  have horder := hr.order
  cases h with
  | still job caught told call active log =>
    exact hs.kept job caught (congrArg Prod.fst told) (by rw [Backend.responding, Backend.responding, call])
  | goes w api job caught told calls before busy move after writes =>
    refine hs.kept job caught (congrArg Prod.fst told) ?_
    rw [Backend.responding, Backend.responding, before, after]
    cases api <;> rfl
  | submits inside pc job caught told same =>
    rw [Job.InOrder, pc] at horder
    have hidle : s.responding r = false := by
      unfold Backend.responding
      split
      · rename_i hcall
        have hcalls := hr.calls _ _ hcall
        simp only [Job.Calls, pc] at hcalls
      · rfl
    refine .inl ((congrArg Prod.fst told).trans (hs.nothing horder.2 (fun hpc => ?_) hidle))
    rw [pc] at hpc
    cases hpc
  | runs b idle runs hopen throws caught refused told same =>
    have hidle := Backend.responding_idle idle
    have hgiven : t.given r = s.given r := congrArg Prod.fst told
    rw [Backend.GivenAt, hgiven]
    refine hs.imp_right ?_
    rintro ⟨response, hg, hgave⟩
    refine ⟨response, hg, ?_⟩
    have hcompleted : (s.job r).completed = [response] := by
      unfold Backend.Gave at hgave
      split at hgave
      · rw [hidle] at hgave
        cases hgave.2
      · rename_i hpc
        exact absurd hpc runs.not_thrown
      · exact hgave
    refine Backend.gave_completed (runs.inOrder horder) ?_
    rcases runs.completed_of with he | ⟨completing, hcompleting, -⟩
    · exact he.trans hcompleted
    · obtain ⟨hcomplete, -⟩ := horder.past (by rw [hcompleted]; exact List.cons_ne_nil _ _)
      cases hpc : (s.job r).pc with
      | complete completing slot => exact absurd hpc (hcomplete _ _)
      | _ =>
        rw [hpc] at hcompleting
        cases hcompleting
  | calls method w api idle native may job caught told call active log =>
    have hidle := Backend.responding_idle idle
    have hgiven : t.given r = (s.tell r method).given r := congrArg Prod.fst told
    rw [Backend.GivenAt, hgiven]
    rcases Backend.native_cases native with ⟨c, m, hpc, rfl, hc, hm⟩ | ⟨c, hpc, rfl, hc, hm⟩ |
      ⟨response, slot, hpc, rfl, hresponse⟩ | ⟨hpc, rfl, hcaught, hresponse⟩
    · rw [Job.InOrder, hpc] at horder
      refine .inl (Eq.trans ?_ (hs.nothing horder.2.2 (fun h => by rw [hpc] at h; cases h) hidle))
      simp only [Backend.tell, hpc]
      cases m <;> rfl
    · rw [Job.InOrder, hpc] at horder
      refine .inl (Eq.trans ?_ (hs.nothing horder.2 (fun h => by rw [hpc] at h; cases h) hidle))
      simp only [Backend.tell, hpc]
    · rw [Job.InOrder, hpc] at horder
      have hnothing := hs.nothing horder.2 (fun h => by rw [hpc] at h; cases h) hidle
      refine .inr ⟨response, ?_, ?_⟩
      · simp only [Backend.tell, hpc, Function.update_self, hnothing, List.nil_append]
      · obtain ⟨block, -, rfl⟩ := respondCall_eq hresponse
        simp only [Backend.Gave, job, hpc, Backend.responding, call, and_self]
    · rw [Job.InOrder, hpc] at horder
      have hnothing := hs.nothing horder (fun _ => hcaught) hidle
      refine .inr ⟨internalErrorResponse, ?_, ?_⟩
      · simp only [Backend.tell, hpc, Function.update_self, hnothing, List.nil_append]
      · obtain ⟨block, -, rfl⟩ := respondCall_eq hresponse
        simp only [Backend.Gave, job, hpc, Backend.responding, call, or_true, and_self]
  | returns w cut api code calls before after active log resume on caught told =>
    have hgiven : t.given r = s.given r := congrArg Prod.fst told
    have hres := hr.returns on before resume
    have hother : (s.job r).completed = [] → (s.job r).pc ≠ .thrown → (∀ q status headers body,
        api ≠ .respond q status headers body) → t.GivenAt r := by
      intro hnone hpc hapi
      refine .inl (hgiven.trans (hs.nothing hnone (fun h => absurd h hpc) ?_))
      rw [Backend.responding, before]
      cases api with
      | respond q status headers body => exact absurd rfl (hapi q status headers body)
      | _ => rfl
    have hcalls := hr.calls api _ before
    unfold Job.Calls at hcalls
    split at hcalls
    case h_1 hpc | h_2 hpc | h_3 hpc =>
      rw [Job.InOrder, hpc] at horder
      exact hother horder.2.2 (by rw [hpc]; exact fun h => (by cases h)) fun _ _ _ _ h => (by cases h)
    case h_4 hpc =>
      rw [Job.InOrder, hpc] at horder
      exact hother horder.2 (by rw [hpc]; exact fun h => (by cases h)) fun _ _ _ _ h => (by cases h)
    case h_5 response slot q status headers body hpc =>
      subst on
      rw [Job.InOrder, hpc] at horder
      rw [Backend.GivenAt, hgiven]
      refine hs.imp_right ?_
      rintro ⟨response', hg, hgave⟩
      refine ⟨response', hg, Backend.gave_completed hres.order ?_⟩
      simp only [Backend.Gave, hpc] at hgave
      rw [Backend.job, Backend.resume_completes hpc resume, horder.2, hgave.1]
      rfl
    case h_6 q status headers body hpc =>
      rw [Backend.GivenAt, hgiven]
      refine hs.imp_right ?_
      rintro ⟨response', hg, hgave⟩
      refine ⟨response', hg, ?_⟩
      simp only [Backend.Gave, hpc] at hgave
      simp only [Backend.Gave, hres.thrown.mp hpc, caught, hpc, if_true, true_or, and_true]
      exact hgave.1
    case h_7 => exact hcalls.elim

theorem Backend.GivenAt.init (r : Responder) : (Backend.init cfg).GivenAt r := .inl rfl

end Given

/-- What the engine makes of a response, and of the head of a streamed one. -/
def Hyper4kResponse.delivery (http : HttpTypes) (response : Hyper4kResponse) : Delivery :=
  .buffered ⟨response.status.toUInt32.toUInt16, parseHeaders http (Server.block response.headers), response.body⟩

def headDelivery (http : HttpTypes) (head : Int32 × Entries) (i : Server.StreamId) : Delivery :=
  .stream ⟨head.1.toUInt32.toUInt16, parseHeaders http (Server.block head.2), i⟩

def Backend.Handed (http : HttpTypes) (s : Backend) (r : Responder) (d : Delivery) : Prop :=
  (∃ response ∈ s.given r, d = response.delivery http) ∨ ∃ head ∈ s.heads r, ∃ i, d = headDelivery http head i

section Handed
variable {cfg : Setup} {s t : Backend} {r : Responder} {http : HttpTypes}

theorem pinned_read (b : Octets) : (pinned b).read = b := by
  cases b <;> rfl

theorem block_of_encoded {headers : Entries} {b : Octets} (h : encodeHeaders headers = some b) :
    b = Server.block headers := by
  rw [Server.encodeHeaders_eq] at h
  split at h <;> cases h
  rfl

theorem Backend.Handed.tell (method : Option Method) {q : Responder} {d : Delivery} (h : s.Handed http q d) :
    (s.tell r method).Handed http q d := by
  have hgrow : ∀ {α : Type} (f : Responder → List α) (x : α), ∀ y ∈ f q, y ∈ Function.update f r (f r ++ [x]) q := by
    intro α f x y hy
    by_cases hq : q = r
    · subst hq
      rw [Function.update_self]
      exact List.mem_append_left _ hy
    · rwa [Function.update_of_ne hq]
  unfold Backend.tell
  split
  · exact h.imp_right fun ⟨head, hmem, hd⟩ => ⟨head, hgrow _ _ head hmem, hd⟩
  · exact h.imp_left fun ⟨response, hmem, hd⟩ => ⟨response, hgrow _ _ response hmem, hd⟩
  · exact h.imp_left fun ⟨response, hmem, hd⟩ => ⟨response, hgrow _ _ response hmem, hd⟩
  · exact h

theorem Backend.Handed.of_native {method : Option Method} {api : Api} (h : s.native r method = some api) {d : Delivery}
    (hd : api.Describes http d) : (s.tell r method).Handed http r d := by
  have hresponse : ∀ {response : Hyper4kResponse}, respondCall r response = some api → d = response.delivery http := by
    intro response hr
    obtain ⟨block, hblock, rfl⟩ := respondCall_eq hr
    have hd : d = .buffered ⟨_, parseHeaders http (pinned block).read, (pinned response.body).read⟩ := hd
    rw [hd, pinned_read, pinned_read, block_of_encoded hblock]
    rfl
  rcases Backend.native_cases h with ⟨c, m, hpc, rfl, hc, hm⟩ | ⟨c, hpc, rfl, hc, hm⟩ |
    ⟨response, slot, hpc, rfl, hr⟩ | ⟨hpc, rfl, hcaught, hr⟩
  · rcases NativeResponseChannel.native_cases hm with ⟨status, headers, block, -, hblock, rfl, rfl⟩ |
      ⟨b, bs, -, rfl, rfl⟩ | ⟨-, rfl, rfl⟩
    · obtain ⟨i, rfl⟩ := hd
      refine .inr ⟨(status, headers), ?_, i, ?_⟩
      · simp only [Backend.tell, hpc, Function.update_self]
        exact List.mem_append_right _ (List.mem_singleton_self _)
      · rw [pinned_read, block_of_encoded hblock]
        rfl
    · exact hd.elim
    · exact hd.elim
  · rcases NativeResponseChannel.native_cases hm with ⟨_, _, _, _, _, he, _⟩ | ⟨_, _, _, he, _⟩ | ⟨-, -, rfl⟩
    · cases he
    · cases he
    · exact hd.elim
  · refine .inl ⟨response, ?_, hresponse hr⟩
    simp only [Backend.tell, hpc, Function.update_self]
    exact List.mem_append_right _ (List.mem_singleton_self _)
  · refine .inl ⟨internalErrorResponse, ?_, hresponse hr⟩
    simp only [Backend.tell, hpc, Function.update_self]
    exact List.mem_append_right _ (List.mem_singleton_self _)

/-- Every delivery on its way to a request was handed in by the request itself. -/
theorem Backend.Tied.given {a : BackendAct} (hs : s.Tied cfg)
    (hgiven : s.streaming.engine.Given (s.Handed cfg.native.http)) (h : s.Stepped cfg a t) :
    t.streaming.engine.Given (t.Handed cfg.native.http) := by
  obtain ⟨bs, hrun⟩ := hs.reached
  have ho := Streaming.Reaches.orderly hrun
  cases h with
  | network a u free move =>
    rcases Streaming.step_acts move with he | ⟨b, hb, hact⟩
    · rw [show ({ s with streaming := u } : Backend).streaming.engine = s.streaming.engine from he]
      exact hgiven
    · refine hgiven.next ho hb (fun _ _ => id) ?_
      rintro w api rfl
      rcases hact with rfl | ⟨i, hi⟩
      · cases free
      · cases hi
  | call q w method api u idle native may move =>
    obtain ⟨e, he, rfl⟩ := Option.map_eq_some_iff.mp move
    refine hgiven.next ho he (fun r d hd => hd.tell method) ?_
    rintro w' api' heq d hd
    cases heq
    rw [Backend.native_responder native]
    exact Backend.Handed.of_native native hd
  | back w cut api code d u caught calls pc resume move catches =>
    obtain ⟨e, he, rfl⟩ := Option.map_eq_some_iff.mp move
    exact hgiven.next ho he (fun _ _ => id) fun w' api' heq => (by cases heq)
  | _ => exact hgiven

theorem Backend.Reaches.handed {ok : Backend → BackendAct → Prop} {as : List BackendAct}
    (h : Backend.Reaches cfg ok as s) :
    s.Tied cfg ∧ s.streaming.engine.Given (s.Handed cfg.native.http) ∧ ∀ r, s.GivenAt r := by
  refine Run.invariant (I := fun s : Backend => s.Tied cfg ∧ s.streaming.engine.Given (s.Handed cfg.native.http) ∧
    ∀ r, s.GivenAt r) h ?_ ⟨.init, .init _, Backend.GivenAt.init⟩
  rintro s a t - ⟨htied, hgiven, hall⟩ hstep
  have h := Backend.step_cases hstep
  refine ⟨htied.step hstep, htied.given hgiven h, fun r => ?_⟩
  obtain ⟨-, hown, hserial⟩ := htied.serial r
  exact (hall r).step (htied.tied r) (Backend.step_seen hown hserial (fun q => (htied.tied q).order) h)

end Handed

/-- `hyper4k_respond` is called at most once for a request, with the response that the dispatcher completes it with, or
with the fallback of a `submit` that threw. -/
theorem responded_at_most_once {cfg : Setup} {as : List BackendAct} {s : Backend} (h : Backend.Reaches cfg anyStep as s)
    (r : Responder) : s.given r = [] ∨ ∃ response, s.given r = [response] ∧
      ((s.job r).completed = [response] ∨ (∃ slot, (s.job r).pc = .complete response slot) ∨
        (s.job r).pc = .thrown ∧ response = internalErrorResponse) := by
  obtain ⟨-, -, hall⟩ := Backend.Reaches.handed h
  refine (hall r).imp_right ?_
  rintro ⟨response, hg, hgave⟩
  refine ⟨response, hg, ?_⟩
  unfold Backend.Gave at hgave
  split at hgave
  · rename_i completing slot hpc
    exact .inr (.inl ⟨slot, hgave.1 ▸ hpc⟩)
  · rename_i hpc
    exact .inr (.inr ⟨hpc, hgave.1⟩)
  · exact .inl hgave

def answeredByHandler (response : Hyper4kResponse) : List BackendAct :=
  inHandler ++ [.exec 1 (.returned response) none, .exec 1 .threw none] ++ BackendAct.called none 4 ++
    List.replicate 5 (.network (.engine (.handle 1)))

def withHeader : Hyper4kResponse := { status := 200, headers := [([0x58], [[0x31]])], body := [7] }

theorem responded_at_most_once_handler : ∃ s, Backend.Reaches .small anyStep (answeredByHandler withHeader) s ∧
    ∃ response, s.given 1 = [response] ∧ (s.job 1).completed = [response] := by
  have hrun : (replay (Backend.step .small) anyStep (.init .small) (answeredByHandler withHeader)).any (fun s =>
      decide ((s.job 1).pc = .subActive ∧ s.given 1 ≠ [])) = true := by decide
  obtain ⟨s, hs, hd⟩ := (Option.any_eq_true _ _).mp hrun
  obtain ⟨hpc, hsome⟩ := of_decide_eq_true hd
  obtain ⟨response, hone, hcases⟩ := (responded_at_most_once (run_of_replay hs) 1).resolve_left hsome
  exact ⟨s, run_of_replay hs, response, hone, by simpa [hpc] using hcases⟩

/-- The response that `build_response` makes of what Kotlin hands in: the status cut to sixteen bits, the body and, for
a well-formed map that has room in a `HeaderMap`, the values of each name in order. A status that `http` does not have
gives a notice instead. -/
def Carries (x : Server.Response) (status : Int32) (headers : Entries) (body : Server.BodyKind) : Prop :=
  if Server.validStatus status.toUInt32.toUInt16 then
    x.status = status.toUInt32.toUInt16 ∧ x.body = body ∧
      (Server.WellFormed headers → (Server.sentNames headers).card < Server.HeaderMap.capacity →
        ∃ m, Server.HeaderMap.ofList x.headers = some m ∧ Grouped ((Server.pairs headers).map Server.received) m)
  else x = Server.errorResponse 500 (Server.text "hyper4k: bad response")

theorem carries_block {status : Int32} {headers : Entries} {body : Server.BodyKind} {d : Delivery}
    (hd : d.response = ⟨status.toUInt32.toUInt16, parseHeaders .std (Server.block headers), body⟩) :
    Carries (Server.buildResponse d) status headers body := by
  rw [Carries, Server.buildResponse, hd]
  split
  · refine ⟨rfl, rfl, fun hwell hroom => ?_⟩
    obtain ⟨m, hm⟩ := collect_of_room hroom
    refine ⟨m, ?_, (Grouped.of_collect hm).1⟩
    rw [Server.parseHeaders_block hwell]
    exact hm
  · rfl

/-- A request is answered with what it handed in itself: the one response that was completed for it, or a stream of its
own under a head that its handler began; or its responder was dropped. -/
theorem answered_by_own_request {cfg : Setup} {as : List BackendAct} {s : Backend} {r : Responder}
    {x : Server.Response} (h : Backend.Reaches cfg anyStep as s) (hstd : cfg.native.http = .std)
    (hx : (s.streaming.engine.handles r).response = some x) :
    (∃ response, s.given r = [response] ∧ Carries x response.status response.headers (.full response.body)) ∨
    (∃ status headers i, (status, headers) ∈ s.heads r ∧ s.streaming.owner i = some r ∧
      Carries x status headers (.stream i)) ∨
    (s.streaming.engine.handles r).ending = some .orphaned ∧
      x = Server.errorResponse 500 (Server.text "hyper4k: handler dropped responder") := by
  obtain ⟨htied, hgiven, hall⟩ := Backend.Reaches.handed h
  obtain ⟨-, hown, -⟩ := htied.serial r
  obtain ⟨e, hend, hresponse⟩ := Option.bind_eq_some_iff.mp hx
  cases e with
  | cancelled => cases hresponse
  | orphaned =>
    cases hresponse
    exact .inr (.inr ⟨hend, rfl⟩)
  | answered d =>
    cases hresponse
    obtain ⟨hmade, htaken⟩ := hgiven.answer r d hend
    rw [hstd] at hmade
    rcases hmade with ⟨response, hmem, rfl⟩ | ⟨⟨status, headers⟩, hmem, i, rfl⟩
    · refine .inl ⟨response, ?_, carries_block rfl⟩
      rcases hall r with hnone | ⟨response', hone, -⟩
      · rw [hnone] at hmem
        cases hmem
      · rw [hone, List.mem_singleton] at hmem
        rw [hone, hmem]
    · refine .inr (.inl ⟨status, headers, i, hmem, hown.begun r i ?_, carries_block rfl⟩)
      exact List.mem_filterMap.mpr ⟨_, htaken, rfl⟩

theorem answered_by_own_request_header : ∃ s x, Backend.Reaches .small anyStep (answeredByHandler withHeader) s ∧
    (s.streaming.engine.handles 1).response = some x ∧ x.status = 200 ∧ x.body = .full [7] ∧
    ∃ m, Server.HeaderMap.ofList x.headers = some m ∧ Grouped [([0x78], [0x31])] m := by
  have hrun : (replay (Backend.step .small) anyStep (.init .small) (answeredByHandler withHeader)).any (fun s =>
      decide ((s.streaming.engine.handles 1).delivery.isSome = true ∧
        (s.streaming.engine.handles 1).response.isSome = true ∧ s.heads 1 = [] ∧ s.given 1 = [withHeader])) =
      true := by decide
  obtain ⟨s, hs, hd⟩ := (Option.any_eq_true _ _).mp hrun
  obtain ⟨hdelivery, hsome, hheads, hgiven⟩ := of_decide_eq_true hd
  obtain ⟨x, hx⟩ := Option.isSome_iff_exists.mp hsome
  refine ⟨s, x, run_of_replay hs, hx, ?_⟩
  rcases answered_by_own_request (run_of_replay hs) rfl hx with ⟨response, hone, hcarries⟩ | ⟨_, _, _, hmem, -⟩ | ⟨he, -⟩
  · obtain rfl : withHeader = response := List.singleton_inj.mp (hgiven.symm.trans hone)
    obtain ⟨hstatus, hbody, hheaders⟩ := hcarries
    exact ⟨hstatus, hbody, hheaders (by decide) (by decide)⟩
  · rw [hheads] at hmem
    cases hmem
  · rw [Server.HandlePc.delivery, he] at hdelivery
    cases hdelivery

end Hyper4k.Dispatch
