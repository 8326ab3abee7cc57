import Hyper4k.Kotlin.Jobs
import Hyper4k.Server.CallView

/-! A step of the whole server as one request sees it. -/
namespace Hyper4k.Dispatch
open Server (Api Code Responder Streaming ThreadId)
open Runs

def Backend.told (s : Backend) (r : Responder) :
    List Hyper4kResponse × List (Int32 × Server.Entries) × List (Text.Octets × Bool) :=
  (s.given r, s.heads r, s.wrote r)

inductive Backend.Seen (cfg : Setup) (s : Backend) (r : Responder) (t : Backend) : Prop
  | still (job : t.job r = s.job r) (caught : t.caught r = s.caught r) (told : t.told r = s.told r)
      (call : t.streaming.call r = s.streaming.call r)
      (active : t.streaming.engine.active r = s.streaming.engine.active r) (log : t.streaming.log r = s.streaming.log r)
  | goes (w : ThreadId) (api : Api) (job : t.job r = s.job r) (caught : t.caught r = s.caught r)
      (told : t.told r = s.told r) (calls : s.streaming.calls w = some api)
      (before : s.streaming.call r = some (api, s.streaming.engine.pcs w))
      (busy : ∀ code, s.streaming.engine.pcs w ≠ .returned code)
      (move : s.streaming.engine.advance cfg.native w = some t.streaming.engine)
      (after : t.streaming.call r = some (api, t.streaming.engine.pcs w))
      (writes : t.streaming.writes r =
        s.streaming.writes r ++ (s.streaming.engine.event w t.streaming.engine).chunks)
  | submits (inside : s.inCallback r = true) (pc : (s.job r).pc = .away)
      (job : t.job r = { s.job r with pc := .loadAccepting }) (caught : t.caught r = s.caught r)
      (told : t.told r = s.told r) (same : t.streaming = s.streaming)
  | runs (b : Behaviour) (idle : s.streaming.call r = none) (runs : (s.job r).Runs b (t.job r))
      (hopen : (s.job r).pc ≠ .closeStream)
      (throws : ∀ response, (s.job r).pc.completing = some response → respondCall r response = none)
      (caught : (s.job r).pc.refusing = false → t.caught r = s.caught r)
      (refused : (s.job r).pc.refusing = true → ((t.job r).pc = .thrown ↔ t.caught r = true))
      (told : t.told r = s.told r) (same : t.streaming = s.streaming)
  | calls (method : Option Method) (w : ThreadId) (api : Api) (idle : s.streaming.call r = none)
      (native : s.native r method = some api) (may : Backend.mayRun cfg w api = true) (job : t.job r = s.job r)
      (caught : t.caught r = s.caught r) (told : t.told r = (s.tell r method).told r)
      (call : t.streaming.call r = some (api, api.start cfg.native.http))
      (active : t.streaming.engine.active r = s.streaming.engine.active r) (log : t.streaming.log r = s.streaming.log r)
  | returns (w : ThreadId) (cut : Bool) (api : Api) (code : Code) (calls : s.streaming.calls w = some api)
      (before : s.streaming.call r = some (api, .returned code)) (after : t.streaming.call r = none)
      (active : t.streaming.engine.active r = s.streaming.engine.active r) (log : t.streaming.log r = s.streaming.log r)
      (resume : s.resume cfg api code cut = some t.dispatcher) (on : api.responder = r)
      (caught : t.caught r = if (s.job r).pc = .thrown then false else s.caught r)
      (told : t.told r = (s.given r, s.heads r, s.wrote r ++ Backend.took code cut api))

section Seen
variable {cfg : Setup} {s t : Backend} {r : Responder}

/-- A result reaches only the request that made the call. -/
theorem Backend.resume_jobs {api : Api} {code : Code} {cut : Bool} {d : Dispatcher}
    (hj : (s.job api.responder).InOrder) (h : s.resume cfg api code cut = some d) :
    ∃ j, d.jobs = Function.update s.dispatcher.jobs api.responder j := by
  have exec : ∀ {b : Behaviour}, b.newChannel = true ∧ b.ops = [] →
      s.dispatcher.exec (cfg.config b) api.responder = some d →
      ∃ j, d.jobs = Function.update s.dispatcher.jobs api.responder j := by
    intro b hb h
    obtain ⟨j, hd, -⟩ := Dispatcher.exec_runs hb hj h
    exact ⟨j, hd⟩
  unfold Backend.resume at h
  split at h
  case h_1 q status headers _ =>
    cases h
    exact ⟨_, rfl⟩
  case h_2 q chunk _ =>
    cases h
    split
    · exact ⟨_, (Function.update_eq_self _ _).symm⟩
    · exact ⟨_, rfl⟩
  case h_3 q _ =>
    cases h
    exact ⟨_, rfl⟩
  case h_4 q _ => exact exec ⟨rfl, rfl⟩ h
  case h_5 => exact exec ⟨rfl, rfl⟩ h
  case h_6 =>
    cases h
    exact ⟨_, (Function.update_eq_self _ _).symm⟩
  case h_7 => cases h

/-- `failureResponse` decides how a refusal goes on. -/
theorem Dispatcher.exec_refuse {d d' : Dispatcher} {ending : Ending} {failure : Option Hyper4kResponse}
    (hpc : (d.jobs r).pc.refusing = true) (h : d.exec (cfg.config (.of ending failure)) r = some d') :
    (d'.jobs r).pc = .thrown ↔ failure.isNone = true := by
  have hjob : ∀ pc, (d.goto r pc).jobs r = { d.jobs r with pc := pc } := fun pc => Function.update_self ..
  rw [Dispatcher.exec] at h
  cases hrpc : (d.jobs r).pc with
  | refuse slot =>
    rw [hrpc] at h
    cases h
    rw [hjob]
    cases failure with
    | none => exact iff_of_true rfl rfl
    | some response => exact iff_of_false (fun h => (by cases h)) (fun h => (by cases h))
  | _ =>
    rw [hrpc] at hpc
    cases hpc

theorem Backend.step_seen {a : BackendAct} (hown : s.streaming.Owned) (hs : s.streaming.Serial r)
    (hj : ∀ q, (s.job q).InOrder) (h : s.Stepped cfg a t) : s.Seen cfg r t := by
  cases h with
  | network a u free move =>
    have hok : s.streaming.OneByOne r a := by
      cases a with
      | poll q => trivial
      | engine b =>
        cases b with
        | enter w api => cases free
        | _ => trivial
    cases Streaming.step_seen hown hs hok move with
    | same _ _ elsewhere call active log => exact .still rfl rfl rfl call active log
    | enters w api _ idle on call active log => cases free
    | goes w api _ calls before busy move after writes =>
      exact .goes w api rfl rfl rfl calls before busy move after writes
    | returns w api code _ calls before pc after active log =>
      simp only [Backend.free, pc] at free
      cases free
  | submit q inside pc =>
    by_cases hq : r = q
    · subst hq
      exact .submits inside pc (Function.update_self ..) rfl rfl rfl
    · exact .still (Function.update_of_ne hq _ _) rfl rfl rfl rfl rfl
  | runs q ending failure d caught running move catches =>
    obtain ⟨hidle, hpc⟩ := Bool.and_eq_true_iff.mp running
    obtain ⟨j, hd, hruns⟩ := Dispatcher.exec_runs ⟨rfl, rfl⟩ (hj q) move
    by_cases hq : r = q
    · subst hq
      have hjob : d.jobs r = j := by rw [hd, Function.update_self]
      refine .runs _ (Streaming.call_none (Option.isNone_iff_eq_none.mp hidle)) (hjob ▸ hruns) ?_ ?_ ?_ ?_ rfl rfl
      · intro hclose
        rw [hclose] at hpc
        cases hpc
      · intro response hresponse
        generalize (s.job r).pc = pc at hpc hresponse
        cases pc with
        | complete => cases hpc
        | _ => cases hresponse
      · intro hrefuse
        rw [hrefuse, if_neg Bool.false_ne_true] at catches
        exact congrFun catches r
      · intro hrefuse
        rw [hrefuse, if_pos rfl] at catches
        have hcaught : caught r = failure.isNone := by rw [catches, Function.update_self]
        exact (Dispatcher.exec_refuse hrefuse move).trans (by rw [← hcaught])
    · refine .still ((congrFun hd r).trans (Function.update_of_ne hq _ _)) ((congrFun catches r).trans ?_) rfl rfl rfl
        rfl
      split
      · exact Function.update_of_ne hq _ _
      · rfl
  | throws q response slot d pc idle bad move =>
    obtain ⟨j, hd, hruns⟩ := Dispatcher.exec_runs ⟨rfl, rfl⟩ (hj q) move
    by_cases hq : r = q
    · subst hq
      have hjob : d.jobs r = j := by rw [hd, Function.update_self]
      refine .runs _ (Streaming.call_none idle) (hjob ▸ hruns) (by rw [pc]; nofun) ?_ (fun _ => rfl) ?_ rfl rfl
      · intro response' hresponse
        rw [pc] at hresponse
        cases hresponse
        exact bad
      · intro hrefuse
        rw [pc] at hrefuse
        cases hrefuse
    · exact .still ((congrFun hd r).trans (Function.update_of_ne hq _ _)) rfl rfl rfl rfl rfl
  | call q w method api u idle native may move =>
    have hon := Backend.native_responder native
    have htell : ∀ q', (s.tell q method).job q' = s.job q' ∧ (s.tell q method).caught = s.caught ∧
        (q' ≠ q → (s.tell q method).told q' = s.told q') := by
      intro q'
      unfold Backend.tell
      split
      all_goals refine ⟨rfl, rfl, fun hne => ?_⟩
      all_goals simp [Backend.told, Function.update_of_ne hne]
    have hok : s.streaming.OneByOne r (.engine (.enter w api)) := fun hr => by rw [← hr, hon]; exact idle
    cases Streaming.step_seen hown hs hok move with
    | same _ _ elsewhere call active log =>
      have hne : r ≠ q := fun hr => elsewhere (congrArg some (hon.trans hr.symm))
      exact .still (htell r).1 (congrFun (htell r).2.1 r) ((htell r).2.2 hne) call active log
    | enters w api _ none on call active log =>
      obtain rfl : q = r := hon.symm.trans on
      exact .calls method w api none native may (htell q).1 (congrFun (htell q).2.1 q) rfl call active log
  | back w cut api code d u caught calls pc resume move catches =>
    obtain ⟨j, hd⟩ := Backend.resume_jobs (hj api.responder) resume
    cases Streaming.step_seen (a := .engine (.call w)) hown hs trivial move with
    | same _ _ elsewhere call active log =>
      have hne : r ≠ api.responder := by
        rintro rfl
        exact elsewhere (by rw [Streaming.responder, calls]; rfl)
      refine .still ((congrFun hd r).trans (Function.update_of_ne hne _ _)) ((congrFun catches r).trans ?_) ?_ call active
        log
      · split
        · exact Function.update_of_ne hne _ _
        · rfl
      · simp [Backend.told, Function.update_of_ne hne]
    | goes _ api' _ calls' before busy move' after writes => exact absurd pc (busy code)
    | returns _ api' code' _ calls' before pc' after active log =>
      rw [calls] at calls'
      cases calls'
      rw [pc] at pc'
      cases pc'
      obtain ⟨-, -, -, -, rfl⟩ := hs.call_on before
      refine .returns w cut api code calls before after active log resume rfl ((congrFun catches _).trans ?_) ?_
      · split
        · exact Function.update_self ..
        · rfl
      · simp [Backend.told]
  | stops => exact .still rfl rfl rfl rfl rfl rfl

end Seen

end Hyper4k.Dispatch
