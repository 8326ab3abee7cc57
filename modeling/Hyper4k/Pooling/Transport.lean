import Hyper4k.Bridge.Settings
import Hyper4k.Pooling.Isolation
import Hyper4k.Pooling.Outgoing

/-! The client's way out: `send` hands a request that it accepts to one of two pools, and the connectors of the pools
dial for it. -/
namespace Hyper4k.Pooling
open Bridge (Bytes ClientRequest ConnId ErrorKind H2 Memory ProxyTarget Settings)
open Runs
open Server (HeaderMap)
open Text (Grouped)

/-- What the network answers to a dial. A handshake that fails is classified, one that does not tells the protocol that
ALPN has agreed on. -/
structure Network where
  serverName : String → Bool
  dial : String → UInt16 → Except ErrorKind Unit
  tunnel : ProxyTarget → String → UInt16 → Except ErrorKind Unit
  tls : String → Except ErrorKind (Option Bytes)
  handshake : Bool

structure PlaintextConnector where
  proxy : Option ProxyTarget

structure TlsClientConnector where
  requireH2 : Bool
  proxy : Option ProxyTarget

def failIf (c : Bool) (kind : ErrorKind) : Except ErrorKind Unit := if c then .error kind else .ok ()

/-- The TCP stream: every plaintext connection goes to the proxy, if there is one. -/
def PlaintextConnector.stream (c : PlaintextConnector) (net : Network) (key : PoolKey) : Except ErrorKind Unit :=
  match c.proxy with
  | some p => net.dial p.host p.port
  | none => net.dial key.host key.port

def PlaintextConnector.connect (c : PlaintextConnector) (net : Network) (key : PoolKey) : Except ErrorKind Proto := do
  c.stream net key
  failIf (!net.handshake) .connect
  return .h1

/-- The TCP stream: through a proxy it is a tunnel to the same host. -/
def TlsClientConnector.stream (c : TlsClientConnector) (net : Network) (key : PoolKey) : Except ErrorKind Unit :=
  match c.proxy with
  | some p => net.tunnel p key.host key.port
  | none => net.dial key.host key.port

def TlsClientConnector.connect (c : TlsClientConnector) (net : Network) (key : PoolKey) : Except ErrorKind Proto := do
  failIf (!net.serverName key.host) .tlsHostname
  c.stream net key
  let alpn ← net.tls key.host
  let negotiatedH2 := alpn == some H2
  failIf (c.requireH2 && !negotiatedH2) .alpnNoH2
  failIf (!net.handshake) .protocol
  return if negotiatedH2 then .h2 else .h1

section Client
variable {Cert : Type} (settings : Settings Cert) (lib : BuildEnv)

def dialFor : Via → Network → PoolKey → Except ErrorKind Proto
  | .plain => PlaintextConnector.connect ⟨settings.proxy⟩
  | .tls => TlsClientConnector.connect ⟨settings.http2Required, settings.proxy⟩

def Dials (via : Via) (key : PoolKey) (proto : Proto) : Prop := ∃ net, dialFor settings via net key = .ok proto

def clientEnv : BuildEnv :=
  { lib with
    http2Required := settings.http2Required
    tlsPool := settings.tls.isSome
    maxRetries := settings.maxRetries
    viaProxy := settings.proxy.isSome }

end Client

/-- The two pools with their tasks, and the request of each task. -/
structure Outbound where
  nets : Via → Attempts := fun _ => {}
  requests : TaskId → Option Outgoing := fun _ => none

inductive OutboundAct
  | send (t : TaskId) (mem : Memory) (r : ClientRequest)
  | net (via : Via) (x : AttemptAct)

/-- A task is started by `send`, and its request is built from its template. -/
def Outbound.allows (env : BuildEnv) (s : Outbound) : AttemptAct → Bool
  | .start _ _ => false
  | .built t ok => ok == ((s.requests t).bind (Outgoing.build env)).isSome
  | _ => true

def Outgoing.job (o : Outgoing) (maxRetries : UInt32) : Job :=
  ⟨o.key, Bridge.Retry.isIdempotent o.template.method, maxRetries⟩

def Outbound.step (env : BuildEnv) (limits : Limits) (s : Outbound) : OutboundAct → Option Outbound
  | .send t mem r => match outgoing env mem r, s.requests t with
    | .ok o, none => ((s.nets o.via).step limits (.start t (o.job env.maxRetries))).map fun n =>
        ⟨Function.update s.nets o.via n, Function.update s.requests t (some o)⟩
    | _, _ => none
  | .net via x => if s.allows env x then
      ((s.nets via).step limits x).map fun n => { s with nets := Function.update s.nets via n }
    else none

def Outbound.ledger (s : Outbound) (a : OutboundAct) (_ : Outbound) (o : Via → Ledger) : Via → Ledger :=
  match a with
  | .send _ _ _ => o
  | .net via x => Function.update o via ((s.nets via).ledger x (s.nets via) (o via))

def Outbound.Answers {Cert : Type} (settings : Settings Cert) (s : Outbound) : OutboundAct → Prop
  | .send _ _ _ => True
  | .net via x => (s.nets via).AnswersBy (Dials settings via) x

abbrev Outbound.Reaches {Cert : Type} (settings : Settings Cert) (lib : BuildEnv) (limits : Limits)
    (as : List OutboundAct) (s : Outbound) (o : Via → Ledger) : Prop :=
  Run (observe (Outbound.step (clientEnv settings lib) limits) Outbound.ledger) (fun p => p.1.Answers settings)
    ({}, fun _ _ => none) as (s, o)

structure Outbound.Traced {Cert : Type} (settings : Settings Cert) (env : BuildEnv) (s : Outbound) (o : Via → Ledger) :
    Prop where
  isolated : ∀ via, (s.nets via).Isolated (Dials settings via) (o via)
  jobs : ∀ via t j, ((s.nets via).jobs t).job = some j →
    ∃ out, s.requests t = some out ∧ out.via = via ∧ j.key = out.key
  built : ∀ via t j, (s.nets via).jobs t = .send j → ∃ out req, s.requests t = some out ∧ out.build env = some req
  accepted : ∀ t out, s.requests t = some out → ∃ mem r, outgoing env mem r = .ok out

section Steps
variable {Cert : Type} {settings : Settings Cert} {env : BuildEnv} {limits : Limits} {s : Outbound} {o : Via → Ledger}
  {via : Via} {t : TaskId} {n : Attempts}

theorem Outbound.Traced.send (hs : s.Traced settings env o) {out : Outgoing} {budget : UInt32} {mem : Memory}
    {r : ClientRequest} (hout : outgoing env mem r = .ok out) (hfree : s.requests t = none)
    (h : (s.nets out.via).Led limits (.start t (out.job budget)) n) :
    Outbound.Traced settings env ⟨Function.update s.nets out.via n, Function.update s.requests t (some out)⟩ o := by
  have hother : ∀ {u q}, s.requests u = some q → Function.update s.requests t (some out) u = some q := by
    intro u q hu
    rw [Function.update_of_ne _ _ _, hu]
    rintro rfl
    rw [hfree] at hu
    cases hu
  refine ⟨?_, ?_, ?_, ?_⟩
  · exact forall_update (Q := fun via (a : Attempts) => a.Isolated (Dials settings via) (o via))
      ((hs.isolated out.via).step h trivial) fun via _ => hs.isolated via
  · refine forall_update (Q := fun via (a : Attempts) => ∀ u j, (a.jobs u).job = some j →
      ∃ q, Function.update s.requests t (some out) u = some q ∧ q.via = via ∧ j.key = q.key) ?_ fun via _ u j hj => ?_
    · intro u j hj
      rcases h.job u j hj with hx | ⟨i, hi, hkey⟩
      · cases hx
        exact ⟨out, Function.update_self .., rfl, rfl⟩
      · obtain ⟨q, hq, hvia, hk⟩ := hs.jobs out.via u i hi
        exact ⟨q, hother hq, hvia, hkey.trans hk⟩
    · obtain ⟨q, hq, hvia, hk⟩ := hs.jobs via u j hj
      exact ⟨q, hother hq, hvia, hk⟩
  · refine forall_update (Q := fun _ (a : Attempts) => ∀ u j, a.jobs u = .send j →
      ∃ q req, Function.update s.requests t (some out) u = some q ∧ q.build env = some req) ?_ fun via _ u j hj => ?_
    · intro u j hj
      rcases h.sends u j hj with hold | hx
      · obtain ⟨q, req, hq, hreq⟩ := hs.built out.via u j hold
        exact ⟨q, req, hother hq, hreq⟩
      · cases hx
    · obtain ⟨q, req, hq, hreq⟩ := hs.built via u j hj
      exact ⟨q, req, hother hq, hreq⟩
  · refine forall_update (Q := fun _ (x : Option Outgoing) => ∀ q, x = some q → ∃ mem r, outgoing env mem r = .ok q) ?_
      fun u _ => hs.accepted u
    intro q hq
    cases hq
    exact ⟨mem, r, hout⟩

theorem Outbound.Traced.net (hs : s.Traced settings env o) {x : AttemptAct} (hallow : s.allows env x = true)
    (hok : (s.nets via).AnswersBy (Dials settings via) x) (h : (s.nets via).Led limits x n) :
    Outbound.Traced settings env { s with nets := Function.update s.nets via n }
      (Function.update o via ((s.nets via).ledger x (s.nets via) (o via))) := by
  refine ⟨?_, ?_, ?_, hs.accepted⟩
  · intro w
    by_cases hw : w = via
    · subst hw
      change (Function.update s.nets w n w).Isolated _ _
      rw [Function.update_self, Function.update_self]
      exact (hs.isolated w).step h hok
    · change (Function.update s.nets via n w).Isolated _ _
      rw [Function.update_of_ne hw, Function.update_of_ne hw]
      exact hs.isolated w
  · refine forall_update (Q := fun via (a : Attempts) => ∀ u j, (a.jobs u).job = some j →
      ∃ q, s.requests u = some q ∧ q.via = via ∧ j.key = q.key) ?_ fun w _ => hs.jobs w
    intro u j hj
    rcases h.job u j hj with rfl | ⟨i, hi, hkey⟩
    · cases hallow
    · obtain ⟨q, hq, hvia, hk⟩ := hs.jobs via u i hi
      exact ⟨q, hq, hvia, hkey.trans hk⟩
  · refine forall_update (Q := fun _ (a : Attempts) => ∀ u j, a.jobs u = .send j →
      ∃ q req, s.requests u = some q ∧ q.build env = some req) ?_ fun w _ => hs.built w
    intro u j hj
    rcases h.sends u j hj with hold | rfl
    · exact hs.built via u j hold
    · have hbuilt : ((s.requests u).bind (Outgoing.build env)).isSome = true := (beq_iff_eq.mp hallow).symm
      obtain ⟨req, hreq⟩ := Option.isSome_iff_exists.mp hbuilt
      obtain ⟨q, hq, hbuild⟩ := Option.bind_eq_some_iff.mp hreq
      exact ⟨q, req, hq, hbuild⟩

theorem Outbound.step_traced {a : OutboundAct} {u : Outbound} (hs : s.Traced settings env o)
    (hok : s.Answers settings a) (h : s.step env limits a = some u) : u.Traced settings env (s.ledger a u o) := by
  cases a with
  | send t mem r =>
    simp only [Outbound.step] at h
    split at h
    · rename_i out hout hfree
      obtain ⟨n, hn, rfl⟩ := Option.map_eq_some_iff.mp h
      exact hs.send hout hfree (Attempts.step_led hn)
    · cases h
  | net via x =>
    simp only [Outbound.step] at h
    split at h
    · rename_i hallow
      obtain ⟨n, hn, rfl⟩ := Option.map_eq_some_iff.mp h
      exact hs.net hallow hok (Attempts.step_led hn)
    · cases h

theorem Outbound.Reaches.traced {lib : BuildEnv} {as : List OutboundAct}
    (h : Outbound.Reaches settings lib limits as s o) : s.Traced settings (clientEnv settings lib) o := by
  refine h.invariant (I := fun p => p.1.Traced settings (clientEnv settings lib) p.2) ?_ ?_
  · intro p x q hok hs hstep
    obtain ⟨hmove, hnote⟩ := observe_eq_some hstep
    rw [hnote]
    exact Outbound.step_traced hs hok hmove
  · refine ⟨fun _ => .init, ?_, ?_, ?_⟩
    · rintro via t j ⟨⟩
    · rintro via t j ⟨⟩
    · rintro t out ⟨⟩

end Steps

section Protocols
variable {Cert : Type} {settings : Settings Cert} {key : PoolKey} {proto : Proto}

theorem failIf_ok {c : Bool} {kind : ErrorKind} {u : Unit} (h : failIf c kind = .ok u) : c = false := by
  cases c
  · rfl
  · cases h

theorem Dials.plain (h : Dials settings .plain key proto) : proto = .h1 := by
  obtain ⟨net, h⟩ := h
  obtain ⟨_, -, h⟩ := ok_of_bind (show PlaintextConnector.connect _ net key = .ok proto from h)
  obtain ⟨_, -, h⟩ := ok_of_bind h
  cases h
  rfl

/-- A connection of the TLS pool has been made under the server name of its key, and speaks h2 if and only if ALPN has
agreed on it. -/
theorem Dials.tls (h : Dials settings .tls key proto) : ∃ net : Network, ∃ alpn, net.serverName key.host = true ∧
    TlsClientConnector.stream ⟨settings.http2Required, settings.proxy⟩ net key = .ok () ∧
    net.tls key.host = .ok alpn ∧ (proto = .h2 ↔ alpn = some H2) ∧ (settings.http2Required = true → proto = .h2) := by
  obtain ⟨net, h⟩ := h
  obtain ⟨_, hname, h⟩ := ok_of_bind (show TlsClientConnector.connect _ net key = .ok proto from h)
  obtain ⟨_, hstream, h⟩ := ok_of_bind h
  obtain ⟨alpn, halpn, h⟩ := ok_of_bind h
  obtain ⟨_, hrequired, h⟩ := ok_of_bind h
  obtain ⟨_, -, h⟩ := ok_of_bind h
  have hrequired := failIf_ok hrequired
  have hname := failIf_ok hname
  have hproto : proto = if alpn == some H2 then .h2 else .h1 := (Except.ok.inj h).symm
  refine ⟨net, alpn, by simpa using hname, hstream, halpn, ?_, ?_⟩
  · by_cases h2 : alpn = some H2 <;> simp [hproto, h2]
  · intro hr
    have h2 : (alpn == some H2) = true := by simpa [hr] using hrequired
    rw [hproto, h2]
    rfl

end Protocols

def h2Only : Settings Unit where
  connectTimeout := none
  requestTimeout := none
  readIdleTimeout := none
  maxRetries := 0
  limits := .new 0 0
  http2Required := true
  proxy := none
  tls := some ⟨[()], [H2]⟩

/-- The one URL is `https://A`, and `GET` the one method. -/
def oneUrl : BuildEnv where
  method b := if b = [71, 69, 84] then some .get else none
  uri text := if text = "https://A".toList then some ⟨some "https", some "A", none⟩
    else if text = ['/'] then some ⟨none, none, none⟩ else none
  http := .std
  http2Required := false
  tlsPool := false
  maxRetries := 0
  viaProxy := false
  textValue text := some (asciiBytes text)
  pathAndQuery text := if text = "https://A".toList then some ['/'] else none
  text_same h := (Option.some.inj h).symm

def dialledAttempt : List AttemptAct :=
  poolSteps 0 8 ++ .net (.pool (.connected 0 (.ok .h2))) :: poolSteps 0 5 ++ [.acquired 0, .isClosed 0, .built 0 true]

/-- `GET` at 64 and `https://A` behind it. -/
def getMemory : Memory := fun p =>
  List.getD ([71, 69, 84] ++ [104, 116, 116, 112, 115, 58, 47, 47, 65]) (p.toNat - 64) 0

def firstSend : List OutboundAct :=
  .send 0 getMemory ⟨⟨64, 3⟩, ⟨67, 9⟩, 0, 0, ⟨0, 0⟩⟩ :: dialledAttempt.map (.net .tls)

def AttemptAct.connects : AttemptAct → Option Proto
  | .net (.pool (.connected _ (.ok proto))) => some proto
  | _ => none

theorem Attempts.answersBy_of_connects {rule : PoolKey → Proto → Prop} (s : Attempts) {x : AttemptAct}
    (h : ∀ proto, x.connects = some proto → ∀ k, rule k proto) : s.AnswersBy rule x := by
  unfold Attempts.AnswersBy ClosingPool.AnswersBy Pool.AnswersBy
  split
  · split
    · split
      · exact fun k _ => h _ rfl k
      · trivial
    · trivial
  · trivial

theorem h2Only_dials (k : PoolKey) : Dials h2Only .tls k .h2 :=
  ⟨⟨fun _ => true, fun _ _ => .ok (), fun _ _ _ => .ok (), fun _ => .ok (some H2), true⟩, rfl⟩

set_option maxRecDepth 10000 in
theorem firstSend_reaches : ∃ s o, Outbound.Reaches h2Only oneUrl {} firstSend s o ∧
    (s.nets .tls).jobs 0 = .send ⟨⟨"https", "a", 443⟩, true, 0⟩ ∧ (s.nets .tls).net.pool.tasks 0 = .leased 1 := by
  have hrun : (replay (observe (Outbound.step (clientEnv h2Only oneUrl) {}) Outbound.ledger) anyStep
      ({}, fun _ _ => none) firstSend).any (fun p =>
        (p.1.nets .tls).jobs 0 == .send ⟨⟨"https", "a", 443⟩, true, 0⟩ &&
        (p.1.nets .tls).net.pool.tasks 0 == .leased 1) = true := by decide +kernel
  obtain ⟨⟨s, o⟩, hs, hend⟩ := (Option.any_eq_true _ _).mp hrun
  simp only [Bool.and_eq_true, beq_iff_eq] at hend
  refine ⟨s, o, (run_of_replay hs).mem.mono ?_, hend⟩
  rintro p a ⟨-, ha⟩
  rcases List.mem_cons.mp ha with rfl | ha
  · trivial
  · obtain ⟨x, hx, rfl⟩ := List.mem_map.mp ha
    have hconnects : ∀ x ∈ dialledAttempt, x.connects = none ∨ x.connects = some .h2 := by decide
    refine Attempts.answersBy_of_connects _ fun proto hproto k => ?_
    rcases hconnects x hx with hnone | hh2
    · rw [hnone] at hproto
      cases hproto
    · rw [hh2] at hproto
      cases hproto
      exact h2Only_dials k

section Sending
variable {Cert : Type} {settings : Settings Cert} {lib : BuildEnv} {limits : Limits} {as : List OutboundAct}
  {s : Outbound} {o : Via → Ledger} {via : Via} {t : TaskId} {j : Job} {c : ConnId} {proto : Proto}

/-- Every attempt sends over a connection that the pool's connector has dialled for the authority of the request's own
URL: no interleaving of callers, retries, leases and a shutdown lends it to another one, nothing that was asked for over
TLS goes out without it, and a client that requires HTTP/2 sends over nothing else. -/
theorem sent_to_own_authority (h : Outbound.Reaches settings lib limits as s o) (hjob : (s.nets via).jobs t = .send j)
    (hlease : (s.nets via).net.pool.tasks t = .leased c) (hproto : ((s.nets via).net.pool.entries c).proto = proto) :
    ∃ out, s.requests t = some out ∧ out.via = via ∧ out.Accepted (clientEnv settings lib) ∧
      (∃ mem r, ClientRequest.prepare (clientEnv settings lib).toSendEnv mem r = .ok out.template) ∧
      o via c = some (out.key, proto) ∧ Dials settings via out.key proto ∧ (via = .plain → proto = .h1) ∧
      (settings.http2Required = true → via = .tls ∧ proto = .h2) := by
  have hs := h.traced
  obtain ⟨out, hout, rfl, hkey⟩ := hs.jobs via t j (by rw [hjob]; rfl)
  obtain ⟨hnoted, hdials⟩ := (hs.isolated out.via).sends hjob hlease
  rw [hproto, hkey] at hnoted hdials
  obtain ⟨mem, r, hsend⟩ := hs.accepted t out hout
  have haccepted := outgoing_accepted hsend
  have hprepared : r.prepare (clientEnv settings lib).toSendEnv mem = .ok out.template := by
    rw [← outgoing_template, hsend]
    rfl
  refine ⟨out, hout, rfl, haccepted, ⟨mem, r, hprepared⟩, hnoted, hdials, fun hplain => ?_, fun hr => ?_⟩
  · rw [hplain] at hdials
    exact hdials.plain
  · cases hvia : out.via with
    | plain => exact absurd (hr.symm.trans (haccepted.plain hvia)) (by decide)
    | tls =>
      rw [hvia] at hdials
      obtain ⟨net, alpn, -, -, -, -, hrequired⟩ := hdials.tls
      exact ⟨rfl, hrequired hr⟩

/-- The request of `firstSend` goes out over HTTP/2. -/
theorem sent_to_own_authority_h2 : ∃ s o out, Outbound.Reaches h2Only oneUrl {} firstSend s o ∧
    (s.nets .tls).net.pool.tasks 0 = .leased 1 ∧ s.requests 0 = some out ∧ o .tls 1 = some (out.key, .h2) := by
  obtain ⟨s, o, hreach, hjob, hlease⟩ := firstSend_reaches
  obtain ⟨out, hout, -, -, -, hnoted, -, -, hrequired⟩ := sent_to_own_authority hreach hjob hlease rfl
  rw [(hrequired rfl).2] at hnoted
  exact ⟨s, o, out, hreach, hlease, hout, hnoted⟩

end Sending

end Hyper4k.Pooling
