import Hyper4k.Bridge.Client
import Hyper4k.Bridge.Retry
import Hyper4k.Server.Headers
import Hyper4k.Text.Decode

/-! `hyper4k_client_send` from its C arguments: the versioned struct is copied out of the caller's
memory, the request it describes is checked, and only then is the client touched. -/
namespace Hyper4k.Bridge
open Server (HttpTypes)
open Text (fromUtf8)

abbrev Memory := UInt64 → UInt8

def Memory.read (mem : Memory) (p : UInt64) (n : Nat) : Bytes :=
  (List.range n).map fun i => mem (p + UInt64.ofNat i)

def littleEndian (b : Bytes) : Nat := b.foldr (fun x n => x.toNat + 256 * n) 0

def fieldAt (b : Bytes) (offset size : Nat) : Nat := littleEndian ((b.drop offset).take size)

def ptrAt (b : Bytes) (offset : Nat) : UInt64 := UInt64.ofNat (fieldAt b offset 8)

/-- Major 4, minor 1. -/
def ABI_VERSION : Nat := 4 * 2 ^ 16 + 1

def REQUEST_MIN_SIZE : Nat := 8 + 2 * 16

def validateHeader (abiVersion structSize minSize : Nat) : Status :=
  if abiVersion / 2 ^ 16 ≠ ABI_VERSION / 2 ^ 16 then .abiMismatch
  else if structSize < minSize then .structSize
  else .ok

/-- `Hyper4kClientRequest` as `hyper4k_client_request_init` fills it: no method, no url, no headers,
no body, and the idle timeout inherited. -/
def defaultsRequest : Bytes :=
  [1, 0, 4, 0, 80, 0, 0, 0] ++ List.replicate 64 0 ++ List.replicate 8 0xFF

/-- What the caller provided, over the defaults. -/
def copyPrefix (mem : Memory) (src : UInt64) (callerSize : Nat) (defaults : Bytes) : Bytes :=
  let n := min callerSize defaults.length
  mem.read src n ++ defaults.drop n

structure Slice where
  ptr : UInt64
  len : Nat

def sliceAt (b : Bytes) (offset : Nat) : Slice := ⟨ptrAt b offset, fieldAt b (offset + 8) 8⟩

def sliceBytes (mem : Memory) (s : Slice) : Option Bytes :=
  if s.len = 0 then some []
  else if s.ptr = 0 then none
  else some (mem.read s.ptr s.len)

/-- The fields of `Hyper4kClientRequest` that decide whether a request is accepted. -/
structure ClientRequest where
  method : Slice
  url : Slice
  headers : UInt64
  headerCount : Nat
  body : Slice

/-- The layout on a 64-bit target, little-endian. -/
def ClientRequest.decode (b : Bytes) : ClientRequest where
  method := sliceAt b 8
  url := sliceAt b 24
  headers := ptrAt b 40
  headerCount := fieldAt b 48 8
  body := sliceAt b 56

/-- The parts of a `hyper::Uri` that `send` asks for. -/
structure Uri where
  scheme : Option String
  host : Option String
  port : Option UInt16

/-- What `send` reads beside its arguments: the parsers of the `http` crate and the client's settings. -/
structure SendEnv where
  method : Bytes → Option Retry.Method
  uri : List Char → Option Uri
  http : HttpTypes
  http2Required : Bool
  tlsPool : Bool
  maxRetries : UInt32

structure RequestTemplate where
  method : Retry.Method
  host : String
  port : UInt16
  headers : List (Bytes × Bytes)
  body : Bytes

def RequestTemplate.validate (http : HttpTypes) (t : RequestTemplate) : Bool :=
  t.headers.all fun (n, v) => (http.headerName n).isSome && (http.headerValue v).isSome

def defaultPort : String → Option UInt16
  | "https" => some 443
  | "http" => some 80
  | _ => none

def readHeader (mem : Memory) (p : UInt64) : Option (Bytes × Bytes) :=
  let b := mem.read p 32
  match sliceBytes mem (sliceAt b 0), sliceBytes mem (sliceAt b 16) with
  | some n, some v => some (n, v)
  | _, _ => none

def readHeaders (mem : Memory) (headers : UInt64) (count : Nat) : Option (List (Bytes × Bytes)) :=
  if count = 0 then some []
  else if headers = 0 then none
  else (List.range count).mapM fun i => readHeader mem (headers + 32 * UInt64.ofNat i)

/-- A `let .. else` of `send`: what is missing is an invalid argument. -/
def orInvalid {α : Type} : Option α → Except Status α
  | some a => .ok a
  | none => .error .invalidArg

def refuseIf (c : Bool) (status : Status) : Except Status Unit := if c then .error status else .ok ()

/-- The checks of `send` after it has loaded `closed`, up to the template. -/
def ClientRequest.prepare (env : SendEnv) (mem : Memory) (r : ClientRequest) : Except Status RequestTemplate := do
  let methodBytes ← orInvalid (sliceBytes mem r.method)
  let urlBytes ← orInvalid (sliceBytes mem r.url)
  let method ← orInvalid (env.method methodBytes)
  let url ← orInvalid (fromUtf8 urlBytes)
  let uri ← orInvalid (env.uri url)
  let scheme := uri.scheme.getD ""
  let host ← orInvalid uri.host
  -- the argument of `unwrap_or` is evaluated first
  let fallback ← orInvalid (defaultPort scheme)
  let port := uri.port.getD fallback
  refuseIf (scheme ≠ "http" && scheme ≠ "https") .invalidArg
  refuseIf (scheme = "http" && env.http2Required) .unsupported
  let headers ← orInvalid (readHeaders mem r.headers r.headerCount)
  let body ← orInvalid (sliceBytes mem r.body)
  -- the transport is chosen before anything is registered
  refuseIf (scheme = "https" && !env.tlsPool) .unsupported
  let template : RequestTemplate := ⟨method, host, port, headers, body⟩
  refuseIf (!template.validate env.http) .invalidArg
  return template

/-- The C arguments; a callback is given by whether it is there. -/
structure SendCall where
  client : UInt64
  request : UInt64
  onHeaders : Bool
  onDone : Bool
  outRequestId : UInt64
  memory : Memory

/-- The checks of `send` before it looks at the client. -/
def SendCall.validate (x : SendCall) : Except Status ClientRequest :=
  if x.client = 0 || x.request = 0 || x.outRequestId = 0 then .error .invalidArg
  else if !x.onHeaders || !x.onDone then .error .invalidArg
  else
    let rawSize := littleEndian (x.memory.read (x.request + 4) 4)
    let rawAbi := littleEndian (x.memory.read x.request 4)
    match validateHeader rawAbi rawSize REQUEST_MIN_SIZE with
    | .ok => .ok (.decode (copyPrefix x.memory x.request rawSize defaultsRequest))
    | status => .error status

/-- What a request may hold in its queue counts against the client's ceiling. -/
def Config.queueBudget (cfg : Config) : Nat := cfg.queueCapacity * 64 * 1024

/-- The verdict on a request, and what `send` goes on with. -/
def ClientRequest.args (env : SendEnv) (cfg : Config) (mem : Memory) (r : ClientRequest) : SendArgs :=
  match r.prepare env mem with
  | .error status => ⟨some status, 0, ⟨false, 0⟩⟩
  | .ok t => ⟨none, t.body.length + cfg.queueBudget, ⟨Retry.isIdempotent t.method, env.maxRetries⟩⟩

section Verdicts
variable {α β : Type} {env : SendEnv} {cfg : Config}

def Refuses (x : Except Status α) : Prop := ∀ status, x = .error status → status ≠ .ok

theorem Refuses.bind {x : Except Status α} {f : α → Except Status β} (hx : Refuses x) (hf : ∀ a, Refuses (f a)) :
    Refuses (x >>= f) := by
  intro status h
  cases x with
  | error status' => exact hx status (by cases h; rfl)
  | ok a => exact hf a status h

theorem refuses_orInvalid (a : Option α) : Refuses (orInvalid a) := by
  intro status h
  cases a <;> cases h
  exact Status.noConfusion

theorem refuses_refuseIf (c : Bool) {status : Status} (hs : status ≠ .ok) : Refuses (refuseIf c status) := by
  intro status' h
  cases c <;> cases h
  exact hs

theorem ClientRequest.prepare_refuses (mem : Memory) (r : ClientRequest) : Refuses (r.prepare env mem) := by
  unfold ClientRequest.prepare
  refine (refuses_orInvalid _).bind fun methodBytes => ?_
  refine (refuses_orInvalid _).bind fun urlBytes => ?_
  refine (refuses_orInvalid _).bind fun method => ?_
  refine (refuses_orInvalid _).bind fun url => ?_
  refine (refuses_orInvalid _).bind fun uri => ?_
  refine (refuses_orInvalid _).bind fun host => ?_
  refine (refuses_orInvalid _).bind fun fallback => ?_
  refine (refuses_refuseIf _ Status.noConfusion).bind fun _ => ?_
  refine (refuses_refuseIf _ Status.noConfusion).bind fun _ => ?_
  refine (refuses_orInvalid _).bind fun headers => ?_
  refine (refuses_orInvalid _).bind fun body => ?_
  refine (refuses_refuseIf _ Status.noConfusion).bind fun _ => ?_
  refine (refuses_refuseIf _ Status.noConfusion).bind fun _ => ?_
  intro status h
  cases h

theorem SendCall.validate_refuses (x : SendCall) : Refuses x.validate := by
  intro status h
  simp only [SendCall.validate] at h
  split at h
  · cases h
    exact Status.noConfusion
  · split at h
    · cases h
      exact Status.noConfusion
    · split at h
      · cases h
      · rename_i hne
        cases h
        exact hne

theorem ClientRequest.args_refused {mem : Memory} {r : ClientRequest} {status : Status}
    (h : (r.args env cfg mem).refused = some status) : status ≠ .ok := by
  simp only [ClientRequest.args] at h
  split at h
  · rename_i he
    cases h
    exact r.prepare_refuses mem _ he
  · cases h

/-- What is reserved for a request that passed every check. -/
theorem ClientRequest.args_admitted {mem : Memory} {r : ClientRequest} (h : (r.args env cfg mem).refused = none) :
    ∃ t, r.prepare env mem = .ok t ∧ (r.args env cfg mem).bytes = t.body.length + cfg.queueBudget := by
  simp only [ClientRequest.args] at h ⊢
  cases hp : r.prepare env mem with
  | error status =>
    rw [hp] at h
    cases h
  | ok t => exact ⟨t, rfl, rfl⟩

end Verdicts

/-- A client and its callers. A call that was refused before it looked at the client has only its
status to return. -/
structure Submissions where
  client : Client
  refused : Nat → Option Status := fun _ => none

inductive SubmitAct
  | client (a : Act)
  | send (n : Nat) (x : SendCall)
  | leave (n : Nat)

/-- A `send` starts from its C arguments, and no caller starts a call before it has left the last. -/
def Submissions.allows (s : Submissions) : Act → Bool
  | .begin _ (.send _) => false
  | .begin n _ => s.refused n = none
  | _ => true

def Submissions.step (env : SendEnv) (cfg : Config) (s : Submissions) : SubmitAct → Option Submissions
  | .client a => if s.allows a then (s.client.step cfg a).map ({ s with client := · }) else none
  | .send n x =>
    if s.refused n = none ∧ s.client.calls n = .idle then
      match x.validate with
      | .error status => some { s with refused := Function.update s.refused n (some status) }
      | .ok r => (s.client.step cfg (.begin n (.send (r.args env cfg x.memory)))).map ({ s with client := · })
    else none
  | .leave n => if s.refused n = none then none else some { s with refused := Function.update s.refused n none }

def Submissions.returned (s : Submissions) (n : Nat) : Option Status :=
  match s.client.calls n with
  | .done status => some status
  | _ => s.refused n

inductive Submissions.Stepped (env : SendEnv) (cfg : Config) (s : Submissions) : SubmitAct → Submissions → Prop
  | client (a : Act) (u : Client) (allowed : s.allows a = true) (h : s.client.step cfg a = some u) :
    s.Stepped env cfg (.client a) { s with client := u }
  | refuse (n : Nat) (x : SendCall) (status : Status) (idle : s.client.calls n = .idle)
      (h : x.validate = .error status) :
    s.Stepped env cfg (.send n x) { s with refused := Function.update s.refused n (some status) }
  | enter (n : Nat) (x : SendCall) (r : ClientRequest) (free : s.refused n = none) (idle : s.client.calls n = .idle)
      (h : x.validate = .ok r) : s.Stepped env cfg (.send n x)
        { s with client := s.client.setCall n (.sending (r.args env cfg x.memory) .loadClosed) }
  | leave (n : Nat) (status : Status) (h : s.refused n = some status) :
    s.Stepped env cfg (.leave n) { s with refused := Function.update s.refused n none }

theorem Submissions.step_cases {env : SendEnv} {cfg : Config} {s t : Submissions} {b : SubmitAct}
    (h : s.step env cfg b = some t) : s.Stepped env cfg b t := by
  cases b with
  | client a =>
    simp only [Submissions.step] at h
    split at h
    · rename_i hallowed
      obtain ⟨u, hu, rfl⟩ := Option.map_eq_some_iff.mp h
      exact .client a u hallowed hu
    · cases h
  | send n x =>
    simp only [Submissions.step] at h
    split at h
    · rename_i hfree
      obtain ⟨hfree, hidle⟩ := hfree
      split at h
      · rename_i status hx
        cases h
        exact .refuse n x status hidle hx
      · rename_i r hx
        rw [Client.step, if_pos hidle] at h
        cases h
        exact .enter n x r hfree hidle hx
    · cases h
  | leave n =>
    simp only [Submissions.step] at h
    split at h
    · cases h
    · rename_i hsome
      cases h
      obtain ⟨status, hs⟩ := Option.ne_none_iff_exists'.mp hsome
      exact .leave n status hs

end Hyper4k.Bridge
