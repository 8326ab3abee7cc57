import Hyper4k.Bridge.Submit
import Hyper4k.Pooling.Acquire

/-! What `send` makes of a request that it accepts: its pool, its key and its template, and what an attempt hands to a
connection of either protocol. -/
namespace Hyper4k.Pooling
open Bridge
open Server (HeaderList HeaderMap asciiLower)
open Text (Grouped addBounded collect_concat collect_of_room fromUtf8)

/-- `c.pool` and `c.tls_pool`. -/
inductive Via
  | plain | tls
  deriving DecidableEq, Repr

def toAsciiLowercase (s : String) : String := .ofList (s.toList.map Char.toLower)

def PoolKey.new (scheme host : String) (port : UInt16) : PoolKey :=
  ⟨toAsciiLowercase scheme, toAsciiLowercase host, port⟩

def asciiBytes (text : List Char) : Bytes := text.map fun c => .ofNat c.toNat

/-- What else of the `http` crate a request meets: `HeaderValue::from_str` and the path and query of a URL. -/
structure BuildEnv extends SendEnv where
  viaProxy : Bool
  textValue : List Char → Option Bytes
  pathAndQuery : List Char → Option (List Char)
  text_same : ∀ {s v}, textValue s = some v → v = asciiBytes s

/-- The template with the parts that decide where and how it goes out. A `hyper::Uri` is known by its text. -/
structure Outgoing where
  via : Via
  key : PoolKey
  template : RequestTemplate
  uri : List Char
  absoluteForm : Bool

/-- `format!("{host}:{port}")`. -/
def Outgoing.authority (o : Outgoing) : List Char :=
  o.template.host.toList ++ ':' :: Nat.toDigits 10 o.template.port.toNat

/-- `send` from the load of `closed` to the key. -/
def outgoing (env : BuildEnv) (mem : Memory) (r : ClientRequest) : Except Status Outgoing := do
  let methodBytes ← orInvalid (sliceBytes mem r.method)
  let urlBytes ← orInvalid (sliceBytes mem r.url)
  let method ← orInvalid (env.method methodBytes)
  let url ← orInvalid (fromUtf8 urlBytes)
  let uri ← orInvalid (env.uri url)
  let scheme := uri.scheme.getD ""
  let host ← orInvalid uri.host
  let fallback ← orInvalid (defaultPort scheme)
  let port := uri.port.getD fallback
  refuseIf (scheme ≠ "http" && scheme ≠ "https") .invalidArg
  refuseIf (scheme = "http" && env.http2Required) .unsupported
  let headers ← orInvalid (readHeaders mem r.headers r.headerCount)
  let body ← orInvalid (sliceBytes mem r.body)
  refuseIf (scheme = "https" && !env.tlsPool) .unsupported
  let template : RequestTemplate := ⟨method, host, port, headers, body⟩
  refuseIf (!template.validate env.http) .invalidArg
  return { via := if scheme = "https" then .tls else .plain
           key := .new scheme host port
           template
           uri := url
           absoluteForm := env.viaProxy && scheme = "http" }

structure Request where
  method : Retry.Method
  uri : List Char
  headers : HeaderMap
  body : Bytes
  deriving DecidableEq

def HOST : Bytes := [0x68, 0x6F, 0x73, 0x74]

def eqIgnoreAsciiCase (a b : Bytes) : Bool := a.map asciiLower == b.map asciiLower

/-- `Builder::header`; the builder keeps the first error, and a map that is full is one. -/
def builderHeader (b : Option HeaderMap) (name value : Option Bytes) : Option HeaderMap := do
  let map ← b
  let name ← name
  let value ← value
  addBounded HeaderMap.capacity map (name, value)

/-- One round of the loop of `build`. -/
def BuildEnv.buildHeader (env : BuildEnv) (acc : Option HeaderMap × Bool) (h : Bytes × Bytes) :
    Option HeaderMap × Bool :=
  (builderHeader acc.1 (env.http.headerName h.1) (env.http.headerValue h.2), acc.2 || eqIgnoreAsciiCase h.1 HOST)

def Outgoing.build (env : BuildEnv) (o : Outgoing) : Option Request :=
  let (b, sawHost) := o.template.headers.foldl env.buildHeader (some [], false)
  let b := if sawHost then b else builderHeader b (env.http.headerName HOST) (env.textValue o.authority)
  b.map fun headers => ⟨o.template.method, o.uri, headers, o.template.body⟩

def Via.scheme : Via → String
  | .plain => "http"
  | .tls => "https"

def Via.defaultPort : Via → UInt16
  | .plain => 80
  | .tls => 443

structure Outgoing.Accepted (env : BuildEnv) (o : Outgoing) : Prop where
  uri : ∃ uri, env.uri o.uri = some uri ∧ uri.scheme = some o.via.scheme ∧ uri.host = some o.template.host ∧
    uri.port.getD o.via.defaultPort = o.template.port
  key : o.key = .new o.via.scheme o.template.host o.template.port
  plain : o.via = .plain → env.http2Required = false
  tls : o.via = .tls → env.tlsPool = true
  form : o.absoluteForm = (env.viaProxy && o.via == .plain)
  valid : o.template.validate env.http = true

section Checks
variable {α β : Type} {env : BuildEnv}

theorem ok_of_bind {ε : Type} {x : Except ε α} {f : α → Except ε β} {b : β} (h : x >>= f = .ok b) :
    ∃ a, x = .ok a ∧ f a = .ok b := by
  cases x with
  | error status => cases h
  | ok a => exact ⟨a, rfl, h⟩

theorem orInvalid_ok {x : Option α} {a : α} (h : orInvalid x = .ok a) : x = some a := by
  cases x <;> cases h
  rfl

theorem refuseIf_ok {c : Bool} {status : Status} {u : Unit} (h : refuseIf c status = .ok u) : c = false := by
  cases c
  · rfl
  · cases h

/-- The checks are those that decide on the request. -/
theorem outgoing_template (mem : Memory) (r : ClientRequest) :
    Outgoing.template <$> outgoing env mem r = r.prepare env.toSendEnv mem := by
  simp only [outgoing, ClientRequest.prepare, map_bind, map_pure]

/-- The checks that a request has passed, and what came of it. -/
theorem outgoing_checked {mem : Memory} {r : ClientRequest} {o : Outgoing} (h : outgoing env mem r = .ok o) :
    ∃ uri fallback, env.uri o.uri = some uri ∧ uri.host = some o.template.host ∧
      defaultPort (uri.scheme.getD "") = some fallback ∧
      (uri.scheme.getD "" ≠ "http" && uri.scheme.getD "" ≠ "https") = false ∧
      (uri.scheme.getD "" = "http" && env.http2Required) = false ∧
      (uri.scheme.getD "" = "https" && !env.tlsPool) = false ∧ (!o.template.validate env.http) = false ∧
      o.template.port = uri.port.getD fallback ∧ o.via = (if uri.scheme.getD "" = "https" then .tls else .plain) ∧
      o.key = .new (uri.scheme.getD "") o.template.host o.template.port ∧
      o.absoluteForm = (env.viaProxy && uri.scheme.getD "" = "http") := by
  obtain ⟨methodBytes, -, h⟩ := ok_of_bind h
  obtain ⟨urlBytes, -, h⟩ := ok_of_bind h
  obtain ⟨method, -, h⟩ := ok_of_bind h
  obtain ⟨url, -, h⟩ := ok_of_bind h
  obtain ⟨uri, huri, h⟩ := ok_of_bind h
  obtain ⟨host, hhost, h⟩ := ok_of_bind h
  obtain ⟨fallback, hfallback, h⟩ := ok_of_bind h
  obtain ⟨_, hscheme, h⟩ := ok_of_bind h
  obtain ⟨_, hrequired, h⟩ := ok_of_bind h
  obtain ⟨headers, -, h⟩ := ok_of_bind h
  obtain ⟨body, -, h⟩ := ok_of_bind h
  obtain ⟨_, htls, h⟩ := ok_of_bind h
  obtain ⟨_, hvalid, h⟩ := ok_of_bind h
  cases h
  exact ⟨uri, fallback, orInvalid_ok huri, orInvalid_ok hhost, orInvalid_ok hfallback, refuseIf_ok hscheme,
    refuseIf_ok hrequired, refuseIf_ok htls, refuseIf_ok hvalid, rfl, rfl, rfl, rfl⟩

theorem outgoing_accepted {mem : Memory} {r : ClientRequest} {o : Outgoing} (h : outgoing env mem r = .ok o) :
    o.Accepted env := by
  obtain ⟨uri, fallback, huri, hhost, hfallback, hscheme, hrequired, htls, hvalid, hport, hvia, hkey, hform⟩ :=
    outgoing_checked h
  have hscheme : uri.scheme = some o.via.scheme := by
    cases hs : uri.scheme with
    | none =>
      rw [hs] at hscheme
      exact absurd hscheme (by decide)
    | some scheme =>
      rw [hs, Option.getD_some] at hscheme hvia
      by_cases hplain : scheme = "http"
      · rw [hvia, hplain]
        rfl
      · have hsecure : scheme = "https" := by simpa [hplain] using hscheme
        rw [hvia, hsecure]
        rfl
  rw [hscheme, Option.getD_some] at hfallback hrequired htls hkey hform
  rw [Bool.not_eq_false'] at hvalid
  refine ⟨⟨uri, huri, hscheme, hhost, ?_⟩, hkey, fun hplain => ?_, fun hsecure => ?_, ?_, hvalid⟩
  · rw [hport]
    congr 1
    cases hv : o.via <;> rw [hv] at hfallback <;> exact Option.some.inj hfallback
  · rw [hplain] at hrequired
    simpa [Via.scheme] using hrequired
  · rw [hsecure] at htls
    simpa [Via.scheme] using htls
  · rw [hform]
    congr 1
    cases o.via <;> decide

end Checks

def sentHeader (h : Bytes × Bytes) : Bytes × Bytes := (h.1.map asciiLower, h.2)

def namesHost (t : RequestTemplate) : Bool := t.headers.any fun h => eqIgnoreAsciiCase h.1 HOST

/-- The headers that go out: the caller's, and the authority of the URL where the caller names no host. -/
def Outgoing.fields (o : Outgoing) : HeaderList :=
  o.template.headers.map sentHeader ++
    if namesHost o.template then [] else [(HOST, asciiBytes o.authority)]

/-- The caller names a host, or the authority can be one. -/
def Outgoing.hosted (env : BuildEnv) (o : Outgoing) : Bool :=
  namesHost o.template || (env.http.headerName HOST).isSome && (env.textValue o.authority).isSome

section Build
variable {env : BuildEnv} {b : Option HeaderMap} {o : Outgoing}

theorem buildHeader_sawHost (l : List (Bytes × Bytes)) (saw : Bool) :
    (l.foldl env.buildHeader (b, saw)).2 = (saw || l.any fun h => eqIgnoreAsciiCase h.1 HOST) := by
  induction l generalizing b saw with
  | nil => exact (Bool.or_false saw).symm
  | cons h l ih => rw [List.foldl_cons, List.any_cons, ← Bool.or_assoc]; exact ih ..

/-- Headers that `validate` lets through are appended one after another. -/
theorem buildHeader_valid {l : List (Bytes × Bytes)} (saw : Bool)
    (hl : ∀ x ∈ l, (env.http.headerName x.1).isSome ∧ (env.http.headerValue x.2).isSome) :
    (l.foldl env.buildHeader (b, saw)).1 =
      b.bind fun map => (l.map sentHeader).foldlM (addBounded HeaderMap.capacity) map := by
  induction l generalizing b saw with
  | nil => cases b <;> rfl
  | cons x l ih =>
    obtain ⟨hname, hvalue⟩ := hl x List.mem_cons_self
    obtain ⟨n, hn⟩ := Option.isSome_iff_exists.mp hname
    obtain ⟨v, hv⟩ := Option.isSome_iff_exists.mp hvalue
    rw [List.foldl_cons, BuildEnv.buildHeader, ih _ fun y hy => hl y (List.mem_cons_of_mem _ hy), hn, hv,
      env.http.name_lower hn, env.http.value_same hv, List.map_cons]
    cases b with
    | none => rfl
    | some map => rw [Option.bind_some, List.foldlM_cons]; rfl

/-- A request that `validate` lets through is built from the caller's words, unless there is no host to name or the map
is full. -/
theorem Outgoing.Accepted.build_eq (h : o.Accepted env) : o.build env = if o.hosted env then
    (HeaderMap.ofList o.fields).map fun headers => ⟨o.template.method, o.uri, headers, o.template.body⟩ else none := by
  have hvalid : ∀ x ∈ o.template.headers, (env.http.headerName x.1).isSome ∧ (env.http.headerValue x.2).isSome := by
    simpa [RequestTemplate.validate] using h.valid
  have hloop : (o.template.headers.foldl env.buildHeader (some [], false)).1 =
      HeaderMap.ofList (o.template.headers.map sentHeader) := buildHeader_valid false hvalid
  simp only [Outgoing.build, buildHeader_sawHost, Bool.false_or, hloop]
  unfold Outgoing.hosted Outgoing.fields namesHost
  cases o.template.headers.any fun h => eqIgnoreAsciiCase h.1 HOST with
  | true => rw [if_pos rfl, if_pos rfl, if_pos (Bool.true_or _), List.append_nil]
  | false =>
    rw [if_neg Bool.false_ne_true, if_neg Bool.false_ne_true, Bool.false_or]
    cases hname : env.http.headerName HOST with
    | none => cases HeaderMap.ofList (o.template.headers.map sentHeader) <;> rfl
    | some n =>
      obtain rfl : n = HOST := env.http.name_lower hname
      cases hvalue : env.textValue o.authority with
      | none => cases HeaderMap.ofList (o.template.headers.map sentHeader) <;> rfl
      | some v =>
        obtain rfl := env.text_same hvalue
        have hconcat : HeaderMap.ofList (o.template.headers.map sentHeader ++ [(HOST, asciiBytes o.authority)]) =
            builderHeader (HeaderMap.ofList (o.template.headers.map sentHeader)) (some HOST)
              (some (asciiBytes o.authority)) := collect_concat _ _
        rw [hconcat]
        rfl

/-- A request that is built is the caller's, with the values of each header name in order. -/
theorem Outgoing.Accepted.built (h : o.Accepted env) {req : Request} (hreq : o.build env = some req) :
    req = ⟨o.template.method, o.uri, req.headers, o.template.body⟩ ∧ Grouped o.fields req.headers := by
  rw [h.build_eq] at hreq
  split at hreq
  · obtain ⟨headers, hheaders, rfl⟩ := Option.map_eq_some_iff.mp hreq
    exact ⟨rfl, (Grouped.of_collect hheaders).1⟩
  · cases hreq

end Build

end Hyper4k.Pooling
