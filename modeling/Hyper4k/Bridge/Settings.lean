import Hyper4k.Bridge.Versioned

/-! `hyper4k_client_new`: the options of a client become its settings, or are refused. -/
namespace Hyper4k.Bridge
open Text (fromUtf8)

def HYPER4K_CLIENT_HTTP2_REQUIRED : UInt64 := 1

def HYPER4K_CLIENT_CA_REPLACE_SYSTEM : UInt64 := 2

/-- The parts of a `hyper::Uri` that a proxy's URL is asked for. -/
structure ProxyUri extends Uri where
  authority : Option (List Char)
  path : String
  query : Option String

structure ProxyTarget where
  host : String
  port : UInt16
  deriving DecidableEq, Repr

def ProxyTarget.parse (parseUri : List Char → Option ProxyUri) (raw : List Char) : Option ProxyTarget := do
  let uri ← parseUri raw
  guard (uri.scheme = some "http")
  let authority ← uri.authority
  guard ('@' ∉ authority)
  guard ((uri.path = "" ∨ uri.path = "/") ∧ uri.query = none)
  let host ← uri.host
  return ⟨host, uri.port.getD 80⟩

structure TlsOptions where
  customCaPem : Option Bytes
  replaceSystemRoots : Bool
  requireH2 : Bool

/-- The parts of a `rustls::ClientConfig` that the options decide on. -/
structure TlsConfig (Cert : Type) where
  roots : List Cert
  alpnProtocols : List Bytes

/-- What `new` reads beside its arguments: whether the runtime can be built, the parser of the `http` crate, the
certificates of the platform, those of a PEM bundle, and which of them a `RootCertStore` takes. -/
structure NewEnv (Cert : Type) where
  runtime : Bool
  uri : List Char → Option ProxyUri
  nativeCerts : List Cert
  certs : Bytes → List (Option Cert)
  takes : Cert → Bool

def H2 : Bytes := [0x68, 0x32]

def HTTP11 : Bytes := [0x68, 0x74, 0x74, 0x70, 0x2F, 0x31, 0x2E, 0x31]

section New
variable {Cert : Type} (env : NewEnv Cert)

/-- One item of a custom bundle. -/
def addCustom (item : Option Cert) : Except ErrorKind Cert :=
  match item with
  | some cert => if env.takes cert then .ok cert else .error .tlsCa
  | none => .error .tlsCa

def buildTlsConfig (opts : TlsOptions) : Except ErrorKind (TlsConfig Cert) := do
  let roots := if opts.replaceSystemRoots then [] else env.nativeCerts.filter env.takes
  if !opts.replaceSystemRoots && roots.isEmpty then throw .tlsOther
  let custom ← match opts.customCaPem with
    | none => pure []
    | some pem => do
      let added ← (env.certs pem).mapM (addCustom env)
      if added.isEmpty then throw .tlsCa
      pure added
  return ⟨roots ++ custom, if opts.requireH2 then [H2] else [H2, HTTP11]⟩

/-- Milliseconds, where 0 disables. -/
def timeout (ms : UInt64) : Option UInt64 := if ms = 0 then none else some ms

/-- The fields of `Hyper4kClient` that the options decide on. `tls` is the connector of `tls_pool`. -/
structure Settings (Cert : Type) where
  connectTimeout : Option UInt64
  requestTimeout : Option UInt64
  readIdleTimeout : Option UInt64
  maxRetries : UInt32
  limits : Limits
  http2Required : Bool
  proxy : Option ProxyTarget
  tls : Option (TlsConfig Cert)

/-- The statuses that `new` alone returns, and the others. -/
inductive NewStatus
  | status (s : Status)
  | unknownFlags
  | oom
  deriving DecidableEq, Repr

/-- A proxy that cannot be honoured is refused. -/
def readProxy (url : Option Bytes) : Except NewStatus (Option ProxyTarget) :=
  match url with
  | none => .ok none
  | some raw => match (fromUtf8 raw).bind (ProxyTarget.parse env.uri) with
    | some target => .ok (some target)
    | none => .error (.status .invalidArg)

/-- A bad bundle is refused; without any trust store plaintext still works. -/
def tlsPool (opts : TlsOptions) : Except NewStatus (Option (TlsConfig Cert)) :=
  match buildTlsConfig env opts with
  | .ok config => .ok (some config)
  | .error .tlsCa => .error (.status .invalidArg)
  | .error _ => .ok none

end New

section Trust
variable {Cert : Type} {env : NewEnv Cert}

end Trust

end Hyper4k.Bridge
