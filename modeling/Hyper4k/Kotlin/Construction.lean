import Hyper4k.Bridge.Settings
import Hyper4k.Bridge.Stores

/-! The constructor of `Hyper4kClient`, down to `hyper4k_client_new`. Only the options that are given are assigned to,
over the defaults of `hyper4k_client_options_init`. -/
namespace Hyper4k.Construction
open Bridge
open Text (Units utf8 fromUtf8)

/-- The size of an array is an `Int`. -/
structure Hyper4kClientOptions where
  connectTimeoutMillis : Option Int64 := none
  requestTimeoutMillis : Option Int64 := none
  readIdleTimeoutMillis : Option Int64 := none
  maxRetries : Option Int32 := none
  requireHttp2 : Bool := false
  customCaPem : Option Bytes := none
  replaceSystemCa : Bool := false
  proxyUrl : Option Units := none
  pem_size : (customCaPem.getD []).length < 2 ^ 31
  proxy_size : (utf8 (proxyUrl.getD [])).length < 2 ^ 31

/-- Where `memScoped` has allocated, and where the two arrays are pinned. -/
structure Frame where
  opts : UInt64
  out : UInt64
  pemPin : UInt64
  proxyPin : UInt64

inductive Field
  | flags | connectTimeoutMs | requestTimeoutMs | readIdleTimeoutMs | maxRetries
  | customCaPem | customCaPemLen | proxyUrl | proxyUrlLen
  deriving DecidableEq, Repr

def Field.offset : Field → Nat
  | .flags => 8
  | .connectTimeoutMs => 16
  | .requestTimeoutMs => 24
  | .readIdleTimeoutMs => 32
  | .maxRetries => 40
  | .customCaPem => 56
  | .customCaPemLen => 64
  | .proxyUrl => 72
  | .proxyUrlLen => 80

def Field.size : Field → Nat
  | .maxRetries => 4
  | _ => 8

def addressOfOrNull (pin : UInt64) (array : Bytes) : UInt64 := if array.isEmpty then 0 else pin

def Frame.place (f : Frame) (x : Field) : UInt64 := f.opts + UInt64.ofNat x.offset

namespace Hyper4kClientOptions
variable (k : Hyper4kClientOptions) (f : Frame)

def pem : Bytes := k.customCaPem.getD []

def proxy : Bytes := utf8 (k.proxyUrl.getD [])

def flags : UInt64 :=
  (if k.requireHttp2 then HYPER4K_CLIENT_HTTP2_REQUIRED else 0) |||
    (if k.replaceSystemCa then HYPER4K_CLIENT_CA_REPLACE_SYSTEM else 0)

def value : Field → Nat
  | .flags => k.flags.toNat
  | .connectTimeoutMs => (k.connectTimeoutMillis.getD 0).toUInt64.toNat
  | .requestTimeoutMs => (k.requestTimeoutMillis.getD 0).toUInt64.toNat
  | .readIdleTimeoutMs => (k.readIdleTimeoutMillis.getD 0).toUInt64.toNat
  | .maxRetries => (k.maxRetries.getD 0).toUInt32.toNat
  | .customCaPem => (addressOfOrNull f.pemPin k.pem).toNat
  | .customCaPemLen => k.pem.length
  | .proxyUrl => (addressOfOrNull f.proxyPin k.proxy).toNat
  | .proxyUrlLen => k.proxy.length

def given : Field → Bool
  | .connectTimeoutMs => k.connectTimeoutMillis.isSome
  | .requestTimeoutMs => k.requestTimeoutMillis.isSome
  | .readIdleTimeoutMs => k.readIdleTimeoutMillis.isSome
  | .maxRetries => k.maxRetries.isSome
  | _ => true

def assignments : List Field :=
  [.flags, .connectTimeoutMs, .requestTimeoutMs, .readIdleTimeoutMs, .maxRetries, .customCaPem, .customCaPemLen,
    .proxyUrl, .proxyUrlLen].filter k.given

def marshal (mem : Memory) : Memory :=
  (clientOptionsInit mem f.opts 88).2.assign f.place (fun x => leBytes x.size (k.value f x)) k.assignments

end Hyper4kClientOptions

/-- Nothing is allocated at null, the arrays are pinned where they are, and the struct does not lie over them. -/
structure Frame.Holds (f : Frame) (k : Hyper4kClientOptions) (mem : Memory) : Prop where
  allocated : f.opts ≠ 0 ∧ f.out ≠ 0
  pem : k.pem ≠ [] → f.pemPin ≠ 0 ∧ mem.read f.pemPin k.pem.length = k.pem ∧ Apart f.opts 88 f.pemPin k.pem.length
  proxy : k.proxy ≠ [] → f.proxyPin ≠ 0 ∧ mem.read f.proxyPin k.proxy.length = k.proxy ∧
    Apart f.opts 88 f.proxyPin k.proxy.length

section Marshalling
variable {k : Hyper4kClientOptions} {f : Frame} {mem : Memory}

theorem Field.bounds (x : Field) : 8 ≤ x.offset ∧ x.offset + x.size ≤ 88 := by
  cases x <;> decide

theorem Field.disjoint {x y : Field} (h : x ≠ y) : x.offset + x.size ≤ y.offset ∨ y.offset + y.size ≤ x.offset := by
  revert h
  cases x <;> cases y <;> decide

theorem Frame.apart_fields {x y : Field} (f : Frame) (h : x ≠ y) :
    Apart (f.place x) x.size (f.place y) y.size := by
  have hx := x.bounds.2
  have hy := y.bounds.2
  exact Bridge.apart_fields f.opts (Field.disjoint h) (by omega) (by omega)

theorem Hyper4kClientOptions.value_lt (k : Hyper4kClientOptions) (f : Frame) (x : Field) :
    k.value f x < 256 ^ x.size := by
  have hpointer : ∀ u : UInt64, u.toNat < 256 ^ 8 := fun u => u.toNat_lt
  have hsmall : ∀ n : Nat, n < 2 ^ 31 → n < 256 ^ 8 := fun n h => Nat.lt_trans h (by decide)
  cases x with
  | flags | connectTimeoutMs | requestTimeoutMs | readIdleTimeoutMs | customCaPem | proxyUrl => exact hpointer _
  | maxRetries => exact UInt32.toNat_lt _
  | customCaPemLen => exact hsmall _ k.pem_size
  | proxyUrlLen => exact hsmall _ k.proxy_size

theorem Frame.Holds.marshal_eq (hf : f.Holds k mem) :
    k.marshal f mem = (mem.write f.opts (clientOptions.defaults 88)).assign f.place
      (fun x => leBytes x.size (k.value f x)) k.assignments := by
  have hinit : clientOptionsInit mem f.opts 88 = (.ok, clientOptions.filled mem f.opts 88) :=
    clientOptions.initPrefix_eq hf.allocated.1 (by decide)
  have htake : (clientOptions.defaults 88).take (clientOptions.common 88) = clientOptions.defaults 88 := by decide
  rw [Versioned.filled, htake] at hinit
  rw [Hyper4kClientOptions.marshal, hinit]

theorem Frame.Holds.read_pinned (hf : f.Holds k mem) {p : UInt64} {n : Nat} (hn : n ≤ 2 ^ 64)
    (h : Apart f.opts 88 p n) : (k.marshal f mem).read p n = mem.read p n := by
  rw [hf.marshal_eq, Memory.read_assign_apart _ hn, Memory.read_write_apart _ hn]
  · rw [clientOptions.defaults_length]
    exact h
  · intro x _ a ha
    rw [leBytes_length] at ha
    exact h a (ha.field x.bounds.2 (by decide))

theorem Frame.Holds.header_kept (hf : f.Holds k mem) {i : Nat} (hi : i < 8) :
    k.marshal f mem (f.opts + UInt64.ofNat i) = clientOptions.filled mem f.opts 88 (f.opts + UInt64.ofNat i) := by
  have hinit : clientOptionsInit mem f.opts 88 = (.ok, clientOptions.filled mem f.opts 88) :=
    clientOptions.initPrefix_eq hf.allocated.1 (by decide)
  rw [Hyper4kClientOptions.marshal, hinit]
  apply Memory.assign_outside
  intro x _ hx
  rw [leBytes_length] at hx
  obtain ⟨hlow, hhigh⟩ := x.bounds
  have hheader : Within (f.opts + UInt64.ofNat 0) 8 (f.opts + UInt64.ofNat i) := by
    rw [show UInt64.ofNat 0 = 0 from rfl, UInt64.add_zero]
    exact within_add f.opts hi (by decide)
  exact Bridge.apart_fields f.opts (k := 0) (m := 8) (.inl hlow) (by decide) (by omega) _ hheader hx

def present (array : Bytes) : Option Bytes := if array.isEmpty then none else some array

end Marshalling

/-- A timeout in milliseconds: the default where none is given, and 0 disables. -/
def timeoutOf (default : UInt64) : Option Int64 → Option UInt64
  | none => some default
  | some ms => timeout ms.toUInt64

def Hyper4kClientOptions.settings {Cert : Type} (k : Hyper4kClientOptions) (env : NewEnv Cert) :
    Except NewStatus (Settings Cert) := do
  if !env.runtime then throw .oom
  let proxy ← readProxy env (present k.proxy)
  let tls ← tlsPool env ⟨present k.pem, k.replaceSystemCa, k.requireHttp2⟩
  return {
    connectTimeout := timeoutOf 10000 k.connectTimeoutMillis
    requestTimeout := timeoutOf 60000 k.requestTimeoutMillis
    readIdleTimeout := timeoutOf 60000 k.readIdleTimeoutMillis
    maxRetries := (k.maxRetries.map Int32.toUInt32).getD 2
    limits := .new DEFAULT_MAX_INFLIGHT DEFAULT_MAX_BUFFERED_BYTES
    http2Required := k.requireHttp2
    proxy, tls }

section Arrival
variable {k : Hyper4kClientOptions} {f : Frame} {mem : Memory}

end Arrival

section Outcomes
variable {Cert : Type} {env : NewEnv Cert} {k : Hyper4kClientOptions}

end Outcomes

/-- `http://p` as the proxy, without a connect timeout and without a bundle. -/
def viaProxy : Hyper4kClientOptions where
  connectTimeoutMillis := some 0
  requireHttp2 := true
  proxyUrl := some [0x68, 0x74, 0x74, 0x70, 0x3A, 0x2F, 0x2F, 0x70]
  pem_size := by decide
  proxy_size := by decide

end Hyper4k.Construction
