import Hyper4k.Bridge.Stores

/-! `Hyper4kClient.send` down to its native call. Every array is pinned, a C struct and an array of headers point at
the pins, and `hyper4k_client_send` copies out what they point at. -/
namespace Hyper4k.Marshal
open Bridge
open Text (Units utf8)

def arrays (method url : Units) (headers : List (Units × Units)) (body : Bytes) : List Bytes :=
  [utf8 method, utf8 url] ++ headers.map (utf8 ·.1) ++ headers.map (utf8 ·.2) ++ [body]

/-- The size of a list or an array is an `Int`. -/
structure Hyper4kClientRequest where
  method : Units
  url : Units
  headers : List (Units × Units) := []
  body : Bytes := []
  readIdleTimeoutMillis : Option Int64 := none
  headers_size : headers.length < 2 ^ 31
  array_size : ∀ a ∈ arrays method url headers body, a.length < 2 ^ 31

structure Frame where
  req : UInt64
  headerArray : UInt64
  out : UInt64
  pins : Nat → UInt64

/-- What `send` assigns to: the fields of `req`, and those of the header `h`. -/
inductive Place
  | readIdleTimeoutMs
  | methodPtr | methodLen | urlPtr | urlLen
  | namePtr (h : Nat) | nameLen (h : Nat) | valuePtr (h : Nat) | valueLen (h : Nat)
  | headers | headerCount | bodyPtr | bodyLen
  deriving DecidableEq, Repr

/-- The layout in words of eight bytes. The second component counts from `headerArray` if the first is set, and
from `req` otherwise. -/
def Place.word : Place → Bool × Nat
  | .methodPtr => (false, 1)
  | .methodLen => (false, 2)
  | .urlPtr => (false, 3)
  | .urlLen => (false, 4)
  | .headers => (false, 5)
  | .headerCount => (false, 6)
  | .bodyPtr => (false, 7)
  | .bodyLen => (false, 8)
  | .readIdleTimeoutMs => (false, 9)
  | .namePtr h => (true, 4 * h)
  | .nameLen h => (true, 4 * h + 1)
  | .valuePtr h => (true, 4 * h + 2)
  | .valueLen h => (true, 4 * h + 3)

namespace Frame

def base (f : Frame) (array : Bool) : UInt64 := if array then f.headerArray else f.req

def place (f : Frame) (p : Place) : UInt64 := f.base p.word.1 + UInt64.ofNat (8 * p.word.2)

def addressOfOrNull (f : Frame) (i : Nat) (array : Bytes) : UInt64 := if array.isEmpty then 0 else f.pins i

end Frame

namespace Hyper4kClientRequest
variable (k : Hyper4kClientRequest) (f : Frame)

def name (h : Nat) : Bytes := (k.headers[h]?.map (utf8 ·.1)).getD []

def headerValue (h : Nat) : Bytes := (k.headers[h]?.map (utf8 ·.2)).getD []

def value : Place → Nat
  | .readIdleTimeoutMs => (k.readIdleTimeoutMillis.getD 0).toUInt64.toNat
  | .methodPtr => (f.addressOfOrNull 0 (utf8 k.method)).toNat
  | .methodLen => (utf8 k.method).length
  | .urlPtr => (f.addressOfOrNull 1 (utf8 k.url)).toNat
  | .urlLen => (utf8 k.url).length
  | .namePtr h => (f.addressOfOrNull (h + 2) (k.name h)).toNat
  | .nameLen h => (k.name h).length
  | .valuePtr h => (f.addressOfOrNull (k.headers.length + h + 2) (k.headerValue h)).toNat
  | .valueLen h => (k.headerValue h).length
  | .headers => (if k.headers.isEmpty then 0 else f.headerArray).toNat
  | .headerCount => k.headers.length
  | .bodyPtr => (f.addressOfOrNull (k.headers.length + k.headers.length + 2) k.body).toNat
  | .bodyLen => k.body.length

def assignments : List Place :=
  (if k.readIdleTimeoutMillis.isSome then [Place.readIdleTimeoutMs] else []) ++
    [Place.methodPtr, .methodLen, .urlPtr, .urlLen] ++
    (List.range k.headers.length).flatMap (fun h => [Place.namePtr h, .nameLen h]) ++
    (List.range k.headers.length).flatMap (fun h => [Place.valuePtr h, .valueLen h]) ++
    [Place.headers, .headerCount, .bodyPtr, .bodyLen]

/-- The memory at the native call: `hyper4k_client_request_init`, then the assignments. -/
def marshal (mem : Memory) : Memory :=
  (clientRequestInit mem f.req 80).2.assign f.place (fun p => leBytes 8 (k.value f p)) k.assignments

def sendCall (mem : Memory) (handle : UInt64) : SendCall where
  client := handle
  request := f.req
  onHeaders := true
  onDone := true
  outRequestId := f.out
  memory := k.marshal f mem

end Hyper4kClientRequest

/-- Nothing is allocated at null, the arrays are pinned where they are, and neither struct lies over the other or over
a pinned array. -/
structure Frame.Holds (f : Frame) (k : Hyper4kClientRequest) (mem : Memory) : Prop where
  allocated : f.req ≠ 0 ∧ f.headerArray ≠ 0 ∧ f.out ≠ 0
  apart : Apart f.req 80 f.headerArray (32 * k.headers.length)
  pinned : ∀ i a, (arrays k.method k.url k.headers k.body)[i]? = some a → a ≠ [] →
    f.pins i ≠ 0 ∧ mem.read (f.pins i) a.length = a ∧ Apart f.req 80 (f.pins i) a.length ∧
      Apart f.headerArray (32 * k.headers.length) (f.pins i) a.length

section Marshalling
variable {k : Hyper4kClientRequest} {f : Frame} {mem : Memory}

theorem Place.word_injective : Function.Injective Place.word := by
  intro p q h
  cases p <;> cases q <;> simp [Place.word] at h ⊢ <;> omega

theorem Place.one_le_word {p : Place} (h : p.word.1 = false) : 1 ≤ p.word.2 := by
  cases p <;> cases h <;> decide

def Hyper4kClientRequest.extent (k : Hyper4kClientRequest) (array : Bool) : Nat :=
  if array then 32 * k.headers.length else 80

theorem Hyper4kClientRequest.extent_le (k : Hyper4kClientRequest) (array : Bool) : k.extent array ≤ 2 ^ 64 := by
  have hsize := k.headers_size
  unfold Hyper4kClientRequest.extent
  split <;> omega

def Hyper4kClientRequest.Covers (k : Hyper4kClientRequest) (p : Place) : Prop :=
  8 * p.word.2 + 8 ≤ k.extent p.word.1

theorem Hyper4kClientRequest.covers_assigned {p : Place} (hp : p ∈ k.assignments) : k.Covers p := by
  cases p <;>
    simp [Hyper4kClientRequest.assignments, Hyper4kClientRequest.Covers, Hyper4kClientRequest.extent, Place.word]
      at hp ⊢ <;> omega

theorem Frame.within_base {p : Place} (hp : k.Covers p) {a : UInt64} (ha : Within (f.place p) 8 a) :
    Within (f.base p.word.1) (k.extent p.word.1) a :=
  ha.field hp (k.extent_le _)

theorem Frame.Holds.apart_bases (hf : f.Holds k mem) {b c : Bool} (hne : b ≠ c) :
    Apart (f.base b) (k.extent b) (f.base c) (k.extent c) := by
  cases b <;> cases c
  · exact absurd rfl hne
  · exact hf.apart
  · exact hf.apart.symm
  · exact absurd rfl hne

theorem Frame.Holds.apart_places (hf : f.Holds k mem) {p q : Place} (hp : k.Covers p) (hq : k.Covers q)
    (hne : p ≠ q) : Apart (f.place p) 8 (f.place q) 8 := by
  by_cases hbase : p.word.1 = q.word.1
  · have hword : p.word.2 ≠ q.word.2 := fun h => hne (Place.word_injective (Prod.ext hbase h))
    unfold Hyper4kClientRequest.Covers at hp hq
    have hple := k.extent_le p.word.1
    have hqle := k.extent_le q.word.1
    rw [Frame.place, Frame.place, hbase]
    apply apart_fields <;> omega
  · intro a hpa hqa
    exact hf.apart_bases hbase a (Frame.within_base hp hpa) (Frame.within_base hq hqa)

section Arrays
variable (k : Hyper4kClientRequest)

theorem Hyper4kClientRequest.getElem?_arrays {h : Nat} (hh : h < k.headers.length) :
    (arrays k.method k.url k.headers k.body)[h + 2]? = some (k.name h) ∧
    (arrays k.method k.url k.headers k.body)[k.headers.length + h + 2]? = some (k.headerValue h) := by
  simp [arrays, Hyper4kClientRequest.name, Hyper4kClientRequest.headerValue, List.getElem?_append, hh]

theorem Hyper4kClientRequest.getElem?_body :
    (arrays k.method k.url k.headers k.body)[k.headers.length + k.headers.length + 2]? = some k.body := by
  simp [arrays]

theorem Hyper4kClientRequest.length_lt {i : Nat} {a : Bytes}
    (h : (arrays k.method k.url k.headers k.body)[i]? = some a) : a.length < 2 ^ 31 :=
  k.array_size a (List.mem_of_getElem? h)

end Arrays

theorem Hyper4kClientRequest.value_lt (f : Frame) {p : Place} (hp : p ∈ k.assignments) : k.value f p < 256 ^ 8 := by
  have hpointer : ∀ u : UInt64, u.toNat < 256 ^ 8 := fun u => u.toNat_lt
  have hsmall : ∀ n : Nat, n < 2 ^ 31 → n < 256 ^ 8 := fun n h => Nat.lt_trans h (by decide)
  cases p with
  | readIdleTimeoutMs | methodPtr | urlPtr | namePtr | valuePtr | headers | bodyPtr => exact hpointer _
  | methodLen => exact hsmall _ (k.length_lt (i := 0) rfl)
  | urlLen => exact hsmall _ (k.length_lt (i := 1) rfl)
  | nameLen h =>
    have hh : h < k.headers.length := by simpa [Hyper4kClientRequest.assignments] using hp
    exact hsmall _ (k.length_lt (k.getElem?_arrays hh).1)
  | valueLen h =>
    have hh : h < k.headers.length := by simpa [Hyper4kClientRequest.assignments] using hp
    exact hsmall _ (k.length_lt (k.getElem?_arrays hh).2)
  | headerCount => exact hsmall _ k.headers_size
  | bodyLen => exact hsmall _ (k.length_lt k.getElem?_body)

/-- The memory that `request_init` leaves. -/
theorem Frame.Holds.init_eq (hf : f.Holds k mem) :
    clientRequestInit mem f.req 80 = (.ok, mem.write f.req (clientRequest.defaults 80)) := by
  have hinit : clientRequestInit mem f.req 80 = (.ok, clientRequest.filled mem f.req 80) :=
    clientRequest.initPrefix_eq hf.allocated.1 (by decide)
  have htake : (clientRequest.defaults 80).take (clientRequest.common 80) = clientRequest.defaults 80 := by decide
  rw [Versioned.filled, htake] at hinit
  exact hinit

theorem Frame.Holds.marshal_eq (hf : f.Holds k mem) :
    k.marshal f mem = (mem.write f.req (clientRequest.defaults 80)).assign f.place
      (fun p => leBytes 8 (k.value f p)) k.assignments := by
  rw [Hyper4kClientRequest.marshal, hf.init_eq]

theorem Frame.Holds.read_place (hf : f.Holds k mem) {p : Place} (hp : p ∈ k.assignments) :
    littleEndian ((k.marshal f mem).read (f.place p) 8) = k.value f p := by
  have hread := Memory.read_assign (mem.write f.req (clientRequest.defaults 80)) f.place
    (fun p => leBytes 8 (k.value f p)) hp (by rw [leBytes_length]; decide)
    (fun q hq hne => by rw [leBytes_length, leBytes_length]; exact hf.apart_places (k.covers_assigned hq) (k.covers_assigned hp) hne)
  rw [leBytes_length] at hread
  rw [hf.marshal_eq, hread, littleEndian_leBytes]
  exact Nat.mod_eq_of_lt (k.value_lt f hp)

theorem Frame.place_req (f : Frame) {p : Place} {n : Nat} (hreq : p.word.1 = false) (hn : 8 * p.word.2 = n) :
    f.place p = f.req + UInt64.ofNat n := by
  rw [Frame.place, hreq, hn]
  rfl

theorem Frame.Holds.read_pinned (hf : f.Holds k mem) {i : Nat} {a : Bytes}
    (ha : (arrays k.method k.url k.headers k.body)[i]? = some a) (hne : a ≠ []) :
    (k.marshal f mem).read (f.pins i) a.length = a := by
  obtain ⟨-, hread, hreq, harray⟩ := hf.pinned i a ha hne
  have hlen : a.length ≤ 2 ^ 64 := Nat.le_of_lt (Nat.lt_trans (k.length_lt ha) (by decide))
  have hbase : ∀ b, Apart (f.base b) (k.extent b) (f.pins i) a.length := Bool.forall_bool.mpr ⟨hreq, harray⟩
  rw [hf.marshal_eq, Memory.read_assign_apart _ hlen, Memory.read_write_apart _ hlen, hread]
  · rw [clientRequest.defaults_length]
    exact hreq
  · intro p hp b hb
    rw [leBytes_length] at hb
    exact hbase _ b (Frame.within_base (k.covers_assigned hp) hb)

theorem Frame.Holds.slice_pinned (hf : f.Holds k mem) {i : Nat} {a : Bytes}
    (ha : (arrays k.method k.url k.headers k.body)[i]? = some a) :
    sliceBytes (k.marshal f mem) ⟨f.addressOfOrNull i a, a.length⟩ = some a := by
  by_cases hne : a = []
  · subst hne
    rfl
  · obtain ⟨hpin, -⟩ := hf.pinned i a ha hne
    have haddr : f.addressOfOrNull i a = f.pins i := by simp [Frame.addressOfOrNull, hne]
    rw [sliceBytes, haddr, if_neg (by simpa using hne), if_neg hpin]
    exact congrArg some (hf.read_pinned ha hne)

theorem Frame.Holds.field (hf : f.Holds k mem) {p : Place} (hp : p ∈ k.assignments) {n : Nat}
    (hreq : p.word.1 = false) (hn : 8 * p.word.2 = n) :
    fieldAt ((k.marshal f mem).read f.req 80) n 8 = k.value f p := by
  have hsize : n + 8 ≤ 80 := by
    have hcovers := k.covers_assigned hp
    rw [Hyper4kClientRequest.Covers, hreq, hn] at hcovers
    exact hcovers
  rw [Memory.fieldAt_read _ _ hsize, ← hf.read_place hp, f.place_req hreq hn]

theorem Frame.Holds.slice_field (hf : f.Holds k mem) {p q : Place} (hp : p ∈ k.assignments) (hq : q ∈ k.assignments)
    {n : Nat} (hword : p.word.1 = false ∧ 8 * p.word.2 = n)
    (hnext : q.word.1 = false ∧ 8 * q.word.2 = n + 8) {u : UInt64} (hu : k.value f p = u.toNat) :
    sliceAt ((k.marshal f mem).read f.req 80) n = ⟨u, k.value f q⟩ := by
  rw [sliceAt, ptrAt, hf.field hp hword.1 hword.2, hf.field hq hnext.1 hnext.2, hu, UInt64.ofNat_toNat]

theorem Frame.header_place (f : Frame) (h j : Nat) :
    f.headerArray + 32 * UInt64.ofNat h + UInt64.ofNat (8 * j) = f.headerArray + UInt64.ofNat (8 * (4 * h + j)) := by
  have hsplit : 8 * (4 * h + j) = 32 * h + 8 * j := by omega
  rw [hsplit, UInt64.ofNat_add, UInt64.ofNat_mul 32 h, UInt64.add_assoc]
  rfl

theorem Frame.Holds.slice_header (hf : f.Holds k mem) {h j : Nat} {p q : Place} (hp : p ∈ k.assignments)
    (hq : q ∈ k.assignments) (hj : 8 * j + 16 ≤ 32) (hword : p.word = (true, 4 * h + j))
    (hnext : q.word = (true, 4 * h + (j + 1))) {u : UInt64} (hu : k.value f p = u.toNat) :
    sliceAt ((k.marshal f mem).read (f.headerArray + 32 * UInt64.ofNat h) 32) (8 * j) = ⟨u, k.value f q⟩ := by
  have hptr := hf.read_place hp
  have hlen := hf.read_place hq
  rw [Frame.place, hword] at hptr
  rw [Frame.place, hnext] at hlen
  rw [Memory.sliceAt_read _ _ hj, f.header_place h j, show 8 * j + 8 = 8 * (j + 1) from rfl, f.header_place h (j + 1)]
  refine congr (congrArg Slice.mk ?_) hlen
  exact (congrArg UInt64.ofNat (hptr.trans hu)).trans UInt64.ofNat_toNat

theorem Frame.Holds.readHeader_eq (hf : f.Holds k mem) {h : Nat} (hh : h < k.headers.length) :
    readHeader (k.marshal f mem) (f.headerArray + 32 * UInt64.ofNat h) = some (k.name h, k.headerValue h) := by
  obtain ⟨hname, hvalue⟩ := k.getElem?_arrays hh
  have hmem : ∀ p ∈ [Place.namePtr h, .nameLen h, .valuePtr h, .valueLen h], p ∈ k.assignments := by
    simp [Hyper4kClientRequest.assignments, hh]
  have hn := hf.slice_header (h := h) (j := 0) (hmem (.namePtr h) (by simp)) (hmem (.nameLen h) (by simp)) (by decide)
    rfl rfl rfl
  have hv := hf.slice_header (h := h) (j := 2) (hmem (.valuePtr h) (by simp)) (hmem (.valueLen h) (by simp)) (by decide)
    rfl rfl rfl
  have hnbytes := hf.slice_pinned hname
  have hvbytes := hf.slice_pinned hvalue
  simp only [readHeader]
  rw [hn, hv]
  simp only [Hyper4kClientRequest.value]
  rw [hnbytes, hvbytes]

theorem mapM_some {α β : Type} {l : List α} {g : α → Option β} {h : α → β} (hg : ∀ x ∈ l, g x = some (h x)) :
    l.mapM g = some (l.map h) := by
  induction l with
  | nil => rfl
  | cons x l ih =>
    rw [List.mapM_cons, hg x List.mem_cons_self, ih fun y hy => hg y (List.mem_cons_of_mem x hy)]
    rfl

def Hyper4kClientRequest.headerBytes (k : Hyper4kClientRequest) : List (Bytes × Bytes) :=
  k.headers.map fun (name, value) => (utf8 name, utf8 value)

theorem Hyper4kClientRequest.headerBytes_eq (k : Hyper4kClientRequest) :
    (List.range k.headers.length).map (fun h => (k.name h, k.headerValue h)) = k.headerBytes := by
  apply List.ext_getElem?
  intro h
  by_cases hh : h < k.headers.length
  · simp [Hyper4kClientRequest.headerBytes, Hyper4kClientRequest.name, Hyper4kClientRequest.headerValue, hh]
  · simp [Hyper4kClientRequest.headerBytes, hh]

theorem Frame.Holds.readHeaders_eq (hf : f.Holds k mem) :
    readHeaders (k.marshal f mem) (if k.headers.isEmpty then 0 else f.headerArray) k.headers.length =
      some k.headerBytes := by
  by_cases hnil : k.headers = []
  · simp [readHeaders, hnil, Hyper4kClientRequest.headerBytes]
  · have hmap := mapM_some (l := List.range k.headers.length) fun h hh => hf.readHeader_eq (List.mem_range.mp hh)
    rw [k.headerBytes_eq] at hmap
    rw [if_neg (by simpa using hnil), readHeaders, if_neg (by simpa using hnil), if_neg hf.allocated.2.1]
    exact hmap

/-- The header of the struct is the one that `request_init` has filled in. -/
theorem Frame.Holds.header_kept (hf : f.Holds k mem) {i : Nat} (hi : i < 8) :
    k.marshal f mem (f.req + UInt64.ofNat i) = clientRequest.filled mem f.req 80 (f.req + UInt64.ofNat i) := by
  have hinit : clientRequestInit mem f.req 80 = (.ok, clientRequest.filled mem f.req 80) :=
    clientRequest.initPrefix_eq hf.allocated.1 (by decide)
  rw [Hyper4kClientRequest.marshal, hinit]
  apply Memory.assign_outside
  intro p hp hw
  rw [leBytes_length] at hw
  have hcovers := k.covers_assigned hp
  have hle := k.extent_le p.word.1
  by_cases hbase : p.word.1 = true
  · have hreq : Within f.req 80 (f.req + UInt64.ofNat i) := within_add f.req (by omega) (by decide)
    have harray := Frame.within_base hcovers hw
    rw [hbase] at harray
    exact hf.apart _ hreq harray
  · have hreq : Within (f.req + UInt64.ofNat 0) 8 (f.req + UInt64.ofNat i) := by
      rw [show UInt64.ofNat 0 = 0 from rfl, UInt64.add_zero]
      exact within_add f.req hi (by decide)
    rw [Bool.not_eq_true] at hbase
    rw [Frame.place, hbase] at hw
    refine apart_fields f.req (k := 0) (l := 8 * p.word.2) (m := 8) (n := 8) ?_ (by decide) ?_ _ hreq hw
    · have hfirst := Place.one_le_word hbase
      omega
    · unfold Hyper4kClientRequest.Covers at hcovers
      omega

/-- The call passes the checks on its header, and the struct is read as a whole. -/
theorem Frame.Holds.validate_eq (hf : f.Holds k mem) {handle : UInt64} (hhandle : handle ≠ 0) :
    (k.sendCall f mem handle).validate = .ok (.decode ((k.marshal f mem).read f.req 80)) := by
  obtain ⟨habi, hsize⟩ := clientRequest.header_filled (by decide) fun i hi => hf.header_kept hi
  have hcopy : copyPrefix (k.marshal f mem) f.req 80 defaultsRequest = (k.marshal f mem).read f.req 80 :=
    List.append_nil _
  simp only [SendCall.validate, Hyper4kClientRequest.sendCall, hhandle, hf.allocated.1, hf.allocated.2.2, habi, hsize,
    decide_false, Bool.or_self, Bool.not_true, Bool.false_eq_true, if_false]
  rw [validateHeader_build (by decide)]
  exact congrArg (fun b => Except.ok (ClientRequest.decode b)) hcopy

end Marshalling

/-- The choice of `send`: `u64::MAX` inherits, 0 disables and anything else overrides. -/
def readIdleTimeout (x : SendCall) (inherited : Option UInt64) : Option UInt64 :=
  let rawSize := littleEndian (x.memory.read (x.request + 4) 4)
  let ms := fieldAt (copyPrefix x.memory x.request rawSize defaultsRequest) 72 8
  if ms = 2 ^ 64 - 1 then inherited else if ms = 0 then none else some (.ofNat ms)

def Hyper4kClientRequest.admit (env : SendEnv) (k : Hyper4kClientRequest) : Except Status RequestTemplate := do
  let method ← orInvalid (env.method (utf8 k.method))
  let url ← orInvalid (Text.fromUtf8 (utf8 k.url))
  let uri ← orInvalid (env.uri url)
  let scheme := uri.scheme.getD ""
  let host ← orInvalid uri.host
  let fallback ← orInvalid (defaultPort scheme)
  let port := uri.port.getD fallback
  refuseIf (scheme ≠ "http" && scheme ≠ "https") .invalidArg
  refuseIf (scheme = "http" && env.http2Required) .unsupported
  refuseIf (scheme = "https" && !env.tlsPool) .unsupported
  let template : RequestTemplate := ⟨method, host, port, k.headerBytes, k.body⟩
  refuseIf (!template.validate env.http) .invalidArg
  return template

section Arrival
variable {k : Hyper4kClientRequest} {f : Frame} {mem : Memory}

theorem Frame.Holds.prepare_eq (hf : f.Holds k mem) (env : SendEnv) :
    (ClientRequest.decode ((k.marshal f mem).read f.req 80)).prepare env (k.marshal f mem) = k.admit env := by
  have hmem : ∀ p ∈ [Place.methodPtr, .methodLen, .urlPtr, .urlLen, .headers, .headerCount, .bodyPtr, .bodyLen],
      p ∈ k.assignments := by simp [Hyper4kClientRequest.assignments]
  have hmethod : sliceBytes (k.marshal f mem) (sliceAt ((k.marshal f mem).read f.req 80) 8) = some (utf8 k.method) := by
    rw [hf.slice_field (n := 8) (hmem .methodPtr (by simp)) (hmem .methodLen (by simp)) ⟨rfl, rfl⟩ ⟨rfl, rfl⟩ rfl]
    exact hf.slice_pinned (i := 0) rfl
  have hurl : sliceBytes (k.marshal f mem) (sliceAt ((k.marshal f mem).read f.req 80) 24) = some (utf8 k.url) := by
    rw [hf.slice_field (n := 24) (hmem .urlPtr (by simp)) (hmem .urlLen (by simp)) ⟨rfl, rfl⟩ ⟨rfl, rfl⟩ rfl]
    exact hf.slice_pinned (i := 1) rfl
  have hbody : sliceBytes (k.marshal f mem) (sliceAt ((k.marshal f mem).read f.req 80) 56) = some k.body := by
    rw [hf.slice_field (n := 56) (hmem .bodyPtr (by simp)) (hmem .bodyLen (by simp)) ⟨rfl, rfl⟩ ⟨rfl, rfl⟩ rfl]
    exact hf.slice_pinned k.getElem?_body
  have hheaders : readHeaders (k.marshal f mem) (ptrAt ((k.marshal f mem).read f.req 80) 40)
      (fieldAt ((k.marshal f mem).read f.req 80) 48 8) = some k.headerBytes := by
    rw [ptrAt, hf.field (n := 40) (hmem .headers (by simp)) rfl rfl,
      hf.field (n := 48) (hmem .headerCount (by simp)) rfl rfl]
    simp only [Hyper4kClientRequest.value, UInt64.ofNat_toNat]
    exact hf.readHeaders_eq
  simp only [ClientRequest.prepare, ClientRequest.decode, hmethod, hurl, hbody, hheaders]
  rfl

/-- The idle timeout in the struct is Kotlin's if there is one, and `request_init`'s otherwise. -/
theorem Frame.Holds.idle_field (hf : f.Holds k mem) :
    fieldAt ((k.marshal f mem).read f.req 80) 72 8 =
      (k.readIdleTimeoutMillis.map fun ms => ms.toUInt64.toNat).getD (2 ^ 64 - 1) := by
  cases hidle : k.readIdleTimeoutMillis with
  | some ms =>
    have hmem : Place.readIdleTimeoutMs ∈ k.assignments := by simp [Hyper4kClientRequest.assignments, hidle]
    rw [hf.field (n := 72) hmem rfl rfl, Hyper4kClientRequest.value, hidle]
    rfl
  | none =>
    have hnot : Place.readIdleTimeoutMs ∉ k.assignments := by simp [Hyper4kClientRequest.assignments, hidle]
    have hcovers : k.Covers .readIdleTimeoutMs := Nat.le_refl 80
    have hplace : f.place .readIdleTimeoutMs = f.req + UInt64.ofNat 72 := f.place_req rfl rfl
    have hread := Memory.read_write mem f.req (b := clientRequest.defaults 80) (by decide)
    rw [show (clientRequest.defaults 80).length = 80 by decide] at hread
    have hinit : fieldAt (clientRequest.defaults 80) 72 8 = 2 ^ 64 - 1 := by decide
    rw [← hread, Memory.fieldAt_read _ _ (by decide)] at hinit
    rw [Memory.fieldAt_read _ _ (by decide), hf.marshal_eq, Memory.read_assign_apart _ (by decide), hinit]
    · rfl
    · intro p hp
      rw [leBytes_length, ← hplace]
      exact hf.apart_places (k.covers_assigned hp) hcovers fun he => hnot (he ▸ hp)

theorem toNat_toUInt64_inj (a b : Int64) : a.toUInt64.toNat = b.toUInt64.toNat ↔ a = b := by
  constructor
  · intro h
    have hbits := UInt64.toNat_inj.mp h
    cases a
    cases b
    cases hbits
    rfl
  · rintro rfl
    rfl

theorem Frame.Holds.readIdleTimeout_eq (hf : f.Holds k mem) (handle : UInt64) (inherited : Option UInt64) :
    readIdleTimeout (k.sendCall f mem handle) inherited = match k.readIdleTimeoutMillis with
      | none => inherited
      | some ms => if ms = -1 then inherited else if ms = 0 then none else some ms.toUInt64 := by
  obtain ⟨-, hsize⟩ := clientRequest.header_filled (by decide) fun i hi => hf.header_kept hi
  have hcopy : copyPrefix (k.marshal f mem) f.req (80 : UInt32).toNat defaultsRequest =
      (k.marshal f mem).read f.req 80 := List.append_nil _
  simp only [readIdleTimeout, Hyper4kClientRequest.sendCall, hsize, hcopy, hf.idle_field]
  cases k.readIdleTimeoutMillis with
  | none => rfl
  | some ms =>
    have hmax : ms.toUInt64.toNat = 2 ^ 64 - 1 ↔ ms = -1 := toNat_toUInt64_inj ms (-1)
    have hzero : ms.toUInt64.toNat = 0 ↔ ms = 0 := toNat_toUInt64_inj ms 0
    simp only [Option.map_some, Option.getD_some, hmax, hzero, UInt64.ofNat_toNat]

end Arrival

/-- `hyper4k_client_send` judges the request that Kotlin was given, byte by byte, wherever its arrays lie. Its idle
timeout is the client's unless Kotlin gives one, and is off if Kotlin gives 0; -1 asks for the client's too. -/
theorem kotlin_request_arrives (env : SendEnv) {k : Hyper4kClientRequest} {f : Frame} {mem : Memory} {handle : UInt64}
    (hf : f.Holds k mem) (hhandle : handle ≠ 0) :
    (∃ r, (k.sendCall f mem handle).validate = .ok r ∧
      r.prepare env (k.sendCall f mem handle).memory = k.admit env) ∧
    ∀ inherited, readIdleTimeout (k.sendCall f mem handle) inherited = match k.readIdleTimeoutMillis with
      | none => inherited
      | some ms => if ms = -1 then inherited else if ms = 0 then none else some ms.toUInt64 :=
  ⟨⟨_, hf.validate_eq hhandle, hf.prepare_eq env⟩, hf.readIdleTimeout_eq handle⟩

/-- `GET http://a/` with the header `X: yz` and a body, in a memory that holds its arrays from 4096 on. -/
def getWithHeader : Hyper4kClientRequest where
  method := [0x47, 0x45, 0x54]
  url := [0x68, 0x74, 0x74, 0x70, 0x3A, 0x2F, 0x2F, 0x61, 0x2F]
  headers := [([0x58], [0x79, 0x7A])]
  body := [1, 2, 3]
  readIdleTimeoutMillis := some 0
  headers_size := by decide
  array_size := by decide

def pages : Frame := ⟨256, 1024, 512, fun i => 4096 * (UInt64.ofNat i + 1)⟩

def pagedMemory (k : Hyper4kClientRequest) : Memory := fun a =>
  (((arrays k.method k.url k.headers k.body)[a.toNat / 4096 - 1]?.getD [])[a.toNat % 4096]?).getD 0

theorem kotlin_request_arrives_header : pages.Holds getWithHeader (pagedMemory getWithHeader) ∧
    ∀ env, ∃ r, (getWithHeader.sendCall pages (pagedMemory getWithHeader) 64).validate = .ok r ∧
      r.prepare env (getWithHeader.sendCall pages (pagedMemory getWithHeader) 64).memory = getWithHeader.admit env := by
  have hpages : ∀ i < 5, pages.pins i ≠ 0 ∧
      (pagedMemory getWithHeader).read (pages.pins i)
        ((arrays getWithHeader.method getWithHeader.url getWithHeader.headers getWithHeader.body)[i]?.getD []).length =
        (arrays getWithHeader.method getWithHeader.url getWithHeader.headers getWithHeader.body)[i]?.getD [] ∧
      1024 + 32 ≤ (pages.pins i).toNat ∧ (pages.pins i).toNat + 2 ^ 31 ≤ 2 ^ 64 := by decide
  have hholds : pages.Holds getWithHeader (pagedMemory getWithHeader) := by
    refine ⟨by decide, apart_of_le (by decide) (by decide), fun i a ha _ => ?_⟩
    have hlen := getWithHeader.length_lt ha
    obtain ⟨hi, -⟩ := List.getElem?_eq_some_iff.mp ha
    obtain ⟨hne, hread, hlow, hhigh⟩ := hpages i hi
    rw [ha] at hread
    refine ⟨hne, hread, apart_of_le (Nat.le_trans (by decide) hlow) (by omega), apart_of_le hlow (by omega)⟩
  exact ⟨hholds, fun env => (kotlin_request_arrives env hholds (by decide)).1⟩

end Hyper4k.Marshal
