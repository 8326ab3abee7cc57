import Hyper4k.Bridge.Limits
import Hyper4k.Bridge.Submit

/-! The versioned structs of the client's ABI. A caller may have been built against a shorter or a
longer struct than this library: it says how long its own is, and only the common part is written
and read. -/
namespace Hyper4k.Bridge

def leBytes : Nat → Nat → Bytes
  | 0, _ => []
  | size + 1, n => UInt8.ofNat n :: leBytes size (n / 256)

/-- `copy_nonoverlapping` to the caller's memory. -/
def Memory.write (mem : Memory) (p : UInt64) (b : Bytes) : Memory := fun a => (b[(a - p).toNat]?).getD (mem a)

/-- A struct with its default fields after `abi_version` and `struct_size`. A caller has to provide
its first `minSize` bytes. -/
structure Versioned where
  fields : Bytes
  minSize : Nat
  header_le : 8 ≤ minSize
  min_le : minSize ≤ 8 + fields.length

namespace Versioned
variable (v : Versioned)

def size : Nat := 8 + v.fields.length

def defaults (structSize : UInt32) : Bytes := leBytes 4 ABI_VERSION ++ leBytes 4 structSize.toNat ++ v.fields

/-- `defaults_options` and `defaults_request`: a zeroed struct of this build, filled by its init function. -/
def build : Bytes := v.defaults (.ofNat v.size)

def common (structSize : UInt32) : Nat := min structSize.toNat v.size

def Outside (p : UInt64) (structSize : UInt32) (a : UInt64) : Prop :=
  ∀ i < v.common structSize, a ≠ p + UInt64.ofNat i

end Versioned

def initPrefix (mem : Memory) (p : UInt64) (structSize : UInt32) (minSize : Nat) (defaults : Bytes) :
    Status × Memory :=
  if p = 0 then (.invalidArg, mem)
  else if structSize.toNat < minSize then (.structSize, mem)
  else
    let writable := min structSize.toNat defaults.length
    (.ok, mem.write p (defaults.take writable))

def OPTIONS_MIN_SIZE : Nat := 16

/-- `Hyper4kClientOptions` on a 64-bit target, with the defaults of `hyper4k_client_options_init`: `flags`, the
timeouts of a connect, a request and an idle read, `max_retries`, the two limits, then pointer and length of
`custom_ca_pem` and of `proxy_url`. -/
def clientOptions : Versioned where
  fields :=
    leBytes 8 0
    ++ leBytes 8 10000
    ++ leBytes 8 60000
    ++ leBytes 8 60000
    ++ leBytes 4 2
    ++ leBytes 4 DEFAULT_MAX_INFLIGHT.toNat
    ++ leBytes 8 DEFAULT_MAX_BUFFERED_BYTES.toNat
    ++ leBytes 8 0 ++ leBytes 8 0
    ++ leBytes 8 0 ++ leBytes 8 0
  minSize := OPTIONS_MIN_SIZE
  header_le := by decide
  min_le := by decide

/-- `Hyper4kClientRequest` with the defaults of `hyper4k_client_request_init`: pointer and length of `method`, `url`,
`headers` and `body`, then `read_idle_timeout_ms`. -/
def clientRequest : Versioned where
  fields :=
    leBytes 8 0 ++ leBytes 8 0
    ++ leBytes 8 0 ++ leBytes 8 0
    ++ leBytes 8 0 ++ leBytes 8 0
    ++ leBytes 8 0 ++ leBytes 8 0
    ++ leBytes 8 (2 ^ 64 - 1)
  minSize := REQUEST_MIN_SIZE
  header_le := by decide
  min_le := by decide

def clientOptionsInit (mem : Memory) (opts : UInt64) (structSize : UInt32) : Status × Memory :=
  initPrefix mem opts structSize OPTIONS_MIN_SIZE (clientOptions.defaults structSize)

def clientRequestInit (mem : Memory) (request : UInt64) (structSize : UInt32) : Status × Memory :=
  initPrefix mem request structSize REQUEST_MIN_SIZE (clientRequest.defaults structSize)

/-- `hyper4k_client_new` up to the struct that it goes on with. -/
def clientNewOptions (mem : Memory) (opts outClient : UInt64) : Except Status Bytes :=
  if opts = 0 || outClient = 0 then .error .invalidArg
  else
    let rawSize := littleEndian (mem.read (opts + 4) 4)
    let rawAbi := littleEndian (mem.read opts 4)
    match validateHeader rawAbi rawSize OPTIONS_MIN_SIZE with
    | .ok => .ok (copyPrefix mem opts rawSize clientOptions.build)
    | status => .error status

/-- The request that `hyper4k_client_send` starts from is the one that its init function fills in. -/
theorem defaultsRequest_eq : defaultsRequest = clientRequest.build := by decide

/-- This build accepts its own version. -/
theorem validateHeader_build {structSize minSize : Nat} (h : minSize ≤ structSize) :
    validateHeader ABI_VERSION structSize minSize = .ok := by
  rw [validateHeader, if_neg (by decide), if_neg (Nat.not_lt.mpr h)]

theorem leBytes_length (size n : Nat) : (leBytes size n).length = size := by
  induction size generalizing n with
  | zero => rfl
  | succ size ih => rw [leBytes, List.length_cons, ih]

theorem littleEndian_leBytes (size n : Nat) : littleEndian (leBytes size n) = n % 256 ^ size := by
  induction size generalizing n with
  | zero => exact (Nat.mod_one n).symm
  | succ size ih =>
    have hcons : littleEndian (leBytes (size + 1) n) =
        (UInt8.ofNat n).toNat + 256 * littleEndian (leBytes size (n / 256)) := rfl
    rw [hcons, ih, Nat.pow_succ', Nat.mod_mul]
    rfl

namespace Memory
variable (mem : Memory) (p : UInt64)

theorem length_read (n : Nat) : (mem.read p n).length = n := by
  rw [read, List.length_map, List.length_range]

theorem getElem?_read {n i : Nat} (h : i < n) : (mem.read p n)[i]? = some (mem (p + UInt64.ofNat i)) := by
  rw [read, List.getElem?_map, List.getElem?_range h]
  rfl

theorem read_add (m n : Nat) : mem.read p (m + n) = mem.read p m ++ mem.read (p + UInt64.ofNat m) n := by
  rw [read, List.range_add, List.map_append, List.map_map]
  congr 1
  apply List.map_congr_left
  intro i _
  rw [Function.comp_apply, UInt64.ofNat_add, UInt64.add_assoc]

/-- No two of the bytes of a struct have the same address. -/
theorem distance {i : Nat} (h : i < 2 ^ 64) : (p + UInt64.ofNat i - p).toNat = i := by
  rw [UInt64.add_comm, UInt64.add_sub_cancel]
  exact UInt64.toNat_ofNat_of_lt' h

theorem write_inside {b : Bytes} (hb : b.length ≤ 2 ^ 64) {i : Nat} (h : i < b.length) :
    some (mem.write p b (p + UInt64.ofNat i)) = b[i]? := by
  rw [write, distance p (Nat.lt_of_lt_of_le h hb), List.getElem?_eq_getElem h]
  rfl

theorem write_outside {b : Bytes} {a : UInt64} (h : ∀ i < b.length, a ≠ p + UInt64.ofNat i) :
    mem.write p b a = mem a := by
  rw [write, List.getElem?_eq_none]
  · rfl
  · refine Nat.le_of_not_lt fun hlt => h _ hlt ?_
    rw [UInt64.ofNat_toNat, UInt64.add_comm, UInt64.sub_add_cancel]

theorem read_write {b : Bytes} (hb : b.length ≤ 2 ^ 64) : (mem.write p b).read p b.length = b := by
  apply List.ext_getElem?
  intro i
  by_cases h : i < b.length
  · rw [getElem?_read _ p h, write_inside mem p hb h]
  · rw [List.getElem?_eq_none (by rw [length_read]; omega), List.getElem?_eq_none (by omega)]

end Memory

namespace Versioned
variable (v : Versioned) {s : UInt32} {mem : Memory} {p : UInt64}

theorem header_length (s : UInt32) : (leBytes 4 ABI_VERSION ++ leBytes 4 s.toNat).length = 8 := by
  rw [List.length_append, leBytes_length, leBytes_length]

theorem defaults_length (s : UInt32) : (v.defaults s).length = v.size := by
  rw [defaults, List.length_append, header_length, size]

/-- Structs filled in for different sizes differ in their header only. -/
theorem defaults_drop {n : Nat} (h : 8 ≤ n) (s : UInt32) : (v.defaults s).drop n = v.fields.drop (n - 8) := by
  rw [defaults, List.drop_append, List.drop_of_length_le (by rw [header_length]; exact h), header_length,
    List.nil_append]

theorem common_le (s : UInt32) : v.common s ≤ v.size := Nat.min_le_right _ _

theorem header_le_common (hs : v.minSize ≤ s.toNat) : 8 ≤ v.common s :=
  Nat.le_min.mpr ⟨Nat.le_trans v.header_le hs, Nat.le_add_right 8 _⟩

theorem take_length (s : UInt32) : ((v.defaults s).take (v.common s)).length = v.common s := by
  rw [List.length_take, defaults_length]
  exact Nat.min_eq_left (v.common_le s)

theorem common_lt (s : UInt32) : v.common s ≤ 2 ^ 64 :=
  Nat.le_trans (Nat.min_le_left _ _) (Nat.le_trans (Nat.le_of_lt s.toNat_lt) (by decide))

def filled (mem : Memory) (p : UInt64) (s : UInt32) : Memory := mem.write p ((v.defaults s).take (v.common s))

theorem initPrefix_eq (hp : p ≠ 0) (hs : v.minSize ≤ s.toNat) :
    initPrefix mem p s v.minSize (v.defaults s) = (.ok, v.filled mem p s) := by
  rw [initPrefix, if_neg hp, if_neg (Nat.not_lt.mpr hs)]
  simp only [defaults_length]
  rfl

theorem filled_inside (mem : Memory) (p : UInt64) {i : Nat} (h : i < v.common s) :
    some (v.filled mem p s (p + UInt64.ofNat i)) = (v.defaults s)[i]? := by
  rw [filled, Memory.write_inside mem p (by rw [take_length]; exact v.common_lt s) (by rwa [take_length]),
    List.getElem?_take_of_lt h]

theorem filled_outside {a : UInt64} (h : v.Outside p s a) : v.filled mem p s a = mem a := by
  refine Memory.write_outside mem p ?_
  rw [take_length]
  exact h

theorem read_filled (mem : Memory) (p : UInt64) (s : UInt32) :
    (v.filled mem p s).read p (v.common s) = (v.defaults s).take (v.common s) := by
  have hread := Memory.read_write mem p (b := (v.defaults s).take (v.common s))
    (by rw [take_length]; exact v.common_lt s)
  rwa [take_length] at hread

theorem copyPrefix_eq (mem : Memory) (p : UInt64) (s : UInt32) :
    copyPrefix mem p s.toNat v.build = mem.read p (v.common s) ++ v.build.drop (v.common s) := by
  simp only [copyPrefix, build, defaults_length]
  rfl

/-- Where the caller provides nothing, both structs have the same default. -/
theorem build_drop (hs : v.minSize ≤ s.toNat) : v.build.drop (v.common s) = (v.defaults s).drop (v.common s) := by
  rw [build, v.defaults_drop (v.header_le_common hs), v.defaults_drop (v.header_le_common hs)]

theorem getElem?_copyPrefix (hs : v.minSize ≤ s.toNat) (mem : Memory) (p : UInt64) (i : Nat) :
    (copyPrefix mem p s.toNat v.build)[i]? =
      if i < v.common s then some (mem (p + UInt64.ofNat i)) else (v.defaults s)[i]? := by
  rw [copyPrefix_eq, build_drop v hs]
  split
  · rename_i hi
    rw [List.getElem?_append_left (by rwa [Memory.length_read]), Memory.getElem?_read mem p hi]
  · rename_i hi
    rw [List.getElem?_append_right (by rw [Memory.length_read]; omega), Memory.length_read, List.getElem?_drop]
    congr 1
    omega

theorem copyPrefix_filled (hs : v.minSize ≤ s.toNat) (mem : Memory) (p : UInt64) :
    copyPrefix (v.filled mem p s) p s.toNat v.build = v.defaults s := by
  rw [copyPrefix_eq, read_filled, build_drop v hs, List.take_append_drop]

/-- The header that `new` and `send` look at is the one that was filled in. -/
theorem header_filled (hs : v.minSize ≤ s.toNat) {later : Memory}
    (h : ∀ i < 8, later (p + UInt64.ofNat i) = v.filled mem p s (p + UInt64.ofNat i)) :
    littleEndian (later.read p 4) = ABI_VERSION ∧ littleEndian (later.read (p + 4) 4) = s.toNat := by
  have hread : later.read p 8 = leBytes 4 ABI_VERSION ++ leBytes 4 s.toNat := by
    apply List.ext_getElem?
    intro i
    by_cases hi : i < 8
    · have hcommon : i < v.common s := Nat.lt_of_lt_of_le hi (v.header_le_common hs)
      rw [Memory.getElem?_read later p hi, h i hi, v.filled_inside mem p hcommon, defaults,
        List.getElem?_append_left (by rwa [header_length])]
    · rw [List.getElem?_eq_none (by rw [Memory.length_read]; omega),
        List.getElem?_eq_none (by rw [header_length]; omega)]
  rw [Memory.read_add later p 4 4] at hread
  obtain ⟨habi, hsize⟩ := List.append_inj hread (by rw [Memory.length_read, leBytes_length])
  constructor
  · rw [habi, littleEndian_leBytes]
    rfl
  · have hlt := s.toNat_lt
    change littleEndian (later.read (p + UInt64.ofNat 4) 4) = _
    rw [hsize, littleEndian_leBytes]
    exact Nat.mod_eq_of_lt hlt

/-- What a caller with a struct of the given size at `p` can rely on, from the memory that it gives to the init
function to the struct that is read back. -/
structure Negotiated (p : UInt64) (s : UInt32) (mem mem' : Memory) : Prop where
  written : ∀ i < v.common s, some (mem' (p + UInt64.ofNat i)) = (v.defaults s)[i]?
  untouched : ∀ a, v.Outside p s a → mem' a = mem a
  copied : copyPrefix mem' p s.toNat v.build = v.defaults s
  overwritten : ∀ later : Memory, ∀ i < v.size,
    ((copyPrefix later p s.toNat v.build)[i]? ≠ (v.defaults s)[i]? ↔
      i < v.common s ∧ later (p + UInt64.ofNat i) ≠ mem' (p + UInt64.ofNat i)) ∧
    (i < v.common s → (copyPrefix later p s.toNat v.build)[i]? = some (later (p + UInt64.ofNat i)))

theorem negotiated (hs : v.minSize ≤ s.toNat) (mem : Memory) (p : UInt64) :
    v.Negotiated p s mem (v.filled mem p s) := by
  refine ⟨fun i hi => v.filled_inside mem p hi, fun a ha => v.filled_outside ha, v.copyPrefix_filled hs mem p,
    fun later i _ => ?_⟩
  rw [v.getElem?_copyPrefix hs later p i]
  by_cases hi : i < v.common s
  · rw [if_pos hi, ← v.filled_inside mem p hi]
    simp [hi]
  · rw [if_neg hi]
    simp [hi]

end Versioned

/-- Both structs: the init function fills in the part that the caller has, with the caller's size, and touches
nothing else; `new` and `send` then read this build's defaults with the caller's size, and of what the caller has
changed in its part exactly that. -/
theorem versioned_structs_negotiate (mem : Memory) (p : UInt64) (s : UInt32) (hp : p ≠ 0) :
    (OPTIONS_MIN_SIZE ≤ s.toNat → ∃ mem', clientOptionsInit mem p s = (.ok, mem') ∧
      clientOptions.Negotiated p s mem mem' ∧
      ∀ (later : Memory) (out : UInt64), out ≠ 0 →
        (∀ i < 8, later (p + UInt64.ofNat i) = mem' (p + UInt64.ofNat i)) →
        clientNewOptions later p out = .ok (copyPrefix later p s.toNat clientOptions.build)) ∧
    (REQUEST_MIN_SIZE ≤ s.toNat → ∃ mem', clientRequestInit mem p s = (.ok, mem') ∧
      clientRequest.Negotiated p s mem mem' ∧
      ∀ x : SendCall, x.request = p → x.client ≠ 0 → x.outRequestId ≠ 0 → x.onHeaders = true → x.onDone = true →
        (∀ i < 8, x.memory (p + UInt64.ofNat i) = mem' (p + UInt64.ofNat i)) →
        x.validate = .ok (.decode (copyPrefix x.memory p s.toNat clientRequest.build))) := by
  constructor
  · intro hs
    refine ⟨_, clientOptions.initPrefix_eq hp hs, clientOptions.negotiated hs mem p, fun later out hout hsame => ?_⟩
    obtain ⟨habi, hsize⟩ := clientOptions.header_filled hs hsame
    simp only [clientNewOptions, hp, hout, decide_false, Bool.or_self, Bool.false_eq_true, if_false, habi, hsize,
      validateHeader_build hs]
  · intro hs
    refine ⟨_, clientRequest.initPrefix_eq hp hs, clientRequest.negotiated hs mem p, ?_⟩
    rintro x rfl hclient hout hheaders hdone hsame
    obtain ⟨habi, hsize⟩ := clientRequest.header_filled hs hsame
    simp only [SendCall.validate, hp, hclient, hout, hheaders, hdone, decide_false, Bool.or_self, Bool.not_true,
      Bool.false_eq_true, if_false, habi, hsize, validateHeader_build hs, defaultsRequest_eq]

/-- A caller whose options end inside `connect_timeout_ms`, and one whose request ends before its body. -/
theorem versioned_structs_negotiate_short :
    (∃ mem', clientOptionsInit (fun _ => 0xAB) 4096 20 = (.ok, mem') ∧
      clientOptions.Negotiated 4096 20 (fun _ => 0xAB) mem') ∧
    ∃ mem', clientRequestInit (fun _ => 0xAB) 4096 56 = (.ok, mem') ∧
      clientRequest.Negotiated 4096 56 (fun _ => 0xAB) mem' := by
  obtain ⟨mem₁, hinit₁, hoptions, -⟩ :=
    (versioned_structs_negotiate (fun _ => 0xAB) 4096 20 (by decide)).1 (by decide)
  obtain ⟨mem₂, hinit₂, hrequest, -⟩ :=
    (versioned_structs_negotiate (fun _ => 0xAB) 4096 56 (by decide)).2 (by decide)
  exact ⟨⟨mem₁, hinit₁, hoptions⟩, mem₂, hinit₂, hrequest⟩

end Hyper4k.Bridge
