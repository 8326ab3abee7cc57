import Hyper4k.Bridge.Abi
import Hyper4k.Text.Decode
import Hyper4k.Text.Search

/-! The CONNECT exchange of `proxy::tunnel`, read by read, against what the proxy's bytes mean as a whole. -/
namespace Hyper4k.Proxy
open Bridge (ErrorKind)
open Text

/-- `let mut buf = [0u8; 1024]`. -/
def bufLen : Nat := 1024

/-- `8 * 1024`. -/
def headLimit : Nat := 8 * 1024

/-- `b"\r\n\r\n"`. -/
def terminator : Octets := [0x0D, 0x0A, 0x0D, 0x0A]

/-- What the stream does once the bytes of the proxy have all been read. -/
inductive Ending
  | silence | eof | failed
  deriving DecidableEq, Repr

/-- Where the exchange stands: still in a `read`, an error of the request, or a tunnel whose
stream still holds `rest`. -/
inductive Handshake (α : Type)
  | pending
  | refused (kind : ErrorKind)
  | established (rest : α)
  deriving DecidableEq, Repr

def Handshake.map {α β : Type} (f : α → β) : Handshake α → Handshake β
  | .pending => .pending
  | .refused kind => .refused kind
  | .established rest => .established (f rest)

def Ending.read {α : Type} : Ending → Handshake α
  | .silence => .pending
  | .eof | .failed => .refused .connect

/-- `s.lines().next()`: up to the line feed, without it and one carriage return before it. -/
def firstLine (text : Octets) : Option Octets :=
  let line := text.takeWhile (· != 0x0A)
  if text = [] then none
  else if line = text then some line
  else some (if line.getLast? = some 0x0D then line.dropLast else line)

/-- The second field of the status line, as a `u16`. -/
def statusOf (line : Octets) : Option Nat :=
  (fromUtf8 line).bind fun text => (words text)[1]?.bind (parseDecimal (2 ^ 16))

/-- The status after `std::str::from_utf8(&head)`, which looks at everything read so far. -/
def status (head : Octets) : Option Nat :=
  if (fromUtf8 head).isSome then (firstLine head).bind statusOf else none

/-- `(200..300).contains(&status)`; a head without a status is refused like one outside the range. -/
def granted (status : Option Nat) : Bool := status.any fun n => 200 ≤ n && n < 300

def judge {α : Type} (status : Option Nat) (rest : α) : Handshake α :=
  if granted status then .established rest else .refused .protocol

/-- The `loop` and what follows it, with the bytes each `read` returned. -/
def exchange (head : Octets) : List Octets → Ending → Handshake (List Octets)
  | [], ending => ending.read
  | chunk :: reads, ending =>
    let head := head ++ chunk
    if head.tails.any terminator.isPrefixOf then judge (status head) reads
    else if headLimit < head.length then .refused .protocol
    else exchange head reads ending

/-- The reads of `proxy::tunnel` after its request has been written. -/
def tunnel (reads : List Octets) (ending : Ending) : Handshake (List Octets) := exchange [] reads ending

def Reads (reads : List Octets) : Prop := ∀ chunk ∈ reads, 0 < chunk.length ∧ chunk.length ≤ bufLen

instance (reads : List Octets) : Decidable (Reads reads) := inferInstanceAs (Decidable (∀ chunk ∈ reads, _))

def lineStatus (bytes : Octets) (n : Nat) : Option Nat := (firstLine (bytes.take n)).bind statusOf

/-- What the bytes of the proxy mean: the head ends at the first empty line, must end within the
limit, and its status line decides; everything after it belongs to the target. -/
def handshake (bytes : Octets) (ending : Ending) : Handshake Octets :=
  match endOf terminator bytes with
  | some n =>
    if n ≤ headLimit then judge (lineStatus bytes n) (bytes.drop n)
    else .refused .protocol
  | none => if headLimit < bytes.length then .refused .protocol else ending.read

section Loop
variable {head bytes : Octets} {reads : List Octets} {ending : Ending}

theorem read_on {chunk : Octets} (h : bytes = head ++ (chunk :: reads).flatten) :
    bytes = (head ++ chunk) ++ reads.flatten := by
  rw [h, List.flatten_cons, List.append_assoc]

theorem take_read (h : bytes = head ++ reads.flatten) : bytes.take head.length = head := by
  rw [h, List.take_left]

/-- The loop has the whole head when the head ends at or before what it has read. -/
theorem complete_iff (h : bytes = head ++ reads.flatten) :
    head.tails.any terminator.isPrefixOf = true ↔ ∃ n, endOf terminator bytes = some n ∧ n ≤ head.length := by
  have hread : endOf terminator head = (endOf terminator bytes).filter (· ≤ head.length) := by
    rw [← endOf_take, take_read h]
  rw [← endOf_isSome, hread]
  cases endOf terminator bytes with
  | none => simp
  | some n => by_cases hn : n ≤ head.length <;> simp [Option.filter, hn]

/-- No head within reach of one more read: the limit decides, wherever the reads fall. -/
theorem exchange_of_no_end (hreads : Reads reads) (hbytes : bytes = head ++ reads.flatten)
    (hhead : head.length ≤ headLimit) (hend : ∀ n, endOf terminator bytes = some n → headLimit + bufLen < n) :
    exchange head reads ending = if headLimit < bytes.length then .refused .protocol else ending.read := by
  induction reads generalizing head with
  | nil =>
    rw [exchange, if_neg]
    simp only [hbytes, List.flatten_nil, List.append_nil]
    omega
  | cons chunk reads ih =>
    have hchunk := hreads chunk List.mem_cons_self
    have hlen : (head ++ chunk).length ≤ headLimit + bufLen := by
      rw [List.length_append]
      omega
    have hbytes' := read_on hbytes
    have hopen : ¬ (head ++ chunk).tails.any terminator.isPrefixOf = true := by
      rw [complete_iff hbytes']
      rintro ⟨n, hn, hle⟩
      have := hend n hn
      omega
    rw [exchange, if_neg hopen]
    split
    case isTrue hlong =>
      have hall : headLimit < bytes.length := by
        rw [hbytes', List.length_append]
        omega
      rw [if_pos hall]
    case isFalse hshort =>
      exact ih (fun c hc => hreads c (List.mem_cons_of_mem _ hc)) hbytes' (by omega)

/-- Bytes after a line feed do not change the first line. -/
theorem firstLine_append {text rest : Octets} (h : 0x0A ∈ text) : firstLine (text ++ rest) = firstLine text := by
  have hlong {l : Octets} (hl : 0x0A ∈ l) : l.takeWhile (· != 0x0A) ≠ l := by
    intro hall
    exact absurd (List.takeWhile_eq_self_iff.mp hall 0x0A hl) (by decide)
  have hfirst : (text ++ rest).takeWhile (· != 0x0A) = text.takeWhile (· != 0x0A) := by
    rw [List.takeWhile_append, if_neg]
    intro hlen
    exact hlong h ((List.takeWhile_prefix _).eq_of_length hlen)
  have hmem : 0x0A ∈ text ++ rest := List.mem_append_left _ h
  have hmore : text.takeWhile (· != 0x0A) ≠ text ++ rest := hfirst ▸ hlong hmem
  simp only [firstLine, hfirst, if_neg hmore, if_neg (hlong h), if_neg (List.ne_nil_of_mem hmem),
    if_neg (List.ne_nil_of_mem h)]

/-- Whatever was read after the head, the status is that of its first line, if all of it is text. -/
theorem status_take {n k : Nat} (hn : endOf terminator bytes = some n) (hk : n ≤ k) :
    status (bytes.take k) = if (fromUtf8 (bytes.take k)).isSome then lineStatus bytes n else none := by
  have hhead : endOf terminator (bytes.take n) = some n := by
    rw [endOf_take, hn]
    simp [Option.filter]
  have hfeed : (0x0A : UInt8) ∈ bytes.take n := subset_of_endOf hhead (by decide)
  have hsplit : bytes.take k = bytes.take n ++ (bytes.take k).drop n := by
    have hcut := (List.take_append_drop n (bytes.take k)).symm
    rwa [List.take_take, Nat.min_eq_left hk] at hcut
  have hline : firstLine (bytes.take k) = firstLine (bytes.take n) := by rw [hsplit, firstLine_append hfeed]
  rw [status, hline, lineStatus]

theorem granted_take {n k : Nat} (hn : endOf terminator bytes = some n) (hk : n ≤ k)
    (hgrant : granted (lineStatus bytes n) = true) :
    granted (status (bytes.take k)) = (fromUtf8 (bytes.take k)).isSome := by
  rw [status_take hn hk]
  cases (fromUtf8 (bytes.take k)).isSome with
  | true => exact hgrant
  | false => rfl

/-- A head whose status line denies the tunnel is refused, wherever the reads fall. -/
theorem exchange_of_denied {n : Nat} (hbytes : bytes = head ++ reads.flatten)
    (hn : endOf terminator bytes = some n) (hlt : head.length < n) (hdenied : granted (lineStatus bytes n) = false) :
    exchange head reads ending = .refused .protocol := by
  induction reads generalizing head with
  | nil =>
    have := (endOf_bounds hn).2
    simp only [hbytes, List.flatten_nil, List.append_nil] at this
    omega
  | cons chunk reads ih =>
    have hbytes' := read_on hbytes
    rw [exchange]
    split
    case isTrue hstop =>
      rw [complete_iff hbytes'] at hstop
      obtain ⟨m, hm, hle⟩ := hstop
      rw [hn] at hm
      obtain rfl := Option.some.inj hm
      have hno : granted (status (head ++ chunk)) = false := by
        rw [← take_read hbytes', status_take hn hle]
        split
        · exact hdenied
        · rfl
      rw [judge, hno]
      rfl
    case isFalse hopen =>
      split
      case isTrue => rfl
      case isFalse =>
        apply ih hbytes'
        by_contra hge
        apply hopen
        rw [complete_iff hbytes']
        exact ⟨n, hn, by omega⟩

def ReadEnd (start : Nat) (reads : List Octets) (k : Nat) : Prop :=
  ∃ a b, reads = a ++ b ∧ start + a.flatten.length = k

theorem readEnd_cons {start k : Nat} {chunk : Octets} :
    ReadEnd start (chunk :: reads) k ↔ k = start ∨ ReadEnd (start + chunk.length) reads k := by
  constructor
  · rintro ⟨a, b, hab, rfl⟩
    cases a with
    | nil => exact .inl rfl
    | cons c a =>
      obtain ⟨rfl, rfl⟩ := List.cons_eq_cons.mp hab
      refine .inr ⟨a, b, rfl, ?_⟩
      rw [List.flatten_cons, List.length_append, Nat.add_assoc]
  · rintro (rfl | ⟨a, b, rfl, rfl⟩)
    · exact ⟨[], chunk :: reads, rfl, rfl⟩
    · refine ⟨chunk :: a, b, rfl, ?_⟩
      rw [List.flatten_cons, List.length_append, Nat.add_assoc]

theorem ReadEnd.le {start k : Nat} (h : ReadEnd start reads k) : start ≤ k := by
  obtain ⟨a, b, -, rfl⟩ := h
  exact Nat.le_add_right _ _

/-- The loop stops at the first read that ends above the limit before the head does, and otherwise at the first
that ends where the head does or later. -/
theorem exchange_stops {n : Nat} (ending : Ending) (hbytes : bytes = head ++ reads.flatten) (hn : endOf terminator bytes = some n)
    (hlt : head.length < n) (hhead : head.length ≤ headLimit) :
    ((∃ k, ReadEnd head.length reads k ∧ headLimit < k ∧ k < n) ∧ exchange head reads ending = .refused .protocol) ∨
    (¬ ∃ k, ReadEnd head.length reads k ∧ headLimit < k ∧ k < n) ∧
      ∃ k, IsLeast {k | n ≤ k ∧ ReadEnd head.length reads k} k ∧
        (exchange head reads ending).map List.flatten = judge (status (bytes.take k)) (bytes.drop k) := by
  induction reads generalizing head with
  | nil =>
    have := (endOf_bounds hn).2
    simp only [hbytes, List.flatten_nil, List.append_nil] at this
    omega
  | cons chunk reads ih =>
    have hbytes' := read_on hbytes
    have hlen : (head ++ chunk).length = head.length + chunk.length := List.length_append
    simp only [readEnd_cons, ← hlen]
    rw [exchange]
    by_cases hstop : n ≤ (head ++ chunk).length
    · refine .inr ⟨?_, (head ++ chunk).length, ⟨⟨hstop, .inr ⟨[], reads, rfl, rfl⟩⟩, ?_⟩, ?_⟩
      · rintro ⟨k, rfl | hk, hlong, hshort⟩
        · omega
        · have := hk.le
          omega
      · rintro k ⟨hle, rfl | hk⟩
        · omega
        · exact hk.le
      · rw [if_pos ((complete_iff hbytes').mpr ⟨n, hn, hstop⟩), take_read hbytes', judge, judge]
        split
        · rw [hbytes', List.drop_left]
          rfl
        · rfl
    · have hopen : ¬ (head ++ chunk).tails.any terminator.isPrefixOf = true := by
        rw [complete_iff hbytes']
        rintro ⟨m, hm, hle⟩
        rw [hn] at hm
        obtain rfl := Option.some.inj hm
        exact hstop hle
      rw [if_neg hopen]
      by_cases hlong : headLimit < (head ++ chunk).length
      · rw [if_pos hlong]
        exact .inl ⟨⟨(head ++ chunk).length, .inr ⟨[], reads, rfl, rfl⟩, hlong, by omega⟩, rfl⟩
      · rw [if_neg hlong]
        have hskip : ∀ k, ((k = head.length ∨ ReadEnd (head ++ chunk).length reads k) ∧ headLimit < k ∧ k < n) ↔
            ReadEnd (head ++ chunk).length reads k ∧ headLimit < k ∧ k < n := by
          refine fun k => and_congr_left fun hk => or_iff_right ?_
          rintro rfl
          omega
        have hleast : ∀ k, (n ≤ k ∧ (k = head.length ∨ ReadEnd (head ++ chunk).length reads k)) ↔
            n ≤ k ∧ ReadEnd (head ++ chunk).length reads k := by
          refine fun k => and_congr_right fun hk => or_iff_right ?_
          rintro rfl
          omega
        simp only [hskip, hleast]
        exact ih hbytes' (by omega) (by omega)

end Loop

/-- The status line grants the tunnel, and the loop may get to see the end of the head. -/
def Granting (reads : List Octets) (n : Nat) : Prop :=
  endOf terminator reads.flatten = some n ∧ n ≤ headLimit + bufLen ∧ granted (lineStatus reads.flatten n) = true

/-- Where the reads end and what is text in them, for a head of `n` bytes. Within the limit, a read ends with the
head, which is text. Above it, a read ends between the limit and the end of the head, or what the first read
that completes the head has brought the loop to is not text. -/
def Steady (reads : List Octets) (n : Nat) : Prop :=
  if n ≤ headLimit then ReadEnd 0 reads n ∧ (fromUtf8 (reads.flatten.take n)).isSome = true
  else (∃ k, ReadEnd 0 reads k ∧ headLimit < k ∧ k < n) ∨
    ∃ k, IsLeast {k | n ≤ k ∧ ReadEnd 0 reads k} k ∧ (fromUtf8 (reads.flatten.take k)).isSome = false

section Segmentation
variable {reads : List Octets} {n : Nat} {ending : Ending}

theorem judge_established {α : Type} {status : Option Nat} {rest rest' : α} :
    judge status rest = .established rest' ↔ granted status = true ∧ rest = rest' := by
  rw [judge]
  split <;> simp_all

theorem judge_refused {α : Type} {status : Option Nat} {rest : α} :
    judge status rest = .refused .protocol ↔ granted status = false := by
  rw [judge]
  split <;> simp_all

theorem handshake_some {bytes : Octets} (hn : endOf terminator bytes = some n) :
    handshake bytes ending =
      if n ≤ headLimit then judge (lineStatus bytes n) (bytes.drop n) else .refused .protocol := by
  rw [handshake, hn]

/-- A head that grants the tunnel is judged by its bytes exactly on steady reads. -/
theorem tunnel_granting (h : Granting reads n) :
    (tunnel reads ending).map List.flatten = handshake reads.flatten ending ↔ Steady reads n := by
  obtain ⟨hn, hreach, hgrant⟩ := h
  have hpos : ([] : Octets).length < n := (endOf_bounds hn).1.trans_lt' (by decide)
  rw [tunnel, handshake_some hn, Steady]
  obtain ⟨⟨k, hk, hlong, hshort⟩, hrefused⟩ | ⟨hnone, k, hleast, hjudged⟩ :=
    exchange_stops ending (show reads.flatten = [] ++ reads.flatten from rfl) hn hpos (Nat.zero_le headLimit)
  · rw [if_neg (by omega), if_neg (by omega), hrefused]
    exact iff_of_true rfl (.inl ⟨k, hk, hlong, hshort⟩)
  · have hgranted := granted_take hn hleast.1.1 hgrant
    rw [hjudged]
    by_cases hlimit : n ≤ headLimit
    · rw [if_pos hlimit, if_pos hlimit, judge_established.mpr ⟨hgrant, rfl⟩, judge_established, hgranted]
      constructor
      · rintro ⟨htext, hrest⟩
        have hlen := congrArg List.length hrest
        have hbound := (endOf_bounds hn).2
        have hge := hleast.1.1
        have htotal : k ≤ reads.flatten.length := by
          obtain ⟨a, b, hab, hk⟩ := hleast.1.2
          rw [hab, List.flatten_append, List.length_append]
          simp only [List.length_nil] at hk
          omega
        rw [List.length_drop, List.length_drop] at hlen
        obtain rfl : k = n := by omega
        exact ⟨hleast.1.2, htext⟩
      · rintro ⟨hend, htext⟩
        obtain rfl : k = n := Nat.le_antisymm (hleast.2 ⟨Nat.le_refl n, hend⟩) hleast.1.1
        exact ⟨htext, rfl⟩
    · rw [if_neg hlimit, if_neg hlimit, judge_refused, hgranted]
      constructor
      · exact fun htext => .inr ⟨k, hleast, htext⟩
      · rintro (hbetween | ⟨k', hleast', htext⟩)
        · exact absurd hbetween hnone
        · rw [Nat.le_antisymm (hleast.2 hleast'.1) (hleast'.2 hleast.1)]
          exact htext

/-- Any other head, and none at all, is judged by its bytes on all reads. -/
theorem tunnel_denying (hreads : Reads reads) (h : ∀ n, ¬ Granting reads n) :
    (tunnel reads ending).map List.flatten = handshake reads.flatten ending := by
  have hbytes : reads.flatten = [] ++ reads.flatten := rfl
  have hzero : ([] : Octets).length ≤ headLimit := Nat.zero_le _
  cases hn : endOf terminator reads.flatten with
  | none =>
    rw [tunnel, handshake, hn, exchange_of_no_end hreads hbytes hzero (fun n h => by rw [hn] at h; cases h)]
    split <;> cases ending <;> rfl
  | some n =>
    have hpos : ([] : Octets).length < n := (endOf_bounds hn).1.trans_lt' (by decide)
    rw [tunnel, handshake_some hn]
    by_cases hfar : headLimit + bufLen < n
    · have hall : headLimit < reads.flatten.length := by
        have := (endOf_bounds hn).2
        omega
      rw [exchange_of_no_end hreads hbytes hzero (fun m h => by rw [hn] at h; cases h; exact hfar),
        if_pos hall, if_neg (by omega)]
      rfl
    · have hdenied : granted (lineStatus reads.flatten n) = false :=
        Bool.eq_false_iff.mpr fun hgrant => h n ⟨hn, by omega, hgrant⟩
      rw [exchange_of_denied hbytes hn hpos hdenied, judge, hdenied]
      split <;> rfl

theorem tunnel_eq_handshake_iff (hreads : Reads reads) :
    (tunnel reads ending).map List.flatten = handshake reads.flatten ending ↔
      ∀ n, Granting reads n → Steady reads n := by
  constructor
  · exact fun h n hn => (tunnel_granting hn).mp h
  · intro hsteady
    by_cases hgrants : ∃ n, Granting reads n
    · obtain ⟨n, hn⟩ := hgrants
      exact (tunnel_granting hn).mpr (hsteady n hn)
    · exact tunnel_denying hreads (not_exists.mp hgrants)

end Segmentation

/-- The exchange gives what the bytes mean exactly if the reads are steady, and then all ways of reading them give
the same verdict and leave the same bytes to the target. -/
theorem tunnel_segmentation_independent {reads : List Octets} (hreads : Reads reads) (ending : Ending) :
    ((tunnel reads ending).map List.flatten = handshake reads.flatten ending ↔
      ∀ n, Granting reads n → Steady reads n) ∧
    ((∀ n, Granting reads n → Steady reads n) → ∀ reads', Reads reads' → reads'.flatten = reads.flatten →
      (∀ n, Granting reads' n → Steady reads' n) →
      (tunnel reads' ending).map List.flatten = (tunnel reads ending).map List.flatten) := by
  refine ⟨tunnel_eq_handshake_iff hreads, fun hsteady reads' hreads' hsame hsteady' => ?_⟩
  rw [(tunnel_eq_handshake_iff hreads).mpr hsteady, (tunnel_eq_handshake_iff hreads').mpr hsteady', hsame]

def okHead : Octets :=
  [0x48, 0x54, 0x54, 0x50, 0x2F, 0x31, 0x2E, 0x31, 0x20, 0x32, 0x30, 0x30, 0x20, 0x4F, 0x4B, 0x0D, 0x0A, 0x0D, 0x0A]

theorem granting_ok_head {reads : List Octets} (h : reads.flatten = okHead ++ [0x16]) {n : Nat}
    (hn : Granting reads n) : n = 19 := by
  have hend := hn.1
  rw [h] at hend
  exact Option.some.inj (hend.symm.trans (by decide))

/-- The head in two reads and in one, each followed by a byte of the target. -/
theorem tunnel_segmentation_independent_ok_head :
    (tunnel [okHead, [0x16]] .silence).map List.flatten =
      (tunnel [okHead.take 5, okHead.drop 5, [0x16]] .silence).map List.flatten ∧
    (tunnel [okHead.take 5, okHead.drop 5, [0x16]] .silence).map List.flatten =
      handshake (okHead ++ [0x16]) .silence := by
  have hsteady : ∀ n, Granting [okHead.take 5, okHead.drop 5, [0x16]] n →
      Steady [okHead.take 5, okHead.drop 5, [0x16]] n := by
    intro n hn
    obtain rfl := granting_ok_head rfl hn
    exact ⟨⟨[okHead.take 5, okHead.drop 5], [[0x16]], rfl, rfl⟩, by decide⟩
  have hsteady' : ∀ n, Granting [okHead, [0x16]] n → Steady [okHead, [0x16]] n := by
    intro n hn
    obtain rfl := granting_ok_head rfl hn
    exact ⟨⟨[okHead], [[0x16]], rfl, rfl⟩, by decide⟩
  have hboth := tunnel_segmentation_independent
    (show Reads [okHead.take 5, okHead.drop 5, [0x16]] by decide) .silence
  exact ⟨hboth.2 hsteady _ (by decide) rfl hsteady', hboth.1.mpr hsteady⟩

/-- The first byte of the target is lost when it arrives in the read that completes the head. -/
theorem tunnel_drops_surplus :
    Reads [okHead ++ [0x16]] ∧ Reads [okHead, [0x16]] ∧
      [okHead ++ [0x16]].flatten = [okHead, [0x16]].flatten ∧
      (tunnel [okHead ++ [0x16]] .silence).map List.flatten = .established [] ∧
      (tunnel [okHead, [0x16]] .silence).map List.flatten = .established [0x16] := by
  decide

end Hyper4k.Proxy
