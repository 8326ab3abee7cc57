import Mathlib.Data.UInt
import Hyper4k.Runs.Credits
import Hyper4k.Runs.Guarded

/-! The client-wide ceilings of `Limits`: `try_reserve` adds first and takes back when it is refused, one
atomic access at a time. -/
namespace Hyper4k.Bridge
open Runs

def DEFAULT_MAX_INFLIGHT : UInt32 := 1024

def DEFAULT_MAX_BUFFERED_BYTES : UInt64 := 64 * 1024 * 1024

@[ext] structure Limits where
  maxInflight : UInt32
  maxBytes : UInt64
  inflight : UInt32
  bytes : UInt64
  deriving DecidableEq, Repr

/-- `Limits::new`: a ceiling of zero asks for the default. -/
def Limits.new (maxInflight : UInt32) (maxBytes : UInt64) : Limits where
  maxInflight := if maxInflight = 0 then DEFAULT_MAX_INFLIGHT else maxInflight
  maxBytes := if maxBytes = 0 then DEFAULT_MAX_BUFFERED_BYTES else maxBytes
  inflight := 0
  bytes := 0

/-- Where a call of `try_reserve` stands, then the life of its `Reservation`. Each but `idle`, `refused`
and `held` names the access that comes next. -/
inductive ReservePc
  | idle
  | addInflight (bytes : UInt64)
  | addBytes (bytes : UInt64)
  | undoBytes (bytes : UInt64)
  | undoInflight
  | refused
  | held (bytes : UInt64)
  | dropBytes (bytes : UInt64)
  | dropInflight
  deriving DecidableEq, Repr

/-- One access of `try_reserve` or of `Reservation::drop`. The counters wrap. -/
def Limits.access (l : Limits) : ReservePc → Option (Limits × ReservePc)
  | .addInflight bytes =>
    some ({ l with inflight := l.inflight + 1 },
      if l.inflight ≥ l.maxInflight then .undoInflight else .addBytes bytes)
  | .addBytes bytes =>
    some ({ l with bytes := l.bytes + bytes },
      if l.bytes + bytes > l.maxBytes then .undoBytes bytes else .held bytes)
  | .undoBytes bytes => some ({ l with bytes := l.bytes - bytes }, .undoInflight)
  | .undoInflight => some ({ l with inflight := l.inflight - 1 }, .refused)
  | .dropBytes bytes => some ({ l with bytes := l.bytes - bytes }, .dropInflight)
  | .dropInflight => some ({ l with inflight := l.inflight - 1 }, .idle)
  | .idle | .refused | .held _ => none

/-- The limits with every call that is in progress or holds a reservation. -/
@[ext] structure Reservations (ι : Type*) where
  limits : Limits
  pc : ι → ReservePc

inductive ReserveAct (ι : Type*)
  | tryReserve (i : ι) (bytes : UInt64)
  | access (i : ι)
  | drop (i : ι)
  deriving DecidableEq, Repr

namespace Reservations
variable {ι : Type*}

def init (maxInflight : UInt32) (maxBytes : UInt64) : Reservations ι := ⟨.new maxInflight maxBytes, fun _ => .idle⟩

variable [DecidableEq ι]

def step (s : Reservations ι) : ReserveAct ι → Option (Reservations ι)
  | .tryReserve i bytes => match s.pc i with
    | .idle | .refused => some { s with pc := Function.update s.pc i (.addInflight bytes) }
    | _ => none
  | .access i => (s.limits.access (s.pc i)).map fun r => ⟨r.1, Function.update s.pc i r.2⟩
  | .drop i => match s.pc i with
    | .held bytes => some { s with pc := Function.update s.pc i (.dropBytes bytes) }
    | _ => none

end Reservations

namespace ReservePc

def busy : ReservePc → Nat
  | .idle | .refused => 0
  | _ => 1

def demand : ReservePc → Nat
  | .addInflight bytes | .addBytes bytes | .undoBytes bytes | .held bytes | .dropBytes bytes => bytes.toNat
  | _ => 0

/-- What the call has in `inflight`. -/
def units : ReservePc → Nat
  | .idle | .refused | .addInflight _ => 0
  | _ => 1

/-- What the call has in `bytes`. -/
def loads : ReservePc → Nat
  | .undoBytes bytes | .held bytes | .dropBytes bytes => bytes.toNat
  | _ => 0

/-- The unit of a call that passed the first test. -/
def admitted : ReservePc → Nat
  | .addBytes _ | .undoBytes _ | .held _ | .dropBytes _ | .dropInflight => 1
  | _ => 0

/-- The bytes of a call that passed both. -/
def granted : ReservePc → Nat
  | .held bytes | .dropBytes bytes => bytes.toNat
  | _ => 0

def isHeld : ReservePc → Bool
  | .held _ => true
  | _ => false

def settled : ReservePc → Bool
  | .idle | .refused | .held _ => true
  | _ => false

theorem admitted_le_units (pc : ReservePc) : pc.admitted ≤ pc.units := by
  cases pc <;> first | exact le_rfl | exact Nat.zero_le _

theorem units_le_busy (pc : ReservePc) : pc.units ≤ pc.busy := by
  cases pc <;> first | exact le_rfl | exact Nat.zero_le _

theorem loads_le_demand (pc : ReservePc) : pc.loads ≤ pc.demand := by
  cases pc <;> first | exact le_rfl | exact Nat.zero_le _

theorem weights_of_not_busy {pc : ReservePc} (h : pc.busy = 0) :
    pc.units = 0 ∧ pc.loads = 0 ∧ pc.admitted = 0 ∧ pc.granted = 0 := by
  cases pc <;> first | exact ⟨rfl, rfl, rfl, rfl⟩ | cases h

theorem granted_le_loads (pc : ReservePc) : pc.granted ≤ pc.loads := by
  cases pc <;> first | exact le_rfl | exact Nat.zero_le _

end ReservePc

/-- The counters are what the calls have in them, and what was let through is within the ceilings. -/
structure Limits.Counts (l : Limits) (units loads admitted granted : Nat) : Prop where
  inflight : l.inflight.toNat = units
  bytes : l.bytes.toNat = loads
  below : admitted ≤ l.maxInflight.toNat
  within : granted ≤ l.maxBytes.toNat

section Access
variable {l l' : Limits} {pc p : ReservePc} {u u' b b' a a' g g' : Nat}

/-- An access changes the counters by what the call gains and gives back, and lets nothing through beyond a
ceiling. -/
theorem Limits.Counts.access (hc : l.Counts u b a g) (h : l.access pc = some (l', p))
    (hu : u' + pc.units = u + p.units) (hb : b' + pc.loads = b + p.loads)
    (ha : a' + pc.admitted = a + p.admitted) (hg : g' + pc.granted = g + p.granted)
    (hau : a ≤ u) (hgb : g ≤ b) (hunits : u' < 2 ^ 32) (hbytes : b' < 2 ^ 64) : l'.Counts u' b' a' g' := by
  obtain ⟨hinflight, hload, hbelow, hwithin⟩ := hc
  cases pc with
  | idle | refused | held _ => cases h
  | addInflight bytes =>
    cases h
    have hadd : (l.inflight + 1).toNat = (u + 1) % 2 ^ 32 := by
      rw [UInt32.toNat_add, hinflight]
      rfl
    by_cases hfull : l.inflight ≥ l.maxInflight
    · rw [if_pos hfull] at hu hb ha hg
      dsimp only [ReservePc.units, ReservePc.loads, ReservePc.admitted, ReservePc.granted] at hu hb ha hg
      constructor <;> dsimp only <;> omega
    · rw [if_neg hfull] at hu hb ha hg
      dsimp only [ReservePc.units, ReservePc.loads, ReservePc.admitted, ReservePc.granted] at hu hb ha hg
      have hroom : l.inflight.toNat < l.maxInflight.toNat := UInt32.lt_iff_toNat_lt.mp (UInt32.not_le.mp hfull)
      constructor <;> dsimp only <;> omega
  | addBytes bytes =>
    cases h
    have hadd : (l.bytes + bytes).toNat = (b + bytes.toNat) % 2 ^ 64 := by rw [UInt64.toNat_add, hload]
    by_cases hfull : l.bytes + bytes > l.maxBytes
    · rw [if_pos hfull] at hu hb ha hg
      dsimp only [ReservePc.units, ReservePc.loads, ReservePc.admitted, ReservePc.granted] at hu hb ha hg
      constructor <;> dsimp only <;> omega
    · rw [if_neg hfull] at hu hb ha hg
      dsimp only [ReservePc.units, ReservePc.loads, ReservePc.admitted, ReservePc.granted] at hu hb ha hg
      have hroom : (l.bytes + bytes).toNat ≤ l.maxBytes.toNat := UInt64.le_iff_toNat_le.mp (UInt64.not_lt.mp hfull)
      constructor <;> dsimp only <;> omega
  | undoBytes bytes | dropBytes bytes =>
    cases h
    dsimp only [ReservePc.units, ReservePc.loads, ReservePc.admitted, ReservePc.granted] at hu hb ha hg
    have hle : bytes.toNat ≤ l.bytes.toNat := by omega
    have hsub := UInt64.toNat_sub_of_le l.bytes bytes (UInt64.le_iff_toNat_le.mpr hle)
    constructor <;> dsimp only <;> omega
  | undoInflight | dropInflight =>
    cases h
    dsimp only [ReservePc.units, ReservePc.loads, ReservePc.admitted, ReservePc.granted] at hu hb ha hg
    have hle : (1 : UInt32).toNat ≤ l.inflight.toNat := by
      change 1 ≤ _
      omega
    have hsub : (l.inflight - 1).toNat = l.inflight.toNat - 1 :=
      UInt32.toNat_sub_of_le l.inflight 1 (UInt32.le_iff_toNat_le.mpr hle)
    constructor <;> dsimp only <;> omega

/-- A call that makes an access was already counted among the busy ones, with its size. -/
theorem Limits.access_weights (h : l.access pc = some (l', p)) :
    p.units ≤ pc.busy ∧ p.loads ≤ pc.demand ∧ l'.maxInflight = l.maxInflight ∧ l'.maxBytes = l.maxBytes := by
  cases pc with
  | idle | refused | held _ => cases h
  | addInflight bytes | addBytes bytes =>
    cases h
    refine ⟨?_, ?_, rfl, rfl⟩
    · split <;> exact le_rfl
    · split <;> first | exact le_rfl | exact Nat.zero_le _
  | undoBytes bytes | dropBytes bytes =>
    cases h
    exact ⟨le_rfl, Nat.zero_le _, rfl, rfl⟩
  | undoInflight | dropInflight =>
    cases h
    exact ⟨Nat.zero_le _, le_rfl, rfl, rfl⟩

end Access

namespace Reservations
variable {ι : Type*} {s t : Reservations ι}

/-- The sizes that are held or being attempted add up to less than `2 ^ 64`. -/
def SizesFit (s : Reservations ι) : Prop := ∀ T : Finset ι, credits ReservePc.demand T s.pc < 2 ^ 64

/-- Fewer than `2 ^ 32` calls are in progress or hold a reservation. -/
def CallsFit (s : Reservations ι) : Prop := ∀ T : Finset ι, credits ReservePc.busy T s.pc < 2 ^ 32

def Quiet (s : Reservations ι) : Prop := ∀ i, (s.pc i).settled = true

/-- The calls in `T` are all there are, and the counters are what they have in them. -/
structure Accounts (T : Finset ι) (s : Reservations ι) : Prop where
  outside : ∀ i, i ∉ T → (s.pc i).busy = 0
  counts : s.limits.Counts (credits ReservePc.units T s.pc) (credits ReservePc.loads T s.pc)
    (credits ReservePc.admitted T s.pc) (credits ReservePc.granted T s.pc)

theorem Accounts.init (maxInflight : UInt32) (maxBytes : UInt64) :
    Accounts (∅ : Finset ι) (Reservations.init maxInflight maxBytes) where
  outside _ _ := rfl
  counts := ⟨rfl, rfl, Nat.zero_le _, Nat.zero_le _⟩

/-- A step is an access of one call, or moves one call without touching the limits. -/
inductive Stepped [DecidableEq ι] (s : Reservations ι) : ReserveAct ι → Reservations ι → Prop
  | tryReserve (i : ι) (bytes : UInt64) (free : (s.pc i).busy = 0) :
    s.Stepped (.tryReserve i bytes) ⟨s.limits, Function.update s.pc i (.addInflight bytes)⟩
  | access (i : ι) (l : Limits) (p : ReservePc) (h : s.limits.access (s.pc i) = some (l, p)) :
    s.Stepped (.access i) ⟨l, Function.update s.pc i p⟩
  | drop (i : ι) (bytes : UInt64) (on : s.pc i = .held bytes) :
    s.Stepped (.drop i) ⟨s.limits, Function.update s.pc i (.dropBytes bytes)⟩

variable [DecidableEq ι] {T : Finset ι} {a : ReserveAct ι}

theorem step_cases (h : s.step a = some t) : s.Stepped a t := by
  cases a with
  | tryReserve i bytes =>
    simp only [step] at h
    split at h
    case h_1 hi =>
      cases h
      exact .tryReserve i bytes (by rw [hi]; rfl)
    case h_2 hi =>
      cases h
      exact .tryReserve i bytes (by rw [hi]; rfl)
    case h_3 => cases h
  | access i =>
    obtain ⟨⟨l, p⟩, hr, rfl⟩ := Option.map_eq_some_iff.mp h
    exact .access i l p hr
  | drop i =>
    simp only [step] at h
    split at h
    case h_1 bytes hi =>
      cases h
      exact .drop i bytes hi
    case h_2 => cases h

theorem Accounts.outside_update (hs : Accounts T s) (i : ι) (p : ReservePc) :
    ∀ j, j ∉ insert i T → (Function.update s.pc i p j).busy = 0 := by
  intro j hj
  rw [Finset.mem_insert, not_or] at hj
  rw [Function.update_of_ne hj.1]
  exact hs.outside j hj.2

theorem Accounts.move (hs : Accounts T s) {i : ι} {p : ReservePc} (hu : p.units = (s.pc i).units)
    (hb : p.loads = (s.pc i).loads) (ha : p.admitted = (s.pc i).admitted) (hg : p.granted = (s.pc i).granted) :
    Accounts (insert i T) ⟨s.limits, Function.update s.pc i p⟩ := by
  have hzero := fun hi => ReservePc.weights_of_not_busy (hs.outside i hi)
  have hsame {w : ReservePc → Nat} (hw : i ∉ T → w (s.pc i) = 0) (hp : w p = w (s.pc i)) :
      credits w (insert i T) (Function.update s.pc i p) = credits w T s.pc := by
    have hupdate := credits_insert_update (p := p) hw
    omega
  refine ⟨hs.outside_update i p, ?_⟩
  dsimp only
  rw [hsame (fun hi => (hzero hi).1) hu, hsame (fun hi => (hzero hi).2.1) hb, hsame (fun hi => (hzero hi).2.2.1) ha,
    hsame (fun hi => (hzero hi).2.2.2) hg]
  exact hs.counts

/-- What a call may have after its access was its own before. -/
theorem credits_access {w v : ReservePc → Nat} {i : ι} {p : ReservePc} (hle : ∀ q, w q ≤ v q)
    (hp : w p ≤ v (s.pc i)) : credits w (insert i T) (Function.update s.pc i p) ≤ credits v (insert i T) s.pc := by
  apply Finset.sum_le_sum
  intro j _
  by_cases hj : j = i
  · rw [hj, Function.update_self]
    exact hp
  · rw [Function.update_of_ne hj]
    exact hle (s.pc j)

theorem Accounts.step (hs : Accounts T s) (hsizes : s.SizesFit) (hcalls : s.CallsFit) (h : s.Stepped a t) :
    ∃ T', Accounts T' t := by
  cases h with
  | tryReserve i bytes free =>
    obtain ⟨hu, hb, ha, hg⟩ := ReservePc.weights_of_not_busy free
    exact ⟨_, hs.move hu.symm hb.symm ha.symm hg.symm⟩
  | drop i bytes on => exact ⟨_, hs.move (by rw [on]; rfl) (by rw [on]; rfl) (by rw [on]; rfl) (by rw [on]; rfl)⟩
  | access i l p h =>
    have hzero := fun hi => ReservePc.weights_of_not_busy (hs.outside i hi)
    obtain ⟨hunits, hloads, -, -⟩ := Limits.access_weights h
    refine ⟨insert i T, hs.outside_update i p, hs.counts.access h ?_ ?_ ?_ ?_ ?_ ?_ ?_ ?_⟩
    · exact credits_insert_update fun hi => (hzero hi).1
    · exact credits_insert_update fun hi => (hzero hi).2.1
    · exact credits_insert_update fun hi => (hzero hi).2.2.1
    · exact credits_insert_update fun hi => (hzero hi).2.2.2
    · exact credits_le_credits ReservePc.admitted_le_units
    · exact credits_le_credits ReservePc.granted_le_loads
    · exact (credits_access ReservePc.units_le_busy hunits).trans_lt (hcalls _)
    · exact (credits_access ReservePc.loads_le_demand hloads).trans_lt (hsizes _)

theorem step_ceilings (h : s.Stepped a t) :
    t.limits.maxInflight = s.limits.maxInflight ∧ t.limits.maxBytes = s.limits.maxBytes := by
  cases h with
  | tryReserve i bytes free => exact ⟨rfl, rfl⟩
  | drop i bytes on => exact ⟨rfl, rfl⟩
  | access i l p h => exact (Limits.access_weights h).2.2

/-- The set of live reservations, its number and the sum of its sizes. -/
theorem Accounts.live (hs : Accounts T s) : ∃ L : Finset ι, (∀ i, i ∈ L ↔ (s.pc i).isHeld = true) ∧
    L.card ≤ s.limits.maxInflight.toNat ∧ credits ReservePc.granted L s.pc ≤ s.limits.maxBytes.toNat ∧
    (s.Quiet → s.limits.inflight.toNat = L.card ∧ s.limits.bytes.toNat = credits ReservePc.granted L s.pc) := by
  have hheld : ∀ i, i ∈ T.filter (fun i => (s.pc i).isHeld = true) ↔ (s.pc i).isHeld = true := by
    intro i
    rw [Finset.mem_filter]
    refine ⟨And.right, fun hi => ⟨?_, hi⟩⟩
    by_contra hout
    have hbusy := hs.outside i hout
    generalize s.pc i = pc at hi hbusy
    cases pc <;> first | (cases hi; done) | cases hbusy
  obtain ⟨hinflight, hbytes, hbelow, hwithin⟩ := hs.counts
  have hcard : (T.filter fun i => (s.pc i).isHeld = true).card =
      ∑ i ∈ T, if (s.pc i).isHeld = true then 1 else 0 := Finset.card_filter _ _
  have hsum : credits ReservePc.granted (T.filter fun i => (s.pc i).isHeld = true) s.pc =
      ∑ i ∈ T, if (s.pc i).isHeld = true then (s.pc i).granted else 0 := Finset.sum_filter _ _
  refine ⟨_, hheld, ?_, ?_, fun hquiet => ⟨?_, ?_⟩⟩
  · refine le_trans ?_ hbelow
    rw [hcard]
    apply Finset.sum_le_sum
    intro i _
    cases s.pc i <;> first | exact le_rfl | exact Nat.zero_le _
  · refine le_trans ?_ hwithin
    rw [hsum]
    apply Finset.sum_le_sum
    intro i _
    cases s.pc i <;> first | exact le_rfl | exact Nat.zero_le _
  · rw [hinflight, hcard]
    apply Finset.sum_congr rfl
    intro i _
    have hi := hquiet i
    generalize s.pc i = pc at hi
    cases pc <;> first | rfl | cases hi
  · rw [hbytes, hsum]
    apply Finset.sum_congr rfl
    intro i _
    have hi := hquiet i
    generalize s.pc i = pc at hi
    cases pc <;> first | rfl | cases hi

end Reservations

/-- What the limits are at each point of a call that runs alone from `l₀`, and why it was refused. -/
def Limits.Alone (l₀ : Limits) (bytes : UInt64) (l : Limits) : ReservePc → Prop
  | .addInflight b => b = bytes ∧ l = l₀
  | .addBytes b => b = bytes ∧ l = { l₀ with inflight := l₀.inflight + 1 }
  | .undoBytes b => b = bytes ∧ l = { l₀ with inflight := l₀.inflight + 1, bytes := l₀.bytes + bytes } ∧
    l₀.bytes + bytes > l₀.maxBytes
  | .undoInflight => l = { l₀ with inflight := l₀.inflight + 1 } ∧
    (l₀.inflight ≥ l₀.maxInflight ∨ l₀.bytes + bytes > l₀.maxBytes)
  | .refused => l = l₀ ∧ (l₀.inflight ≥ l₀.maxInflight ∨ l₀.bytes + bytes > l₀.maxBytes)
  | .held _ => True
  | .idle | .dropBytes _ | .dropInflight => False

theorem Limits.Alone.access {l₀ l l' : Limits} {bytes : UInt64} {pc p : ReservePc} (hl : l₀.Alone bytes l pc)
    (h : l.access pc = some (l', p)) : l₀.Alone bytes l' p := by
  cases pc with
  | idle | refused | held _ => cases h
  | addInflight b =>
    cases h
    obtain ⟨rfl, rfl⟩ := hl
    by_cases hfull : l.inflight ≥ l.maxInflight
    · rw [if_pos hfull]
      exact ⟨rfl, .inl hfull⟩
    · rw [if_neg hfull]
      exact ⟨rfl, rfl⟩
  | addBytes b =>
    cases h
    obtain ⟨rfl, rfl⟩ := hl
    by_cases hfull : l₀.bytes + b > l₀.maxBytes
    · rw [if_pos hfull]
      exact ⟨rfl, rfl, hfull⟩
    · rw [if_neg hfull]
      trivial
  | undoBytes b =>
    cases h
    obtain ⟨rfl, rfl, hfull⟩ := hl
    refine ⟨?_, .inr hfull⟩
    simp only [UInt64.add_sub_cancel]
  | undoInflight =>
    cases h
    obtain ⟨rfl, hwhy⟩ := hl
    refine ⟨?_, hwhy⟩
    simp only [UInt32.add_sub_cancel]
  | dropBytes _ | dropInflight => cases hl

section Ceilings
variable {ι : Type*} [DecidableEq ι] {maxInflight : UInt32} {maxBytes : UInt64} {as : List (ReserveAct ι)}
  {s t : Reservations ι}

theorem Reservations.accounts (h : Run Reservations.step (fun s _ => s.SizesFit ∧ s.CallsFit)
    (.init maxInflight maxBytes) as s) : (∃ T, Reservations.Accounts T s) ∧
      s.limits.maxInflight = (Limits.new maxInflight maxBytes).maxInflight ∧
      s.limits.maxBytes = (Limits.new maxInflight maxBytes).maxBytes := by
  refine Run.invariant (I := fun s : Reservations ι => (∃ T, Reservations.Accounts T s) ∧
    s.limits.maxInflight = (Limits.new maxInflight maxBytes).maxInflight ∧
    s.limits.maxBytes = (Limits.new maxInflight maxBytes).maxBytes) h ?_ ?_
  · intro s a t hfit hs hstep
    obtain ⟨⟨T, hT⟩, hmax, hmaxb⟩ := hs
    have hstepped := Reservations.step_cases hstep
    obtain ⟨hsame, hsameb⟩ := Reservations.step_ceilings hstepped
    exact ⟨hT.step hfit.1 hfit.2 hstepped, hsame.trans hmax, hsameb.trans hmaxb⟩
  · exact ⟨⟨∅, Reservations.Accounts.init maxInflight maxBytes⟩, rfl, rfl⟩

/-- A call that runs alone and is refused met a ceiling, and left the limits as they were. -/
theorem Reservations.refused_alone {i : ι} {bytes : UInt64} {k : Nat}
    (h : Run Reservations.step anyStep s (.tryReserve i bytes :: List.replicate k (.access i)) t)
    (hrefused : t.pc i = .refused) : t.limits = s.limits ∧
      (s.limits.inflight ≥ s.limits.maxInflight ∨ s.limits.bytes + bytes > s.limits.maxBytes) := by
  cases h with
  | cons _ move rest =>
    cases Reservations.step_cases move with
    | tryReserve _ _ free =>
      have halone : s.limits.Alone bytes t.limits (t.pc i) := by
        refine Run.invariant (I := fun t : Reservations ι => s.limits.Alone bytes t.limits (t.pc i)) rest.mem ?_ ?_
        · intro u a v hmem hu hstep
          obtain rfl := List.eq_of_mem_replicate hmem.2
          cases Reservations.step_cases hstep with
          | access _ l p h =>
            dsimp only
            rw [Function.update_self]
            exact hu.access h
        · dsimp only
          rw [Function.update_self]
          exact ⟨rfl, rfl⟩
      rw [hrefused] at halone
      exact halone

/-- In every interleaving the live reservations stay within both ceilings. Between calls the counters are
their number and the sum of their sizes, and a call that then runs alone is refused only for a ceiling. -/
theorem limits_hold (h : Run Reservations.step (fun s _ => s.SizesFit ∧ s.CallsFit)
    (.init maxInflight maxBytes) as s) :
    ∃ L : Finset ι, (∀ i, i ∈ L ↔ (s.pc i).isHeld = true) ∧
      L.card ≤ (Limits.new maxInflight maxBytes).maxInflight.toNat ∧
      ∑ i ∈ L, (s.pc i).granted ≤ (Limits.new maxInflight maxBytes).maxBytes.toNat ∧
      (s.Quiet → s.limits.inflight.toNat = L.card ∧ s.limits.bytes.toNat = ∑ i ∈ L, (s.pc i).granted ∧
        ∀ i bytes k t, Run Reservations.step anyStep s (.tryReserve i bytes :: List.replicate k (.access i)) t →
          t.pc i = .refused → t.limits = s.limits ∧
            ((Limits.new maxInflight maxBytes).maxInflight.toNat < L.card + 1 ∨
              (Limits.new maxInflight maxBytes).maxBytes.toNat < ∑ i ∈ L, (s.pc i).granted + bytes.toNat)) := by
  obtain ⟨⟨T, hT⟩, hmax, hmaxb⟩ := Reservations.accounts h
  obtain ⟨L, hL, hcard, hsum, hquiet⟩ := hT.live
  rw [← hmax, ← hmaxb]
  refine ⟨L, hL, hcard, hsum, fun hq => ?_⟩
  obtain ⟨hinflight, hbytes⟩ := hquiet hq
  refine ⟨hinflight, hbytes, fun i bytes k t hrun hrefused => ?_⟩
  obtain ⟨hsame, hwhy⟩ := Reservations.refused_alone hrun hrefused
  refine ⟨hsame, hwhy.imp (fun hfull => ?_) fun hfull => ?_⟩
  · have hle := UInt32.le_iff_toNat_le.mp hfull
    omega
  · have hlt := UInt64.lt_iff_toNat_lt.mp hfull
    have hwrap := Nat.mod_le (s.limits.bytes.toNat + bytes.toNat) (2 ^ 64)
    rw [UInt64.toNat_add] at hlt
    change _ < credits ReservePc.granted L s.pc + _
    omega

/-- One busy call alone always fits. -/
theorem Reservations.fits_of_sole {i : ι} (h : ∀ j, j ≠ i → (s.pc j).busy = 0) : s.SizesFit ∧ s.CallsFit := by
  have hsum {w : ReservePc → Nat} (hw : ∀ q : ReservePc, q.busy = 0 → w q = 0) (T : Finset ι) :
      credits w T s.pc ≤ w (s.pc i) := by
    calc credits w T s.pc ≤ credits w (insert i T) s.pc :=
          Finset.sum_le_sum_of_subset (Finset.subset_insert i T)
      _ = w (s.pc i) := Finset.sum_eq_single i (fun j _ hj => hw _ (h j hj))
          fun hi => absurd (Finset.mem_insert_self i T) hi
  constructor
  · intro T
    refine (hsum (fun q hq => ?_) T).trans_lt ?_
    · cases q <;> first | rfl | cases hq
    · cases s.pc i <;> first | exact UInt64.toNat_lt _ | exact Nat.two_pow_pos 64
  · intro T
    refine (hsum (fun _ hq => hq) T).trans_lt ?_
    cases s.pc i <;> first | exact Nat.one_lt_two_pow (by decide) | exact Nat.two_pow_pos 32

omit [DecidableEq ι] in
theorem Reservations.sizesFit_of_zero (h : ∀ i, (s.pc i).demand = 0) : s.SizesFit := by
  intro T
  rw [credits, Finset.sum_eq_zero fun i _ => h i]
  exact Nat.two_pow_pos 64

/-- A call that runs alone is granted if there is room. -/
theorem Reservations.grant {P : Reservations ι → Prop} {i : ι} {b : UInt64} (hidle : s.pc i = .idle)
    (hroom : s.limits.inflight < s.limits.maxInflight) (hbytes : s.limits.bytes + b ≤ s.limits.maxBytes) (hs : P s)
    (hok : ∀ (l : Limits) (p : ReservePc), p.demand ≤ b.toNat → P ⟨l, Function.update s.pc i p⟩) :
    Run Reservations.step (fun s _ => P s) s [.tryReserve i b, .access i, .access i]
      ⟨{ s.limits with inflight := s.limits.inflight + 1, bytes := s.limits.bytes + b },
        Function.update s.pc i (.held b)⟩ := by
  have hasked : s.step (.tryReserve i b) = some ⟨s.limits, Function.update s.pc i (.addInflight b)⟩ := by
    rw [Reservations.step, hidle]
  have hadded : Reservations.step ⟨s.limits, Function.update s.pc i (.addInflight b)⟩ (.access i) =
      some ⟨{ s.limits with inflight := s.limits.inflight + 1 }, Function.update s.pc i (.addBytes b)⟩ := by
    have hfree : ¬ s.limits.inflight ≥ s.limits.maxInflight := UInt32.not_le.mpr hroom
    simp only [Reservations.step, Function.update_self, Limits.access, if_neg hfree, Option.map_some,
      Function.update_idem]
  have hgranted : Reservations.step ⟨{ s.limits with inflight := s.limits.inflight + 1 },
      Function.update s.pc i (.addBytes b)⟩ (.access i) =
      some ⟨{ s.limits with inflight := s.limits.inflight + 1, bytes := s.limits.bytes + b },
        Function.update s.pc i (.held b)⟩ := by
    have hfree : ¬ s.limits.bytes + b > s.limits.maxBytes := UInt64.not_lt.mpr hbytes
    simp only [Reservations.step, Function.update_self, Limits.access, if_neg hfree, Option.map_some,
      Function.update_idem]
  exact .cons hs hasked (.cons (hok _ _ le_rfl) hadded (.cons (hok _ _ le_rfl) hgranted (.nil _)))

end Ceilings

/-- A client with one place, which call 0 has taken with five bytes. -/
def oneHeld : Reservations Nat := ⟨⟨1, 8, 1, 5⟩, Function.update (fun _ => .idle) 0 (.held 5)⟩

/-- The next call finds the place taken, and leaves the counters alone. -/
theorem limits_hold_one_place :
    Run Reservations.step (fun s _ => s.SizesFit ∧ s.CallsFit) (.init 1 8) [.tryReserve 0 5, .access 0, .access 0]
      oneHeld ∧ oneHeld.Quiet ∧
    (∃ t, Run Reservations.step anyStep oneHeld (.tryReserve 1 3 :: List.replicate 2 (.access 1)) t ∧
      t.pc 1 = .refused ∧ t.limits = oneHeld.limits) ∧
    ∃ L : Finset Nat, (∀ i, i ∈ L ↔ (oneHeld.pc i).isHeld = true) ∧ L.card ≤ 1 ∧
      oneHeld.limits.inflight.toNat = L.card := by
  have hrun : Run Reservations.step (fun s _ => s.SizesFit ∧ s.CallsFit) (.init 1 8)
      [.tryReserve 0 5, .access 0, .access 0] oneHeld := by
    refine Reservations.grant (s := .init 1 8) (i := 0) (b := 5) rfl (by decide) (by decide)
      (Reservations.fits_of_sole (i := 0) fun _ _ => rfl) fun l p _ => ?_
    refine Reservations.fits_of_sole (i := 0) fun j hj => ?_
    dsimp only
    rw [Function.update_of_ne hj]
    rfl
  have hquiet : oneHeld.Quiet := forall_update (Q := fun _ (q : ReservePc) => q.settled = true) rfl fun _ _ => rfl
  have hsecond : (replay Reservations.step anyStep oneHeld (.tryReserve 1 3 :: List.replicate 2 (.access 1))).any
      (fun t => decide (t.pc 1 = .refused)) = true := by decide
  obtain ⟨t, ht, hrefused⟩ := (Option.any_eq_true _ _).mp hsecond
  have hrefused := of_decide_eq_true hrefused
  obtain ⟨L, hL, hcard, -, hexact⟩ := limits_hold hrun
  obtain ⟨hinflight, -, halone⟩ := hexact hquiet
  have hsame := (halone 1 3 2 t (run_of_replay ht) hrefused).1
  exact ⟨hrun, hquiet, ⟨t, run_of_replay ht, hrefused, hsame⟩, L, hL, hcard, hinflight⟩

/-- The calls below `n` hold empty reservations of a client with the largest ceiling. -/
def holders (n : Nat) : Reservations Nat :=
  ⟨⟨0xFFFFFFFF, 1, UInt32.ofNat n, 0⟩, fun i => if i < n then .held 0 else .idle⟩

theorem holders_demand (n i : Nat) : ((holders n).pc i).demand = 0 := by
  simp only [holders]
  split <;> rfl

theorem sizesFit_update {f : Nat → ReservePc} (hf : ∀ i, (f i).demand = 0) (i : Nat) (l : Limits) (p : ReservePc)
    (hp : p.demand ≤ (0 : UInt64).toNat) : (Reservations.mk l (Function.update f i p)).SizesFit :=
  Reservations.sizesFit_of_zero (forall_update (Q := fun _ (q : ReservePc) => q.demand = 0)
    (Nat.eq_zero_of_le_zero hp) fun j _ => hf j)

theorem holders_succ (n : Nat) :
    Reservations.mk ⟨0xFFFFFFFF, 1, UInt32.ofNat n + 1, 0 + 0⟩ (Function.update (holders n).pc n (.held 0)) =
      holders (n + 1) := by
  refine Reservations.ext ?_ ?_
  · simp only [holders, UInt32.ofNat_add]
    rfl
  · funext i
    simp only [holders, Function.update_apply]
    split_ifs <;> first | rfl | omega

theorem holders_reached {n : Nat} (hn : n < 2 ^ 32) :
    ∃ as, Run Reservations.step (fun s _ => s.SizesFit) (.init 0xFFFFFFFF 1) as (holders n) := by
  induction n with
  | zero => exact ⟨[], .nil _⟩
  | succ n ih =>
    obtain ⟨as, has⟩ := ih (by omega)
    have hroom : (holders n).limits.inflight < (holders n).limits.maxInflight := by
      rw [UInt32.lt_iff_toNat_lt]
      change (UInt32.ofNat n).toNat < 4294967295
      rw [UInt32.toNat_ofNat', Nat.mod_eq_of_lt (by omega)]
      omega
    have hnext : Run Reservations.step (fun s _ => s.SizesFit) (holders n) [.tryReserve n 0, .access n, .access n]
        (holders (n + 1)) := by
      rw [← holders_succ]
      exact Reservations.grant (if_neg (Nat.lt_irrefl n)) hroom (by decide : (0 : UInt64) + 0 ≤ 1)
        (Reservations.sizesFit_of_zero (holders_demand n)) (sizesFit_update (holders_demand n) n)
    exact ⟨_, has.append hnext⟩

/-- With `2 ^ 32 - 1` reservations a refused call wraps `inflight` to zero until it takes its unit back, and
a call in between is granted beyond the ceiling. -/
theorem inflight_ceiling_wraps : ¬ ∀ (maxInflight : UInt32) (maxBytes : UInt64) (as : List (ReserveAct Nat))
    (s : Reservations Nat), Run Reservations.step (fun s _ => s.SizesFit) (.init maxInflight maxBytes) as s →
    ∀ L : Finset Nat, (∀ i ∈ L, (s.pc i).isHeld = true) →
      L.card ≤ (Limits.new maxInflight maxBytes).maxInflight.toNat := by
  intro h
  obtain ⟨N, hN⟩ : ∃ N, N = 2 ^ 32 - 1 := ⟨_, rfl⟩
  obtain ⟨as, has⟩ := holders_reached (n := N) (by omega)
  have hfull : UInt32.ofNat N = 0xFFFFFFFF := by rw [hN]; rfl
  let full : Limits := ⟨0xFFFFFFFF, 1, UInt32.ofNat N, 0⟩
  have hasked : (holders N).step (.tryReserve N 0) =
      some ⟨full, Function.update (holders N).pc N (.addInflight 0)⟩ := by
    rw [Reservations.step, show (holders N).pc N = .idle from if_neg (Nat.lt_irrefl N)]
    rfl
  have hwrapped : Reservations.step ⟨full, Function.update (holders N).pc N (.addInflight 0)⟩ (.access N) =
      some ⟨⟨0xFFFFFFFF, 1, 0, 0⟩, Function.update (holders N).pc N .undoInflight⟩ := by
    have hge : full.inflight ≥ full.maxInflight := UInt32.le_of_eq hfull.symm
    have hzero : full.inflight + 1 = 0 := by
      change UInt32.ofNat N + 1 = 0
      rw [hfull]
      rfl
    simp only [Reservations.step, Function.update_self, Limits.access, if_pos hge, Option.map_some,
      Function.update_idem, hzero]
    rfl
  have hzeros : ∀ j, (Function.update (holders N).pc N .undoInflight j).demand = 0 :=
    forall_update (Q := fun _ (q : ReservePc) => q.demand = 0) rfl fun j _ => holders_demand N j
  have hnext : Reservations.SizesFit ⟨full, Function.update (holders N).pc N (.addInflight 0)⟩ :=
    sizesFit_update (holders_demand N) N _ _ le_rfl
  have hidle : Function.update (holders N).pc N .undoInflight (N + 1) = .idle := by
    rw [Function.update_of_ne (Nat.succ_ne_self N)]
    exact if_neg (by omega)
  have hgrant := Reservations.grant (s := ⟨⟨0xFFFFFFFF, 1, 0, 0⟩, Function.update (holders N).pc N .undoInflight⟩)
    (P := Reservations.SizesFit) (i := N + 1) (b := 0) hidle (by decide : (0 : UInt32) < 0xFFFFFFFF)
    (by decide : (0 : UInt64) + 0 ≤ 1)
    (Reservations.sizesFit_of_zero hzeros) (sizesFit_update hzeros (N + 1))
  have hrun :=
    has.append (.cons (Reservations.sizesFit_of_zero (holders_demand N)) hasked (.cons hnext hwrapped hgrant))
  have hle := h _ _ _ _ hrun (insert (N + 1) (Finset.range N)) fun i hi => ?_
  · have hnot : N + 1 ∉ Finset.range N := by
      rw [Finset.mem_range]
      omega
    rw [Finset.card_insert_of_notMem hnot, Finset.card_range] at hle
    have hmax : (Limits.new 0xFFFFFFFF 1).maxInflight.toNat = 2 ^ 32 - 1 := by decide
    omega
  · dsimp only
    rcases Finset.mem_insert.mp hi with rfl | hi
    · rw [Function.update_self]
      rfl
    · have hlt := Finset.mem_range.mp hi
      rw [Function.update_of_ne (by omega), Function.update_of_ne (by omega),
        show (holders N).pc i = .held 0 from if_pos hlt]
      rfl

end Hyper4k.Bridge
