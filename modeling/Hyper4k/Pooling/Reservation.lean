import Hyper4k.Pooling.Acquire
import Hyper4k.Runs.Credits
import Hyper4k.Runs.Threads

/-! Parked streams and the window of their connection: the requests of one pool, each bound to the
connection of its lease, paused by the owner of its slot and resumed by any number of threads. -/
namespace Hyper4k.Pooling
open Bridge (ConnId)
open Runs

def STREAM_WINDOW : Int := 1024 * 1024

def CONNECTION_WINDOW : Int := DEFAULT_PAUSED_CAP * STREAM_WINDOW + 4 * 1024 * 1024

abbrev StreamId := Nat

/-- The next access of `enter_pause`, which the owner of the slot runs. -/
inductive EnterPc
  | idle
  | setPaused
  | newGuard
  | storeGuard (guard : Option ConnId)
  deriving DecidableEq, Repr

/-- The next access of `leave_pause`. -/
inductive LeavePc
  | idle
  | clearPaused (r : StreamId)
  | dropGuard (r : StreamId)
  deriving DecidableEq, Repr

/-- The part of `RequestState` that a pause reads and writes, and where the owner of its slot is in
`enter_pause`. -/
structure Stream where
  conn : Option ConnId := none
  committed : Bool := false
  paused : Bool := false
  pauseGuard : Option ConnId := none
  entering : EnterPc := .idle
  deriving DecidableEq, Repr

/-- `requests` are those that have been bound to a connection and whose state somebody still has. -/
structure Traffic where
  pool : Pool := {}
  requests : Finset StreamId := ∅
  streams : StreamId → Stream := fun _ => {}
  leavers : Nat → LeavePc := fun _ => .idle

namespace Traffic

def setStream (s : Traffic) (r : StreamId) (x : Stream) : Traffic :=
  { s with streams := Function.update s.streams r x }

def setLeaver (s : Traffic) (u : Nat) (pc : LeavePc) : Traffic :=
  { s with leavers := Function.update s.leavers u pc }

def addPaused (s : Traffic) (conn : Option ConnId) (d : Int) : Traffic :=
  match conn with
  | some c => { s with pool := s.pool.addPaused c d }
  | none => s

def enter (s : Traffic) (r : StreamId) : Option Traffic :=
  let x := s.streams r
  match x.entering with
  | .idle => none
  | .setPaused => some (s.setStream r { x with paused := true, entering := .newGuard })
  | .newGuard => some ((s.addPaused x.conn 1).setStream r { x with entering := .storeGuard x.conn })
  -- the guard that is overwritten is dropped
  | .storeGuard guard =>
    some ((s.addPaused x.pauseGuard (-1)).setStream r { x with pauseGuard := guard, entering := .idle })

def leave (s : Traffic) (u : Nat) : Option Traffic :=
  match s.leavers u with
  | .idle => none
  | .clearPaused r => some ((s.setStream r { s.streams r with paused := false }).setLeaver u (.dropGuard r))
  | .dropGuard r =>
    some (((s.addPaused (s.streams r).pauseGuard (-1)).setStream r
      { s.streams r with pauseGuard := none }).setLeaver u .idle)

end Traffic

inductive Move
  | pool (a : Act)
  | bind (t : TaskId) (r : StreamId)
  | commit (r : StreamId)
  | enterPause (r : StreamId)
  | enter (r : StreamId)
  | leavePause (u : Nat) (r : StreamId)
  | leave (u : Nat)
  | expire (r : StreamId)
  deriving DecidableEq

def Traffic.step (limits : Limits) (s : Traffic) : Move → Option Traffic
  -- guards are made and dropped by `enter_pause` and `leave_pause` only
  | .pool (.newGuard _) | .pool (.dropGuard _) => none
  | .pool a => (s.pool.step limits a).map fun pool => { s with pool }
  -- an attempt is repeated only as long as no event has been queued
  | .bind t r => match s.pool.tasks t with
    | .leased c =>
      if (s.streams r).committed then none
      else some ({ s with requests := insert r s.requests }.setStream r { s.streams r with conn := some c })
    | _ => none
  | .commit r => if r ∈ s.requests then some (s.setStream r { s.streams r with committed := true }) else none
  | .enterPause r =>
    if (s.streams r).committed ∧ (s.streams r).entering = .idle then
      some (s.setStream r { s.streams r with entering := .setPaused })
    else none
  | .enter r => s.enter r
  | .leavePause u r => match s.leavers u with
    | .idle => some (s.setLeaver u (.clearPaused r))
    | _ => none
  | .leave u => s.leave u
  -- the state is dropped, and its guard with it
  | .expire r =>
    if (s.streams r).entering = .idle then
      some ({ s.addPaused (s.streams r).pauseGuard (-1) with requests := s.requests.erase r }.setStream r {})
    else none

abbrev Traffic.Reaches (limits : Limits) (ok : Traffic → Move → Prop) (as : List Move) (s : Traffic) : Prop :=
  Run (Traffic.step limits) ok {} as s

def Traffic.bound (s : Traffic) (c : ConnId) : Finset StreamId :=
  s.requests.filter fun r => (s.streams r).conn = some c

/-- A connection takes on a request only while fewer others than the cap are bound to it, and a stream makes a
guard only when the one of its last pause is gone. -/
def Traffic.AdmitsBelowCap (s : Traffic) : Move → Prop
  | .bind t r => ∀ c ∈ (s.pool.tasks t).lease, ((s.bound c).erase r).card < DEFAULT_PAUSED_CAP
  | .enter r => (s.streams r).entering = .newGuard → (s.streams r).pauseGuard = none
  | _ => True

instance (s : Traffic) : (m : Move) → Decidable (s.AdmitsBelowCap m)
  | .bind t r =>
    inferInstanceAs (Decidable (∀ c ∈ (s.pool.tasks t).lease, ((s.bound c).erase r).card < DEFAULT_PAUSED_CAP))
  | .enter r => inferInstanceAs (Decidable ((s.streams r).entering = .newGuard → (s.streams r).pauseGuard = none))
  | .pool _ | .commit _ | .enterPause _ | .leavePause _ _ | .leave _ | .expire _ => inferInstanceAs (Decidable True)

def EnterPc.inHand : EnterPc → Option ConnId
  | .storeGuard guard => guard
  | _ => none

def unit (c : ConnId) (guard : Option ConnId) : Nat := if guard = some c then 1 else 0

/-- The guards of a connection that a stream holds or is about to hold. -/
def units (c : ConnId) (x : Stream) : Nat := unit c x.pauseGuard + unit c x.entering.inHand

section Guards

@[simp] theorem unit_none (c : ConnId) : unit c none = 0 := rfl

private theorem exec_paused {limits : Limits} {s p : Pool} {t : TaskId} (h : s.exec limits t = some p) (c : ConnId) :
    (p.entries c).paused = (s.entries c).paused := by
  unfold Pool.exec at h
  repeat' split at h
  all_goals first
    | (cases h; rfl)
    | (cases h; exact update_part (f := Conn.paused) (by rfl) c)
    | cases h

/-- The pool on its own never touches a count of paused streams. -/
theorem Pool.step_paused {limits : Limits} {s p : Pool} {a : Act} (h : s.step limits a = some p)
    (hnew : ∀ c, a ≠ .newGuard c) (hdrop : ∀ c, a ≠ .dropGuard c) (c : ConnId) :
    (p.entries c).paused = (s.entries c).paused := by
  cases a with
  | exec t => exact exec_paused h c
  | peerClose i =>
    cases h
    exact update_part (f := Conn.paused) (by rfl) c
  | newGuard i => exact absurd rfl (hnew i)
  | dropGuard i => exact absurd rfl (hdrop i)
  | acquire | connected | abandon | dropLease | forget =>
    simp only [Pool.step] at h
    split at h <;> cases h <;> rfl

theorem Traffic.addPaused_paused (s : Traffic) (conn : Option ConnId) (d : Int) (c : ConnId) :
    ((s.addPaused conn d).pool.entries c).paused = (s.pool.entries c).paused + d * unit c conn := by
  cases conn with
  | none => simp [Traffic.addPaused]
  | some i =>
    by_cases hi : i = c
    · subst hi
      simp [Traffic.addPaused, Pool.addPaused, Pool.setEntry, unit]
    · simp [Traffic.addPaused, Pool.addPaused, Pool.setEntry, unit, hi, Function.update_of_ne (Ne.symm hi)]

theorem Traffic.addPaused_streams (s : Traffic) (conn : Option ConnId) (d : Int) :
    (s.addPaused conn d).streams = s.streams ∧ (s.addPaused conn d).requests = s.requests := by
  cases conn <;> exact ⟨rfl, rfl⟩

end Guards

/-- What a step does to a stream. It takes note of what it is or is not; before the first event it is bound;
afterwards it may be paused; in the end it is gone. -/
inductive Traffic.Stepped (s : Traffic) : Move → Traffic → Prop
  | quiet {m : Move} {t : Traffic} (streams : t.streams = s.streams) (requests : t.requests = s.requests)
      (paused : ∀ c, (t.pool.entries c).paused = (s.pool.entries c).paused) : s.Stepped m t
  | bind (i : TaskId) (r : StreamId) (c : ConnId) (lease : s.pool.tasks i = .leased c)
      (early : (s.streams r).committed = false) :
      s.Stepped (.bind i r) ({ s with requests := insert r s.requests }.setStream r { s.streams r with conn := some c })
  | commit (r : StreamId) (bound : r ∈ s.requests) :
      s.Stepped (.commit r) (s.setStream r { s.streams r with committed := true })
  | enterPause (r : StreamId) (late : (s.streams r).committed = true) (idle : (s.streams r).entering = .idle) :
      s.Stepped (.enterPause r) (s.setStream r { s.streams r with entering := .setPaused })
  | setPaused (r : StreamId) (pc : (s.streams r).entering = .setPaused) :
      s.Stepped (.enter r) (s.setStream r { s.streams r with paused := true, entering := .newGuard })
  | newGuard (r : StreamId) (pc : (s.streams r).entering = .newGuard) :
      s.Stepped (.enter r) ((s.addPaused (s.streams r).conn 1).setStream r
        { s.streams r with entering := .storeGuard (s.streams r).conn })
  | storeGuard (r : StreamId) (guard : Option ConnId) (pc : (s.streams r).entering = .storeGuard guard) :
      s.Stepped (.enter r) ((s.addPaused (s.streams r).pauseGuard (-1)).setStream r
        { s.streams r with pauseGuard := guard, entering := .idle })
  | clearPaused (u : Nat) (r : StreamId) :
      s.Stepped (.leave u) ((s.setStream r { s.streams r with paused := false }).setLeaver u (.dropGuard r))
  | dropGuard (u : Nat) (r : StreamId) :
      s.Stepped (.leave u) (((s.addPaused (s.streams r).pauseGuard (-1)).setStream r
        { s.streams r with pauseGuard := none }).setLeaver u .idle)
  | expire (r : StreamId) (idle : (s.streams r).entering = .idle) :
      s.Stepped (.expire r)
        ({ s.addPaused (s.streams r).pauseGuard (-1) with requests := s.requests.erase r }.setStream r {})

theorem Traffic.step_cases {limits : Limits} {s t : Traffic} {m : Move} (h : s.step limits m = some t) :
    s.Stepped m t := by
  cases m with
  | pool a =>
    have hpool : (∀ c, a ≠ .newGuard c) ∧ (∀ c, a ≠ .dropGuard c) ∧ ∃ p, s.pool.step limits a = some p ∧
        t = { s with pool := p } := by
      cases a with
      | newGuard c | dropGuard c => cases h
      | _ =>
        simp only [Traffic.step, Option.map_eq_some_iff] at h
        obtain ⟨p, hp, rfl⟩ := h
        exact ⟨fun c e => (by cases e), fun c e => (by cases e), p, hp, rfl⟩
    obtain ⟨hnew, hdrop, p, hp, rfl⟩ := hpool
    exact .quiet rfl rfl (Pool.step_paused hp hnew hdrop)
  | bind i r =>
    simp only [Traffic.step] at h
    split at h
    · rename_i c hlease
      split at h <;> cases h
      rename_i hearly
      exact .bind i r c hlease (Bool.eq_false_iff.mpr hearly)
    · cases h
  | commit r =>
    simp only [Traffic.step] at h
    split at h <;> cases h
    rename_i hbound
    exact .commit r hbound
  | enterPause r =>
    simp only [Traffic.step] at h
    split at h <;> cases h
    rename_i hpc
    exact .enterPause r hpc.1 hpc.2
  | enter r =>
    simp only [Traffic.step, Traffic.enter] at h
    cases hpc : (s.streams r).entering with
    | idle =>
      rw [hpc] at h
      cases h
    | setPaused =>
      rw [hpc] at h
      cases h
      exact .setPaused r hpc
    | newGuard =>
      rw [hpc] at h
      cases h
      exact .newGuard r hpc
    | storeGuard guard =>
      rw [hpc] at h
      cases h
      exact .storeGuard r guard hpc
  | leavePause u r =>
    simp only [Traffic.step] at h
    split at h <;> cases h
    exact .quiet rfl rfl fun _ => rfl
  | leave u =>
    simp only [Traffic.step, Traffic.leave] at h
    split at h <;> cases h
    · exact .clearPaused u _
    · exact .dropGuard u _
  | expire r =>
    simp only [Traffic.step] at h
    split at h <;> cases h
    rename_i hidle
    exact .expire r hidle

section Counting
variable {s t : Traffic} {m : Move} {S : Finset StreamId}

/-- The paused count of a connection is the number of guards on it, all of them with the streams in `S`. -/
structure Traffic.Counted (S : Finset StreamId) (s : Traffic) : Prop where
  support : ∀ r, r ∉ S → ∀ c, units c (s.streams r) = 0
  count : ∀ c, (s.pool.entries c).paused = credits (units c) S s.streams

theorem Traffic.Counted.init : ({} : Traffic).Counted ∅ where
  support _ _ _ := rfl
  count _ := rfl

theorem Traffic.Counted.move (hs : s.Counted S) (r : StreamId) (x : Stream)
    (streams : t.streams = Function.update s.streams r x)
    (count : ∀ c, (t.pool.entries c).paused + units c (s.streams r) = (s.pool.entries c).paused + units c x) :
    t.Counted (insert r S) := by
  refine ⟨fun q hq c => ?_, fun c => ?_⟩
  · rw [Finset.mem_insert, not_or] at hq
    rw [streams, Function.update_of_ne hq.1]
    exact hs.support q hq.2 c
  · have hr : credits (units c) (insert r S) (Function.update s.streams r x) + units c (s.streams r) =
        credits (units c) S s.streams + units c x := credits_insert_update fun hr => hs.support r hr c
    have hold := hs.count c
    have hstep := count c
    rw [streams]
    omega

theorem Traffic.Counted.step (hs : s.Counted S) (h : s.Stepped m t) : ∃ S', t.Counted S' := by
  cases h with
  | quiet streams requests paused =>
    refine ⟨S, fun r hr c => ?_, fun c => ?_⟩
    · rw [streams]
      exact hs.support r hr c
    · rw [paused, streams]
      exact hs.count c
  | bind i r c lease early => exact ⟨_, hs.move r _ rfl fun _ => rfl⟩
  | commit r => exact ⟨_, hs.move r _ rfl fun _ => rfl⟩
  | enterPause r late idle =>
    refine ⟨_, hs.move r _ rfl fun c => ?_⟩
    rw [units, units, idle]
    rfl
  | setPaused r pc =>
    refine ⟨_, hs.move r _ rfl fun c => ?_⟩
    rw [units, units, pc]
    rfl
  | newGuard r pc =>
    refine ⟨_, hs.move r { s.streams r with entering := .storeGuard (s.streams r).conn } ?_ fun c => ?_⟩
    · exact congrArg (Function.update · r _) (s.addPaused_streams _ _).1
    · change ((s.addPaused (s.streams r).conn 1).pool.entries c).paused + _ = _
      rw [s.addPaused_paused, units, units, pc]
      simp only [EnterPc.inHand, unit_none]
      omega
  | storeGuard r guard pc =>
    refine ⟨_, hs.move r { s.streams r with pauseGuard := guard, entering := .idle } ?_ fun c => ?_⟩
    · exact congrArg (Function.update · r _) (s.addPaused_streams _ _).1
    · change ((s.addPaused (s.streams r).pauseGuard (-1)).pool.entries c).paused + _ = _
      rw [s.addPaused_paused, units, units, pc]
      simp only [EnterPc.inHand, unit_none]
      omega
  | clearPaused u r => exact ⟨_, hs.move r _ rfl fun _ => rfl⟩
  | dropGuard u r =>
    refine ⟨_, hs.move r { s.streams r with pauseGuard := none } ?_ fun c => ?_⟩
    · exact congrArg (Function.update · r _) (s.addPaused_streams _ _).1
    · change ((s.addPaused (s.streams r).pauseGuard (-1)).pool.entries c).paused + _ = _
      rw [s.addPaused_paused, units, units]
      simp only [unit_none]
      omega
  | expire r idle =>
    refine ⟨_, hs.move r {} ?_ fun c => ?_⟩
    · exact congrArg (Function.update · r _) (s.addPaused_streams _ _).1
    · change ((s.addPaused (s.streams r).pauseGuard (-1)).pool.entries c).paused + _ = _
      rw [s.addPaused_paused, units, units, idle]
      simp only [EnterPc.inHand, unit_none]
      omega

end Counting

/-- What is known of a stream: it is paused and has guards only after its first event, which comes from a
connection that it stays bound to, and it makes a guard only when it has none. -/
structure Stream.Sound (requests : Finset StreamId) (r : StreamId) (x : Stream) : Prop where
  bound : x.committed = true → r ∈ requests
  entering : x.entering ≠ .idle → x.committed = true
  paused : x.paused = true → x.committed = true
  guard : ∀ c, x.pauseGuard = some c → x.committed = true ∧ x.conn = some c
  hand : ∀ c, x.entering.inHand = some c → x.conn = some c ∧ x.pauseGuard = none

section Placing
variable {s t : Traffic} {m : Move}

theorem Stream.Sound.fresh (requests : Finset StreamId) (r : StreamId) : Stream.Sound requests r {} :=
  ⟨fun h => (by cases h), fun h => absurd rfl h, fun h => (by cases h), fun _ h => (by cases h),
    fun _ h => (by cases h)⟩

theorem Stream.Sound.mono {requests requests' : Finset StreamId} {r : StreamId} {x : Stream} (h : x.Sound requests r)
    (hr : r ∈ requests → r ∈ requests') : x.Sound requests' r :=
  ⟨fun hx => hr (h.bound hx), h.entering, h.paused, h.guard, h.hand⟩

def Traffic.Sound (s : Traffic) : Prop := ∀ r, (s.streams r).Sound s.requests r

theorem Traffic.Sound.move (hs : s.Sound) (r : StreamId) {x : Stream} (streams : t.streams = Function.update s.streams r x)
    (requests : ∀ q, q ≠ r → q ∈ s.requests → q ∈ t.requests) (hx : x.Sound t.requests r) : t.Sound := by
  intro q
  rw [streams]
  by_cases hq : q = r
  · subst hq
    rw [Function.update_self]
    exact hx
  · rw [Function.update_of_ne hq]
    exact (hs q).mono (requests q hq)

theorem Traffic.Sound.step (hs : s.Sound) (hok : s.AdmitsBelowCap m) (h : s.Stepped m t) : t.Sound := by
  cases h with
  | quiet streams requests paused =>
    intro r
    rw [streams, requests]
    exact hs r
  | bind i r c lease early =>
    have hr := hs r
    have hidle : ∀ c, (s.streams r).pauseGuard ≠ some c := fun c hc =>
      absurd ((hr.guard c hc).1) (Bool.eq_false_iff.mp early)
    refine hs.move r rfl (fun q _ => Finset.mem_insert_of_mem) ⟨fun _ => Finset.mem_insert_self r _, hr.entering,
      hr.paused, fun c hc => absurd hc (hidle c), fun c hc => ?_⟩
    have hcommitted := hr.entering fun he => (by rw [show (s.streams r).entering = .idle from he] at hc; cases hc)
    exact absurd hcommitted (Bool.eq_false_iff.mp early)
  | commit r bound =>
    have hr := hs r
    exact hs.move r rfl (fun _ _ => id) ⟨fun _ => bound, fun _ => rfl, fun _ => rfl,
      fun c hc => ⟨rfl, (hr.guard c hc).2⟩, hr.hand⟩
  | enterPause r late idle =>
    have hr := hs r
    exact hs.move r rfl (fun _ _ => id) ⟨hr.bound, fun _ => late, hr.paused, hr.guard, fun _ hc => (by cases hc)⟩
  | setPaused r pc =>
    have hr := hs r
    have hlate := hr.entering (by rw [pc]; exact fun h => (by cases h))
    exact hs.move r rfl (fun _ _ => id) ⟨hr.bound, fun _ => hlate, fun _ => hlate, hr.guard, fun _ hc => (by cases hc)⟩
  | newGuard r pc =>
    have hr := hs r
    have hlate := hr.entering (by rw [pc]; exact fun h => (by cases h))
    obtain ⟨hstreams, hrequests⟩ := s.addPaused_streams (s.streams r).conn 1
    refine hs.move r (congrArg (Function.update · r _) hstreams) (fun q _ hq => hrequests.symm ▸ hq) ?_
    change Stream.Sound (s.addPaused _ 1).requests r _
    rw [hrequests]
    exact ⟨hr.bound, fun _ => hlate, hr.paused, hr.guard, fun _ hc => ⟨hc, hok pc⟩⟩
  | storeGuard r guard pc =>
    have hr := hs r
    have hlate := hr.entering (by rw [pc]; exact fun h => (by cases h))
    obtain ⟨hstreams, hrequests⟩ := s.addPaused_streams (s.streams r).pauseGuard (-1)
    refine hs.move r (congrArg (Function.update · r _) hstreams) (fun q _ hq => hrequests.symm ▸ hq) ?_
    change Stream.Sound (s.addPaused _ (-1)).requests r _
    rw [hrequests]
    refine ⟨hr.bound, fun h => absurd rfl h, hr.paused, fun c hc => ⟨hlate, (hr.hand c ?_).1⟩, fun _ hc => (by cases hc)⟩
    rw [pc]
    exact hc
  | clearPaused u r =>
    have hr := hs r
    exact hs.move r rfl (fun _ _ => id) ⟨hr.bound, hr.entering, fun h => (by cases h), hr.guard, hr.hand⟩
  | dropGuard u r =>
    have hr := hs r
    obtain ⟨hstreams, hrequests⟩ := s.addPaused_streams (s.streams r).pauseGuard (-1)
    refine hs.move r (congrArg (Function.update · r _) hstreams) (fun q _ hq => hrequests.symm ▸ hq) ?_
    change Stream.Sound (s.addPaused _ (-1)).requests r _
    rw [hrequests]
    exact ⟨hr.bound, hr.entering, hr.paused, fun _ hc => (by cases hc), fun c hc => ⟨(hr.hand c hc).1, rfl⟩⟩
  | expire r idle =>
    refine hs.move r (congrArg (Function.update · r _) (s.addPaused_streams _ _).1) (fun q hq hmem => ?_) (.fresh _ r)
    exact Finset.mem_erase.mpr ⟨hq, hmem⟩

/-- A stream has at most one guard in all, of the connection that it is bound to. -/
theorem Traffic.Sound.units_le (hs : s.Sound) (c : ConnId) (r : StreamId) :
    units c (s.streams r) ≤ if r ∈ s.bound c then 1 else 0 := by
  have hr := hs r
  have hplace : (s.streams r).committed = true → (s.streams r).conn = some c → r ∈ s.bound c := fun hlate hconn =>
    Finset.mem_filter.mpr ⟨hr.bound hlate, hconn⟩
  unfold units unit
  by_cases hguard : (s.streams r).pauseGuard = some c
  · obtain ⟨hlate, hconn⟩ := hr.guard c hguard
    have hhand : (s.streams r).entering.inHand ≠ some c := fun hc => (by
      rw [(hr.hand c hc).2] at hguard
      cases hguard)
    rw [if_pos hguard, if_neg hhand, if_pos (hplace hlate hconn)]
  · rw [if_neg hguard]
    by_cases hhand : (s.streams r).entering.inHand = some c
    · have hlate := hr.entering fun he => (by rw [he] at hhand; cases hhand)
      rw [if_pos hhand, if_pos (hplace hlate (hr.hand c hhand).1)]
    · rw [if_neg hhand]
      exact Nat.zero_le _

theorem Traffic.Counted.paused_le {S : Finset StreamId} (hs : s.Counted S) (hsound : s.Sound) (c : ConnId) :
    (s.pool.entries c).paused ≤ (s.bound c).card := by
  have hle : credits (units c) S s.streams ≤ (s.bound c).card := by
    calc credits (units c) S s.streams ≤ ∑ r ∈ S, if r ∈ s.bound c then 1 else 0 :=
          Finset.sum_le_sum fun r _ => hsound.units_le c r
      _ = (S.filter (· ∈ s.bound c)).card := (Finset.card_filter ..).symm
      _ ≤ (s.bound c).card := Finset.card_le_card fun r hr => (Finset.mem_filter.mp hr).2
  rw [hs.count c]
  exact_mod_cast hle

def Traffic.Admitted (s : Traffic) : Prop := ∀ c, (s.bound c).card ≤ DEFAULT_PAUSED_CAP

theorem Traffic.Admitted.of_subset (hs : s.Admitted) (h : ∀ c, t.bound c ⊆ s.bound c) : t.Admitted := fun c =>
  (Finset.card_le_card (h c)).trans (hs c)

theorem Traffic.Admitted.move (hs : s.Admitted) (r : StreamId) {x : Stream}
    (streams : t.streams = Function.update s.streams r x) (requests : t.requests ⊆ s.requests)
    (hx : x.conn = (s.streams r).conn ∨ r ∉ t.requests) : t.Admitted := by
  refine hs.of_subset fun c q hq => ?_
  obtain ⟨hmem, hconn⟩ := Finset.mem_filter.mp hq
  refine Finset.mem_filter.mpr ⟨requests hmem, ?_⟩
  rw [streams] at hconn
  by_cases hqr : q = r
  · subst hqr
    rw [Function.update_self] at hconn
    rcases hx with hx | hx
    · exact hx.symm.trans hconn
    · exact absurd hmem hx
  · rwa [Function.update_of_ne hqr] at hconn

theorem Traffic.Admitted.step (hs : s.Admitted) (hok : s.AdmitsBelowCap m) (h : s.Stepped m t) : t.Admitted := by
  cases h with
  | quiet streams requests paused =>
    refine hs.of_subset fun c => ?_
    rw [Traffic.bound, Traffic.bound, streams, requests]
  | bind i r c lease early =>
    intro d
    have hsub : ∀ d, ∀ q ∈ ({ s with requests := insert r s.requests }.setStream r
        { s.streams r with conn := some c }).bound d, q ≠ r → q ∈ (s.bound d).erase r := by
      intro d q hq hqr
      obtain ⟨hmem, hconn⟩ := Finset.mem_filter.mp hq
      change (Function.update s.streams r _ q).conn = some d at hconn
      rw [Function.update_of_ne hqr] at hconn
      exact Finset.mem_erase.mpr ⟨hqr, Finset.mem_filter.mpr ⟨Finset.mem_of_mem_insert_of_ne hmem hqr, hconn⟩⟩
    by_cases hd : d = c
    · subst hd
      have hroom := hok d (by rw [lease]; rfl)
      have hcard := Finset.card_le_card (s := Traffic.bound _ d) (t := insert r ((s.bound d).erase r)) fun q hq => by
        by_cases hqr : q = r
        · rw [hqr]
          exact Finset.mem_insert_self r _
        · exact Finset.mem_insert_of_mem (hsub d q hq hqr)
      exact hcard.trans ((Finset.card_insert_le _ _).trans hroom)
    · refine (Finset.card_le_card fun q hq => ?_).trans (hs d)
      refine Finset.mem_of_mem_erase (hsub d q hq ?_)
      rintro rfl
      have hconn := (Finset.mem_filter.mp hq).2
      change (Function.update s.streams q _ q).conn = some d at hconn
      rw [Function.update_self] at hconn
      exact hd (Option.some.inj hconn).symm
  | commit r => exact hs.move r rfl subset_rfl (.inl rfl)
  | enterPause r => exact hs.move r rfl subset_rfl (.inl rfl)
  | setPaused r => exact hs.move r rfl subset_rfl (.inl rfl)
  | newGuard r | storeGuard r | dropGuard u r =>
    refine hs.move r (congrArg (Function.update · r _) (s.addPaused_streams _ _).1) ?_ (.inl rfl)
    exact (s.addPaused_streams _ _).2.le
  | clearPaused u r => exact hs.move r rfl subset_rfl (.inl rfl)
  | expire r =>
    refine hs.move r (congrArg (Function.update · r _) (s.addPaused_streams _ _).1) ?_ (.inr ?_)
    · exact Finset.erase_subset r s.requests
    · exact Finset.notMem_erase r s.requests

end Placing

/-- The stream holds a guard of the connection, or is paused on it. -/
def Stream.ParkedOn (x : Stream) (c : ConnId) : Prop := x.pauseGuard = some c ∨ x.paused = true ∧ x.conn = some c

theorem Traffic.Sound.parked {s : Traffic} (hs : s.Sound) {c : ConnId} {r : StreamId}
    (hr : (s.streams r).ParkedOn c) : r ∈ s.bound c := by
  rcases hr with hguard | ⟨hpaused, hconn⟩
  · obtain ⟨hlate, hconn⟩ := (hs r).guard c hguard
    exact Finset.mem_filter.mpr ⟨(hs r).bound hlate, hconn⟩
  · exact Finset.mem_filter.mpr ⟨(hs r).bound ((hs r).paused hpaused), hconn⟩

/-- Where a connection takes on no more requests than the cap, the paused count stays within the number of the
requests that are bound to it and so within the cap, the parked streams leave the active reserve of its
window alone, and there are at most as many as the cap. -/
theorem parked_streams_within_window {limits : Limits} {as : List Move} {s : Traffic}
    (h : Traffic.Reaches limits Traffic.AdmitsBelowCap as s) (c : ConnId) :
    (s.pool.entries c).paused ≤ (s.bound c).card ∧ (s.bound c).card ≤ DEFAULT_PAUSED_CAP ∧
    (s.pool.entries c).paused * STREAM_WINDOW + 4 * 1024 * 1024 ≤ CONNECTION_WINDOW ∧
      ∀ R : Finset StreamId, (∀ r ∈ R, (s.streams r).ParkedOn c) → R.card ≤ DEFAULT_PAUSED_CAP := by
  have hinv : s.Admitted ∧ s.Sound ∧ ∃ S, s.Counted S := by
    refine Run.invariant (I := fun s => s.Admitted ∧ s.Sound ∧ ∃ S, s.Counted S) h (fun s m t hok hs hstep => ?_)
      ⟨fun c => Nat.zero_le _, fun r => .fresh _ r, ∅, .init⟩
    obtain ⟨hadmitted, hsound, S, hcount⟩ := hs
    have hcases := Traffic.step_cases hstep
    exact ⟨hadmitted.step hok hcases, hsound.step hok hcases, hcount.step hcases⟩
  obtain ⟨hadmitted, hsound, S, hcount⟩ := hinv
  have hpaused := hcount.paused_le hsound c
  have hbound := hadmitted c
  refine ⟨hpaused, hbound, ?_, fun R hR => ?_⟩
  · simp only [CONNECTION_WINDOW, STREAM_WINDOW]
    omega
  · exact (Finset.card_le_card fun r hr => hsound.parked (hR r hr)).trans hbound

def dialled (key : PoolKey) : List Move :=
  Move.pool (.acquire 0 key) :: List.replicate 8 (.pool (.exec 0)) ++ Move.pool (.connected 0 (.ok .h2)) ::
    List.replicate 5 (.pool (.exec 0)) ++ [Move.bind 0 0]

def shared (key : PoolKey) (t : TaskId) : List Move :=
  Move.pool (.acquire t key) :: List.replicate 8 (.pool (.exec t)) ++ [Move.bind t t]

def parked (r : StreamId) : List Move := .commit r :: .enterPause r :: List.replicate 3 (.enter r)

def sharedKey : PoolKey := ⟨"https", "example", 443⟩

set_option maxRecDepth 10000 in
theorem parked_streams_within_window_two : ∃ as s, Traffic.Reaches {} Traffic.AdmitsBelowCap as s ∧
    (s.streams 0).pauseGuard = some 1 ∧ (s.streams 1).pauseGuard = some 1 ∧
    (s.pool.entries 1).paused * STREAM_WINDOW + 4 * 1024 * 1024 ≤ CONNECTION_WINDOW := by
  have hrun : (replay (Traffic.step {}) Traffic.AdmitsBelowCap {} (dialled sharedKey ++ shared sharedKey 1 ++
      [0, 1].flatMap parked)).map (fun s => ((s.streams 0).pauseGuard, (s.streams 1).pauseGuard)) =
      some (some 1, some 1) := by decide +kernel
  obtain ⟨s, hs, hguards⟩ := Option.map_eq_some_iff.mp hrun
  obtain ⟨hzero, hone⟩ := Prod.mk.inj hguards
  exact ⟨_, s, run_of_replay hs, hzero, hone, (parked_streams_within_window (run_of_replay hs) 1).2.2.1⟩

set_option maxRecDepth 10000 in
/-- Five streams are admitted to one h2 connection while none of them is paused, and then
each of them pauses: the fifth takes its window out of the active reserve. -/
theorem five_streams_parked : ¬ ∀ (as : List Move) (s : Traffic), Traffic.Reaches {} anyStep as s →
    ∀ c, (s.pool.entries c).paused * STREAM_WINDOW + 4 * 1024 * 1024 ≤ CONNECTION_WINDOW := by
  intro h
  have hrun : (replay (Traffic.step {}) anyStep {} (dialled sharedKey ++
      [1, 2, 3, 4].flatMap (shared sharedKey) ++ [0, 1, 2, 3, 4].flatMap parked)).map
      (fun s => ((s.pool.entries 1).proto, (s.pool.entries 1).paused)) = some (.h2, 5) := by decide +kernel
  obtain ⟨s, hs, hcount⟩ := Option.map_eq_some_iff.mp hrun
  have hle := h _ s (run_of_replay hs) 1
  rw [(Prod.mk.inj hcount).2] at hle
  revert hle
  decide

end Hyper4k.Pooling
