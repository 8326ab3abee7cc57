import Hyper4k.Pooling.Steps

/-! Who has the sender of a connection: the connections that a task can meet, what a step does
with their senders, and the exclusive senders of h1. -/
namespace Hyper4k.Pooling
open Bridge (ConnId ErrorKind)
open Runs

def Scan.conns (x : Scan) : List ConnId := x.conn :: x.rest

def ClosedAt.conns : ClosedAt → List ConnId
  | .reuse x => x.conns
  | .count _ _ c rest => c :: rest

def TakeAt.conns : TakeAt → List ConnId
  | .reuse x => x.conns
  | .dialled _ c => [c]

/-- The connections that a task has met: in a list it reads, by taking them, or by dialling. -/
def Pc.knows : Pc → List ConnId
  | .loadDead x | .loadSender x => x.conns
  | .loadPaused x | .slotIdle x => x.conns
  | .takeSender x | .addActive x => x.conns
  | .dropList _ _ found => found.toList
  | .unlockDial _ (.ok c) | .leased c | .dropSender c | .storeDead c | .putBack c | .subActive c => [c]
  | _ => []

def Pc.holds : Pc → Option ConnId
  | .addActive x => some x.conn
  | .dropList _ _ found => found
  | .unlockDial _ (.ok c) | .leased c | .dropSender c | .storeDead c | .putBack c => some c
  | _ => none

/-- An exclusive sender: in its slot, or in one hand, or gone. -/
structure Pool.Lent (s : Pool) (c : ConnId) : Prop where
  sole : Sole (fun pc => pc.holds = some c) s.tasks
  free : (s.entries c).idle = true → Nowhere (fun pc => pc.holds = some c) s.tasks

/-- Who can have a sender, given the connections that were ever put into the map. -/
structure Pool.Owned (s : Pool) (filed : List ConnId) : Prop where
  listed : ∀ k, ∀ c ∈ s.conns k, c ∈ filed
  known : ∀ t, ∀ c ∈ (s.tasks t).knows, c ∈ filed
  issued : ∀ c ∈ filed, c < s.nextId
  pushing : ∀ t c, (s.tasks t).pushes = some c → c < s.nextId ∧ c ∉ filed
  apart : ∀ c, Sole (fun pc => pc.pushes = some c) s.tasks
  lent : ∀ c, (s.entries c).proto = .h1 → s.Lent c

section Ownership
variable {limits : Limits} {s p m : Pool} {t : TaskId} {a : Act} {pc q : Pc} {c : ConnId} {filed : List ConnId}

theorem TakeAt.conn_mem (x : TakeAt) : x.conn ∈ x.conns := by cases x <;> exact List.mem_cons_self

theorem Pc.knows_of_holds (h : pc.holds = some c) : c ∈ pc.knows := by
  cases pc with
  | addActive x =>
    cases h
    exact x.conn_mem
  | dropList k d found => exact Option.mem_toList.mpr h
  | unlockDial k result =>
    cases result with
    | ok i =>
      cases h
      exact List.mem_cons_self
    | error => cases h
  | leased | dropSender | storeDead | putBack =>
    cases h
    exact List.mem_cons_self
  | _ => cases h

theorem Pc.scan_knows (k : PoolKey) (d : Bool) (l : List ConnId) (h : c ∈ (Pc.scan k d l).knows) : c ∈ l := by
  cases l with
  | nil => cases h
  | cons => exact h

theorem Pc.count_knows (k : PoolKey) (n : Nat) (l : List ConnId) (h : c ∈ (Pc.count k n l).knows) : c ∈ l := by
  cases l with
  | nil => cases h
  | cons => exact h

theorem Scan.next_knows (x : Scan) (h : c ∈ x.next.knows) : c ∈ x.conns :=
  List.mem_cons_of_mem _ (Pc.scan_knows _ _ _ h)

theorem ClosedAt.closed_knows (x : ClosedAt) (h : c ∈ x.closed.knows) : c ∈ x.conns := by
  cases x with
  | reuse x => exact x.next_knows h
  | count k live i rest => exact List.mem_cons_of_mem _ (Pc.count_knows _ _ _ h)

theorem ClosedAt.live_knows (x : ClosedAt) (h : c ∈ x.live.knows) : c ∈ x.conns := by
  cases x with
  | reuse x => exact h
  | count k live i rest => exact List.mem_cons_of_mem _ (Pc.count_knows _ _ _ h)

theorem TakeAt.missed_knows (x : TakeAt) (h : c ∈ x.missed.knows) : c ∈ x.conns := by
  cases x with
  | reuse x => exact x.next_knows h
  | dialled => cases h

theorem TakeAt.taken_knows (x : TakeAt) (h : c ∈ x.taken.knows) : c ∈ x.conns := by
  have hc : c = x.conn := by cases x <;> exact List.mem_singleton.mp h
  exact hc ▸ x.conn_mem

/-- A task meets a connection in the list of its key, or by dialling it. -/
theorem Pool.Access.knows (h : s.Access limits t a pc m q) (hc : c ∈ q.knows) :
    c ∈ pc.knows ∨ (∃ k, c ∈ s.conns k) ∨ pc.pushes = some c := by
  cases h with
  | getList k d => exact .inr (.inl ⟨k, Pc.scan_knows _ _ _ hc⟩)
  | getCount k => exact .inr (.inl ⟨k, Pc.count_knows _ _ _ hc⟩)
  | dead x | slotClosed x => exact .inl (x.closed_knows hc)
  | slotOpen x => exact .inl (x.live_knows hc)
  | crowded x | slotEmpty x => exact .inl (x.next_knows hc)
  | missed x => exact .inl (x.missed_knows hc)
  | addActive x => exact .inl (x.taken_knows hc)
  | push k proto i => exact .inr (.inr (congrArg some (List.mem_singleton.mp hc).symm))
  | notDead | multiplexed | exclusive | slotFull | clone | take | found | foundLocked | unlockDial | dropLease
  | dropClosed | dropH1 | dropH2 | storeDead | putBack => exact .inl hc
  | _ => cases hc

inductive Pool.Handled (s : Pool) (pc : Pc) (m : Pool) (q : Pc) : Prop
  | keep (hold : q.holds = pc.holds)
      (entries : ∀ c, (m.entries c).proto = (s.entries c).proto ∧ (m.entries c).idle = (s.entries c).idle ∧
        (m.entries c).dead = (s.entries c).dead)
  | share (c : ConnId) (hp : (s.entries c).proto = .h2) (hpc : pc.holds = none) (hq : q.holds = some c)
      (entries : m.entries = s.entries)
  | take (c : ConnId) (hi : (s.entries c).idle = true) (hpc : pc.holds = none) (hq : q.holds = some c)
      (entries : m.entries = Function.update s.entries c { s.entries c with idle := false })
  | release (c : ConnId) (hpc : pc.holds = some c) (hq : q.holds = none) (entries : m.entries = s.entries)
  | bury (c : ConnId) (hpc : pc.holds = some c) (hq : q.holds = none)
      (entries : m.entries = Function.update s.entries c { s.entries c with dead := true })
  | putBack (c : ConnId) (hpc : pc.holds = some c) (hq : q.holds = none)
      (entries : m.entries = Function.update s.entries c { s.entries c with idle := true })
  | push (c : ConnId) (proto : Proto) (hpc : pc.holds = none) (hq : q.holds = none) (hpush : pc.pushes = some c)
      (entries : m.entries = Function.update s.entries c { s.entries c with proto := proto })

def Pc.reading : Pc → Bool
  | .loadDead _ | .loadPaused _ | .dropList _ _ none | .dropCount _ _ | .unlockDial _ (.error _) => true
  | _ => false

theorem Pc.scan_reading (k : PoolKey) (d : Bool) (l : List ConnId) : (Pc.scan k d l).reading = true := by
  cases l <;> rfl

theorem Pc.count_reading (k : PoolKey) (n : Nat) (l : List ConnId) : (Pc.count k n l).reading = true := by
  cases l <;> rfl

theorem ClosedAt.closed_reading (x : ClosedAt) : x.closed.reading = true := by
  cases x with
  | reuse x => exact Pc.scan_reading ..
  | count => exact Pc.count_reading ..

theorem ClosedAt.live_reading (x : ClosedAt) : x.live.reading = true := by
  cases x with
  | reuse x => rfl
  | count => exact Pc.count_reading ..

theorem TakeAt.missed_reading (x : TakeAt) : x.missed.reading = true := by
  cases x with
  | reuse x => exact Pc.scan_reading ..
  | dialled => rfl

theorem Pc.holds_of_reading (h : q.reading = true) : q.holds = none := by
  unfold Pc.reading at h
  split at h <;> first | rfl | cases h

theorem Pc.pushes_of_reading (h : q.reading = true) : q.pushes = none := by
  unfold Pc.reading at h
  split at h <;> first | rfl | cases h

theorem TakeAt.taken_holds (x : TakeAt) : x.taken.holds = some x.conn := by cases x <;> rfl

theorem Pool.Access.handled (h : s.Access limits t a pc m q) : s.Handled pc m q := by
  have hsame : ∀ c, (s.entries c).proto = (s.entries c).proto ∧ (s.entries c).idle = (s.entries c).idle ∧
      (s.entries c).dead = (s.entries c).dead := fun _ => ⟨rfl, rfl, rfl⟩
  cases h with
  | clone x hp => exact .share x.conn hp rfl rfl rfl
  | take x _ hi => exact .take x.conn hi rfl rfl rfl
  | dropH2 c => exact .release c rfl rfl rfl
  | storeDead c => exact .bury c rfl rfl rfl
  | putBack c => exact .putBack c rfl rfl rfl
  | push k proto c => exact .push c proto rfl rfl rfl rfl
  | getList => exact .keep (Pc.holds_of_reading (Pc.scan_reading ..)) hsame
  | getCount => exact .keep (Pc.holds_of_reading (Pc.count_reading ..)) hsame
  | dead x | slotClosed x => exact .keep (Pc.holds_of_reading x.closed_reading) hsame
  | slotOpen x => exact .keep (Pc.holds_of_reading x.live_reading) hsame
  | crowded x | slotEmpty x => exact .keep (Pc.holds_of_reading (Pc.scan_reading ..)) hsame
  | missed x => exact .keep (Pc.holds_of_reading x.missed_reading) hsame
  | addActive x =>
    exact .keep x.taken_holds fun c => ⟨update_part (f := Conn.proto) (by rfl) c,
      update_part (f := Conn.idle) (by rfl) c, update_part (f := Conn.dead) (by rfl) c⟩
  | subActive x =>
    exact .keep rfl fun c => ⟨update_part (f := Conn.proto) (by rfl) c,
      update_part (f := Conn.idle) (by rfl) c, update_part (f := Conn.dead) (by rfl) c⟩
  | _ => exact .keep rfl hsame

/-- A step that does not put the sender into the task's hands keeps it where it is. -/
theorem Pool.Lent.keep (hs : s.Lent c) (htasks : p.tasks = Function.update s.tasks t q)
    (hq : q.holds = some c → (s.tasks t).holds = some c) (hidle : (p.entries c).idle = (s.entries c).idle) :
    p.Lent c := by
  constructor
  · rw [htasks]
    exact hs.sole.keep hq
  · intro hf
    rw [hidle] at hf
    have hnone := hs.free hf
    rw [htasks]
    exact hnone.update fun h => hnone t (hq h)

theorem Pool.Lent.resting (hnone : Nowhere (fun pc => pc.holds = some c) p.tasks) : p.Lent c :=
  ⟨hnone.sole, fun _ => hnone⟩

theorem Pc.not_holds (hq : q.holds = none) : ¬ q.holds = some c := by
  rw [hq]
  exact fun h => (by cases h)

theorem Pool.Handled.lent (h : s.Handled (s.tasks t) m q) (htasks : p.tasks = Function.update s.tasks t q)
    (hentries : p.entries = m.entries) (hs : ∀ c, (s.entries c).proto = .h1 → s.Lent c)
    (hfresh : ∀ c, (s.tasks t).pushes = some c → Nowhere (fun pc => pc.holds = some c) s.tasks)
    (hc : (p.entries c).proto = .h1) : p.Lent c := by
  have other : ∀ i e, m.entries = Function.update s.entries i e → c ≠ i →
      (q.holds = some c → (s.tasks t).holds = some c) → p.Lent c := by
    intro i e hm hci hq
    have he : p.entries c = s.entries c := by rw [hentries, hm, Function.update_of_ne hci]
    exact (hs c (he ▸ hc)).keep htasks hq (by rw [he])
  have elsewhere : ∀ i, q.holds = some i → c ≠ i → q.holds = some c → (s.tasks t).holds = some c := by
    intro i hq hci hc
    rw [hq] at hc
    exact absurd (Option.some.inj hc).symm hci
  cases h with
  | keep hold entries =>
    rw [← hentries] at entries
    obtain ⟨hproto, hidle, -⟩ := entries c
    exact (hs c (hproto ▸ hc)).keep htasks (hold ▸ id) hidle
  | share i hp hpc hq entries =>
    rw [hentries, entries] at hc
    refine (hs c hc).keep htasks (elsewhere i hq ?_) (by rw [hentries, entries])
    rintro rfl
    rw [hp] at hc
    cases hc
  | release i hpc hq entries =>
    rw [hentries, entries] at hc
    exact (hs c hc).keep htasks (fun h => absurd h (Pc.not_holds hq)) (by rw [hentries, entries])
  | take i hi hpc hq entries =>
    by_cases hci : c = i
    · subst hci
      have he : p.entries c = { s.entries c with idle := false } := by rw [hentries, entries, Function.update_self]
      rw [he] at hc
      refine ⟨?_, fun hf => ?_⟩
      · rw [htasks]
        exact ((hs c hc).free hi).enter
      · rw [he] at hf
        cases hf
    · exact other i _ entries hci (elsewhere i hq hci)
  | bury i hpc hq entries | putBack i hpc hq entries =>
    by_cases hci : c = i
    · subst hci
      have hproto : (p.entries c).proto = (s.entries c).proto := by rw [hentries, entries, Function.update_self]
      apply Pool.Lent.resting
      rw [htasks]
      exact (hs c (hproto.symm.trans hc)).sole.leave hpc (Pc.not_holds hq)
    · exact other i _ entries hci fun h => absurd h (Pc.not_holds hq)
  | push i proto hpc hq hpush entries =>
    by_cases hci : c = i
    · subst hci
      apply Pool.Lent.resting
      rw [htasks]
      exact (hfresh c hpush).update (Pc.not_holds hq)
    · exact other i _ entries hci fun h => absurd h (Pc.not_holds hq)

/-- A dialled connection gets an identifier of its own. -/
theorem Pool.Access.pushes (h : s.Access limits t a pc m q) (hc : q.pushes = some c) :
    c = s.nextId ∧ m.nextId = s.nextId + 1 := by
  have idle : q.reading = true → c = s.nextId ∧ m.nextId = s.nextId + 1 := by
    intro hq
    rw [Pc.pushes_of_reading hq] at hc
    cases hc
  cases h with
  | fetchId =>
    cases hc
    exact ⟨rfl, rfl⟩
  | getList => exact idle (Pc.scan_reading ..)
  | getCount => exact idle (Pc.count_reading ..)
  | dead x | slotClosed x => exact idle x.closed_reading
  | slotOpen x => exact idle x.live_reading
  | crowded | slotEmpty => exact idle (Pc.scan_reading ..)
  | missed x => exact idle x.missed_reading
  | addActive x => cases x <;> cases hc
  | _ => cases hc

theorem Pool.Access.nextId_le (h : s.Access limits t a pc m q) : s.nextId ≤ m.nextId := by
  cases h with
  | fetchId => exact Nat.le_succ _
  | _ => exact Nat.le_refl _

theorem Pool.Access.proto (h : s.Access limits t a pc m q) (c : ConnId) :
    (pc.pushes ≠ some c ∧ (m.entries c).proto = (s.entries c).proto) ∨ ∃ k, pc = .push k (m.entries c).proto c := by
  cases h with
  | take | addActive | putBack | subActive | storeDead =>
    exact .inl ⟨fun hc => (by cases hc), update_part (f := Conn.proto) (by rfl) c⟩
  | push k proto i =>
    by_cases hc : c = i
    · subst hc
      refine .inr ⟨k, ?_⟩
      change _ = Pc.push k (Function.update s.entries c _ c).proto c
      rw [Function.update_self]
    · refine .inl ⟨fun hi => hc (Option.some.inj hi).symm, ?_⟩
      exact congrArg Conn.proto (Function.update_of_ne hc ..)
  | _ => exact .inl ⟨fun hc => (by cases hc), rfl⟩

/-- A connection is in a list from before, or it is the one that was dialled. -/
theorem Pool.Access.listed (h : s.Access limits t a pc m q) {k : PoolKey} (hc : c ∈ m.conns k) :
    c ∈ s.conns k ∨ pc.pushes = some c := by
  rcases h.conns with ⟨hm, -⟩ | ⟨k', proto, i, rfl, -, hm⟩
  · exact .inl (hm ▸ hc)
  · rw [hm] at hc
    by_cases hk : k = k'
    · subst hk
      rw [Function.update_self, List.mem_append, List.mem_singleton] at hc
      exact hc.imp id fun hc => congrArg some hc.symm
    · rw [Function.update_of_ne hk] at hc
      exact .inl hc

theorem Pool.Owned.unknown (hs : s.Owned filed) (hc : c ∉ filed) : Nowhere (fun pc => pc.holds = some c) s.tasks :=
  fun u hu => hc (hs.known u c (Pc.knows_of_holds hu))

theorem Pool.Owned.task (hs : s.Owned filed) (h : s.Access limits t a (s.tasks t) m q) :
    (m.goto t q).Owned (filed ++ (s.tasks t).pushes.toList) := by
  have hid : s.nextId ≤ (m.goto t q).nextId := h.nextId_le
  have hfiled : ∀ c, c ∈ filed ++ (s.tasks t).pushes.toList ↔ c ∈ filed ∨ (s.tasks t).pushes = some c := by
    intro c
    rw [List.mem_append, Option.mem_toList]
  refine ⟨fun k c hc => ?_, ?_, fun c hc => ?_, ?_, fun c => ?_, fun c => ?_⟩
  · rw [hfiled]
    exact (h.listed hc).imp (hs.listed k c) id
  · rw [h.tasks]
    refine forall_update (Q := fun _ (pc : Pc) => ∀ c ∈ pc.knows, c ∈ filed ++ (s.tasks t).pushes.toList) ?_
      fun u _ c hc => (hfiled c).mpr (.inl (hs.known u c hc))
    intro c hc
    rw [hfiled]
    rcases h.knows hc with hold | ⟨k, hlist⟩ | hpush
    · exact .inl (hs.known t c hold)
    · exact .inl (hs.listed k c hlist)
    · exact .inr hpush
  · rcases (hfiled c).mp hc with hold | hpush
    · exact Nat.lt_of_lt_of_le (hs.issued c hold) hid
    · exact Nat.lt_of_lt_of_le (hs.pushing t c hpush).1 hid
  · rw [h.tasks]
    refine forall_update (Q := fun _ (pc : Pc) => ∀ c, pc.pushes = some c →
      c < (m.goto t q).nextId ∧ c ∉ filed ++ (s.tasks t).pushes.toList) ?_ fun u hu c hc => ?_
    · intro c hc
      obtain ⟨rfl, hnext⟩ := h.pushes hc
      refine ⟨Nat.lt_of_lt_of_le (Nat.lt_succ_self _) (Nat.le_of_eq hnext.symm), fun hmem => ?_⟩
      rcases (hfiled _).mp hmem with hold | hpush
      · exact absurd (hs.issued _ hold) (Nat.lt_irrefl _)
      · exact absurd (hs.pushing t _ hpush).1 (Nat.lt_irrefl _)
    · obtain ⟨hlt, hnot⟩ := hs.pushing u c hc
      refine ⟨Nat.lt_of_lt_of_le hlt hid, fun hmem => ?_⟩
      rcases (hfiled c).mp hmem with hold | hpush
      · exact hnot hold
      · exact hu (hs.apart c u t hc hpush)
  · rw [h.tasks]
    by_cases hq : q.pushes = some c
    · refine Nowhere.enter fun u hu => ?_
      rw [(h.pushes hq).1] at hu
      exact absurd (hs.pushing u _ hu).1 (Nat.lt_irrefl _)
    · exact (hs.apart c).keep fun h => absurd h hq
  · exact h.handled.lent h.tasks rfl hs.lent fun c hc => hs.unknown (hs.pushing t c hc).2

/-- Who has a sender depends on the protocols and the slots only. -/
theorem Pool.Owned.later (hs : s.Owned filed) (hlist : ∀ k, ∀ c ∈ p.conns k, c ∈ s.conns k) (htasks : p.tasks = s.tasks)
    (hid : p.nextId = s.nextId) (hproto : ∀ c, (p.entries c).proto = (s.entries c).proto)
    (hidle : ∀ c, (p.entries c).idle = (s.entries c).idle) : p.Owned filed := by
  refine ⟨fun k c hc => hs.listed k c (hlist k c hc), ?_, ?_, ?_, ?_, fun c hc => ?_⟩
  · rw [htasks]
    exact hs.known
  · rw [hid]
    exact hs.issued
  · rw [htasks, hid]
    exact hs.pushing
  · rw [htasks]
    exact hs.apart
  · obtain ⟨hsole, hfree⟩ := hs.lent c ((hproto c).symm.trans hc)
    exact ⟨by rwa [htasks], by rwa [htasks, hidle]⟩

def Pool.filing (s : Pool) : Act → List ConnId
  | .exec t => (s.tasks t).pushes.toList
  | _ => []

theorem Pool.Access.filing (h : s.Access limits t a pc m q) (hpc : s.tasks t = pc) : s.filing a = pc.pushes.toList := by
  cases h with
  | acquire | connected | refused | abandonLock | abandonDial | dropLease | forget => rfl
  | _ => rw [Pool.filing, hpc]

theorem Pool.Owned.step (hs : s.Owned filed) (h : s.Stepped limits a p) : p.Owned (filed ++ s.filing a) := by
  cases h with
  | task h =>
    rw [h.filing rfl]
    exact hs.task h
  | peerClose | newGuard | dropGuard =>
    rw [show s.filing _ = [] from rfl, List.append_nil]
    exact hs.later (fun _ _ => id) rfl rfl (update_part (f := Conn.proto) (by rfl))
      (update_part (f := Conn.idle) (by rfl))

theorem Pool.Owned.init : ({} : Pool).Owned [] where
  listed _ _ hc := by cases hc
  known _ _ hc := by cases hc
  issued _ hc := by cases hc
  pushing _ _ hc := by cases hc
  apart _ _ _ ht := by cases ht
  lent _ _ := Pool.Lent.resting fun _ h => (by cases h)

end Ownership

end Hyper4k.Pooling
