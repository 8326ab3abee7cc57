import Mathlib.Data.List.Nodup
import Hyper4k.Pooling.Exhaustive
import Hyper4k.Pooling.SingleDial

/-! Why `acquire` fails: beside any number of callers, leases and a shutdown, a call that ends with an
error has a reason for it. -/
namespace Hyper4k.Pooling
open Bridge (ConnId ErrorKind)
open Runs

/-- What an observer notes of a call of `acquire`: its key, what its load of `closed` saw, the key's
list when the count began, which of its entries bore no mark and whose senders were not closed when
the count looked at them, and what its own connector call returned. -/
structure Inquiry where
  asked : Option PoolKey := none
  closed : Bool := false
  listed : List ConnId := []
  unmarked : List ConnId := []
  live : List ConnId := []
  answer : Option (Except ErrorKind Proto) := none

def Inquiry.access (s : Pool) (i : Inquiry) : Pc → Inquiry
  | .loadClosed _ => { i with closed := s.closed }
  | .getCount _ => { i with listed := i.asked.elim [] s.conns, unmarked := [], live := [] }
  | .loadDead (.count _ _ c _) => if (s.entries c).dead then i else { i with unmarked := i.unmarked ++ [c] }
  | .loadSender (.count _ _ c _) => if Pool.slotClosed (s.entries c) then i else { i with live := i.live ++ [c] }
  | _ => i

def Inquiry.noted (s : Pool) (pc : Pc) (i : Inquiry) : Act → Inquiry
  | .acquire _ k => { asked := some k }
  | .exec _ => i.access s pc
  | .connected _ result => { i with answer := some result }
  | _ => i

def Act.task : Act → Option TaskId
  | .acquire t _ | .exec t | .connected t _ | .abandon t | .dropLease t | .forget t => some t
  | .peerClose _ | .newGuard _ | .dropGuard _ => none

def Inquiry.note (s : ClosingPool) (b : ShutAct) (_ : ClosingPool) (o : TaskId → Inquiry) : TaskId → Inquiry :=
  match b with
  | .pool a => match a.task with
    | some t => Function.update o t ((o t).noted s.pool (s.pool.tasks t) a)
    | none => o
  | _ => o

abbrev ClosingPool.Inquired (limits : Limits) (ok : ClosingPool → ShutAct → Prop) (as : List ShutAct)
    (s : ClosingPool) (o : TaskId → Inquiry) : Prop :=
  Run (observe (ClosingPool.step limits) Inquiry.note) (fun x => ok x.1) ({}, fun _ => {}) as (s, o)

/-- A reason to fail: the pool was closed when the call began, the call's own dial failed with this
error, or as many connections of its key as the cap allows were live when it counted them. -/
def Inquiry.Explains (cap : Nat) (i : Inquiry) (kind : ErrorKind) : Prop :=
  (kind = .cancelled ∧ i.closed = true) ∨ i.answer = some (.error kind) ∨
    (kind = .connect ∧ cap ≤ i.live.length ∧ i.live.Nodup ∧ i.live ⊆ i.listed ∧ i.live ⊆ i.unmarked)

structure Inquiry.Counts (i : Inquiry) (live : Nat) (ahead : List ConnId) : Prop where
  nodup : i.listed.Nodup
  number : i.live.length = live
  unmarked : i.live ⊆ i.unmarked
  passed : ∃ pre, i.listed = pre ++ ahead ∧ i.live.Sublist pre

def ClosedAt.key : ClosedAt → PoolKey
  | .reuse x => x.key
  | .count k _ _ _ => k

def Pc.key : Pc → Option PoolKey
  | .loadClosed k | .getList k _ | .dropList k _ _ | .lockDial k | .getCount k | .dropCount k _ | .connect k
  | .fetchId k _ | .push k _ _ | .unlockDial k _ => some k
  | .loadDead x | .loadSender x => some x.key
  | .loadPaused x | .slotIdle x => some x.key
  | .takeSender x | .addActive x => some x.key
  | _ => none

def Pc.unanswered : Pc → Bool
  | .loadClosed _ | .getList .. | .loadDead _ | .loadSender _ | .loadPaused _ | .slotIdle _ | .takeSender (.reuse _)
  | .addActive (.reuse _) | .dropList .. | .lockDial _ | .getCount _ | .dropCount .. | .connect _ => true
  | _ => false

def Pc.toLease : Pc → Option Nat
  | .fetchId .. => some 5
  | .push .. => some 4
  | .takeSender (.dialled ..) => some 3
  | .addActive (.dialled ..) => some 2
  | .unlockDial _ (.ok _) => some 1
  | .leased _ => some 0
  | _ => none

def Pc.gaveBack : Pc → Bool
  | .dropSender _ | .storeDead _ | .putBack _ | .subActive _ | .idle => true
  | _ => false

/-- The call is on its way from a dial to the lease, or has had it. -/
def Pc.Granted (pc : Pc) : Prop := (∃ n, pc.toLease = some n) ∨ pc.gaveBack = true

def Inquiry.At (cap : Nat) (i : Inquiry) : Pc → Prop
  | .loadDead (.count _ live c rest) => i.Counts live (c :: rest)
  | .loadSender (.count _ live c rest) => i.Counts live (c :: rest) ∧ c ∈ i.unmarked
  | .dropCount _ live => i.Counts live []
  | .unlockDial _ (.error kind) | .failed kind => i.Explains cap kind
  | _ => True

/-- What the notes say about a call, by where it is. -/
structure Inquiry.Fits (cap : Nat) (i : Inquiry) (pc : Pc) : Prop where
  key : ∀ k, pc.key = some k → i.asked = some k
  answer : pc.unanswered = true → i.answer = none
  granted : ∀ proto, i.answer = some (.ok proto) → pc.Granted
  place : i.At cap pc

/-- The dialler finds the sender of its own connection in the slot. -/
def Pool.keepsDialled (s : Pool) : Pc → Bool
  | .takeSender (.dialled _ c) => (s.entries c).proto = .h2 || (s.entries c).idle
  | _ => true

def ClosingPool.DialledKept (s : ClosingPool) : ShutAct → Prop
  | .pool (.exec t) => s.pool.keepsDialled (s.pool.tasks t) = true
  | _ => True

instance (s : ClosingPool) : (b : ShutAct) → Decidable (s.DialledKept b)
  | .pool (.exec t) => inferInstanceAs (Decidable (s.pool.keepsDialled (s.pool.tasks t) = true))
  | .pool (.acquire _ _) | .pool (.connected _ _) | .pool (.abandon _) | .pool (.dropLease _) | .pool (.forget _)
  | .pool (.peerClose _) | .pool (.newGuard _) | .pool (.dropGuard _) | .shutdown _ | .exec _ | .visit _ _
  | .remove _ _ | .driverEnd _ => inferInstanceAs (Decidable True)

section Reasons
variable {limits : Limits} {s p m : Pool} {t : TaskId} {a : Act} {pc q : Pc} {k : PoolKey} {cap : Nat} {i j : Inquiry}

theorem Pc.scan_key (d : Bool) (l : List ConnId) : (Pc.scan k d l).key = some k := by
  cases l <;> rfl

theorem Pc.count_key (n : Nat) (l : List ConnId) : (Pc.count k n l).key = some k := by
  cases l <;> rfl

theorem Inquiry.at_scan (d : Bool) (l : List ConnId) : i.At cap (.scan k d l) := by
  cases l <;> trivial

theorem Inquiry.at_count {n : Nat} {l : List ConnId} (h : i.Counts n l) : i.At cap (.count k n l) := by
  cases l with
  | nil => exact h
  | cons c rest => exact h

theorem Inquiry.Fits.goOn (hi : i.Fits cap pc) (hasked : j.asked = i.asked) (hanswer : j.answer = i.answer)
    (hkey : ∀ k, q.key = some k → pc.key = some k) (hq : q.unanswered = true → pc.unanswered = true)
    (hgrant : pc.unanswered = true ∨ (pc.Granted → q.Granted)) (hplace : j.At cap q) : j.Fits cap q where
  key k hk := hasked.trans (hi.key k (hkey k hk))
  answer hu := hanswer.trans (hi.answer (hq hu))
  granted proto ha := by
    rw [hanswer] at ha
    rcases hgrant with hu | hgrant
    · rw [hi.answer hu] at ha
      cases ha
    · exact hgrant (hi.granted proto ha)
  place := hplace

theorem Inquiry.Fits.scans (hi : i.Fits cap pc) (hkey : pc.key = some k) (hpc : pc.unanswered = true) (d : Bool)
    (l : List ConnId) : i.Fits cap (.scan k d l) := by
  refine hi.goOn rfl rfl (fun k' hk => ?_) (fun _ => hpc) (.inl hpc) (Inquiry.at_scan d l)
  rwa [Pc.scan_key, ← hkey] at hk

theorem Inquiry.Fits.counts (hi : i.Fits cap pc) (hkey : pc.key = some k) (hpc : pc.unanswered = true) {n : Nat}
    {l : List ConnId} (hj : j.Counts n l) (hasked : j.asked = i.asked) (hanswer : j.answer = i.answer) :
    j.Fits cap (.count k n l) := by
  refine hi.goOn hasked hanswer (fun k' hk => ?_) (fun _ => hpc) (.inl hpc) (Inquiry.at_count hj)
  rwa [Pc.count_key, ← hkey] at hk

theorem Inquiry.Counts.skip {n : Nat} {c : ConnId} {rest : List ConnId} (h : i.Counts n (c :: rest)) :
    i.Counts n rest := by
  obtain ⟨pre, hlist, hsub⟩ := h.passed
  refine ⟨h.nodup, h.number, h.unmarked, pre ++ [c], ?_, hsub.trans (List.sublist_append_left pre [c])⟩
  rw [hlist, List.append_assoc, List.singleton_append]

theorem Inquiry.Counts.mark {n : Nat} {ahead : List ConnId} (h : i.Counts n ahead) (c : ConnId) :
    ({ i with unmarked := i.unmarked ++ [c] } : Inquiry).Counts n ahead :=
  ⟨h.nodup, h.number, fun _ hx => List.mem_append_left _ (h.unmarked hx), h.passed⟩

theorem Inquiry.Counts.count {n : Nat} {c : ConnId} {rest : List ConnId} (h : i.Counts n (c :: rest))
    (hc : c ∈ i.unmarked) : ({ i with live := i.live ++ [c] } : Inquiry).Counts (n + 1) rest := by
  obtain ⟨pre, hlist, hsub⟩ := h.passed
  refine ⟨h.nodup, ?_, ?_, pre ++ [c], ?_, hsub.append (List.Sublist.refl [c])⟩
  · rw [List.length_append, h.number, List.length_singleton]
  · exact List.append_subset.mpr ⟨h.unmarked, List.cons_subset.mpr ⟨hc, List.nil_subset _⟩⟩
  · rw [hlist, List.append_assoc, List.singleton_append]

theorem Inquiry.Counts.explains {n : Nat} (h : i.Counts n []) (hn : cap ≤ n) : i.Explains cap .connect := by
  obtain ⟨pre, hlist, hsub⟩ := h.passed
  rw [List.append_nil] at hlist
  rw [← hlist] at hsub
  exact .inr (.inr ⟨rfl, h.number ▸ hn, h.nodup.sublist hsub, hsub.subset, h.unmarked⟩)

theorem Pool.Access.fits (h : s.Access limits t a pc m q) (hnodup : ∀ k, (s.conns k).Nodup)
    (hok : a = .exec t → s.keepsDialled pc = true) (hi : i.Fits limits.maxConnsPerKey pc) :
    (i.noted s pc a).Fits limits.maxConnsPerKey q := by
  cases h with
  | acquire k => exact ⟨fun _ h => h, fun _ => rfl, nofun, trivial⟩
  | enters k => exact hi.goOn rfl rfl (fun _ h => h) id (.inl rfl) trivial
  | refuse k hclosed => exact hi.goOn rfl rfl nofun nofun (.inl rfl) (.inl ⟨rfl, hclosed⟩)
  | getList k d => exact hi.scans rfl rfl _ _
  | getCount k =>
    have hlist : i.asked.elim [] s.conns = s.conns k := by
      rw [hi.key k rfl]
      rfl
    refine hi.counts rfl rfl (j := i.noted s (.getCount k) (.exec t))
      ⟨?_, rfl, List.nil_subset _, [], hlist, List.Sublist.refl _⟩ rfl rfl
    change (i.asked.elim [] s.conns).Nodup
    rw [hlist]
    exact hnodup k
  | dead x hd =>
    cases x with
    | reuse x => exact hi.scans rfl rfl _ _
    | count k live c rest =>
      have hnote : i.noted s (.loadDead (.count k live c rest)) (.exec t) = i := if_pos hd
      rw [hnote]
      exact hi.counts rfl rfl hi.place.skip rfl rfl
  | notDead x hd =>
    cases x with
    | reuse x => exact hi.goOn rfl rfl (fun _ h => h) id (.inl rfl) trivial
    | count k live c rest =>
      have hnote : i.noted s (.loadDead (.count k live c rest)) (.exec t) =
          { i with unmarked := i.unmarked ++ [c] } := if_neg (Bool.eq_false_iff.mp hd)
      rw [hnote]
      refine hi.goOn rfl rfl (fun _ h => h) id (.inl rfl) ⟨hi.place.mark c, ?_⟩
      exact List.mem_append_right _ List.mem_cons_self
  | slotClosed x hx =>
    cases x with
    | reuse x => exact hi.scans rfl rfl _ _
    | count k live c rest =>
      have hnote : i.noted s (.loadSender (.count k live c rest)) (.exec t) = i := if_pos hx
      rw [hnote]
      exact hi.counts rfl rfl hi.place.1.skip rfl rfl
  | slotOpen x hx =>
    cases x with
    | reuse x => exact hi.goOn rfl rfl (fun _ h => h) id (.inl rfl) trivial
    | count k live c rest =>
      have hnote : i.noted s (.loadSender (.count k live c rest)) (.exec t) =
          { i with live := i.live ++ [c] } := if_neg (Bool.eq_false_iff.mp hx)
      rw [hnote]
      exact hi.counts rfl rfl (hi.place.1.count hi.place.2) rfl rfl
  | crowded x | slotEmpty x => exact hi.scans rfl rfl _ _
  | multiplexed | exclusive | slotFull => exact hi.goOn rfl rfl (fun _ h => h) id (.inl rfl) trivial
  | clone x | take x =>
    cases x with
    | reuse x => exact hi.goOn rfl rfl (fun _ h => h) id (.inl rfl) trivial
    | dialled k c => exact hi.goOn rfl rfl (fun _ h => h) id (.inr fun _ => .inl ⟨2, rfl⟩) trivial
  | missed x hp hidle =>
    cases x with
    | reuse x => exact hi.scans rfl rfl _ _
    | dialled k c =>
      have hkept := hok rfl
      change ((s.entries c).proto = .h2 || (s.entries c).idle) = true at hkept
      rw [show (s.entries c).proto = .h1 from hp, show (s.entries c).idle = false from hidle] at hkept
      cases hkept
  | addActive x =>
    cases x with
    | reuse x => exact hi.goOn rfl rfl (fun _ h => h) (fun _ => rfl) (.inl rfl) trivial
    | dialled k c => exact hi.goOn rfl rfl (fun _ h => h) nofun (.inr fun _ => .inl ⟨1, rfl⟩) trivial
  | found => exact hi.goOn rfl rfl nofun nofun (.inl rfl) trivial
  | foundLocked => exact hi.goOn rfl rfl (fun _ h => h) nofun (.inl rfl) trivial
  | notFound | notFoundLocked | lockDial => exact hi.goOn rfl rfl (fun _ h => h) id (.inl rfl) trivial
  | full k live hfull => exact hi.goOn rfl rfl (fun _ h => h) nofun (.inl rfl) (hi.place.explains hfull)
  | dial k live => exact hi.goOn rfl rfl (fun _ h => h) id (.inl rfl) trivial
  | connected k proto => exact ⟨hi.key, nofun, fun _ _ => .inl ⟨5, rfl⟩, trivial⟩
  | refused k kind => exact ⟨hi.key, nofun, fun _ h => (by cases h), .inr (.inl rfl)⟩
  | fetchId => exact hi.goOn rfl rfl (fun _ h => h) nofun (.inr fun _ => .inl ⟨4, rfl⟩) trivial
  | push => exact hi.goOn rfl rfl (fun _ h => h) nofun (.inr fun _ => .inl ⟨3, rfl⟩) trivial
  | unlockDial => exact hi.goOn rfl rfl nofun nofun (.inr fun _ => .inl ⟨0, rfl⟩) trivial
  | unlockFailed k kind =>
    refine hi.goOn rfl rfl nofun nofun (.inr ?_) hi.place
    rintro (⟨n, hn⟩ | hback)
    · cases hn
    · cases hback
  | _ => exact hi.goOn rfl rfl nofun nofun (.inr fun _ => .inr rfl) trivial

theorem Pool.Access.act_task (h : s.Access limits t a pc m q) : a.task = some t := by
  cases h <;> rfl

theorem Pool.Stepped.nodup {filed : List ConnId} (hs : s.Owned filed) (hnodup : ∀ k, (s.conns k).Nodup)
    (h : s.Stepped limits a p) : ∀ k, (p.conns k).Nodup := by
  cases h with
  | peerClose | newGuard | dropGuard => exact hnodup
  | @task t a m q h =>
    rcases h.conns with ⟨hm, -⟩ | ⟨k, proto, c, hpc, -, hm⟩
    · intro k
      change (m.conns k).Nodup
      rw [hm]
      exact hnodup k
    · have hnew : c ∉ s.conns k := by
        intro hc
        exact (hs.pushing t c (by rw [hpc]; rfl)).2 (hs.listed k c hc)
      change ∀ k, (m.conns k).Nodup
      rw [hm]
      refine forall_update (Q := fun _ (l : List ConnId) => l.Nodup) ?_ fun k' _ => hnodup k'
      rw [← List.concat_eq_append]
      exact List.Nodup.concat hnew (hnodup k)

structure ClosingPool.Explained (limits : Limits) (s : ClosingPool) (o : TaskId → Inquiry) : Prop where
  owned : ∃ filed, s.pool.Owned filed
  nodup : ∀ k, (s.pool.conns k).Nodup
  fits : ∀ t, (o t).Fits limits.maxConnsPerKey (s.pool.tasks t)

theorem ClosingPool.Explained.init : ({} : ClosingPool).Explained limits fun _ => {} where
  owned := ⟨[], Pool.Owned.init⟩
  nodup _ := List.nodup_nil
  fits _ := ⟨nofun, fun _ => rfl, nofun, trivial⟩

theorem ClosingPool.Explained.step {s t : ClosingPool} {b : ShutAct} {o : TaskId → Inquiry}
    (hs : s.Explained limits o) (hok : s.DialledKept b) (h : s.Moved limits b t) :
    t.Explained limits (Inquiry.note s b t o) := by
  obtain ⟨⟨filed, howned⟩, hnodup, hfits⟩ := hs
  refine ⟨⟨_, h.owned howned⟩, ?_, ?_⟩
  · cases h with
    | pool h => exact h.nodup howned hnodup
    | exec h =>
      rw [(ClosingPool.exec_pool h).2.2.1]
      exact hnodup
    | remove u k =>
      exact forall_update (Q := fun _ (l : List ConnId) => l.Nodup) List.nodup_nil fun k' _ => hnodup k'
    | call | visit | driverEnd => exact hnodup
  · cases h with
    | @pool a p h =>
      cases h with
      | peerClose | newGuard | dropGuard => exact hfits
      | @task v _ m q h =>
        have hnote : Inquiry.note s (.pool a) { s with pool := m.goto v q, keys := s.keysAfter a } o =
            Function.update o v ((o v).noted s.pool (s.pool.tasks v) a) := by
          simp only [Inquiry.note, h.act_task]
        have hmoved := h.fits hnodup (fun ha => by rw [ha] at hok; exact hok) (hfits v)
        rw [hnote]
        intro u
        change (Function.update o v _ u).Fits _ ((m.goto v q).tasks u)
        rw [h.tasks]
        by_cases hu : u = v
        · rw [hu, Function.update_self, Function.update_self]
          exact hmoved
        · rw [Function.update_of_ne hu, Function.update_of_ne hu]
          exact hfits u
    | exec h =>
      rw [(ClosingPool.exec_pool h).1]
      exact hfits
    | call | visit | remove | driverEnd => exact hfits

theorem Pool.goto_self (s : Pool) (t : TaskId) (q : Pc) : (s.goto t q).tasks t = q := by
  change Function.update s.tasks t q t = q
  exact Function.update_self t q s.tasks

/-- A dial that has succeeded goes on to its lease: the call waits only where somebody reads the
list, and every step of it brings the lease nearer. -/
theorem Pool.exec_toLease {n : Nat} (hn : (s.tasks t).toLease = some (n + 1))
    (hreaders : ∀ k, (s.tasks t).files = some k → s.readers k = 0) (hkept : s.keepsDialled (s.tasks t) = true) :
    ∃ p, s.step limits (.exec t) = some p ∧ (p.tasks t).toLease = some n := by
  change ∃ p, s.exec limits t = some p ∧ _
  unfold Pool.exec
  generalize hpc : s.tasks t = pc at hn hreaders hkept
  cases pc with
  | fetchId k proto =>
    cases hn
    exact ⟨_, rfl, by rw [Pool.goto_self]; rfl⟩
  | push k proto c =>
    cases hn
    simp only [hreaders k rfl]
    exact ⟨_, rfl, by rw [Pool.goto_self]; rfl⟩
  | takeSender x =>
    cases x with
    | reuse x => cases hn
    | dialled k c =>
      cases hn
      change ((s.entries c).proto = .h2 || (s.entries c).idle) = true at hkept
      have hconn : (TakeAt.dialled k c).conn = c := rfl
      cases hproto : (s.entries c).proto with
      | h2 =>
        simp only [hconn, hproto]
        exact ⟨_, rfl, by rw [Pool.goto_self]; rfl⟩
      | h1 =>
        rw [hproto] at hkept
        have hidle : (s.entries c).idle = true := hkept
        simp only [hconn, hproto, hidle]
        exact ⟨_, rfl, by rw [Pool.goto_self]; rfl⟩
  | addActive x =>
    cases x with
    | reuse x => cases hn
    | dialled k c =>
      cases hn
      exact ⟨_, rfl, by rw [Pool.goto_self]; rfl⟩
  | unlockDial k result =>
    cases result with
    | ok c =>
      cases hn
      exact ⟨_, rfl, by rw [Pool.goto_self]; rfl⟩
    | error kind => cases hn
  | _ => cases hn

/-- `acquire` fails only for a reason, and after a successful dial of its own it does not fail: it
goes on to a lease, held up only while the key's list is read. -/
theorem acquire_fails_for_a_reason {as : List ShutAct} {s : ClosingPool} {o : TaskId → Inquiry}
    (h : ClosingPool.Inquired limits ClosingPool.DialledKept as s o) :
    (∀ t kind, s.pool.tasks t = .failed kind → (o t).Explains limits.maxConnsPerKey kind) ∧
    (∀ t proto, (o t).answer = some (.ok proto) → (s.pool.tasks t).Granted) ∧
    ∀ t n, (s.pool.tasks t).toLease = some (n + 1) → (∀ k, (s.pool.tasks t).files = some k → s.pool.readers k = 0) →
      s.DialledKept (.pool (.exec t)) →
      ∃ p, s.pool.step limits (.exec t) = some p ∧ (p.tasks t).toLease = some n := by
  have hinv : s.Explained limits o := by
    refine h.invariant (I := fun x => x.1.Explained limits x.2) ?_ ClosingPool.Explained.init
    rintro ⟨s, o⟩ b ⟨t, o'⟩ hok hs hstep
    obtain ⟨ht, ho⟩ := observe_eq_some hstep
    rw [show o' = Inquiry.note s b t o from ho]
    exact hs.step hok (ClosingPool.step_cases ht)
  refine ⟨fun t kind ht => ?_, fun t proto => (hinv.fits t).granted proto, fun t n hn hreaders hkept => ?_⟩
  · have hplace := (hinv.fits t).place
    rw [ht] at hplace
    exact hplace
  · exact Pool.exec_toLease hn hreaders hkept

end Reasons

def oneTooMany : List ShutAct :=
  (dials plainKey 0 .h1 ++ Act.acquire 1 plainKey :: List.replicate 19 (.exec 1)).map .pool

set_option maxRecDepth 10000 in
theorem acquire_fails_at_the_cap : ∃ s o,
    ClosingPool.Inquired { maxConnsPerKey := 1 } ClosingPool.DialledKept oneTooMany s o ∧
    s.pool.tasks 1 = .failed .connect ∧ (o 1).Explains 1 .connect ∧ (o 0).answer = some (.ok .h1) ∧
    (s.pool.tasks 0).Granted := by
  have hrun : (replay (observe (ClosingPool.step { maxConnsPerKey := 1 }) Inquiry.note) (fun x => x.1.DialledKept)
      ({}, fun _ => {}) oneTooMany).map (fun x => (x.1.pool.tasks 1, (x.2 0).answer)) =
      some (.failed .connect, some (.ok .h1)) := by decide +kernel
  obtain ⟨⟨s, o⟩, hs, hend⟩ := Option.map_eq_some_iff.mp hrun
  obtain ⟨hfailed, hanswer⟩ := Prod.mk.inj hend
  have hreach := run_of_replay hs
  obtain ⟨hreason, hgranted, -⟩ := acquire_fails_for_a_reason hreach
  exact ⟨s, o, hreach, hfailed, hreason 1 .connect hfailed, hanswer, hgranted 0 .h1 hanswer⟩

/-- Task 0 dials and publishes its connection; task 1 takes the sender before task 0 does. -/
def overtaken : List ShutAct :=
  (Act.acquire 0 plainKey :: List.replicate 8 (.exec 0) ++ Act.connected 0 (.ok .h1) :: List.replicate 2 (.exec 0) ++
    Act.acquire 1 plainKey :: List.replicate 7 (.exec 1) ++ List.replicate 2 (Act.exec 0)).map .pool

set_option maxRecDepth 10000 in
/-- The dialler fails with `CONNECT` although its own dial succeeded, nothing is closed and no count
was at the cap. -/
theorem dialler_overtaken : ¬ ∀ (limits : Limits) (as : List ShutAct) (s : ClosingPool) (o : TaskId → Inquiry)
    (t : TaskId) (kind : ErrorKind), ClosingPool.Inquired limits (fun _ _ => True) as s o →
    s.pool.tasks t = .failed kind → (o t).Explains limits.maxConnsPerKey kind := by
  intro h
  have hrun : (replay (observe (ClosingPool.step {}) Inquiry.note) (fun _ _ => True) ({}, fun _ => {}) overtaken).map
      (fun x => (x.1.pool.tasks 0, (x.2 0).answer, (x.2 0).live)) =
      some (.failed .connect, some (.ok .h1), []) := by decide +kernel
  obtain ⟨⟨s, o⟩, hs, hend⟩ := Option.map_eq_some_iff.mp hrun
  obtain ⟨hfailed, hrest⟩ := Prod.mk.inj hend
  obtain ⟨hanswer, hlive⟩ := Prod.mk.inj hrest
  rcases h {} overtaken s o 0 .connect (run_of_replay hs) hfailed with ⟨hkind, -⟩ | herror | ⟨-, hcap, -⟩
  · cases hkind
  · rw [show (o 0).answer = some (.ok .h1) from hanswer] at herror
    cases herror
  · rw [show (o 0).live = [] from hlive] at hcap
    exact absurd hcap (by decide)

end Hyper4k.Pooling
