import Hyper4k.Pooling.Leasing

/-! One h2 connection for an authority: the double check around the dial lock makes all
callers of `acquire` share the connection that the first of them dials. -/
namespace Hyper4k.Pooling
open Bridge (ConnId ErrorKind)
open Runs

/-- The key that a task dials for, from the call of the connector to the push. -/
def Pc.dialling : Pc → Option PoolKey
  | .connect k | .fetchId k _ | .push k _ _ => some k
  | _ => none

def Pc.weighs : Pc → Option ConnId
  | .loadPaused x => some x.conn
  | _ => none

/-- Every dial ends with an h2 sender, no connection closes, and a paused count that is read is
below the cap. A caller may give up where it waits for the dial lock. -/
def Pool.Calm (limits : Limits) (s : Pool) : Act → Prop
  | .connected _ result => result = .ok .h2
  | .abandon t => (s.tasks t).dialling = none
  | .peerClose _ => False
  | .exec t => ∀ c ∈ (s.tasks t).weighs, (s.entries c).paused < limits.pausedCap
  | _ => True

instance (limits : Limits) (s : Pool) : (a : Act) → Decidable (s.Calm limits a)
  | .connected _ result => inferInstanceAs (Decidable (result = .ok .h2))
  | .abandon t => inferInstanceAs (Decidable ((s.tasks t).dialling = none))
  | .peerClose _ => inferInstanceAs (Decidable False)
  | .exec t => inferInstanceAs (Decidable (∀ c ∈ (s.tasks t).weighs, (s.entries c).paused < limits.pausedCap))
  | .acquire _ _ | .dropLease _ | .forget _ | .newGuard _ | .dropGuard _ => inferInstanceAs (Decidable True)

def TakeAt.key : TakeAt → PoolKey
  | .reuse x => x.key
  | .dialled k _ => k

def Pc.Fits (cap : Nat) (conns : PoolKey → List ConnId) (dials : PoolKey → Nat) (asked : Option PoolKey) : Pc → Prop
  | .loadClosed k | .getList k _ | .lockDial k => asked = some k
  | .loadDead (.reuse x) | .loadSender (.reuse x) | .loadPaused x => asked = some x.key ∧ conns x.key = [x.conn]
  | .takeSender x | .addActive x => asked = some x.key ∧ conns x.key = [x.conn]
  | .dropList k _ (some c) | .unlockDial k (.ok c) => asked = some k ∧ conns k = [c]
  | .dropList k dialing none => asked = some k ∧ (dialing = true → conns k = [] ∧ dials k = 0)
  | .getCount k => asked = some k ∧ conns k = [] ∧ dials k = 0
  | .dropCount k live => asked = some k ∧ conns k = [] ∧ dials k = 0 ∧ live = 0
  | .connect k => asked = some k ∧ conns k = [] ∧ dials k = 1
  | .fetchId k proto | .push k proto _ => asked = some k ∧ conns k = [] ∧ dials k = 1 ∧ proto = .h2
  | .leased c => ∃ k, asked = some k ∧ conns k = [c]
  | .unlockDial _ (.error _) | .failed _ => cap = 0
  | .slotIdle _ | .loadDead (.count _ _ _ _) | .loadSender (.count _ _ _ _) | .storeDead _ => False
  | _ => True

def Book.Dialled (o : Book) (s : Pool) (k : PoolKey) : Prop :=
  (s.conns k = [] ∧ o.dials k = 0) ∨ (s.conns k = [] ∧ o.dials k = 1 ∧ ∃ t, (s.tasks t).dialling = some k) ∨
    ∃ c, s.conns k = [c] ∧ o.dials k = 1

structure Book.Shared (limits : Limits) (o : Book) (s : Pool) : Prop where
  lock : s.Locked
  accepting : s.closed = false
  unclosed : ∀ c, (s.entries c).unclosed = true
  multiplexed : ∀ k c, s.conns k = [c] → (s.entries c).proto = .h2
  dialled : ∀ k, o.Dialled s k
  fits : ∀ t, (s.tasks t).Fits limits.maxConnsPerKey s.conns o.dials (o.asked t)

section Step
variable {limits : Limits} {s p m : Pool} {o : Book} {t : TaskId} {a : Act} {pc q : Pc} {c : ConnId} {k : PoolKey}

theorem Pc.lock_of_dialling (h : pc.dialling = some k) : pc.lock = some k := by
  cases pc with
  | connect | fetchId | push => exact h
  | _ => cases h

/-- Where everybody else is stays possible: a list with a connection does not change, and the
rest is known under the dial lock only. -/
theorem Pc.Fits.later {cap : Nat} {conns conns' : PoolKey → List ConnId} {dials dials' : PoolKey → Nat}
    {asked : Option PoolKey} (hconns : ∀ k c, conns k = [c] → conns' k = [c])
    (hlock : ∀ k, pc.lock = some k → conns' k = conns k ∧ dials' k = dials k)
    (h : pc.Fits cap conns dials asked) : pc.Fits cap conns' dials' asked := by
  cases pc with
  | loadDead x | loadSender x =>
    cases x with
    | reuse x => exact ⟨h.1, hconns _ _ h.2⟩
    | count => exact h
  | loadPaused | takeSender | addActive => exact ⟨h.1, hconns _ _ h.2⟩
  | dropList k d found =>
    cases found with
    | some c => exact ⟨h.1, hconns _ _ h.2⟩
    | none =>
      refine ⟨h.1, fun hdial => ?_⟩
      obtain ⟨hc, hd⟩ := hlock k (if_pos hdial)
      exact ⟨hc.trans (h.2 hdial).1, hd.trans (h.2 hdial).2⟩
  | unlockDial k result =>
    cases result with
    | ok c => exact ⟨h.1, hconns _ _ h.2⟩
    | error => exact h
  | getCount k | connect k =>
    obtain ⟨hc, hd⟩ := hlock k rfl
    exact ⟨h.1, hc.trans h.2.1, hd.trans h.2.2⟩
  | dropCount k | fetchId k | push k =>
    obtain ⟨hc, hd⟩ := hlock k rfl
    exact ⟨h.1, hc.trans h.2.1, hd.trans h.2.2.1, h.2.2.2⟩
  | leased c =>
    obtain ⟨k, hk, hc⟩ := h
    exact ⟨k, hk, hconns k c hc⟩
  | _ => exact h

theorem Book.choose_asked (o : Book) (s : Pool) (t : TaskId) : (o.choose s t).asked = o.asked := by
  unfold Book.choose
  split <;> rfl

theorem Book.choose_dials (o : Book) (s : Pool) (t : TaskId) : (o.choose s t).dials = o.dials := by
  unfold Book.choose
  split <;> rfl

theorem Book.dial_asked (o : Book) (pc : Pc) : (o.dial pc).asked = o.asked := by
  cases pc <;> rfl

theorem Book.dial_dials (h : ∀ k, q ≠ .connect k) : (o.dial q).dials = o.dials := by
  unfold Book.dial
  split
  · exact absurd rfl (h _)
  · rfl

theorem Pc.ne_connect_of_reading (h : q.reading = true) (k : PoolKey) : q ≠ .connect k := by
  rintro rfl
  cases h

/-- The connector is called where the count leaves room, and nowhere else. -/
theorem Pool.Access.connects (h : s.Access limits t a pc m q) :
    (∀ k, q ≠ .connect k) ∨ ∃ k live, a = .exec t ∧ pc = .dropCount k live ∧ q = .connect k := by
  cases h with
  | dial k live => exact .inr ⟨k, live, rfl, rfl, rfl⟩
  | getList => exact .inl (Pc.ne_connect_of_reading (Pc.scan_reading ..))
  | getCount => exact .inl (Pc.ne_connect_of_reading (Pc.count_reading ..))
  | dead x | slotClosed x => exact .inl (Pc.ne_connect_of_reading x.closed_reading)
  | slotOpen x => exact .inl (Pc.ne_connect_of_reading x.live_reading)
  | crowded | slotEmpty => exact .inl (Pc.ne_connect_of_reading (Pc.scan_reading ..))
  | missed x => exact .inl (Pc.ne_connect_of_reading x.missed_reading)
  | addActive x =>
    refine .inl fun k hk => ?_
    cases x <;> cases hk
  | _ => exact .inl fun k hk => (by cases hk)

theorem Book.note_exec_dials : (Book.note s (.exec t) p o).dials = (o.dial (p.tasks t)).dials := by
  change ((o.choose s t).dial (p.tasks t)).dials = _
  cases p.tasks t with
  | connect k => simp only [Book.dial, Book.choose_dials]
  | _ => exact Book.choose_dials o s t

theorem Book.note_exec_asked : (Book.note s (.exec t) p o).asked = o.asked := by
  change ((o.choose s t).dial (p.tasks t)).asked = _
  rw [Book.dial_asked, Book.choose_asked]

/-- What the observer notes of a task: the key when it asks, the dial when it calls the connector. -/
theorem Pool.Access.noted (h : s.Access limits t a pc m q) :
    (Book.note s a (m.goto t q) o).dials = (o.dial q).dials ∧
      ∀ u, u ≠ t → (Book.note s a (m.goto t q) o).asked u = o.asked u := by
  have exec : (Book.note s (.exec t) (m.goto t q) o).dials = (o.dial q).dials ∧
      ∀ u, u ≠ t → (Book.note s (.exec t) (m.goto t q) o).asked u = o.asked u := by
    rw [Book.note_exec_dials, Book.note_exec_asked, show (m.goto t q).tasks t = q from Function.update_self ..]
    exact ⟨rfl, fun _ _ => rfl⟩
  cases h with
  | acquire k => exact ⟨rfl, fun u hu => Function.update_of_ne hu ..⟩
  | connected | refused | abandonLock | abandonDial | dropLease | forget => exact ⟨rfl, fun _ _ => rfl⟩
  | _ => exact exec

theorem Book.Shared.not_dead (hs : o.Shared limits s) (h : (s.entries c).dead = true) : False := by
  have hc := hs.unclosed c
  rw [Conn.closed_of_dead h] at hc
  cases hc

theorem Book.Shared.not_closed (hs : o.Shared limits s) (h : (s.entries c).senderClosed = true) : False := by
  have hc := hs.unclosed c
  rw [Conn.closed_of_sender h] at hc
  cases hc

theorem Book.Shared.not_h1 (hs : o.Shared limits s) (hc : s.conns k = [c]) (h : (s.entries c).proto = .h1) : False := by
  rw [hs.multiplexed k c hc] at h
  cases h

/-- Under the dial lock an empty list means that nobody has called the connector. -/
theorem Book.Shared.undialled (hs : o.Shared limits s) (ht : (s.tasks t).lock = some k)
    (hnot : (s.tasks t).dialling = none) (hc : s.conns k = []) : o.dials k = 0 := by
  rcases hs.dialled k with ⟨-, hd⟩ | ⟨-, -, u, hu⟩ | ⟨c, hone, -⟩
  · exact hd
  · rw [hs.lock.alone ht (Pc.lock_of_dialling hu), hu] at hnot
    cases hnot
  · rw [hc] at hone
    cases hone

theorem Book.Shared.moved (hs : o.Shared limits s) (hok : s.Calm limits a)
    (h : s.Access limits t a pc m q) (hpc : s.tasks t = pc) :
    q.Fits limits.maxConnsPerKey m.conns (o.dial q).dials ((Book.note s a (m.goto t q) o).asked t) := by
  have hfit := hs.fits t
  rw [hpc] at hfit
  have asked : ∀ p, (Book.note s (.exec t) p o).asked t = o.asked t := fun p => by rw [Book.note_exec_asked]
  cases h with
  | acquire k => exact Function.update_self ..
  | enters | notFound | lockDial =>
    rw [asked]
    first | exact hfit | exact hfit.1
  | refuse k hclosed =>
    rw [hs.accepting] at hclosed
    cases hclosed
  | getList k d =>
    rw [asked]
    change (Pc.scan k d (s.conns k)).Fits _ s.conns _ _
    cases hc : s.conns k with
    | nil =>
      refine ⟨hfit, fun hd => ⟨hc, hs.undialled (t := t) ?_ (by rw [hpc]; rfl) hc⟩⟩
      rw [hpc]
      exact if_pos hd
    | cons c rest =>
      refine ⟨hfit, ?_⟩
      rcases hs.dialled k with ⟨hnil, -⟩ | ⟨hnil, -⟩ | ⟨i, hone, -⟩
      · rw [hc] at hnil
        cases hnil
      · rw [hc] at hnil
        cases hnil
      · rw [hc] at hone
        cases hone
        exact hc
  | dead x hd => exact (hs.not_dead hd).elim
  | slotClosed x hx => exact (hs.not_closed (slotClosed_senderClosed hx)).elim
  | notDead x =>
    rw [asked]
    cases x with
    | reuse => exact hfit
    | count => exact hfit
  | slotOpen x =>
    rw [asked]
    cases x with
    | reuse => exact hfit
    | count => exact hfit.elim
  | crowded x hx =>
    refine absurd hx (Int.not_le.mpr (hok x.conn ?_))
    rw [hpc]
    rfl
  | multiplexed | clone =>
    rw [asked]
    exact hfit
  | exclusive x hp => exact (hs.not_h1 hfit.2 hp).elim
  | take x hp | missed x hp => exact (hs.not_h1 hfit.2 hp).elim
  | slotFull | slotEmpty => exact hfit.elim
  | addActive x =>
    rw [asked]
    cases x <;> exact hfit
  | found k c | unlockDial k c =>
    rw [asked]
    exact ⟨k, hfit⟩
  | foundLocked =>
    rw [asked]
    exact hfit
  | notFoundLocked k =>
    rw [asked]
    exact ⟨hfit.1, hfit.2 rfl⟩
  | getCount k =>
    rw [asked]
    change (Pc.count k 0 (s.conns k)).Fits _ s.conns _ _
    rw [hfit.2.1]
    exact ⟨hfit.1, hfit.2.1, hfit.2.2, rfl⟩
  | full k live hlive =>
    rw [hfit.2.2.2] at hlive
    exact Nat.le_zero.mp hlive
  | dial k live =>
    rw [asked]
    refine ⟨hfit.1, hfit.2.1, ?_⟩
    change Function.update o.dials k (o.dials k + 1) k = 1
    rw [Function.update_self, hfit.2.2.1]
  | connected k proto => exact ⟨hfit.1, hfit.2.1, hfit.2.2, Except.ok.inj hok⟩
  | refused k kind => cases hok
  | fetchId k =>
    rw [asked]
    exact hfit
  | push k proto c =>
    rw [asked]
    refine ⟨hfit.1, ?_⟩
    change Function.update s.conns k (s.conns k ++ [c]) k = [c]
    rw [Function.update_self, hfit.2.1, List.nil_append]
  | abandonDial k =>
    rw [Pool.Calm, hpc] at hok
    cases hok
  | unlockFailed => exact hfit
  | storeDead => exact hfit.elim
  | dropClosed c hc => exact (hs.not_closed hc).elim
  | forget | abandonLock | dropLease | dropH1 | dropH2 | putBack | subActive => trivial

/-- A list grows and a dial is counted under the dial lock of the key only. -/
theorem Pool.Access.elsewhere (h : s.Access limits t a pc m q) (hk : pc.lock ≠ some k) :
    m.conns k = s.conns k ∧ (o.dial q).dials k = o.dials k := by
  constructor
  · rcases h.conns with ⟨hm, -⟩ | ⟨k', proto, c, rfl, -, hm⟩
    · rw [hm]
    · rw [hm, Function.update_of_ne]
      rintro rfl
      exact hk rfl
  · rcases h.connects with hq | ⟨k', live, -, rfl, rfl⟩
    · rw [Book.dial_dials hq]
    · refine Function.update_of_ne ?_ ..
      rintro rfl
      exact hk rfl

theorem Book.Shared.grows (hs : o.Shared limits s) (h : s.Access limits t a (s.tasks t) m q) (hc : s.conns k = [c]) :
    m.conns k = [c] := by
  rcases h.conns with ⟨hm, -⟩ | ⟨k', proto, i, hpc, -, hm⟩
  · rw [hm, hc]
  · have hfit := hs.fits t
    rw [hpc] at hfit
    by_cases hk : k = k'
    · rw [hk, hfit.2.1] at hc
      cases hc
    · rw [hm, Function.update_of_ne hk, hc]

theorem Pool.Access.stillUnclosed (h : s.Access limits t a pc m q) (hpc : ∀ i, pc ≠ .storeDead i)
    (hc : (s.entries c).unclosed = true) : (m.entries c).unclosed = true := by
  cases h with
  | storeDead i => exact absurd rfl (hpc i)
  | take | addActive | putBack | subActive | push =>
    exact (update_part (f := Conn.unclosed) (by rfl) c).trans hc
  | _ => exact hc

/-- A dial goes on until its connection is in the list. -/
theorem Pool.Access.dialling (h : s.Access limits t a pc m q) (hok : s.Calm limits a) (hpc : s.tasks t = pc)
    (hk : pc.dialling = some k) : q.dialling = some k ∨ ∃ proto c, pc = .push k proto c := by
  cases h with
  | connected | fetchId => exact .inl hk
  | push k' proto c =>
    cases hk
    exact .inr ⟨proto, c, rfl⟩
  | refused => cases hok
  | abandonDial =>
    rw [Pool.Calm, hpc] at hok
    cases hok
  | _ => cases hk

theorem Book.Shared.dialled_step (hs : o.Shared limits s) (hok : s.Calm limits a)
    (h : s.Access limits t a (s.tasks t) m q) : (Book.note s a (m.goto t q) o).Dialled (m.goto t q) k := by
  have hdials : (Book.note s a (m.goto t q) o).dials k = (o.dial q).dials k := congrFun h.noted.1 k
  have hold := hs.fits t
  rw [Book.Dialled, hdials, h.tasks]
  change (m.conns k = [] ∧ _) ∨ (m.conns k = [] ∧ _) ∨ ∃ c, m.conns k = [c] ∧ _
  by_cases hlock : (s.tasks t).lock = some k
  · rcases h.conns with ⟨hm, hpush⟩ | ⟨k', proto, c, hpc, rfl, hm⟩
    · rw [hm]
      rcases h.connects with hq | ⟨k', live, -, hpc, rfl⟩
      · rw [Book.dial_dials hq]
        refine (hs.dialled k).imp id (Or.imp (fun ⟨hc, hd, u, hu⟩ => ⟨hc, hd, ?_⟩) id)
        obtain rfl := hs.lock.alone hlock (Pc.lock_of_dialling hu)
        refine ⟨t, ?_⟩
        rw [Function.update_self]
        refine (h.dialling hok rfl hu).resolve_right ?_
        rintro ⟨proto, c, hpc⟩
        rw [hpc] at hpush
        cases hpush
      · rw [hpc] at hold hlock
        cases hlock
        refine .inr (.inl ⟨hold.2.1, ?_, t, by rw [Function.update_self]; rfl⟩)
        change Function.update o.dials k (o.dials k + 1) k = 1
        rw [Function.update_self, hold.2.2.1]
    · rw [hpc] at hold hlock
      cases hlock
      refine .inr (.inr ⟨c, ?_, hold.2.2.1⟩)
      rw [hm, Function.update_self, hold.2.1, List.nil_append]
  · obtain ⟨hconns, hcount⟩ := h.elsewhere (o := o) hlock
    rw [hconns, hcount]
    refine (hs.dialled k).imp id (Or.imp (fun ⟨hc, hd, u, hu⟩ => ⟨hc, hd, u, ?_⟩) id)
    rw [Function.update_of_ne]
    · exact hu
    · rintro rfl
      exact hlock (Pc.lock_of_dialling hu)

theorem Book.Shared.task (hs : o.Shared limits s) (hok : s.Calm limits a)
    (h : s.Access limits t a (s.tasks t) m q) : (Book.note s a (m.goto t q) o).Shared limits (m.goto t q) := by
  obtain ⟨hdials, hasked⟩ := h.noted (o := o)
  have hfit := hs.moved hok h rfl
  have hgrows : ∀ k c, s.conns k = [c] → m.conns k = [c] := fun k c => hs.grows h
  refine ⟨hs.lock.step (.task h), ?_, fun c => ?_, fun k c hc => ?_, fun k => ?_, ?_⟩
  · exact h.closed.trans hs.accepting
  · refine h.stillUnclosed (fun i hi => ?_) (hs.unclosed c)
    have hold := hs.fits t
    rw [hi] at hold
    exact hold
  · change (m.entries c).proto = .h2
    rcases h.proto c with ⟨hne, hsame⟩ | ⟨k', hpc⟩
    · rw [hsame]
      refine hs.multiplexed k c ?_
      rcases h.conns with ⟨hm, -⟩ | ⟨k', proto, i, hpc, -, hm⟩
      · rw [← hm]
        exact hc
      · have hk : k ≠ k' := by
          rintro rfl
          have hold := hs.fits t
          rw [hpc] at hold hne
          have hlist : m.conns k = [c] := hc
          rw [hm, Function.update_self, hold.2.1] at hlist
          cases hlist
          exact hne rfl
        rw [← hc]
        change s.conns k = m.conns k
        rw [hm, Function.update_of_ne hk]
    · have hold := hs.fits t
      rw [hpc] at hold
      exact hold.2.2.2
  · exact hs.dialled_step hok h
  · rw [h.tasks, hdials]
    refine forall_update (Q := fun u (pc : Pc) => pc.Fits _ m.conns _ ((Book.note s a (m.goto t q) o).asked u))
      hfit fun u hu => ?_
    rw [hasked u hu]
    refine (hs.fits u).later hgrows fun k hk => h.elsewhere fun ht => hu (hs.lock.alone hk ht)

theorem Book.Shared.paused (hs : o.Shared limits s) (c : ConnId) (d : Int) : o.Shared limits (s.addPaused c d) := by
  refine ⟨hs.lock, hs.accepting, fun i => ?_, fun k i hi => ?_, hs.dialled, hs.fits⟩
  · exact (update_part (f := Conn.unclosed) (by rfl) i).trans (hs.unclosed i)
  · exact (update_part (f := Conn.proto) (by rfl) i).trans (hs.multiplexed k i hi)

theorem Book.Shared.step (hs : o.Shared limits s) (hok : s.Calm limits a)
    (h : s.Stepped limits a p) : (Book.note s a p o).Shared limits p := by
  cases h with
  | task h => exact hs.task hok h
  | peerClose => exact hok.elim
  | newGuard | dropGuard => exact hs.paused ..

theorem Book.Shared.init : ({} : Book).Shared limits {} where
  lock k u := ⟨fun h => (by cases h), fun h => (by cases h)⟩
  accepting := rfl
  unclosed _ := rfl
  multiplexed _ _ h := by cases h
  dialled _ := .inl ⟨rfl, rfl⟩
  fits _ := trivial

/-- However many callers of `acquire` there are and however they interleave: where dials succeed
with h2, nothing closes and paused counts are below the cap, the connector is called once for a
key at most, no caller fails (if the cap admits a connection at all), and each gets a lease on the
one connection of its key. -/
theorem one_dial_per_authority {as : List Act}
    (h : Pool.Reaches limits (fun x => x.1.Calm limits) as s o) (k : PoolKey) :
    o.dials k ≤ 1 ∧ (∀ t kind, s.tasks t = .failed kind → limits.maxConnsPerKey = 0) ∧
      ∀ t c, o.asked t = some k → s.tasks t = .leased c → s.conns k = [c] ∧ o.dials k = 1 := by
  have hs : o.Shared limits s := by
    refine h.invariant (I := fun x => x.2.Shared limits x.1) ?_ .init
    rintro ⟨s, o⟩ a ⟨p, o'⟩ hok hs hstep
    obtain ⟨hp, ho⟩ := observe_eq_some hstep
    rw [show o' = Book.note s a p o from ho]
    exact hs.step hok (Pool.step_cases hp)
  refine ⟨?_, fun t kind ht => ?_, fun t c hk ht => ?_⟩
  · rcases hs.dialled k with ⟨-, hd⟩ | ⟨-, hd, -⟩ | ⟨-, -, hd⟩ <;> omega
  · have hfit := hs.fits t
    rw [ht] at hfit
    exact hfit
  · have hfit := hs.fits t
    rw [ht] at hfit
    obtain ⟨k', hk', hc⟩ := hfit
    obtain rfl : k = k' := Option.some.inj (hk.symm.trans hk')
    refine ⟨hc, ?_⟩
    rcases hs.dialled k with ⟨hnil, -⟩ | ⟨hnil, -⟩ | ⟨-, -, hd⟩
    · rw [hc] at hnil
      cases hnil
    · rw [hc] at hnil
      cases hnil
    · exact hd

end Step

def secureKey : PoolKey := ⟨"https", "example", 443⟩

def burst : List Act :=
  Act.acquire 0 secureKey :: Act.acquire 1 secureKey :: List.replicate 8 (.exec 0) ++ List.replicate 3 (Act.exec 1) ++
    Act.connected 0 (.ok .h2) :: List.replicate 5 (.exec 0) ++ List.replicate 9 (Act.exec 1)

set_option maxRecDepth 10000 in
theorem one_dial_for_two_callers : ∃ as s o, Pool.Reaches {} (fun x => x.1.Calm {}) as s o ∧
    s.tasks 0 = .leased 1 ∧ s.tasks 1 = .leased 1 ∧ s.conns secureKey = [1] ∧ o.dials secureKey = 1 := by
  have hrun : (replay (observe (Pool.step {}) Book.note) (fun x => x.1.Calm {}) ({}, {}) burst).map
      (fun x => (x.1.tasks 0, x.1.tasks 1, x.2.asked 0)) = some (.leased 1, .leased 1, some secureKey) := by
    decide +kernel
  obtain ⟨⟨s, o⟩, hs, hall⟩ := Option.map_eq_some_iff.mp hrun
  obtain ⟨hzero, hrest⟩ := Prod.mk.inj hall
  obtain ⟨hone, hasked⟩ := Prod.mk.inj hrest
  have hreach := run_of_replay hs
  have hlease := (one_dial_per_authority hreach secureKey).2.2 0 1 hasked hzero
  exact ⟨_, s, o, hreach, hzero, hone, hlease⟩

end Hyper4k.Pooling
