import Hyper4k.Pooling.Senders
import Hyper4k.Runs.Observed

/-! What the pool keeps for whoever leases a connection: the cap on open connections, an h1
sender in one hand at a time, and connections that were alive when they were chosen. -/
namespace Hyper4k.Pooling
open Bridge (ConnId ErrorKind)
open Runs

def Conn.unclosed (e : Conn) : Bool := !e.dead && !e.senderClosed

def Pool.unclosed (s : Pool) (l : List ConnId) : Nat := l.countP fun c => (s.entries c).unclosed

/-- What the task that dials for a key knows: it has counted every open connection that it has
passed, and it goes on to dial only below the cap. -/
def Pool.Room (limits : Limits) (s : Pool) : Pc → Prop
  | .loadDead (.count k live c rest) | .loadSender (.count k live c rest) =>
    ∃ pre, s.conns k = pre ++ c :: rest ∧ s.unclosed pre ≤ live
  | .dropCount k live => s.unclosed (s.conns k) ≤ live
  | .connect k | .fetchId k _ | .push k _ _ => s.unclosed (s.conns k) < limits.maxConnsPerKey
  | _ => True

structure Pool.Capped (limits : Limits) (s : Pool) : Prop where
  lock : s.Locked
  cap : ∀ k, s.unclosed (s.conns k) ≤ limits.maxConnsPerKey
  room : ∀ t, s.Room limits (s.tasks t)

section Cap
variable {limits : Limits} {s p m : Pool} {t : TaskId} {a : Act} {pc q : Pc}

theorem Pool.unclosed_le (h : ∀ c, (p.entries c).unclosed = true → (s.entries c).unclosed = true) (l : List ConnId) :
    p.unclosed l ≤ s.unclosed l :=
  List.countP_mono_left fun c _ => h c

theorem Pool.unclosed_snoc (l : List ConnId) (c : ConnId) : s.unclosed (l ++ [c]) ≤ s.unclosed l + 1 := by
  rw [Pool.unclosed, List.countP_append]
  exact Nat.add_le_add_left List.countP_le_length _

theorem Pool.unclosed_snoc_closed (l : List ConnId) {c : ConnId} (h : (s.entries c).unclosed = false) :
    s.unclosed (l ++ [c]) = s.unclosed l := by
  rw [Pool.unclosed, List.countP_append, List.countP_singleton, h]
  rfl

theorem Pool.room_scan (k : PoolKey) (dialing : Bool) (l : List ConnId) : s.Room limits (.scan k dialing l) := by
  cases l <;> trivial

theorem Pool.room_count {k : PoolKey} {live : Nat} {pre l : List ConnId} (hk : s.conns k = pre ++ l)
    (hlive : s.unclosed pre ≤ live) : s.Room limits (.count k live l) := by
  cases l with
  | nil =>
    rw [List.append_nil] at hk
    exact (hk ▸ hlive : s.unclosed (s.conns k) ≤ live)
  | cons c l => exact ⟨pre, hk, hlive⟩

theorem Pool.room_pass {k : PoolKey} {n : Nat} {pre rest : List ConnId} {c : ConnId}
    (hk : s.conns k = pre ++ c :: rest) (hn : s.unclosed (pre ++ [c]) ≤ n) : s.Room limits (.count k n rest) :=
  Pool.room_count (by rw [hk, List.append_assoc, List.singleton_append]) hn

theorem Pool.room_skip {k : PoolKey} {live : Nat} {pre rest : List ConnId} {c : ConnId}
    (hk : s.conns k = pre ++ c :: rest) (hlive : s.unclosed pre ≤ live) (hc : (s.entries c).unclosed = false) :
    s.Room limits (.count k live rest) := by
  refine Pool.room_pass hk ?_
  rw [Pool.unclosed_snoc_closed pre hc]
  exact hlive

theorem Conn.closed_of_dead {e : Conn} (h : e.dead = true) : e.unclosed = false := by
  rw [Conn.unclosed, h]
  rfl

theorem Conn.closed_of_sender {e : Conn} (h : e.senderClosed = true) : e.unclosed = false := by
  rw [Conn.unclosed, h]
  exact Bool.and_false _

theorem slotClosed_senderClosed {e : Conn} (h : Pool.slotClosed e = true) : e.senderClosed = true := by
  unfold Pool.slotClosed at h
  split at h
  · exact h
  · exact (Bool.and_eq_true_iff.mp h).2

theorem Pool.Access.room (h : s.Access limits t a pc m q) (hs : s.Room limits pc) : s.Room limits q := by
  cases h with
  | getList => exact Pool.room_scan ..
  | getCount k => exact Pool.room_count (s.conns k).nil_append.symm (Nat.zero_le _)
  | dead x hd =>
    cases x with
    | reuse x => exact Pool.room_scan ..
    | count k live c rest =>
      obtain ⟨pre, hk, hlive⟩ := hs
      exact Pool.room_skip hk hlive (Conn.closed_of_dead hd)
  | notDead x hd =>
    cases x with
    | reuse x => trivial
    | count k live c rest => exact hs
  | slotClosed x hx =>
    cases x with
    | reuse x => exact Pool.room_scan ..
    | count k live c rest =>
      obtain ⟨pre, hk, hlive⟩ := hs
      exact Pool.room_skip hk hlive (Conn.closed_of_sender (slotClosed_senderClosed hx))
  | slotOpen x hx =>
    cases x with
    | reuse x => trivial
    | count k live c rest =>
      obtain ⟨pre, hk, hlive⟩ := hs
      exact Pool.room_pass hk (Nat.le_trans (Pool.unclosed_snoc pre c) (Nat.succ_le_succ hlive))
  | crowded | slotEmpty => exact Pool.room_scan ..
  | missed x =>
    cases x with
    | reuse x => exact Pool.room_scan ..
    | dialled => trivial
  | addActive x => cases x <;> trivial
  | dial k live hlive => exact Nat.lt_of_le_of_lt hs hlive
  | connected | fetchId => exact hs
  | _ => trivial

theorem Pool.Access.unclosed (h : s.Access limits t a pc m q) (c : ConnId)
    (hc : (m.entries c).unclosed = true) : (s.entries c).unclosed = true := by
  cases h with
  | take | addActive | putBack | subActive | push =>
    exact (update_part (f := Conn.unclosed) (by rfl) c).symm.trans hc
  | storeDead i =>
    change (Function.update s.entries i _ c).unclosed = true at hc
    by_cases hci : c = i
    · subst hci
      rw [Function.update_self] at hc
      cases hc
    · rwa [Function.update_of_ne hci] at hc
  | _ => exact hc

theorem Pool.Room.later (hun : ∀ c, (p.entries c).unclosed = true → (s.entries c).unclosed = true)
    (hconns : ∀ k, pc.lock = some k → p.conns k = s.conns k) (hs : s.Room limits pc) : p.Room limits pc := by
  have hle := Pool.unclosed_le hun
  cases pc with
  | loadDead x | loadSender x =>
    cases x with
    | reuse => trivial
    | count k live c rest =>
      obtain ⟨pre, hk, hlive⟩ := hs
      exact ⟨pre, (hconns k rfl).trans hk, Nat.le_trans (hle pre) hlive⟩
  | dropCount k live =>
    change p.unclosed (p.conns k) ≤ live
    rw [hconns k rfl]
    exact Nat.le_trans (hle _) hs
  | connect k | fetchId k | push k =>
    change p.unclosed (p.conns k) < _
    rw [hconns k rfl]
    exact Nat.lt_of_le_of_lt (hle _) hs
  | _ => trivial

theorem Pool.Capped.entry (hs : s.Capped limits) {c : ConnId} {e : Conn}
    (he : e.unclosed = true → (s.entries c).unclosed = true) : (s.setEntry c e).Capped limits := by
  have hun : ∀ i, ((s.setEntry c e).entries i).unclosed = true → (s.entries i).unclosed = true :=
    forall_update (Q := fun i (x : Conn) => x.unclosed = true → (s.entries i).unclosed = true) he fun _ _ => id
  refine ⟨hs.lock, fun k => ?_, fun t => (hs.room t).later hun fun _ _ => rfl⟩
  exact Nat.le_trans (Pool.unclosed_le hun _) (hs.cap k)

theorem Pool.Capped.step (hs : s.Capped limits) (h : s.Stepped limits a p) : p.Capped limits := by
  have hlock := hs.lock.step h
  cases h with
  | peerClose c => exact hs.entry fun he => (by rw [Conn.closed_of_sender rfl] at he; cases he)
  | newGuard | dropGuard => exact hs.entry id
  | @task t a m q h =>
    have hun := h.unclosed
    rcases h.conns with ⟨hm, -⟩ | ⟨k, proto, c, hpc, rfl, hm⟩
    · refine ⟨hlock, fun k => ?_, ?_⟩
      · change m.unclosed (m.conns k) ≤ _
        rw [hm]
        exact Nat.le_trans (Pool.unclosed_le hun _) (hs.cap k)
      · rw [h.tasks]
        have hsame : ∀ k, (m.goto t q).conns k = s.conns k := fun k => congrFun hm k
        exact forall_update (Q := fun _ pc => (m.goto t q).Room limits pc)
          ((h.room (hs.room t)).later hun fun k _ => hsame k) fun u _ => (hs.room u).later hun fun k _ => hsame k
    · -- the one place where a list grows: the dial lock keeps everybody else away from the key
      have hroom : s.unclosed (s.conns k) < limits.maxConnsPerKey := by
        have hr := hs.room t
        rw [hpc] at hr
        exact hr
      have hlockt : (s.tasks t).lock = some k := by rw [hpc]; rfl
      refine ⟨hlock, fun k' => ?_, ?_⟩
      · change m.unclosed (m.conns k') ≤ _
        rw [hm]
        by_cases hk : k' = k
        · subst hk
          rw [Function.update_self]
          exact Nat.le_trans (Nat.le_trans (Pool.unclosed_le hun _) (Pool.unclosed_snoc _ c)) hroom
        · rw [Function.update_of_ne hk]
          exact Nat.le_trans (Pool.unclosed_le hun _) (hs.cap k')
      · rw [h.tasks]
        refine forall_update (Q := fun _ pc => (m.goto t _).Room limits pc) trivial fun u hu => ?_
        refine (hs.room u).later hun fun k' hk' => ?_
        change m.conns k' = s.conns k'
        rw [hm, Function.update_of_ne]
        rintro rfl
        exact hu (hs.lock.alone hk' hlockt)

theorem Pool.Capped.init : ({} : Pool).Capped limits where
  lock k u := ⟨fun h => (by cases h), fun h => (by cases h)⟩
  cap _ := Nat.zero_le _
  room _ := trivial

end Cap

/-- What an observer notes of the calls of `acquire`: the key that each task asked for, how often
the connector was called for a key, and the connection that a task chose last, with the mark that
the connection bore at that point. -/
structure Book where
  asked : TaskId → Option PoolKey := fun _ => none
  dials : PoolKey → Nat := fun _ => 0
  chosen : TaskId → Option (ConnId × Bool) := fun _ => none

/-- The point where a task chooses: `eligible` reads the mark, the exclusive sender is taken out
of its slot, or a dialled connection goes into its list. -/
def Pool.choice (s : Pool) (t : TaskId) : Option ConnId :=
  match s.tasks t with
  | .loadDead (.reuse x) => some x.conn
  | .takeSender x => if (s.entries x.conn).proto = .h1 then some x.conn else none
  | .push _ _ c => some c
  | _ => none

def Book.choose (o : Book) (s : Pool) (t : TaskId) : Book :=
  match s.choice t with
  | some c => { o with chosen := Function.update o.chosen t (some (c, (s.entries c).dead)) }
  | none => o

def Book.dial (o : Book) : Pc → Book
  | .connect k => { o with dials := Function.update o.dials k (o.dials k + 1) }
  | _ => o

def Book.note (s : Pool) (a : Act) (p : Pool) (o : Book) : Book :=
  match a with
  | .acquire t k => { o with asked := Function.update o.asked t (some k) }
  | .exec t => (o.choose s t).dial (p.tasks t)
  | _ => o

abbrev Pool.Reaches (limits : Limits) (ok : Pool × Book → Act → Prop) (as : List Act) (s : Pool) (o : Book) : Prop :=
  Run (observe (Pool.step limits) Book.note) ok ({}, {}) as (s, o)

/-- A connection that is marked dead was in the map, and the sender of an h1 one is gone. -/
def Pool.Marked (s : Pool) (filed : List ConnId) : Prop :=
  ∀ c, (s.entries c).dead = true → c ∈ filed ∧ ((s.entries c).proto = .h1 →
    (s.entries c).idle = false ∧ Nowhere (fun pc => pc.holds = some c) s.tasks)

def Pc.picks : Pc → Option ConnId
  | .loadSender (.reuse x) | .loadPaused x | .slotIdle x => some x.conn
  | .takeSender x | .addActive x => some x.conn
  | .dropList _ _ found => found
  | .unlockDial _ (.ok c) | .leased c => some c
  | _ => none

def Book.Alive (o : Book) (s : Pool) : Prop := ∀ t c, (s.tasks t).picks = some c → o.chosen t = some (c, false)

section Choice
variable {limits : Limits} {s p m : Pool} {o : Book} {t : TaskId} {a : Act} {q : Pc} {c : ConnId} {filed : List ConnId}

/-- The mark is set by the drop of a lease, which keeps the closed sender. -/
theorem Pool.Marked.task (hd : s.Marked filed) (hs : s.Owned filed) (h : s.Access limits t a (s.tasks t) m q) :
    (m.goto t q).Marked (filed ++ (s.tasks t).pushes.toList) := by
  intro c hdead
  rw [h.tasks]
  change (m.entries c).dead = true at hdead
  change c ∈ _ ∧ ((m.entries c).proto = .h1 → (m.entries c).idle = false ∧ _)
  have other : m.entries c = s.entries c → (q.holds = some c → (s.tasks t).holds = some c ∨ (s.entries c).proto = .h2) →
      c ∈ filed ++ (s.tasks t).pushes.toList ∧ ((m.entries c).proto = .h1 → (m.entries c).idle = false ∧
        Nowhere (fun pc => pc.holds = some c) (Function.update s.tasks t q)) := by
    intro he hq
    rw [he] at hdead ⊢
    obtain ⟨hmem, hgone⟩ := hd c hdead
    refine ⟨List.mem_append_left _ hmem, fun hp => ⟨(hgone hp).1, (hgone hp).2.update fun hc => ?_⟩⟩
    rcases hq hc with hold | hh2
    · exact (hgone hp).2 t hold
    · rw [hp] at hh2
      cases hh2
  cases h.handled with
  | keep hold entries =>
    obtain ⟨hproto, hidle, hsame⟩ := entries c
    rw [hsame] at hdead
    rw [hproto, hidle]
    obtain ⟨hmem, hgone⟩ := hd c hdead
    exact ⟨List.mem_append_left _ hmem, fun hp => ⟨(hgone hp).1, (hgone hp).2.update (hold ▸ (hgone hp).2 t)⟩⟩
  | share i hp hpc hq entries =>
    refine other (by rw [entries]) fun hc => .inr ?_
    rw [hq] at hc
    exact Option.some.inj hc ▸ hp
  | release i hpc hq entries => exact other (by rw [entries]) fun hc => absurd hc (Pc.not_holds hq)
  | take i hi hpc hq entries =>
    by_cases hci : c = i
    · subst hci
      rw [entries, Function.update_self] at hdead ⊢
      obtain ⟨hmem, hgone⟩ := hd c hdead
      refine ⟨List.mem_append_left _ hmem, fun hp => ?_⟩
      rw [(hgone hp).1] at hi
      cases hi
    · refine other (by rw [entries, Function.update_of_ne hci]) fun hc => ?_
      rw [hq] at hc
      exact absurd (Option.some.inj hc).symm hci
  | bury i hpc hq entries =>
    by_cases hci : c = i
    · subst hci
      rw [entries, Function.update_self]
      refine ⟨List.mem_append_left _ (hs.known t c (Pc.knows_of_holds hpc)), fun hp => ?_⟩
      have hl := hs.lent c hp
      exact ⟨Bool.eq_false_iff.mpr fun hi => hl.free hi t hpc, hl.sole.leave hpc (Pc.not_holds hq)⟩
    · exact other (by rw [entries, Function.update_of_ne hci]) fun hc => absurd hc (Pc.not_holds hq)
  | putBack i hpc hq entries =>
    by_cases hci : c = i
    · subst hci
      rw [entries, Function.update_self] at hdead ⊢
      obtain ⟨hmem, hgone⟩ := hd c hdead
      exact ⟨List.mem_append_left _ hmem, fun hp => absurd hpc ((hgone hp).2 t)⟩
    · exact other (by rw [entries, Function.update_of_ne hci]) fun hc => absurd hc (Pc.not_holds hq)
  | push i proto hpc hq hpush entries =>
    by_cases hci : c = i
    · subst hci
      rw [entries, Function.update_self] at hdead
      exact absurd (hd c hdead).1 (hs.pushing t c hpush).2
    · exact other (by rw [entries, Function.update_of_ne hci]) fun hc => absurd hc (Pc.not_holds hq)

theorem Pool.Marked.entry (hd : s.Marked filed) {e : Conn} (hproto : e.proto = (s.entries c).proto)
    (hidle : e.idle = (s.entries c).idle) (hdead : e.dead = (s.entries c).dead) : (s.setEntry c e).Marked filed := by
  intro i hi
  have hp : ((s.setEntry c e).entries i).proto = (s.entries i).proto := update_part (f := Conn.proto) hproto i
  have hs : ((s.setEntry c e).entries i).idle = (s.entries i).idle := update_part (f := Conn.idle) hidle i
  have hm : ((s.setEntry c e).entries i).dead = (s.entries i).dead := update_part (f := Conn.dead) hdead i
  rw [hp, hs]
  exact hd i (hm ▸ hi)

theorem Pool.Marked.step (hd : s.Marked filed) (hs : s.Owned filed) (h : s.Stepped limits a p) :
    p.Marked (filed ++ s.filing a) := by
  cases h with
  | task h =>
    rw [h.filing rfl]
    exact hd.task hs h
  | peerClose | newGuard | dropGuard =>
    rw [show s.filing _ = [] from rfl, List.append_nil]
    exact hd.entry rfl rfl rfl

theorem Book.dial_chosen (o : Book) (pc : Pc) : (o.dial pc).chosen = o.chosen := by
  cases pc <;> rfl

theorem Book.note_unchosen (h : s.choice t = none) : (Book.note s (.exec t) p o).chosen = o.chosen := by
  change ((o.choose s t).dial _).chosen = _
  rw [Book.dial_chosen, Book.choose, h]

theorem Book.note_chosen (h : s.choice t = some c) :
    (Book.note s (.exec t) p o).chosen = Function.update o.chosen t (some (c, (s.entries c).dead)) := by
  change ((o.choose s t).dial _).chosen = _
  rw [Book.dial_chosen, Book.choose, h]

theorem Pool.Access.others_chosen {pc : Pc} (h : s.Access limits t a pc m q) {u : TaskId} (hu : u ≠ t) :
    (Book.note s a p o).chosen u = o.chosen u := by
  have exec : (Book.note s (.exec t) p o).chosen u = o.chosen u := by
    cases hc : s.choice t with
    | none => rw [Book.note_unchosen hc]
    | some c => rw [Book.note_chosen hc, Function.update_of_ne hu]
  cases h with
  | acquire | connected | refused | abandonLock | abandonDial | dropLease | forget => rfl
  | _ => exact exec

theorem Pc.scan_picks (k : PoolKey) (d : Bool) (l : List ConnId) : (Pc.scan k d l).picks = none := by
  cases l <;> rfl

theorem Pc.count_picks (k : PoolKey) (n : Nat) (l : List ConnId) : (Pc.count k n l).picks = none := by
  cases l <;> rfl

theorem ClosedAt.closed_picks (x : ClosedAt) : x.closed.picks = none := by
  cases x with
  | reuse x => exact Pc.scan_picks ..
  | count => exact Pc.count_picks ..

/-- Going on with the connection chosen before, choosing it now, or with none. -/
theorem Pool.Access.picks {pc : Pc} (h : s.Access limits t a pc m q) (hpc : s.tasks t = pc) (hs : s.Owned filed)
    (hd : s.Marked filed) (hq : q.picks = some c) :
    (pc.picks = some c ∧ ∀ p o, (Book.note s a p o).chosen t = o.chosen t) ∨
      (a = .exec t ∧ s.choice t = some c ∧ (s.entries c).dead = false) := by
  have keep : s.choice t = none → pc.picks = some c → a = .exec t →
      (pc.picks = some c ∧ ∀ p o, (Book.note s a p o).chosen t = o.chosen t) ∨
        (a = .exec t ∧ s.choice t = some c ∧ (s.entries c).dead = false) := by
    rintro hnone hold rfl
    exact .inl ⟨hold, fun p o => by rw [Book.note_unchosen hnone]⟩
  have nothing : q.picks = none → False := by
    intro hnone
    rw [hnone] at hq
    cases hq
  cases h with
  | notDead x hx =>
    cases x with
    | reuse x =>
      cases hq
      exact .inr ⟨rfl, by rw [Pool.choice, hpc], hx⟩
    | count => cases hq
  | take x hp hi =>
    cases hq
    refine .inr ⟨rfl, by simp only [Pool.choice, hpc, if_pos hp], Bool.eq_false_iff.mpr fun hx => ?_⟩
    rw [((hd _ hx).2 hp).1] at hi
    cases hi
  | push k proto i =>
    cases hq
    refine .inr ⟨rfl, by rw [Pool.choice, hpc]; rfl, Bool.eq_false_iff.mpr fun hx => ?_⟩
    exact (hs.pushing t _ (by rw [hpc]; rfl)).2 (hd _ hx).1
  | clone x hp =>
    refine keep ?_ hq rfl
    simp only [Pool.choice, hpc, hp]
    exact if_neg fun he => (by cases he)
  | slotOpen x =>
    cases x with
    | reuse x => exact keep (by rw [Pool.choice, hpc]) hq rfl
    | count k live i rest => exact (nothing (Pc.count_picks ..)).elim
  | multiplexed | exclusive | slotFull | found | foundLocked | unlockDial =>
    exact keep (by rw [Pool.choice, hpc]) hq rfl
  | addActive x =>
    refine keep (by rw [Pool.choice, hpc]) ?_ rfl
    cases x <;> exact hq
  | getList => exact (nothing (Pc.scan_picks ..)).elim
  | getCount => exact (nothing (Pc.count_picks ..)).elim
  | dead x | slotClosed x => exact (nothing x.closed_picks).elim
  | crowded | slotEmpty => exact (nothing (Pc.scan_picks ..)).elim
  | missed x =>
    cases x with
    | reuse x => exact (nothing (Pc.scan_picks ..)).elim
    | dialled => cases hq
  | _ => cases hq

theorem Book.Alive.step (ho : o.Alive s) (hs : s.Owned filed) (hd : s.Marked filed) (h : s.Stepped limits a p) :
    (Book.note s a p o).Alive p := by
  cases h with
  | peerClose | newGuard | dropGuard => exact ho
  | @task t a m q h =>
    intro u c hc
    rw [h.tasks] at hc
    by_cases hu : u = t
    · subst hu
      rw [Function.update_self] at hc
      rcases h.picks rfl hs hd hc with ⟨hold, hkeep⟩ | ⟨rfl, hnew, halive⟩
      · rw [hkeep]
        exact ho u c hold
      · rw [Book.note_chosen hnew, Function.update_self, halive]
    · rw [Function.update_of_ne hu] at hc
      rw [h.others_chosen hu]
      exact ho u c hc

/-- In every run before shutdown, whatever the peers and the pause guards do: the connections of
a key that have not been closed stay within the cap, the sender of an h1 connection is in the
hands of one task at most, and a lease is on a connection that was not marked dead when the task
chose it. -/
theorem open_connections_capped_and_senders_exclusive {as : List Act}
    (h : Pool.Reaches limits anyStep as s o) :
    (∀ k, s.unclosed (s.conns k) ≤ limits.maxConnsPerKey) ∧
      (∀ t u c, (s.entries c).proto = .h1 → (s.tasks t).holds = some c → (s.tasks u).holds = some c → t = u) ∧
      ∀ t c, s.tasks t = .leased c → o.chosen t = some (c, false) := by
  have hinv : s.Capped limits ∧ o.Alive s ∧ ∃ filed, s.Owned filed ∧ s.Marked filed := by
    refine h.invariant (I := fun x => x.1.Capped limits ∧ x.2.Alive x.1 ∧ ∃ filed, x.1.Owned filed ∧ x.1.Marked filed)
      ?_ ⟨Pool.Capped.init, fun t c hc => (by cases hc), [], Pool.Owned.init, fun c hc => (by cases hc)⟩
    rintro ⟨s, o⟩ a ⟨p, o'⟩ - ⟨hcap, halive, filed, hown, hmark⟩ hstep
    obtain ⟨hp, ho⟩ := observe_eq_some hstep
    have hcases := Pool.step_cases hp
    refine ⟨hcap.step hcases, ?_, _, hown.step hcases, hmark.step hown hcases⟩
    rw [show o' = Book.note s a p o from ho]
    exact halive.step hown hmark hcases
  obtain ⟨hcap, halive, filed, hown, -⟩ := hinv
  refine ⟨hcap.cap, fun t u c hp => (hown.lent c hp).sole t u, fun t c ht => halive t c ?_⟩
  rw [ht]
  rfl

end Choice

def dials (key : PoolKey) (t : TaskId) (proto : Proto) : List Act :=
  Act.acquire t key :: List.replicate 8 (.exec t) ++ Act.connected t (.ok proto) :: List.replicate 5 (.exec t)

def plainKey : PoolKey := ⟨"http", "example", 80⟩

set_option maxRecDepth 10000 in
theorem open_connections_capped_at_one : ∃ as s o, Pool.Reaches { maxConnsPerKey := 1 } anyStep as s o ∧
    s.tasks 0 = .leased 1 ∧ s.tasks 1 = .failed .connect ∧ s.unclosed (s.conns plainKey) ≤ 1 ∧
    o.chosen 0 = some (1, false) := by
  have hrun : (replay (observe (Pool.step { maxConnsPerKey := 1 }) Book.note) anyStep ({}, {})
      (dials plainKey 0 .h1 ++ Act.acquire 1 plainKey :: List.replicate 19 (.exec 1))).map
      (fun x => (x.1.tasks 0, x.1.tasks 1)) = some (.leased 1, .failed .connect) := by decide +kernel
  obtain ⟨⟨s, o⟩, hs, htasks⟩ := Option.map_eq_some_iff.mp hrun
  obtain ⟨hzero, hone⟩ := Prod.mk.inj htasks
  have hrun := run_of_replay hs
  have hall := open_connections_capped_and_senders_exclusive hrun
  exact ⟨_, s, o, hrun, hzero, hone, hall.1 plainKey, hall.2.2 0 1 hzero⟩

end Hyper4k.Pooling
