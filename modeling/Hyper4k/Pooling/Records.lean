import Hyper4k.Pooling.Leasing

/-! The entries that the pool keeps for a key: `acquire` counts those that are open, and a dial adds
to all of them. -/
namespace Hyper4k.Pooling
open Bridge (ConnId ErrorKind)
open Runs

/-- What a task that dials for a key knows of the length of its list, as long as the count has
passed over no entry. -/
def Pc.Tallies (cap : Nat) (conns : PoolKey → List ConnId) : Pc → Prop
  | .loadDead (.count k live _ rest) | .loadSender (.count k live _ rest) => (conns k).length = live + 1 + rest.length
  | .dropCount k live => (conns k).length = live
  | .connect k | .fetchId k _ | .push k _ _ => (conns k).length < cap
  | _ => True

def Pool.countsOpen (s : Pool) : Pc → Bool
  | .loadDead (.count _ _ c _) => !(s.entries c).dead
  | .loadSender (.count _ _ c _) => !Pool.slotClosed (s.entries c)
  | _ => true

/-- Where `acquire` counts the connections of its key, it meets no closed one. -/
def Pool.CountsOpen (s : Pool) : Act → Prop
  | .exec t => s.countsOpen (s.tasks t) = true
  | _ => True

instance (s : Pool) : (a : Act) → Decidable (s.CountsOpen a)
  | .exec t => inferInstanceAs (Decidable (s.countsOpen (s.tasks t) = true))
  | .acquire _ _ | .connected _ _ | .abandon _ | .dropLease _ | .forget _ | .peerClose _ | .newGuard _
  | .dropGuard _ => inferInstanceAs (Decidable True)

section Records
variable {limits : Limits} {s p m : Pool} {t : TaskId} {a : Act} {pc q : Pc} {k : PoolKey} {cap : Nat}
  {conns conns' : PoolKey → List ConnId}

theorem Pc.tallies_scan (dialing : Bool) (l : List ConnId) : (Pc.scan k dialing l).Tallies cap conns := by
  cases l <;> trivial

theorem Pc.tallies_count {live : Nat} {l : List ConnId} (h : (conns k).length = live + l.length) :
    (Pc.count k live l).Tallies cap conns := by
  cases l with
  | nil => exact h
  | cons c rest =>
    change (conns k).length = live + 1 + rest.length
    rw [h, List.length_cons]
    omega

/-- A task that goes on, without a change of any list, knows what it should. -/
theorem Pool.Access.tallies (h : s.Access limits t a pc m q) (hok : a = .exec t → s.countsOpen pc = true)
    (hs : pc.Tallies limits.maxConnsPerKey s.conns) : q.Tallies limits.maxConnsPerKey s.conns := by
  cases h with
  | getList => exact Pc.tallies_scan ..
  | getCount k => exact Pc.tallies_count (Nat.zero_add _).symm
  | dead x hd =>
    cases x with
    | reuse x => exact Pc.tallies_scan ..
    | count k live c rest =>
      have hopen := hok rfl
      rw [show s.countsOpen _ = !(s.entries c).dead from rfl, show (s.entries c).dead = true from hd] at hopen
      cases hopen
  | notDead x hd =>
    cases x with
    | reuse x => trivial
    | count k live c rest => exact hs
  | slotClosed x hx =>
    cases x with
    | reuse x => exact Pc.tallies_scan ..
    | count k live c rest =>
      have hopen := hok rfl
      rw [show s.countsOpen _ = !Pool.slotClosed (s.entries c) from rfl,
        show Pool.slotClosed (s.entries c) = true from hx] at hopen
      cases hopen
  | slotOpen x hx =>
    cases x with
    | reuse x => trivial
    | count k live c rest => exact Pc.tallies_count hs
  | crowded | slotEmpty => exact Pc.tallies_scan ..
  | missed x =>
    cases x with
    | reuse x => exact Pc.tallies_scan ..
    | dialled => trivial
  | addActive x => cases x <;> trivial
  | dial k live hlive =>
    change (s.conns k).length < _
    rw [show (s.conns k).length = live from hs]
    exact hlive
  | connected | fetchId => exact hs
  | _ => trivial

theorem Pc.Tallies.later (hconns : ∀ k, pc.lock = some k → conns' k = conns k) (h : pc.Tallies cap conns) :
    pc.Tallies cap conns' := by
  cases pc with
  | loadDead x | loadSender x =>
    cases x with
    | reuse => trivial
    | count k live c rest =>
      change (conns' k).length = _
      rw [hconns k rfl]
      exact h
  | dropCount k live =>
    change (conns' k).length = _
    rw [hconns k rfl]
    exact h
  | connect k | fetchId k | push k =>
    change (conns' k).length < _
    rw [hconns k rfl]
    exact h
  | _ => trivial

/-- The lists stay within the cap, and whoever dials knows how long its list is. -/
structure Pool.Tallied (limits : Limits) (s : Pool) : Prop where
  lock : s.Locked
  cap : ∀ k, (s.conns k).length ≤ limits.maxConnsPerKey
  tallies : ∀ t, (s.tasks t).Tallies limits.maxConnsPerKey s.conns

theorem Pool.Tallied.init : ({} : Pool).Tallied limits where
  lock k u := ⟨fun h => (by cases h), fun h => (by cases h)⟩
  cap _ := Nat.zero_le _
  tallies _ := trivial

theorem Pool.Tallied.step (hok : s.CountsOpen a) (hs : s.Tallied limits) (h : s.Stepped limits a p) :
    p.Tallied limits := by
  have hlock := hs.lock.step h
  cases h with
  | peerClose | newGuard | dropGuard => exact ⟨hlock, hs.cap, hs.tallies⟩
  | @task t a m q h =>
    rcases h.conns with ⟨hm, -⟩ | ⟨k, proto, c, hpc, rfl, hm⟩
    · have hsame : (m.goto t q).conns = s.conns := hm
      refine ⟨hlock, fun k => ?_, ?_⟩
      · rw [hsame]
        exact hs.cap k
      · rw [h.tasks, hsame]
        refine forall_update (Q := fun _ pc => Pc.Tallies limits.maxConnsPerKey s.conns pc) ?_ fun u _ => hs.tallies u
        refine h.tallies (fun ha => ?_) (hs.tallies t)
        rw [ha] at hok
        exact hok
    · -- the list grows by one under the dial lock, which the task has held since it counted
      have hroom : (s.conns k).length < limits.maxConnsPerKey := by
        have ht := hs.tallies t
        rw [hpc] at ht
        exact ht
      have hlockt : (s.tasks t).lock = some k := by rw [hpc]; rfl
      refine ⟨hlock, fun k' => ?_, ?_⟩
      · change (m.conns k').length ≤ _
        rw [hm]
        by_cases hk : k' = k
        · rw [hk, Function.update_self, List.length_append, List.length_singleton]
          exact hroom
        · rw [Function.update_of_ne hk]
          exact hs.cap k'
      · rw [h.tasks]
        refine forall_update (Q := fun _ pc => Pc.Tallies limits.maxConnsPerKey m.conns pc) trivial fun u hu => ?_
        refine (hs.tallies u).later fun k' hk' => ?_
        rw [hm, Function.update_of_ne]
        rintro rfl
        exact hu (hs.lock.alone hk' hlockt)

/-- A connection that has died is one of those in `gone`: its sender reports closed, its entry bears the mark, or
is about to. -/
structure Pool.DiedIn (s : Pool) (gone : ConnId → Prop) : Prop where
  sender : ∀ c, (s.entries c).senderClosed = true → gone c
  dead : ∀ c, (s.entries c).dead = true → gone c
  marking : ∀ t c, s.tasks t = .storeDead c → gone c

theorem Pool.Access.marked {c : ConnId} (h : s.Access limits t a pc m q) (hc : (m.entries c).dead = true) :
    (s.entries c).dead = true ∨ pc = .storeDead c := by
  cases h with
  | storeDead i =>
    by_cases hci : c = i
    · exact .inr (hci ▸ rfl)
    · exact .inl ((congrArg Conn.dead (Function.update_of_ne hci ..)).symm.trans hc)
  | take | addActive | subActive | putBack | push => exact .inl ((update_part (f := Conn.dead) (by rfl) c).symm.trans hc)
  | _ => exact .inl hc

theorem Pool.Access.marking {c : ConnId} (h : s.Access limits t a pc m q) (hq : q = .storeDead c) :
    (s.entries c).senderClosed = true := by
  have hno : q.reading = false := by rw [hq]; rfl
  cases h with
  | dropClosed c hclosed =>
    cases hq
    exact hclosed
  | getList | crowded | slotEmpty => exact absurd (Pc.scan_reading ..) (Bool.eq_false_iff.mp hno)
  | getCount => exact absurd (Pc.count_reading ..) (Bool.eq_false_iff.mp hno)
  | dead x | slotClosed x => exact absurd x.closed_reading (Bool.eq_false_iff.mp hno)
  | slotOpen x => exact absurd x.live_reading (Bool.eq_false_iff.mp hno)
  | missed x => exact absurd x.missed_reading (Bool.eq_false_iff.mp hno)
  | addActive x => cases x <;> cases hq
  | _ => cases hq

theorem Pool.DiedIn.step {gone : ConnId → Prop} (hs : s.DiedIn gone) (hok : ∀ c, a = .peerClose c → gone c)
    (h : s.Stepped limits a p) : p.DiedIn gone := by
  cases h with
  | @task t a m q h =>
    refine ⟨fun c hc => hs.sender c ((h.senderClosed c).symm.trans hc), fun c hc => ?_, ?_⟩
    · exact (h.marked hc).elim (hs.dead c) (hs.marking t c)
    · rw [h.tasks]
      exact forall_update (Q := fun _ (pc : Pc) => ∀ c, pc = .storeDead c → gone c) (fun c hq => hs.sender c (h.marking hq))
        fun u _ => hs.marking u
  | peerClose c =>
    refine ⟨?_, fun i hi => ?_, hs.marking⟩
    · exact forall_update (Q := fun i (e : Conn) => e.senderClosed = true → gone i) (fun _ => hok c rfl)
        fun i _ => hs.sender i
    · exact hs.dead i ((update_part (f := Conn.dead) (by rfl) i).symm.trans hi)
  | newGuard | dropGuard =>
    refine ⟨fun i hi => ?_, fun i hi => ?_, hs.marking⟩
    · exact hs.sender i ((update_part (f := Conn.senderClosed) (by rfl) i).symm.trans hi)
    · exact hs.dead i ((update_part (f := Conn.dead) (by rfl) i).symm.trans hi)

/-- No step takes an entry out of its list. -/
theorem Pool.Stepped.conns_grow (h : s.Stepped limits a p) (k : PoolKey) : s.conns k <+: p.conns k := by
  cases h with
  | peerClose | newGuard | dropGuard => exact List.prefix_rfl
  | @task t a m q h =>
    change s.conns k <+: m.conns k
    rcases h.conns with ⟨hm, -⟩ | ⟨k', proto, c, -, -, hm⟩
    · have hsame : m.conns k = s.conns k := congrFun hm k
      exact hsame ▸ List.prefix_rfl
    · by_cases hk : k = k'
      · rw [hm, hk, Function.update_self]
        exact List.prefix_append _ _
      · have hsame : m.conns k = s.conns k := by rw [hm, Function.update_of_ne hk]
        exact hsame ▸ List.prefix_rfl

section Runs
variable {ok : Pool × Book → Act → Prop} {as : List Act} {o : Book}

/-- The open connections are those that no peer has closed. -/
theorem Pool.Reaches.unclosed_iff (h : Pool.Reaches limits ok as s o) (c : ConnId) :
    (s.entries c).unclosed = true ↔ Act.peerClose c ∉ as := by
  constructor
  · intro hopen hmem
    have hclosed : (s.entries c).senderClosed = true := by
      refine h.lasting (I := fun x => (x.1.entries c).senderClosed = true) hmem (fun x y hstep => ?_) fun x b y hx hstep => ?_
      · obtain ⟨hp, -⟩ := observe_eq_some hstep
        rw [← Option.some.inj hp]
        change (Function.update x.1.entries c _ c).senderClosed = true
        rw [Function.update_self]
      · exact (Pool.step_cases (observe_eq_some hstep).1).senderClosed hx
    rw [Conn.closed_of_sender hclosed] at hopen
    cases hopen
  · intro hnot
    have hdied : s.DiedIn fun c => Act.peerClose c ∈ as := by
      refine h.mem.invariant (I := fun x => x.1.DiedIn fun c => Act.peerClose c ∈ as) ?_
        ⟨fun _ hc => (by cases hc), fun _ hc => (by cases hc), fun _ _ hc => (by cases hc)⟩
      rintro ⟨s, o⟩ a ⟨p, o'⟩ ⟨-, hmem⟩ hs hstep
      exact hs.step (fun c ha => ha ▸ hmem) (Pool.step_cases (observe_eq_some hstep).1)
    rw [Conn.unclosed, Bool.eq_false_iff.mpr fun hd => hnot (hdied.dead c hd),
      Bool.eq_false_iff.mpr fun hd => hnot (hdied.sender c hd)]
    rfl

theorem Pool.conns_kept {p : Pool × Book} (h : Run (observe (Pool.step limits) Book.note) ok (s, o) as p)
    (k : PoolKey) : s.conns k <+: p.1.conns k := by
  refine h.invariant (I := fun x => s.conns k <+: x.1.conns k) ?_ List.prefix_rfl
  rintro x b y - hx hstep
  exact hx.trans ((Pool.step_cases (observe_eq_some hstep).1).conns_grow k)

end Runs

/-- The entries kept for a key stay within the cap, which a dial holds against all of them and not
only against those that are open. An entry stays listed in every later run, so a list is free of dead
connections exactly if no peer has closed one of it. -/
theorem records_bounded {as : List Act} {o : Book} (h : Pool.Reaches limits (fun x => x.1.CountsOpen) as s o) :
    (∀ k, (s.conns k).length ≤ limits.maxConnsPerKey) ∧
    (∀ t k live, s.tasks t = .dropCount k live → live = (s.conns k).length) ∧
    (∀ k, (∀ c ∈ s.conns k, (s.entries c).unclosed = true) ↔ ∀ c ∈ s.conns k, Act.peerClose c ∉ as) ∧
    ∀ bs p, Run (observe (Pool.step limits) Book.note) anyStep (s, o) bs p → ∀ k, s.conns k <+: p.1.conns k := by
  have hinv : s.Tallied limits := by
    refine h.invariant (I := fun x => x.1.Tallied limits) ?_ Pool.Tallied.init
    rintro ⟨s, o⟩ a ⟨p, o'⟩ hok hs hstep
    obtain ⟨hp, -⟩ := observe_eq_some hstep
    exact hs.step hok (Pool.step_cases hp)
  refine ⟨hinv.cap, fun t k live ht => ?_, fun k => ?_, fun bs p hp => Pool.conns_kept hp⟩
  · have hlength := hinv.tallies t
    rw [ht] at hlength
    exact hlength.symm
  · exact forall₂_congr fun c _ => h.unclosed_iff c

end Records

set_option maxRecDepth 10000 in
theorem records_bounded_at_two : ∃ as s o,
    Pool.Reaches { maxConnsPerKey := 2 } (fun x => x.1.CountsOpen) as s o ∧ s.conns plainKey = [1, 2] ∧
    (s.conns plainKey).length ≤ 2 := by
  have hrun : (replay (observe (Pool.step { maxConnsPerKey := 2 }) Book.note) (fun x => x.1.CountsOpen) ({}, {})
      (dials plainKey 0 .h1 ++ Act.acquire 1 plainKey :: List.replicate 18 (.exec 1) ++
        Act.connected 1 (.ok .h1) :: List.replicate 5 (.exec 1))).map
      (fun x => x.1.conns plainKey) = some [1, 2] := by decide +kernel
  obtain ⟨⟨s, o⟩, hs, hlist⟩ := Option.map_eq_some_iff.mp hrun
  have hreach := run_of_replay hs
  exact ⟨_, s, o, hreach, hlist, (records_bounded hreach).1 plainKey⟩

set_option maxRecDepth 10000 in
/-- The peer closes the only connection that the cap allows. The drop of its lease marks the entry,
and the next dial adds a second one to the list. -/
theorem dead_entry_kept : ¬ ∀ (limits : Limits) (as : List Act) (s : Pool) (o : Book) (k : PoolKey),
    Pool.Reaches limits anyStep as s o → (s.conns k).length ≤ limits.maxConnsPerKey := by
  intro h
  have hrun : (replay (observe (Pool.step { maxConnsPerKey := 1 }) Book.note) anyStep ({}, {})
      (dials plainKey 0 .h1 ++ Act.peerClose 1 :: .dropLease 0 :: List.replicate 3 (.exec 0) ++
        Act.acquire 1 plainKey :: List.replicate 11 (.exec 1) ++
        Act.connected 1 (.ok .h1) :: List.replicate 5 (.exec 1))).map
      (fun x => x.1.conns plainKey) = some [1, 2] := by decide +kernel
  obtain ⟨⟨s, o⟩, hs, hlist⟩ := Option.map_eq_some_iff.mp hrun
  have hle := h _ _ s o plainKey (run_of_replay hs)
  rw [show s.conns plainKey = [1, 2] from hlist] at hle
  exact absurd hle (by decide)

end Hyper4k.Pooling
