import Hyper4k.Runs.Credits
import Hyper4k.Bridge.Ownership

/-! The ready queue of the executor: how often a slot stands in it, and in which order slots leave it. -/
namespace Hyper4k.Bridge
open Runs

/-- The thread carries the slot's place in the ready queue: it has set `scheduled` and not yet pushed, or it
has popped the slot and not yet cleared `scheduled`. -/
def Pc.ticket : Pc → Bool
  | .pushReady _ | .swapRunning _ | .bounce | .clearScheduled _ => true
  | _ => false

/-- The thread does not put the slot back past `schedule_slot`. -/
def View.NoRequeue (v : View) (m : Move) : Prop := ∀ t, m = .exec t → v.pc t ≠ .requeue

theorem exec_ticket {s : Slot} {pc : Pc} {o : Outcome} (hpc : pc ≠ .requeue)
    (hs : pc.ticket = true → s.scheduled = true) (h : s.exec pc = some o) :
    o.effect.pushes + o.pc.ticket.toNat + s.scheduled.toNat = pc.ticket.toNat + o.slot.scheduled.toNat := by
  cases pc with
  | requeue => exact absurd rfl hpc
  | bounce | clearScheduled _ =>
    cases h
    rw [hs rfl]
    rfl
  | swapRunning n =>
    simp only [Slot.exec] at h
    split at h <;> cases h <;> rfl
  | swapScheduled k =>
    simp only [Slot.exec] at h
    split at h
    · cases h
      rfl
    · rename_i hoff
      cases h
      rw [Bool.eq_false_iff.mpr hoff]
      rfl
  | pushReady k =>
    cases h
    rfl
  | _ =>
    simp only [Slot.exec] at h
    repeat' split at h
    all_goals first
      | (cases h; rfl)
      | cases h

theorem env_ticket {s : Slot} {pc : Pc} {o : Outcome} (h : s.EnvStep pc o) :
    o.effect.pushes = 0 ∧ o.pc.ticket = false ∧ pc.ticket = false ∧ o.slot.scheduled = s.scheduled := by
  cases h with
  | received f => rcases f with (_ | _) | _ <;> exact ⟨rfl, rfl, rfl, rfl⟩
  | failed _ _ waits | aborted _ waits => cases pc <;> first | exact ⟨rfl, rfl, rfl, rfl⟩ | cases waits
  | _ => exact ⟨rfl, rfl, rfl, rfl⟩

/-- The slot's entries in the queue and the tickets of its threads are one if `scheduled` is set, none if not. -/
def View.Ticketed (v : View) : Prop := ∃ n, Exactly Pc.ticket n v.pc ∧ v.ready + n = v.slot.scheduled.toNat

theorem View.Ticketed.init (onChunk : Bool) (queueCapacity : Nat) : (View.init onChunk queueCapacity).Ticketed :=
  ⟨0, exactly_zero fun _ => rfl, rfl⟩

/-- Whoever carries a ticket finds `scheduled` set. -/
theorem View.Ticketed.scheduled {v : View} (hv : v.Ticketed) {t : Tid} (ht : (v.pc t).ticket = true) :
    v.slot.scheduled = true := by
  obtain ⟨n, hn, hsum⟩ := hv
  have hpos := hn.pos ht
  cases hs : v.slot.scheduled with
  | true => rfl
  | false =>
    rw [hs, Bool.toNat_false] at hsum
    omega

/-- A thread that arrives without a ticket changes nothing. -/
theorem View.Ticketed.arrive {v : View} (hv : v.Ticketed) {t : Tid} (free : v.pc t = .away) {pc : Pc}
    (hpc : pc.ticket = false) : View.Ticketed ⟨v.slot, v.ready, Function.update v.pc t pc⟩ := by
  obtain ⟨n, hn, hsum⟩ := hv
  obtain ⟨n', hn', hsame⟩ := hn.update t pc
  rw [free, hpc] at hsame
  have hequal : n' = n := hsame
  exact ⟨n', hn', hequal ▸ hsum⟩

theorem View.Ticketed.step {v w : View} {m : Move} (hok : v.NoRequeue m) (hv : v.Ticketed) (h : v.Stepped m w) :
    w.Ticketed := by
  cases h with
  | exec t o h =>
    have hflow := exec_ticket (hok t rfl) hv.scheduled h
    obtain ⟨n, hn, hsum⟩ := hv
    obtain ⟨n', hn', hsame⟩ := hn.update t o.pc
    refine ⟨n', hn', ?_⟩
    change v.ready + o.effect.pushes + n' = o.slot.scheduled.toNat
    omega
  | env t c o h =>
    obtain ⟨hpush, hafter, hbefore, hscheduled⟩ := env_ticket h
    obtain ⟨n, hn, hsum⟩ := hv
    obtain ⟨n', hn', hsame⟩ := hn.update t o.pc
    rw [hafter, hbefore] at hsame
    refine ⟨n', hn', ?_⟩
    change v.ready + o.effect.pushes + n' = o.slot.scheduled.toNat
    rw [hpush, hscheduled]
    omega
  | pop n k free hk =>
    obtain ⟨m, hm, hsum⟩ := hv
    obtain ⟨m', hm', hsame⟩ := hm.update (.worker n) (.swapRunning SLICE)
    rw [free] at hsame
    refine ⟨m', hm', ?_⟩
    change k + m' = v.slot.scheduled.toNat
    simp only [Pc.ticket, Bool.toNat_true, Bool.toNat_false] at hsame
    omega
  | enter n e free => cases e <;> exact hv.arrive free rfl
  | spawn a free => exact hv.arrive free rfl
  | setAbort => exact hv

def Client.acting (s : Client) : Act → Option Pc
  | .worker n => (s.workers n).map Prod.snd
  | .task r => some (s.tasks r)
  | .call n => match s.calls n with
    | .request _ pc | .closingOn _ pc _ _ => some pc
    | _ => none
  | _ => none

/-- `worker_loop` does not put a slot back. -/
def Client.NeverRequeues (s : Client) (a : Act) : Prop := s.acting a ≠ some .requeue

instance (s : Client) (a : Act) : Decidable (s.NeverRequeues a) := inferInstanceAs (Decidable (_ ≠ _))

theorem Client.moveOf_exec {s : Client} {r : ReqId} {a : Act} {t : Tid} (h : s.moveOf r a = some (.exec t)) :
    s.acting a = some ((s.view r).pc t) := by
  cases a with
  | pop n =>
    simp only [Client.moveOf] at h
    split at h <;> cases h
  | worker n =>
    simp only [Client.moveOf] at h
    split at h
    case h_2 => cases h
    case h_1 q pc hw =>
      split at h <;> cases h
      rename_i hq
      simp [Client.acting, Client.view, Client.pcOn, workerPcOn, hw, hq]
  | workerEnv n c =>
    simp only [Client.moveOf] at h
    split at h
    · split at h <;> cases h
    · cases h
  | task q =>
    simp only [Client.moveOf] at h
    split at h <;> cases h
    rename_i hq
    rw [hq]
    rfl
  | taskEnv q c =>
    simp only [Client.moveOf] at h
    split at h <;> cases h
  | begin n api => cases h
  | call n =>
    simp only [Client.moveOf] at h
    split at h
    case h_2 q pc hc | h_4 q pc todo free hc =>
      split at h <;> cases h
      rename_i hq
      simp [Client.acting, Client.view, Client.pcOn, Call.pcOn, hc, hq]
    all_goals first
      | (split at h <;> cases h)
      | cases h

theorem Client.NeverRequeues.on {s : Client} {a : Act} (h : s.NeverRequeues a) (r : ReqId) :
    Client.On r View.NoRequeue s a := by
  intro m hm t ht hpc
  rw [ht] at hm
  apply h
  rw [Client.moveOf_exec hm, hpc]

theorem Client.Reaches.ticketed {cfg : Config} {as : List Act} {s : Client}
    (h : Client.Reaches cfg Client.NeverRequeues (Client.init cfg) as s) (r : ReqId) : (s.view r).Ticketed := by
  have hon : Client.Reaches cfg (Client.On r View.NoRequeue) (Client.init cfg) as s :=
    h.mono fun _ _ hok => hok.on r
  exact Client.Reaches.holds hon (View.Ticketed.init _ _) fun _ _ _ hok hv hs => hv.step hok hs

def Pc.slicing : Pc → Bool
  | .swapRunning _ => true
  | pc => pc.owns

theorem Pc.slicing_of_owns {pc : Pc} (h : pc.owns = true) : pc.slicing = true := by
  cases pc with
  | swapRunning n => rfl
  | _ => exact h

theorem exec_running {s : Slot} {pc : Pc} {o : Outcome} (hs : pc.owns = true → s.running = true)
    (h : s.exec pc = some o) : o.slot.running.toNat + pc.owns.toNat = s.running.toNat + o.pc.owns.toNat := by
  revert h
  fun_cases Slot.exec s pc <;> intro h <;> cases h <;>
    simp_all [Pc.owns, Caller.inSlice, After.inSlice]

theorem exec_slicing {s : Slot} {pc : Pc} {o : Outcome} (h : s.exec pc = some o) (ho : o.pc.slicing = true) :
    pc.slicing = true := by
  revert h
  fun_cases Slot.exec s pc <;> intro h <;> cases h <;>
    simp_all [Pc.slicing, Pc.owns, Caller.inSlice, After.inSlice]

theorem env_slicing {s : Slot} {pc : Pc} {o : Outcome} (h : s.EnvStep pc o) (ho : o.pc.slicing = true) :
    pc.slicing = true := by
  cases h with
  | answered => rfl
  | received f => rcases f with (_ | _) | _ <;> cases ho
  | failed _ _ waits | aborted _ waits => cases ho
  | _ => cases ho

/-- `running` is set exactly while a worker has the slot. -/
structure View.Manned (v : View) : Prop where
  lock : Exactly Pc.owns v.slot.running.toNat v.pc
  worker : ∀ t, (v.pc t).slicing = true → ∃ n, t = .worker n

theorem View.Manned.init (onChunk : Bool) (queueCapacity : Nat) : (View.init onChunk queueCapacity).Manned where
  lock := exactly_zero fun _ => rfl
  worker _ h := by cases h

theorem View.Manned.move {v : View} (hv : v.Manned) {t : Tid} {s : Slot} {k : Nat} {pc : Pc}
    (hlock : s.running.toNat + (v.pc t).owns.toNat = v.slot.running.toNat + pc.owns.toNat)
    (hworker : pc.slicing = true → ∃ n, t = .worker n) : View.Manned ⟨s, k, Function.update v.pc t pc⟩ := by
  obtain ⟨n, hn, hsame⟩ := hv.lock.update t pc
  have hcount : n = s.running.toNat := by omega
  refine ⟨hcount ▸ hn, forall_update (Q := fun u (pc : Pc) => pc.slicing = true → ∃ n, u = Tid.worker n) hworker ?_⟩
  exact fun u _ => hv.worker u

theorem View.Manned.step {v w : View} {m : Move} (hv : v.Manned) (h : v.Stepped m w) : w.Manned := by
  cases h with
  | exec t o h =>
    have hheld : (v.pc t).owns = true → v.slot.running = true := by
      intro ht
      have hpos := hv.lock.pos ht
      cases hr : v.slot.running with
      | true => rfl
      | false =>
        rw [hr] at hpos
        exact absurd hpos (lt_irrefl 0)
    exact hv.move (exec_running hheld h) fun ho => hv.worker t (exec_slicing h ho)
  | env t c o h =>
    obtain ⟨hr, hpc⟩ := env_lock h
    exact hv.move (by rw [hr, hpc]) fun ho => hv.worker t (env_slicing h ho)
  | pop n k free hk => exact hv.move (by rw [free]; rfl) fun _ => ⟨n, rfl⟩
  | enter n e free =>
    refine hv.move ?_ fun h => by cases e <;> cases h
    rw [free]
    cases e <;> rfl
  | spawn a free => exact hv.move (by rw [free]; rfl) fun h => by cases h
  | setAbort => exact ⟨hv.lock, hv.worker⟩

/-- If one worker takes all the slots, then the others stay where they are. -/
theorem Client.Reaches.one_worker {cfg : Config} {ok : Client → Act → Prop} {as : List Act} {s : Client} {n : Nat}
    (h : Client.Reaches cfg ok (Client.init cfg) as s) (hone : ∀ k, Act.pop k ∈ as → k = n) :
    ∀ m, m ≠ n → s.workers m = none := by
  refine Run.invariant (I := fun s : Client => ∀ m, m ≠ n → s.workers m = none) h.mem ?_ fun _ _ => rfl
  intro s a t ha hs move m hm
  have hother {k : Nat} {x : ReqId × Pc} (hk : s.workers k = some x) : m ≠ k := by
    rintro rfl
    rw [hs m hm] at hk
    cases hk
  cases Client.step_cases move with
  | pop k r rest =>
    rw [hone k ha.2]
    exact (Function.update_of_ne hm _ _).trans (hs m hm)
  | worker k r pc o on | workerEnv k c r pc o on =>
    simpa [Client.setWorker, Client.commit, hother on] using hs m hm
  | task | taskEnv => simpa [Client.setTask, Client.commit] using hs m hm
  | begin => exact hs m hm
  | call k _ h =>
    rw [(advance_threads (Nat.succ_ne_self k) h).1]
    exact hs m hm

/-- A sole worker that is about to take a slot finds none running. -/
theorem Client.Reaches.none_running {cfg : Config} {ok : Client → Act → Prop} {as : List Act} {s : Client} {n : Nat}
    (h : Client.Reaches cfg ok (Client.init cfg) as s) (hone : ∀ k, Act.pop k ∈ as → k = n)
    (hfree : s.workers n = none) (r : ReqId) : (s.slots r).running = false := by
  have hv : (s.view r).Manned := h.always r (View.Manned.init _ _) fun _ _ _ hv hs => hv.step hs
  have hidle : ∀ m, s.workers m = none := by
    intro m
    by_cases hm : m = n
    · exact hm ▸ hfree
    · exact h.one_worker hone m hm
  cases hr : (s.slots r).running with
  | false => rfl
  | true =>
    obtain ⟨T, hT, hcard⟩ := hv.lock
    change T.card = (s.slots r).running.toNat at hcard
    rw [hr] at hcard
    obtain ⟨t, ht⟩ := Finset.card_pos.mp (hcard.symm ▸ (by decide : 0 < true.toNat))
    have howns := (hT t).mp ht
    obtain ⟨m, rfl⟩ := hv.worker t (Pc.slicing_of_owns howns)
    simp only [Client.view, Client.pcOn, hidle m, workerPcOn] at howns
    cases howns

section Fifo
variable {cfg : Config} {s t : Client} {a : Act} {q r : ReqId}

theorem commit_ready (s : Client) (r : ReqId) (o : Outcome) :
    (s.commit r o).ready = s.ready ∨ (s.commit r o).ready = s.ready ++ [r] := by
  unfold Client.commit
  cases o.effect with
  | push => exact .inr rfl
  | newGuard conn | dropGuard conn => cases conn <;> exact .inl rfl
  | _ => exact .inl rfl

/-- What an action does to the queue: nothing, an entry at the back, or the front entry goes to a worker. -/
theorem Client.step_ready (h : s.step cfg a = some t) :
    (t.ready = s.ready ∨ ∃ x, t.ready = s.ready ++ [x]) ∨
      ∃ n x, a = .pop n ∧ s.workers n = none ∧ s.ready = x :: t.ready := by
  have hcommit (r : ReqId) (o : Outcome) {t : Client} (ht : t.ready = (s.commit r o).ready) :
      t.ready = s.ready ∨ ∃ x, t.ready = s.ready ++ [x] := by
    rw [ht]
    exact (commit_ready s r o).imp_right fun h => ⟨r, h⟩
  cases Client.step_cases h with
  | pop n x rest free ready => exact .inr ⟨n, x, rfl, free, ready⟩
  | worker n x pc o | workerEnv n c x pc o => exact .inl (hcommit x o rfl)
  | task x o | taskEnv x c o => exact .inl (hcommit x o rfl)
  | begin n api idle => exact .inl (.inl rfl)
  | call n _ h =>
    cases Client.advance_cases h with
    | send args pc on => cases pc <;> exact .inl (.inl rfl)
    | act x o c => exact .inl (hcommit x o rfl)
    | close free => exact .inl (.inl rfl)
    | move c => exact .inl (.inl rfl)

def Leads (q r : ReqId) (ready : List ReqId) : Prop := ∃ front back, ready = front ++ q :: back ∧ r ∉ front

theorem Leads.of_mem {ready : List ReqId} (hq : q ∈ ready) (hr : r ∉ ready) : Leads q r ready := by
  obtain ⟨front, back, rfl⟩ := List.append_of_mem hq
  exact ⟨front, back, rfl, fun h => hr (List.mem_append_left _ h)⟩

theorem Leads.push {ready : List ReqId} (h : Leads q r ready) (x : ReqId) : Leads q r (ready ++ [x]) := by
  obtain ⟨front, back, rfl, hr⟩ := h
  exact ⟨front, back ++ [x], by rw [List.append_assoc, List.cons_append], hr⟩

theorem Leads.pop {x : ReqId} {rest : List ReqId} (h : Leads q r (x :: rest)) : x = q ∨ Leads q r rest := by
  obtain ⟨front, back, hsplit, hr⟩ := h
  cases front with
  | nil => exact .inl (List.cons.inj hsplit).1
  | cons y front => exact .inr ⟨front, back, (List.cons.inj hsplit).2, fun h => hr (List.mem_cons_of_mem _ h)⟩

theorem Leads.head_ne {ready : List ReqId} (h : Leads q r ready) (hne : q ≠ r) : ready.head? ≠ some r := by
  obtain ⟨front, back, rfl, hr⟩ := h
  intro hhead
  cases front with
  | nil => exact hne (Option.some.inj hhead)
  | cons y front => exact hr (Option.some.inj hhead ▸ List.mem_cons_self)

/-- As long as `q` is not popped, it stays before `r`. -/
theorem Client.Reaches.leads {ok : Client → Act → Prop} {bs : List Act} {u : Client}
    (h : Client.Reaches cfg ok s bs u) (hs : Leads q r s.ready) : Leads q r u.ready ∨
      ∃ bs₁ k bs₂ v, bs = bs₁ ++ Act.pop k :: bs₂ ∧ Client.Reaches cfg ok s bs₁ v ∧ v.workers k = none ∧
        v.ready.head? = some q := by
  induction h with
  | nil s => exact .inl hs
  | @cons s t u a as allowed move rest ih =>
    have hnext : Leads q r t.ready ∨ ∃ k, a = .pop k ∧ s.workers k = none ∧ s.ready.head? = some q := by
      obtain (hsame | ⟨x, hpush⟩) | ⟨n, x, rfl, hfree, hpop⟩ := Client.step_ready move
      · exact .inl (hsame ▸ hs)
      · exact .inl (hpush ▸ hs.push x)
      · rw [hpop] at hs
        exact hs.pop.symm.imp_right fun hx => ⟨n, rfl, hfree, by rw [hpop, List.head?_cons, hx]⟩
    obtain hlead | ⟨k, rfl, hhead⟩ := hnext
    · refine (ih hlead).imp_right ?_
      rintro ⟨bs₁, k, bs₂, v, rfl, hv, hhead⟩
      exact ⟨a :: bs₁, k, bs₂, v, rfl, .cons allowed move hv, hhead⟩
    · exact .inr ⟨[], k, as, s, rfl, .nil s, hhead⟩

end Fifo

/-- A slot stands in the ready queue at most once, with `scheduled` set; and of two slots that are ready, the
one behind is taken before the one in front is taken again. A sole worker that takes it finds it not running, and so
gives it a slice. -/
theorem slot_queued_once {cfg : Config} {as : List Act} {s : Client}
    (h : Client.Reaches cfg Client.NeverRequeues (Client.init cfg) as s) :
    (∀ r, s.ready.count r ≤ 1 ∧ (r ∈ s.ready → (s.slots r).scheduled = true)) ∧
    ∀ (n : Nat) (r q : ReqId) (bs : List Act) (u : Client), s.ready.head? = some r → q ∈ s.ready → q ≠ r →
      Client.Reaches cfg anyStep s (.pop n :: bs) u → u.ready.head? = some r →
      ∃ bs₁ k bs₂ v, bs = bs₁ ++ .pop k :: bs₂ ∧ Client.Reaches cfg anyStep s (.pop n :: bs₁) v ∧
        v.ready.head? = some q ∧
        ((∀ j, Act.pop j ∈ as ++ .pop n :: bs → j = n) → (v.slots q).running = false) := by
  have honce : ∀ r, s.ready.count r ≤ 1 ∧ (r ∈ s.ready → (s.slots r).scheduled = true) := by
    intro r
    obtain ⟨k, -, hsum⟩ := h.ticketed r
    change s.ready.count r + k = (s.slots r).scheduled.toNat at hsum
    refine ⟨?_, fun hr => ?_⟩
    · have hle := Bool.toNat_le (s.slots r).scheduled
      omega
    · have hpos := List.count_pos_iff.mpr hr
      cases hscheduled : (s.slots r).scheduled with
      | true => rfl
      | false =>
        rw [hscheduled, Bool.toNat_false] at hsum
        omega
  refine ⟨honce, fun n r q bs u hr hq hne hrun hagain => ?_⟩
  cases hrun with
  | @cons _ t _ _ _ allowed move rest =>
    have hready : s.ready = r :: t.ready := by
      cases Client.step_cases move with
      | pop _ x tail free ready =>
        rw [ready, List.head?_cons] at hr
        rw [ready, Option.some.inj hr]
        rfl
    have hgone : r ∉ t.ready := by
      intro hmem
      have hcount := (honce r).1
      have hpos := List.count_pos_iff.mpr hmem
      rw [hready, List.count_cons_self] at hcount
      omega
    rw [hready] at hq
    have hmem : q ∈ t.ready := (List.mem_cons.mp hq).resolve_left hne
    obtain hlead | ⟨bs₁, k, bs₂, v, rfl, hv, hfree, hhead⟩ :=
      Client.Reaches.leads rest (Leads.of_mem hmem hgone)
    · exact absurd hagain (hlead.head_ne hne)
    · refine ⟨bs₁, k, bs₂, v, rfl, .cons allowed move hv, hhead, fun hone => ?_⟩
      have hkn : k = n := hone k (by simp)
      have hwhole : Client.Reaches cfg anyStep (Client.init cfg) (as ++ .pop n :: bs₁) v :=
        h.any.append (.cons allowed move hv)
      refine hwhole.none_running (fun j hj => hone j ?_) (hkn ▸ hfree) q
      rw [← List.cons_append, ← List.append_assoc]
      exact List.mem_append_left _ hj

def bothQueued : List Act :=
  headQueued ++ Act.begin 0 (.send ⟨none, 10, ⟨false, 0⟩⟩) :: List.replicate 10 (.call 0) ++
    [Act.taskEnv 2 (.leased 5), .task 2, .taskEnv 2 (.response 200 1 [])] ++ List.replicate 9 (Act.task 2)

def oneReadyAgain : List Act :=
  List.replicate 9 (.worker 0) ++ Act.workerEnv 0 (.action .cont) :: List.replicate 9 (.worker 0) ++
    Act.taskEnv 1 (.frame (.data [7])) :: List.replicate 8 (.task 1) ++ [Act.pop 0]

theorem slot_queued_once_two_ready : ∃ s u : Client,
    Client.Reaches .small Client.NeverRequeues (Client.init .small) bothQueued s ∧ s.ready = [1, 2] ∧
    (s.slots 1).scheduled = true ∧ Client.Reaches .small anyStep s (.pop 0 :: oneReadyAgain) u ∧ u.ready = [1] ∧
    ∃ bs₁ k bs₂ v, oneReadyAgain = bs₁ ++ .pop k :: bs₂ ∧ Client.Reaches .small anyStep s (.pop 0 :: bs₁) v ∧
      v.ready.head? = some 2 ∧ (v.slots 2).running = false := by
  have hrun : Client.after .small Client.NeverRequeues bothQueued (fun s => s.ready = [1, 2])
      (Client.after .small anyStep (.pop 0 :: oneReadyAgain) (fun u => u.ready = [1]) fun _ => true)
      (Client.init .small) = true := by decide
  obtain ⟨s, hs, hready, hnext⟩ := Client.of_after hrun
  obtain ⟨u, hu, hagain, -⟩ := Client.of_after hnext
  obtain ⟨honce, hfair⟩ := slot_queued_once hs
  have hfront : s.ready.head? = some 1 := by
    rw [hready]
    rfl
  have hback : 2 ∈ s.ready := by
    rw [hready]
    exact List.mem_cons_of_mem _ List.mem_cons_self
  obtain ⟨bs₁, k, bs₂, v, hsplit, hv, hhead, hfree⟩ :=
    hfair 0 1 2 oneReadyAgain u hfront hback (by decide) hu (by rw [hagain]; rfl)
  have honly : ∀ j, Act.pop j ∈ bothQueued ++ .pop 0 :: oneReadyAgain → j = 0 := by
    intro j hj
    simpa [bothQueued, oneReadyAgain, headQueued] using hj
  exact ⟨s, u, hs, hready, (honce 1).2 (List.mem_of_mem_head? hfront), hu, hagain, bs₁, k, bs₂, v, hsplit, hv, hhead,
    hfree honly⟩

/-- A chunk arrives while the slice of the head is over and `running` still set: the producer schedules the slot, and
`worker_loop` puts it back as well. -/
theorem slot_queued_twice : ¬ ∀ (cfg : Config) (as : List Act) (s : Client) (r : ReqId),
    Client.Reaches cfg anyStep (Client.init cfg) as s → s.ready.count r ≤ 1 := by
  intro h
  have hrun : Client.after .small anyStep
      (headQueued ++ Act.pop 0 :: List.replicate 9 (.worker 0) ++ Act.workerEnv 0 (.action .cont) ::
        List.replicate 6 (.worker 0) ++ Act.taskEnv 1 (.frame (.data [7])) :: List.replicate 8 (.task 1) ++
        List.replicate 4 (Act.worker 0))
      (fun s => s.ready = [1, 1]) (fun _ => true) (Client.init .small) = true := by decide
  obtain ⟨s, hs, htwice, -⟩ := Client.of_after hrun
  have hle := h .small _ s 1 hs
  rw [htwice] at hle
  exact absurd hle (by decide)

end Hyper4k.Bridge
