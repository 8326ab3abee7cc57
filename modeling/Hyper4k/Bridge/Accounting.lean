import Hyper4k.Bridge.Publication

/-! What a request holds of its client, its reservation, its registry entry and its unit of the
bridge counter, and how it is given back when the request is done. -/
namespace Hyper4k.Bridge
open Runs

/-- What a finished request gives back; its reservation is of bytes and of one request. -/
inductive Release
  | bytes | inflight | registry | counter
  deriving DecidableEq, Repr

def Release.all : List Release := [.bytes, .inflight, .registry, .counter]

def Pc.nextRelease : Pc → Option Release
  | .dropBytes => some .bytes
  | .dropInflight => some .inflight
  | .removeRequest => some .registry
  | .leave => some .counter
  | _ => none

/-- What has been given back when a worker stands here. -/
def Pc.given : Pc → Option (List Release)
  | .takeFinished | .dropBytes => some []
  | .dropInflight => some [.bytes]
  | .removeRequest => some [.bytes, .inflight]
  | .leave => some [.bytes, .inflight, .registry]
  | _ => none

def View.releases (v : View) : Move → Option Release
  | .exec t => (v.pc t).nextRelease
  | _ => none

theorem Pc.owns_of_given {pc : Pc} {d : List Release} (h : pc.given = some d) : pc.owns = true := by
  cases pc <;> first | rfl | cases h

inductive Slot.Gives (s : Slot) : Pc → Outcome → Prop
  | idle {pc : Pc} {o : Outcome} (given : pc.given = none) (releases : pc.nextRelease = none) (next : o.pc.given = none)
      (flag : o.slot.finishedFlag = s.finishedFlag) (finished : o.slot.finished = s.finished) : s.Gives pc o
  | finish : s.Gives .storeFinished ⟨{ s with finishedFlag := true }, .takeFinished, .quiet⟩
  | take (h : s.finished = true) : s.Gives .takeFinished ⟨{ s with finished := false }, .dropBytes, .quiet⟩
  | taken (h : s.finished = false) : s.Gives .takeFinished ⟨s, .leave, .quiet⟩
  | give {pc : Pc} {o : Outcome} (d : List Release) (k : Release) (given : pc.given = some d)
      (releases : pc.nextRelease = some k) (next : o.pc.given = some (d ++ [k])) (ahead : o.pc ≠ .takeFinished)
      (same : o.slot = s) : s.Gives pc o
  | leave : s.Gives .leave ⟨s, .releaseRunning false, .leave⟩

theorem exec_gives {s : Slot} {pc : Pc} {o : Outcome} (h : s.exec pc = some o) : s.Gives pc o := by
  cases pc with
  | storeFinished =>
    cases h
    exact .finish
  | takeFinished =>
    simp only [Slot.exec] at h
    split at h
    · rename_i hf
      cases h
      exact .take hf
    · rename_i hf
      cases h
      exact .taken (Bool.eq_false_iff.mpr hf)
  | dropBytes | dropInflight | removeRequest =>
    cases h
    exact .give _ _ rfl rfl rfl Pc.noConfusion rfl
  | leave =>
    cases h
    exact .leave
  | _ =>
    simp only [Slot.exec] at h
    repeat' split at h
    all_goals first
      | (cases h; exact .idle rfl rfl rfl rfl rfl)
      | cases h

theorem env_gives {s : Slot} {pc : Pc} {o : Outcome} (h : s.EnvStep pc o) :
    o.pc.given = none ∧ o.slot.finishedFlag = s.finishedFlag ∧ o.slot.finished = s.finished ∧ pc.given = none := by
  cases h with
  | received f => rcases f with (_ | _) | _ <;> exact ⟨rfl, rfl, rfl, rfl⟩
  | failed _ _ waits | aborted _ waits =>
    refine ⟨rfl, rfl, rfl, ?_⟩
    cases pc <;> first | rfl | cases waits
  | _ => exact ⟨rfl, rfl, rfl, rfl⟩

structure View.Giving (v : View) (given : List Release) : Prop where
  locked : v.Locked
  gated : v.Gated
  early : v.slot.finishedFlag = false → v.slot.finished = true ∧ given = [] ∧ ∀ t, (v.pc t).given = none
  due : ∀ t d, (v.pc t).given = some d → given = d
  taking : ∀ t, v.pc t = .takeFinished → v.slot.finished = true
  settled : v.slot.finishedFlag = true → (∀ t, (v.pc t).given = none) → given = Release.all

section Giving
variable {v w : View} {m : Move} {given : List Release} {t : Tid}

theorem View.Giving.init (onChunk : Bool) (queueCapacity : Nat) : (View.init onChunk queueCapacity).Giving [] where
  locked := .init _ _
  gated := .init _ _
  early _ := ⟨rfl, rfl, fun _ => rfl⟩
  due _ _ h := by cases h
  taking _ h := by cases h
  settled h := by cases h

theorem View.Giving.alone (hv : v.Giving given) {d : List Release} (ht : (v.pc t).given = some d) {u : Tid}
    (hu : u ≠ t) : (v.pc u).given = none := by
  cases hg : (v.pc u).given with
  | none => rfl
  | some e => exact absurd (hv.locked.sole u t (Pc.owns_of_given hg) (Pc.owns_of_given ht)) hu

theorem View.Giving.idle (hv : v.Giving given) {slot : Slot} {ready : Nat} {pc : Pc}
    (hw : (⟨slot, ready, Function.update v.pc t pc⟩ : View).Locked ∧
      (⟨slot, ready, Function.update v.pc t pc⟩ : View).Gated)
    (hold : (v.pc t).given = none) (hnew : pc.given = none) (flag : slot.finishedFlag = v.slot.finishedFlag)
    (finished : slot.finished = v.slot.finished) :
    (⟨slot, ready, Function.update v.pc t pc⟩ : View).Giving given := by
  have hgiven : ∀ u, (Function.update v.pc t pc u).given = (v.pc u).given := fun u =>
    update_part (f := Pc.given) (hnew.trans hold.symm) u
  refine ⟨hw.1, hw.2, fun hf => ?_, fun u d hu => ?_, fun u hu => ?_, fun hf hall => ?_⟩
  · obtain ⟨hfin, hnil, hnone⟩ := hv.early (flag.symm.trans hf)
    exact ⟨finished.trans hfin, hnil, fun u => (hgiven u).trans (hnone u)⟩
  · exact hv.due u d ((hgiven u).symm.trans hu)
  · by_cases hut : u = t
    · subst hut
      change Function.update v.pc u pc u = _ at hu
      rw [Function.update_self] at hu
      rw [hu] at hnew
      cases hnew
    · change Function.update v.pc t pc u = _ at hu
      rw [Function.update_of_ne hut] at hu
      exact finished.trans (hv.taking u hu)
  · exact hv.settled (flag.symm.trans hf) fun u => (hgiven u).symm.trans (hall u)

theorem View.Giving.work {d : List Release} {slot : Slot} {ready : Nat} {pc : Pc}
    (hw : (⟨slot, ready, Function.update v.pc t pc⟩ : View).Locked ∧
      (⟨slot, ready, Function.update v.pc t pc⟩ : View).Gated)
    (hrest : ∀ u, u ≠ t → (v.pc u).given = none) (flag : slot.finishedFlag = true)
    (hnew : pc.given = some d ∨ pc.given = none ∧ d = Release.all)
    (htake : pc = .takeFinished → slot.finished = true) :
    (⟨slot, ready, Function.update v.pc t pc⟩ : View).Giving d := by
  refine ⟨hw.1, hw.2, fun hf => ?_, ?_, ?_, fun _ hall => ?_⟩
  · rw [flag] at hf
    cases hf
  · refine forall_update (Q := fun _ (p : Pc) => ∀ e, p.given = some e → d = e) (fun e he => ?_) fun u hu e he => ?_
    · rcases hnew with hd | ⟨hn, -⟩
      · exact Option.some.inj (hd.symm.trans he)
      · rw [hn] at he
        cases he
    · rw [hrest u hu] at he
      cases he
  · refine forall_update (Q := fun _ (p : Pc) => p = .takeFinished → slot.finished = true) htake fun u hu he => ?_
    have hnone := hrest u hu
    rw [he] at hnone
    cases hnone
  · rcases hnew with hd | ⟨-, hd⟩
    · have hnone := hall t
      change (Function.update v.pc t pc t).given = none at hnone
      rw [Function.update_self, hd] at hnone
      cases hnone
    · exact hd

theorem View.Giving.exec (hv : v.Giving given) {o : Outcome} (h : v.slot.exec (v.pc t) = some o) :
    (v.put t o).Giving (given ++ (v.pc t).nextRelease.toList) := by
  have hw : (v.put t o).Locked ∧ (v.put t o).Gated :=
    ⟨hv.locked.step (.exec t o h), hv.gated.step (.exec t o h)⟩
  have hflag : ∀ d, (v.pc t).given = some d → v.slot.finishedFlag = true := by
    intro d hd
    by_contra hf
    have hnone := (hv.early (Bool.eq_false_iff.mpr hf)).2.2 t
    rw [hd] at hnone
    cases hnone
  have hgives := exec_gives h
  generalize hpc : v.pc t = pc at hgives
  cases hgives with
  | idle hold releases next flag finished =>
    rw [releases, Option.toList_none, List.append_nil]
    exact hv.idle hw (by rw [hpc]; exact hold) next flag finished
  | finish =>
    have hf : v.slot.finishedFlag = false := by
      rw [Bool.eq_false_iff]
      intro hf
      have hcarry := OneShot.Inv.closed_carried hv.gated hf t
      rw [hpc] at hcarry
      cases hcarry
    obtain ⟨hfin, rfl, hnone⟩ := hv.early hf
    exact View.Giving.work hw (fun u _ => hnone u) rfl (.inl rfl) fun _ => hfin
  | take hf =>
    have hd : (v.pc t).given = some [] := by rw [hpc]; rfl
    rw [hv.due t [] hd]
    exact View.Giving.work hw (fun u => hv.alone hd) (hflag _ hd) (.inl rfl) Pc.noConfusion
  | taken hf =>
    have hfin := hv.taking t hpc
    rw [hf] at hfin
    cases hfin
  | give d k hgiven releases next ahead same =>
    have hd : (v.pc t).given = some d := by rw [hpc]; exact hgiven
    rw [hv.due t d hd, releases]
    refine View.Giving.work hw (fun u => hv.alone hd) ?_ (.inl next) fun he => absurd he ahead
    rw [same]
    exact hflag _ hd
  | leave =>
    have hd : (v.pc t).given = some [.bytes, .inflight, .registry] := by rw [hpc]; rfl
    rw [hv.due t _ hd]
    exact View.Giving.work hw (fun u => hv.alone hd) (hflag _ hd) (.inr ⟨rfl, rfl⟩) Pc.noConfusion

theorem View.Giving.step (hv : v.Giving given) (h : v.Stepped m w) : w.Giving (given ++ (v.releases m).toList) := by
  have hw : w.Locked ∧ w.Gated := ⟨hv.locked.step h, hv.gated.step h⟩
  have nothing : v.releases m = none → w.Giving given → w.Giving (given ++ (v.releases m).toList) := by
    intro hnone hgiving
    rwa [hnone, Option.toList_none, List.append_nil]
  cases h with
  | exec t o h => exact hv.exec h
  | env t c o h =>
    obtain ⟨hnew, flag, finished, hold⟩ := env_gives h
    exact nothing rfl (hv.idle hw hold hnew flag finished)
  | pop n k free => exact nothing rfl (hv.idle hw (by rw [free]; rfl) rfl rfl rfl)
  | enter n e free =>
    refine nothing rfl (hv.idle hw (by rw [free]; rfl) ?_ rfl rfl)
    cases e <;> rfl
  | spawn a free => exact nothing rfl (hv.idle hw (by rw [free]; rfl) rfl rfl rfl)
  | setAbort => exact nothing rfl ⟨hw.1, hw.2, hv.early, hv.due, hv.taking, hv.settled⟩

/-- What is given back is an initial part of all, in the order of the code. -/
theorem View.Giving.in_order (hv : v.Giving given) : given <+: Release.all := by
  cases hf : v.slot.finishedFlag with
  | false =>
    rw [(hv.early hf).2.1]
    exact List.nil_prefix
  | true =>
    by_cases hall : ∀ t, (v.pc t).given = none
    · have hgiven := hv.settled hf hall
      exact hgiven ▸ List.prefix_rfl
    · obtain ⟨t, ht⟩ := not_forall.mp hall
      obtain ⟨d, hd⟩ := Option.ne_none_iff_exists'.mp ht
      rw [hv.due t d hd]
      generalize v.pc t = pc at hd
      cases pc <;> cases hd <;> decide

/-- Nothing is given back before `OnDone` has returned. -/
theorem View.Giving.done (hv : v.Giving given) (hgiven : given ≠ []) :
    v.slot.dones ≠ [] ∧ v.slot.finishedFlag = true ∧ ∀ t, (v.pc t).hand.carries = false := by
  have hf : v.slot.finishedFlag = true := by
    by_contra hf
    exact hgiven (hv.early (Bool.eq_false_iff.mpr hf)).2.1
  exact ⟨hv.gated.done_of_finished hf, hf, OneShot.Inv.closed_carried hv.gated hf⟩

end Giving

def Call.enters : Call → Option ReqId
  | .sending _ (.enterBridges id) => some id
  | _ => none

def Client.enters (s : Client) : Act → Option ReqId
  | .call n => (s.calls n).enters
  | _ => none

def Client.releases (s : Client) (r : ReqId) (a : Act) : Option Release := (s.moveOf r a).bind (s.view r).releases

/-- The requests that entered the bridge counter, and what each has given back since. -/
structure Tally where
  entered : List ReqId := []
  released : ReqId → List Release := fun _ => []

def Tally.note (s : Client) (a : Act) (_ : Client) (o : Tally) : Tally :=
  ⟨(s.enters a).toList ++ o.entered, fun r => o.released r ++ (s.releases r a).toList⟩

def Tally.stays (o : Tally) (r : ReqId) : Bool := .counter ∉ o.released r

def Tally.inside (o : Tally) : List ReqId := o.entered.filter o.stays

section Counting
variable {cfg : Config} {s t : Client} {a : Act} {o : Tally} {r q : ReqId} {n : Nat}

theorem releases_worker {pc : Pc} (hw : s.workers n = some (q, pc)) (r : ReqId) :
    s.releases r (.worker n) = if q = r then pc.nextRelease else none := by
  by_cases hq : q = r
  · subst hq
    simp [Client.releases, Client.moveOf, hw, View.releases, Client.view, Client.pcOn, workerPcOn]
  · simp [Client.releases, Client.moveOf, hw, hq]

theorem releases_task (q r : ReqId) : s.releases r (.task q) = if q = r then (s.tasks q).nextRelease else none := by
  by_cases hq : q = r
  · subst hq
    simp [Client.releases, Client.moveOf, View.releases, Client.view, Client.pcOn]
  · simp [Client.releases, Client.moveOf, hq]

theorem releases_call {pc : Pc}
    (hc : s.calls n = .request q pc ∨ ∃ todo free, s.calls n = .closingOn q pc todo free) (r : ReqId) :
    s.releases r (.call n) = if q = r then pc.nextRelease else none := by
  rcases hc with hc | ⟨todo, free, hc⟩
  all_goals
    by_cases hq : q = r
    · subst hq
      simp [Client.releases, Client.moveOf, hc, View.releases, Client.view, Client.pcOn, Call.pcOn]
    · simp [Client.releases, Client.moveOf, hc, hq]

theorem exec_leaves {s : Slot} {pc : Pc} {o : Outcome} (h : s.exec pc = some o) :
    o.effect = .leave ↔ pc.nextRelease = some .counter := by
  cases pc with
  | leave =>
    cases h
    exact ⟨fun _ => rfl, fun _ => rfl⟩
  | _ =>
    simp only [Slot.exec] at h
    repeat' split at h
    all_goals first
      | (cases h; exact ⟨fun he => (by cases he), fun he => (by cases he)⟩)
      | cases h

theorem commit_bridges (s : Client) (q : ReqId) (o : Outcome) :
    (s.commit q o).bridges = if o.effect = .leave then s.bridges - 1 else s.bridges := by
  simp only [Client.commit]
  cases o.effect <;> simp only [Client.apply, Client.addPaused, reduceCtorEq, if_true, if_false] <;> split <;> rfl

inductive Client.Counted (s : Client) (a : Act) (t : Client) : Prop
  | same (enters : s.enters a = none) (stays : ∀ r, s.releases r a ≠ some .counter) (count : t.bridges = s.bridges)
  | enters (id : ReqId) (enters : s.enters a = some id) (stays : ∀ r, s.releases r a ≠ some .counter)
      (count : t.bridges = s.bridges + 1)
  | leaves (r : ReqId) (enters : s.enters a = none) (leaves : ∀ q, s.releases q a = some .counter ↔ q = r)
      (count : t.bridges = s.bridges - 1)

private theorem Counted.exec {pc : Pc} {o : Outcome} (enters : s.enters a = none)
    (releases : ∀ r, s.releases r a = if q = r then pc.nextRelease else none) (ho : (s.slots q).exec pc = some o)
    (ht : t.bridges = (s.commit q o).bridges) : s.Counted a t := by
  rw [commit_bridges] at ht
  by_cases hleave : o.effect = .leave
  · have hpc := (exec_leaves ho).mp hleave
    rw [if_pos hleave] at ht
    refine .leaves q enters (fun r => ?_) ht
    rw [releases, hpc]
    by_cases hq : q = r
    · simp [hq]
    · simp [hq, Ne.symm hq]
  · have hpc : pc.nextRelease ≠ some .counter := fun hpc => hleave ((exec_leaves ho).mpr hpc)
    rw [if_neg hleave] at ht
    refine .same enters (fun r => ?_) ht
    rw [releases]
    split
    · exact hpc
    · exact (Option.some_ne_none _).symm

private theorem Counted.env {slot : Slot} {pc : Pc} {c : Choice} {o : Outcome} (enters : s.enters a = none)
    (releases : ∀ r, s.releases r a = none) (ho : slot.env pc c = some o)
    (ht : t.bridges = (s.commit q o).bridges) : s.Counted a t := by
  rw [commit_bridges, if_neg] at ht
  · exact .same enters (fun r => by rw [releases]; exact (Option.some_ne_none _).symm) ht
  · cases Slot.env_cases ho <;> exact Effect.noConfusion

theorem step_counted (h : s.step cfg a = some t) : s.Counted a t := by
  have quiet : ∀ {b : Act}, (∀ r m, s.moveOf r b = some m → (s.view r).releases m = none) →
      ∀ r, s.releases r b = none := by
    intro b hb r
    rw [Client.releases]
    cases hm : s.moveOf r b with
    | none => rfl
    | some m => exact hb r m hm
  have still : ∀ {b : Act} {u : Client}, s.enters b = none → (∀ r, s.releases r b = none) → u.bridges = s.bridges →
      s.Counted b u := by
    intro b u he hr hu
    exact .same he (fun r => by rw [hr]; exact (Option.some_ne_none _).symm) hu
  cases Client.step_cases h with
  | pop n q rest =>
    refine still rfl (quiet fun r m hm => ?_) rfl
    simp only [Client.moveOf] at hm
    split at hm <;> cases hm
    rfl
  | worker n q pc o hw ho => exact Counted.exec rfl (releases_worker hw) ho rfl
  | task q o ho => exact Counted.exec rfl (releases_task q) ho rfl
  | workerEnv n c q pc o hw ho =>
    refine Counted.env rfl (quiet fun r m hm => ?_) ho rfl
    simp only [Client.moveOf, hw] at hm
    split at hm <;> cases hm
    rfl
  | taskEnv q c o ho =>
    refine Counted.env rfl (quiet fun r m hm => ?_) ho rfl
    simp only [Client.moveOf] at hm
    split at hm <;> cases hm
    rfl
  | begin n api => exact still rfl (quiet fun r m hm => by cases hm) rfl
  | call n _ h =>
    simp only [Client.advance] at h
    rcases hc : s.calls n with _ | ⟨args, pc⟩ | ⟨q, e⟩ | ⟨q, pc⟩ | free | free | ⟨_ | ⟨q, todo⟩, free⟩ |
      ⟨q, pc, todo, free⟩ | _ | status <;> simp only [hc] at h
    case request | closingOn =>
      split at h <;> cases h
      rename_i o ho
      refine Counted.exec (by simp [Client.enters, hc, Call.enters]) (releases_call ?_) ho rfl
      simp [hc]
    case sending =>
      have hmoves : ∀ r m, s.moveOf r (.call n) = some m → (s.view r).releases m = none := by
        intro r m hm
        simp only [Client.moveOf, hc] at hm
        cases pc with
        | spawn | setAbort =>
          simp only at hm
          split at hm <;> cases hm
          rfl
        | _ => cases hm
      cases h
      cases pc with
      | enterBridges id =>
        refine .enters id (by simp [Client.enters, hc, Call.enters]) (fun r => ?_) rfl
        rw [quiet hmoves]
        exact (Option.some_ne_none _).symm
      | _ => exact still (by simp [Client.enters, hc, Call.enters]) (quiet hmoves) rfl
    case idle => cases h
    case waitZero =>
      split at h <;> cases h
      exact still (by simp [Client.enters, hc, Call.enters]) (quiet fun r m hm => by simp [Client.moveOf, hc] at hm) rfl
    case lookup | closing.cons =>
      cases h
      refine still (by simp [Client.enters, hc, Call.enters]) (quiet fun r m hm => ?_) rfl
      simp only [Client.moveOf, hc] at hm
      split at hm <;> cases hm
      rfl
    all_goals
      cases h
      exact still (by simp [Client.enters, hc, Call.enters]) (quiet fun r m hm => by simp [Client.moveOf, hc] at hm) rfl

def SendPc.drawn : SendPc → Option ReqId
  | .addInflight id | .addBytes id | .enterBridges id => some id
  | _ => none

def SendPc.counted : SendPc → Option ReqId
  | .insert id | .writeId id | .spawn id | .setAbort id => some id
  | _ => none

/-- The tally agrees with the client: only requests that have been counted in are known to
anybody, and the counter is what they have not given back. -/
structure Client.Accounts (cfg : Config) (s : Client) (o : Tally) : Prop where
  fresh : s.Fresh
  nodup : o.entered.Nodup
  issued : ∀ id ∈ o.entered, id < s.nextId
  drawn : ∀ n args pc id, s.calls n = .sending args pc → pc.drawn = some id → id ∉ o.entered
  counted : ∀ n args pc id, s.calls n = .sending args pc → pc.counted = some id → id ∈ o.entered
  registered : ∀ id ∈ s.requests, id ∈ o.entered
  untouched : ∀ r, r ∉ o.entered → s.view r = View.init (cfg.onChunk r) cfg.queueCapacity
  giving : ∀ r, (s.view r).Giving (o.released r)
  bridges : s.bridges = o.inside.length

theorem Client.Accounts.init (cfg : Config) : (Client.init cfg).Accounts cfg {} where
  fresh := .init cfg
  nodup := List.nodup_nil
  issued _ h := by cases h
  drawn _ _ _ _ h := by cases h
  counted _ _ _ _ h := by cases h
  registered _ h := by cases h
  untouched r _ := view_init cfg r
  giving r := by
    rw [view_init]
    exact .init _ _
  bridges := rfl

theorem Client.enters_eq_some {id : ReqId} (h : s.enters a = some id) :
    ∃ n args, a = .call n ∧ s.calls n = .sending args (.enterBridges id) := by
  cases a with
  | call n =>
    simp only [Client.enters] at h
    rcases hc : s.calls n with _ | ⟨args, pc⟩ | _ | _ | _ | _ | _ | _ | _ | _ <;> rw [hc] at h
    case sending =>
      cases pc with
      | enterBridges id' =>
        cases h
        exact ⟨n, args, rfl, hc⟩
      | _ => cases h
    all_goals cases h
  | _ => cases h

theorem step_nextId (h : s.step cfg a = some t) : s.nextId ≤ t.nextId := by
  cases Client.step_cases h with
  | pop | begin => exact Nat.le_refl _
  | worker | workerEnv => simp [Client.setWorker, Client.commit]
  | task | taskEnv => simp [Client.setTask, Client.commit]
  | call n _ h =>
    cases Client.advance_cases h with
    | send args pc =>
      cases pc with
      | fetchId => exact Nat.le_succ _
      | _ => exact Nat.le_refl _
    | act q o c => simp [Client.setCall, Client.commit]
    | close | move => exact Nat.le_refl _

private theorem commit_registers {o : Outcome} {id : ReqId} (h : id ∈ (s.commit q o).requests) : id ∈ s.requests := by
  simp only [Client.commit] at h
  cases he : o.effect <;> simp only [he, Client.apply, Client.addPaused] at h <;> first
    | exact h
    | exact (List.mem_filter.mp h).1
    | (split at h <;> exact h)

/-- Only a `send` adds to the registry. -/
theorem step_registers (h : s.step cfg a = some t) {id : ReqId} (hid : id ∈ t.requests) :
    id ∈ s.requests ∨ ∃ n args, a = .call n ∧ s.calls n = .sending args (.insert id) := by
  cases Client.step_cases h with
  | pop | begin => exact .inl hid
  | worker | workerEnv | task | taskEnv => exact .inl (commit_registers hid)
  | call n _ h =>
    cases Client.advance_cases h with
    | send args pc on =>
      cases pc with
      | insert id' =>
        rcases List.mem_append.mp hid with hid | hid
        · exact .inl hid
        · obtain rfl := List.mem_singleton.mp hid
          exact .inr ⟨n, args, rfl, on⟩
      | _ => exact .inl hid
    | act q o c => exact .inl (commit_registers hid)
    | close | move => exact .inl hid

section Step
variable (hs : s.Accounts cfg o) (h : s.step cfg a = some t)
include hs h

private theorem Accounts.entered_step : ((s.enters a).toList ++ o.entered).Nodup ∧
    ∀ id ∈ (s.enters a).toList ++ o.entered, id < t.nextId := by
  have hmono := step_nextId h
  cases he : s.enters a with
  | none => exact ⟨hs.nodup, fun id hid => Nat.lt_of_lt_of_le (hs.issued id hid) hmono⟩
  | some id =>
    obtain ⟨n, args, -, hc⟩ := Client.enters_eq_some he
    refine ⟨List.nodup_cons.mpr ⟨hs.drawn n args _ id hc rfl, hs.nodup⟩, fun id' hid => ?_⟩
    rcases List.mem_cons.mp hid with rfl | hid
    · exact Nat.lt_of_lt_of_le (hs.fresh.drawn n id' (by rw [hc]; rfl)).1 hmono
    · exact Nat.lt_of_lt_of_le (hs.issued id' hid) hmono

private theorem Accounts.drawn_step (n : Nat) (args : SendArgs) (pc : SendPc) (id : ReqId)
    (hn : t.calls n = .sending args pc) (hpc : pc.drawn = some id) : id ∉ (s.enters a).toList ++ o.entered := by
  rcases step_sending h hn with ⟨hold, ha⟩ | rfl | ⟨args', pc', rfl, hc, rfl⟩
  · intro hid
    rcases List.mem_append.mp hid with hid | hid
    · obtain ⟨m, args', rfl, hm⟩ := Client.enters_eq_some (Option.mem_toList.mp hid)
      have hmn : n = m := by
        refine hs.fresh.once n m id ?_ (by rw [hm]; rfl)
        rw [hold]
        cases pc <;> first | exact hpc | cases hpc
      exact ha (hmn ▸ rfl)
    · exact hs.drawn n args pc id hold hpc hid
  · cases hpc
  · cases send_goes hn with
    | draw =>
      cases hpc
      rw [show s.enters (.call n) = none by simp [Client.enters, hc, Call.enters]]
      exact fun hid => Nat.lt_irrefl _ (hs.issued _ hid)
    | reserve | enter =>
      rw [show s.enters (.call n) = none by simp [Client.enters, hc, Call.enters]]
      exact hs.drawn n args' _ id hc hpc
    | _ => cases hpc

private theorem Accounts.counted_step (n : Nat) (args : SendArgs) (pc : SendPc) (id : ReqId)
    (hn : t.calls n = .sending args pc) (hpc : pc.counted = some id) : id ∈ (s.enters a).toList ++ o.entered := by
  rcases step_sending h hn with ⟨hold, -⟩ | rfl | ⟨args', pc', rfl, hc, rfl⟩
  · exact List.mem_append_right _ (hs.counted n args pc id hold hpc)
  · cases hpc
  · cases send_goes hn with
    | register id' =>
      cases hpc
      refine List.mem_append_left _ (Option.mem_toList.mpr ?_)
      simp [Client.enters, hc, Call.enters]
    | write | spawn | store => exact List.mem_append_right _ (hs.counted n args' _ id hc hpc)
    | _ => cases hpc

/-- A request that was never counted in is not in the registry and has no task. -/
private theorem Accounts.untouched_step (hr : r ∉ (s.enters a).toList ++ o.entered) :
    t.view r = View.init (cfg.onChunk r) cfg.queueCapacity := by
  have hold : r ∉ o.entered := fun hold => hr (List.mem_append_right _ hold)
  have hv := hs.untouched r hold
  have hshow := step_shows hs.fresh h r
  cases hm : s.moveOf r a with
  | none =>
    rw [hm] at hshow
    exact (show t.view r = s.view r from hshow).trans hv
  | some m =>
    rw [hm] at hshow
    have hstep : (s.view r).step m = some (t.view r) := hshow
    rw [hv] at hstep
    cases Client.moveOf_cases hm with
    | spawned hc hpc =>
      rename_i n args pc
      refine absurd (hs.counted n args pc r hc ?_) hold
      cases pc <;> first | exact hpc | cases hpc
    | found hmem => exact absurd (hs.registered r hmem) hold
    | popped n => simp [View.step, View.init] at hstep
    | works => simp [View.step, View.init, Slot.exec] at hstep
    | decided =>
      rename_i u c
      cases c <;> simp [View.step, View.init, Slot.env, Pc.awaits] at hstep

private theorem Accounts.giving_step (r : ReqId) : (t.view r).Giving (o.released r ++ (s.releases r a).toList) := by
  have hshow := step_shows hs.fresh h r
  rw [Client.releases]
  cases hm : s.moveOf r a with
  | none =>
    rw [hm] at hshow
    rw [show t.view r = s.view r from hshow, Option.bind_none, Option.toList_none, List.append_nil]
    exact hs.giving r
  | some m =>
    rw [hm] at hshow
    exact (hs.giving r).step (View.step_cases hshow)

end Step

/-- One request fewer is inside after it has left. -/
private theorem length_filter_leave {l : List ReqId} {p p' : ReqId → Bool} (hl : l.Nodup) (hr : r ∈ l) (hp : p r = true)
    (hp' : p' r = false) (hsame : ∀ q, q ≠ r → p' q = p q) : (l.filter p').length + 1 = (l.filter p).length := by
  induction l with
  | nil => cases hr
  | cons q l ih =>
    obtain ⟨hq, hl⟩ := List.nodup_cons.mp hl
    by_cases hqr : q = r
    · subst hqr
      have hrest : l.filter p' = l.filter p :=
        List.filter_congr fun i hi => hsame i fun he => hq (he ▸ hi)
      rw [List.filter_cons_of_pos hp, List.filter_cons_of_neg (by rw [hp']; exact Bool.false_ne_true), hrest,
        List.length_cons]
    · have hmem : r ∈ l := (List.mem_cons.mp hr).resolve_left fun he => hqr he.symm
      have ih := ih hl hmem
      rw [List.filter_cons, List.filter_cons, hsame q hqr]
      split
      · rw [List.length_cons, List.length_cons, ih]
      · exact ih

theorem Tally.note_stays (h : s.releases r a ≠ some .counter) : (Tally.note s a t o).stays r = o.stays r := by
  refine decide_eq_decide.mpr (not_congr ?_)
  rw [Tally.note, List.mem_append, Option.mem_toList]
  exact or_iff_left h

theorem Tally.note_leaves (h : s.releases r a = some .counter) : (Tally.note s a t o).stays r = false := by
  refine decide_eq_false (not_not.mpr ?_)
  change .counter ∈ o.released r ++ (s.releases r a).toList
  rw [h]
  exact List.mem_append_right _ List.mem_cons_self

theorem Client.releases_counter (h : s.releases r a = some .counter) : ∃ u, (s.view r).pc u = .leave := by
  obtain ⟨m, -, hm⟩ := Option.bind_eq_some_iff.mp h
  cases m with
  | exec u =>
    refine ⟨u, ?_⟩
    simp only [View.releases] at hm
    generalize (s.view r).pc u = pc at hm
    cases pc <;> first | rfl | cases hm
  | _ => cases hm

/-- The counter keeps in step with the requests inside. -/
private theorem Accounts.bridges_step (hs : s.Accounts cfg o) (h : s.step cfg a = some t) :
    t.bridges = (Tally.note s a t o).inside.length := by
  have hinit : ∀ id, id ∉ o.entered → o.released id = [] := by
    intro id hid
    have hgiving := hs.giving id
    rw [hs.untouched id hid] at hgiving
    exact (hgiving.early rfl).2.1
  cases step_counted h with
  | same enters stays count =>
    have hlist : (Tally.note s a t o).inside = o.inside := by
      rw [Tally.inside, Tally.inside, Tally.note, enters]
      exact List.filter_congr fun r _ => Tally.note_stays (t := t) (stays r)
    rw [count, hs.bridges, hlist]
  | enters id enters stays count =>
    have hid : o.stays id = true := by
      obtain ⟨n, args, -, hc⟩ := Client.enters_eq_some enters
      refine decide_eq_true ?_
      rw [hinit id (hs.drawn n args _ id hc rfl)]
      exact List.not_mem_nil
    have hlist : (Tally.note s a t o).inside = id :: o.inside := by
      have hentered : (Tally.note s a t o).entered = id :: o.entered := by
        rw [Tally.note, enters]
        rfl
      rw [Tally.inside, Tally.inside, hentered, List.filter_cons_of_pos ((Tally.note_stays (stays id)).trans hid)]
      exact congrArg _ (List.filter_congr fun r _ => Tally.note_stays (stays r))
    rw [count, hs.bridges, hlist, List.length_cons]
    rfl
  | leaves r enters leaves count =>
    obtain ⟨u, hu⟩ := Client.releases_counter ((leaves r).mpr rfl)
    have hmem : r ∈ o.entered := by
      by_contra hr
      rw [hs.untouched r hr] at hu
      cases hu
    have hstays : o.stays r = true := by
      refine decide_eq_true ?_
      rw [(hs.giving r).due u [.bytes, .inflight, .registry] (by rw [hu]; rfl)]
      decide
    have hlen : (Tally.note s a t o).inside.length + 1 = o.inside.length := by
      rw [Tally.inside, Tally.inside, show (Tally.note s a t o).entered = o.entered by rw [Tally.note, enters]; rfl]
      refine length_filter_leave hs.nodup hmem hstays (Tally.note_leaves ((leaves r).mpr rfl)) fun q hq => ?_
      exact Tally.note_stays fun hl => hq ((leaves q).mp hl)
    rw [count, hs.bridges]
    omega

theorem Client.Accounts.step (hs : s.Accounts cfg o) (h : s.step cfg a = some t) :
    t.Accounts cfg (Tally.note s a t o) where
  fresh := hs.fresh.step h
  nodup := (Accounts.entered_step hs h).1
  issued := (Accounts.entered_step hs h).2
  drawn := Accounts.drawn_step hs h
  counted := Accounts.counted_step hs h
  registered id hid := by
    rcases step_registers h hid with hold | ⟨n, args, -, hc⟩
    · exact List.mem_append_right _ (hs.registered id hold)
    · exact List.mem_append_right _ (hs.counted n args _ id hc rfl)
  untouched _ := Accounts.untouched_step hs h
  giving := Accounts.giving_step hs h
  bridges := Accounts.bridges_step hs h

end Counting

end Hyper4k.Bridge
