import Hyper4k.Pooling.Leasing
import Hyper4k.Pooling.Shutdown

/-! What `shutdown` leaves behind: the drain takes every driver out of the map, as long as no
dial that began before the close puts its connection there afterwards. -/
namespace Hyper4k.Pooling
open Bridge (ConnId ErrorKind)
open Runs

/-- A dialled connection goes into the map only while the pool is open. -/
def ClosingPool.FilesOpen (s : ClosingPool) : ShutAct → Prop
  | .pool a => s.pool.filing a = [] ∨ s.pool.closed = false
  | _ => True

instance (s : ClosingPool) : (b : ShutAct) → Decidable (s.FilesOpen b)
  | .pool a => inferInstanceAs (Decidable (s.pool.filing a = [] ∨ s.pool.closed = false))
  | .shutdown _ | .exec _ | .visit _ _ | .remove _ _ | .driverEnd _ => inferInstanceAs (Decidable True)

def ShutPc.winning : ShutPc → Bool
  | .idle | .swap | .loadComplete | .notified | .reloadComplete _ | .wait _ => false
  | _ => true

def InHand (drivers : ConnId → Driver) (handles : List ConnId) : Prop :=
  ∀ c, (drivers c).taken = true → c ∈ handles ∨ (drivers c).aborted = true

/-- How far the drain has come: what is left is in lists that it still has to pass. -/
def ShutPc.Holds (pool : Pool) (drivers : ConnId → Driver) (pushed : List ConnId) : ShutPc → Prop
  | .storeClosed => ∀ c, (drivers c).taken = false
  | .iterMut => pool.closed = true ∧ ∀ c, (drivers c).taken = false
  | .nextList due passed handles => pool.closed = true ∧ (∀ k, pool.conns k ≠ [] → k ∈ due) ∧
      (∀ k ∈ passed, ∀ c ∈ pool.conns k, (drivers c).taken = true) ∧ InHand drivers handles
  | .storeDead k entries due passed handles => pool.closed = true ∧ (∀ k, pool.conns k ≠ [] → k ∈ due) ∧
      (∀ k ∈ passed, ∀ c ∈ pool.conns k, (drivers c).taken = true) ∧ InHand drivers handles ∧
      ∀ c ∈ pool.conns k, c ∈ entries ∨ (drivers c).taken = true
  | .takeDriver k c rest due passed handles => pool.closed = true ∧ (∀ k, pool.conns k ≠ [] → k ∈ due) ∧
      (∀ k ∈ passed, ∀ c ∈ pool.conns k, (drivers c).taken = true) ∧ InHand drivers handles ∧
      ∀ i ∈ pool.conns k, i ∈ c :: rest ∨ (drivers i).taken = true
  | .clear handles => pool.closed = true ∧ (∀ c ∈ pushed, (drivers c).taken = true) ∧ InHand drivers handles
  | .nextClear due passed handles => pool.closed = true ∧ (∀ c ∈ pushed, (drivers c).taken = true) ∧
      InHand drivers handles ∧ ∀ k, pool.conns k ≠ [] → k ∈ due ∧ k ∉ passed
  | .abort handles | .join _ handles => pool.closed = true ∧ (∀ c ∈ pushed, (drivers c).taken = true) ∧
      InHand drivers handles ∧ ∀ k, pool.conns k = []
  | .storeComplete => pool.closed = true ∧ (∀ c ∈ pushed, (drivers c).taken = true ∧ (drivers c).aborted = true) ∧
      ∀ k, pool.conns k = []
  | _ => True

structure ClosingPool.Swept (s : ClosingPool) (pushed : List ConnId) : Prop where
  keyed : ∀ k, s.pool.conns k ≠ [] → k ∈ s.keys
  landed : ∀ c ∈ pushed, (∃ k, c ∈ s.pool.conns k) ∨ (s.drivers c).taken = true
  sole : Sole (fun pc => pc.winning = true) s.calls
  first : s.shuttingDown = false → Nowhere (fun pc => pc.winning = true) s.calls ∧ ∀ c, (s.drivers c).taken = false
  holds : ∀ u, (s.calls u).Holds s.pool s.drivers pushed
  complete : s.complete = true → s.pool.closed = true ∧ (∀ k, s.pool.conns k = []) ∧
    ∀ c ∈ pushed, (s.drivers c).taken = true ∧ (s.drivers c).aborted = true

section Sweep
variable {limits : Limits} {s t : ClosingPool} {p : Pool} {pushed : List ConnId} {u : Nat} {q pc : ShutPc} {a : Act}

theorem ShutPc.Holds.of_not_winning {drivers : ConnId → Driver} (h : pc.winning = false) :
    pc.Holds p drivers pushed := by
  cases pc <;> trivial

/-- The drain itself moves on: nobody else is in it. -/
theorem ClosingPool.Swept.moves (hs : s.Swept pushed) (hwin : (s.calls u).winning = true)
    (hcalls : t.calls = Function.update s.calls u q) (hq : q.Holds t.pool t.drivers pushed) :
    Sole (fun pc => pc.winning = true) t.calls ∧ ∀ v, (t.calls v).Holds t.pool t.drivers pushed := by
  rw [hcalls]
  refine ⟨hs.sole.keep fun _ => hwin, forall_update (Q := fun _ (pc : ShutPc) => pc.Holds _ _ _) hq fun v hv => ?_⟩
  apply ShutPc.Holds.of_not_winning
  rw [Bool.eq_false_iff]
  exact fun hvwin => hv (hs.sole v u hvwin hwin)

theorem ClosingPool.Swept.drain (hs : s.Swept pushed) (hwin : (s.calls u).winning = true)
    (hcalls : t.calls = Function.update s.calls u q) (hkeys : t.keys = s.keys) (hconns : t.pool.conns = s.pool.conns)
    (hflag : t.shuttingDown = s.shuttingDown) (htaken : ∀ c, (s.drivers c).taken = true → (t.drivers c).taken = true)
    (hq : q.Holds t.pool t.drivers pushed)
    (hcomplete : t.complete = true → t.pool.closed = true ∧ (∀ k, t.pool.conns k = []) ∧
      ∀ c ∈ pushed, (t.drivers c).taken = true ∧ (t.drivers c).aborted = true) : t.Swept pushed := by
  obtain ⟨hsole, hholds⟩ := hs.moves hwin hcalls hq
  refine ⟨?_, fun c hc => ?_, hsole, fun hf => ?_, hholds, hcomplete⟩
  · rw [hkeys, hconns]
    exact hs.keyed
  · rw [hconns]
    exact (hs.landed c hc).imp id (htaken c)
  · rw [hflag] at hf
    exact absurd hwin ((hs.first hf).1 u)

theorem ClosingPool.Swept.aside (hs : s.Swept pushed) (hq : q.winning = false) : (s.goto u q).Swept pushed := by
  have hne : ¬ q.winning = true := by rw [hq]; exact Bool.false_ne_true
  refine ⟨hs.keyed, hs.landed, hs.sole.keep fun h => absurd h hne, fun hf => ?_, ?_, hs.complete⟩
  · exact ⟨(hs.first hf).1.update hne, (hs.first hf).2⟩
  · exact forall_update (Q := fun _ (pc : ShutPc) => pc.Holds _ _ _) (.of_not_winning hq) fun v _ => hs.holds v

theorem InHand.mark {drivers : ConnId → Driver} {handles : List ConnId} (h : InHand drivers handles) (c : ConnId) :
    InHand (Function.update drivers c { drivers c with taken := true })
      (if (drivers c).taken then handles else handles ++ [c]) := by
  refine forall_update (Q := fun i (d : Driver) => d.taken = true → i ∈ _ ∨ d.aborted = true) (fun _ => ?_)
    fun i _ hi => ?_
  · by_cases ht : (drivers c).taken = true
    · rw [if_pos ht]
      exact h c ht
    · rw [if_neg ht]
      exact .inl (List.mem_append_right _ List.mem_cons_self)
  · refine (h i hi).imp (fun hmem => ?_) id
    split
    · exact hmem
    · exact List.mem_append_left _ hmem

theorem InHand.abort {drivers : ConnId → Driver} {c : ConnId} {rest : List ConnId} (h : InHand drivers (c :: rest)) :
    InHand (Function.update drivers c { drivers c with aborted := true }) rest := by
  refine forall_update (Q := fun i (d : Driver) => d.taken = true → i ∈ _ ∨ d.aborted = true) (fun _ => .inr rfl)
    fun i hne hi => ?_
  exact (h i hi).imp (fun hmem => (List.mem_cons.mp hmem).resolve_left hne) id

theorem taken_mark (drivers : ConnId → Driver) (c : ConnId) (d : Driver)
    (hd : (drivers c).taken = true → d.taken = true) (i : ConnId) (hi : (drivers i).taken = true) :
    (Function.update drivers c d i).taken = true := by
  by_cases hic : i = c
  · subst hic
    rw [Function.update_self]
    exact hd hi
  · rwa [Function.update_of_ne hic]

theorem ClosingPool.Swept.exec (hs : s.Swept pushed) (h : s.exec u = some t) : t.Swept pushed := by
  unfold ClosingPool.exec at h
  have hhold := hs.holds u
  generalize hpc : s.calls u = pc at h hhold
  have win : pc.winning = true → (s.calls u).winning = true := fun hw => hpc ▸ hw
  cases pc with
  | idle => cases h
  | swap =>
    cases h
    cases hflag : s.shuttingDown with
    | true =>
      have hsame : { s with shuttingDown := true } = s := by rw [← hflag]
      exact hsame ▸ hs.aside rfl
    | false =>
      obtain ⟨hnone, htaken⟩ := hs.first hflag
      refine ⟨hs.keyed, hs.landed, hnone.enter, fun hf => (by cases hf), ?_, hs.complete⟩
      exact forall_update (Q := fun _ (pc : ShutPc) => pc.Holds _ _ _) htaken fun v _ => hs.holds v
  | loadComplete | reloadComplete =>
    cases h
    apply hs.aside
    split <;> rfl
  | notified =>
    cases h
    exact hs.aside rfl
  | wait =>
    simp only at h
    split at h
    · cases h
      exact hs.aside rfl
    · cases h
  | storeClosed =>
    cases h
    exact hs.drain (win rfl) rfl rfl rfl rfl (fun _ => id) ⟨rfl, hhold⟩ fun hc => ⟨rfl, (hs.complete hc).2⟩
  | iterMut =>
    cases h
    refine hs.drain (win rfl) rfl rfl rfl rfl (fun _ => id) ⟨hhold.1, hs.keyed, ?_, ?_⟩ hs.complete
    · exact fun k hk => absurd hk List.not_mem_nil
    · exact fun c hc => absurd ((hhold.2 c).symm.trans hc) Bool.false_ne_true
  | nextList due passed handles =>
    simp only at h
    split at h
    · rename_i hall
      cases h
      obtain ⟨hclosed, hdue, hpassed, hhand⟩ := hhold
      refine hs.drain (win rfl) rfl rfl rfl rfl (fun _ => id) ⟨hclosed, fun c hc => ?_, hhand⟩ hs.complete
      rcases hs.landed c hc with ⟨k, hk⟩ | htaken
      · exact hpassed k (hall k (hdue k (List.ne_nil_of_mem hk))) c hk
      · exact htaken
    · cases h
  | storeDead k entries due passed handles =>
    obtain ⟨hclosed, hdue, hpassed, hhand, hlist⟩ := hhold
    cases entries with
    | nil =>
      cases h
      refine hs.drain (win rfl) rfl rfl rfl rfl (fun _ => id) ⟨hclosed, hdue, fun k' hk' => ?_, hhand⟩ hs.complete
      rcases List.mem_cons.mp hk' with rfl | hk'
      · exact fun c hc => (hlist c hc).resolve_left List.not_mem_nil
      · exact hpassed k' hk'
    | cons c rest =>
      cases h
      exact hs.drain (win rfl) rfl rfl rfl rfl (fun _ => id) ⟨hclosed, hdue, hpassed, hhand, hlist⟩ hs.complete
  | takeDriver k c rest due passed handles =>
    cases h
    obtain ⟨hclosed, hdue, hpassed, hhand, hlist⟩ := hhold
    have hkeep := taken_mark s.drivers c { s.drivers c with taken := true } fun _ => rfl
    refine hs.drain (win rfl) rfl rfl rfl rfl hkeep ⟨hclosed, hdue, ?_, hhand.mark c, fun i hi => ?_⟩ fun hc => ?_
    · exact fun k' hk' i hi => hkeep i (hpassed k' hk' i hi)
    · rcases hlist i hi with hmem | htaken
      · rcases List.mem_cons.mp hmem with rfl | hmem
        · refine .inr ?_
          change (Function.update s.drivers i _ i).taken = true
          rw [Function.update_self]
        · exact .inl hmem
      · exact .inr (hkeep i htaken)
    · obtain ⟨hcl, hnil, hall⟩ := hs.complete hc
      refine ⟨hcl, hnil, fun i hi => ⟨hkeep i (hall i hi).1, ?_⟩⟩
      exact (update_part (f := Driver.aborted) (by rfl) i).trans (hall i hi).2
  | clear handles =>
    cases h
    obtain ⟨hclosed, htaken, hhand⟩ := hhold
    refine hs.drain (win rfl) rfl rfl rfl rfl (fun _ => id) ⟨hclosed, htaken, hhand, fun k hk => ?_⟩ hs.complete
    exact ⟨hs.keyed k hk, List.not_mem_nil⟩
  | nextClear due passed handles =>
    simp only at h
    split at h
    · rename_i hall
      cases h
      obtain ⟨hclosed, htaken, hhand, hleft⟩ := hhold
      refine hs.drain (win rfl) rfl rfl rfl rfl (fun _ => id) ⟨hclosed, htaken, hhand, fun k => ?_⟩ hs.complete
      by_contra hk
      exact (hleft k hk).2 (hall k (hleft k hk).1)
    · cases h
  | abort handles =>
    obtain ⟨hclosed, htaken, hhand, hnil⟩ := hhold
    cases handles with
    | nil =>
      cases h
      refine hs.drain (win rfl) rfl rfl rfl rfl (fun _ => id) ⟨hclosed, fun c hc => ⟨htaken c hc, ?_⟩, hnil⟩ hs.complete
      exact (hhand c (htaken c hc)).resolve_left List.not_mem_nil
    | cons c rest =>
      cases h
      have hkeep := taken_mark s.drivers c { s.drivers c with aborted := true } id
      refine hs.drain (win rfl) rfl rfl rfl rfl hkeep ⟨hclosed, fun i hi => hkeep i (htaken i hi), hhand.abort, hnil⟩
        fun hc => ?_
      obtain ⟨hcl, hn, hall⟩ := hs.complete hc
      refine ⟨hcl, hn, fun i hi => ⟨hkeep i (hall i hi).1, ?_⟩⟩
      exact forall_update (Q := fun i (d : Driver) => i ∈ pushed → d.aborted = true) (fun _ => rfl)
        (fun i _ hi => (hall i hi).2) i hi
  | join c rest =>
    simp only at h
    split at h
    · cases h
      exact hs.drain (win rfl) rfl rfl rfl rfl (fun _ => id) hhold hs.complete
    · cases h
  | storeComplete =>
    cases h
    exact hs.drain (win rfl) rfl rfl rfl rfl (fun _ => id) trivial fun _ => ⟨hhold.1, hhold.2.2, hhold.2.1⟩
  | notify =>
    cases h
    exact hs.drain (win rfl) rfl rfl rfl rfl (fun _ => id) trivial hs.complete

/-- One list of the map is emptied, whose connections have given up their drivers. -/
theorem ClosingPool.Swept.removed (hs : s.Swept pushed) {due passed : List PoolKey} {handles : List ConnId}
    {k : PoolKey} (hpc : s.calls u = .nextClear due passed handles) :
    ((s.removeKey k).goto u (.nextClear due (k :: passed) handles)).Swept pushed := by
  have hwin : (s.calls u).winning = true := by rw [hpc]; rfl
  have hhold := hs.holds u
  rw [hpc] at hhold
  obtain ⟨hclosed, htaken, hhand, hleft⟩ := hhold
  have hne : ∀ {k'}, (s.removeKey k).pool.conns k' ≠ [] → k' ≠ k ∧ s.pool.conns k' ≠ [] := by
    intro k' hk'
    change Function.update s.pool.conns k [] k' ≠ [] at hk'
    by_cases hk : k' = k
    · subst hk
      rw [Function.update_self] at hk'
      exact absurd rfl hk'
    · rw [Function.update_of_ne hk] at hk'
      exact ⟨hk, hk'⟩
  have hq : (ShutPc.nextClear due (k :: passed) handles).Holds (s.removeKey k).pool s.drivers pushed := by
    refine ⟨hclosed, htaken, hhand, fun k' hk' => ?_⟩
    obtain ⟨hk, hold⟩ := hne hk'
    exact ⟨(hleft k' hold).1, fun hmem => (List.mem_cons.mp hmem).elim hk (hleft k' hold).2⟩
  obtain ⟨hsole, hholds⟩ := hs.moves (t := (s.removeKey k).goto u _) hwin rfl hq
  refine ⟨fun k' hk' => ?_, fun c hc => .inr (htaken c hc), hsole, fun hf => ?_, hholds, fun hc => ?_⟩
  · obtain ⟨hk, hold⟩ := hne hk'
    exact List.mem_filter.mpr ⟨hs.keyed k' hold, decide_eq_true hk⟩
  · exact absurd hwin ((hs.first hf).1 u)
  · obtain ⟨hcl, hnil, hall⟩ := hs.complete hc
    refine ⟨hcl, fun k' => ?_, hall⟩
    by_contra hk'
    exact (hne hk').2 (hnil k')

/-- A step of the pool leaves the map alone, or it puts one connection into it. -/
inductive ClosingPool.Files (s : ClosingPool) (a : Act) (p : Pool) : Prop
  | same (hfiling : s.pool.filing a = []) (hconns : p.conns = s.pool.conns) (hkeys : s.keysAfter a = s.keys)
  | push (k : PoolKey) (c : ConnId) (hfiling : s.pool.filing a = [c])
      (hconns : p.conns = Function.update s.pool.conns k (s.pool.conns k ++ [c]))
      (hkeys : k ∈ s.keysAfter a ∧ ∀ k' ∈ s.keys, k' ∈ s.keysAfter a)

theorem ClosingPool.keysAfter_same (h : s.pool.filing a = []) : s.keysAfter a = s.keys := by
  cases a with
  | exec v =>
    rw [Pool.filing] at h
    rw [ClosingPool.keysAfter]
    generalize s.pool.tasks v = pc at h ⊢
    cases pc <;> first | rfl | cases h
  | _ => rfl

theorem ClosingPool.files (h : s.pool.Stepped limits a p) : s.Files a p := by
  cases h with
  | peerClose | newGuard | dropGuard => exact .same rfl rfl rfl
  | @task v a m q h =>
    have hfiling := h.filing rfl
    rcases h.conns with ⟨hm, hpush⟩ | ⟨k, proto, c, hpc, rfl, hm⟩
    · rw [hpush] at hfiling
      exact .same hfiling hm (keysAfter_same hfiling)
    · rw [hpc] at hfiling h
      refine .push k c hfiling hm ?_
      cases h
      simp only [ClosingPool.keysAfter, hpc, Pc.files]
      split
      · rename_i hk
        exact ⟨hk, fun _ => id⟩
      · exact ⟨List.mem_append_right _ List.mem_cons_self, fun _ => List.mem_append_left _⟩

theorem ShutPc.Holds.pool {p' : Pool} {drivers : ConnId → Driver} (hclosed : p'.closed = p.closed)
    (hconns : p'.conns = p.conns) (h : pc.Holds p drivers pushed) : pc.Holds p' drivers pushed := by
  unfold ShutPc.Holds at h ⊢
  rw [hclosed, hconns]
  exact h

/-- While the pool is open the drain has not begun. -/
theorem ShutPc.Holds.open {drivers : ConnId → Driver} {pushed' : List ConnId} {p' : Pool} (hopen : p.closed = false)
    (h : pc.Holds p drivers pushed) : pc.Holds p' drivers pushed' := by
  cases pc with
  | storeClosed => exact h
  | idle | swap | loadComplete | notified | reloadComplete | wait | notify => trivial
  | _ =>
    have hclosed := h.1
    rw [hopen] at hclosed
    cases hclosed

theorem ClosingPool.Swept.poolStep (hs : s.Swept pushed) (h : s.pool.Stepped limits a p)
    (hok : s.FilesOpen (.pool a)) : { s with pool := p, keys := s.keysAfter a }.Swept (pushed ++ s.pool.filing a) := by
  have hclosed := h.closed
  cases ClosingPool.files h with
  | same hfiling hconns hkeys =>
    rw [hfiling, List.append_nil, hkeys]
    refine ⟨?_, ?_, hs.sole, hs.first, fun u => (hs.holds u).pool hclosed hconns, fun hc => ?_⟩
    · rw [hconns]
      exact hs.keyed
    · rw [hconns]
      exact hs.landed
    · rw [hclosed, hconns]
      exact hs.complete hc
  | push k c hfiling hconns hkeys =>
    have hopen : s.pool.closed = false := by
      refine hok.resolve_left ?_
      rw [hfiling]
      exact List.cons_ne_nil c []
    rw [hfiling]
    have hmem : ∀ k' i, i ∈ p.conns k' ↔ i ∈ s.pool.conns k' ∨ (k' = k ∧ i = c) := by
      intro k' i
      rw [hconns]
      by_cases hk : k' = k
      · subst hk
        rw [Function.update_self, List.mem_append, List.mem_singleton]
        exact or_congr_right (and_iff_right rfl).symm
      · rw [Function.update_of_ne hk]
        exact ⟨.inl, fun h => h.resolve_right fun hki => hk hki.1⟩
    refine ⟨fun k' hk' => ?_, fun i hi => ?_, hs.sole, hs.first, fun u => (hs.holds u).open hopen, fun hc => ?_⟩
    · obtain ⟨i, hi⟩ := List.exists_mem_of_ne_nil _ hk'
      rcases (hmem k' i).mp hi with hold | ⟨rfl, -⟩
      · exact hkeys.2 k' (hs.keyed k' (List.ne_nil_of_mem hold))
      · exact hkeys.1
    · rcases List.mem_append.mp hi with hold | hnew
      · rcases hs.landed i hold with ⟨k', hk'⟩ | htaken
        · exact .inl ⟨k', (hmem k' i).mpr (.inl hk')⟩
        · exact .inr htaken
      · exact .inl ⟨k, (hmem k i).mpr (.inr ⟨rfl, List.mem_singleton.mp hnew⟩)⟩
    · have hshut := (hs.complete hc).1
      rw [hopen] at hshut
      cases hshut

theorem ClosingPool.Swept.driver (hs : s.Swept pushed) (c : ConnId) :
    (s.setDriver c { s.drivers c with ended := true }).Swept pushed := by
  have htaken : ∀ i, (Function.update s.drivers c { s.drivers c with ended := true } i).taken = (s.drivers i).taken :=
    update_part (f := Driver.taken) (by rfl)
  have haborted : ∀ i, (Function.update s.drivers c { s.drivers c with ended := true } i).aborted =
      (s.drivers i).aborted :=
    update_part (f := Driver.aborted) (by rfl)
  refine ⟨hs.keyed, ?_, hs.sole, ?_, fun u => ?_, ?_⟩
  · simpa only [ClosingPool.setDriver, htaken] using hs.landed
  · simpa only [ClosingPool.setDriver, htaken] using hs.first
  · have hu := hs.holds u
    change (s.calls u).Holds s.pool (Function.update s.drivers c _) pushed
    unfold ShutPc.Holds InHand at hu ⊢
    simpa only [htaken, haborted] using hu
  · simpa only [ClosingPool.setDriver, htaken, haborted] using hs.complete

theorem ClosingPool.Swept.step {o : Arrivals} {b : ShutAct} (hs : s.Swept o.pushed) (h : s.Moved limits b t)
    (hok : s.FilesOpen b) : t.Swept (Arrivals.note s b t o).pushed := by
  cases h with
  | pool h =>
    change ClosingPool.Swept _ (o.poolNote s.pool _).pushed
    rw [Arrivals.poolNote_pushed]
    exact hs.poolStep h hok
  | call u => exact hs.aside rfl
  | exec h => exact hs.exec h
  | visit u k hpc =>
    have hhold := hs.holds u
    rw [hpc] at hhold
    obtain ⟨hclosed, hdue, hpassed, hhand⟩ := hhold
    exact hs.drain (u := u) (by rw [hpc]; rfl) rfl rfl rfl rfl (fun _ => id)
      ⟨hclosed, hdue, hpassed, hhand, fun c hc => .inl hc⟩ hs.complete
  | remove u k hpc => exact hs.removed hpc
  | driverEnd c => exact hs.driver c

theorem ClosingPool.Swept.init : ({} : ClosingPool).Swept [] where
  keyed _ hk := absurd rfl hk
  landed _ hc := by cases hc
  sole _ _ hu := by cases hu
  first _ := ⟨fun _ hu => (by cases hu), fun _ => rfl⟩
  holds _ := trivial
  complete hc := by cases hc

end Sweep

/-- What was put into the map was established before the pool was closed. -/
structure Arrivals.Timely (o : Arrivals) (p : Pool) : Prop where
  lateDial : ∀ t, o.lateDial t = true → p.closed = true
  late : ∀ c, o.late c = true → p.closed = true
  early : ∀ c ∈ o.pushed, o.late c = false

section Timely
variable {limits : Limits} {s t : ClosingPool} {p : Pool} {o : Arrivals} {v : TaskId} {a : Act} {b : ShutAct}

theorem Arrivals.Timely.files (ho : o.Timely p) (l : List ConnId) (hok : l = [] ∨ p.closed = false) :
    { o with pushed := o.pushed ++ l }.Timely p := by
  refine ⟨ho.lateDial, ho.late, fun c hc => ?_⟩
  rcases List.mem_append.mp hc with hold | hnew
  · exact ho.early c hold
  · rw [Bool.eq_false_iff]
    intro hl
    rcases hok with rfl | hopen
    · exact absurd hnew List.not_mem_nil
    · have hshut := ho.late c hl
      rw [hopen] at hshut
      cases hshut

theorem Arrivals.Timely.poolNote (ho : o.Timely p) (hs : p.Owned o.pushed)
    (hok : p.filing a = [] ∨ p.closed = false) : (o.poolNote p a).Timely p := by
  cases a with
  | connected v result =>
    cases result with
    | error => exact ho
    | ok =>
      refine ⟨?_, ho.late, ho.early⟩
      exact forall_update (Q := fun _ (b : Bool) => b = true → p.closed = true) id fun u _ => ho.lateDial u
  | exec v =>
    simp only [Arrivals.poolNote]
    simp only [Pool.filing] at hok
    split
    · refine ⟨ho.lateDial, ?_, fun c hc => ?_⟩
      · exact forall_update (Q := fun _ (b : Bool) => b = true → p.closed = true) (ho.lateDial v) fun c _ => ho.late c
      · exact (Function.update_of_ne (Nat.ne_of_lt (hs.issued c hc)) ..).trans (ho.early c hc)
    · exact ho.files _ hok
  | _ => exact ho

theorem Arrivals.Timely.later (ho : o.Timely p) {p' : Pool} (hclosed : p.closed = true → p'.closed = true) :
    o.Timely p' :=
  ⟨fun v hv => hclosed (ho.lateDial v hv), fun c hc => hclosed (ho.late c hc), ho.early⟩

theorem Arrivals.Timely.step (ho : o.Timely s.pool) (hs : s.pool.Owned o.pushed) (h : s.Moved limits b t)
    (hok : s.FilesOpen b) : (Arrivals.note s b t o).Timely t.pool := by
  refine Arrivals.Timely.later (p := s.pool) ?_ h.closed
  cases b with
  | pool a => exact ho.poolNote hs hok
  | _ => exact ho

/-- What is put into the map stays what it is once the pool is closed. -/
theorem ClosingPool.FilesOpen.nothing (hok : s.FilesOpen b) (hc : s.pool.closed = true) :
    (Arrivals.note s b t o).pushed = o.pushed := by
  cases b with
  | pool a =>
    have hnone : s.pool.filing a = [] := hok.resolve_right (by rw [hc]; exact Bool.noConfusion)
    rw [Arrivals.note_pushed, ClosingPool.filing, hnone, List.append_nil]
  | _ => rfl

/-- Where no dialled connection goes into the map after the pool was closed: once `shutdown` is
complete the map is empty, every connection that was ever in it has had its driver taken and
aborted, none is added later, and every lease is on a connection established before the close. -/
theorem shutdown_exhaustive {as : List ShutAct} (h : ClosingPool.Reaches limits (fun x => x.1.FilesOpen) as s o)
    (hc : s.complete = true) :
    (∀ k, s.pool.conns k = []) ∧
      (∀ c ∈ o.pushed, (s.drivers c).taken = true ∧ (s.drivers c).aborted = true) ∧
      (∀ v c, s.pool.tasks v = .leased c → c ∈ o.pushed ∧ o.late c = false) ∧
      ∀ bs t o', Run (observe (ClosingPool.step limits) Arrivals.note) (fun x => x.1.FilesOpen) (s, o) bs (t, o') →
        o'.pushed = o.pushed := by
  have hinv : s.Swept o.pushed ∧ s.pool.Owned o.pushed ∧ o.Timely s.pool := by
    refine h.invariant (I := fun x => x.1.Swept x.2.pushed ∧ x.1.pool.Owned x.2.pushed ∧ x.2.Timely x.1.pool) ?_
      ⟨.init, .init, fun v hv => (by cases hv), fun c hc => (by cases hc), fun c hc => (by cases hc)⟩
    rintro ⟨s, o⟩ b ⟨t, o'⟩ hok ⟨hswept, hown, htimely⟩ hstep
    obtain ⟨ht, ho⟩ := observe_eq_some hstep
    have hmoved := ClosingPool.step_cases ht
    rw [show o' = Arrivals.note s b t o from ho]
    refine ⟨hswept.step hmoved hok, ?_, htimely.step hown hmoved hok⟩
    rw [Arrivals.note_pushed]
    exact hmoved.owned hown
  obtain ⟨hswept, hown, htimely⟩ := hinv
  obtain ⟨hclosed, hnil, hall⟩ := hswept.complete hc
  refine ⟨hnil, hall, fun v c hv => ?_, fun bs t o' hrun => ?_⟩
  · have hmem : c ∈ o.pushed := hown.known v c (by rw [hv]; exact List.mem_cons_self)
    exact ⟨hmem, htimely.early c hmem⟩
  · have hlater : t.pool.closed = true ∧ o'.pushed = o.pushed := by
      refine hrun.invariant (I := fun x => x.1.pool.closed = true ∧ x.2.pushed = o.pushed) ?_ ⟨hclosed, rfl⟩
      rintro ⟨s, o⟩ b ⟨t, o'⟩ hok ⟨hcl, hsame⟩ hstep
      obtain ⟨ht, ho⟩ := observe_eq_some hstep
      rw [show o' = Arrivals.note s b t o from ho]
      exact ⟨(ClosingPool.step_cases ht).closed hcl, (hok.nothing (t := t) hcl).trans hsame⟩
    exact hlater.2

end Timely

def leasedThenShut : List ShutAct :=
  (dials plainKey 0 .h1).map .pool ++ ShutAct.shutdown 0 :: List.replicate 3 (.exec 0) ++
    ShutAct.visit 0 plainKey :: List.replicate 5 (.exec 0) ++ ShutAct.remove 0 plainKey :: List.replicate 2 (.exec 0) ++
    ShutAct.driverEnd 1 :: List.replicate 3 (.exec 0)

set_option maxRecDepth 10000 in
theorem shutdown_exhaustive_one_lease : ∃ as s o, ClosingPool.Reaches {} (fun x => x.1.FilesOpen) as s o ∧
    s.complete = true ∧ s.pool.tasks 0 = .leased 1 ∧ s.pool.conns plainKey = [] ∧
    (s.drivers 1).taken = true ∧ (s.drivers 1).aborted = true ∧ o.late 1 = false := by
  have hrun : (replay (observe (ClosingPool.step {}) Arrivals.note) (fun x => x.1.FilesOpen) ({}, {})
      leasedThenShut).map (fun x => (x.1.complete, x.1.pool.tasks 0)) = some (true, .leased 1) := by decide +kernel
  obtain ⟨⟨s, o⟩, hs, hend⟩ := Option.map_eq_some_iff.mp hrun
  obtain ⟨hcomplete, hlease⟩ := Prod.mk.inj hend
  have hreach := run_of_replay hs
  obtain ⟨hnil, hall, hearly, -⟩ := shutdown_exhaustive hreach hcomplete
  obtain ⟨hmem, hlate⟩ := hearly 0 1 hlease
  exact ⟨_, s, o, hreach, hcomplete, hlease, hnil plainKey, (hall 1 hmem).1, (hall 1 hmem).2, hlate⟩

def shutDuringDial : List ShutAct :=
  (Act.acquire 0 plainKey :: List.replicate 8 (.exec 0)).map .pool ++
    ShutAct.shutdown 0 :: List.replicate 8 (.exec 0) ++
    (Act.connected 0 (.ok .h1) :: List.replicate 5 (.exec 0)).map .pool

set_option maxRecDepth 10000 in
/-- The call that dials has passed the test of `closed`: after `shutdown` is complete it adds its
connection, whose driver nobody takes, and returns a lease on it. -/
theorem connection_added_after_shutdown : ∃ as s o, ClosingPool.Reaches {} anyStep as s o ∧ s.complete = true ∧
    s.pool.conns plainKey = [1] ∧ (s.drivers 1).taken = false ∧ s.pool.tasks 0 = .leased 1 ∧ o.late 1 = true := by
  have hrun : (replay (observe (ClosingPool.step {}) Arrivals.note) anyStep ({}, {}) shutDuringDial).any
      (fun x => x.1.complete && (x.1.pool.conns plainKey == [1] && (!(x.1.drivers 1).taken &&
        (x.1.pool.tasks 0 == .leased 1 && x.2.late 1)))) = true := by decide +kernel
  obtain ⟨⟨s, o⟩, hs, hend⟩ := (Option.any_eq_true _ _).mp hrun
  simp only [Bool.and_eq_true, beq_iff_eq, Bool.not_eq_true'] at hend
  exact ⟨_, s, o, run_of_replay hs, hend⟩

end Hyper4k.Pooling
