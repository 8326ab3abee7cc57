import Hyper4k.Runs.Threads

/-! A one-shot cell shared by threads: one of many claimants wins it, stores a value
and publishes it; one of many takers takes the value and reports it. -/
namespace Hyper4k.Runs.OneShot
variable {ι τ δ ρ : Type*}

@[ext] structure Cell (τ δ ρ : Type*) where
  claimed : Option δ
  value : Option τ
  published : Bool
  reported : List ρ
  closed : Bool

def Cell.vacant : Cell τ δ ρ := ⟨none, none, false, [], false⟩

inductive Hand (τ δ : Type*)
  | out
  | claiming (t : τ) (d : δ)
  | won (t : τ) (d : δ)
  | stored
  | taking
  | taken (t : τ)
  | called

/-- The step of one thread. `fits` ties what is claimed for to what is reported. -/
inductive Step (report : τ → ρ) (fits : ρ → δ → Prop) : Cell τ δ ρ → Hand τ δ → Cell τ δ ρ → Hand τ δ → Prop
  | idle (c) : Step report fits c .out c .out
  | ask (c t d) (hf : fits (report t) d) : Step report fits c .out c (.claiming t d)
  | win (c t d) (hc : c.claimed = none) :
    Step report fits c (.claiming t d) { c with claimed := some d } (.won t d)
  | lose (c t d) : Step report fits c (.claiming t d) c .out
  | store (c t d) : Step report fits c (.won t d) { c with value := some t } .stored
  | publish (c) : Step report fits c .stored { c with published := true } .out
  | look (c) (hp : c.published = true) : Step report fits c .out c .taking
  | take (c t) (hv : c.value = some t) : Step report fits c .taking { c with value := none } (.taken t)
  | miss (c) (hv : c.value = none) : Step report fits c .taking c .out
  | report (c t) : Step report fits c (.taken t) { c with reported := c.reported ++ [report t] } .called
  | stay (c) : Step report fits c .called c .called
  | close (c) : Step report fits c .called { c with closed := true } .out

variable {report : τ → ρ} {fits : ρ → δ → Prop}

/-- The thread does not hold the cell's turn; it may look only at a published cell. -/
def Loose (report : τ → ρ) (fits : ρ → δ → Prop) (published : Bool) : Hand τ δ → Prop
  | .out => True
  | .claiming t d => fits (report t) d
  | .taking => published = true
  | _ => False

/-- The cell while no thread holds the turn. -/
inductive Free (report : τ → ρ) (fits : ρ → δ → Prop) : Cell τ δ ρ → Prop
  | vacant : Free report fits .vacant
  | ready (t d) (hf : fits (report t) d) : Free report fits ⟨some d, some t, true, [], false⟩
  | closed (e d) (hf : fits e d) : Free report fits ⟨some d, none, true, [e], true⟩

/-- The cell while a thread at the given place holds the turn. -/
inductive Held (report : τ → ρ) (fits : ρ → δ → Prop) : Cell τ δ ρ → Hand τ δ → Prop
  | won (t d) (hf : fits (report t) d) : Held report fits ⟨some d, none, false, [], false⟩ (.won t d)
  | stored (t d) (hf : fits (report t) d) : Held report fits ⟨some d, some t, false, [], false⟩ .stored
  | taken (t d) (hf : fits (report t) d) : Held report fits ⟨some d, none, true, [], false⟩ (.taken t)
  | called (e d) (hf : fits e d) : Held report fits ⟨some d, none, true, [e], false⟩ .called

/-- At any time at most one thread holds the turn, and the cell is what its place says. -/
inductive Inv (report : τ → ρ) (fits : ρ → δ → Prop) (c : Cell τ δ ρ) (pc : ι → Hand τ δ) : Prop
  | free (hc : Free report fits c) (rest : ∀ j, Loose report fits c.published (pc j))
  | held (i : ι) (hc : Held report fits c (pc i))
      (rest : ∀ j, j ≠ i → Loose report fits c.published (pc j))

theorem Inv.init : Inv report fits .vacant (fun _ : ι => .out) := .free .vacant fun _ => trivial

private theorem loose_mono {p q : Bool} (hpq : p = true → q = true) {h : Hand τ δ}
    (hl : Loose report fits p h) : Loose report fits q h := by
  cases h with
  | taking => exact hpq hl
  | out => exact hl
  | claiming t d => exact hl
  | won t d => exact hl
  | stored => exact hl
  | taken t => exact hl
  | called => exact hl

private theorem Held.not_loose {c : Cell τ δ ρ} {p : Bool} {h : Hand τ δ} (hc : Held report fits c h) :
    ¬ Loose report fits p h := by
  cases hc <;> exact id

variable {c : Cell τ δ ρ} {pc : ι → Hand τ δ} {i : ι}

/-- A thread where the turn is not held is loose there. -/
private theorem Inv.loose (hi : Inv report fits c pc) (hpc : ∀ c, ¬ Held report fits c (pc i)) :
    Loose report fits c.published (pc i) := by
  cases hi with
  | free hc rest => exact rest i
  | held k hc rest =>
    refine rest i ?_
    rintro rfl
    exact hpc _ hc

private theorem Inv.toFree (hi : Inv report fits c pc) (hc : ∀ h, ¬ Held report fits c h) :
    Free report fits c ∧ ∀ j, Loose report fits c.published (pc j) := by
  cases hi with
  | free hf rest => exact ⟨hf, rest⟩
  | held k hk rest => exact absurd hk (hc _)

/-- Only the holder of the turn is at a place that is not loose. -/
private theorem Inv.turn (hi : Inv report fits c pc) (hpc : ∀ p, ¬ Loose report fits p (pc i)) :
    Held report fits c (pc i) ∧ ∀ j, j ≠ i → Loose report fits c.published (pc j) := by
  cases hi with
  | free hc rest => exact absurd (rest i) (hpc _)
  | held k hc rest =>
    by_cases hki : k = i
    · subst hki
      exact ⟨hc, rest⟩
    · exact absurd (rest i (Ne.symm hki)) (hpc _)

variable [DecidableEq ι]

private theorem Inv.stroll {h : Hand τ δ} (hi : Inv report fits c pc)
    (hold : Loose report fits c.published (pc i)) (hnew : Loose report fits c.published h) :
    Inv report fits c (Function.update pc i h) := by
  cases hi with
  | free hc rest => exact .free hc (forall_update hnew fun j _ => rest j)
  | held k hc rest =>
    have hki : k ≠ i := by
      rintro rfl
      exact hc.not_loose hold
    refine .held k (by rwa [Function.update_of_ne hki]) ?_
    exact forall_update (Q := fun j h => j ≠ k → Loose report fits c.published h)
      (fun _ => hnew) fun j _ hj => rest j hj

/-- Loose threads stay loose when the turn is taken, moved on or given back. -/
private theorem loose_rest {c' : Cell τ δ ρ} {h : Hand τ δ}
    (rest : ∀ j, j ≠ i → Loose report fits c.published (pc j))
    (hp : c.published = true → c'.published = true) :
    ∀ j, j ≠ i → Loose report fits c'.published (Function.update pc i h j) := by
  intro j hj
  rw [Function.update_of_ne hj]
  exact loose_mono hp (rest j hj)

private theorem Inv.hold {c' : Cell τ δ ρ} {h : Hand τ δ} (hc : Held report fits c' h)
    (rest : ∀ j, j ≠ i → Loose report fits c.published (pc j))
    (hp : c.published = true → c'.published = true) : Inv report fits c' (Function.update pc i h) :=
  .held i (by rwa [Function.update_self]) (loose_rest rest hp)

private theorem Inv.release {c' : Cell τ δ ρ} (hc : Free report fits c')
    (rest : ∀ j, j ≠ i → Loose report fits c.published (pc j))
    (hp : c.published = true → c'.published = true) : Inv report fits c' (Function.update pc i .out) := by
  refine .free hc (forall_update (Q := fun _ h => Loose report fits c'.published h) trivial ?_)
  exact fun j hj => loose_mono hp (rest j hj)

theorem Inv.step {c' : Cell τ δ ρ} {h h' : Hand τ δ} (hi : Inv report fits c pc) (hpc : pc i = h)
    (hs : Step report fits c h c' h') : Inv report fits c' (Function.update pc i h') := by
  cases hs with
  | idle =>
    have hl := hi.loose (i := i) (fun c hc => by rw [hpc] at hc; cases hc)
    exact hi.stroll hl trivial
  | ask t d hf =>
    have hl := hi.loose (i := i) (fun c hc => by rw [hpc] at hc; cases hc)
    exact hi.stroll hl hf
  | lose t d =>
    have hl := hi.loose (i := i) (fun c hc => by rw [hpc] at hc; cases hc)
    exact hi.stroll hl trivial
  | look hp =>
    have hl := hi.loose (i := i) (fun c hc => by rw [hpc] at hc; cases hc)
    exact hi.stroll hl hp
  | miss hv =>
    have hl := hi.loose (i := i) (fun c hc => by rw [hpc] at hc; cases hc)
    exact hi.stroll hl trivial
  | win t d hc =>
    have hl := hi.loose (i := i) (fun c hc => by rw [hpc] at hc; cases hc)
    rw [hpc] at hl
    obtain ⟨hf, rest⟩ := hi.toFree fun h hh => by cases hh <;> cases hc
    cases hf with
    | vacant => exact Inv.hold (.won t d hl) (fun j _ => rest j) id
    | ready => cases hc
    | closed => cases hc
  | take t hv =>
    have hl := hi.loose (i := i) (fun c hc => by rw [hpc] at hc; cases hc)
    rw [hpc] at hl
    have hfree : ∀ h, ¬ Held report fits c h := by
      intro h hh
      cases hh with
      | won | stored => exact Bool.noConfusion (show false = true from hl)
      | taken | called => cases hv
    obtain ⟨hf, rest⟩ := hi.toFree hfree
    cases hf with
    | vacant => cases hv
    | ready t' d hf =>
      cases hv
      exact Inv.hold (.taken t d hf) (fun j _ => rest j) id
    | closed => cases hv
  | store t d =>
    obtain ⟨hh, rest⟩ := hi.turn (i := i) (fun p hl => by rw [hpc] at hl; exact hl)
    rw [hpc] at hh
    cases hh with
    | won _ _ hf => exact Inv.hold (.stored t d hf) rest id
  | publish =>
    obtain ⟨hh, rest⟩ := hi.turn (i := i) (fun p hl => by rw [hpc] at hl; exact hl)
    rw [hpc] at hh
    cases hh with
    | stored t d hf => exact Inv.release (.ready t d hf) rest fun _ => rfl
  | report t =>
    obtain ⟨hh, rest⟩ := hi.turn (i := i) (fun p hl => by rw [hpc] at hl; exact hl)
    rw [hpc] at hh
    cases hh with
    | taken _ d hf => exact Inv.hold (.called (report t) d hf) rest id
  | stay =>
    obtain ⟨hh, rest⟩ := hi.turn (i := i) (fun p hl => by rw [hpc] at hl; exact hl)
    rw [hpc] at hh
    exact Inv.hold hh rest id
  | close =>
    obtain ⟨hh, rest⟩ := hi.turn (i := i) (fun p hl => by rw [hpc] at hl; exact hl)
    rw [hpc] at hh
    cases hh with
    | called e d hf => exact Inv.release (.closed e d hf) rest id

omit [DecidableEq ι]

/-- At most one report is ever made, and it fits the claim that won. -/
theorem Inv.reported_cases (hi : Inv report fits c pc) : c.reported = [] ∨
    ∃ e d, c.reported = [e] ∧ c.claimed = some d ∧ fits e d ∧ c.value = none ∧ c.published = true := by
  cases hi with
  | free hc rest =>
    cases hc with
    | vacant | ready => exact .inl rfl
    | closed e d hf => exact .inr ⟨e, d, rfl, rfl, hf, rfl, rfl⟩
  | held i hc rest =>
    generalize pc i = h at hc
    cases hc with
    | won | stored | taken => exact .inl rfl
    | called e d hf => exact .inr ⟨e, d, rfl, rfl, hf, rfl, rfl⟩

def Hand.carries : Hand τ δ → Bool
  | .taken _ | .called => true
  | _ => false

/-- A published value is in the cell, on its way in some thread's hand, or reported. -/
theorem Inv.published_cases (hi : Inv report fits c pc) (hp : c.published = true) :
    (∃ d, c.claimed = some d) ∧ (c.value ≠ none ∨ c.closed = true ∨ ∃ i, (pc i).carries = true) := by
  cases hi with
  | free hc rest =>
    cases hc with
    | vacant => cases hp
    | ready t d hf => exact ⟨⟨d, rfl⟩, .inl (Option.some_ne_none t)⟩
    | closed e d hf => exact ⟨⟨d, rfl⟩, .inr (.inl rfl)⟩
  | held i hc rest =>
    generalize hh : pc i = h at hc
    cases hc with
    | won | stored => cases hp
    | taken t d hf => exact ⟨⟨d, rfl⟩, .inr (.inr ⟨i, by rw [hh]; rfl⟩)⟩
    | called e d hf => exact ⟨⟨d, rfl⟩, .inr (.inr ⟨i, by rw [hh]; rfl⟩)⟩

def Hand.publishes : Hand τ δ → Bool
  | .won _ _ | .stored => true
  | _ => false

/-- A claimed cell is published, or about to be by the thread that won it. -/
theorem Inv.claimed_cases (hi : Inv report fits c pc) (hc : c.claimed ≠ none) :
    c.published = true ∨ ∃ i, (pc i).publishes = true := by
  cases hi with
  | free hf rest =>
    cases hf with
    | vacant => exact absurd rfl hc
    | ready | closed => exact .inl rfl
  | held i hh rest =>
    generalize hpc : pc i = h at hh
    cases hh with
    | won | stored => exact .inr ⟨i, by rw [hpc]; rfl⟩
    | taken | called => exact .inl rfl

/-- Nobody carries the value once the cell is closed. -/
theorem Inv.closed_carried (hi : Inv report fits c pc) (hc : c.closed = true) (j : ι) : (pc j).carries = false := by
  have hloose : Loose report fits c.published (pc j) := by
    cases hi with
    | free hf rest => exact rest j
    | held i hh rest =>
      generalize pc i = h at hh
      cases hh <;> cases hc
  generalize pc j = h at hloose
  cases h with
  | taken | called => exact hloose.elim
  | _ => rfl

/-- The value is carried only until it is reported. -/
theorem Inv.taken_unreported {j : ι} {t : τ} (hi : Inv report fits c pc) (hj : pc j = .taken t) : c.reported = [] := by
  cases hi with
  | free hf rest =>
    have hloose := rest j
    rw [hj] at hloose
    exact hloose.elim
  | held i hh rest =>
    by_cases hji : j = i
    · rw [← hji, hj] at hh
      cases hh
      rfl
    · have hloose := rest j hji
      rw [hj] at hloose
      exact hloose.elim

theorem Inv.closed_reported (hi : Inv report fits c pc) (hc : c.closed = true) : c.reported ≠ [] := by
  cases hi with
  | free hf rest =>
    cases hf with
    | vacant | ready => cases hc
    | closed e d hf => exact List.cons_ne_nil _ _
  | held i hh rest =>
    generalize pc i = h at hh
    cases hh <;> cases hc

end Hyper4k.Runs.OneShot
