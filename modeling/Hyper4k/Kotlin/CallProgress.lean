import Hyper4k.Kotlin.Backend
import Hyper4k.Server.CallView

/-! Where a native call of a request stands, beside what `active_streams` says of its responder. -/
namespace Hyper4k.Dispatch
open Server (Api CallPc Engine Responder StreamId ThreadId)
open Runs

/-- The places of a `begin`, with whether its responder has an entry there. -/
def beginning : CallPc → Option Bool
  | .claimStream .. | .returned .wrongState => some false
  | .deliver _ (.stream _) | .takePending _ (.stream _) _ | .send _ (.stream _) _ | .releaseStream _
  | .returned .ok => some true
  | _ => none

/-- The places of a write of `chunk` on a responder that has an entry, off the engine's threads. -/
def writing (chunk : Text.Octets) : CallPc → Bool
  | .getSender _ (.bytes (b :: bs)) => decide (chunk = b :: bs)
  | .trySend _ bytes | .blockingSend _ bytes => decide (chunk = bytes)
  | .returned .ok | .returned .clientGone => true
  | _ => false

def finishing : CallPc → Option Bool
  | .removeStream _ => some true
  | .returned .ok => some false
  | _ => none

/-- A call in progress, what the channel says of streaming, and whether the responder has an entry. -/
def Progress (streaming active : Bool) (api : Api) (pc : CallPc) : Prop :=
  match api with
  | .respond .. => streaming = false ∧ active = false ∧ inRespond pc = true
  | .begin .. => streaming = false ∧ beginning pc = some active
  | .write _ chunk => streaming = true ∧ active = true ∧ writing chunk.read pc = true
  | .finish _ => streaming = true ∧ finishing pc = some active

section Progress
variable {native : Server.Config} {e e' : Engine} {w : ThreadId} {r : Responder}

theorem setActive_active (e : Engine) (q : Responder) (i : Option StreamId) (w : ThreadId) (pc : CallPc) :
    ((e.setActive q i).setCall w pc).active q = i :=
  Function.update_self ..

/-- `hyper4k_respond` changes no entry. -/
theorem advance_respond (h : e.advance native w = some e') (hpc : inRespond (e.pcs w) = true) :
    e'.active = e.active := by
  rw [Engine.advance, show (e.threads w).call = e.pcs w from rfl] at h
  generalize e.pcs w = pc at h hpc
  cases pc with
  | checkStreams q own | returned code =>
    cases h
    rfl
  | deliver q own =>
    simp only at h
    repeat' split at h
    all_goals cases h; rfl
  | takePending q own payload | send q own payload =>
    simp only at h
    split at h <;> cases h <;> rfl
  | _ => cases hpc

/-- Where `r` has an entry at each place of its `begin`. -/
theorem advance_begin {owner : StreamId → Option Responder} (hon : ∀ q, (e.pcs w).on owner = some q → q = r)
    (busy : ∀ code, e.pcs w ≠ .returned code) (h : e.advance native w = some e')
    (hpc : beginning (e.pcs w) = some (e.active r).isSome) : beginning (e'.pcs w) = some (e'.active r).isSome := by
  rw [Engine.advance, show (e.threads w).call = e.pcs w from rfl] at h
  generalize e.pcs w = pc at h hpc hon busy
  cases pc with
  | claimStream q status headers =>
    obtain rfl : q = r := hon q rfl
    simp only at h
    split at h <;> cases h
    · rename_i i hactive
      rw [hactive] at hpc
      cases hpc
    · rw [setCall_pcs, setActive_active]
      rfl
  | deliver q own =>
    cases own with
    | buffered data => cases hpc
    | stream start =>
      simp only at h
      split at h
      · split at h <;> cases h
        · exact (congrArg beginning (setThread_pcs ..)).trans hpc
        · exact (congrArg beginning (setCall_pcs ..)).trans hpc
      · cases h
        exact (congrArg beginning (setCall_pcs ..)).trans hpc
  | takePending q own payload | send q own payload =>
    cases own with
    | buffered data => cases hpc
    | stream start =>
      simp only at h
      split at h <;> cases h <;> exact (congrArg beginning (setCall_pcs ..)).trans hpc
  | releaseStream q =>
    obtain rfl : q = r := hon q rfl
    cases h
    rw [setCall_pcs, setActive_active]
    rfl
  | returned code => exact absurd rfl (busy code)
  | _ => cases hpc

/-- A write of some bytes finds the entry, and off the engine's threads it waits for room. -/
theorem advance_write {owner : StreamId → Option Responder} {chunk : Text.Octets}
    (hon : ∀ q, (e.pcs w).on owner = some q → q = r)
    (busy : ∀ code, e.pcs w ≠ .returned code) (off : native.engine w = false) (h : e.advance native w = some e')
    (hactive : (e.active r).isSome = true) (hpc : writing chunk (e.pcs w) = true) :
    e'.active = e.active ∧ writing chunk (e'.pcs w) = true := by
  rw [Engine.advance, show (e.threads w).call = e.pcs w from rfl] at h
  generalize e.pcs w = pc at h hpc hon busy
  cases pc with
  | getSender q bytes =>
    obtain rfl : q = r := hon q rfl
    simp only at h
    split at h
    · rename_i hnone
      rw [hnone] at hactive
      cases hactive
    · split at h
      case h_4 =>
        cases h
        exact ⟨rfl, (congrArg (writing chunk) (setCall_pcs ..)).trans hpc⟩
      all_goals cases hpc
  | trySend i bytes =>
    simp only [off] at h
    split at h
    · cases h
      exact ⟨rfl, congrArg (writing chunk) (setCall_pcs ..)⟩
    · split at h <;> cases h
      · exact ⟨rfl, congrArg (writing chunk) (setCall_pcs ..)⟩
      · exact ⟨rfl, (congrArg (writing chunk) (setCall_pcs ..)).trans hpc⟩
  | blockingSend i bytes =>
    simp only at h
    split at h
    · cases h
      exact ⟨rfl, congrArg (writing chunk) (setCall_pcs ..)⟩
    · split at h <;> cases h
      exact ⟨rfl, congrArg (writing chunk) (setCall_pcs ..)⟩
  | returned code => exact absurd rfl (busy code)
  | _ => cases hpc

/-- `finish` finds the entry and removes it. -/
theorem advance_finish {owner : StreamId → Option Responder} (hon : ∀ q, (e.pcs w).on owner = some q → q = r)
    (busy : ∀ code, e.pcs w ≠ .returned code) (h : e.advance native w = some e')
    (hpc : finishing (e.pcs w) = some (e.active r).isSome) : finishing (e'.pcs w) = some (e'.active r).isSome := by
  rw [Engine.advance, show (e.threads w).call = e.pcs w from rfl] at h
  generalize e.pcs w = pc at h hpc hon busy
  cases pc with
  | removeStream q =>
    obtain rfl : q = r := hon q rfl
    simp only at h
    split at h <;> cases h
    · rw [setCall_pcs, setActive_active]
      rfl
    · rename_i hnone
      rw [hnone] at hpc
      cases hpc
  | returned code => exact absurd rfl (busy code)
  | _ => cases hpc

theorem Progress.advance {owner : StreamId → Option Responder} {streaming : Bool} {api : Api}
    (hp : Progress streaming (e.active r).isSome api (e.pcs w)) (hon : ∀ q, (e.pcs w).on owner = some q → q = r)
    (busy : ∀ code, e.pcs w ≠ .returned code) (off : ∀ q chunk, api = .write q chunk → native.engine w = false)
    (h : e.advance native w = some e') : Progress streaming (e'.active r).isSome api (e'.pcs w) := by
  cases api with
  | respond q status headers body =>
    obtain ⟨hstreaming, hactive, hpc⟩ := hp
    refine ⟨hstreaming, by rw [advance_respond h hpc, hactive], advance_inRespond h hpc busy fun q own hcheck => ?_⟩
    rw [hon q (by rw [hcheck]; rfl)]
    exact hactive
  | begin q status headers => exact ⟨hp.1, advance_begin hon busy h hp.2⟩
  | write q chunk =>
    obtain ⟨hstreaming, hactive, hpc⟩ := hp
    obtain ⟨hsame, hnext⟩ := advance_write hon busy (off q chunk rfl) h hactive hpc
    exact ⟨hstreaming, by rw [hsame]; exact hactive, hnext⟩
  | finish q => exact ⟨hp.1, advance_finish hon busy h hp.2⟩

end Progress

end Hyper4k.Dispatch
