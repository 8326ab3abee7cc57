import Mathlib.Data.List.Basic

/-! A bounded first-in first-out channel with several senders and one receiver. A tap beside its
buffer counts the senders and records what went in and what came out. -/
namespace Hyper4k.Runs
variable {α : Type*}

structure Tap (α : Type*) where
  senders : Nat := 0
  written : List α := []
  yielded : List α := []
  ended : Bool := false

namespace Tap

def clone (c : Tap α) : Tap α := { c with senders := c.senders + 1 }

def dropSender (c : Tap α) : Tap α := { c with senders := c.senders - 1 }

def write (c : Tap α) (a : α) : Tap α := { c with written := c.written ++ [a] }

def yield (c : Tap α) (a : α) : Tap α := { c with yielded := c.yielded ++ [a] }

/-- The receiver has found the channel empty and without senders. -/
def finish (c : Tap α) : Tap α := { c with ended := true }

/-- What has come out and what is in the buffer are what went in, in order; the buffer is never
overfull; after the end nothing is in it, and nobody is left to write. -/
structure Sound (cap : Nat) (ok : α → Prop) (c : Tap α) (buffer : List α) : Prop where
  order : c.written = c.yielded ++ buffer
  room : buffer.length ≤ cap
  good : ∀ a ∈ c.written, ok a
  closed : c.ended = true → c.senders = 0 ∧ buffer = []

variable {cap : Nat} {ok : α → Prop} {c : Tap α} {buffer : List α} {a : α}

theorem Sound.empty (cap : Nat) (ok : α → Prop) (n : Nat) : Sound cap ok { senders := n } [] where
  order := rfl
  room := Nat.zero_le cap
  good _ h := nomatch h
  closed h := nomatch h

theorem Sound.clone (h : c.Sound cap ok buffer) (hs : 0 < c.senders) : c.clone.Sound cap ok buffer where
  order := h.order
  room := h.room
  good := h.good
  closed he := absurd (h.closed he).1 (Nat.ne_of_gt hs)

theorem Sound.dropSender (h : c.Sound cap ok buffer) : c.dropSender.Sound cap ok buffer where
  order := h.order
  room := h.room
  good := h.good
  closed he := ⟨congrArg (· - 1) (h.closed he).1, (h.closed he).2⟩

theorem Sound.write (h : c.Sound cap ok buffer) (hs : 0 < c.senders) (hroom : buffer.length < cap) (ha : ok a) :
    (c.write a).Sound cap ok (buffer ++ [a]) where
  order := by
    change c.written ++ [a] = c.yielded ++ (buffer ++ [a])
    rw [h.order, List.append_assoc]
  room := by
    rw [List.length_append]
    exact hroom
  good b hb := by
    rcases List.mem_append.mp hb with hb | hb
    · exact h.good b hb
    · rw [List.mem_singleton.mp hb]
      exact ha
  closed he := absurd (h.closed he).1 (Nat.ne_of_gt hs)

theorem Sound.yield (h : c.Sound cap ok (a :: buffer)) : (c.yield a).Sound cap ok buffer where
  order := by
    change c.written = c.yielded ++ [a] ++ buffer
    rw [h.order, List.append_assoc, List.singleton_append]
  room := Nat.le_of_succ_le h.room
  good := h.good
  closed he := nomatch (h.closed he).2

theorem Sound.finish (h : c.Sound cap ok []) (hs : c.senders = 0) : c.finish.Sound cap ok [] where
  order := h.order
  room := h.room
  good := h.good
  closed _ := ⟨hs, rfl⟩

theorem Sound.in_order (h : c.Sound cap ok buffer) : c.yielded <+: c.written := ⟨buffer, h.order.symm⟩

theorem Sound.complete (h : c.Sound cap ok buffer) (he : c.ended = true) : c.yielded = c.written := by
  rw [h.order, (h.closed he).2, List.append_nil]

end Tap

end Hyper4k.Runs
