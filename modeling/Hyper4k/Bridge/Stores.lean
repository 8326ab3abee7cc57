import Hyper4k.Bridge.Versioned
import Hyper4k.Cells.Assign

/-! Structs in the caller's memory, assigned to field by field and read back. -/
namespace Hyper4k.Bridge

/-- The address is one of `n` from `p` on; the last address is followed by the first. -/
def Within (p : UInt64) (n : Nat) (a : UInt64) : Prop := (a - p).toNat < n

def Apart (p : UInt64) (m : Nat) (q : UInt64) (n : Nat) : Prop := ∀ a, Within p m a → ¬ Within q n a

theorem Apart.symm {p q : UInt64} {m n : Nat} (h : Apart p m q n) : Apart q n p m := fun a hq hp => h a hp hq

theorem within_add (p : UInt64) {i n : Nat} (hi : i < n) (hn : n ≤ 2 ^ 64) : Within p n (p + UInt64.ofNat i) := by
  rw [Within, Memory.distance p (Nat.lt_of_lt_of_le hi hn)]
  exact hi

theorem Within.field {p a : UInt64} {k m n : Nat} (h : Within (p + UInt64.ofNat k) m a) (hk : k + m ≤ n)
    (hn : n ≤ 2 ^ 64) : Within p n a := by
  unfold Within at h ⊢
  have hm := UInt64.toNat_lt a
  have hp := UInt64.toNat_lt p
  rw [UInt64.toNat_sub, UInt64.toNat_add, UInt64.toNat_ofNat'] at h
  rw [UInt64.toNat_sub]
  omega

theorem apart_fields (p : UInt64) {k l m n : Nat} (hkl : k + m ≤ l ∨ l + n ≤ k) (hk : k + m ≤ 2 ^ 64) (hl : l + n ≤ 2 ^ 64) :
    Apart (p + UInt64.ofNat k) m (p + UInt64.ofNat l) n := by
  intro a hm hn
  unfold Within at hm hn
  have ha := UInt64.toNat_lt a
  have hp := UInt64.toNat_lt p
  rw [UInt64.toNat_sub, UInt64.toNat_add, UInt64.toNat_ofNat'] at hm hn
  omega

theorem apart_of_le {p q : UInt64} {m n : Nat} (h : p.toNat + m ≤ q.toNat) (hq : q.toNat + n ≤ 2 ^ 64) :
    Apart p m q n := by
  intro a hm hn
  unfold Within at hm hn
  have ha := UInt64.toNat_lt a
  rw [UInt64.toNat_sub] at hm hn
  omega

namespace Memory
variable {ι : Type*} (mem : Memory) {place : ι → UInt64} {bytes : ι → Bytes} {l : List ι}

def assign (place : ι → UInt64) (bytes : ι → Bytes) (l : List ι) : Memory :=
  l.foldl (fun m x => m.write (place x) (bytes x)) mem

theorem assign_eq : mem.assign place bytes l = Cells.assign mem (fun x a => (bytes x)[(a - place x).toNat]?) l := rfl

theorem read_congr {mem' : Memory} {p : UInt64} {n : Nat} (hn : n ≤ 2 ^ 64)
    (h : ∀ a, Within p n a → mem a = mem' a) : mem.read p n = mem'.read p n := by
  apply List.map_congr_left
  intro i hi
  exact h _ (within_add p (List.mem_range.mp hi) hn)

theorem read_write_apart {p q : UInt64} {n : Nat} {b : Bytes} (hn : n ≤ 2 ^ 64) (h : Apart q b.length p n) :
    (mem.write q b).read p n = mem.read p n := by
  apply read_congr _ hn
  intro a ha
  have hout : ¬ Within q b.length a := fun hq => h a hq ha
  rw [write, List.getElem?_eq_none (Nat.not_lt.mp hout)]
  rfl

theorem assign_outside {a : UInt64} (h : ∀ x ∈ l, ¬ Within (place x) (bytes x).length a) :
    mem.assign place bytes l a = mem a := by
  rw [assign_eq]
  apply Cells.assign_of_none
  intro x hx
  exact List.getElem?_eq_none (Nat.not_lt.mp (h x hx))

/-- What lies apart from every place assigned to stays. -/
theorem read_assign_apart {p : UInt64} {n : Nat} (hn : n ≤ 2 ^ 64)
    (h : ∀ x ∈ l, Apart (place x) (bytes x).length p n) : (mem.assign place bytes l).read p n = mem.read p n := by
  apply read_congr _ hn
  intro a ha
  apply assign_outside
  intro x hx hw
  exact h x hx a hw ha

/-- A place that was assigned to holds its value. -/
theorem read_assign (place : ι → UInt64) (bytes : ι → Bytes) {x : ι} (hx : x ∈ l) (hlen : (bytes x).length ≤ 2 ^ 64)
    (h : ∀ y ∈ l, y ≠ x → Apart (place y) (bytes y).length (place x) (bytes x).length) :
    (mem.assign place bytes l).read (place x) (bytes x).length = bytes x := by
  apply List.ext_getElem?
  intro i
  by_cases hi : i < (bytes x).length
  · have hdist : (place x + UInt64.ofNat i - place x).toNat = i := distance _ (Nat.lt_of_lt_of_le hi hlen)
    rw [getElem?_read _ _ hi, assign_eq, List.getElem?_eq_getElem hi]
    congr 1
    refine Cells.assign_of_some mem hx ?_ fun y hy hne => ?_
    · rw [hdist, List.getElem?_eq_getElem hi]
    · have hapart := (h y hy hne).symm _ (within_add (place x) hi hlen)
      exact List.getElem?_eq_none (Nat.not_lt.mp hapart)
  · rw [List.getElem?_eq_none (by rw [length_read]; omega), List.getElem?_eq_none (by omega)]

theorem fieldAt_read (p : UInt64) {k m n : Nat} (h : k + m ≤ n) :
    fieldAt (mem.read p n) k m = littleEndian (mem.read (p + UInt64.ofNat k) m) := by
  obtain ⟨rest, rfl⟩ := Nat.exists_eq_add_of_le h
  rw [fieldAt, Nat.add_assoc, read_add, List.drop_left' (length_read ..), read_add, List.take_left' (length_read ..)]

theorem ptrAt_read (p : UInt64) {k n : Nat} (h : k + 8 ≤ n) :
    ptrAt (mem.read p n) k = UInt64.ofNat (littleEndian (mem.read (p + UInt64.ofNat k) 8)) := by
  rw [ptrAt, fieldAt_read mem p h]

theorem sliceAt_read (p : UInt64) {k n : Nat} (h : k + 16 ≤ n) :
    sliceAt (mem.read p n) k = ⟨UInt64.ofNat (littleEndian (mem.read (p + UInt64.ofNat k) 8)),
      littleEndian (mem.read (p + UInt64.ofNat (k + 8)) 8)⟩ := by
  rw [sliceAt, ptrAt_read mem p (by omega), fieldAt_read mem p (by omega)]

end Memory

end Hyper4k.Bridge
