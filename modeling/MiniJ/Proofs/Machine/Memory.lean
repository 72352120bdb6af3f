/-!
# Byte memory

Memory of a 64-bit machine: every address holds a byte, and numbers are stored with their lowest
byte first. Addresses wrap around.

## Main definitions

* `Memory.read`, `Memory.write` — a number of some bytes.
* `Memory.Apart` — two ranges of addresses have no address in common.
-/
namespace MiniJ

/-- A machine word. -/
abbrev Word := BitVec 64

/-- Contents of all addresses. -/
abbrev Memory := Word → BitVec 8

namespace Memory

/-- The byte of a number at a position, counting from the lowest. -/
def byteAt (v : Nat) : Nat → BitVec 8
  | 0 => BitVec.ofNat 8 v
  | k + 1 => byteAt (v / 256) k

/-- How many numbers fit into some bytes. -/
def capacity : Nat → Nat
  | 0 => 1
  | n + 1 => 256 * capacity n

/-- The number in `n` bytes from address `a` on. -/
def read (m : Memory) (a : Word) : Nat → Nat
  | 0 => 0
  | n + 1 => (m a).toNat + 256 * read m (a + 1#64) n

/-- Puts a number into `n` bytes from address `a` on. -/
def write (m : Memory) (a : Word) (n v : Nat) : Memory := fun x =>
  if (x - a).toNat < n then byteAt v (x - a).toNat else m x

/-- No address lies both in the `n` bytes from `a` on and in the `k` bytes from `b` on. -/
def Apart (a : Word) (n : Nat) (b : Word) (k : Nat) : Prop :=
  ∀ x : Word, (x - a).toNat < n → ¬(x - b).toNat < k

theorem Apart.symm {a b : Word} {n k : Nat} (h : Apart a n b k) : Apart b k a n :=
  fun x hb ha => h x ha hb

@[simp] theorem read_succ (m : Memory) (a : Word) (n : Nat) :
    m.read a (n + 1) = (m a).toNat + 256 * m.read (a + 1#64) n := rfl

theorem read_lt (m : Memory) (a : Word) (n : Nat) : m.read a n < capacity n := by
  induction n generalizing a with
  | zero => exact Nat.one_pos
  | succ n ih =>
    have hbyte := (m a).isLt
    have hrest := ih (a + 1#64)
    simp only [read_succ, capacity]
    omega

/-- Reading depends only on the bytes read. -/
theorem read_congr {m m' : Memory} {a : Word} {n : Nat} (hn : n < 18446744073709551616)
    (h : ∀ x : Word, (x - a).toNat < n → m x = m' x) : m.read a n = m'.read a n := by
  induction n generalizing a with
  | zero => rfl
  | succ n ih =>
    have hfirst : m a = m' a := h a (by simp)
    have hrest : m.read (a + 1#64) n = m'.read (a + 1#64) n := by
      apply ih (by omega)
      intro x hx
      apply h
      bv_omega
    rw [read_succ, read_succ, hfirst, hrest]

theorem write_of_apart {m : Memory} {a b x : Word} {n k v : Nat} (h : Apart a n b k)
    (hx : (x - b).toNat < k) : m.write a n v x = m x := if_neg (h.symm x hx)

/-- Writing does not change what is read elsewhere. -/
theorem read_write_of_apart {m : Memory} {a b : Word} {n k v : Nat}
    (hk : k < 18446744073709551616) (h : Apart a n b k) : (m.write a n v).read b k = m.read b k :=
  read_congr hk fun _ hx => write_of_apart h hx

theorem toNat_byteAt_zero (v : Nat) : (byteAt v 0).toNat = v % 256 := by
  simp [byteAt]

/-- The bytes of a number put together again. -/
theorem read_of_bytes {m : Memory} {a : Word} {n v : Nat} (hn : n < 18446744073709551616)
    (h : ∀ x : Word, (x - a).toNat < n → m x = byteAt v (x - a).toNat) :
    m.read a n = v % capacity n := by
  induction n generalizing a v with
  | zero => simp [read, capacity, Nat.mod_one]
  | succ n ih =>
    have hfirst : (m a).toNat = v % 256 := by
      have ha := h a (by simp)
      rw [BitVec.sub_self] at ha
      rw [ha]
      exact toNat_byteAt_zero v
    have hrest : m.read (a + 1#64) n = v / 256 % capacity n := by
      apply ih (by omega)
      intro x hx
      have hk : (x - a).toNat = (x - (a + 1#64)).toNat + 1 := by bv_omega
      rw [h x (by omega), hk]
      rfl
    rw [read_succ, hfirst, hrest, capacity, Nat.mod_mul]

/-- What was written is read back. -/
theorem read_write {m : Memory} {a : Word} {n v : Nat} (hn : n < 18446744073709551616)
    (hv : v < capacity n) : (m.write a n v).read a n = v := by
  have hbytes : ∀ x : Word, (x - a).toNat < n → m.write a n v x = byteAt v (x - a).toNat :=
    fun x hx => if_pos hx
  rw [read_of_bytes hn hbytes, Nat.mod_eq_of_lt hv]

end Memory

end MiniJ
