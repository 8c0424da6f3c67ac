import Mathlib.Algebra.Group.Nat.Defs
import Mathlib.Data.List.Basic

namespace RrWorkbench.X86

/-! Memory of a 32-bit little-endian machine, and words on a stack that grows
downwards.  Addresses wrap around. -/

abbrev Word : Type := BitVec 32

abbrev Byte : Type := BitVec 8

abbrev Memory : Type := Word → Byte

def byteOf (v : Word) (i : Nat) : Byte := v.extractLsb' (8 * i) 8

theorem eq_of_byteOf {v w : Word} (h : ∀ i < 4, byteOf v i = byteOf w i) : v = w := by
  apply BitVec.eq_of_getLsbD_eq
  intro k hk
  have hbit := congrArg (fun byte => byte.getLsbD (k % 8)) (h (k / 8) (by omega))
  simpa [byteOf, Nat.mod_lt, Nat.div_add_mod] using hbit

/-- The word with the given bytes, the lowest first. -/
def ofBytes (b0 b1 b2 b3 : Byte) : Word := b3 ++ b2 ++ b1 ++ b0

theorem byteOf_ofBytes (b0 b1 b2 b3 : Byte) :
    byteOf (ofBytes b0 b1 b2 b3) 0 = b0 ∧ byteOf (ofBytes b0 b1 b2 b3) 1 = b1 ∧
      byteOf (ofBytes b0 b1 b2 b3) 2 = b2 ∧ byteOf (ofBytes b0 b1 b2 b3) 3 = b3 := by
  refine ⟨?_, ?_, ?_, ?_⟩ <;>
    · apply BitVec.eq_of_getLsbD_eq
      intro j hj
      simp [byteOf, ofBytes]
      grind

theorem ofBytes_byteOf (v : Word) :
    ofBytes (byteOf v 0) (byteOf v 1) (byteOf v 2) (byteOf v 3) = v := by
  obtain ⟨h0, h1, h2, h3⟩ := byteOf_ofBytes (byteOf v 0) (byteOf v 1) (byteOf v 2) (byteOf v 3)
  apply eq_of_byteOf
  intro i hi
  have hcases : i = 0 ∨ i = 1 ∨ i = 2 ∨ i = 3 := by omega
  rcases hcases with rfl | rfl | rfl | rfl <;> assumption

def Below (top : Word) (size : Nat) (x : Word) : Prop :=
  0 < (top - x).toNat ∧ (top - x).toNat ≤ size

instance (top : Word) (size : Nat) (x : Word) : Decidable (Below top size x) :=
  inferInstanceAs (Decidable (_ ∧ _))

theorem Below.mono {top x : Word} {size larger : Nat} (below : Below top size x)
    (hle : size ≤ larger) : Below top larger x :=
  ⟨below.1, Nat.le_trans below.2 hle⟩

namespace Memory

def read (mem : Memory) (a : Word) : Word :=
  ofBytes (mem a) (mem (a + 1)) (mem (a + 2)) (mem (a + 3))

def write (mem : Memory) (a v : Word) : Memory :=
  fun x => if (x - a).toNat < 4 then byteOf v (x - a).toNat else mem x

theorem byteOf_read (mem : Memory) (a : Word) {i : Nat} (hi : i < 4) :
    byteOf (mem.read a) i = mem (a + BitVec.ofNat 32 i) := by
  obtain ⟨h0, h1, h2, h3⟩ := byteOf_ofBytes (mem a) (mem (a + 1)) (mem (a + 2)) (mem (a + 3))
  have hcases : i = 0 ∨ i = 1 ∨ i = 2 ∨ i = 3 := by omega
  rcases hcases with rfl | rfl | rfl | rfl
  · exact h0.trans (congrArg mem (BitVec.add_zero a).symm)
  · exact h1
  · exact h2
  · exact h3

theorem read_congr {mem mem' : Memory} {a b : Word}
    (h : ∀ i < 4, mem' (b + BitVec.ofNat 32 i) = mem (a + BitVec.ofNat 32 i)) :
    mem'.read b = mem.read a := by
  apply eq_of_byteOf
  intro i hi
  rw [byteOf_read mem' b hi, byteOf_read mem a hi, h i hi]

theorem read_write (mem : Memory) (a v : Word) : (mem.write a v).read a = v := by
  apply eq_of_byteOf
  intro i hi
  have hoffset : (a + BitVec.ofNat 32 i - a).toNat = i := by
    rw [BitVec.add_comm, BitVec.add_sub_cancel, BitVec.toNat_ofNat]
    omega
  rw [byteOf_read _ a hi, write, hoffset, if_pos hi]

/-- The two memories differ only below `top`, by `size` bytes at most. -/
def SameAbove (top : Word) (size : Nat) (mem mem' : Memory) : Prop :=
  ∀ x, ¬ Below top size x → mem' x = mem x

namespace SameAbove

variable {top : Word} {size larger : Nat} {mem mem' mem'' : Memory}

theorem refl : SameAbove top size mem mem := fun _ _ => rfl

theorem trans (first : SameAbove top size mem mem')
    (second : SameAbove top size mem' mem'') : SameAbove top size mem mem'' :=
  fun x hx => (second x hx).trans (first x hx)

theorem mono (same : SameAbove top size mem mem') (hle : size ≤ larger) :
    SameAbove top larger mem mem' :=
  fun x hx => same x fun below => hx (below.mono hle)

/-- If the stack does not wrap around, nothing changes from `top` upwards. -/
theorem eq_of_le (same : SameAbove top size mem mem') (hsize : size ≤ top.toNat) {x : Word}
    (hx : top ≤ x) : mem' x = mem x := by
  apply same
  rintro ⟨hpositive, hle⟩
  bv_omega

theorem lower (offset : Nat) (hoffset : offset + size < 2 ^ 32)
    (same : SameAbove (top - BitVec.ofNat 32 offset) size mem mem') :
    SameAbove top (offset + size) mem mem' := by
  intro x hx
  apply same x
  rintro ⟨hpositive, hle⟩
  apply hx
  constructor <;> bv_omega

end SameAbove

theorem sameAbove_write (mem : Memory) (top v : Word) :
    SameAbove top 4 mem (mem.write (top - 4) v) := by
  intro x hx
  rw [write, if_neg]
  intro hlt
  apply hx
  constructor <;> bv_omega

def Words (mem : Memory) : Word → List Word → Prop
  | _, [] => True
  | a, w :: words => mem.read a = w ∧ Words mem (a + 4) words

namespace Words

variable {mem mem' : Memory} {a v w : Word} {words : List Word}

theorem congr (h : ∀ k < 4 * words.length,
      mem' (a + BitVec.ofNat 32 k) = mem (a + BitVec.ofNat 32 k))
    (holds : Words mem a words) : Words mem' a words := by
  induction words generalizing a with
  | nil => trivial
  | cons w words ih =>
      rw [List.length_cons] at h
      refine ⟨?_, ih (fun k hk => ?_) holds.2⟩
      · rw [← holds.1]
        exact read_congr fun i hi => h i (by omega)
      · have hnext := h (4 + k) (by omega)
        rwa [BitVec.ofNat_add, ← BitVec.add_assoc] at hnext

theorem of_sameAbove {size : Nat} (same : SameAbove a size mem mem')
    (hsize : 4 * words.length + size ≤ 2 ^ 32) (holds : Words mem a words) :
    Words mem' a words := by
  refine congr (fun k hk => same _ ?_) holds
  rintro ⟨hpositive, hle⟩
  have hoffset : (a - (a + BitVec.ofNat 32 k)).toNat = (2 ^ 32 - k) % 2 ^ 32 := by
    bv_omega
  omega

theorem push (holds : Words mem a words) (hsize : 4 * words.length + 4 ≤ 2 ^ 32) :
    Words (mem.write (a - 4) v) (a - 4) (v :: words) := by
  refine ⟨read_write mem (a - 4) v, ?_⟩
  rw [BitVec.sub_add_cancel]
  exact holds.of_sameAbove (sameAbove_write mem a v) hsize

end Words

end Memory

end RrWorkbench.X86
