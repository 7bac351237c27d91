import Dcl.Codec.Md5
import Dcl.Codec.Rfc1321

/-! # `MD5Transform` processes a block as the RFC does

The core functions are the auxiliary functions in another form, a step is an operation, and the table
of steps is the list of operations. -/
namespace Dcl.Md5
set_option autoImplicit false
open Rfc1321 (Words)

def Buf.words (w : Buf) : Words := ⟨w.a, w.b, w.c, w.d⟩

/-! ## One step -/

def Core.ofRound : ℕ → Core
  | 0 => .f1
  | 1 => .f2
  | 2 => .f3
  | _ => .f4

theorem f1_eq (x y z : UInt32) : z ^^^ (x &&& (y ^^^ z)) = (x &&& y) ||| (~~~x &&& z) := by
  apply UInt32.toBitVec_inj.mp
  ext i hi
  simp only [UInt32.toBitVec_xor, UInt32.toBitVec_and, UInt32.toBitVec_or, UInt32.toBitVec_not,
    BitVec.getElem_xor, BitVec.getElem_and, BitVec.getElem_or, BitVec.getElem_not]
  cases x.toBitVec[i] <;> cases y.toBitVec[i] <;> cases z.toBitVec[i] <;> rfl

theorem Core.apply_ofRound (r : ℕ) (x y z : UInt32) :
    (Core.ofRound r).apply x y z = Rfc1321.auxiliary r x y z := by
  match r with
  | 0 => exact f1_eq x y z
  | 1 =>
    show y ^^^ (z &&& (x ^^^ y)) = (x &&& z) ||| (y &&& ~~~z)
    rw [f1_eq, UInt32.and_comm z x, UInt32.and_comm _ y]
  | 2 => rfl
  | _ + 3 => rfl

/-- A left shift and a right shift make a rotation. -/
theorem rotateLeft_eq (x : UInt32) {s : ℕ} (h0 : 0 < s) (h : s < 32) :
    x <<< UInt32.ofNat s ||| x >>> (32 - UInt32.ofNat s) = Rfc1321.rotateLeft x s := by
  have hs : (UInt32.ofNat s).toNat = s := UInt32.toNat_ofNat_of_lt' (by show s < 4294967296; omega)
  have hle : UInt32.ofNat s ≤ 32 := by
    rw [UInt32.le_iff_toNat_le, hs]
    show s ≤ 32
    omega
  have hl : ((UInt32.ofNat s).toBitVec % 32).toNat = s := by
    rw [BitVec.toNat_umod]
    show (UInt32.ofNat s).toNat % 32 = s
    omega
  have hr : ((32 - UInt32.ofNat s).toBitVec % 32).toNat = 32 - s := by
    rw [BitVec.toNat_umod]
    show (32 - UInt32.ofNat s).toNat % 32 = 32 - s
    rw [UInt32.toNat_sub_of_le _ _ hle, hs]
    show (32 - s) % 32 = 32 - s
    omega
  apply UInt32.toBitVec_inj.mp
  rw [Rfc1321.rotateLeft, BitVec.rotateLeft_def, Nat.mod_eq_of_lt h, UInt32.toBitVec_or,
    UInt32.toBitVec_shiftLeft, UInt32.toBitVec_shiftRight, BitVec.shiftLeft_eq',
    BitVec.ushiftRight_eq', hl, hr]

theorem md5Step_eq (r : ℕ) (w x y z data const : UInt32) {s : ℕ} (h0 : 0 < s) (h : s < 32) :
    md5Step (Core.ofRound r) w x y z (data + const) (UInt32.ofNat s) =
      Rfc1321.operation (Rfc1321.auxiliary r) w x y z data const s := by
  rw [md5Step, Rfc1321.operation, Core.apply_ofRound, rotateLeft_eq _ h0 h, UInt32.add_comm x]
  congr 2
  rw [UInt32.add_assoc, UInt32.add_assoc]

/-! ## The sixty-four steps -/

def Register.ofIndex : ℕ → Register
  | 0 => .a
  | 1 => .d
  | 2 => .c
  | _ => .b

def Step.ofIndex (i : ℕ) : Step :=
  ⟨.ofRound (i / 16), .ofIndex (i % 4), Rfc1321.wordIndex i, Rfc1321.T.getD i 0,
    UInt32.ofNat (Rfc1321.rotation i)⟩

theorem steps_eq : steps = (List.range 64).map Step.ofIndex := rfl

theorem rotation_bounds (i : ℕ) : 0 < Rfc1321.rotation i ∧ Rfc1321.rotation i < 32 := by
  have hall : ∀ l ∈ [[7, 12, 17, 22], [5, 9, 14, 20], [4, 11, 16, 23], [6, 10, 15, 21]], ∀ j < 4,
      0 < List.getD l j 0 ∧ List.getD l j 0 < 32 := by decide
  have hj : i % 4 < 4 := Nat.mod_lt _ (by decide)
  unfold Rfc1321.rotation
  split
  · exact hall _ (by decide) _ hj
  · exact hall _ (by decide) _ hj
  · exact hall _ (by decide) _ hj
  · exact hall _ (by decide) _ hj

theorem Step.run_ofIndex (inp : ℕ → UInt32) (r : Buf) (i : ℕ) :
    ((Step.ofIndex i).run inp r).words = Rfc1321.operate inp r.words i := by
  have hstep := fun w x y z => md5Step_eq (i / 16) w x y z (inp (Rfc1321.wordIndex i))
    (Rfc1321.T.getD i 0) (rotation_bounds i).1 (rotation_bounds i).2
  have h4 : i % 4 = 0 ∨ i % 4 = 1 ∨ i % 4 = 2 ∨ i % 4 = 3 := by omega
  obtain h | h | h | h := h4
  all_goals
    simp only [Step.run, Step.ofIndex, Register.ofIndex, Rfc1321.operate, Buf.words, h, hstep]

theorem foldl_steps (inp : ℕ → UInt32) (buf : Buf) : (steps.foldl (Step.run inp) buf).words =
    (List.range 64).foldl (Rfc1321.operate inp) buf.words := by
  have htable : steps.foldl (Step.run inp) buf =
      (List.range 64).foldl (fun r i => (Step.ofIndex i).run inp r) buf :=
    (congrArg (List.foldl (Step.run inp) buf) steps_eq).trans (List.foldl_map ..)
  rw [htable]
  exact (List.foldl_hom Buf.words fun r i => (Step.run_ofIndex inp r i).symm).symm

theorem md5Transform_eq (buf : Buf) (block : Bytes) :
    (md5Transform buf (Rfc1321.word block)).words = Rfc1321.processBlock buf.words block := by
  have hrun := foldl_steps (Rfc1321.word block) buf
  rw [Rfc1321.processBlock, ← hrun]
  simp only [md5Transform, Buf.words]

end Dcl.Md5
