import Mathlib.Algebra.Order.Group.Int
import Mathlib.Tactic.Common
import Arancini.Lib.Lanes

/-!
# A stack of words

A stack of 64-bit words in a memory of bytes, which grows downwards. The words that are pushed stand
one after the other from the stack pointer on (`holds_pushAll`), and nothing outside them changes
(`mem_pushAll`).
-/

namespace Arancini

/-- Write a word, the low byte first. -/
def writeWord (a : ℤ) (w : BitVec 64) (mem : ℤ → BitVec 8) : ℤ → BitVec 8 :=
  fun x => if a ≤ x ∧ x < a + 8 then lane 8 (x - a).toNat w else mem x

/-- The words stand one after the other from an address on. -/
def HoldsWords (mem : ℤ → BitVec 8) (a : ℤ) (ws : List (BitVec 64)) : Prop :=
  ∀ (i : ℕ) (w : BitVec 64), ws[i]? = some w → ∀ k : ℕ, k < 8 → mem (a + 8 * i + k) = lane 8 k w

theorem writeWord_below {a x : ℤ} (h : x < a) (w : BitVec 64) (mem : ℤ → BitVec 8) :
    writeWord a w mem x = mem x :=
  if_neg fun hx => absurd hx.1 (not_le.2 h)

theorem writeWord_above {a x : ℤ} (h : a + 8 ≤ x) (w : BitVec 64) (mem : ℤ → BitVec 8) :
    writeWord a w mem x = mem x :=
  if_neg fun hx => absurd hx.2 (not_lt.2 h)

theorem writeWord_byte (a : ℤ) (w : BitVec 64) (mem : ℤ → BitVec 8) {k : ℕ} (hk : k < 8) :
    writeWord a w mem (a + k) = lane 8 k w := by
  have hx : a ≤ a + k ∧ a + k < a + 8 := by omega
  rw [writeWord, if_pos hx, add_sub_cancel_left, Int.toNat_natCast]

theorem holdsWords_nil (mem : ℤ → BitVec 8) (a : ℤ) : HoldsWords mem a [] :=
  fun _ _ h => nomatch h

/-- A word below words. -/
theorem HoldsWords.cons {mem : ℤ → BitVec 8} {a : ℤ} {ws : List (BitVec 64)}
    (h : HoldsWords mem (a + 8) ws) (w : BitVec 64) :
    HoldsWords (writeWord a w mem) a (w :: ws) := by
  intro i v hv k hk
  cases i with
  | zero =>
    obtain rfl := Option.some.inj hv
    simpa using writeWord_byte a w mem hk
  | succ i =>
    have hword := h i v hv k hk
    have haddr : a + 8 * ((i + 1 : ℕ) : ℤ) + k = a + 8 + 8 * i + k := by
      push_cast
      omega
    rw [haddr, writeWord_above (by omega)]
    exact hword

/-- The stack pointer and memory. -/
structure WordStack where
  sp : ℤ
  mem : ℤ → BitVec 8

namespace WordStack

/-- Push a word. -/
def push (w : BitVec 64) (s : WordStack) : WordStack :=
  ⟨s.sp - 8, writeWord (s.sp - 8) w s.mem⟩

/-- Push words, the last one first. -/
def pushAll (ws : List (BitVec 64)) (s : WordStack) : WordStack :=
  ws.foldr push s

variable (ws vs : List (BitVec 64)) (s : WordStack)

theorem pushAll_append : s.pushAll (ws ++ vs) = (s.pushAll vs).pushAll ws :=
  List.foldr_append

theorem pushAll_cons (w : BitVec 64) : s.pushAll (w :: ws) = (s.pushAll ws).push w :=
  rfl

theorem sp_pushAll : (s.pushAll ws).sp = s.sp - 8 * ws.length := by
  induction ws with
  | nil => simp [pushAll]
  | cons w ws ih =>
    rw [pushAll_cons, push, ih, List.length_cons]
    push_cast
    omega

/-- What is pushed stands at the stack pointer. -/
theorem holds_pushAll : HoldsWords (s.pushAll ws).mem (s.pushAll ws).sp ws := by
  induction ws with
  | nil => exact holdsWords_nil _ _
  | cons w ws ih =>
    rw [pushAll_cons]
    exact HoldsWords.cons (by rwa [sub_add_cancel]) w

/-- Nothing outside the words changes. -/
theorem mem_pushAll {x : ℤ} (hx : x < (s.pushAll ws).sp ∨ s.sp ≤ x) :
    (s.pushAll ws).mem x = s.mem x := by
  induction ws with
  | nil => rfl
  | cons w ws ih =>
    have hsp := sp_pushAll ws s
    have hcons := sp_pushAll (w :: ws) s
    rw [List.length_cons] at hcons
    push_cast at hcons
    rcases hx with hbelow | habove
    · have hrest : x < (s.pushAll ws).sp := by omega
      rw [← ih (.inl hrest), pushAll_cons]
      exact writeWord_below hbelow w _
    · rw [← ih (.inr habove), pushAll_cons]
      exact writeWord_above (by omega) w _

end WordStack

end Arancini
