import Mathlib.Tactic.Ring
import Arancini.Lib.WordStack

/-!
# The initial stack of the guest

`setup_guest_stack` builds the stack on which the guest begins, from the top down : the auxiliary
vector, the environment, the arguments and their number. The top is aligned first, with a word for
an odd number of words to come. The runtime calls it with `start = 1`.

`setupGuestStack_right` says what stands on the stack.
-/

namespace Arancini.Runtime.GuestStack

/-- A pointer or a number. -/
abbrev Word :=
  BitVec 64

/-! ## The auxiliary vector -/

def AT_NULL : Word := 0
def AT_PAGESZ : Word := 6
def AT_UID : Word := 11
def AT_EUID : Word := 12
def AT_GID : Word := 13
def AT_EGID : Word := 14
def AT_HWCAP : Word := 16
def AT_CLKTCK : Word := 17
def AT_SECURE : Word := 23
def AT_RANDOM : Word := 25
def AT_HWCAP2 : Word := 26
def AT_EXECFN : Word := 31

/-- `get_memory_ptr`. -/
def getMemoryPtr (baseAddress : Word) : Word :=
  baseAddress

/-- The guest address of a host pointer. -/
def guestPtr (ptr : Word) : Word :=
  ptr - getMemoryPtr 0

/-- Push an `Elf64_auxv_t`. -/
def pushAux (type val : Word) (s : WordStack) : WordStack :=
  (s.push val).push type

variable (getauxval : Word → Word) (environ argv : List Word) (start : ℕ)

def pushAuxv (s : WordStack) : WordStack :=
  let s := pushAux AT_NULL 0 s
  let s := pushAux AT_UID (getauxval AT_UID) s
  let s := pushAux AT_GID (getauxval AT_GID) s
  let s := pushAux AT_EGID (getauxval AT_EGID) s
  let s := pushAux AT_EUID (getauxval AT_EUID) s
  let s := pushAux AT_CLKTCK (getauxval AT_CLKTCK) s
  let s := pushAux AT_RANDOM (guestPtr (getauxval AT_RANDOM)) s
  let s := pushAux AT_SECURE 0 s
  let s := pushAux AT_PAGESZ (getauxval AT_PAGESZ) s
  let s := pushAux AT_HWCAP 0 s
  let s := pushAux AT_HWCAP2 0 s
  pushAux AT_EXECFN (guestPtr (argv.getD 0 0)) s

/-! ## The stack -/

/-- The loop over pointers, from the last one down to `start`. -/
def pushPtrs (ptrs : List Word) (start : ℕ) : ℕ → WordStack → WordStack
  | 0, s => s
  | n + 1, s => pushPtrs ptrs start n (s.push (guestPtr (ptrs.getD (start + n) 0)))

/-- `envc`. -/
def envCount : ℕ :=
  (environ.takeWhile (· ≠ 0)).length

/-- The stack pointer and memory that `setup_guest_stack` leaves, and `__environ` of the guest if it
has one. The arguments are null behind the last one. -/
def setupGuestStack (stackTop : ℤ) (mem : ℤ → BitVec 8) (guestEnviron : Option ℤ) :
    WordStack × Option ℤ :=
  let argc : ℤ := argv.length
  let stackTop := stackTop - ((envCount environ + (argc - (start - 1)) + 1) % 2) * 8
  let s : WordStack := ⟨stackTop, mem⟩
  let s := pushAuxv getauxval argv s
  let s := s.push 0
  let s := pushPtrs environ 0 (envCount environ) s
  let guestEnviron := guestEnviron.map fun _ => s.sp
  let s := s.push 0
  let s := pushPtrs argv start (argv.length - start) s
  let s := s.push (guestPtr (argv.getD 0 0))
  (s.push (BitVec.ofInt 64 (argc - (start - 1))), guestEnviron)

/-! ## What stands on the stack -/

/-- The environment ends with the first null pointer. -/
def environment : List Word :=
  environ.takeWhile (· ≠ 0)

/-- The program name and the arguments of the guest. -/
def arguments : List Word :=
  argv.getD 0 0 :: argv.drop start

/-- The auxiliary vector, from low to high addresses. -/
def auxv : List (Word × Word) :=
  [(AT_EXECFN, guestPtr (argv.getD 0 0)), (AT_HWCAP2, 0), (AT_HWCAP, 0),
    (AT_PAGESZ, getauxval AT_PAGESZ), (AT_SECURE, 0), (AT_RANDOM, guestPtr (getauxval AT_RANDOM)),
    (AT_CLKTCK, getauxval AT_CLKTCK), (AT_EUID, getauxval AT_EUID),
    (AT_EGID, getauxval AT_EGID), (AT_GID, getauxval AT_GID), (AT_UID, getauxval AT_UID),
    (AT_NULL, 0)]

def auxWords : List Word :=
  (auxv getauxval argv).flatMap fun entry => [entry.1, entry.2]

/-- The words from the stack pointer on. -/
def layout : List Word :=
  BitVec.ofNat 64 (arguments argv start).length :: ((arguments argv start).map guestPtr ++
    0 :: ((environment environ).map guestPtr ++ 0 :: auxWords getauxval argv))

/-- The stack on which a guest can begin. -/
structure StackRight (stackTop : ℤ) (mem : ℤ → BitVec 8) (s : WordStack) : Prop where
  aligned : 16 ∣ s.sp
  words : HoldsWords s.mem s.sp (layout getauxval environ argv start)
  words_le : s.sp + 8 * (layout getauxval environ argv start).length ≤ stackTop
  outside : ∀ x, x < s.sp ∨ stackTop ≤ x → s.mem x = mem x
  /-- The pointers lead the guest to what they point to. -/
  pointers : ∀ ptr, getMemoryPtr (guestPtr ptr) = ptr
  auxv_end : (auxv getauxval argv).getLast? = some (AT_NULL, 0)
  auxv_ne_null : ∀ entry ∈ (auxv getauxval argv).dropLast, entry.1 ≠ AT_NULL

/-! ## The proof -/

theorem pushAuxv_eq (s : WordStack) :
    pushAuxv getauxval argv s = s.pushAll (auxWords getauxval argv) :=
  rfl

theorem pushPtrs_eq (ptrs : List Word) (n : ℕ) (hn : start + n ≤ ptrs.length) (s : WordStack) :
    pushPtrs ptrs start n s = s.pushAll (((ptrs.drop start).take n).map guestPtr) := by
  induction n generalizing s with
  | zero => rfl
  | succ n ih =>
    have hlt : start + n < ptrs.length := hn
    have hget : (ptrs.drop start)[n]? = some (ptrs.getD (start + n) 0) := by
      rw [List.getElem?_drop, List.getD_eq_getElem?_getD, List.getElem?_eq_getElem hlt]
      rfl
    rw [pushPtrs, ih hlt.le, List.take_add_one, hget, List.map_append, WordStack.pushAll_append]
    rfl

theorem pushPtrs_environ (s : WordStack) : pushPtrs environ 0 (envCount environ) s =
    s.pushAll ((environment environ).map guestPtr) := by
  have hprefix : environment environ <+: environ := List.takeWhile_prefix _
  have hlength : 0 + envCount environ ≤ environ.length := by
    rw [Nat.zero_add]
    exact hprefix.length_le
  rw [pushPtrs_eq 0 environ (envCount environ) hlength, List.drop_zero]
  exact congrArg (fun env => s.pushAll (env.map guestPtr)) (List.prefix_iff_eq_take.1 hprefix).symm

theorem pushPtrs_argv (hargc : start ≤ argv.length) (s : WordStack) :
    pushPtrs argv start (argv.length - start) s = s.pushAll ((argv.drop start).map guestPtr) := by
  have hlength : ((argv.drop start).length) ≤ argv.length - start := by rw [List.length_drop]
  have hend : start + (argv.length - start) ≤ argv.length := (Nat.add_sub_cancel' hargc).le
  rw [pushPtrs_eq start argv _ hend, List.take_of_length_le hlength]

variable {argv start}

theorem length_arguments (hargc : start ≤ argv.length) :
    ((arguments argv start).length : ℤ) = argv.length - (start - 1) := by
  rw [arguments, List.length_cons, List.length_drop]
  omega

theorem length_layout : (layout getauxval environ argv start).length =
    (arguments argv start).length + envCount environ + 27 := by
  have haux : (auxWords getauxval argv).length = 24 := rfl
  simp only [layout, List.length_cons, List.length_append, List.length_map, haux, envCount,
    environment]
  omega

/-- The top of the stack, after the word that aligns it. -/
def alignedTop (environ argv : List Word) (start : ℕ) (stackTop : ℤ) : ℤ :=
  stackTop - ((envCount environ + (argv.length - (start - 1)) + 1) % 2) * 8

/-- What `setup_guest_stack` pushes. -/
theorem setupGuestStack_fst (hargc : start ≤ argv.length) (stackTop : ℤ)
    (mem : ℤ → BitVec 8) (guestEnviron : Option ℤ) :
    (setupGuestStack getauxval environ argv start stackTop mem guestEnviron).1 =
      WordStack.pushAll (layout getauxval environ argv start)
        ⟨alignedTop environ argv start stackTop, mem⟩ := by
  have hcount : BitVec.ofInt 64 (argv.length - (start - 1)) =
      BitVec.ofNat 64 (arguments argv start).length := by
    rw [← length_arguments hargc, BitVec.ofInt_natCast]
  rw [setupGuestStack, layout, WordStack.pushAll_cons, WordStack.pushAll_append,
    WordStack.pushAll_cons, WordStack.pushAll_append, WordStack.pushAll_cons, ← pushAuxv_eq,
    ← pushPtrs_environ, arguments, List.map_cons, WordStack.pushAll_cons,
    ← pushPtrs_argv argv start hargc]
  simp only [hcount]
  rfl

/-- `__environ` of the guest leads to the environment, behind the arguments. -/
theorem setupGuestStack_snd (hargc : start ≤ argv.length) (stackTop : ℤ)
    (mem : ℤ → BitVec 8) (guestEnviron : Option ℤ) :
    (setupGuestStack getauxval environ argv start stackTop mem guestEnviron).2 =
      guestEnviron.map fun _ =>
        (setupGuestStack getauxval environ argv start stackTop mem guestEnviron).1.sp +
          8 * ((arguments argv start).length + 2) := by
  have hlayout : (layout getauxval environ argv start).length = _ := length_layout ..
  have haux : (auxWords getauxval argv).length = 24 := rfl
  rw [setupGuestStack_fst getauxval environ hargc, WordStack.sp_pushAll, hlayout,
    setupGuestStack]
  simp only [pushPtrs_environ, WordStack.sp_pushAll, WordStack.push, pushAuxv_eq, haux,
    List.length_map]
  refine congrArg (Option.map · guestEnviron) (funext fun _ => ?_)
  rw [alignedTop, envCount, environment]
  push_cast
  omega

/-- The guest begins on a right stack. -/
theorem setupGuestStack_right (hargc : start ≤ argv.length) {stackTop : ℤ}
    (htop : 16 ∣ stackTop) (mem : ℤ → BitVec 8) (guestEnviron : Option ℤ) :
    StackRight getauxval environ argv start stackTop mem
      (setupGuestStack getauxval environ argv start stackTop mem guestEnviron).1 := by
  rw [setupGuestStack_fst getauxval environ hargc]
  have hsp : (WordStack.pushAll (layout getauxval environ argv start)
      ⟨alignedTop environ argv start stackTop, mem⟩).sp = alignedTop environ argv start stackTop -
        8 * (layout getauxval environ argv start).length := WordStack.sp_pushAll _ _
  have hlength : (layout getauxval environ argv start).length = _ := length_layout ..
  have hcount := length_arguments hargc
  refine ⟨?_, WordStack.holds_pushAll _ _, ?_, fun x hx => ?_, fun ptr => ?_, rfl, ?_⟩
  · rw [hsp, hlength, alignedTop]
    push_cast
    omega
  · rw [hsp, alignedTop]
    omega
  · have htop' : alignedTop environ argv start stackTop ≤ stackTop := by
      rw [alignedTop]
      omega
    exact WordStack.mem_pushAll _ ⟨_, mem⟩ (hx.imp_right htop'.trans)
  · exact BitVec.sub_zero ptr
  · simp [auxv, AT_EXECFN, AT_HWCAP2, AT_HWCAP, AT_PAGESZ, AT_SECURE, AT_RANDOM, AT_CLKTCK, AT_EUID,
      AT_EGID, AT_GID, AT_UID, AT_NULL]

/-- Three arguments and one environment variable. -/
theorem setupGuestStack_right_three :
    let s := (setupGuestStack (fun _ => 0) [8192] [4096, 4100, 4104] 1 65536 (fun _ => 0) none).1
    StackRight (fun _ => 0) [8192] [4096, 4100, 4104] 1 65536 (fun _ => 0) s :=
  setupGuestStack_right _ _ (by decide) (by decide) _ _

end Arancini.Runtime.GuestStack
