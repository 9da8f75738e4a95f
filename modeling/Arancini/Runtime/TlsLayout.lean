import Mathlib.Tactic.Ring
import Mathlib.Tactic.Linarith
import Arancini.Lib.Align

/-!
# The layout of guest TLS

The blocks of thread-local variables of the executable and of its libraries lie below the thread
descriptor. Each library takes its offset in its constructor (`init_lib`), the runtime numbers the
modules, allocates the area and fills the dtv, and the values of TP-relative relocations are written
by the constructors.

The blocks are always right (`blocks_right`), as long as the runtime sees each of them. Not so what
belongs to a library : its `tls_id` is the number before its number, and the offset of its block is
added in a TP-relative value and not subtracted. `layout_right_iff` says which programs are right.
-/

namespace Arancini.Runtime.TlsLayout

/-- A TLS segment, with the address of its image. -/
structure Segment where
  image : ℤ
  len : ℤ
  size : ℤ
  align : ℤ
  exponent : ℕ
  len_nonneg : 0 ≤ len
  len_le : len ≤ size
  align_eq : align = 2 ^ exponent

/-- A TP-relative relocation : the module of the variable (`none` is the executable), the value of
the symbol in it, and the addend. -/
structure TpReloc where
  target : Option ℕ
  value : ℤ
  addend : ℤ

/-- What the constructor of a library knows of it. -/
structure Library where
  tls : Option Segment
  tprel : List TpReloc

/-- The segment of a module. -/
def segmentOf (exec : Option Segment) (libs : List Library) : Option ℕ → Option Segment
  | none => exec
  | some j => libs[j]?.bind Library.tls

/-- An executable with its libraries, in the order of their constructors. The relocations are of
variables in the blocks. -/
structure Program where
  exec : Option Segment
  libs : List Library
  tprel_mem : ∀ lib ∈ libs, ∀ r ∈ lib.tprel, ∃ seg, segmentOf exec libs r.target = some seg ∧
    0 ≤ r.value ∧ r.value < seg.size

/-! ## The constructors -/

/-- What the constructor makes of `tls_offset`. A library without TLS has a `TLS_SIZE` of 0. -/
def initLib (lib : Library) (tlsOffset : ℤ) : ℤ :=
  match lib.tls with
  | none => tlsOffset
  | some seg =>
    if 0 < seg.size then
      let tlsOffset := tlsOffset + seg.size + seg.align - 1
      tlsOffset - (tlsOffset + seg.image).land (seg.align - 1)
    else tlsOffset

/-- `tls_offset` as the executable defines it. -/
def execTlsOffset : Option Segment → ℤ
  | none => 0
  | some seg => seg.size + (seg.align - 1)

/-- `tls_offset` after the first constructors. The offset of library `j` is the value after its own
constructor. -/
def Program.tlsOffset (p : Program) : ℕ → ℤ
  | 0 => execTlsOffset p.exec
  | j + 1 =>
    match p.libs[j]? with
    | none => p.tlsOffset j
    | some lib => initLib lib (p.tlsOffset j)

/-- The value that the constructor of library `j` writes for a relocation. -/
def Program.tpValue (p : Program) (j : ℕ) (r : TpReloc) : ℤ :=
  p.tlsOffset (j + 1) + r.addend

/-! ## The runtime -/

/-- `MAXP2`. -/
def maxp2 (a b : ℤ) : ℤ :=
  -((-a).land (-b))

def alignofPthread : ℤ := 8
def sizeofPthread : ℤ := 200

/-- The offset of the executable, without the part of the alignment that it does not need. -/
def execOffset (seg : Segment) : ℤ :=
  seg.size + (seg.align - 1) -
    (seg.align - 1 - (-(seg.image + seg.size)).land (seg.align - 1))

/-- A `dso` with its `tls_module`, and what was written through the `dtp_mod` pointers of its
library. -/
structure Module where
  source : Option ℕ
  segment : Segment
  offset : ℤ
  tlsId : ℕ
  dtpMod : Option ℕ

/-- The state of the loop over the libraries. `modules` is the list from `tls_head` on. -/
structure Setup where
  tlsCnt : ℕ
  tlsAlign : ℤ
  modules : List Module

def Setup.start : Option Segment → Setup
  | none => ⟨0, alignofPthread, []⟩
  | some seg => ⟨1, maxp2 alignofPthread seg.align, [⟨none, seg, execOffset seg, 1, none⟩]⟩

def Setup.addLib (j : ℕ) (lib : Library) (offset : ℤ) (s : Setup) : Setup :=
  match lib.tls with
  | none => s
  | some seg =>
    if seg.len ≠ 0 then
      ⟨s.tlsCnt + 1, maxp2 s.tlsAlign seg.align,
        s.modules ++ [⟨some j, seg, offset, s.tlsCnt, some (s.tlsCnt + 1)⟩]⟩
    else s

/-- The loop after the first libraries. -/
def Program.setup (p : Program) : ℕ → Setup
  | 0 => .start p.exec
  | j + 1 =>
    match p.libs[j]? with
    | none => p.setup j
    | some lib => (p.setup j).addLib j lib (p.tlsOffset (j + 1))

namespace Program

variable (p : Program)

def final : Setup :=
  p.setup p.libs.length

def tlsAlign : ℤ :=
  p.final.tlsAlign

/-- The size of the dtv. -/
def dtvSize : ℤ :=
  (1 + p.final.tlsCnt) * 8

/-- `tls_size`. -/
def tlsSize : ℤ :=
  (p.dtvSize + p.tlsOffset p.libs.length + sizeofPthread + p.tlsAlign * 2 +
    p.tlsAlign - 1).land (-p.tlsAlign)

/-- The thread descriptor, which is also the value of `FS`, in an area at `mem`. -/
def td (mem : ℤ) : ℤ :=
  let mem := mem + p.tlsSize - sizeofPthread
  mem - mem.land (p.tlsAlign - 1)

/-- `dtv`. -/
def dtv (mem : ℤ) : ℕ → Option ℤ
  | 0 => some p.final.tlsCnt
  | i + 1 => p.final.modules[i]?.map fun m => p.td mem - m.offset

/-! ## Right layouts -/

/-- The module has a block, at an offset below the thread descriptor. -/
def Block (src : Option ℕ) (seg : Segment) (offset : ℤ) : Prop :=
  segmentOf p.exec p.libs src = some seg ∧
    match src with
    | none => offset = execOffset seg
    | some j => 0 < seg.size ∧ offset = p.tlsOffset (j + 1)

/-- The blocks are apart, in the area between the dtv and the thread descriptor, and congruent to
their images. -/
structure BlocksRight (mem : ℤ) : Prop where
  apart : ∀ src seg offset, p.Block src seg offset → ∀ src' seg' offset',
    p.Block src' seg' offset' → src ≠ src' →
      p.td mem - offset + seg.size ≤ p.td mem - offset' ∨
        p.td mem - offset' + seg'.size ≤ p.td mem - offset
  dtv_le : ∀ src seg offset, p.Block src seg offset → mem + p.dtvSize ≤ p.td mem - offset
  le_td : ∀ src seg offset, p.Block src seg offset → p.td mem - offset + seg.size ≤ p.td mem
  td_le : p.td mem + sizeofPthread ≤ mem + p.tlsSize
  congruent : ∀ src seg offset, p.Block src seg offset →
    seg.align ∣ p.td mem - offset - seg.image

/-- The slot of a module in the dtv, its `tls_id` and what its library reads are one number. -/
def IdsRight (mem : ℤ) : Prop :=
  ∀ src seg offset, p.Block src seg offset → ∃ (i : ℕ) (m : Module),
    p.final.modules[i]? = some m ∧ m.source = src ∧
      p.dtv mem (i + 1) = some (p.td mem - offset) ∧ m.tlsId = i + 1 ∧
        (src ≠ none → m.dtpMod = some (i + 1))

/-- A TP-relative value leads from `FS` to the variable. -/
def TpRight (mem : ℤ) : Prop :=
  ∀ j lib, p.libs[j]? = some lib → ∀ r ∈ lib.tprel, ∀ seg offset, p.Block r.target seg offset →
    p.td mem + p.tpValue j r = p.td mem - offset + (r.value + r.addend)

/-- The layout is right. -/
structure LayoutRight (mem : ℤ) : Prop where
  blocks : p.BlocksRight mem
  ids : p.IdsRight mem
  tprel : p.TpRight mem

end Program

/-! ## Offsets -/

namespace Segment

variable (seg : Segment)

theorem align_pos : 0 < seg.align := by
  rw [seg.align_eq]
  exact pow_pos two_pos _

theorem size_nonneg : 0 ≤ seg.size :=
  seg.len_nonneg.trans seg.len_le

theorem land_align (x : ℤ) : x.land (seg.align - 1) = x % seg.align := by
  rw [seg.align_eq]
  exact land_two_pow_sub_one x seg.exponent

theorem execOffset_eq : execOffset seg = seg.size + -(seg.image + seg.size) % seg.align := by
  rw [execOffset, seg.land_align]
  ring

theorem execOffset_bounds :
    seg.size ≤ execOffset seg ∧ execOffset seg ≤ seg.size + (seg.align - 1) := by
  have hnonneg := Int.emod_nonneg (-(seg.image + seg.size)) seg.align_pos.ne'
  have hlt := Int.emod_lt_of_pos (-(seg.image + seg.size)) seg.align_pos
  rw [execOffset_eq]
  omega

theorem dvd_execOffset_add : seg.align ∣ execOffset seg + seg.image := by
  have hdvd := Int.dvd_sub_self_of_emod_eq (a := -(seg.image + seg.size)) (b := seg.align) rfl
  rw [execOffset_eq]
  obtain ⟨k, hk⟩ := hdvd
  exact ⟨k, by linarith⟩

/-- What the constructor of a library with TLS makes of `tls_offset`. -/
theorem initLib_eq {lib : Library} (hlib : lib.tls = some seg) (hsize : 0 < seg.size) (o : ℤ) :
    initLib lib o = o + seg.size + seg.align - 1 -
      (o + seg.size + seg.align - 1 + seg.image) % seg.align := by
  rw [initLib, hlib]
  simp only [if_pos hsize, land_align]

theorem le_initLib {lib : Library} (hlib : lib.tls = some seg) (hsize : 0 < seg.size) (o : ℤ) :
    o + seg.size ≤ initLib lib o := by
  have hlt := Int.emod_lt_of_pos (o + seg.size + seg.align - 1 + seg.image) seg.align_pos
  rw [seg.initLib_eq hlib hsize]
  omega

theorem dvd_initLib_add {lib : Library} (hlib : lib.tls = some seg) (hsize : 0 < seg.size)
    (o : ℤ) : seg.align ∣ initLib lib o + seg.image := by
  have hdvd := Int.dvd_self_sub_of_emod_eq
    (a := o + seg.size + seg.align - 1 + seg.image) (b := seg.align) rfl
  rw [seg.initLib_eq hlib hsize]
  obtain ⟨k, hk⟩ := hdvd
  exact ⟨k, by linarith⟩

end Segment

namespace Program

variable {p : Program} {src : Option ℕ} {seg : Segment} {offset : ℤ}

theorem tlsOffset_le_succ (p : Program) (j : ℕ) : p.tlsOffset j ≤ p.tlsOffset (j + 1) := by
  rw [tlsOffset]
  split
  · exact le_rfl
  · rename_i lib _
    cases htls : lib.tls with
    | none => rw [initLib, htls]
    | some seg =>
      by_cases hsize : 0 < seg.size
      · exact (le_add_of_nonneg_right hsize.le).trans (seg.le_initLib htls hsize _)
      · simp [initLib, htls, hsize]

theorem tlsOffset_mono (p : Program) {i j : ℕ} (h : i ≤ j) : p.tlsOffset i ≤ p.tlsOffset j := by
  induction j, h using Nat.le_induction with
  | base => exact le_rfl
  | succ j _ ih => exact ih.trans (p.tlsOffset_le_succ j)

theorem tlsOffset_nonneg (p : Program) (j : ℕ) : 0 ≤ p.tlsOffset j := by
  refine le_trans ?_ (p.tlsOffset_mono (Nat.zero_le j))
  rw [tlsOffset]
  cases p.exec with
  | none => exact le_rfl
  | some seg =>
    have hsize := seg.size_nonneg
    have halign := seg.align_pos
    rw [execTlsOffset]
    omega

/-- The library of a block. -/
theorem Block.library {j : ℕ} (h : p.Block (some j) seg offset) : ∃ lib, p.libs[j]? = some lib ∧
    lib.tls = some seg ∧ 0 < seg.size ∧ offset = initLib lib (p.tlsOffset j) := by
  obtain ⟨hseg, hsize, hoffset⟩ := h
  obtain ⟨lib, hlib, htls⟩ := Option.bind_eq_some_iff.1 hseg
  rw [tlsOffset, hlib] at hoffset
  exact ⟨lib, hlib, htls, hsize, hoffset⟩

theorem Block.exec_le (h : p.Block none seg offset) : offset ≤ p.tlsOffset 0 := by
  obtain ⟨hseg, hoffset⟩ := h
  have hexec : p.exec = some seg := hseg
  rw [hoffset, tlsOffset, hexec]
  exact seg.execOffset_bounds.2

theorem Block.add_size_le {j : ℕ} (h : p.Block (some j) seg offset) :
    p.tlsOffset j + seg.size ≤ offset := by
  obtain ⟨lib, -, htls, hsize, rfl⟩ := h.library
  exact seg.le_initLib htls hsize _

theorem Block.size_le (h : p.Block src seg offset) : seg.size ≤ offset := by
  cases src with
  | none =>
    rw [h.2]
    exact seg.execOffset_bounds.1
  | some j => linarith [h.add_size_le, p.tlsOffset_nonneg j]

theorem Block.le_final (h : p.Block src seg offset) : offset ≤ p.tlsOffset p.libs.length := by
  cases src with
  | none => exact h.exec_le.trans (p.tlsOffset_mono (Nat.zero_le _))
  | some j =>
    obtain ⟨lib, hlib, -⟩ := h.library
    have hj : j + 1 ≤ p.libs.length := (List.getElem?_eq_some_iff.1 hlib).1
    exact h.2.2.le.trans (p.tlsOffset_mono hj)

theorem Block.dvd_add (h : p.Block src seg offset) : seg.align ∣ offset + seg.image := by
  cases src with
  | none =>
    rw [h.2]
    exact seg.dvd_execOffset_add
  | some j =>
    obtain ⟨lib, -, htls, hsize, rfl⟩ := h.library
    exact seg.dvd_initLib_add htls hsize _

/-- The block of a later library is below. -/
theorem Block.below {i j : ℕ} (hij : i < j) {seg' : Segment} {offset' : ℤ}
    (hi : p.Block (some i) seg' offset') (hj : p.Block (some j) seg offset) :
    offset' + seg.size ≤ offset := by
  have hle := p.tlsOffset_mono (Nat.succ_le_of_lt hij)
  rw [hi.2.2]
  linarith [hj.add_size_le]

end Program

/-! ## Modules -/

/-- What the loop over the libraries keeps : the modules are counted, the alignment is that of the
thread descriptor or of a module, at least as large as each of them, and `tls_id` of a library is
the number before its number. -/
structure Setup.Inv (p : Program) (j : ℕ) (s : Setup) : Prop where
  tlsCnt_eq : s.tlsCnt = s.modules.length
  tlsAlign_eq : ∃ k, s.tlsAlign = 2 ^ k ∧ ∀ m ∈ s.modules, m.segment.exponent ≤ k
  tlsId_eq : ∀ (i : ℕ) (m : Module), s.modules[i]? = some m → m.source ≠ none → m.tlsId = i
  exec : ∀ seg, p.exec = some seg → s.modules[0]? = some ⟨none, seg, execOffset seg, 1, none⟩
  complete : ∀ l < j, ∀ lib, p.libs[l]? = some lib → ∀ seg, lib.tls = some seg → seg.len ≠ 0 →
    ∃ m ∈ s.modules, m.segment = seg

theorem maxp2_two_pow (i j : ℕ) : maxp2 (2 ^ i) (2 ^ j) = 2 ^ max i j :=
  neg_land_neg_two_pow i j

namespace Program

variable {p : Program} {mem : ℤ} {src : Option ℕ} {seg : Segment} {offset : ℤ}

theorem inv_start (p : Program) : (Setup.start p.exec).Inv p 0 := by
  cases hexec : p.exec with
  | none =>
    exact {
      tlsCnt_eq := rfl
      tlsAlign_eq := ⟨3, rfl, fun _ hm => absurd hm List.not_mem_nil⟩
      tlsId_eq := fun _ _ hm => nomatch hm
      exec := fun _ h => nomatch hexec.symm.trans h
      complete := fun _ hl => absurd hl (Nat.not_lt_zero _) }
  | some seg =>
    refine ⟨rfl, ⟨max 3 seg.exponent, ?_, fun m hm => ?_⟩, fun i m hm hsource => ?_,
      fun seg' hseg => ?_, fun _ hl => absurd hl (Nat.not_lt_zero _)⟩
    · rw [← maxp2_two_pow, ← seg.align_eq]
      rfl
    · obtain rfl := List.mem_singleton.1 hm
      exact le_max_right _ _
    · obtain rfl := List.mem_singleton.1 (List.mem_of_getElem? hm)
      exact absurd rfl hsource
    · obtain rfl := Option.some.inj (hexec.symm.trans hseg)
      rfl

/-- A library that is passed over. -/
theorem inv_skip {j : ℕ} {s : Setup} (h : s.Inv p j)
    (hskip : ∀ lib, p.libs[j]? = some lib → ∀ seg, lib.tls = some seg → seg.len = 0) :
    s.Inv p (j + 1) := by
  refine { h with complete := fun l hl lib hlib seg htls hlen => ?_ }
  rcases Nat.lt_succ_iff_lt_or_eq.1 hl with hlt | rfl
  · exact h.complete l hlt lib hlib seg htls hlen
  · exact absurd (hskip lib hlib seg htls) hlen

theorem inv_addLib {j : ℕ} {s : Setup} (h : s.Inv p j) {lib : Library}
    (hlib : p.libs[j]? = some lib) (offset : ℤ) : (s.addLib j lib offset).Inv p (j + 1) := by
  have hsame : ∀ lib', p.libs[j]? = some lib' → lib' = lib :=
    fun _ h' => Option.some.inj (h'.symm.trans hlib)
  cases htls : lib.tls with
  | none =>
    rw [Setup.addLib, htls]
    refine inv_skip h fun lib' hlib' seg hseg => ?_
    rw [hsame lib' hlib', htls] at hseg
    exact nomatch hseg
  | some seg =>
    by_cases hlen : seg.len ≠ 0
    · have hadd : s.addLib j lib offset = ⟨s.tlsCnt + 1, maxp2 s.tlsAlign seg.align,
          s.modules ++ [⟨some j, seg, offset, s.tlsCnt, some (s.tlsCnt + 1)⟩]⟩ := by
        rw [Setup.addLib, htls]
        exact if_pos hlen
      obtain ⟨k, hk, hle⟩ := h.tlsAlign_eq
      rw [hadd]
      refine ⟨?_, ⟨max k seg.exponent, ?_, fun m hm => ?_⟩, fun i m hm hsource => ?_,
        fun seg' hseg => ?_, fun l hl lib' hlib' seg' hseg hlen' => ?_⟩
      · rw [List.length_append, h.tlsCnt_eq]
        rfl
      · rw [← maxp2_two_pow, ← seg.align_eq, hk]
      · rcases List.mem_append.1 hm with hm | hm
        · exact (hle m hm).trans (le_max_left _ _)
        · obtain rfl := List.mem_singleton.1 hm
          exact le_max_right _ _
      · rw [List.getElem?_append] at hm
        split_ifs at hm with hi
        · exact h.tlsId_eq i m hm hsource
        · have hzero : i - s.modules.length = 0 := by
            have hlt := (List.getElem?_eq_some_iff.1 hm).1
            exact Nat.lt_one_iff.1 hlt
          rw [hzero] at hm
          obtain rfl := Option.some.inj hm
          exact h.tlsCnt_eq.trans (by omega)
      · have hfirst := h.exec seg' hseg
        exact List.getElem?_append_left (List.getElem?_eq_some_iff.1 hfirst).1 ▸ hfirst
      · rcases Nat.lt_succ_iff_lt_or_eq.1 hl with hlt | rfl
        · obtain ⟨m, hm, heq⟩ := h.complete l hlt lib' hlib' seg' hseg hlen'
          exact ⟨m, List.mem_append_left _ hm, heq⟩
        · rw [hsame lib' hlib', htls] at hseg
          exact ⟨_, List.mem_append_right _ (List.mem_singleton_self _), Option.some.inj hseg⟩
    · have hadd : s.addLib j lib offset = s := by
        rw [Setup.addLib, htls]
        exact if_neg hlen
      rw [hadd]
      refine inv_skip h fun lib' hlib' seg' hseg => ?_
      rw [hsame lib' hlib', htls] at hseg
      exact Option.some.inj hseg ▸ not_not.1 hlen

theorem inv_setup (p : Program) (j : ℕ) : (p.setup j).Inv p j := by
  induction j with
  | zero => exact inv_start p
  | succ j ih =>
    rw [setup]
    split
    · rename_i hlib
      exact inv_skip ih fun lib hlib' => nomatch hlib.symm.trans hlib'
    · rename_i lib hlib
      exact inv_addLib ih hlib _

/-! ## Blocks -/

/-- The runtime sees each library with TLS. -/
def Registered (p : Program) : Prop :=
  ∀ lib ∈ p.libs, ∀ seg, lib.tls = some seg → 0 < seg.size → seg.len ≠ 0

theorem exists_module (hp : p.Registered) (h : p.Block src seg offset) :
    ∃ m ∈ p.final.modules, m.segment = seg := by
  have hinv := p.inv_setup p.libs.length
  cases src with
  | none => exact ⟨_, List.mem_of_getElem? (hinv.exec seg h.1), rfl⟩
  | some j =>
    obtain ⟨lib, hlib, htls, hsize, -⟩ := h.library
    exact hinv.complete j (List.getElem?_eq_some_iff.1 hlib).1 lib hlib seg htls
      (hp lib (List.mem_of_getElem? hlib) seg htls hsize)

theorem tlsAlign_eq (p : Program) : ∃ k, p.tlsAlign = 2 ^ k ∧
    ∀ m ∈ p.final.modules, m.segment.exponent ≤ k :=
  (p.inv_setup p.libs.length).tlsAlign_eq

theorem tlsAlign_pos (p : Program) : 0 < p.tlsAlign := by
  obtain ⟨k, hk, -⟩ := p.tlsAlign_eq
  rw [hk]
  exact pow_pos two_pos k

theorem td_eq (p : Program) (mem : ℤ) : p.td mem = mem + p.tlsSize - sizeofPthread -
    (mem + p.tlsSize - sizeofPthread) % p.tlsAlign := by
  obtain ⟨k, hk, -⟩ := p.tlsAlign_eq
  rw [td, hk, land_two_pow_sub_one]

/-- The area has room for the dtv, the blocks and the thread descriptor. -/
theorem le_tlsSize (p : Program) : p.dtvSize + p.tlsOffset p.libs.length + sizeofPthread +
    p.tlsAlign * 2 ≤ p.tlsSize := by
  obtain ⟨k, hk, -⟩ := p.tlsAlign_eq
  have hpos := p.tlsAlign_pos
  have hoffset := p.tlsOffset_nonneg p.libs.length
  have hdtv : 0 ≤ p.dtvSize := by
    rw [dtvSize]
    omega
  obtain ⟨x, hx⟩ : ∃ x : ℕ, (x : ℤ) = p.dtvSize + p.tlsOffset p.libs.length + sizeofPthread +
      p.tlsAlign * 2 + p.tlsAlign - 1 := ⟨_, Int.toNat_of_nonneg (by rw [sizeofPthread]; omega)⟩
  have hlt := Int.emod_lt_of_pos x hpos
  rw [tlsSize, ← hx, hk, land_neg_two_pow, ← hk]
  omega

theorem dtv_le_td (p : Program) (mem : ℤ) :
    mem + p.dtvSize + p.tlsOffset p.libs.length ≤ p.td mem := by
  have hlt := Int.emod_lt_of_pos (mem + p.tlsSize - sizeofPthread) p.tlsAlign_pos
  have hsize := p.le_tlsSize
  have hpos := p.tlsAlign_pos
  rw [td_eq]
  omega

theorem dvd_td (hp : p.Registered) (h : p.Block src seg offset) : seg.align ∣ p.td mem := by
  obtain ⟨m, hm, rfl⟩ := exists_module hp h
  obtain ⟨k, hk, hle⟩ := p.tlsAlign_eq
  have hdvd : m.segment.align ∣ p.tlsAlign := by
    rw [hk, m.segment.align_eq]
    exact pow_dvd_pow 2 (hle m hm)
  rw [td_eq]
  exact hdvd.trans (Int.dvd_self_sub_of_emod_eq rfl)

/-- The blocks that the runtime sees are right, for any number of libraries. -/
theorem blocks_right (hp : p.Registered) (mem : ℤ) : p.BlocksRight mem where
  apart src seg offset h src' seg' offset' h' hne := by
    cases src with
    | none =>
      cases src' with
      | none => exact absurd rfl hne
      | some j =>
        have hle := h.exec_le.trans (p.tlsOffset_mono (Nat.zero_le j))
        have hsize := h'.add_size_le
        exact .inr (by omega)
    | some i =>
      cases src' with
      | none =>
        have hle := h'.exec_le.trans (p.tlsOffset_mono (Nat.zero_le i))
        have hsize := h.add_size_le
        exact .inl (by omega)
      | some j =>
        rcases Nat.lt_or_gt_of_ne fun heq => hne (congrArg some heq) with hlt | hlt
        · have hbelow := Block.below hlt h h'
          exact .inr (by omega)
        · have hbelow := Block.below hlt h' h
          exact .inl (by omega)
  dtv_le src seg offset h := by
    have hle := h.le_final
    have htd := p.dtv_le_td mem
    omega
  le_td src seg offset h := by
    have hsize := h.size_le
    omega
  td_le := by
    have hnonneg := Int.emod_nonneg (mem + p.tlsSize - sizeofPthread) p.tlsAlign_pos.ne'
    rw [td_eq]
    omega
  congruent src seg offset h := by
    rw [sub_sub]
    exact Int.dvd_sub (dvd_td hp h) h.dvd_add

/-! ## Numbers and relocations -/

/-- A library with TLS has no right number. -/
theorem not_idsRight {j : ℕ} (h : p.Block (some j) seg offset) : ¬p.IdsRight mem := by
  intro hids
  obtain ⟨i, m, hm, hsource, -, hid, -⟩ := hids _ _ _ h
  have hlast := (p.inv_setup p.libs.length).tlsId_eq i m hm (hsource ▸ Option.some_ne_none j)
  omega

theorem idsRight (h : ∀ lib ∈ p.libs, ∀ seg, lib.tls = some seg → seg.size = 0) (mem : ℤ) :
    p.IdsRight mem := by
  intro src seg offset hblock
  cases src with
  | none =>
    have hfirst := (p.inv_setup p.libs.length).exec seg hblock.1
    refine ⟨0, _, hfirst, rfl, ?_, rfl, fun hne => absurd rfl hne⟩
    rw [hblock.2]
    exact congrArg (Option.map _) hfirst
  | some j =>
    obtain ⟨lib, hlib, htls, hsize, -⟩ := hblock.library
    exact absurd (h lib (List.mem_of_getElem? hlib) seg htls) hsize.ne'

/-- Each relocation is of a variable in a block. -/
theorem exists_block {lib : Library} (hlib : lib ∈ p.libs) {r : TpReloc} (hr : r ∈ lib.tprel) :
    ∃ seg offset, p.Block r.target seg offset ∧ r.value < seg.size := by
  obtain ⟨seg, hseg, hnonneg, hlt⟩ := p.tprel_mem lib hlib r hr
  cases htarget : r.target with
  | none =>
    rw [htarget] at hseg
    exact ⟨seg, _, ⟨hseg, rfl⟩, hlt⟩
  | some j =>
    rw [htarget] at hseg
    exact ⟨seg, _, ⟨hseg, hnonneg.trans_lt hlt, rfl⟩, hlt⟩

/-- No TP-relative value is right. -/
theorem not_tpRight {lib : Library} (hlib : lib ∈ p.libs) {r : TpReloc} (hr : r ∈ lib.tprel) :
    ¬p.TpRight mem := by
  intro htp
  obtain ⟨j, hj⟩ := List.mem_iff_getElem?.1 hlib
  obtain ⟨seg, offset, hblock, hlt⟩ := exists_block hlib hr
  have heq := htp j lib hj r hr seg offset hblock
  have hsize := hblock.size_le
  have hnonneg := p.tlsOffset_nonneg (j + 1)
  rw [tpValue] at heq
  omega

end Program

/-- A program is right when no library has thread-local variables or relocations of them. -/
theorem layout_right_iff (p : Program) (mem : ℤ) : p.LayoutRight mem ↔
    ∀ lib ∈ p.libs, (∀ seg, lib.tls = some seg → seg.size = 0) ∧ lib.tprel = [] := by
  constructor
  · refine fun hright lib hlib => ⟨fun seg htls => ?_, ?_⟩
    · by_contra hne
      obtain ⟨j, hj⟩ := List.mem_iff_getElem?.1 hlib
      have hseg : segmentOf p.exec p.libs (some j) = some seg := by
        rw [segmentOf, hj]
        exact htls
      exact Program.not_idsRight ⟨hseg, lt_of_le_of_ne seg.size_nonneg (Ne.symm hne), rfl⟩
        hright.ids
    · refine List.eq_nil_iff_forall_not_mem.2 fun r hr => ?_
      exact Program.not_tpRight hlib hr hright.tprel
  · refine fun h => ⟨Program.blocks_right (fun lib hlib seg htls hsize => ?_) mem,
      Program.idsRight (fun lib hlib => (h lib hlib).1) mem, fun j lib hlib r hr => ?_⟩
    · exact absurd ((h lib hlib).1 seg htls) hsize.ne'
    · rw [(h lib (List.mem_of_getElem? hlib)).2] at hr
      exact absurd hr List.not_mem_nil

/-- An executable and a library with a variable each. -/
def twoModules : Program where
  exec := some ⟨0x401000, 8, 8, 8, 3, by decide, by decide, rfl⟩
  libs := [⟨some ⟨0x7f0000, 8, 8, 8, 3, by decide, by decide, rfl⟩, []⟩]
  tprel_mem lib hlib r hr := by
    obtain rfl := List.mem_singleton.1 hlib
    exact absurd hr List.not_mem_nil

/-- The library has the slot 2, and its `tls_id` is 1, as that of the executable. -/
theorem not_layout_right : ¬twoModules.LayoutRight 0x10000 := fun hright =>
  Program.not_idsRight (p := twoModules) (j := 0) ⟨rfl, by decide, rfl⟩ hright.ids

end Arancini.Runtime.TlsLayout
